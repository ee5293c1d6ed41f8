import Mathlib.Algebra.GroupWithZero.Nat

/-!
# Labelled machines

A machine is a set of initial states and a labelled step relation. `Run` records the labels of a
run in order and grows at its end, so that an induction on it looks at the last step; an invariant
may speak about the labels performed so far as well as about the state (`Run.invariant`), or about
what the labels create (`Run.forall_created`).
`Run.length_add_weight_le` bounds the length of a run by what its labels cost.
`Reachable` forgets the labels, and `restrict` keeps the steps that are permitted: what is proved of
the machine holds of its restriction (`Reachable.of_restrict`). A machine that agrees with a step
function is run by folding the function over labels (`Run.of_foldlM`), so what every step keeps, a
fold that comes to its end keeps (`foldlM_invariant`).
-/

namespace ExtremeS3

/-- A labelled transition system with its initial states. -/
structure Machine (σ : Type u) (α : Type v) where
  init : σ → Prop
  step : σ → α → σ → Prop

namespace Machine

variable {σ : Type u} {α : Type v} {M : Machine σ α}

/-- Performing the labels of the list in order leads from the first state to the second. -/
inductive Run (M : Machine σ α) (s : σ) : List α → σ → Prop
  | nil : Run M s [] s
  | snoc {ls t a u} : Run M s ls t → M.step t a u → Run M s (ls ++ [a]) u

/-- The states some run leads to from an initial state. -/
def Reachable (M : Machine σ α) (t : σ) : Prop :=
  ∃ s ls, M.init s ∧ M.Run s ls t

/-- What holds of no label and the first state, and is kept by every step, holds of the labels and
the last state of a run. -/
theorem Run.invariant {I : List α → σ → Prop} {s t : σ} {ls : List α} (h : M.Run s ls t)
    (h₀ : I [] s) (hstep : ∀ ls t a u, I ls t → M.step t a u → I (ls ++ [a]) u) : I ls t := by
  induction h with
  | nil => exact h₀
  | snoc _ hs ih => exact hstep _ _ _ _ ih hs

/-- What holds of everything that a step creates, and is kept by every step, holds of everything that
a run creates. -/
theorem Run.forall_created {I : σ → Prop} {P : σ → ρ → Prop} {creates : α → Option ρ} {s t : σ}
    {ls : List α} (h : M.Run s ls t) (h₀ : I s)
    (hstep : ∀ t a u, I t → M.step t a u →
      I u ∧ (∀ r, creates a = some r → P u r) ∧ ∀ r, P t r → P u r) :
    ∀ r ∈ ls.filterMap creates, P t r := by
  refine (h.invariant (I := fun ls t => I t ∧ ∀ r ∈ ls.filterMap creates, P t r)
    ⟨h₀, fun r hr => absurd hr List.not_mem_nil⟩ fun ls t a u ht hs => ?_).2
  obtain ⟨hI, hnew, hold⟩ := hstep t a u ht.1 hs
  refine ⟨hI, fun r hr => ?_⟩
  rw [List.filterMap_append] at hr
  rcases List.mem_append.1 hr with hr | hr
  · exact hold r (ht.2 r hr)
  · obtain ⟨b, hb, hcreates⟩ := List.mem_filterMap.1 hr
    rw [List.mem_singleton.1 hb] at hcreates
    exact hnew r hcreates

/-- A run to an appended list of labels passes through the state between the two parts. -/
theorem Run.split {s u : σ} {ks ls : List α} (h : M.Run s (ks ++ ls) u) :
    ∃ t, M.Run s ks t ∧ M.Run t ls u := by
  generalize he : ks ++ ls = ms at h
  induction h generalizing ls with
  | nil =>
    obtain ⟨rfl, rfl⟩ := List.append_eq_nil_iff.1 he
    exact ⟨s, .nil, .nil⟩
  | @snoc ms t a u hr hs ih =>
    rcases List.eq_nil_or_concat ls with rfl | ⟨ls, b, rfl⟩
    · rw [List.append_nil] at he
      exact ⟨u, he ▸ .snoc hr hs, .nil⟩
    · rw [List.concat_eq_append, ← List.append_assoc] at he
      obtain ⟨rfl, hb⟩ := List.append_inj' he rfl
      cases hb
      obtain ⟨v, h1, h2⟩ := ih rfl
      exact ⟨v, h1, List.concat_eq_append ▸ .snoc h2 hs⟩

/-- Runs compose. -/
theorem Run.append {s t u : σ} {ks ls : List α} (h₁ : M.Run s ks t) (h₂ : M.Run t ls u) :
    M.Run s (ks ++ ls) u := by
  induction h₂ with
  | nil => rwa [List.append_nil]
  | snoc _ hs ih => exact List.append_assoc .. ▸ .snoc ih hs

/-- One step is a run. -/
theorem Run.single {s t : σ} {a : α} (h : M.step s a t) : M.Run s [a] t :=
  show M.Run s ([] ++ [a]) t from .snoc .nil h

/-- A step before a run. -/
theorem Run.cons {s t u : σ} {a : α} {ls : List α} (h : M.step s a t) (hr : M.Run t ls u) :
    M.Run s (a :: ls) u :=
  (Run.single h).append hr

/-- A run without labels stays where it is. -/
theorem Run.eq_of_nil {s t : σ} (h : M.Run s [] t) : t = s := by
  generalize he : ([] : List α) = ls at h
  cases h with
  | nil => rfl
  | snoc => simp at he

/-- A run that performs a label first steps with it. -/
theorem Run.cons_inv {s u : σ} {a : α} {ls : List α} (h : M.Run s (a :: ls) u) :
    ∃ t, M.step s a t ∧ M.Run t ls u := by
  obtain ⟨t, h₁, h₂⟩ := Run.split (show M.Run s ([a] ++ ls) u from h)
  generalize he : [a] = ks at h₁
  cases h₁ with
  | nil => cases he
  | @snoc ks v b _ hr hs =>
    obtain ⟨rfl, hb⟩ := List.append_inj' (show [] ++ [a] = ks ++ [b] from he) rfl
    cases hb
    exact ⟨t, hr.eq_of_nil ▸ hs, h₂⟩

/-- Folding a step function over labels runs the machine that it agrees with. -/
theorem Run.of_foldlM {f : σ → α → Option σ} (hf : ∀ s a t, f s a = some t → M.step s a t)
    {s t : σ} {ls : List α} (h : ls.foldlM f s = some t) : M.Run s ls t := by
  induction ls generalizing s with
  | nil => cases h; exact .nil
  | cons a ls ih =>
    rw [List.foldlM_cons, Option.bind_eq_bind, Option.bind_eq_some_iff] at h
    obtain ⟨u, hu, h⟩ := h
    exact (Run.single (hf _ _ _ hu)).append (ih h)

/-- The invariant rule of a fold that comes to its end: what every step keeps is kept. -/
theorem foldlM_invariant {I : σ → Prop} {f : σ → α → Option σ}
    (hf : ∀ s a t, I s → f s a = some t → I t) {ls : List α} {s t : σ}
    (h : ls.foldlM f s = some t) (hs : I s) : I t :=
  (Run.of_foldlM (M := ⟨fun _ => True, fun s a t => f s a = some t⟩) (fun _ _ _ h => h) h).invariant
    (I := fun _ t => I t) hs fun _ => hf

/-- The invariant rule on states. -/
theorem Reachable.invariant {I : σ → Prop} {t : σ} (h : M.Reachable t) (h₀ : ∀ s, M.init s → I s)
    (hstep : ∀ t a u, I t → M.step t a u → I u) : I t := by
  obtain ⟨s, ls, hs, hr⟩ := h
  exact hr.invariant (I := fun _ t => I t) (h₀ s hs) (fun _ => hstep)

/-- One more step of a run from an initial state. -/
theorem Reachable.snoc {t u : σ} {a : α} (h : M.Reachable t) (hs : M.step t a u) :
    M.Reachable u := by
  obtain ⟨s, ls, hinit, hr⟩ := h
  exact ⟨s, ls ++ [a], hinit, .snoc hr hs⟩

/-- The potential rule: if every step is paid for by what its label costs or by the weight of the
state, a run has no more steps than its labels and its first state pay for. -/
theorem Run.length_add_weight_le {I : σ → Prop} {w : σ → Nat} {c : α → Nat} {s t : σ}
    {ls : List α} (h : M.Run s ls t) (h₀ : I s)
    (hstep : ∀ t a u, I t → M.step t a u → I u ∧ w u + 1 ≤ w t + c a) :
    ls.length + w t ≤ w s + (ls.map c).sum := by
  refine (h.invariant (I := fun ls t => I t ∧ ls.length + w t ≤ w s + (ls.map c).sum)
    ⟨h₀, by simp⟩ fun ls t a u ht hs => ?_).2
  obtain ⟨hI, hpaid⟩ := hstep t a u ht.1 hs
  refine ⟨hI, ?_⟩
  have hle := ht.2
  simp only [List.length_append, List.length_singleton, List.map_append, List.map_cons,
    List.map_nil, List.sum_append_nat, List.sum_cons, List.sum_nil]
  omega

/-- The machine with the steps that are permitted. -/
def restrict (M : Machine σ α) (ok : σ → α → σ → Prop) : Machine σ α where
  init := M.init
  step s a t := ok s a t ∧ M.step s a t

/-- Folding a step function and checking what is permitted runs the restricted machine. -/
theorem Run.restrict_of_foldlM {ok : σ → α → σ → Prop} [∀ s a t, Decidable (ok s a t)]
    {f : σ → α → Option σ} (hf : ∀ s a t, f s a = some t → M.step s a t) {s t : σ} {ls : List α}
    (h : ls.foldlM (fun s a => (f s a).filter (ok s a ·)) s = some t) :
    (M.restrict ok).Run s ls t := by
  refine Run.of_foldlM (fun s a t hst => ?_) h
  obtain ⟨hst, hok⟩ := Option.filter_eq_some_iff.1 hst
  exact ⟨of_decide_eq_true hok, hf s a t hst⟩

/-- A run of the restricted machine is a run of the machine. -/
theorem Run.of_restrict {ok : σ → α → σ → Prop} {s t : σ} {ls : List α}
    (h : (M.restrict ok).Run s ls t) : M.Run s ls t := by
  induction h with
  | nil => exact .nil
  | snoc _ hs ih => exact .snoc ih hs.2

/-- What the restricted machine reaches, the machine reaches. -/
theorem Reachable.of_restrict {ok : σ → α → σ → Prop} {t : σ} (h : (M.restrict ok).Reachable t) :
    M.Reachable t := by
  obtain ⟨s, ls, hs, hr⟩ := h
  exact ⟨s, ls, hs, hr.of_restrict⟩

end Machine

end ExtremeS3
