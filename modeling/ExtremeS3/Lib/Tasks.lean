import ExtremeS3.Lib.Machine
import ExtremeS3.Lib.Prog
import Mathlib.Algebra.GroupWithZero.Nat
import Mathlib.Data.List.Basic

/-!
# Tasks that schedule tasks

A task system runs one whole task at a time, in any order: a step picks a scheduled task, runs it as
a program on the state, and schedules what the task asks for. The label of the step says which task
is picked and what its environment answers. A system `Completes` when every task that comes to run
returns, no run goes on forever, and the state is as wanted when no task is left;
`completes_of_invariant` is the rule for it. If the tasks are answered, too, some run comes to its end
(`Completes.exists_run`).
-/

namespace ExtremeS3

/-- Tasks `τ` that run on a state `σ`, with answers `ω` of their environment. -/
structure TaskSystem (σ τ ω ε : Type) where
  run : σ → τ → ω → Prog ε (σ × List τ)
  answers : σ → τ → ω → Prop

namespace TaskSystem

variable {σ τ ω ε : Type} {S : TaskSystem σ τ ω ε}

/-- The runs of the tasks from a state with scheduled tasks. -/
def machine (S : TaskSystem σ τ ω ε) (start : σ × List τ) : Machine (σ × List τ) (Nat × ω) where
  init c := c = start
  step c l c' := ∃ t s' new, c.2[l.1]? = some t ∧ S.answers c.1 t l.2 ∧
    (S.run c.1 t l.2).Evals (.ok (s', new)) ∧ c' = (s', c.2.eraseIdx l.1 ++ new)

/-- Every task returns, every run is finite, and the state is as wanted in the end. -/
structure Completes (S : TaskSystem σ τ ω ε) (start : σ × List τ) (post : σ → Prop) : Prop where
  returns : ∀ s ts, (S.machine start).Reachable (s, ts) → ∀ t ∈ ts, ∀ o, S.answers s t o →
    ∃ r, (S.run s t o).Evals (.ok r)
  bounded : ∃ n, ∀ ls c, (S.machine start).Run start ls c → ls.length ≤ n
  post : ∀ s, (S.machine start).Reachable (s, []) → post s

/-- What is completed with a condition is completed with a weaker one. -/
theorem Completes.imp {start : σ × List τ} {post post' : σ → Prop} (h : S.Completes start post)
    (hpost : ∀ s, post s → post' s) : S.Completes start post' :=
  ⟨h.returns, h.bounded, fun s hs => hpost s (h.post s hs)⟩

section

variable {start : σ × List τ} {post : σ → Prop}

/-- If a system completes and its tasks are always answered, the first one that is scheduled can run
next. -/
theorem Completes.exists_snoc (h : S.Completes start post)
    (hanswers : ∀ s ts, (S.machine start).Reachable (s, ts) → ∀ t ∈ ts, ∃ o, S.answers s t o)
    {ls : List (Nat × ω)} {s : σ} {t : τ} {ts : List τ}
    (hr : (S.machine start).Run start ls (s, t :: ts)) :
    ∃ o s' new, (S.machine start).Run start (ls ++ [(0, o)]) (s', ts ++ new) := by
  obtain ⟨o, ho⟩ := hanswers s _ ⟨start, ls, rfl, hr⟩ t (.head _)
  obtain ⟨⟨s', new⟩, hrun⟩ := h.returns s _ ⟨start, ls, rfl, hr⟩ t (.head _) o ho
  exact ⟨o, s', new, .snoc hr ⟨t, s', new, rfl, ho, hrun, rfl⟩⟩

/-- Then some run ends with no task left. -/
theorem Completes.exists_run (h : S.Completes start post)
    (hanswers : ∀ s ts, (S.machine start).Reachable (s, ts) → ∀ t ∈ ts, ∃ o, S.answers s t o) :
    ∃ ls s, (S.machine start).Run start ls (s, []) ∧ post s := by
  obtain ⟨n, hn⟩ := h.bounded
  -- by induction on the number of tasks that may still run
  have hrest : ∀ k ls s ts, n < ls.length + k → (S.machine start).Run start ls (s, ts) →
      ∃ ls' s', (S.machine start).Run start ls' (s', []) := by
    intro k
    induction k with
    | zero =>
      intro ls s ts hk hr
      exact absurd (hn ls _ hr) (Nat.not_le_of_gt hk)
    | succ k ih =>
      intro ls s ts hk hr
      cases ts with
      | nil => exact ⟨ls, s, hr⟩
      | cons t ts =>
        obtain ⟨o, s', new, hr'⟩ := h.exists_snoc hanswers hr
        exact ih _ s' _ (by rw [List.length_append, List.length_singleton]; omega) hr'
  obtain ⟨ls, s, hr⟩ := hrest (n + 1) [] start.1 start.2 (by rw [List.length_nil]; omega) .nil
  exact ⟨ls, s, hr, h.post s ⟨start, ls, rfl, hr⟩⟩

/-- And there is a bound on the tasks that are ever scheduled: those that have run and those that are
still to run. -/
theorem Completes.scheduled_le (h : S.Completes start post)
    (hanswers : ∀ s ts, (S.machine start).Reachable (s, ts) → ∀ t ∈ ts, ∃ o, S.answers s t o) :
    ∃ n, ∀ ls s ts, (S.machine start).Run start ls (s, ts) → ls.length + ts.length ≤ n := by
  obtain ⟨n, hn⟩ := h.bounded
  -- by induction on the number of tasks that may still run
  have hrest : ∀ k ls s ts, n ≤ ls.length + k → (S.machine start).Run start ls (s, ts) →
      ls.length + ts.length ≤ n := by
    intro k
    induction k with
    | zero =>
      intro ls s ts hk hr
      cases ts with
      | nil => exact hn _ _ hr
      | cons t ts =>
        obtain ⟨o, s', new, hr'⟩ := h.exists_snoc hanswers hr
        have hlen := hn _ _ hr'
        rw [List.length_append, List.length_singleton] at hlen
        omega
    | succ k ih =>
      intro ls s ts hk hr
      cases ts with
      | nil => exact hn _ _ hr
      | cons t ts =>
        obtain ⟨o, s', new, hr'⟩ := h.exists_snoc hanswers hr
        have hlen := ih _ s' _ (by rw [List.length_append, List.length_singleton]; omega) hr'
        simp only [List.length_append, List.length_cons] at hlen ⊢
        omega
  exact ⟨n, fun ls s ts hr => hrest n ls s ts (Nat.le_add_left _ _) hr⟩

end

/-- A step runs one of the tasks, which leaves the other ones and those that it schedules. -/
theorem step_split {start : σ × List τ} {s : σ} {ts : List τ} {l : Nat × ω} {c' : σ × List τ}
    (h : (S.machine start).step (s, ts) l c') : ∃ before t after s' new,
      ts = before ++ t :: after ∧ S.answers s t l.2 ∧
      (S.run s t l.2).Evals (.ok (s', new)) ∧ c' = (s', before ++ after ++ new) := by
  obtain ⟨t, s', new, ht, ho, hrun, rfl⟩ := h
  obtain ⟨hi, rfl⟩ := List.getElem?_eq_some_iff.1 ht
  refine ⟨ts.take l.1, _, ts.drop (l.1 + 1), s', new, ?_, ho, hrun, ?_⟩
  · rw [List.getElem_cons_drop, List.take_append_drop]
  · rw [List.eraseIdx_eq_take_drop_succ]

/-- What every task keeps when it runs holds in every state that is reached. -/
theorem reachable_invariant {start : σ × List τ} {I : σ → List τ → Prop} (h₀ : I start.1 start.2)
    (hstep : ∀ s before t after o s' new, I s (before ++ t :: after) → S.answers s t o →
      (S.run s t o).Evals (.ok (s', new)) → I s' (before ++ after ++ new))
    {s : σ} {ts : List τ} (h : (S.machine start).Reachable (s, ts)) : I s ts := by
  refine h.invariant (I := fun c => I c.1 c.2) (fun c hc => by cases hc; exact h₀) ?_
  rintro ⟨s, ts⟩ l c' hI hs
  obtain ⟨before, t, after, s', new, rfl, ho, hrun, rfl⟩ := step_split hs
  exact hstep s before t after l.2 s' new hI ho hrun

/-- An invariant that every task keeps when it runs, with weights: what a task schedules weighs less
than the task itself. -/
theorem completes_of_invariant {start : σ × List τ} {post : σ → Prop} (I : σ → List τ → Prop)
    (weight : τ → Nat) (h₀ : I start.1 start.2)
    (hstep : ∀ s before t after o, I s (before ++ t :: after) → S.answers s t o →
      ∃ s' new, (S.run s t o).Evals (.ok (s', new)) ∧ I s' (before ++ after ++ new) ∧
        (new.map weight).sum < weight t)
    (hpost : ∀ s, I s [] → post s) : S.Completes start post := by
  have hstep' : ∀ c l c', I c.1 c.2 → (S.machine start).step c l c' →
      I c'.1 c'.2 ∧ (c'.2.map weight).sum < (c.2.map weight).sum := by
    rintro ⟨s, ts⟩ l c' hI hs
    obtain ⟨before, t, after, s', new, rfl, ho, hrun, rfl⟩ := step_split hs
    obtain ⟨s'', new', hrun', hI', hlt⟩ := hstep s before t after l.2 hI ho
    cases hrun.unique hrun'
    refine ⟨hI', ?_⟩
    simp only [List.map_append, List.map_cons, List.sum_append, List.sum_cons]
    omega
  have hreach : ∀ c, (S.machine start).Reachable c → I c.1 c.2 := fun c hc =>
    hc.invariant (I := fun c => I c.1 c.2) (fun c hc => by cases hc; exact h₀)
      fun c l c' hI hs => (hstep' c l c' hI hs).1
  refine ⟨fun s ts hc t ht o ho => ?_, ⟨(start.2.map weight).sum, fun ls c hc => ?_⟩,
    fun s hc => hpost s (hreach _ hc)⟩
  · obtain ⟨before, after, rfl⟩ := List.append_of_mem ht
    obtain ⟨s', new, hrun, -⟩ := hstep s before t after o (hreach _ hc) ho
    exact ⟨_, hrun⟩
  · have := hc.invariant (I := fun ls c => I c.1 c.2 ∧
        ls.length + (c.2.map weight).sum ≤ (start.2.map weight).sum)
      ⟨h₀, by simp⟩ fun ls c l c' hI hs => by
        obtain ⟨hI', hlt⟩ := hstep' c l c' hI.1 hs
        refine ⟨hI', ?_⟩
        have := hI.2
        rw [List.length_append, List.length_singleton]
        omega
    omega

end TaskSystem

end ExtremeS3
