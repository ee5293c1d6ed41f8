/-!
# Programs with loops

A program takes a bound on the iterations of its loops and ends with a result or an exception, or
does not end within the bound. `Evals` says what it ends with, given a bound that is large enough:
an end, so that a program that evaluates terminates, and only one (`Evals.unique`). Its rules follow
the constructs of the language. A derivation of `Loops` follows the iterations of a loop, and
`Loops.evals` makes it an evaluation of the loop; `exists_evals_loop` is the rule with an invariant
and a measure. `Diverges` says that a program does not end, and `loop_diverges` is its rule for a
loop that goes on.
-/

namespace ExtremeS3

/-- A program that throws an `ε` or returns an `α`. -/
def Prog (ε α : Type) := Nat → Option (Except ε α)

namespace Prog

variable {ε ε' α β σ : Type}

instance : Monad (Prog ε) where
  pure a := fun _ => some (.ok a)
  bind p f := fun n => (p n).bind fun
    | .error e => some (.error e)
    | .ok a => f a n

/-- The program that throws. -/
def throw (e : ε) : Prog ε α := fun _ => some (.error e)

/-- The program that throws unless the condition holds. -/
def ensure (c : Bool) (e : ε) : Prog ε Unit := if c then pure () else throw e

/-- The program that returns what there is, or throws. -/
def ofOption (e : ε) : Option α → Prog ε α
  | none => throw e
  | some a => pure a

/-- The program with its exception caught. -/
def attempt (p : Prog ε α) : Prog ε' (Except ε α) := fun n => (p n).map .ok

/-- At most so many iterations of a loop. -/
def iterate (body : σ → Prog ε (σ ⊕ α)) : Nat → σ → Prog ε α
  | 0, _ => fun _ => none
  | k + 1, s => do
    match ← body s with
    | .inl s' => iterate body k s'
    | .inr a => pure a

/-- The loop that goes on while its body returns a state. -/
def loop (body : σ → Prog ε (σ ⊕ α)) (s : σ) : Prog ε α := fun n => iterate body n s n

/-- The program ends in just this way. -/
structure Evals (p : Prog ε α) (r : Except ε α) : Prop where
  only : ∀ n x, p n = some x → x = r
  ends : ∃ m, ∀ n, m ≤ n → p n = some r

/-- A program has one result. -/
theorem Evals.unique {p : Prog ε α} {r r' : Except ε α} (h : p.Evals r) (h' : p.Evals r') :
    r = r' := by
  obtain ⟨m, hm⟩ := h.ends
  exact h'.only m r (hm m (Nat.le_refl m))

/-- A returned value is the result. -/
theorem evals_pure (a : α) : (pure a : Prog ε α).Evals (.ok a) where
  only _ _ h := by cases h; rfl
  ends := ⟨0, fun _ _ => rfl⟩

/-- An error that is thrown is the result. -/
theorem evals_throw (e : ε) : (throw e : Prog ε α).Evals (.error e) where
  only _ _ h := by cases h; rfl
  ends := ⟨0, fun _ _ => rfl⟩

/-- A check that holds passes. -/
theorem evals_ensure {c : Bool} (hc : c = true) (e : ε) : (ensure c e).Evals (.ok ()) := by
  rw [ensure, if_pos hc]
  exact evals_pure ()

/-- A check that does not hold throws its error. -/
theorem evals_ensure_not {c : Bool} (hc : ¬ c = true) (e : ε) : (ensure c e).Evals (.error e) := by
  rw [ensure, if_neg hc]
  exact evals_throw e

/-- A branch that is taken gives the result, where the condition holds. -/
theorem evals_if_pos {c : Prop} [Decidable c] (hc : c) {p q : Prog ε α} {r : Except ε α}
    (h : p.Evals r) : (if c then p else q).Evals r := by
  rwa [if_pos hc]

/-- A branch that is taken gives the result, where the condition does not hold. -/
theorem evals_if_neg {c : Prop} [Decidable c] (hc : ¬ c) {p q : Prog ε α} {r : Except ε α}
    (h : q.Evals r) : (if c then p else q).Evals r := by
  rwa [if_neg hc]

/-- A value that is there is the result. -/
theorem evals_ofOption {o : Option α} {a : α} (h : o = some a) (e : ε) :
    (ofOption e o).Evals (.ok a) := by
  rw [h]
  exact evals_pure a

/-- A returned value needs no fuel. -/
theorem pure_apply (a : α) (n : Nat) : (pure a : Prog ε α) n = some (.ok a) := rfl

/-- A sequence runs its second program on what the first one returns, and stops at an error. -/
theorem bind_apply (p : Prog ε α) (f : α → Prog ε β) (n : Nat) :
    (p >>= f) n = (p n).bind fun
      | .error e => some (.error e)
      | .ok a => f a n := rfl

/-- A bound within which the program ends so. -/
theorem Evals.exists_eq {p : Prog ε α} {r : Except ε α} (h : p.Evals r) : ∃ n, p n = some r := by
  obtain ⟨m, hm⟩ := h.ends
  exact ⟨m, hm m (Nat.le_refl m)⟩

/-- What returns in sequence returned first. -/
theorem bind_eq_ok {p : Prog ε α} {f : α → Prog ε β} {n : Nat} {b : β}
    (h : (p >>= f) n = some (.ok b)) : ∃ a, p n = some (.ok a) ∧ f a n = some (.ok b) := by
  rw [bind_apply] at h
  obtain ⟨y, hy, h⟩ := Option.bind_eq_some_iff.1 h
  rcases y with e | a
  · cases h
  · exact ⟨a, hy, h⟩

/-- A check that passes holds. -/
theorem ensure_eq_ok {c : Bool} {e : ε} {n : Nat} {u : Unit}
    (h : ensure c e n = some (.ok u)) : c = true := by
  rw [ensure] at h
  split at h
  · assumption
  · cases h

/-- A program in sequence. -/
theorem Evals.bind {p : Prog ε α} {f : α → Prog ε β} {a : α} {r : Except ε β}
    (hp : p.Evals (.ok a)) (hf : (f a).Evals r) : (p >>= f).Evals r where
  only n x h := by
    rw [bind_apply] at h
    obtain ⟨y, hy, h⟩ := Option.bind_eq_some_iff.1 h
    cases hp.only n y hy
    exact hf.only n x h
  ends := by
    obtain ⟨m, hm⟩ := hp.ends
    obtain ⟨k, hk⟩ := hf.ends
    refine ⟨max m k, fun n hn => ?_⟩
    rw [bind_apply, hm n (by omega)]
    exact hk n (by omega)

/-- A program in sequence after one that throws. -/
theorem Evals.bind_error {p : Prog ε α} {f : α → Prog ε β} {e : ε} (hp : p.Evals (.error e)) :
    (p >>= f).Evals (.error e) where
  only n x h := by
    rw [bind_apply] at h
    obtain ⟨y, hy, h⟩ := Option.bind_eq_some_iff.1 h
    cases hp.only n y hy
    exact (Option.some.inj h).symm
  ends := by
    obtain ⟨m, hm⟩ := hp.ends
    refine ⟨m, fun n hn => ?_⟩
    rw [bind_apply, hm n hn]
    rfl

/-- Trying a program returns its result, an error or not. -/
theorem Evals.attempt {p : Prog ε α} {r : Except ε α} (h : p.Evals r) :
    (p.attempt : Prog ε' (Except ε α)).Evals (.ok r) where
  only n x hx := by
    obtain ⟨y, hy, rfl⟩ := Option.map_eq_some_iff.1 hx
    rw [h.only n y hy]
  ends := by
    obtain ⟨m, hm⟩ := h.ends
    refine ⟨m, fun n hn => ?_⟩
    rw [Prog.attempt, hm n hn, Option.map_some]

/-- The iterations that a loop makes from a state, and how it ends. -/
inductive Loops (body : σ → Prog ε (σ ⊕ α)) : σ → Except ε α → Prop
  | done {s a} : (body s).Evals (.ok (.inr a)) → Loops body s (.ok a)
  | throws {s e} : (body s).Evals (.error e) → Loops body s (.error e)
  | again {s s' r} : (body s).Evals (.ok (.inl s')) → Loops body s' r → Loops body s r

/-- What is left of a loop after its body. -/
def afterBody (body : σ → Prog ε (σ ⊕ α)) (k n : Nat) : Except ε (σ ⊕ α) → Option (Except ε α)
  | .error e => some (.error e)
  | .ok (.inl s) => iterate body k s n
  | .ok (.inr a) => some (.ok a)

/-- A loop with fuel left runs its body, and then goes on or stops. -/
theorem iterate_succ (body : σ → Prog ε (σ ⊕ α)) (k : Nat) (s : σ) (n : Nat) :
    iterate body (k + 1) s n = (body s n).bind (afterBody body k n) := by
  rw [iterate, bind_apply]
  refine congrArg (body s n).bind (funext fun y => ?_)
  rcases y with _ | _ | _ <;> rfl

/-- An iteration that ends in just one way, before what ends in just one way. -/
theorem iterate_of_evals {body : σ → Prog ε (σ ⊕ α)} {s : σ} {y : Except ε (σ ⊕ α)}
    {r : Except ε α} (hs : (body s).Evals y)
    (honly : ∀ k n x, afterBody body k n y = some x → x = r)
    (hends : ∃ m, ∀ k, m ≤ k → ∀ n, m ≤ n → afterBody body k n y = some r) :
    (∀ k n x, iterate body k s n = some x → x = r) ∧
      ∃ m, ∀ k, m ≤ k → ∀ n, m ≤ n → iterate body k s n = some r := by
  constructor
  · intro k n x h
    cases k with
    | zero => cases h
    | succ k =>
      rw [iterate_succ] at h
      obtain ⟨y', hy, h⟩ := Option.bind_eq_some_iff.1 h
      cases hs.only n y' hy
      exact honly k n x h
  · obtain ⟨m, hm⟩ := hs.ends
    obtain ⟨m', hm'⟩ := hends
    refine ⟨max m m' + 1, fun k hk n hn => ?_⟩
    obtain ⟨k, rfl⟩ : ∃ j, k = j + 1 := ⟨k - 1, by omega⟩
    rw [iterate_succ, hm n (by omega)]
    exact hm' k (by omega) n (by omega)

/-- Within a bound that is large enough, the loop ends as derived. -/
theorem Loops.iterate {body : σ → Prog ε (σ ⊕ α)} {s : σ} {r : Except ε α} (h : Loops body s r) :
    (∀ k n x, Prog.iterate body k s n = some x → x = r) ∧
      ∃ m, ∀ k, m ≤ k → ∀ n, m ≤ n → Prog.iterate body k s n = some r := by
  induction h with
  | done hs =>
    exact iterate_of_evals hs (fun _ _ _ h => by cases h; rfl) ⟨0, fun _ _ _ _ => rfl⟩
  | throws hs =>
    exact iterate_of_evals hs (fun _ _ _ h => by cases h; rfl) ⟨0, fun _ _ _ _ => rfl⟩
  | again hs _ ih => exact iterate_of_evals hs ih.1 ih.2

/-- A loop ends as its iterations say. -/
theorem Loops.evals {body : σ → Prog ε (σ ⊕ α)} {s : σ} {r : Except ε α} (h : Loops body s r) :
    (loop body s).Evals r where
  only n x hx := h.iterate.1 n n x hx
  ends := by
    obtain ⟨m, hm⟩ := h.iterate.2
    exact ⟨m, fun n hn => hm n hn n hn⟩

/-- What holds of the end of a loop if it holds of the last iteration and an iteration before it
keeps it. -/
theorem loop_induction {body : σ → Prog ε (σ ⊕ α)} {n : Nat} {P : σ → α → Prop}
    (done : ∀ s a, body s n = some (.ok (.inr a)) → P s a)
    (again : ∀ s s' a, body s n = some (.ok (.inl s')) → P s' a → P s a) {s : σ} {a : α}
    (h : loop body s n = some (.ok a)) : P s a := by
  suffices hk : ∀ k s, iterate body k s n = some (.ok a) → P s a from hk n s h
  intro k
  induction k with
  | zero => exact fun _ h => by cases h
  | succ k ih =>
    intro s h
    rw [iterate_succ] at h
    obtain ⟨y, hy, h⟩ := Option.bind_eq_some_iff.1 h
    rcases y with e | s' | b
    · cases h
    · exact again s s' a hy (ih s' h)
    · cases h
      exact done s a hy

/-- A loop whose body never throws does not throw. -/
theorem loop_ne_error {body : σ → Prog ε (σ ⊕ α)} (h : ∀ s n e, body s n ≠ some (.error e)) (s : σ)
    (n : Nat) (e : ε) : loop body s n ≠ some (.error e) := by
  suffices hk : ∀ k s, iterate body k s n ≠ some (.error e) from hk n s
  intro k
  induction k with
  | zero => exact fun _ => nofun
  | succ k ih =>
    intro s he
    rw [iterate_succ] at he
    obtain ⟨y, hy, he⟩ := Option.bind_eq_some_iff.1 he
    rcases y with e' | s' | a
    · exact h s n e' hy
    · exact ih s' he
    · cases he

/-- A loop that keeps an invariant and makes a measure smaller ends. -/
theorem exists_evals_loop_except {body : σ → Prog ε (σ ⊕ α)} {I : σ → Prop}
    {Q : Except ε α → Prop} (μ : σ → Nat)
    (hstep : ∀ s, I s → (∃ s', (body s).Evals (.ok (.inl s')) ∧ I s' ∧ μ s' < μ s) ∨
      (∃ a, (body s).Evals (.ok (.inr a)) ∧ Q (.ok a)) ∨
      ∃ e, (body s).Evals (.error e) ∧ Q (.error e)) {s : σ} (hs : I s) :
    ∃ r, (loop body s).Evals r ∧ Q r := by
  have hloops : ∃ r, Loops body s r ∧ Q r := by
    generalize hm : μ s = m
    induction m using Nat.strongRecOn generalizing s with
    | ind m ih =>
      subst hm
      rcases hstep s hs with ⟨s', hs', hI, hlt⟩ | ⟨a, ha, hQ⟩ | ⟨e, he, hQ⟩
      · obtain ⟨r, hr, hQ⟩ := ih (μ s') hlt hI rfl
        exact ⟨r, .again hs' hr, hQ⟩
      · exact ⟨_, .done ha, hQ⟩
      · exact ⟨_, .throws he, hQ⟩
  obtain ⟨r, hr, hQ⟩ := hloops
  exact ⟨r, hr.evals, hQ⟩

/-- A loop that keeps an invariant and makes a measure smaller, and does not throw, returns. -/
theorem exists_evals_loop {body : σ → Prog ε (σ ⊕ α)} {I : σ → Prop} {Q : α → Prop} (μ : σ → Nat)
    (hstep : ∀ s, I s → (∃ s', (body s).Evals (.ok (.inl s')) ∧ I s' ∧ μ s' < μ s) ∨
      ∃ a, (body s).Evals (.ok (.inr a)) ∧ Q a) {s : σ} (hs : I s) :
    ∃ a, (loop body s).Evals (.ok a) ∧ Q a := by
  obtain ⟨r, hr, a, rfl, ha⟩ := exists_evals_loop_except (Q := fun r => ∃ a, r = .ok a ∧ Q a) μ
    (fun s hs => (hstep s hs).imp_right fun ⟨a, ha, hQ⟩ => .inl ⟨a, ha, a, rfl, hQ⟩) hs
  exact ⟨a, hr, ha⟩

/-- The program does not end within any bound. -/
def Diverges (p : Prog ε α) : Prop := ∀ n, p n = none

/-- A program that diverges has no result. -/
theorem Diverges.not_evals {p : Prog ε α} (h : p.Diverges) (r : Except ε α) : ¬ p.Evals r := by
  intro hr
  obtain ⟨n, hn⟩ := hr.exists_eq
  rw [h n] at hn
  cases hn

/-- A sequence diverges if its first program does. -/
theorem Diverges.bind {p : Prog ε α} (h : p.Diverges) (f : α → Prog ε β) :
    (p >>= f).Diverges := by
  intro n
  rw [bind_apply, h n]
  rfl

/-- A program that goes on with one that does not end. -/
theorem Evals.bind_diverges {p : Prog ε α} {f : α → Prog ε β} {a : α} (hp : p.Evals (.ok a))
    (hf : (f a).Diverges) : (p >>= f).Diverges := by
  intro n
  rw [bind_apply]
  cases hn : p n with
  | none => rfl
  | some r =>
    cases hp.only n r hn
    exact hf n

/-- A loop whose body goes on from every state of an invariant, or does not end. -/
theorem loop_diverges {body : σ → Prog ε (σ ⊕ α)} {I : σ → Prop}
    (hstep : ∀ s, I s → (body s).Diverges ∨ ∃ s', (body s).Evals (.ok (.inl s')) ∧ I s') {s : σ}
    (hs : I s) : (loop body s).Diverges := by
  suffices h : ∀ k n s, I s → iterate body k s n = none from fun n => h n n s hs
  intro k n
  induction k with
  | zero => exact fun _ _ => rfl
  | succ k ih =>
    intro s hs
    rw [iterate_succ]
    cases hn : body s n with
    | none => rfl
    | some y =>
      rcases hstep s hs with hd | ⟨s', hs', hI⟩
      · rw [hd n] at hn
        cases hn
      · cases hs'.only n y hn
        exact ih s' hI

end Prog

end ExtremeS3
