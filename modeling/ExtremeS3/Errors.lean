/-!
# Exceptions and the retry rule

`err` throws an `es3_exception` that carries a `code_e`; everything else the code throws is some
other exception. `task_executor::operator()` runs a task at most `maxAttempts` times: it tries
again after an `es3_exception` whose code is `errNone` or `errWarn`, and gives up after anything
else. `afterAttempt` is that rule, shared by every model of a task's run.
-/

namespace ExtremeS3

/-- `code_e`. -/
inductive Code where
  | errFatal
  | errWarn
  | errNone
  deriving DecidableEq, Repr

/-- What an attempt may throw: an `es3_exception` with its code, or any other exception. -/
inductive Thrown where
  | es3 (code : Code)
  | other
  deriving DecidableEq, Repr

/-- Whether some attempt returned. -/
instance (outcomes : List (Option Thrown)) : Decidable (none ∈ outcomes) := inferInstance

/-- The bound of the executor's `for(int f=0; f<10; ++f)`. -/
def maxAttempts : Nat := 10

/-- The `catch` clauses that `continue`; the others `break`. -/
def Thrown.retried : Thrown → Bool
  | .es3 .errNone | .es3 .errWarn => true
  | .es3 .errFatal | .other => false

/-- Where the executor's loop over the attempts stands: about to make attempt `f`, or past the
loop with the flag `fail`. -/
inductive Attempts where
  | next (f : Nat)
  | ended (fail : Bool)
  deriving DecidableEq, Repr

/-- The loop after attempt `f`, which returned normally (`none`) or threw. -/
def afterAttempt (f : Nat) : Option Thrown → Attempts
  | none => .ended false
  | some e => if e.retried && f + 1 < maxAttempts then .next (f + 1) else .ended true

@[simp] theorem afterAttempt_none (f : Nat) : afterAttempt f none = .ended false := rfl

/-- An attempt that throws never ends the loop with success. -/
@[simp] theorem afterAttempt_some_ne (f : Nat) (e : Thrown) :
    afterAttempt f (some e) ≠ .ended false := by
  simp only [afterAttempt]
  split <;> simp

/-- An attempt that fails with an error that is not retried ends the task, as a failure. -/
theorem afterAttempt_of_not_retried {e : Thrown} (h : e.retried = false) (f : Nat) :
    afterAttempt f (some e) = .ended true := by
  rw [afterAttempt, h]
  rfl

/-- The loop makes no attempt beyond the last one. -/
theorem afterAttempt_next_lt {f g : Nat} {r : Option Thrown} (h : afterAttempt f r = .next g) :
    g = f + 1 ∧ g < maxAttempts := by
  cases r with
  | none => cases h
  | some e =>
    simp only [afterAttempt] at h
    split at h
    · next hc =>
      cases h
      simp only [Bool.and_eq_true, decide_eq_true_eq] at hc
      exact ⟨rfl, hc.2⟩
    · cases h

end ExtremeS3
