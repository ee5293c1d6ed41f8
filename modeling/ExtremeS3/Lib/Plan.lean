import Mathlib.Data.List.Basic

/-!
# Plans

A planner emits actions in order and may fail, which ends it; the actions emitted before stay. Plans
are composed by `++`. A plan that did not fail has the actions of all its parts
(`mem_actions_append`, `mem_forEach`); any plan has none other (`mem_of_append`, `mem_of_forEach`).
-/

namespace ExtremeS3

/-- The actions emitted in order, and whether the planner failed after them. -/
structure Plan (α : Type u) where
  actions : List α
  failed : Bool
  deriving DecidableEq, Repr

namespace Plan

variable {α : Type u} {β : Type v}

/-- The plan without actions. -/
def nil : Plan α := ⟨[], false⟩

/-- The plan of one action. -/
def one (a : α) : Plan α := ⟨[a], false⟩

/-- The plan that fails. -/
def fail : Plan α := ⟨[], true⟩

/-- One plan after another; after a failure nothing follows. -/
def append (p q : Plan α) : Plan α := if p.failed then p else ⟨p.actions ++ q.actions, q.failed⟩

instance : Append (Plan α) := ⟨append⟩

/-- The plans in order. -/
def all (ps : List (Plan α)) : Plan α := ps.foldr (· ++ ·) nil

/-- A loop that plans for each element. -/
def forEach (l : List β) (f : β → Plan α) : Plan α := all (l.map f)

@[simp] theorem actions_nil : (nil : Plan α).actions = [] := rfl
@[simp] theorem failed_nil : (nil : Plan α).failed = false := rfl
@[simp] theorem actions_one (a : α) : (one a).actions = [a] := rfl
@[simp] theorem failed_one (a : α) : (one a).failed = false := rfl
@[simp] theorem actions_fail : (fail : Plan α).actions = [] := rfl
@[simp] theorem failed_fail : (fail : Plan α).failed = true := rfl

@[simp] theorem failed_append (p q : Plan α) : (p ++ q).failed = (p.failed || q.failed) := by
  show (append p q).failed = _
  cases hp : p.failed <;> simp [append, hp]

/-- The actions of two plans are those of both, if the first does not fail. -/
theorem actions_append {p q : Plan α} (h : p.failed = false) :
    (p ++ q).actions = p.actions ++ q.actions := by
  show (append p q).actions = _
  simp [append, h]

/-- A plan in sequence has no other actions than its parts. -/
theorem mem_of_append {p q : Plan α} {a : α} (h : a ∈ (p ++ q).actions) :
    a ∈ p.actions ∨ a ∈ q.actions := by
  change a ∈ (append p q).actions at h
  cases hp : p.failed with
  | false => simpa [append, hp] using h
  | true => exact .inl (by simpa [append, hp] using h)

/-- An action of two plans is one of either, if the first does not fail. -/
theorem mem_actions_append {p q : Plan α} (h : p.failed = false) {a : α} :
    a ∈ (p ++ q).actions ↔ a ∈ p.actions ∨ a ∈ q.actions := by
  rw [actions_append h, List.mem_append]

@[simp] theorem nil_append (p : Plan α) : nil ++ p = p := rfl

@[simp] theorem actions_one_append (a : α) (p : Plan α) :
    (one a ++ p).actions = a :: p.actions := rfl

@[simp] theorem all_nil : all ([] : List (Plan α)) = nil := rfl

@[simp] theorem all_cons (p : Plan α) (ps : List (Plan α)) : all (p :: ps) = p ++ all ps := rfl

/-- Plans succeed together if each does. -/
theorem failed_all {ps : List (Plan α)} : (all ps).failed = false ↔ ∀ p ∈ ps, p.failed = false := by
  induction ps with
  | nil => simp
  | cons p ps ih => simp [ih]

/-- An action of plans together is one of some plan. -/
theorem mem_of_all {ps : List (Plan α)} {a : α} (h : a ∈ (all ps).actions) :
    ∃ p ∈ ps, a ∈ p.actions := by
  induction ps with
  | nil => cases h
  | cons p ps ih =>
    rcases mem_of_append h with h | h
    · exact ⟨p, List.mem_cons_self, h⟩
    · obtain ⟨q, hq, h⟩ := ih h
      exact ⟨q, List.mem_cons_of_mem _ hq, h⟩

/-- The actions of plans that succeed are those of each. -/
theorem actions_all {ps : List (Plan α)} (h : (all ps).failed = false) :
    (all ps).actions = ps.flatMap actions := by
  induction ps with
  | nil => rfl
  | cons p ps ih =>
    rw [all_cons, failed_append, Bool.or_eq_false_iff] at h
    rw [all_cons, actions_append h.1, ih h.2, List.flatMap_cons]

@[simp] theorem forEach_nil (f : β → Plan α) : forEach [] f = nil := rfl

@[simp] theorem forEach_cons (b : β) (l : List β) (f : β → Plan α) :
    forEach (b :: l) f = f b ++ forEach l f := rfl

/-- A loop succeeds if every pass does. -/
theorem failed_forEach {l : List β} {f : β → Plan α} :
    (forEach l f).failed = false ↔ ∀ b ∈ l, (f b).failed = false := by
  simp [forEach, failed_all]

/-- An action of a loop is one of some pass. -/
theorem mem_of_forEach {l : List β} {f : β → Plan α} {a : α} (h : a ∈ (forEach l f).actions) :
    ∃ b ∈ l, a ∈ (f b).actions := by
  simpa using mem_of_all h

/-- The actions of a loop that succeeds are those of its passes. -/
theorem actions_forEach {l : List β} {f : β → Plan α} (h : (forEach l f).failed = false) :
    (forEach l f).actions = l.flatMap fun b => (f b).actions := by
  rw [forEach, actions_all h, List.flatMap_map]

/-- An action of a loop that succeeds is one of some pass, and each is one of the loop. -/
theorem mem_forEach {l : List β} {f : β → Plan α} (h : (forEach l f).failed = false) {a : α} :
    a ∈ (forEach l f).actions ↔ ∃ b ∈ l, a ∈ (f b).actions := by
  rw [actions_forEach h, List.mem_flatMap]

end Plan

end ExtremeS3
