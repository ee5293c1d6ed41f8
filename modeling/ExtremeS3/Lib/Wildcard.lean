import Mathlib.Data.List.Basic

/-!
# Patterns with wildcards

A pattern is a list of tokens, each of which stands for one element that satisfies a test or for any
word, and it may be cut off by an error. `Token.search` matches it by trying, for a token that
stands for any word, the endings of the word one after the other, the shortest first. On a pattern
that is not cut off it decides `Token.Matches` (`search_none_iff`). On one that is cut off it fails
exactly when its tokens match some front of the word, and otherwise finds that the word does not
match (`search_some_iff`).
-/

namespace ExtremeS3

variable {α : Type u} {β : Type v} {ε : Type w}

/-! ## Trying one after the other -/

/-- The first of the tests that holds; a test that fails ends the search. -/
def tryEach (f : β → Except ε Bool) : List β → Except ε Bool
  | [] => .ok false
  | b :: bs => do if ← f b then pure true else tryEach f bs

/-- Trying a list tries its first item, and the others if that gives false. -/
theorem tryEach_cons (f : β → Except ε Bool) (b : β) (bs : List β) :
    tryEach f (b :: bs) =
      match f b with
      | .error e => .error e
      | .ok true => .ok true
      | .ok false => tryEach f bs := by
  rw [tryEach]
  cases f b with
  | error e => rfl
  | ok r => cases r <;> rfl

/-- The last test is made when none before it held. -/
theorem tryEach_concat (f : β → Except ε Bool) (bs : List β) (b : β) :
    tryEach f (bs ++ [b]) = (do if ← tryEach f bs then pure true else f b) := by
  induction bs with
  | nil =>
    rw [List.nil_append, tryEach_cons]
    cases f b with
    | error e => rfl
    | ok r => cases r <;> rfl
  | cons b' bs ih =>
    rw [List.cons_append, tryEach_cons, tryEach_cons, ih]
    cases f b' with
    | error e => rfl
    | ok r => cases r <;> rfl

/-- What a search of tests that do not fail finds. -/
theorem tryEach_of_ok {f : β → Except ε Bool} {bs : List β} (h : ∀ b ∈ bs, ∀ e, f b ≠ .error e) :
    (tryEach f bs = .ok true ↔ ∃ b ∈ bs, f b = .ok true) ∧ ∀ e, tryEach f bs ≠ .error e := by
  induction bs with
  | nil => simp [tryEach]
  | cons b bs ih =>
    have hb := h b (.head _)
    have ih := ih fun b' hb' => h b' (.tail _ hb')
    rw [tryEach_cons]
    cases hf : f b with
    | error e => exact absurd hf (hb e)
    | ok r => cases r <;> simp [hf, ih.1, ih.2]

/-- What a search of tests that never hold, and all fail alike, ends with. -/
theorem tryEach_of_not_true {f : β → Except ε Bool} {bs : List β} {e : ε}
    (h : ∀ b ∈ bs, f b = .error e ∨ f b = .ok false) :
    (tryEach f bs = .error e ↔ ∃ b ∈ bs, f b = .error e) ∧
      (tryEach f bs = .error e ∨ tryEach f bs = .ok false) := by
  induction bs with
  | nil => simp [tryEach]
  | cons b bs ih =>
    have ih := ih fun b' hb' => h b' (.tail _ hb')
    rw [tryEach_cons]
    rcases h b (.head _) with hf | hf
    · simp [hf]
    · exact ⟨by simp [hf, ih.1], by simpa only [hf] using ih.2⟩

/-- A search finds that no test holds when it has made them all. -/
theorem tryEach_eq_false {f : β → Except ε Bool} {bs : List β} :
    tryEach f bs = .ok false ↔ ∀ b ∈ bs, f b = .ok false := by
  induction bs with
  | nil => simp [tryEach]
  | cons b bs ih =>
    rw [tryEach_cons, List.forall_mem_cons]
    cases hf : f b with
    | error e => simp
    | ok r => cases r <;> simp [ih]

/-- Otherwise it ends with the first test that does anything else. -/
theorem tryEach_eq_iff {f : β → Except ε Bool} {bs : List β} {r : Except ε Bool}
    (hr : r ≠ .ok false) :
    tryEach f bs = r ↔ ∃ pre b post, bs = pre ++ b :: post ∧ f b = r ∧ ∀ c ∈ pre, f c = .ok false := by
  induction bs with
  | nil => simp [tryEach, hr.symm]
  | cons b bs ih =>
    have hhead : f b = r → tryEach f (b :: bs) = r := by
      rintro rfl
      rw [tryEach_cons]
      cases hf : f b with
      | error e => rfl
      | ok r => cases r <;> simp_all
    constructor
    · intro h
      by_cases hf : f b = .ok false
      · rw [tryEach_cons, hf] at h
        obtain ⟨pre, c, post, rfl, hc, hpre⟩ := ih.1 h
        exact ⟨b :: pre, c, post, rfl, hc, List.forall_mem_cons.2 ⟨hf, hpre⟩⟩
      · refine ⟨[], b, bs, rfl, ?_, by simp⟩
        rw [← h, tryEach_cons]
        cases hb : f b with
        | error e => rfl
        | ok r => cases r <;> simp_all
    · rintro ⟨pre, c, post, hbs, hc, hpre⟩
      cases pre with
      | nil =>
        obtain ⟨rfl, rfl⟩ := List.cons.inj hbs
        exact hhead hc
      | cons d pre =>
        obtain ⟨rfl, rfl⟩ := List.cons.inj hbs
        rw [tryEach_cons, hpre b (.head _)]
        exact ih.2 ⟨pre, c, post, rfl, hc, fun x hx => hpre x (.tail _ hx)⟩

/-- A search that does not fail finds whether some test holds. -/
theorem any_of_tryEach {f : β → Except ε Bool} {bs : List β} {r : Bool} (h : tryEach f bs = .ok r) :
    (bs.any fun b => (f b).toOption = some true) = r := by
  cases r with
  | false =>
    rw [tryEach_eq_false] at h
    simp only [List.any_eq_false]
    intro b hb
    simp [h b hb, Except.toOption]
  | true =>
    obtain ⟨pre, b, post, rfl, hb, -⟩ := (tryEach_eq_iff (by simp)).1 h
    rw [List.any_eq_true]
    exact ⟨b, by simp, by simp [hb, Except.toOption]⟩

/-! ## The endings of a word -/

/-- The endings of a word but for the whole of it, the shortest first. -/
def endings (s : List α) : List (List α) := (List.range s.length).map fun k => s.drop (s.length - k)

/-- The endings are what is left after a beginning that is not empty. -/
theorem mem_endings {s t : List α} : t ∈ endings s ↔ ∃ a, a ≠ [] ∧ s = a ++ t := by
  unfold endings
  rw [List.mem_map]
  constructor
  · rintro ⟨k, hk, rfl⟩
    rw [List.mem_range] at hk
    refine ⟨s.take (s.length - k), ?_, (List.take_append_drop _ s).symm⟩
    intro hnil
    have := congrArg List.length hnil
    simp only [List.length_take, List.length_nil] at this
    omega
  · rintro ⟨a, ha, rfl⟩
    refine ⟨t.length, ?_, ?_⟩
    · have := List.length_pos_iff.2 ha
      simp only [List.mem_range, List.length_append]
      omega
    · simp

/-- With the whole word, these are all its endings. -/
theorem mem_endings_concat {s t : List α} : t ∈ endings s ++ [s] ↔ ∃ a, s = a ++ t := by
  rw [List.mem_append, mem_endings, List.mem_singleton]
  constructor
  · rintro (⟨a, -, h⟩ | h)
    · exact ⟨a, h⟩
    · exact ⟨[], h.symm⟩
  · rintro ⟨a, h⟩
    cases a with
    | nil => exact .inr h.symm
    | cons c a => exact .inl ⟨c :: a, nofun, h⟩

/-! ## Tokens -/

/-- A token of a pattern: any word, or one element that satisfies a test. -/
inductive Token (α : Type u) where
  | star
  | one (p : α → Bool)

namespace Token

/-- The words that tokens stand for. -/
inductive Matches : List (Token α) → List α → Prop
  | nil : Matches [] []
  | one {p : α → Bool} {a : α} {ts : List (Token α)} {s : List α} :
    p a → Matches ts s → Matches (.one p :: ts) (a :: s)
  | star {ts : List (Token α)} (a : List α) {s : List α} : Matches ts s → Matches (.star :: ts) (a ++ s)

@[simp] theorem matches_nil {s : List α} : Matches [] s ↔ s = [] := by
  constructor
  · intro h
    cases h
    rfl
  · rintro rfl
    exact .nil

@[simp] theorem matches_one_cons {p : α → Bool} {ts : List (Token α)} {a : α} {s : List α} :
    Matches (.one p :: ts) (a :: s) ↔ p a ∧ Matches ts s := by
  constructor
  · intro h
    cases h with
    | one hp h => exact ⟨hp, h⟩
  · rintro ⟨hp, h⟩
    exact .one hp h

@[simp] theorem not_matches_one_nil {p : α → Bool} {ts : List (Token α)} :
    ¬ Matches (.one p :: ts) [] := nofun

@[simp] theorem matches_star {ts : List (Token α)} {s : List α} :
    Matches (.star :: ts) s ↔ ∃ a t, s = a ++ t ∧ Matches ts t := by
  constructor
  · intro h
    cases h with
    | star a h => exact ⟨a, _, rfl, h⟩
  · rintro ⟨a, t, rfl, h⟩
    exact .star a h

/-- The tokens match a front of the word that is not all of it. -/
def Reaches (ts : List (Token α)) (s : List α) : Prop := ∃ a b, s = a ++ b ∧ b ≠ [] ∧ Matches ts a

/-- The end of a pattern is reached if something is left. -/
theorem reaches_nil {s : List α} : Reaches [] s ↔ s ≠ [] := by
  simp [Reaches]

/-- A token is passed with one item it accepts. -/
theorem reaches_one {p : α → Bool} {ts : List (Token α)} {s : List α} :
    Reaches (.one p :: ts) s ↔ ∃ a t, s = a :: t ∧ p a ∧ Reaches ts t := by
  constructor
  · rintro ⟨a, b, rfl, hb, h⟩
    cases h with
    | one hp h => exact ⟨_, _, rfl, hp, _, b, rfl, hb, h⟩
  · rintro ⟨c, t, rfl, hp, a, b, rfl, hb, h⟩
    exact ⟨c :: a, b, rfl, hb, .one hp h⟩

/-- A star is passed with any number of items. -/
theorem reaches_star {ts : List (Token α)} {s : List α} :
    Reaches (.star :: ts) s ↔ ∃ a t, s = a ++ t ∧ Reaches ts t := by
  constructor
  · rintro ⟨a, b, rfl, hb, h⟩
    cases h with
    | star c h => exact ⟨c, _, List.append_assoc .., _, b, rfl, hb, h⟩
  · rintro ⟨c, t, rfl, a, b, rfl, hb, h⟩
    exact ⟨c ++ a, b, (List.append_assoc ..).symm, hb, .star c h⟩

/-! ## Searching -/

/-- Matching a word by trying its endings. A pattern that is cut off fails where it ends, unless the
word has ended too. -/
def search (cut : Option ε) : List (Token α) → List α → Except ε Bool
  | [], [] => .ok cut.isNone
  | [], _ :: _ => cut.elim (.ok false) .error
  | .one _ :: _, [] => .ok false
  | .one p :: ts, a :: s => if p a then search cut ts s else .ok false
  | .star :: ts, s => tryEach (search cut ts) (endings s ++ [s])

/-- The search of a pattern that is not cut off decides whether the word matches. -/
theorem search_none_iff (ts : List (Token α)) (s : List α) :
    (search (none : Option ε) ts s = .ok true ↔ Matches ts s) ∧
      ∀ e : ε, search none ts s ≠ .error e := by
  induction ts generalizing s with
  | nil => cases s <;> simp [search]
  | cons t ts ih =>
    cases t with
    | one p =>
      cases s with
      | nil => simp [search]
      | cons a s =>
        rw [search, matches_one_cons]
        split
        · next hp => simp [hp, (ih s).1, (ih s).2]
        · next hp => simp [hp]
    | star =>
      have hok := @tryEach_of_ok _ _ _ (endings s ++ [s]) fun t _ => (ih t).2
      refine ⟨?_, hok.2⟩
      rw [search, hok.1, matches_star]
      simp only [mem_endings_concat, (ih _).1]
      constructor
      · rintro ⟨t, ⟨a, rfl⟩, h⟩
        exact ⟨a, t, rfl, h⟩
      · rintro ⟨a, t, rfl, h⟩
        exact ⟨t, ⟨a, rfl⟩, h⟩

/-- The search of a pattern that is cut off fails exactly when it gets to where the pattern ends
with some of the word left, and never finds that the word matches. -/
theorem search_some_iff (e : ε) (ts : List (Token α)) (s : List α) :
    (search (some e) ts s = .error e ↔ Reaches ts s) ∧
      (search (some e) ts s = .error e ∨ search (some e) ts s = .ok false) := by
  induction ts generalizing s with
  | nil => cases s <;> simp [search, reaches_nil]
  | cons t ts ih =>
    cases t with
    | one p =>
      rw [reaches_one]
      cases s with
      | nil => simp [search]
      | cons a s =>
        rw [search]
        split
        · next hp =>
          refine ⟨(ih s).1.trans ?_, (ih s).2⟩
          constructor
          · intro h
            exact ⟨a, s, rfl, hp, h⟩
          · rintro ⟨_, _, hs, -, h⟩
            obtain ⟨rfl, rfl⟩ := List.cons.inj hs
            exact h
        · next hp =>
          refine ⟨⟨nofun, ?_⟩, .inr rfl⟩
          rintro ⟨_, _, hs, h, -⟩
          obtain ⟨rfl, rfl⟩ := List.cons.inj hs
          exact absurd h hp
    | star =>
      have hno := @tryEach_of_not_true _ _ _ (endings s ++ [s]) _ fun t _ => (ih t).2
      refine ⟨?_, hno.2⟩
      rw [search, hno.1, reaches_star]
      simp only [mem_endings_concat, (ih _).1]
      constructor
      · rintro ⟨t, ⟨a, rfl⟩, h⟩
        exact ⟨a, t, rfl, h⟩
      · rintro ⟨a, t, rfl, h⟩
        exact ⟨t, ⟨a, rfl⟩, h⟩

end Token

end ExtremeS3
