import Mathlib.Order.Preorder.Chain

/-!
# Orders that a map can be keyed by

A map that keeps its entries sorted asks of the comparison of its keys that it is a strict weak
order, and finds an entry by its key only if no two different keys are incomparable. A comparison
that holds where a partial order does not hold the other way round is one just on the chains of that
order (`keyOrder_not_ge_iff`). Where it is one, a map is looked up as it was written
(`findBy_insertBy`), so the order in which entries with different keys were written does not matter
(`findBy_foldl_insertBy`).
-/

namespace ExtremeS3

variable {α : Type u}

/-- What a map asks of the comparison of its keys, for the keys in a set. -/
structure KeyOrder (less : α → α → Prop) (K : Set α) : Prop where
  irrefl : ∀ a ∈ K, ¬ less a a
  asymm : ∀ a ∈ K, ∀ b ∈ K, less a b → ¬ less b a
  trans : ∀ a ∈ K, ∀ b ∈ K, ∀ c ∈ K, less a b → less b c → less a c
  incomp_trans : ∀ a ∈ K, ∀ b ∈ K, ∀ c ∈ K, ¬ less a b ∧ ¬ less b a → ¬ less b c ∧ ¬ less c b →
    ¬ less a c ∧ ¬ less c a
  eq_of_incomp : ∀ a ∈ K, ∀ b ∈ K, ¬ less a b → ¬ less b a → a = b

section

variable {le : α → α → Prop} {K : Set α}

/-- Comparable keys are asked for by asymmetry alone. -/
theorem KeyOrder.isChain (h : KeyOrder (fun a b => ¬ le b a) K) : IsChain le K := by
  intro a ha b hb _
  by_contra hno
  rw [not_or] at hno
  exact h.asymm a ha b hb hno.2 hno.1

/-- On a chain it is the strict order. -/
theorem IsChain.keyOrder (hrefl : ∀ a, le a a) (htrans : ∀ a b c, le a b → le b c → le a c)
    (hanti : ∀ a b, le a b → le b a → a = b) (h : IsChain le K) :
    KeyOrder (fun a b => ¬ le b a) K := by
  have htotal : ∀ a ∈ K, ∀ b ∈ K, le a b ∨ le b a := by
    intro a ha b hb
    by_cases he : a = b
    · exact .inl (he ▸ hrefl a)
    · exact h ha hb he
  have heq : ∀ a b, ¬ ¬ le b a → ¬ ¬ le a b → a = b := fun a b hba hab =>
    hanti a b (not_not.1 hab) (not_not.1 hba)
  constructor
  case irrefl => exact fun a _ hno => hno (hrefl a)
  case asymm => exact fun a ha b hb hba hab => (htotal a ha b hb).elim hab hba
  case trans =>
    intro a ha b hb c hc hba hcb hca
    have hbc := (htotal b hb c hc).resolve_right hcb
    exact hba (htrans b c a hbc hca)
  case incomp_trans =>
    intro a _ b _ c _ hab hbc
    rw [heq a b hab.1 hab.2]
    exact hbc
  case eq_of_incomp => exact fun a _ b _ hba hab => heq a b hba hab

/-- A comparison that a partial order fails the other way round keys a map just on the chains of the
order. -/
theorem keyOrder_not_ge_iff (hrefl : ∀ a, le a a) (htrans : ∀ a b c, le a b → le b c → le a c)
    (hanti : ∀ a b, le a b → le b a → a = b) :
    KeyOrder (fun a b => ¬ le b a) K ↔ IsChain le K :=
  ⟨KeyOrder.isChain, IsChain.keyOrder hrefl htrans hanti⟩

end

/-! ## Maps -/

section

variable {V : Type v} (less : α → α → Bool)

/-- Write an entry, at the place of its key. -/
def insertBy (k : α) (v : V) : List (α × V) → List (α × V)
  | [] => [(k, v)]
  | (k', v') :: m =>
    if less k k' then (k, v) :: (k', v') :: m
    else if less k' k then (k', v') :: insertBy k v m
    else (k', v) :: m

/-- Look a key up, up to the first entry whose key is not less. -/
def findBy (k : α) : List (α × V) → Option V
  | [] => none
  | (k', v') :: m => if less k' k then findBy k m else if less k k' then none else some v'

variable {less : α → α → Bool} {K : Set α}

/-- No key is written that was not there and is not the new one. -/
theorem mem_insertBy {k : α} {v : V} {m : List (α × V)} {e : α × V} (h : e ∈ insertBy less k v m) :
    e.1 = k ∨ ∃ e' ∈ m, e'.1 = e.1 := by
  induction m with
  | nil => exact .inl (congrArg Prod.fst (List.mem_singleton.1 h))
  | cons e' m ih =>
    obtain ⟨k', v'⟩ := e'
    unfold insertBy at h
    split at h
    · rcases List.mem_cons.1 h with rfl | h
      · exact .inl rfl
      · exact .inr ⟨e, h, rfl⟩
    · split at h
      · rcases List.mem_cons.1 h with rfl | h
        · exact .inr ⟨_, List.mem_cons_self, rfl⟩
        · exact (ih h).imp_right fun ⟨e', he', heq⟩ => ⟨e', List.mem_cons_of_mem _ he', heq⟩
      · rcases List.mem_cons.1 h with rfl | h
        · exact .inr ⟨_, List.mem_cons_self, rfl⟩
        · exact .inr ⟨e, List.mem_cons_of_mem _ h, rfl⟩

/-- One of two keys is less than the other one, or they are the same. -/
theorem KeyOrder.trichotomy (h : KeyOrder (fun a b => less a b = true) K) {a b : α} (ha : a ∈ K)
    (hb : b ∈ K) :
    (less a b = true ∧ less b a = false ∧ a ≠ b) ∨ (less a b = false ∧ less b a = false ∧ a = b) ∨
      (less a b = false ∧ less b a = true ∧ a ≠ b) := by
  have hirrefl : ∀ c ∈ K, less c c = false := fun c hc => Bool.eq_false_iff.2 (h.irrefl c hc)
  cases hab : less a b with
  | true =>
    refine .inl ⟨rfl, Bool.eq_false_iff.2 (h.asymm a ha b hb hab), ?_⟩
    rintro rfl
    rw [hirrefl a ha] at hab
    cases hab
  | false =>
    cases hba : less b a with
    | true =>
      refine .inr (.inr ⟨rfl, rfl, ?_⟩)
      rintro rfl
      rw [hirrefl a ha] at hba
      cases hba
    | false =>
      exact .inr (.inl ⟨rfl, rfl, h.eq_of_incomp a ha b hb (by simp [hab]) (by simp [hba])⟩)

/-- What is looked up after an entry is written. -/
theorem findBy_insertBy [DecidableEq α] (h : KeyOrder (fun a b => less a b = true) K)
    {m : List (α × V)} (hm : ∀ e ∈ m, e.1 ∈ K) {j k : α} (hj : j ∈ K) (hk : k ∈ K) (v : V) :
    findBy less j (insertBy less k v m) = if j = k then some v else findBy less j m := by
  induction m with
  | nil =>
    unfold insertBy findBy findBy
    rcases h.trichotomy hj hk with ⟨hjk, hkj, hne⟩ | ⟨hjk, hkj, rfl⟩ | ⟨hjk, hkj, hne⟩
    · simp [hjk, hkj, hne]
    · simp [hjk]
    · simp [hkj, hne]
  | cons e m ih =>
    obtain ⟨k', v'⟩ := e
    have hk' : k' ∈ K := hm _ List.mem_cons_self
    have ih := ih fun e he => hm e (List.mem_cons_of_mem _ he)
    unfold insertBy
    rcases h.trichotomy hk hk' with ⟨hkk', -, -⟩ | ⟨hkk', hk'k, rfl⟩ | ⟨hkk', hk'k, hne⟩
    · -- in front of the entry
      rw [if_pos hkk', findBy]
      rcases h.trichotomy hj hk with ⟨hjk, hkj, hne⟩ | ⟨hjk, hkj, rfl⟩ | ⟨hjk, hkj, hne⟩
      · have hjk' : less j k' = true := h.trans j hj k hk k' hk' hjk hkk'
        have hk'j := Bool.eq_false_iff.2 (h.asymm j hj k' hk' hjk')
        simp [findBy, hjk, hkj, hne, hjk', hk'j]
      · simp [hjk]
      · simp [hkj, hne]
    · -- in its place
      rw [if_neg (by simp [hkk']), if_neg (by simp [hk'k]), findBy, findBy]
      rcases h.trichotomy hj hk with ⟨hjk, hkj, hne⟩ | ⟨hjk, hkj, rfl⟩ | ⟨hjk, hkj, hne⟩
      · simp [hjk, hkj, hne]
      · simp [hjk]
      · simp [hkj, hne]
    · -- behind it
      rw [if_neg (by simp [hkk']), if_pos hk'k, findBy, findBy, ih]
      rcases h.trichotomy hj hk' with ⟨hjk', hk'j, -⟩ | ⟨hjk', hk'j, rfl⟩ | ⟨hjk', hk'j, -⟩
      · have hjk : j ≠ k := by
          rintro rfl
          rw [hkk'] at hjk'
          cases hjk'
        simp [hjk', hk'j, hjk]
      · simp [hjk', Ne.symm hne]
      · simp [hk'j]

/-- What is looked up after entries are written, in any order. -/
theorem findBy_foldl_insertBy [DecidableEq α] (h : KeyOrder (fun a b => less a b = true) K)
    (f : α → Option V) {ks : List α} (hks : ∀ k ∈ ks, k ∈ K) {j : α} (hj : j ∈ K) :
    findBy less j
        (ks.foldl (fun m k => (f k).elim m fun v => insertBy less k v m) []) =
      if j ∈ ks then f j else none := by
  suffices hgeneral : ∀ m : List (α × V), (∀ e ∈ m, e.1 ∈ K) →
      findBy less j (ks.foldl (fun m k => (f k).elim m fun v => insertBy less k v m) m) =
        if j ∈ ks then (f j).or (findBy less j m) else findBy less j m by
    rw [hgeneral [] (by simp)]
    split
    · exact Option.or_none
    · rfl
  induction ks with
  | nil => simp
  | cons k ks ih =>
    intro m hm
    have hk : k ∈ K := hks k List.mem_cons_self
    rw [List.foldl_cons]
    cases hf : f k with
    | none =>
      rw [Option.elim_none, ih (fun k hk => hks k (List.mem_cons_of_mem _ hk)) m hm]
      by_cases he : j = k
      · subst he
        simp [hf]
      · simp [he]
    | some v =>
      have hm' : ∀ e ∈ insertBy less k v m, e.1 ∈ K := by
        intro e he
        rcases mem_insertBy he with heq | ⟨e', he', heq⟩
        · rw [heq]
          exact hk
        · rw [← heq]
          exact hm e' he'
      rw [Option.elim_some, ih (fun k hk => hks k (List.mem_cons_of_mem _ hk)) _ hm',
        findBy_insertBy h hm hj hk]
      by_cases he : j = k
      · subst he
        simp [hf]
      · simp [he]

end

end ExtremeS3
