import Mathlib.Algebra.GroupWithZero.Nat
import Mathlib.Data.List.Nodup
import Mathlib.Data.List.Perm.Subperm
import Mathlib.Data.List.Range

/-!
# Lists that hold one entry for each process

A system of processes keeps where each process stands as an entry of a list, and a step replaces
one entry. These lemmas read such a list back: the other entries are unchanged
(`getElem?_set_of_getElem?`), and the numbers of processes at the old and the new point change by
one (`count_set_of_getElem?`); so do the things that a function lists of the entries
(`flatMap_set_perm`), and a sum over the entries changes by their difference (`sum_map_set`).
-/

namespace ExtremeS3

variable {α : Type u}

/-- Reading a list back after an entry that exists was replaced. -/
theorem getElem?_set_of_getElem? {l : List α} {i : Nat} {x : α} (h : l[i]? = some x) (y : α)
    (j : Nat) : (l.set i y)[j]? = if i = j then some y else l[j]? := by
  have hi : i < l.length := (List.getElem?_eq_some_iff.1 h).1
  simp [List.getElem?_set, hi]

/-- Replacing an entry changes the numbers of entries at its old and its new value. -/
theorem count_set_of_getElem? [DecidableEq α] {l : List α} {i : Nat} {x : α} (h : l[i]? = some x)
    (y b : α) :
    (l.set i y).count b + (if x = b then 1 else 0) = l.count b + (if y = b then 1 else 0) := by
  obtain ⟨hlt, rfl⟩ := List.getElem?_eq_some_iff.1 h
  have hpos : (if l[i] = b then 1 else 0) ≤ l.count b := by
    split
    · next hb => exact hb ▸ List.count_pos_iff.2 (List.getElem_mem hlt)
    · exact Nat.zero_le _
  have := List.count_set (a := y) (b := b) hlt
  simp only [beq_iff_eq] at this
  omega

/-- What a function lists of the entries after one was replaced. -/
theorem flatMap_set_perm {l : List α} {i : Nat} {x : α} (h : l[i]? = some x) (y : α)
    (f : α → List β) : (f x ++ (l.set i y).flatMap f).Perm (f y ++ l.flatMap f) := by
  obtain ⟨hlt, rfl⟩ := List.getElem?_eq_some_iff.1 h
  have hl : (l.flatMap f).Perm (f l[i] ++ (l.eraseIdx i).flatMap f) :=
    (List.getElem_cons_eraseIdx_perm hlt).symm.flatMap_right f
  have hs : ((l.set i y).flatMap f).Perm (f y ++ (l.eraseIdx i).flatMap f) :=
    (List.set_perm_cons_eraseIdx hlt y).flatMap_right f
  refine (hs.append_left _).trans (.trans ?_ (hl.symm.append_left _))
  exact (List.perm_append_comm_assoc ..)

/-- What a sum over the entries becomes after one was replaced. -/
theorem sum_map_set {l : List α} {i : Nat} {x : α} (h : l[i]? = some x) (y : α) (f : α → Nat) :
    ((l.set i y).map f).sum + f x = (l.map f).sum + f y := by
  obtain ⟨hlt, rfl⟩ := List.getElem?_eq_some_iff.1 h
  have hl := ((List.getElem_cons_eraseIdx_perm hlt).symm.map f).sum_nat
  have hs := ((List.set_perm_cons_eraseIdx hlt y).map f).sum_nat
  simp only [List.map_cons, List.sum_cons] at hl hs
  omega

/-- A replaced entry that a function does not tell from the new one. -/
theorem map_set_of_eq {l : List α} {i : Nat} {x y : α} (h : l[i]? = some x) {f : α → β}
    (hf : f y = f x) : (l.set i y).map f = l.map f := by
  obtain ⟨hlt, rfl⟩ := List.getElem?_eq_some_iff.1 h
  refine List.ext_getElem (by simp) fun j h1 h2 => ?_
  simp only [List.getElem_map, List.getElem_set]
  split
  · next hij => subst hij; exact hf
  · rfl

/-- Replacing an item by one with the same image leaves the images together as they are. -/
theorem flatMap_set_of_eq {l : List α} {i : Nat} {x y : α} (h : l[i]? = some x) {f : α → List β}
    (hf : f y = f x) : (l.set i y).flatMap f = l.flatMap f := by
  rw [List.flatMap_def, map_set_of_eq h hf, ← List.flatMap_def]

/-- Replacing an entry leaves the entries of every other value. -/
theorem mem_set_of_mem_ne {l : List α} {i : Nat} {x y z : α} (h : l[i]? = some x) (hz : z ∈ l)
    (hne : z ≠ x) : z ∈ l.set i y := by
  obtain ⟨j, hj⟩ := List.mem_iff_getElem?.1 hz
  refine List.mem_iff_getElem?.2 ⟨j, ?_⟩
  rw [getElem?_set_of_getElem? h, if_neg, hj]
  rintro rfl
  exact hne (Option.some.inj (hj.symm.trans h))

/-- What is left when one element is taken out was there. -/
theorem mem_of_mem_without {l l' : List α} {a b : α} (h : a ∈ l ++ l') : a ∈ l ++ b :: l' := by
  rcases List.mem_append.1 h with h | h
  · exact List.mem_append_left _ h
  · exact List.mem_append_right _ (List.mem_cons_of_mem _ h)

/-- The only item of a list is its first. -/
theorem eq_of_getElem?_singleton {a b : α} {i : Nat} (h : [a][i]? = some b) : i = 0 ∧ a = b := by
  rw [List.getElem?_singleton] at h
  split at h
  · next hi => exact ⟨hi, Option.some.inj h⟩
  · cases h

/-- What is kept of a list with one item more is what was kept, and the item if it is. -/
theorem filterMap_concat (f : α → Option β) (l : List α) (a : α) :
    (l ++ [a]).filterMap f = l.filterMap f ++ (f a).toList := by
  rw [List.filterMap_append]
  cases h : f a <;> simp [h]

/-- What holds of all items still does after one is replaced by an item of which it holds. -/
theorem forall_mem_set {l : List α} {p : α → Prop} (h : ∀ x ∈ l, p x) {i : Nat} {y : α} (hy : p y) :
    ∀ x ∈ l.set i y, p x := fun x hx => by
  rcases List.mem_or_eq_of_mem_set hx with hx | rfl
  · exact h x hx
  · exact hy

/-- A part of the state that has the value `v` and that each element leaves or sets to `v`. -/
theorem foldl_eq_of_keep {f : σ → α → σ} (get : σ → β) {v : β} {l : List α}
    (h : ∀ a ∈ l, (∀ s, get (f s a) = get s) ∨ ∀ s, get (f s a) = v) {s : σ} (hs : get s = v) :
    get (l.foldl f s) = v := by
  induction l generalizing s with
  | nil => exact hs
  | cons a l ih =>
    refine ih (fun b hb => h b (List.mem_cons_of_mem _ hb)) ?_
    rcases h a List.mem_cons_self with ha | ha
    · rw [ha, hs]
    · exact ha s

/-- A part of the state that each element leaves or sets to `v`, and some element sets. -/
theorem foldl_eq_of_set {f : σ → α → σ} (get : σ → β) {v : β} {l : List α}
    (h : ∀ a ∈ l, (∀ s, get (f s a) = get s) ∨ ∀ s, get (f s a) = v)
    (hex : ∃ a ∈ l, ∀ s, get (f s a) = v) (s : σ) : get (l.foldl f s) = v := by
  induction l generalizing s with
  | nil => obtain ⟨a, ha, -⟩ := hex; cases ha
  | cons a l ih =>
    have hl : ∀ b ∈ l, (∀ s, get (f s b) = get s) ∨ ∀ s, get (f s b) = v :=
      fun b hb => h b (List.mem_cons_of_mem _ hb)
    obtain ⟨b, hb, hset⟩ := hex
    rcases List.mem_cons.1 hb with rfl | hb
    · exact foldl_eq_of_keep get hl (hset s)
    · exact ih hl ⟨b, hb, hset⟩ (f s a)

/-- A list of distinct numbers below `n` has at most `n` entries. -/
theorem length_le_of_nodup_lt {l : List Nat} {n : Nat} (hn : l.Nodup) (hl : ∀ k ∈ l, k < n) :
    l.length ≤ n := by
  have hs : l ⊆ List.range n := fun k hk => List.mem_range.2 (hl k hk)
  simpa using (List.Nodup.subperm hn hs).length_le

/-- A list of distinct numbers below `n` that has `n` entries holds all of them. -/
theorem mem_of_nodup_lt {l : List Nat} {n : Nat} (hn : l.Nodup) (hl : ∀ k ∈ l, k < n)
    (hlen : n ≤ l.length) {k : Nat} (hk : k < n) : k ∈ l := by
  have hs : l ⊆ List.range n := fun k hk => List.mem_range.2 (hl k hk)
  have hp := (List.Nodup.subperm hn hs).perm_of_length_le (by simpa using hlen)
  exact hp.mem_iff.2 (List.mem_range.2 hk)

/-- A list that holds every number below `n` has at least `n` entries. -/
theorem le_length_of_forall_lt {l : List Nat} {n : Nat} (hl : ∀ k < n, k ∈ l) : n ≤ l.length := by
  have hs : List.range n ⊆ l := fun k hk => hl k (List.mem_range.1 hk)
  simpa using (List.Nodup.subperm List.nodup_range hs).length_le

/-- A list with an entry that satisfies `p` splits at the last of them. -/
theorem exists_last_split {p : α → Prop} {l : List α} (h : ∃ a ∈ l, p a) :
    ∃ ks a ms, l = ks ++ a :: ms ∧ p a ∧ ∀ b ∈ ms, ¬ p b := by
  induction l with
  | nil => exact absurd h (by simp)
  | cons x l ih =>
    by_cases hl : ∃ a ∈ l, p a
    · obtain ⟨ks, a, ms, rfl, ha, hms⟩ := ih hl
      exact ⟨x :: ks, a, ms, rfl, ha, hms⟩
    · obtain ⟨a, ha, hp⟩ := h
      rcases List.mem_cons.1 ha with rfl | ha
      · exact ⟨[], a, l, rfl, hp, fun b hb hpb => hl ⟨b, hb, hpb⟩⟩
      · exact absurd ⟨a, ha, hp⟩ hl

/-- What is related to an element of the first list. -/
theorem exists_of_forall₂ {R : α → β → Prop} {l : List α} {l' : List β} (h : List.Forall₂ R l l')
    {a : α} (ha : a ∈ l) : ∃ b ∈ l', R a b := by
  induction h with
  | nil => cases ha
  | cons hab _ ih =>
    rcases List.mem_cons.1 ha with rfl | ha
    · exact ⟨_, List.mem_cons_self, hab⟩
    · obtain ⟨b, hb, hab⟩ := ih ha
      exact ⟨b, List.mem_cons_of_mem _ hb, hab⟩

end ExtremeS3
