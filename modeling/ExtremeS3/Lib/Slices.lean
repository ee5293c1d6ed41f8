import Mathlib.Data.List.Basic
import Mathlib.Data.List.Range

/-!
# Slices of a list

A list is cut into slices of one size, the last of which may be shorter; in order they make up the
list again (`flatten_slices`). `overwrite` replaces a part of a list, and extends the list where the
part reaches beyond its end (`getElem?_overwrite_eq`). A list of the right length into which every
slice of another one was written at its place, in whatever order, is that other list
(`HasSlices.write`, `HasSlices.eq_of_forall`); and a list that is not longer than another one and
the same at each place of it is its front (`eq_take_of_sameAt`).
-/

namespace ExtremeS3

variable {α : Type u}

/-- The number of slices of a list of `n` elements. -/
def sliceCount (size n : Nat) : Nat := n / size + if n % size = 0 then 0 else 1

/-- One of the slices. -/
def slice (size k : Nat) (l : List α) : List α := (l.drop (k * size)).take size

/-- Replace the part that begins at an offset. -/
def overwrite [Inhabited α] (l : List α) (off : Nat) (part : List α) : List α :=
  l.take off ++ List.replicate (off - l.length) default ++ part ++ l.drop (off + part.length)

/-- There is a slice for every number that starts within the data. -/
theorem lt_sliceCount_iff {size n k : Nat} (hs : 0 < size) :
    k < sliceCount size n ↔ k * size < n := by
  have hn := Nat.div_add_mod n size
  have hlt := Nat.mod_lt n hs
  rw [sliceCount]
  constructor
  · intro h
    by_cases hk : k < n / size
    · have : (k + 1) * size ≤ n / size * size := Nat.mul_le_mul_right size hk
      rw [Nat.succ_mul, Nat.mul_comm (n / size)] at this
      omega
    · split at h
      · omega
      · obtain rfl : k = n / size := by omega
        rw [Nat.mul_comm]
        omega
  · intro h
    by_contra hk
    split at hk
    · have : n / size * size ≤ k * size := Nat.mul_le_mul_right size (by omega)
      rw [Nat.mul_comm] at this
      omega
    · have : (n / size + 1) * size ≤ k * size := Nat.mul_le_mul_right size (by omega)
      rw [Nat.succ_mul, Nat.mul_comm] at this
      omega

/-- The slices cover the data. -/
theorem le_sliceCount_mul {size n : Nat} (hs : 0 < size) : n ≤ sliceCount size n * size := by
  have := (lt_sliceCount_iff (n := n) hs).not.1 (Nat.lt_irrefl (sliceCount size n))
  omega

/-- The number of slices, where what is empty is one slice as well. -/
def partCount (size n : Nat) : Nat :=
  if sliceCount size n = 0 then 1 else sliceCount size n

/-- There is a part for the first number, and for every number that starts within the data. -/
theorem lt_partCount_iff {size n k : Nat} (h : 0 < size) :
    k < partCount size n ↔ k = 0 ∨ k * size < n := by
  have hk := lt_sliceCount_iff (n := n) (k := k) h
  rw [partCount]
  split
  · next h0 => rw [h0] at hk; omega
  · next h0 =>
    rw [hk]
    constructor
    · exact .inr
    · rintro (rfl | h)
      · exact hk.1 (by omega)
      · exact h

/-- There is at least one part. -/
theorem partCount_pos (size n : Nat) : 0 < partCount size n := by
  rw [partCount]
  split <;> omega

/-- There are at most so many slices if so many cover the data. -/
theorem sliceCount_le_iff {size n m : Nat} (h : 0 < size) :
    sliceCount size n ≤ m ↔ n ≤ m * size := by
  rw [← Nat.not_lt, lt_sliceCount_iff h, Nat.not_lt]

/-- There are at most so many parts if so many cover the data. -/
theorem partCount_le {size n m : Nat} (hm : 0 < m) (h : 0 < size) (hn : n ≤ m * size) :
    partCount size n ≤ m := by
  have := (sliceCount_le_iff h).2 hn
  rw [partCount]
  split <;> omega

/-- The parts cover the data. -/
theorem le_partCount_mul {size n : Nat} (h : 0 < size) : n ≤ partCount size n * size := by
  have := (lt_partCount_iff (n := n) h).not.1 (Nat.lt_irrefl (partCount size n))
  omega

/-! ## The bounds of slices -/

/-- The positions from the first to the last of each pair, below `n`, each of them once. -/
structure Tiles (bounds : List (Nat × Nat)) (n : Nat) : Prop where
  valid : ∀ b ∈ bounds, b.1 ≤ b.2 ∧ b.2 < n
  disjoint : bounds.Pairwise fun a b => a.2 < b.1 ∨ b.2 < a.1
  covers : ∀ i < n, ∃ b ∈ bounds, b.1 ≤ i ∧ i ≤ b.2

/-- The first and the last position of a slice. -/
def sliceBounds (size n k : Nat) : Nat × Nat := (k * size, k * size + min size (n - k * size) - 1)

/-- The slices of a list that is not empty. -/
theorem tiles_slices {size n : Nat} (hs : 0 < size) (hn : 0 < n) :
    Tiles ((List.range (partCount size n)).map (sliceBounds size n)) n := by
  have hlt : ∀ k, k < partCount size n → k * size < n := by
    intro k hk
    rcases (lt_partCount_iff hs).1 hk with rfl | hlt
    · omega
    · exact hlt
  constructor
  case valid =>
    intro b hb
    obtain ⟨k, hk, rfl⟩ := List.mem_map.1 hb
    have := hlt k (List.mem_range.1 hk)
    simp only [sliceBounds]
    omega
  case disjoint =>
    rw [List.pairwise_map]
    refine List.pairwise_lt_range.imp fun {j k} hjk => .inl ?_
    have hle : (j + 1) * size ≤ k * size := Nat.mul_le_mul_right size hjk
    rw [Nat.succ_mul] at hle
    simp only [sliceBounds]
    omega
  case covers =>
    intro i hi
    have hdiv := Nat.div_add_mod i size
    have hmod := Nat.mod_lt i hs
    rw [Nat.mul_comm] at hdiv
    have hk : i / size < partCount size n := (lt_partCount_iff hs).2 (by omega)
    refine ⟨_, List.mem_map.2 ⟨i / size, List.mem_range.2 hk, rfl⟩, ?_⟩
    simp only [sliceBounds]
    omega

/-! ## The elements of slices -/

/-- An item of a slice is the item of the list at its place. -/
theorem getElem?_slice (size k : Nat) (l : List α) (i : Nat) :
    (slice size k l)[i]? = if i < size then l[k * size + i]? else none := by
  rw [slice, List.getElem?_take]
  split
  · rw [List.getElem?_drop]
  · rfl

/-- A slice is of full size, or has what is left. -/
theorem length_slice (size k : Nat) (l : List α) :
    (slice size k l).length = min size (l.length - k * size) := by
  rw [slice, List.length_take, List.length_drop]

/-- The slices of a list, enough of them, put together are the list. -/
theorem flatten_slices {size n : Nat} {l : List α} (h : l.length ≤ n * size) :
    ((List.range n).map fun k => slice size k l).flatten = l := by
  induction n generalizing l with
  | zero => simpa using h
  | succ n ih =>
    have hrest : ∀ k, slice size (k + 1) l = slice size k (l.drop size) := fun k => by
      rw [slice, slice, List.drop_drop, Nat.succ_mul, Nat.add_comm]
    rw [List.range_succ_eq_map, List.map_cons, List.map_map, List.flatten_cons]
    simp only [Function.comp_def, Nat.succ_eq_add_one, hrest]
    rw [ih (by rw [List.length_drop]; rw [Nat.succ_mul] at h; omega), slice, Nat.zero_mul,
      List.drop_zero, List.take_append_drop]

section

variable [Inhabited α]

/-- Overwriting within a list keeps its length. -/
theorem length_overwrite {l part : List α} {off : Nat} (h : off + part.length ≤ l.length) :
    (overwrite l off part).length = l.length := by
  simp only [overwrite, List.length_append, List.length_take, List.length_replicate,
    List.length_drop]
  omega

/-- Overwriting makes a list no longer than to the end of the part. -/
theorem length_overwrite_le (l part : List α) (off : Nat) :
    (overwrite l off part).length ≤ max l.length (off + part.length) := by
  simp only [overwrite, List.length_append, List.length_take, List.length_replicate,
    List.length_drop]
  omega

/-- Overwriting keeps what is before the part and what is behind it. -/
theorem overwrite_eq {l part : List α} {off : Nat} (h : off ≤ l.length) :
    overwrite l off part = l.take off ++ part ++ l.drop (off + part.length) := by
  rw [overwrite, Nat.sub_eq_zero_of_le h, List.replicate_zero, List.append_nil]

@[simp] theorem overwrite_nil {l : List α} {off : Nat} (h : off ≤ l.length) :
    overwrite l off [] = l := by
  rw [overwrite_eq h, List.append_nil, List.length_nil, Nat.add_zero, List.take_append_drop]

@[simp] theorem overwrite_nil_left (part : List α) : overwrite [] 0 part = part := by
  simp [overwrite]

/-- What was not written is kept, or is a gap that was filled. -/
theorem getElem?_overwrite_eq (l part : List α) (off i : Nat) : (overwrite l off part)[i]? =
    if off ≤ i ∧ i < off + part.length then part[i - off]?
    else if i < off ∧ l.length ≤ i then some default else l[i]? := by
  have hlen : (l.take off ++ List.replicate (off - l.length) (default : α)).length = off := by
    rw [List.length_append, List.length_take, List.length_replicate]
    omega
  rw [overwrite, List.append_assoc, List.getElem?_append, hlen]
  split
  · next hi =>
    rw [if_neg (by omega), List.getElem?_append, List.length_take]
    split
    · rw [if_neg (by omega), List.getElem?_take, if_pos hi]
    · rw [if_pos (by omega), List.getElem?_replicate, if_pos (by omega)]
  · next hi =>
    rw [List.getElem?_append]
    split
    · rw [if_pos (by omega)]
    · rw [if_neg (by omega), if_neg (by omega), List.getElem?_drop]
      congr 1
      omega

/-- An item is one of the part at the places of the part, and one of the list elsewhere. -/
theorem getElem?_overwrite {l part : List α} {off : Nat} (h : off + part.length ≤ l.length)
    (i : Nat) : (overwrite l off part)[i]? =
      if off ≤ i ∧ i < off + part.length then part[i - off]? else l[i]? := by
  rw [getElem?_overwrite_eq, if_neg (c := i < off ∧ l.length ≤ i) (by omega)]

/-- What stands before the end of the part. -/
theorem take_overwrite {l part : List α} {off n : Nat} (h : off + part.length ≤ l.length)
    (hn : n = off + part.length) : (overwrite l off part).take n = l.take off ++ part := by
  have hlen : (l.take off ++ part).length = n := by
    rw [List.length_append, List.length_take]
    omega
  rw [overwrite_eq (by omega), List.take_left' hlen]

/-- Two parts, one after the other. -/
theorem overwrite_overwrite (l p q : List α) (off : Nat) :
    overwrite (overwrite l off p) (off + p.length) q = overwrite l off (p ++ q) := by
  have hlen : (overwrite l off p).length = max l.length (off + p.length) := by
    simp only [overwrite, List.length_append, List.length_take, List.length_replicate,
      List.length_drop]
    omega
  refine List.ext_getElem? fun i => ?_
  rw [getElem?_overwrite_eq, getElem?_overwrite_eq, getElem?_overwrite_eq, hlen,
    List.length_append, List.getElem?_append]
  by_cases hq : off + p.length ≤ i ∧ i < off + p.length + q.length
  · rw [if_pos hq, if_pos (by omega), if_neg (by omega)]
    congr 1
    omega
  · rw [if_neg hq, if_neg (by omega)]
    by_cases hp : off ≤ i ∧ i < off + p.length
    · rw [if_pos hp, if_pos (by omega), if_pos (by omega)]
    · rw [if_neg hp, if_neg (show ¬ (off ≤ i ∧ i < off + (p.length + q.length)) by omega)]

end

/-- The lists have the same element at the place. -/
def SameAt (l l' : List α) (i : Nat) : Prop := ∃ a, l[i]? = some a ∧ l'[i]? = some a

/-- Where a part of the other list is written at its place. -/
theorem sameAt_overwrite_self [Inhabited α] (l : List α) {l' part : List α} {off : Nat}
    (h : part <+: l'.drop off) {i : Nat} (hi : off ≤ i) (hlt : i < off + part.length) :
    SameAt (overwrite l off part) l' i := by
  have hi' : i - off < part.length := by omega
  refine ⟨part[i - off], ?_, ?_⟩
  · rw [getElem?_overwrite_eq, if_pos ⟨hi, hlt⟩, List.getElem?_eq_getElem hi']
  · have := List.prefix_iff_getElem?.1 h (i - off) hi'
    rwa [List.getElem?_drop, Nat.add_sub_cancel' hi] at this

/-- Writing a part of the other list at its place keeps what is the same. -/
theorem SameAt.overwrite [Inhabited α] {l l' part : List α} {i : Nat} (h : SameAt l l' i)
    {off : Nat} (hpart : part <+: l'.drop off) :
    SameAt (ExtremeS3.overwrite l off part) l' i := by
  by_cases hi : off ≤ i ∧ i < off + part.length
  · exact sameAt_overwrite_self l hpart hi.1 hi.2
  · obtain ⟨a, ha, ha'⟩ := h
    have := (List.getElem?_eq_some_iff.1 ha).1
    exact ⟨a, by rw [getElem?_overwrite_eq, if_neg hi, if_neg (by omega), ha], ha'⟩

/-- A list that is the same as the other one up to its end is the front of it. -/
theorem eq_take_of_sameAt {l l' : List α} {n : Nat} (hlen : l.length ≤ n)
    (h : ∀ i < n, SameAt l l' i) : l = l'.take n ∧ l.length = n := by
  have hn : l.length = n := by
    by_contra hne
    obtain ⟨a, ha, -⟩ := h l.length (by omega)
    exact absurd (List.getElem?_eq_some_iff.1 ha).1 (Nat.lt_irrefl _)
  refine ⟨List.ext_getElem? fun i => ?_, hn⟩
  rw [List.getElem?_take]
  split
  · next hi =>
    obtain ⟨a, ha, ha'⟩ := h i hi
    rw [ha, ha']
  · rw [List.getElem?_eq_none (by omega)]

/-- The list has the slices of the other one, as far as they are listed. -/
structure HasSlices (size : Nat) (l : List α) (ks : List Nat) (data : List α) : Prop where
  length : data.length = l.length
  slice : ∀ k ∈ ks, slice size k data = slice size k l

/-- Writing a slice at its place. -/
theorem HasSlices.write [Inhabited α] {size : Nat} {l data : List α} {ks : List Nat}
    (h : HasSlices size l ks data) {k : Nat} (hk : k * size ≤ l.length) :
    HasSlices size l (k :: ks) (overwrite data (k * size) (ExtremeS3.slice size k l)) := by
  have hfits : k * size + (ExtremeS3.slice size k l).length ≤ data.length := by
    rw [length_slice, h.length]
    omega
  refine ⟨(length_overwrite hfits).trans h.length, fun j hj => List.ext_getElem? fun i => ?_⟩
  rw [getElem?_slice, getElem?_slice]
  split
  · next hi =>
    rw [getElem?_overwrite hfits, length_slice]
    split
    · next hin =>
      rw [getElem?_slice, if_pos (by omega)]
      congr 1
      omega
    · next hin =>
      by_cases hjk : j = k
      · subst hjk
        rw [List.getElem?_eq_none (by rw [h.length]; omega), List.getElem?_eq_none (by omega)]
      · have := congrArg (·[i]?) (h.slice j ((List.mem_cons.1 hj).resolve_left hjk))
        simpa only [getElem?_slice, if_pos hi] using this
  · rfl

/-- A list with all slices of another one is that one. -/
theorem HasSlices.eq_of_forall {size n : Nat} {l data : List α} {ks : List Nat}
    (h : HasSlices size l ks data) (hn : l.length ≤ n * size) (hks : ∀ k < n, k ∈ ks) :
    data = l := by
  rw [← flatten_slices hn, ← flatten_slices (h.length.trans_le hn)]
  congr 1
  exact List.map_congr_left fun k hk => h.slice k (hks k (List.mem_range.1 hk))

end ExtremeS3
