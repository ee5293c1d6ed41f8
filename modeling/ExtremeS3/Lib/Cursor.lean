import Mathlib.Data.List.Basic
import Mathlib.Order.Lattice

/-!
# Reading a sorted list by pages

A list that is sorted by a key is read by pages: a page has the first elements whose key is greater
than a marker, and the marker of the next page is the key of some element of this one, which need
not be the last. Pages may overlap then, but no element is left out: what is not greater than the
new marker was not greater than the old one, or is on the page (`mem_page_of_le`). As long as a page
has an element the rest gets smaller (`length_after_lt`).
-/

namespace ExtremeS3

variable {α : Type u} {κ : Type v} [LinearOrder κ]

/-- The elements beyond a marker. -/
def after (key : α → κ) (l : List α) (marker : κ) : List α := l.filter (marker < key ·)

/-- The first of the elements beyond a marker. -/
def page (key : α → κ) (l : List α) (size : Nat) (marker : κ) : List α :=
  (after key l marker).take size

/-- The keys strictly increase. -/
def SortedBy (key : α → κ) (l : List α) : Prop := l.Pairwise fun a b => key a < key b

variable {key : α → κ} {l : List α} {size : Nat} {marker : κ} {a b : α}

/-- What is after a marker has a key behind it. -/
theorem mem_after : a ∈ after key l marker ↔ a ∈ l ∧ marker < key a := by
  rw [after, List.mem_filter, decide_eq_true_iff]

/-- What a page has is after its marker. -/
theorem mem_after_of_mem_page (h : a ∈ page key l size marker) : a ∈ after key l marker :=
  List.mem_of_mem_take h

/-- What is between the old marker and an element of the page is on the page. -/
theorem mem_page_of_le (hl : SortedBy key l) (ha : a ∈ page key l size marker) (hb : b ∈ l)
    (hmarker : marker < key b) (hle : key b ≤ key a) : b ∈ page key l size marker := by
  have hmem : b ∈ (after key l marker).take size ++ (after key l marker).drop size := by
    rw [List.take_append_drop]
    exact mem_after.2 ⟨hb, hmarker⟩
  refine (List.mem_append.1 hmem).resolve_right fun hdrop => ?_
  have hsorted : ((after key l marker).take size ++ (after key l marker).drop size).Pairwise
      fun a b => key a < key b := by
    rw [List.take_append_drop]
    exact hl.filter _
  exact absurd ((List.pairwise_append.1 hsorted).2.2 a ha b hdrop) (not_lt.2 hle)

/-- The rest beyond an element of the page is smaller. -/
theorem length_after_lt (ha : a ∈ page key l size marker) :
    (after key l (key a)).length < (after key l marker).length := by
  have hmem := mem_after.1 (mem_after_of_mem_page ha)
  have hsub : after key l (key a) = (after key l marker).filter (key a < key ·) := by
    rw [after, after, List.filter_filter]
    refine List.filter_congr fun b _ => ?_
    rw [Bool.eq_iff_iff, Bool.and_eq_true, decide_eq_true_iff, decide_eq_true_iff]
    exact ⟨fun h => ⟨h, hmem.2.trans h⟩, fun h => h.1⟩
  rw [hsub]
  refine List.length_filter_lt_length_iff_exists.2 ⟨a, mem_after_of_mem_page ha, ?_⟩
  rw [decide_eq_true_iff]
  exact lt_irrefl _

/-- The last page has all of the rest. -/
theorem page_eq_after (h : (after key l marker).length ≤ size) :
    page key l size marker = after key l marker := List.take_of_length_le h

end ExtremeS3
