import ExtremeS3.Downloader.Content

/-!
# The ranges that a download asks for

`file_downloader` schedules a `download_segment_task` for each segment, and `download_data` asks for
the range of the segment. The offsets and lengths are computed without sign, and the two ends of the
range are printed as signed numbers. `segment_ranges_tile_iff` says for which objects the ranges are
proper and tile the object: those that are not empty and whose last byte has a signed position.
-/

namespace ExtremeS3

/-- The offset of a segment in `download_segment_task::operator()`, a `uint64_t`. -/
def segmentOffset (segmentSize curSegment : Nat) : Nat := segmentSize * curSegment % 2 ^ 64

/-- The size of a segment in `download_segment_task::operator()`, a `uint64_t`. -/
def segmentLength (remoteSize segmentSize curSegment : Nat) : Nat :=
  let startOffset := segmentOffset segmentSize curSegment
  let size := (remoteSize + (2 ^ 64 - startOffset)) % 2 ^ 64
  if segmentSize < size then segmentSize else size

/-- The value for `CURLOPT_RANGE` in `download_data`; the sum of the last position is a `uint64_t`. -/
def rangeValue (offset size : Nat) : Str :=
  intToString (toSigned offset) ++ "-".toList ++
    intToString (toSigned ((offset + size + (2 ^ 64 - 1)) % 2 ^ 64))

/-- The ranges that the tasks of `file_downloader::operator()` ask for, of `segNum` segments. -/
def segmentRanges (segmentSize remoteSize segNum : Nat) : List Str :=
  (List.range segNum).map fun f =>
    rangeValue (segmentOffset segmentSize f) (segmentLength remoteSize segmentSize f)

/-- The text of a range from a first to a last position. -/
def rangeText (b : Nat × Nat) : Str := intToString b.1 ++ "-".toList ++ intToString b.2

/-- The texts are of ranges that tile the positions below `n`. -/
def RangesTile (ranges : List Str) (n : Nat) : Prop :=
  ∃ bounds, ranges = bounds.map rangeText ∧ Tiles bounds n

/-! ## The numbers -/

/-- The offset of a segment of an object is not cut off, nor is its length. -/
theorem segmentOffset_eq {segmentSize remoteSize k : Nat} (hremote : remoteSize < 2 ^ 64)
    (hk : k * segmentSize ≤ remoteSize) : segmentOffset segmentSize k = k * segmentSize := by
  rw [segmentOffset, Nat.mul_comm]
  exact Nat.mod_eq_of_lt (by omega)

/-- The length the code computes for a segment is that of its range, where it starts within the
object. -/
theorem segmentLength_eq {segmentSize remoteSize k : Nat} (hremote : remoteSize < 2 ^ 64)
    (hk : k * segmentSize ≤ remoteSize) :
    segmentLength remoteSize segmentSize k = min segmentSize (remoteSize - k * segmentSize) := by
  simp only [segmentLength, segmentOffset_eq hremote hk]
  have hsize : (remoteSize + (2 ^ 64 - k * segmentSize)) % 2 ^ 64 = remoteSize - k * segmentSize := by
    rw [← Nat.add_sub_assoc (by omega), Nat.add_comm, Nat.add_sub_assoc hk, Nat.add_mod_left]
    exact Nat.mod_eq_of_lt (by omega)
  rw [hsize]
  split <;> omega

/-- The segments are those of the `download_content`. -/
theorem DownloadContent.size_eq_segmentLength (content : DownloadContent) {segmentSize k : Nat}
    (hremote : content.remoteSize < 2 ^ 64) (hk : k * segmentSize ≤ content.remoteSize) :
    content.size segmentSize k = segmentLength content.remoteSize segmentSize k := by
  rw [content.size_eq, segmentLength_eq hremote hk]

/-- A number from 2^63 on is negative when read as signed. -/
theorem toSigned_neg {n : Nat} (h : 2 ^ 63 ≤ n) (hn : n < 2 ^ 64) : toSigned n < 0 := by
  rw [toSigned, if_neg (by omega)]
  omega

/-! ## The texts -/

/-- A number is printed with a sign just if it is negative. -/
theorem count_sign_intToString (i : Int) : (intToString i).count '-' = if i < 0 then 1 else 0 := by
  have hdigits : ∀ n, (Nat.toDigits 10 n).count '-' = 0 := fun n =>
    List.count_eq_zero.2 fun hm => (not_special_of_isDigit (isDigit_toDigits hm)).2.2.1 rfl
  cases i with
  | ofNat n =>
    rw [intToString, hdigits, if_neg (by simp)]
  | negSucc n =>
    rw [intToString, List.count_cons_self, hdigits, if_pos (Int.negSucc_lt_zero n)]

/-- The last end of a proper range was printed as it is. -/
theorem lt_of_rangeValue_eq {offset size : Nat} {b : Nat × Nat}
    (h : rangeValue offset size = rangeText b) :
    (offset + size + (2 ^ 64 - 1)) % 2 ^ 64 < 2 ^ 63 := by
  have hcount := congrArg (List.count '-') h
  simp only [rangeValue, rangeText, List.count_append, count_sign_intToString] at hcount
  by_contra hle
  have hneg := toSigned_neg (Nat.le_of_not_lt hle) (Nat.mod_lt _ (by decide))
  have hpos : ∀ n : Nat, ¬ (n : Int) < 0 := fun n => by omega
  rw [if_pos hneg, if_neg (hpos b.1), if_neg (hpos b.2)] at hcount
  omega

/-- The range of bytes whose last position is not negative as a signed number. -/
theorem rangeValue_eq {offset size : Nat} (hsize : 0 < size) (hend : offset + size ≤ 2 ^ 63) :
    rangeValue offset size = rangeText (offset, offset + size - 1) := by
  have hlast : (offset + size + (2 ^ 64 - 1)) % 2 ^ 64 = offset + size - 1 := by
    rw [show offset + size + (2 ^ 64 - 1) = offset + size - 1 + 2 ^ 64 by omega, Nat.add_mod_right]
    exact Nat.mod_eq_of_lt (by omega)
  rw [rangeValue, hlast, toSigned_of_lt (by omega), toSigned_of_lt (by omega)]
  rfl

/-! ## The segments of an object -/

/-- The ranges of an object are proper and tile it exactly when the object is not empty and its last
position has no sign. -/
theorem segment_ranges_tile_iff {segmentSize remoteSize segNum : Nat} (hremote : remoteSize < 2 ^ 64)
    (hnum : (segmentNumber segmentSize remoteSize).Evals (.ok segNum)) :
    RangesTile (segmentRanges segmentSize remoteSize segNum) remoteSize ↔
      0 < remoteSize ∧ remoteSize ≤ 2 ^ 63 := by
  obtain ⟨bound, hrun⟩ := hnum.exists_eq
  obtain ⟨hpos, rfl⟩ := segmentNumber_eq_ok hrun
  have hle : ∀ k, k < partCount segmentSize remoteSize → k * segmentSize ≤ remoteSize := by
    intro k hk
    rcases (lt_partCount_iff hpos).1 hk with rfl | hlt
    · omega
    · omega
  constructor
  · rintro ⟨bounds, hbounds, htiles⟩
    have hcount := partCount_pos segmentSize remoteSize
    have hmem : ∀ k, k < partCount segmentSize remoteSize → ∃ b ∈ bounds,
        rangeText b = rangeValue (segmentOffset segmentSize k)
          (segmentLength remoteSize segmentSize k) := by
      intro k hk
      have hk' : rangeValue (segmentOffset segmentSize k) (segmentLength remoteSize segmentSize k) ∈
          bounds.map rangeText := hbounds ▸ List.mem_map.2 ⟨k, List.mem_range.2 hk, rfl⟩
      exact List.mem_map.1 hk'
    obtain ⟨b, hb, -⟩ := hmem 0 hcount
    have hvalid := htiles.valid b hb
    -- the last segment ends with the object
    obtain ⟨k, hk⟩ : ∃ k, partCount segmentSize remoteSize = k + 1 :=
      ⟨_, (Nat.succ_pred_eq_of_pos hcount).symm⟩
    have hklt : k < partCount segmentSize remoteSize := by omega
    obtain ⟨c, -, hc⟩ := hmem k hklt
    have hend := lt_of_rangeValue_eq hc.symm
    have hlast := le_partCount_mul (n := remoteSize) hpos
    have hkle := hle k hklt
    rw [hk, Nat.succ_mul] at hlast
    rw [segmentOffset_eq hremote hkle, segmentLength_eq hremote hkle] at hend
    omega
  · rintro ⟨hn, hmax⟩
    refine ⟨_, ?_, tiles_slices hpos hn⟩
    rw [segmentRanges, List.map_map]
    refine List.map_congr_left fun k hk => ?_
    have hklt := List.mem_range.1 hk
    have hlt : k * segmentSize < remoteSize := by
      rcases (lt_partCount_iff hpos).1 hklt with rfl | hlt
      · omega
      · exact hlt
    rw [segmentOffset_eq hremote hlt.le, segmentLength_eq hremote hlt.le,
      rangeValue_eq (by omega) (by omega)]
    rfl

/-- `segment_ranges_tile_iff` at an object of five bytes in segments of two. -/
theorem segment_ranges_tile_iff_five : segmentRanges 2 5 3 =
      ["0-1".toList, "2-3".toList, "4-4".toList] ∧ RangesTile (segmentRanges 2 5 3) 5 :=
  ⟨by decide, (segment_ranges_tile_iff (by decide) (segmentNumber_spec (by decide)
    (by decide))).2 ⟨by decide, by decide⟩⟩

/-- The range of an empty object is none. -/
theorem empty_range_improper : (segmentNumber 4 0).Evals (.ok 1) ∧
    segmentRanges 4 0 1 = ["0--1".toList] ∧ ¬ RangesTile (segmentRanges 4 0 1) 0 := by
  refine ⟨segmentNumber_spec (by decide) (by decide), by decide, ?_⟩
  rintro ⟨bounds, hbounds, htiles⟩
  cases bounds with
  | nil => cases hbounds
  | cons b bounds => exact absurd (htiles.valid b List.mem_cons_self).2 (Nat.not_lt_zero _)

end ExtremeS3
