import ExtremeS3.Agenda.Basic
import ExtremeS3.Uploader.Pump

/-!
# The plan of an upload

`start_upload` cuts what the pieces hold into segments and hands them out to pumps, a run of
segments each. The runs are not empty and tile the segments (`startUpload_spec`), unless there are
more than `maxPartNum` of them. With less than two segments in flight the loop that creates the
pumps makes no progress (`start_upload_plans_iff`). The loop ends just if it makes progress
(`schedulePump_loop`, `schedulePump_diverges`).
-/

namespace ExtremeS3

/-- `MAX_PART_NUM`. -/
def maxPartNum : Nat := 10000

/-- `MAX_IN_FLIGHT`. -/
def maxInFlight : Nat := 200

/-- The number of segments in flight that `main` makes of its option. -/
def segmentsInFlight (segments : Int) : Nat :=
  if maxInFlight < segments then maxInFlight else if segments ≤ 0 then 40 else segments.toNat

/-- The body of the loop of `start_upload` that creates the pumps: the next segment, and the pumps so
far with their first segments and their numbers of segments. -/
def schedulePump (numberOfSegments numPerPump : Nat) (s : Nat × List (Nat × Nat)) :
    Prog TransferError ((Nat × List (Nat × Nat)) ⊕ List (Nat × Nat)) :=
  if s.1 < numberOfSegments then
    let numCur := numberOfSegments - s.1
    let numCur := if numPerPump < numCur then numPerPump else numCur
    pure (.inl (s.1 + numPerPump, s.2 ++ [(s.1, numCur)]))
  else pure (.inr s.2)

/-- `file_uploader::start_upload`: the number of parts, and the pumps. -/
def startUpload (lim : AgendaLimits) (segmentSize : Nat) (files : ScatteredFiles) :
    Prog TransferError (Nat × List (Nat × Nat)) := do
  let size := files.sizes.sum
  .ensure (segmentSize ≠ 0) .divisionByZero
  let numberOfSegments := sliceCount segmentSize size
  .ensure (numberOfSegments ≤ maxPartNum) .tooBig
  let numberOfSegments := if numberOfSegments = 0 then 1 else numberOfSegments
  let numPerPump := numberOfSegments / lim.getCapability .ioBound + 1
  let numPerPump :=
    if lim.maxSegmentsInFlight / 2 < numPerPump then lim.maxSegmentsInFlight / 2 else numPerPump
  let pumps ← .loop (schedulePump numberOfSegments numPerPump) (0, [])
  pure (numberOfSegments, pumps)

/-- The pumps read runs of the segments that are not empty, do not meet, and cover the segments. -/
structure PumpsTile (num : Nat) (pumps : List (Nat × Nat)) : Prop where
  nonempty : ∀ p ∈ pumps, 0 < p.2
  disjoint : pumps.Pairwise fun p q => p.1 + p.2 ≤ q.1 ∨ q.1 + q.2 ≤ p.1
  cover : ∀ k, (∃ p ∈ pumps, p.1 ≤ k ∧ k < p.1 + p.2) ↔ k < num

/-- The upload is rejected as too big, or planned: its pumps tile the parts, and none of them needs
more segments than there may be in flight. -/
def PlansUpload (lim : AgendaLimits) (segmentSize : Nat) (files : ScatteredFiles) : Prop :=
  (startUpload lim segmentSize files).Evals (.error .tooBig) ∨
    ∃ num pumps, (startUpload lim segmentSize files).Evals (.ok (num, pumps)) ∧
      PumpsTile num pumps ∧ ∀ p ∈ pumps, p.2 ≤ lim.maxSegmentsInFlight

/-- The segments that pumps read. -/
def pumpSegments (pumps : List (Nat × Nat)) : List Nat :=
  pumps.flatMap fun p => List.range' p.1 p.2

/-- Cutting the segments into pumps throws nothing. -/
theorem schedulePump_ne_error (numberOfSegments numPerPump : Nat) (s : Nat × List (Nat × Nat))
    (n : Nat) (e : TransferError) :
    schedulePump numberOfSegments numPerPump s n ≠ some (.error e) := by
  intro h
  by_cases hlt : s.1 < numberOfSegments
  · rw [schedulePump, if_pos hlt] at h
    cases h
  · rw [schedulePump, if_neg hlt] at h
    cases h

/-- Cutting the segments into pumps ends, and each segment is in one of them, in their order. -/
theorem schedulePump_loop (numberOfSegments : Nat) {numPerPump : Nat} (h : 0 < numPerPump) :
    ∃ pumps, (Prog.loop (schedulePump numberOfSegments numPerPump) (0, [])).Evals (.ok pumps) ∧
      pumpSegments pumps = List.range numberOfSegments ∧
      ∀ p ∈ pumps, 0 < p.2 ∧ p.2 ≤ numPerPump := by
  have hstart : pumpSegments [] = List.range (min 0 numberOfSegments) ∧
      ∀ p ∈ ([] : List (Nat × Nat)), 0 < p.2 ∧ p.2 ≤ numPerPump :=
    ⟨by simp [pumpSegments], by simp⟩
  refine Prog.exists_evals_loop (I := fun s =>
    pumpSegments s.2 = List.range (min s.1 numberOfSegments) ∧
      ∀ p ∈ s.2, 0 < p.2 ∧ p.2 ≤ numPerPump)
    (fun s => numberOfSegments - s.1) (fun s hs => ?_) hstart
  obtain ⟨f, pumps⟩ := s
  obtain ⟨hcover, hpumps⟩ := hs
  dsimp only at hcover hpumps ⊢
  by_cases hlt : f < numberOfSegments
  · have hcur : (if numPerPump < numberOfSegments - f then numPerPump else numberOfSegments - f) =
        min (f + numPerPump) numberOfSegments - f := by
      split <;> omega
    refine .inl ⟨_, by rw [schedulePump, if_pos hlt]; exact Prog.evals_pure _, ⟨?_, ?_⟩, by
      dsimp only; omega⟩
    · have happ := List.range'_append_1 (s := 0) (m := f)
        (n := min (f + numPerPump) numberOfSegments - f)
      rw [Nat.zero_add, Nat.add_sub_cancel' (by omega)] at happ
      rw [hcur, pumpSegments, List.flatMap_append, ← pumpSegments, hcover, Nat.min_eq_left (by omega),
        List.flatMap_singleton, List.range_eq_range', List.range_eq_range', happ]
    · intro p hp
      rcases List.mem_append.1 hp with hp | hp
      · exact hpumps p hp
      · rw [List.mem_singleton.1 hp, hcur]
        dsimp only
        omega
  · refine .inr ⟨pumps, by rw [schedulePump, if_neg hlt]; exact Prog.evals_pure _, ?_, hpumps⟩
    rw [hcover, Nat.min_eq_right (by omega)]

/-- The parts of an upload that is not too big are handed out to the pumps. -/
theorem startUpload_spec (files : ScatteredFiles) {lim : AgendaLimits}
    (hmax : 2 ≤ lim.maxSegmentsInFlight) {segmentSize : Nat} (hs : 0 < segmentSize)
    (hsize : files.sizes.sum ≤ maxPartNum * segmentSize) :
    ∃ pumps, (startUpload lim segmentSize files).Evals
        (.ok (partCount segmentSize files.sizes.sum, pumps)) ∧
      pumpSegments pumps = List.range (partCount segmentSize files.sizes.sum) ∧
      ∀ p ∈ pumps, 0 < p.2 ∧ p.2 ≤ lim.maxSegmentsInFlight := by
  have hfits : sliceCount segmentSize files.sizes.sum ≤ maxPartNum := by
    by_contra h
    have := (lt_sliceCount_iff hs).1 (Nat.lt_of_not_le h)
    omega
  set n := partCount segmentSize files.sizes.sum with hn
  obtain ⟨per, hper, hpos, hmax'⟩ : ∃ per, per =
      (if lim.maxSegmentsInFlight / 2 < n / lim.getCapability .ioBound + 1
        then lim.maxSegmentsInFlight / 2 else n / lim.getCapability .ioBound + 1) ∧
      0 < per ∧ per ≤ lim.maxSegmentsInFlight / 2 := by
    refine ⟨_, rfl, ?_⟩
    split
    · omega
    · next h => exact ⟨Nat.succ_pos _, Nat.le_of_not_lt h⟩
  obtain ⟨pumps, hloop, hcover, hpumps⟩ := schedulePump_loop n hpos
  refine ⟨pumps, ?_, hcover, fun p hp => ?_⟩
  · refine (Prog.evals_ensure (decide_eq_true (by omega)) _).bind ?_
    refine (Prog.evals_ensure (decide_eq_true hfits) _).bind ?_
    rw [hper] at hloop
    exact hloop.bind (Prog.evals_pure _)
  · have := hpumps p hp
    omega

/-- What an upload rejects. -/
theorem startUpload_tooBig_iff (lim : AgendaLimits) {segmentSize : Nat} (h : 0 < segmentSize)
    (files : ScatteredFiles) : (startUpload lim segmentSize files).Evals (.error .tooBig) ↔
      maxPartNum * segmentSize < files.sizes.sum := by
  have hsize := sliceCount_le_iff (n := files.sizes.sum) (m := maxPartNum) h
  have hdivide : Prog.ensure (segmentSize ≠ 0) TransferError.divisionByZero = pure () :=
    if_pos (decide_eq_true (by omega))
  constructor
  · intro he
    by_contra hle
    have hfits : Prog.ensure (sliceCount segmentSize files.sizes.sum ≤ maxPartNum)
        TransferError.tooBig = pure () := if_pos (decide_eq_true (hsize.2 (by omega)))
    obtain ⟨m, hm⟩ := he.ends
    have hm := hm m (Nat.le_refl m)
    simp only [startUpload, hdivide, hfits, Prog.bind_apply, Prog.pure_apply, Option.bind_some]
      at hm
    obtain ⟨r, hr, hm⟩ := Option.bind_eq_some_iff.1 hm
    cases r with
    | ok pumps => cases hm
    | error e => exact Prog.loop_ne_error (schedulePump_ne_error _ _) _ m e hr
  · intro hlt
    rw [startUpload, hdivide]
    refine (Prog.evals_pure ()).bind (Prog.Evals.bind_error ?_)
    exact Prog.evals_ensure_not (by simpa using by omega) _

/-- A segment is in some pump if it lies in its range. -/
theorem mem_pumpSegments {pumps : List (Nat × Nat)} {k : Nat} :
    k ∈ pumpSegments pumps ↔ ∃ p ∈ pumps, p.1 ≤ k ∧ k < p.1 + p.2 := by
  simp only [pumpSegments, List.mem_flatMap, List.mem_range'_1]

/-- Pumps that read the segments in order tile them. -/
theorem pumpsTile_of_segments {num : Nat} {pumps : List (Nat × Nat)}
    (h : pumpSegments pumps = List.range num) (hpos : ∀ p ∈ pumps, 0 < p.2) :
    PumpsTile num pumps := by
  refine ⟨hpos, ?_, fun k => ?_⟩
  · have hnodup : (pumpSegments pumps).Nodup := by
      rw [h]
      exact List.nodup_range
    refine (List.nodup_flatMap.1 hnodup).2.imp_of_mem fun {p q} hp hq hdisjoint => ?_
    have hp := hpos p hp
    have hq := hpos q hq
    -- the first segments of the two runs are not in the other one
    have hfirst : p.1 ∉ List.range' q.1 q.2 := fun hm =>
      hdisjoint (List.mem_range'_1.2 ⟨Nat.le_refl _, by omega⟩) hm
    have hsecond : q.1 ∉ List.range' p.1 p.2 := fun hm =>
      hdisjoint hm (List.mem_range'_1.2 ⟨Nat.le_refl _, by omega⟩)
    rw [List.mem_range'_1] at hfirst hsecond
    omega
  · rw [← mem_pumpSegments, h, List.mem_range]

/-- Pumps without segments leave the loop where it is. -/
theorem schedulePump_diverges {numberOfSegments : Nat} (h : 0 < numberOfSegments) :
    (Prog.loop (schedulePump numberOfSegments 0) (0, [])).Diverges := by
  refine Prog.loop_diverges (I := fun s => s.1 = 0) (fun s hs => .inr ?_) rfl
  refine ⟨(s.1 + 0, s.2 ++ [(s.1, 0)]), ?_, hs⟩
  unfold schedulePump
  rw [if_pos (by omega)]
  dsimp only
  rw [if_pos (by omega)]
  exact Prog.evals_pure _

/-- The loop that creates the pumps does not end when less than two segments may be in flight. -/
theorem startUpload_diverges (lim : AgendaLimits) (files : ScatteredFiles) {segmentSize : Nat}
    (hmax : lim.maxSegmentsInFlight < 2) (h : 0 < segmentSize)
    (hsize : files.sizes.sum ≤ maxPartNum * segmentSize) :
    (startUpload lim segmentSize files).Diverges := by
  have hhalf : lim.maxSegmentsInFlight / 2 = 0 := by omega
  refine (Prog.evals_ensure (decide_eq_true (by omega)) _).bind_diverges ?_
  refine (Prog.evals_ensure (decide_eq_true ((sliceCount_le_iff h).2 hsize)) _).bind_diverges ?_
  dsimp only
  rw [hhalf, if_pos (Nat.succ_pos _)]
  exact (schedulePump_diverges (partCount_pos _ _)).bind _

/-- An upload is planned unless less than two segments may be in flight. -/
theorem start_upload_plans_iff (lim : AgendaLimits) {segmentSize : Nat} (h : 0 < segmentSize)
    (files : ScatteredFiles) :
    PlansUpload lim segmentSize files ↔
      maxPartNum * segmentSize < files.sizes.sum ∨ 2 ≤ lim.maxSegmentsInFlight := by
  constructor
  · intro hplan
    by_contra hno
    have hdiverges := startUpload_diverges lim files (by omega) h (by omega)
    rcases hplan with hbig | ⟨num, pumps, hok, -⟩
    · exact hdiverges.not_evals _ hbig
    · exact hdiverges.not_evals _ hok
  · intro hcond
    by_cases hsize : maxPartNum * segmentSize < files.sizes.sum
    · exact .inl ((startUpload_tooBig_iff lim h files).2 hsize)
    · obtain ⟨pumps, hok, hcover, hpumps⟩ :=
        startUpload_spec files (hcond.resolve_left hsize) h (Nat.le_of_not_lt hsize)
      exact .inr ⟨_, pumps, hok, pumpsTile_of_segments hcover fun p hp => (hpumps p hp).1,
        fun p hp => (hpumps p hp).2⟩

/-- `main` configures one segment in flight at least, and no more than one only when it is asked
to. -/
theorem segmentsInFlight_lt_two_iff (segments : Int) :
    segmentsInFlight segments < 2 ↔ segments = 1 := by
  unfold segmentsInFlight maxInFlight
  split
  · omega
  · split <;> omega

/-- No more segments are in flight than there may be. -/
theorem segmentsInFlight_le (segments : Int) : segmentsInFlight segments ≤ maxInFlight := by
  unfold segmentsInFlight maxInFlight
  split
  · exact Nat.le_refl _
  · split <;> omega

/-- The limits of an agenda with one thread for each class, and with an option of `main`. -/
def limitsOf (segments : Int) : AgendaLimits where
  numUnbound := 1
  numCpuBound := 1
  numIoBound := 1
  maxSegmentsInFlight := segmentsInFlight segments
  unbound_pos := Nat.one_pos
  cpuBound_pos := Nat.one_pos
  ioBound_pos := Nat.one_pos
  maxSegmentsInFlight_lt := (segmentsInFlight_le segments).trans_lt (by decide)

/-- `start_upload_plans_iff` for a small file and two segments in flight. -/
theorem start_upload_plans_iff_two :
    PlansUpload (limitsOf 2) 4 ⟨["/f".toList], [9]⟩ :=
  (start_upload_plans_iff (limitsOf 2) (by decide) ⟨["/f".toList], [9]⟩).2
    (.inr (by decide))

/-- With one segment in flight, which `main` accepts, no upload that is not too big is planned. -/
theorem start_upload_goes_on : ¬ ∀ (lim : AgendaLimits) (segmentSize : Nat) (files : ScatteredFiles),
    (∃ segments, lim.maxSegmentsInFlight = segmentsInFlight segments) → 0 < segmentSize →
      PlansUpload lim segmentSize files := by
  intro hall
  have hplan := hall (limitsOf 1) 4 ⟨["/f".toList], [9]⟩ ⟨1, rfl⟩ (by decide)
  have hdiverges : (startUpload (limitsOf 1) 4 ⟨["/f".toList], [9]⟩).Diverges :=
    startUpload_diverges _ _ (by decide) (by decide) (by decide)
  rcases hplan with hbig | ⟨num, pumps, hok, -⟩
  · exact hdiverges.not_evals _ hbig
  · exact hdiverges.not_evals _ hok

end ExtremeS3
