import ExtremeS3.Files
import ExtremeS3.Lib.Lists

/-!
# The pumps of an upload

What is uploaded is scattered over pieces, one file each. A `file_pump` finds its first segment in
the pieces (`skipTo`) and reads its segments one after the other, each from as many pieces as it
takes. Segment `k` that it reads is slice `k` of the pieces put together (`filePump_spec`), wherever
the pieces end and however short the reads are. The loops are nested, and each has a lemma of its
own: for a piece (`readChunk_spec`), for a segment, where `ReadInv` says what is read so far
(`readSegment_spec`), and for all segments (`readSegments_spec`).
-/

namespace ExtremeS3

/-- `scattered_files`. -/
structure ScatteredFiles where
  files : List Str
  sizes : List Nat
  deriving DecidableEq, Repr

/-- `std::vector<char>::resize`. -/
def resize (data : Bytes) (size : Nat) : Bytes :=
  data.take size ++ List.replicate (size - data.length) 0

/-- The loop of `file_pump` that skips to its piece: the number of the piece and the offset
within. -/
def skipTo (startOffset : Nat) : Nat → Nat → List Nat → Nat × Nat
  | _, _, [] => (0, 0)
  | f, skippedSoFar, curSize :: sizes =>
    if startOffset < skippedSoFar + curSize then (f, startOffset - skippedSoFar)
    else skipTo startOffset (f + 1) (skippedSoFar + curSize) sizes

/-- The state of the loop that reads from one piece. -/
structure ChunkState where
  data : Bytes
  segmentReadSoFar : Nat
  offsetWithin : Nat
  remainingSize : Nat

/-- The body of the loop that reads from one piece. -/
def readChunk (sys : Sys) (fs : Files) (path : Str) (s : ChunkState) :
    Prog TransferError (ChunkState ⊕ ChunkState) :=
  if 0 < s.remainingSize then do
    let chunk := min s.remainingSize (65536 * 8)
    let buf ← sys.read fs path s.offsetWithin chunk
    .ensure (s.segmentReadSoFar + buf.length ≤ s.data.length) .overflow
    pure (.inl
      { data := overwrite s.data s.segmentReadSoFar buf
        segmentReadSoFar := s.segmentReadSoFar + buf.length
        offsetWithin := s.offsetWithin + buf.length
        remainingSize := s.remainingSize - buf.length })
  else pure (.inr s)

/-- The state of the loop that reads one segment. -/
structure SegmentState where
  data : Bytes
  segmentReadSoFar : Nat
  curPiece : Nat
  offsetWithin : Nat

/-- The body of the loop that reads one segment. -/
def readPiece (sys : Sys) (fs : Files) (segmentSize : Nat) (files : ScatteredFiles)
    (s : SegmentState) : Prog TransferError (SegmentState ⊕ SegmentState) :=
  if s.segmentReadSoFar < s.data.length then do
    let path ← .ofOption .outOfRange files.files[s.curPiece]?
    .ensure (fs.contents path).isSome (.system path)
    let curPieceSize ← .ofOption .outOfRange files.sizes[s.curPiece]?
    let remainingSize := min (segmentSize - s.segmentReadSoFar) (curPieceSize - s.offsetWithin)
    let r ← .loop (readChunk sys fs path)
      ⟨s.data, s.segmentReadSoFar, s.offsetWithin, remainingSize⟩
    pure (.inl (
      -- we've run out of the piece, switch to the next one
      if s.curPiece = files.sizes.length - 1 then
        ⟨resize r.data r.segmentReadSoFar, r.segmentReadSoFar, s.curPiece, r.offsetWithin⟩
      else if curPieceSize = r.offsetWithin then ⟨r.data, r.segmentReadSoFar, s.curPiece + 1, 0⟩
      else ⟨r.data, r.segmentReadSoFar, s.curPiece, r.offsetWithin⟩))
  else pure (.inr s)

/-- The loop of `file_pump` over its segments; the result lists their numbers and data. -/
def readSegments (sys : Sys) (fs : Files) (segmentSize : Nat) (files : ScatteredFiles) :
    (f left curPiece offsetWithin : Nat) → Prog TransferError (List (Nat × Bytes))
  | _, 0, _, _ => pure []
  | f, left + 1, curPiece, offsetWithin => do
    let s ← .loop (readPiece sys fs segmentSize files)
      ⟨resize [] segmentSize, 0, curPiece, offsetWithin⟩
    let segments ← readSegments sys fs segmentSize files (f + 1) left s.curPiece s.offsetWithin
    pure ((f, s.data) :: segments)

/-- `file_pump::operator()`: the parts that it schedules the upload of. -/
def filePump (sys : Sys) (fs : Files) (segmentSize : Nat) (files : ScatteredFiles)
    (curSegment numberOfSegments : Nat) : Prog TransferError (List (Nat × Bytes)) :=
  let start := skipTo (segmentSize * curSegment) 0 0 files.sizes
  readSegments sys fs segmentSize files curSegment numberOfSegments start.1 start.2

/-! ## The pieces -/

/-- The files are the pieces, with their sizes. -/
structure ScatteredFiles.Hold (files : ScatteredFiles) (fs : Files) (pieces : List Bytes) :
    Prop where
  length : files.files.length = pieces.length
  sizes : files.sizes = pieces.map List.length
  contents : ∀ (i : Nat) path, files.files[i]? = some path → fs.contents path = pieces[i]?

/-- The piece and the offset within are a position in the pieces put together. -/
def AtPosition (pieces : List Bytes) (curPiece offsetWithin pos : Nat) : Prop :=
  ∃ before piece after, pieces = before ++ piece :: after ∧ before.length = curPiece ∧
    offsetWithin ≤ piece.length ∧ before.flatten.length + offsetWithin = pos

/-- Skipping pieces ends in the piece the start lies in. -/
theorem skipTo_spec {start : Nat} (before after : List Bytes)
    (hstart : before.flatten.length ≤ start)
    (h : start < (before ++ after).flatten.length) :
    AtPosition (before ++ after)
      (skipTo start before.length before.flatten.length (after.map List.length)).1
      (skipTo start before.length before.flatten.length (after.map List.length)).2 start := by
  induction after generalizing before with
  | nil =>
    rw [List.append_nil] at h
    omega
  | cons piece after ih =>
    rw [List.map_cons, skipTo]
    split
    · next hlt => exact ⟨before, piece, after, rfl, rfl, by dsimp only; omega, by dsimp only; omega⟩
    · next hlt =>
      have hb : (before ++ [piece]).flatten.length = before.flatten.length + piece.length := by
        simp
      have := ih (before ++ [piece]) (by omega) (by simpa using h)
      rwa [hb, List.length_append, List.length_singleton, List.append_assoc,
        List.singleton_append] at this

/-- A position behind all pieces is not found. -/
theorem skipTo_of_le {start : Nat} (sizes : List Nat) (f : Nat) {skipped : Nat}
    (h : skipped + sizes.sum ≤ start) : skipTo start f skipped sizes = (0, 0) := by
  induction sizes generalizing f skipped with
  | nil => rfl
  | cons size sizes ih =>
    rw [List.sum_cons] at h
    rw [skipTo, if_neg (by omega)]
    exact ih (f + 1) (by omega)

/-- The first position, where nothing is skipped to. -/
theorem skipTo_of_length_le {start : Nat} {pieces : List Bytes} (hne : pieces ≠ [])
    (h : pieces.flatten.length ≤ start) :
    AtPosition pieces (skipTo start 0 0 (pieces.map List.length)).1
      (skipTo start 0 0 (pieces.map List.length)).2 0 := by
  rw [skipTo_of_le _ 0 (by rw [← List.length_flatten]; omega)]
  obtain ⟨piece, pieces, rfl⟩ := List.exists_cons_of_ne_nil hne
  exact ⟨[], piece, pieces, rfl, rfl, Nat.zero_le _, rfl⟩

/-! ## One piece -/

/-- The loop that reads from one piece reads what was asked for. -/
theorem readChunk_spec {sys : Sys} (hs : sys.Reads) {fs : Files} {path : Str} {piece : Bytes}
    (hpath : fs.contents path = some piece) (data : Bytes) (read offset remaining : Nat)
    (hpiece : offset + remaining ≤ piece.length) (hdata : read + remaining ≤ data.length) :
    (Prog.loop (readChunk sys fs path) ⟨data, read, offset, remaining⟩).Evals (.ok
      ⟨overwrite data read ((piece.drop offset).take remaining), read + remaining,
        offset + remaining, 0⟩) := by
  refine Prog.Loops.evals ?_
  induction remaining using Nat.strongRecOn generalizing data read offset with
  | ind n ih =>
    by_cases hn : 0 < n
    · obtain ⟨k, hk, hkn, hread⟩ := Sys.evals_read hs hpath offset
        (show 0 < min n (65536 * 8) by omega)
      have hlen : ((piece.drop offset).take k).length = k := by
        rw [List.length_take, List.length_drop]
        omega
      have hbody : (readChunk sys fs path ⟨data, read, offset, n⟩).Evals (.ok (.inl
          ⟨overwrite data read ((piece.drop offset).take k), read + k, offset + k, n - k⟩)) := by
        rw [readChunk, if_pos hn]
        refine hread.bind (.bind (Prog.evals_ensure (decide_eq_true ?_) _) ?_)
        · rw [hlen]
          dsimp only
          omega
        · rw [hlen]
          exact Prog.evals_pure _
      have hrest := ih (n - k) (by omega) (overwrite data read ((piece.drop offset).take k))
        (read + k) (offset + k) (by omega) (by rw [length_overwrite (by omega)]; omega)
      have hdata' : overwrite (overwrite data read ((piece.drop offset).take k)) (read + k)
          ((piece.drop (offset + k)).take (n - k)) =
          overwrite data read ((piece.drop offset).take n) := by
        have := overwrite_overwrite data ((piece.drop offset).take k)
          ((piece.drop (offset + k)).take (n - k)) read
        rw [hlen, ← List.drop_drop, ← List.take_add, show k + (n - k) = n by omega] at this
        rw [← List.drop_drop]
        exact this
      rw [hdata', show read + k + (n - k) = read + n by omega,
        show offset + k + (n - k) = offset + n by omega] at hrest
      exact .again hbody hrest
    · obtain rfl : n = 0 := by omega
      have hbody : (readChunk sys fs path ⟨data, read, offset, 0⟩).Evals
          (.ok (.inr ⟨data, read, offset, 0⟩)) := Prog.evals_pure _
      rw [List.take_zero, overwrite_nil (by omega)]
      exact .done hbody

/-! ## One segment -/

/-- Where the loop that reads one segment stands that began at a position. -/
structure ReadInv (pieces : List Bytes) (segmentSize pos : Nat) (s : SegmentState) : Prop where
  atPosition : AtPosition pieces s.curPiece s.offsetWithin (pos + s.segmentReadSoFar)
  le : s.segmentReadSoFar ≤ s.data.length
  data : s.data.take s.segmentReadSoFar = (pieces.flatten.drop pos).take s.segmentReadSoFar
  length : s.data.length = segmentSize ∨
    s.data.length = s.segmentReadSoFar ∧ s.segmentReadSoFar ≤ segmentSize ∧
      pos + s.segmentReadSoFar = pieces.flatten.length

/-- A pump that starts at a position has read nothing of its segment. -/
theorem ReadInv.start {pieces : List Bytes} {curPiece offsetWithin pos : Nat} (segmentSize : Nat)
    (h : AtPosition pieces curPiece offsetWithin pos) :
    ReadInv pieces segmentSize pos ⟨resize [] segmentSize, 0, curPiece, offsetWithin⟩ :=
  ⟨h, Nat.zero_le _, by simp, .inl (by simp [resize])⟩

/-- A position lies within its piece. -/
theorem AtPosition.offset_le {pieces : List Bytes} {curPiece offsetWithin pos : Nat}
    (h : AtPosition pieces curPiece offsetWithin pos) {piece : Bytes}
    (hpiece : pieces[curPiece]? = some piece) : offsetWithin ≤ piece.length := by
  obtain ⟨before, piece', after, rfl, rfl, hle, -⟩ := h
  rw [List.getElem?_append_right (Nat.le_refl _), Nat.sub_self] at hpiece
  cases hpiece
  exact hle

/-- The rest of a piece is a part of what follows. -/
theorem AtPosition.add_le {pieces : List Bytes} {curPiece offsetWithin pos : Nat}
    (h : AtPosition pieces curPiece offsetWithin pos) {piece : Bytes}
    (hpiece : pieces[curPiece]? = some piece) :
    pos + (piece.length - offsetWithin) ≤ pieces.flatten.length := by
  obtain ⟨before, piece', after, rfl, rfl, hle, rfl⟩ := h
  rw [List.getElem?_append_right (Nat.le_refl _), Nat.sub_self] at hpiece
  cases hpiece
  simp only [List.flatten_append, List.flatten_cons, List.length_append]
  omega

/-- What is read from a piece is what stands at the position. -/
theorem take_drop_piece {before after : List Bytes} {piece : Bytes} {offset n : Nat}
    (h : offset + n ≤ piece.length) :
    ((before ++ piece :: after).flatten.drop (before.flatten.length + offset)).take n =
      (piece.drop offset).take n := by
  rw [List.flatten_append, List.drop_append, List.drop_of_length_le (by omega), List.nil_append,
    Nat.add_sub_cancel_left, List.flatten_cons, List.drop_append_of_le_length (by omega),
    List.take_append_of_le_length (by rw [List.length_drop]; omega)]

/-- A buffer that is cut is the beginning of what it was. -/
theorem resize_of_le {data : Bytes} {size : Nat} (h : size ≤ data.length) :
    resize data size = data.take size := by
  rw [resize, Nat.sub_eq_zero_of_le h, List.replicate_zero, List.append_nil]

/-- The loop that reads from the current piece reads a part of it. -/
def ReadsPart (sys : Sys) (fs : Files) (files : ScatteredFiles) (pieces : List Bytes)
    (segmentSize : Nat) (s : SegmentState) : Prop :=
  ∀ path piece, files.files[s.curPiece]? = some path → pieces[s.curPiece]? = some piece →
    (fs.contents path).isSome ∧ ∀ n, n = min (segmentSize - s.segmentReadSoFar)
      (piece.length - s.offsetWithin) → (Prog.loop (readChunk sys fs path)
        ⟨s.data, s.segmentReadSoFar, s.offsetWithin, n⟩).Evals (.ok
          ⟨overwrite s.data s.segmentReadSoFar ((piece.drop s.offsetWithin).take n),
            s.segmentReadSoFar + n, s.offsetWithin + n, 0⟩)

/-- What an iteration leaves, once the loop that reads from the current piece has returned. -/
theorem evals_readPiece {sys : Sys} {fs : Files} {files : ScatteredFiles} {path : Str} {data : Bytes}
    {segmentSize size read offset : Nat} {s : SegmentState} (hlt : s.segmentReadSoFar < s.data.length)
    (hpath : files.files[s.curPiece]? = some path) (hcontents : (fs.contents path).isSome)
    (hsize : files.sizes[s.curPiece]? = some size)
    (hloop : (Prog.loop (readChunk sys fs path) ⟨s.data, s.segmentReadSoFar, s.offsetWithin,
      min (segmentSize - s.segmentReadSoFar) (size - s.offsetWithin)⟩).Evals
        (.ok ⟨data, read, offset, 0⟩)) :
    (readPiece sys fs segmentSize files s).Evals (.ok (.inl
      (if s.curPiece = files.sizes.length - 1 then ⟨resize data read, read, s.curPiece, offset⟩
      else if size = offset then ⟨data, read, s.curPiece + 1, 0⟩
      else ⟨data, read, s.curPiece, offset⟩))) := by
  rw [readPiece, if_pos hlt]
  refine (Prog.evals_ofOption hpath _).bind ?_
  refine (Prog.evals_ensure hcontents _).bind ?_
  refine (Prog.evals_ofOption hsize _).bind (hloop.bind ?_)
  exact Prog.evals_pure _

/-- One iteration reads the rest of the segment, or the rest of a piece. -/
theorem ReadInv.readPiece {sys : Sys} {fs : Files} {files : ScatteredFiles} {pieces : List Bytes}
    (hfiles : files.files.length = pieces.length) (hsizes : files.sizes = pieces.map List.length)
    {segmentSize pos : Nat} {s : SegmentState} (h : ReadInv pieces segmentSize pos s)
    (hlt : s.segmentReadSoFar < s.data.length)
    (hread : ReadsPart sys fs files pieces segmentSize s) :
    ∃ s', (ExtremeS3.readPiece sys fs segmentSize files s).Evals (.ok (.inl s')) ∧
      ReadInv pieces segmentSize pos s' ∧
      (∀ piece, pieces[s.curPiece]? = some piece → s'.segmentReadSoFar = s.segmentReadSoFar +
        min (segmentSize - s.segmentReadSoFar) (piece.length - s.offsetWithin)) ∧
      (s'.curPiece = s.curPiece ∧ s'.segmentReadSoFar = s'.data.length ∨
        s'.curPiece = s.curPiece + 1 ∧ s'.curPiece < pieces.length) := by
  obtain ⟨data, read, cur, offset⟩ := s
  obtain ⟨⟨before, piece, after, rfl, rfl, hoff, hpos⟩, hle, hdata, hlength⟩ := h
  dsimp only at hlt hoff hpos hle hdata hlength ⊢
  have hsize : data.length = segmentSize := hlength.resolve_right fun h => by omega
  obtain ⟨path, hpath⟩ : ∃ path, files.files[before.length]? = some path :=
    ⟨_, List.getElem?_eq_getElem (by rw [hfiles, List.length_append]; simp)⟩
  have hcur : files.sizes[before.length]? = some piece.length := by
    rw [hsizes]
    simp
  set n := min (segmentSize - read) (piece.length - offset) with hn
  obtain ⟨hcontents, hloop⟩ := hread path piece hpath (by simp)
  have hloop := hloop n hn
  dsimp only at hloop
  have hpart : ((piece.drop offset).take n).length = n := by
    rw [List.length_take, List.length_drop]
    omega
  set data' := overwrite data read ((piece.drop offset).take n) with hdata'
  have hlen' : data'.length = segmentSize := by
    rw [hdata', length_overwrite (by omega), hsize]
  have htake : data'.take (read + n) =
      ((before ++ piece :: after).flatten.drop pos).take (read + n) := by
    rw [hdata', take_overwrite (by omega) (by omega), hdata, List.take_add, List.drop_drop, ← hpos,
      take_drop_piece (by omega)]
  have htotal : (before ++ piece :: after).flatten.length =
      before.flatten.length + piece.length + after.flatten.length := by
    simp only [List.flatten_append, List.flatten_cons, List.length_append]
    omega
  have hbody := evals_readPiece (s := ⟨data, read, before.length, offset⟩) hlt hpath hcontents hcur
    hloop
  dsimp only at hbody
  have hread' : ∀ piece', (before ++ piece :: after)[before.length]? = some piece' → read + n =
      read + min (segmentSize - read) (piece'.length - offset) := by
    intro piece' hpiece'
    rw [List.getElem?_append_right (Nat.le_refl _), Nat.sub_self] at hpiece'
    cases hpiece'
    rw [hn]
  have hcount : files.sizes.length = before.length + 1 + after.length := by
    rw [hsizes, List.length_map, List.length_append, List.length_cons]
    omega
  split at hbody
  · next hlast =>
    -- the last piece: the segment ends with it, or is full
    obtain rfl : after = [] := List.length_eq_zero_iff.1 (by omega)
    refine ⟨_, hbody, ?_, hread', .inl ⟨rfl, ?_⟩⟩
    · rw [resize_of_le (by omega)]
      refine ⟨⟨before, piece, [], rfl, rfl, by dsimp only; omega, by dsimp only; omega⟩, ?_, ?_, ?_⟩
      · rw [List.length_take]
        dsimp only
        omega
      · rw [List.take_take, Nat.min_self]
        exact htake
      · rw [htotal, List.length_take, List.flatten_nil, List.length_nil]
        dsimp only
        omega
    · rw [resize_of_le (by omega), List.length_take]
      dsimp only
      omega
  · next hlast =>
    split at hbody
    · next hend =>
      -- the piece is exhausted
      obtain ⟨piece', after', rfl⟩ := List.exists_cons_of_ne_nil
        (show after ≠ [] by rintro rfl; exact hlast (by rw [hcount]; rfl))
      refine ⟨_, hbody, ⟨⟨before ++ [piece], piece', after', by simp, by simp,
        Nat.zero_le _, ?_⟩, by dsimp only; omega, htake, .inl hlen'⟩, hread', .inr ⟨rfl, ?_⟩⟩
      · simp only [List.flatten_append, List.flatten_cons, List.flatten_nil, List.append_nil,
          List.length_append]
        omega
      · simp
    · next hend =>
      -- the segment is full
      refine ⟨_, hbody, ⟨⟨before, piece, after, rfl, rfl, by dsimp only; omega,
        by dsimp only; omega⟩, by dsimp only; omega, htake, .inl hlen'⟩, hread', .inl ⟨rfl, ?_⟩⟩
      dsimp only
      omega

/-- The loop that reads one segment reads what stands at its position. -/
theorem readSegment_spec {sys : Sys} {fs : Files} {files : ScatteredFiles} {pieces : List Bytes}
    (hfiles : files.files.length = pieces.length) (hsizes : files.sizes = pieces.map List.length)
    (segmentSize : Nat) {curPiece offsetWithin pos : Nat}
    (h : AtPosition pieces curPiece offsetWithin pos)
    (hread : ∀ s, ReadInv pieces segmentSize pos s → s.segmentReadSoFar < s.data.length →
      ReadsPart sys fs files pieces segmentSize s) :
    ∃ s, (Prog.loop (readPiece sys fs segmentSize files)
        ⟨resize [] segmentSize, 0, curPiece, offsetWithin⟩).Evals (.ok s) ∧
      s.data = (pieces.flatten.drop pos).take segmentSize ∧
      AtPosition pieces s.curPiece s.offsetWithin (pos + s.data.length) := by
  refine Prog.exists_evals_loop (fun s => 2 * (pieces.length - s.curPiece) +
    if s.segmentReadSoFar < s.data.length then 1 else 0) (fun s hI => ?_) (ReadInv.start segmentSize h)
  by_cases hlt : s.segmentReadSoFar < s.data.length
  · obtain ⟨s', hbody, hI', -, hnext⟩ := hI.readPiece hfiles hsizes hlt (hread s hI hlt)
    refine .inl ⟨s', hbody, hI', ?_⟩
    rw [if_pos hlt]
    rcases hnext with ⟨hcur, hfull⟩ | ⟨hcur, hpieces⟩
    · rw [hcur, if_neg (by omega)]
      omega
    · split <;> omega
  · refine .inr ⟨s, ?_, ?_, ?_⟩
    · rw [readPiece, if_neg hlt]
      exact Prog.evals_pure _
    · have hfull : s.data.length = s.segmentReadSoFar := by
        have := hI.le
        omega
      have hdata := hI.data
      rw [← hfull, List.take_length] at hdata
      rcases hI.length with hlen | ⟨-, hle, hend⟩
      · rwa [hlen] at hdata
      · rw [hdata, List.take_of_length_le (by rw [List.length_drop]; omega),
          List.take_of_length_le (by rw [List.length_drop]; omega)]
    · have := hI.atPosition
      rwa [show s.segmentReadSoFar = s.data.length by have := hI.le; omega] at this

/-- Files that hold the pieces have the parts that are read. -/
theorem ScatteredFiles.Hold.readsPart {sys : Sys} (hs : sys.Reads) {fs : Files}
    {files : ScatteredFiles} {pieces : List Bytes} (hfiles : files.Hold fs pieces)
    {segmentSize pos : Nat} {s : SegmentState} (h : ReadInv pieces segmentSize pos s)
    (hlt : s.segmentReadSoFar < s.data.length) :
    ReadsPart sys fs files pieces segmentSize s := by
  intro path piece hpath hpiece
  have hcontents : fs.contents path = some piece := by rw [hfiles.contents _ path hpath, hpiece]
  refine ⟨by rw [hcontents]; rfl, fun n hn => ?_⟩
  have hsize : s.data.length = segmentSize := h.length.resolve_right fun h => by omega
  have hoff := h.atPosition.offset_le hpiece
  exact readChunk_spec hs hcontents s.data s.segmentReadSoFar s.offsetWithin n (by omega)
    (by omega)

/-! ## A pump -/

/-- The loop over the segments, from the position of the first one. -/
theorem readSegments_spec {sys : Sys} (hs : sys.Reads) {fs : Files} {files : ScatteredFiles}
    {pieces : List Bytes} (hfiles : files.Hold fs pieces) {segmentSize : Nat} (f left : Nat)
    {curPiece offsetWithin : Nat}
    (h : left ≠ 0 → AtPosition pieces curPiece offsetWithin (f * segmentSize))
    (hend : ∀ k, f < k → k < f + left → k * segmentSize < pieces.flatten.length) :
    (readSegments sys fs segmentSize files f left curPiece offsetWithin).Evals
      (.ok ((List.range' f left).map fun k => (k, slice segmentSize k pieces.flatten))) := by
  induction left generalizing f curPiece offsetWithin with
  | zero => exact Prog.evals_pure _
  | succ left ih =>
    obtain ⟨s, hseg, hdata, hpos⟩ := readSegment_spec hfiles.length hfiles.sizes segmentSize
      (h (Nat.succ_ne_zero _)) fun s hI hlt => hfiles.readsPart hs hI hlt
    have hnext : left ≠ 0 → AtPosition pieces s.curPiece s.offsetWithin ((f + 1) * segmentSize) := by
      intro hleft
      have := hend (f + 1) (by omega) (by omega)
      rw [Nat.succ_mul] at this ⊢
      rwa [hdata, List.length_take, List.length_drop, Nat.min_eq_left (by omega)] at hpos
    have hrest := ih (f + 1) hnext fun k h₁ h₂ => hend k (by omega) (by omega)
    rw [List.range'_succ, List.map_cons]
    refine hseg.bind (hrest.bind ?_)
    rw [hdata]
    exact Prog.evals_pure _

/-- A pump schedules the upload of its slices of the pieces put together. -/
theorem filePump_spec {sys : Sys} (hs : sys.Reads) {fs : Files} {files : ScatteredFiles}
    {pieces : List Bytes} (hfiles : files.Hold fs pieces) (hne : pieces ≠ []) {segmentSize : Nat}
    (cur num : Nat) (hfirst : cur = 0 ∨ cur * segmentSize < pieces.flatten.length)
    (hend : ∀ k, cur < k → k < cur + num → k * segmentSize < pieces.flatten.length) :
    (filePump sys fs segmentSize files cur num).Evals
      (.ok ((List.range' cur num).map fun k => (k, slice segmentSize k pieces.flatten))) := by
  rw [filePump]
  refine readSegments_spec hs hfiles cur num (fun _ => ?_) hend
  rw [Nat.mul_comm, hfiles.sizes]
  by_cases hlt : cur * segmentSize < pieces.flatten.length
  · exact skipTo_spec [] pieces (Nat.zero_le _) hlt
  · obtain rfl := hfirst.resolve_right hlt
    rw [Nat.zero_mul] at hlt ⊢
    exact skipTo_of_length_le hne (Nat.le_of_not_lt hlt)

/-- The parts that a pump may be given: segments of what the pieces hold, or the one part of pieces
that are empty. -/
def PumpRange (segmentSize : Nat) (pieces : List Bytes) (cur num : Nat) : Prop :=
  cur + num ≤ sliceCount segmentSize pieces.flatten.length ∨
    pieces ≠ [] ∧ pieces.flatten = [] ∧ cur = 0 ∧ num = 1

/-- A pump hands over the slices of the pieces that it was given, however short the reads are. -/
theorem pump_reads_slices {sys : Sys} (hs : sys.Reads) {fs : Files} {files : ScatteredFiles}
    {pieces : List Bytes} (hfiles : files.Hold fs pieces) {segmentSize : Nat} (h : 0 < segmentSize)
    {cur num : Nat} (hrange : PumpRange segmentSize pieces cur num) :
    (filePump sys fs segmentSize files cur num).Evals (.ok ((List.range' cur num).map fun k =>
      (k, (pieces.flatten.drop (k * segmentSize)).take
        (min ((k + 1) * segmentSize) pieces.flatten.length - k * segmentSize)))) := by
  -- a slice ends where the pieces end
  have hslice : ∀ k, (pieces.flatten.drop (k * segmentSize)).take
      (min ((k + 1) * segmentSize) pieces.flatten.length - k * segmentSize) =
        slice segmentSize k pieces.flatten := by
    intro k
    rw [slice, Nat.succ_mul, List.take_eq_take_iff, List.length_drop]
    omega
  simp only [hslice]
  rcases hrange with hle | ⟨hne, hempty, rfl, rfl⟩
  · cases num with
    | zero => exact Prog.evals_pure _
    | succ num =>
      have hlt : ∀ k < cur + (num + 1), k * segmentSize < pieces.flatten.length := fun k hk =>
        (lt_sliceCount_iff h).1 (hk.trans_le hle)
      have hne : pieces ≠ [] := by
        rintro rfl
        exact Nat.not_lt_zero _ (hlt cur (by omega))
      exact filePump_spec hs hfiles hne cur (num + 1) (.inr (hlt cur (by omega)))
        fun k _ hk => hlt k hk
  · exact filePump_spec hs hfiles hne 0 1 (.inl rfl) fun k hk hk' => by omega

/-- A system that reads one byte at a time. -/
def oneByteSys : Sys := ⟨fun _ _ _ => 1, fun _ _ size => size, 0⟩

/-- `pump_reads_slices` for the second and third of the segments of a file of five bytes. -/
theorem pump_reads_slices_five :
    (filePump oneByteSys (onlyFile "/f".toList [1, 2, 3, 4, 5]) 2 ⟨["/f".toList], [5]⟩ 1 2).Evals
      (.ok [(1, [3, 4]), (2, [5])]) := by
  refine @pump_reads_slices oneByteSys (fun _ _ _ _ => Nat.one_pos) _ _ [[1, 2, 3, 4, 5]]
    ⟨rfl, rfl, fun i path hi => ?_⟩ 2 (by decide) 1 2 (.inl (by decide))
  obtain ⟨rfl, rfl⟩ := eq_of_getElem?_singleton hi
  exact contents_onlyFile ..

end ExtremeS3
