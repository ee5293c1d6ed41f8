import ExtremeS3.Uploader.Pump

/-!
# A pump on files that were cut short

The sizes of the pieces are taken before a `file_pump` reads them. Where a file has become shorter
than its recorded size, `read` returns nothing, which only an assertion looks at, and the loop over
the piece makes no progress (`readChunk_diverges`). Up to there the pump reads the pieces as they
were recorded (`recordedPieces`), so that it ends just when its part of every piece is in the file
(`pump_ends_iff`).
-/

namespace ExtremeS3

/-- The byte at a position of the recorded pieces is in its file. -/
def HasByte (fs : Files) : List (Str × Nat) → Nat → Prop
  | [], _ => False
  | (path, size) :: pieces, p =>
    if p < size then ∃ data, fs.contents path = some data ∧ p < data.length
    else HasByte fs pieces (p - size)

/-- The files are there, each with a size that was recorded for it. -/
structure ScatteredFiles.Recorded (files : ScatteredFiles) (fs : Files) : Prop where
  length : files.files.length = files.sizes.length
  found : ∀ path ∈ files.files, (fs.contents path).isSome

/-- Where a pump begins to read: at its first segment, or at the front where there is no such
segment. -/
def pumpStart (segmentSize curSegment : Nat) (sizes : List Nat) : Nat :=
  if segmentSize * curSegment < sizes.sum then segmentSize * curSegment else 0

/-- The pieces with the sizes that were recorded, as far as the files go. -/
def recordedPieces (fs : Files) (files : ScatteredFiles) : List Bytes :=
  (files.files.zip files.sizes).map fun p => resize ((fs.contents p.1).getD []) p.2

section

variable {sys : Sys} {fs : Files} {files : ScatteredFiles}

/-- A buffer is resized to its size. -/
theorem length_resize (data : Bytes) (size : Nat) : (resize data size).length = size := by
  rw [resize, List.length_append, List.length_take, List.length_replicate]
  omega

/-- There is one piece for each file that is recorded. -/
theorem ScatteredFiles.Recorded.length_pieces (h : files.Recorded fs) :
    files.files.length = (recordedPieces fs files).length := by
  rw [recordedPieces, List.length_map, List.length_zip, ← h.length, Nat.min_self]

/-- The recorded sizes are those of the pieces. -/
theorem ScatteredFiles.Recorded.sizes_eq (h : files.Recorded fs) :
    files.sizes = (recordedPieces fs files).map List.length := by
  rw [recordedPieces, List.map_map]
  simp only [Function.comp_def, length_resize]
  exact (List.map_snd_zip (Nat.le_of_eq h.length.symm)).symm

/-- The pieces are together as long as their sizes say. -/
theorem ScatteredFiles.Recorded.length_flatten (h : files.Recorded fs) :
    (recordedPieces fs files).flatten.length = files.sizes.sum := by
  rw [List.length_flatten, ← h.sizes_eq]

/-- A byte of a piece is in its file when the file is long enough. -/
theorem hasByte_append {before after : List (Str × Nat)} {path : Str} {size off : Nat}
    (hoff : off < size) :
    HasByte fs (before ++ (path, size) :: after) ((before.map Prod.snd).sum + off) ↔
      ∃ data, fs.contents path = some data ∧ off < data.length := by
  induction before with
  | nil => rw [List.nil_append, HasByte, List.map_nil, List.sum_nil, Nat.zero_add, if_pos hoff]
  | cons p before ih =>
    obtain ⟨path', size'⟩ := p
    rw [List.cons_append, HasByte, List.map_cons, List.sum_cons, if_neg (by omega)]
    rwa [show size' + (before.map Prod.snd).sum + off - size' =
      (before.map Prod.snd).sum + off by omega]

/-- The file of the current piece, and how the bytes of the piece stand in it. -/
theorem ScatteredFiles.Recorded.current (h : files.Recorded fs) {cur off pos : Nat}
    (hat : AtPosition (recordedPieces fs files) cur off pos) :
    ∃ path data size, files.files[cur]? = some path ∧ files.sizes[cur]? = some size ∧
      fs.contents path = some data ∧
      (recordedPieces fs files)[cur]? = some (resize data size) ∧ off ≤ size ∧
      ∀ i, off + i < size → (HasByte fs (files.files.zip files.sizes) (pos + i) ↔
        off + i < data.length) := by
  obtain ⟨before, piece, after, hpieces, rfl, hoff, rfl⟩ := hat
  obtain ⟨es, rest, hes, rfl, hrest⟩ := List.map_eq_append_iff.1 hpieces
  obtain ⟨⟨path, size⟩, es', rfl, rfl, rfl⟩ := List.map_eq_cons_iff.1 hrest
  have hfiles : files.files = es.map Prod.fst ++ path :: es'.map Prod.fst := by
    have := List.map_fst_zip (Nat.le_of_eq h.length)
    rw [hes, List.map_append, List.map_cons] at this
    exact this.symm
  have hsizes : files.sizes = es.map Prod.snd ++ size :: es'.map Prod.snd := by
    have := List.map_snd_zip (Nat.le_of_eq h.length.symm)
    rw [hes, List.map_append, List.map_cons] at this
    exact this.symm
  obtain ⟨data, hdata⟩ := Option.isSome_iff_exists.1 (h.found path (by rw [hfiles]; simp))
  rw [length_resize] at hoff
  refine ⟨path, data, size, ?_, ?_, hdata, ?_, hoff, fun i hi => ?_⟩
  · rw [hfiles, List.length_map, List.getElem?_append_right (by simp)]
    simp
  · rw [hsizes, List.length_map, List.getElem?_append_right (by simp)]
    simp
  · rw [hpieces, List.getElem?_append_right (Nat.le_refl _), Nat.sub_self, hdata]
    rfl
  · have hlen : ((es.map fun p => resize ((fs.contents p.1).getD []) p.2).flatten).length =
        (es.map Prod.snd).sum := by
      rw [List.length_flatten, List.map_map]
      simp only [Function.comp_def, length_resize]
    rw [hes, hlen, Nat.add_assoc, hasByte_append hi, hdata]
    simp only [Option.some.injEq, exists_eq_left']

/-! ## A piece -/

/-- The loop that reads from a piece goes on forever behind the end of the file. -/
theorem readChunk_diverges {path : Str} {data : Bytes} (hpath : fs.contents path = some data)
    {buf : Bytes} {read offset remaining : Nat} (hpos : 0 < remaining)
    (hshort : data.length < offset + remaining) (hbuf : read + remaining ≤ buf.length) :
    (Prog.loop (readChunk sys fs path) ⟨buf, read, offset, remaining⟩).Diverges := by
  refine Prog.loop_diverges (I := fun s => 0 < s.remainingSize ∧
    data.length < s.offsetWithin + s.remainingSize ∧
    s.segmentReadSoFar + s.remainingSize ≤ s.data.length) (fun s hs => .inr ?_)
    ⟨hpos, hshort, hbuf⟩
  obtain ⟨buf, read, offset, remaining⟩ := s
  obtain ⟨hpos, hshort, hbuf⟩ := hs
  dsimp only at hpos hshort hbuf
  have hread := sys.evals_read_of_contents hpath offset (min remaining (65536 * 8))
  set got := (data.drop offset).take (min (min remaining (65536 * 8))
    (sys.readCount path offset (min remaining (65536 * 8)))) with hgot
  -- what is left of the file is less than what is left to read
  have hlen : got.length ≤ remaining ∧ got.length ≤ data.length - offset := by
    rw [hgot, List.length_take, List.length_drop]
    omega
  refine ⟨⟨overwrite buf read got, read + got.length, offset + got.length,
    remaining - got.length⟩, ?_, ?_⟩
  · rw [readChunk, if_pos hpos]
    refine hread.bind ((Prog.evals_ensure (decide_eq_true ?_) _).bind (Prog.evals_pure _))
    dsimp only
    omega
  · dsimp only
    rw [length_overwrite (by omega)]
    omega

/-! ## A segment -/

variable {segmentSize pos : Nat} {s : SegmentState}

/-- The part of the current piece that is read next is in the file, or the reading does not end. -/
theorem ReadInv.reads_or_diverges (hs : sys.Reads) (h : files.Recorded fs)
    (hI : ReadInv (recordedPieces fs files) segmentSize pos s)
    (hlt : s.segmentReadSoFar < s.data.length) :
    ReadsPart sys fs files (recordedPieces fs files) segmentSize s ∧
        (∀ piece, (recordedPieces fs files)[s.curPiece]? = some piece →
          ∀ i < min (segmentSize - s.segmentReadSoFar) (piece.length - s.offsetWithin),
            HasByte fs (files.files.zip files.sizes) (pos + s.segmentReadSoFar + i)) ∨
      (ExtremeS3.readPiece sys fs segmentSize files s).Diverges ∧
        ∃ p, pos + s.segmentReadSoFar ≤ p ∧ p < pos + segmentSize ∧ p < files.sizes.sum ∧
          ¬ HasByte fs (files.files.zip files.sizes) p := by
  obtain ⟨path, data, size, hpath, hsize, hdata, hpiece, hoff, hbyte⟩ := h.current hI.atPosition
  have hlen : s.data.length = segmentSize := hI.length.resolve_right fun h => by omega
  have hsum : pos + s.segmentReadSoFar + (size - s.offsetWithin) ≤ files.sizes.sum := by
    have := hI.atPosition.add_le hpiece
    rwa [length_resize, h.length_flatten] at this
  set n := min (segmentSize - s.segmentReadSoFar) (size - s.offsetWithin) with hn
  by_cases hthere : n = 0 ∨ s.offsetWithin + n ≤ data.length
  · refine .inl ⟨fun path' piece hpath' hpiece' => ?_, fun piece hpiece' i hi => ?_⟩
    · cases hpath.symm.trans hpath'
      cases hpiece.symm.trans hpiece'
      refine ⟨by rw [hdata]; rfl, fun m hm => ?_⟩
      rw [length_resize, ← hn] at hm
      subst hm
      rcases hthere with h0 | hle
      · rw [h0, List.take_zero, overwrite_nil hI.le]
        exact Prog.Loops.evals (.done (Prog.evals_pure _))
      · have hpart : ((resize data size).drop s.offsetWithin).take n =
            (data.drop s.offsetWithin).take n := by
          rw [resize, List.drop_append_of_le_length (by rw [List.length_take]; omega),
            List.take_append_of_le_length (by rw [List.length_drop, List.length_take]; omega),
            List.drop_take, List.take_take, Nat.min_eq_left (by omega)]
        rw [hpart]
        exact readChunk_spec hs hdata s.data s.segmentReadSoFar s.offsetWithin n hle (by omega)
    · cases hpiece.symm.trans hpiece'
      rw [length_resize, ← hn] at hi
      exact (hbyte i (by omega)).2 (by omega)
  · obtain ⟨hpos, hshort⟩ := not_or.1 hthere
    refine .inr ⟨?_, pos + s.segmentReadSoFar + (n - 1), by omega, by omega, by omega, ?_⟩
    · rw [ExtremeS3.readPiece, if_pos hlt]
      refine (Prog.evals_ofOption hpath _).bind_diverges ?_
      refine (Prog.evals_ensure (by rw [hdata]; rfl) _).bind_diverges ?_
      refine (Prog.evals_ofOption hsize _).bind_diverges (Prog.Diverges.bind ?_ _)
      exact readChunk_diverges hdata (by omega) (by omega) (by omega)
    · rw [hbyte (n - 1) (by omega)]
      omega

/-- A segment that is in the files is read. -/
theorem readSegment_ends (segmentSize : Nat) (hs : sys.Reads) (h : files.Recorded fs)
    {cur off : Nat} (hat : AtPosition (recordedPieces fs files) cur off pos)
    (hall : ∀ p, pos ≤ p → p < pos + segmentSize → p < files.sizes.sum →
      HasByte fs (files.files.zip files.sizes) p) :
    ∃ t, (Prog.loop (readPiece sys fs segmentSize files)
        ⟨resize [] segmentSize, 0, cur, off⟩).Evals (.ok t) ∧
      t.data.length = min segmentSize (files.sizes.sum - pos) ∧
      AtPosition (recordedPieces fs files) t.curPiece t.offsetWithin (pos + t.data.length) := by
  obtain ⟨t, hloop, hdata, hat'⟩ := @readSegment_spec sys fs _ _ h.length_pieces h.sizes_eq
    segmentSize _ _ _ hat fun s hI hlt => by
      rcases hI.reads_or_diverges hs h hlt with ⟨hreads, -⟩ | ⟨-, p, hp, hseg, hsum, hno⟩
      · exact hreads
      · exact absurd (hall p (by omega) hseg hsum) hno
  refine ⟨t, hloop, ?_, hat'⟩
  rw [hdata, List.length_take, List.length_drop, h.length_flatten]

/-- A segment that is not in the files is read forever. -/
theorem readSegment_diverges (hs : sys.Reads) (h : files.Recorded fs) {cur off p : Nat}
    (hat : AtPosition (recordedPieces fs files) cur off pos) (hp : pos ≤ p)
    (hseg : p < pos + segmentSize) (hsum : p < files.sizes.sum)
    (hno : ¬ HasByte fs (files.files.zip files.sizes) p) :
    (Prog.loop (readPiece sys fs segmentSize files)
      ⟨resize [] segmentSize, 0, cur, off⟩).Diverges := by
  refine Prog.loop_diverges (I := fun s => ReadInv (recordedPieces fs files) segmentSize pos s ∧
    pos + s.segmentReadSoFar ≤ p) (fun s hs' => ?_) ⟨ReadInv.start segmentSize hat, hp⟩
  obtain ⟨hI, hle⟩ := hs'
  have hlt : s.segmentReadSoFar < s.data.length := by
    rcases hI.length with hlen | ⟨-, -, hend⟩
    · omega
    · rw [h.length_flatten] at hend
      omega
  rcases hI.reads_or_diverges hs h hlt with ⟨hreads, hbytes⟩ | ⟨hdiverges, -⟩
  · obtain ⟨t, hbody, hI', hread, -⟩ := hI.readPiece h.length_pieces h.sizes_eq hlt hreads
    refine .inr ⟨t, hbody, hI', ?_⟩
    obtain ⟨path, data, size, -, -, -, hpiece, -, -⟩ := h.current hI.atPosition
    rw [hread _ hpiece]
    -- what is missing is not what was read
    by_contra hpast
    refine hno ?_
    have := hbytes _ hpiece (p - (pos + s.segmentReadSoFar)) (by omega)
    rwa [Nat.add_sub_cancel' hle] at this
  · exact .inl hdiverges

/-! ## A pump -/

/-- Segments that are in the files are read. -/
theorem readSegments_ends (hs : sys.Reads) (h : files.Recorded fs) {f left cur off : Nat}
    (hat : AtPosition (recordedPieces fs files) cur off pos)
    (hall : ∀ p, pos ≤ p → p < pos + left * segmentSize → p < files.sizes.sum →
      HasByte fs (files.files.zip files.sizes) p) :
    ∃ segments, (readSegments sys fs segmentSize files f left cur off).Evals (.ok segments) := by
  induction left generalizing f cur off pos with
  | zero => exact ⟨[], Prog.evals_pure _⟩
  | succ left ih =>
    rw [Nat.succ_mul] at hall
    obtain ⟨t, hloop, hlen, hat'⟩ := readSegment_ends segmentSize hs h hat
      fun p hp hseg hsum => hall p hp (by omega) hsum
    obtain ⟨segments, hrest⟩ := ih (f := f + 1) hat' fun p hp hseg hsum =>
      hall p (by omega) (by omega) hsum
    exact ⟨_, hloop.bind (hrest.bind (Prog.evals_pure _))⟩

/-- Segments that are not all in the files are read forever. -/
theorem readSegments_diverges (hs : sys.Reads) (h : files.Recorded fs) {f left cur off p : Nat}
    (hat : AtPosition (recordedPieces fs files) cur off pos) (hp : pos ≤ p)
    (hseg : p < pos + left * segmentSize) (hsum : p < files.sizes.sum)
    (hno : ¬ HasByte fs (files.files.zip files.sizes) p) :
    (readSegments sys fs segmentSize files f left cur off).Diverges := by
  induction left generalizing f cur off pos with
  | zero => omega
  | succ left ih =>
    rw [Nat.succ_mul] at hseg
    by_cases hfirst : ∃ q, pos ≤ q ∧ q < pos + segmentSize ∧ q < files.sizes.sum ∧
        ¬ HasByte fs (files.files.zip files.sizes) q
    · obtain ⟨q, hq, hqseg, hqsum, hqno⟩ := hfirst
      exact (readSegment_diverges hs h hat hq hqseg hqsum hqno).bind _
    · obtain ⟨t, hloop, hlen, hat'⟩ := readSegment_ends segmentSize hs h hat
        fun q hq hqseg hqsum => not_not.1 fun hqno => hfirst ⟨q, hq, hqseg, hqsum, hqno⟩
      have hbehind : pos + segmentSize ≤ p :=
        Nat.le_of_not_lt fun hlt => hfirst ⟨p, hp, hlt, hsum, hno⟩
      exact hloop.bind_diverges ((ih (f := f + 1) hat' (by omega) (by omega)).bind _)

/-- Without pieces a pump throws, or has nothing to read. -/
theorem readSegments_no_pieces (segmentSize f left : Nat) :
    ∃ r, (readSegments sys fs segmentSize ⟨[], []⟩ f left 0 0).Evals r := by
  induction left generalizing f with
  | zero => exact ⟨_, Prog.evals_pure _⟩
  | succ left ih =>
    by_cases hsize : 0 < segmentSize
    · have hbody : (readPiece sys fs segmentSize ⟨[], []⟩
          ⟨resize [] segmentSize, 0, 0, 0⟩).Evals (.error .outOfRange) := by
        rw [readPiece, if_pos (by rw [length_resize]; exact hsize)]
        exact (Prog.evals_throw _).bind_error
      exact ⟨_, (Prog.Loops.evals (.throws hbody)).bind_error⟩
    · obtain rfl : segmentSize = 0 := by omega
      obtain ⟨r, hr⟩ := ih (f + 1)
      have hbody : (Prog.loop (readPiece sys fs 0 ⟨[], []⟩) ⟨resize [] 0, 0, 0, 0⟩).Evals
          (.ok ⟨resize [] 0, 0, 0, 0⟩) := Prog.Loops.evals (.done (Prog.evals_pure _))
      cases r with
      | error e => exact ⟨_, hbody.bind hr.bind_error⟩
      | ok segments => exact ⟨_, hbody.bind (hr.bind (Prog.evals_pure _))⟩

/-- A pump ends just when every byte of the recorded pieces that it has to read is in its file. -/
theorem pump_ends_iff (hs : sys.Reads) (h : files.Recorded fs) (segmentSize cur num : Nat) :
    (∃ r, (filePump sys fs segmentSize files cur num).Evals r) ↔
      ∀ p, pumpStart segmentSize cur files.sizes ≤ p →
        p < pumpStart segmentSize cur files.sizes + num * segmentSize → p < files.sizes.sum →
        HasByte fs (files.files.zip files.sizes) p := by
  unfold filePump
  by_cases hne : recordedPieces fs files = []
  · have hfiles : files.files = [] := by
      rw [← List.length_eq_zero_iff, h.length_pieces, hne]
      rfl
    have hsizes : files.sizes = [] := by rw [h.sizes_eq, hne]; rfl
    obtain ⟨names, sizes⟩ := files
    cases hfiles
    cases hsizes
    exact iff_of_true (readSegments_no_pieces segmentSize cur num)
      fun p _ _ hsum => absurd hsum (Nat.not_lt_zero _)
  · have hat : AtPosition (recordedPieces fs files) (skipTo (segmentSize * cur) 0 0 files.sizes).1
        (skipTo (segmentSize * cur) 0 0 files.sizes).2 (pumpStart segmentSize cur files.sizes) := by
      rw [pumpStart, ← h.length_flatten]
      split
      · next hlt =>
        rw [h.sizes_eq]
        exact skipTo_spec [] _ (Nat.zero_le _) hlt
      · next hge =>
        rw [h.sizes_eq]
        exact skipTo_of_length_le hne (Nat.le_of_not_lt hge)
    constructor
    · rintro ⟨r, hr⟩ p hp hseg hsum
      by_contra hno
      exact (readSegments_diverges hs h hat hp hseg hsum hno).not_evals r hr
    · intro hall
      obtain ⟨segments, hsegments⟩ := readSegments_ends hs h hat hall
      exact ⟨_, hsegments⟩

end

/-- The one file of a disk is recorded, whatever its size is said to be. -/
theorem recorded_onlyFile (path : Str) (data : Bytes) (size : Nat) :
    ScatteredFiles.Recorded ⟨[path], [size]⟩ (onlyFile path data) := by
  refine ⟨rfl, fun path' hpath' => ?_⟩
  rw [List.mem_singleton.1 hpath', contents_onlyFile]
  rfl

/-- `pump_ends_iff` for a file that is longer than its recorded size. -/
theorem pump_ends_iff_longer : ∃ r, (filePump oneByteSys (onlyFile "/f".toList [1, 2, 3]) 2
    ⟨["/f".toList], [2]⟩ 0 1).Evals r := by
  refine (pump_ends_iff (fun _ _ _ _ => Nat.one_pos) (recorded_onlyFile _ _ 2) 2 0 1).2 ?_
  intro p _ _ hsum
  have hsum : p < 2 := hsum
  show HasByte (onlyFile "/f".toList [1, 2, 3]) [("/f".toList, 2)] p
  rw [HasByte, if_pos hsum]
  exact ⟨[1, 2, 3], rfl, hsum.trans (by decide)⟩

/-- A pump on a file of three bytes that had five of them does not end. -/
theorem pump_goes_on : ¬ ∀ (sys : Sys) (fs : Files) (files : ScatteredFiles)
    (segmentSize cur num : Nat), sys.Reads → files.Recorded fs → 0 < segmentSize →
      cur + num ≤ partCount segmentSize files.sizes.sum →
      ∃ r, (filePump sys fs segmentSize files cur num).Evals r := by
  intro hall
  obtain ⟨r, hr⟩ := hall oneByteSys (onlyFile "/f".toList [1, 2, 3]) ⟨["/f".toList], [5]⟩ 2 0 3
    (fun _ _ _ _ => Nat.one_pos) (recorded_onlyFile _ _ 5) (by decide) (by decide)
  have hat : AtPosition (recordedPieces (onlyFile "/f".toList [1, 2, 3]) ⟨["/f".toList], [5]⟩)
      0 0 0 := ⟨[], [1, 2, 3, 0, 0], [], rfl, rfl, Nat.zero_le _, rfl⟩
  have hno : ¬ HasByte (onlyFile "/f".toList [1, 2, 3]) [("/f".toList, 5)] 3 := by
    rw [HasByte, if_pos (by decide)]
    rintro ⟨data, hdata, hlt⟩
    obtain rfl : [1, 2, 3] = data := Option.some.inj hdata
    exact absurd hlt (by decide)
  exact (readSegments_diverges (fun _ _ _ _ => Nat.one_pos) (recorded_onlyFile _ _ 5) hat
    (Nat.zero_le 3) (by decide) (by decide) hno).not_evals r hr

end ExtremeS3
