import ExtremeS3.Connection.Headers
import ExtremeS3.Files
import ExtremeS3.Sync.Paths

/-!
# What the tasks of a download share

`file_downloader` cuts an object into segments of one size and creates a temporary file of the size
of the object. Every `write_segment_task` writes its segment into that file, chunk by chunk
(`doWrite_spec`), and counts it in the `download_content`; the one that counts the last segment
finishes the download. The `download_content` removes the temporary file when it is destroyed,
unless the file was handed to a `file_decompressor`.
-/

namespace ExtremeS3

/-- `MAX_SEGMENTS`. -/
def maxSegments : Nat := 9999

/-- The number of segments of an object in `file_downloader::operator()`. -/
def segmentNumber (segmentSize remoteSize : Nat) : Prog TransferError Nat := do
  .ensure (segmentSize ≠ 0) .divisionByZero
  let segNum := sliceCount segmentSize remoteSize
  .ensure (segNum ≤ maxSegments) .tooManySegments
  pure (if segNum = 0 then 1 else segNum)

/-- `download_content`, without the size of the file that nothing reads. -/
structure DownloadContent where
  mtime : Int64
  mode : Nat
  numSegments : Nat
  segmentsRead : Nat
  remoteSize : Nat
  localFile : Str
  targetFile : Str
  deleteTempFile : Bool
  compressed : Bool
  deriving DecidableEq, Repr

/-- The content that `file_downloader::operator()` makes of what it learned of the object. -/
def FileDesc.content (mod : FileDesc) (numSegments : Nat) (localFile targetFile : Str) :
    DownloadContent where
  mtime := mod.mtime
  mode := mod.mode
  numSegments := numSegments
  segmentsRead := 0
  remoteSize := mod.remoteSize
  localFile := localFile
  targetFile := targetFile
  deleteTempFile := true
  compressed := mod.compressed

/-- The name of the temporary file, with the random part of it. -/
def temporaryName (scratchDir path : Str) (compressed : Bool) (random : Str) : Str :=
  if compressed then appendPath scratchDir ("scratchy-".toList ++ random ++ "-dl".toList)
  else path ++ '-' :: random ++ "-es3tmp".toList

/-- What `fallocate64` makes of a file. -/
def FileData.allocate (size : Nat) (f : FileData) : FileData :=
  { f with data := f.data ++ List.replicate (size - f.data.length) 0 }

namespace DownloadContent

variable (content : DownloadContent)

/-- The size of a segment in `download_segment_task::operator()`. -/
def size (segmentSize curSegment : Nat) : Nat :=
  let startOffset := segmentSize * curSegment
  let size := content.remoteSize - startOffset
  if segmentSize < size then segmentSize else size

/-- A segment is counted. -/
def count : DownloadContent := { content with segmentsRead := content.segmentsRead + 1 }

/-- All segments are counted. -/
def Full : Prop := content.segmentsRead = content.numSegments

instance : Decidable content.Full := inferInstanceAs (Decidable (_ = _))

/-- `~download_content`. -/
def destroy (fs : Files) : Files :=
  if content.localFile ≠ content.targetFile ∧ content.deleteTempFile then
    fs.unlink content.localFile
  else fs

/-- The end of a download that needs no decompression. -/
def replaceTarget (fs : Files) : Prog TransferError Files := do
  let fs ← fs.update content.localFile fun f => { f with mtime := content.mtime }
  let fs ← fs.update content.localFile fun f => { f with mode := content.mode }
  fs.rename content.localFile content.targetFile

end DownloadContent

/-- The body of the loop of `do_write`: the files, and how much of the segment is written. -/
def writeChunk (sys : Sys) (path : Str) (startOffset : Nat) (data : Bytes) (s : Files × Nat) :
    Prog TransferError ((Files × Nat) ⊕ Files) :=
  if s.2 < data.length then do
    let chunk := min (data.length - s.2) (1024 * 1024)
    let bytes := sys.written path (startOffset + s.2) ((data.drop s.2).take chunk)
    let fs ← s.1.update path fun f =>
      { f with data := overwrite f.data (startOffset + s.2) bytes, mtime := sys.now }
    pure (.inl (fs, s.2 + bytes.length))
  else pure (.inr s.1)

/-- `write_segment_task::do_write`. -/
def doWrite (sys : Sys) (fs : Files) (path : Str) (startOffset : Nat) (data : Bytes) :
    Prog TransferError Files := do
  .ensure (fs.contents path).isSome (.system path)
  .loop (writeChunk sys path startOffset data) (fs, 0)

/-- The number of segments of an object that does not have too many. -/
theorem segmentNumber_spec {segmentSize remoteSize : Nat} (h : 0 < segmentSize)
    (hsize : remoteSize ≤ maxSegments * segmentSize) :
    (segmentNumber segmentSize remoteSize).Evals (.ok (partCount segmentSize remoteSize)) :=
  (Prog.evals_ensure (decide_eq_true (by omega)) _).bind <|
    (Prog.evals_ensure (decide_eq_true ((sliceCount_le_iff h).2 hsize)) _).bind (Prog.evals_pure _)

/-- What a download rejects. -/
theorem segmentNumber_tooManySegments_iff {segmentSize : Nat} (h : 0 < segmentSize)
    (remoteSize : Nat) : (segmentNumber segmentSize remoteSize).Evals (.error .tooManySegments) ↔
      maxSegments * segmentSize < remoteSize := by
  constructor
  · intro he
    by_contra hle
    cases he.unique (segmentNumber_spec h (Nat.le_of_not_lt hle))
  · intro hlt
    have := (sliceCount_le_iff (n := remoteSize) (m := maxSegments) h).not.2 (by omega)
    refine (Prog.evals_ensure (decide_eq_true (by omega)) _).bind (Prog.Evals.bind_error ?_)
    exact Prog.evals_ensure_not (by simpa using this) _

/-- The number of segments is that of the parts, where the code returns one. -/
theorem segmentNumber_eq_ok {segmentSize remoteSize n segNum : Nat}
    (h : segmentNumber segmentSize remoteSize n = some (.ok segNum)) :
    0 < segmentSize ∧ segNum = partCount segmentSize remoteSize := by
  obtain ⟨_, hzero, h⟩ := Prog.bind_eq_ok h
  obtain ⟨_, -, h⟩ := Prog.bind_eq_ok h
  rw [Prog.pure_apply] at h
  cases h
  exact ⟨Nat.pos_of_ne_zero (of_decide_eq_true (Prog.ensure_eq_ok hzero)), rfl⟩

/-- A segment is as long as the segments of the job, or has what is left of the object. -/
theorem DownloadContent.size_eq (content : DownloadContent) (segmentSize k : Nat) :
    content.size segmentSize k = min segmentSize (content.remoteSize - k * segmentSize) := by
  rw [DownloadContent.size, Nat.mul_comm]
  split <;> omega

/-- A chunk that is written is the next part of the segment. -/
theorem writeChunk_eq_ok {sys : Sys} {path : Str} {startOffset offset offset' n : Nat} {data : Bytes}
    {fs fs' : Files}
    (h : writeChunk sys path startOffset data (fs, offset) n = some (.ok (.inl (fs', offset')))) :
    offset < data.length ∧ offset ≤ offset' ∧ offset' ≤ data.length ∧
      ∃ f mtime, fs path = some (.file f) ∧ fs' = fs.set path
        (some (.file ⟨overwrite f.data (startOffset + offset)
          ((data.drop offset).take (offset' - offset)), mtime, f.mode⟩)) := by
  unfold writeChunk at h
  dsimp only at h
  split at h
  · next hlt =>
    obtain ⟨fs₁, hfs, h⟩ := Prog.bind_eq_ok h
    rw [Prog.pure_apply] at h
    cases h
    obtain ⟨f, hf, rfl⟩ := Files.update_eq_ok hfs
    have hlen : (sys.written path (startOffset + offset)
        ((data.drop offset).take (min (data.length - offset) (1024 * 1024)))).length ≤
          data.length - offset := by
      rw [Sys.written, List.length_take, List.length_take, List.length_drop]
      omega
    refine ⟨hlt, Nat.le_add_right .., by omega, f, sys.now, hf, ?_⟩
    have hpre : sys.written path (startOffset + offset)
        ((data.drop offset).take (min (data.length - offset) (1024 * 1024))) <+:
          data.drop offset :=
      (List.take_prefix _ _).trans (List.take_prefix _ _)
    rw [Nat.add_sub_cancel_left, ← List.prefix_iff_eq_take.1 hpre]
  · cases h

/-- A segment that lies within a file is written to its place in the file. -/
theorem doWrite_spec {sys : Sys} (hw : sys.WritesAll) {fs : Files} {path : Str} {f : FileData}
    (h : fs path = some (.file f)) (startOffset : Nat) (data : Bytes)
    (hfits : startOffset + data.length ≤ f.data.length) :
    ∃ mtime, (doWrite sys fs path startOffset data).Evals
      (.ok (fs.set path (some (.file ⟨overwrite f.data startOffset data, mtime, f.mode⟩)))) := by
  have hloop : ∃ fs', (Prog.loop (writeChunk sys path startOffset data) (fs, 0)).Evals (.ok fs') ∧
      ∃ mtime, fs' = fs.set path
        (some (.file ⟨overwrite f.data startOffset data, mtime, f.mode⟩)) := by
    refine Prog.exists_evals_loop (I := fun s => s.2 ≤ data.length ∧ ∃ mtime, s.1 = fs.set path
      (some (.file ⟨overwrite f.data startOffset (data.take s.2), mtime, f.mode⟩)))
      (fun s => data.length - s.2) (fun s hs => ?_) ⟨Nat.zero_le _, f.mtime, ?_⟩
    · obtain ⟨fs', offset⟩ := s
      obtain ⟨hle, mtime, hfs⟩ := hs
      dsimp only at hle hfs
      subst hfs
      by_cases hlt : offset < data.length
      · set chunk := min (data.length - offset) (1024 * 1024) with hchunk
        have hlen : ((data.drop offset).take chunk).length = chunk := by
          rw [List.length_take, List.length_drop]
          omega
        have htaken : (data.take offset).length = offset := by
          rw [List.length_take]
          omega
        have hover : overwrite (overwrite f.data startOffset (data.take offset))
            (startOffset + offset) ((data.drop offset).take chunk) =
              overwrite f.data startOffset (data.take (offset + chunk)) := by
          have := overwrite_overwrite f.data (data.take offset) ((data.drop offset).take chunk)
            startOffset
          rwa [htaken, ← List.take_add] at this
        refine .inl ⟨(fs.set path (some (.file ⟨overwrite f.data startOffset
          (data.take (offset + chunk)), sys.now, f.mode⟩)), offset + chunk), ?_,
          ⟨by dsimp only; omega, sys.now, rfl⟩, by dsimp only; omega⟩
        · rw [writeChunk, if_pos hlt]
          dsimp only
          rw [Sys.written_of_writesAll hw, hlen]
          refine (Files.evals_update (Files.set_self ..) _).bind ?_
          dsimp only
          rw [hover, Files.set_set]
          exact Prog.evals_pure _
      · have : offset = data.length := by omega
        refine .inr ⟨_, by rw [writeChunk, if_neg hlt]; exact Prog.evals_pure _, mtime, ?_⟩
        rw [this, List.take_length]
    · rw [List.take_zero, overwrite_nil (by omega), Files.set_eq_self h]
  obtain ⟨fs', hloop, mtime, rfl⟩ := hloop
  refine ⟨mtime, (Prog.evals_ensure ?_ _).bind hloop⟩
  rw [Files.contents, h]
  rfl

/-- The end of a download leaves all other files alone. -/
theorem DownloadContent.destroy_of_ne (content : DownloadContent) (fs : Files) {q : Str}
    (h : q ≠ content.localFile) : content.destroy fs q = fs q := by
  rw [DownloadContent.destroy]
  split
  · exact Files.unlink_of_ne _ h
  · rfl

/-- The end of a download that was renamed leaves all files alone. -/
theorem DownloadContent.destroy_of_not_deleted {content : DownloadContent}
    (h : content.deleteTempFile = false) (fs : Files) : content.destroy fs = fs := by
  rw [DownloadContent.destroy, if_neg]
  rw [h]
  exact fun hd => Bool.false_ne_true hd.2

/-- The temporary file of a download that ended took the place of the target. -/
theorem DownloadContent.replaceTarget_eq_ok {content : DownloadContent} {fs fs' : Files} {n : Nat}
    (h : content.replaceTarget fs n = some (.ok fs')) :
    ∃ f, fs content.localFile = some (.file f) ∧ fs' =
      (fs.set content.localFile none).set content.targetFile
        (some (.file ⟨f.data, content.mtime, content.mode⟩)) := by
  obtain ⟨fs₁, h₁, h⟩ := Prog.bind_eq_ok h
  obtain ⟨fs₂, h₂, h⟩ := Prog.bind_eq_ok h
  obtain ⟨f, hf, rfl⟩ := Files.update_eq_ok h₁
  obtain ⟨g, hg, rfl⟩ := Files.update_eq_ok h₂
  obtain ⟨d, hd, rfl⟩ := Files.rename_eq_ok h
  rw [Files.set_self] at hg hd
  cases hg
  cases hd
  exact ⟨f, hf, by simp only [Files.set_set]⟩

/-- A temporary file takes the place of the target. -/
theorem DownloadContent.evals_replaceTarget (content : DownloadContent) (fs : Files) {f : FileData}
    (h : fs content.localFile = some (.file f)) (hne : content.targetFile ≠ content.localFile)
    (htarget : fs content.targetFile ≠ some .dir) :
    (content.replaceTarget fs).Evals (.ok ((fs.set content.localFile none).set content.targetFile
      (some (.file ⟨f.data, content.mtime, content.mode⟩)))) := by
  refine (Files.evals_update h _).bind ((Files.evals_update (Files.set_self ..) _).bind ?_)
  simp only [Files.set_set]
  have htarget' : (fs.set content.localFile (some (.file ⟨f.data, content.mtime, content.mode⟩)))
      content.targetFile ≠ some .dir := by rwa [Files.set_of_ne hne]
  have := Files.evals_rename (Files.set_self ..) htarget'
  rwa [Files.set_set] at this

end ExtremeS3
