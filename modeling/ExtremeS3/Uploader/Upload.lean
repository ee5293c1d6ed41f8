import ExtremeS3.Compressor.Compress
import ExtremeS3.Compressor.OnComplete
import ExtremeS3.Connection.Service
import ExtremeS3.Lib.Tasks
import ExtremeS3.Uploader.PartUpload
import ExtremeS3.Uploader.StartUpload

/-!
# The upload of a file

`file_uploader` sends the first request of a multipart upload and starts the upload of the file, or
schedules a `file_compressor` for it, whose `compress_task`s leave one temporary file for each block;
the last of them to complete starts the upload of these files. Pumps read the segments and schedule
a `part_upload_task` for each, and the last of these to run completes the upload.

`UploadJob.StoredAs` says what the object holds in the end: the file itself, or one member for each
block (`UploadJob.StoredAs.inflating`).
-/

namespace ExtremeS3

/-- What an upload is done with: the agenda's limits and segment size, the system, `zlib`, the etag
of each part, and the fields of the `file_uploader`. -/
structure UploadJob where
  lim : AgendaLimits
  segmentSize : Nat
  sys : Sys
  zlib : Zlib
  etag : Bytes → String
  findMime : Str → Str
  scratchDir : Str
  doCompression : Bool
  path : Str
  remote : S3Path

/-- The tasks of an upload. -/
inductive UploadTask where
  | fileUploader
  | fileCompressor
  | compressTask (block : Block)
  | filePump (files : ScatteredFiles) (curSegment numberOfSegments : Nat)
  | partUpload (num : Nat) (data : Bytes)

/-- What the tasks share: the files, the service, and the fields of the `upload_content` and of the
`file_compressor`. -/
structure Uploading where
  fs : Files
  service : Service
  uploadId : String
  content : UploadContent
  compressor : FileCompressor

/-- What answers a task: the code and the lines of the answer to a `HEAD` request, the id of an
upload, and the random part of a name from `unique_path`. -/
structure UploadAnswer where
  code : Nat
  lines : List Str
  uploadId : String
  random : Str

namespace UploadJob

variable (J : UploadJob)

/-- The name of a temporary file of `do_compress`. -/
def scratchName (random : Str) : Str := appendPath J.scratchDir ("scratchy-".toList ++ random)

/-- The file is the one that the object was uploaded from. -/
def unchanged (f : FileData) (mod : FileDesc) : Bool :=
  mod.mtime ≠ 0 && mod.mtime = f.mtime && mod.rawSize = f.data.length

/-- Whether the file is compressed. -/
def compresses (f : FileData) : Bool :=
  shouldCompress (filename J.path) f.data && J.doCompression

/-- `st_mode & 0777`. -/
def permissions (f : FileData) : Nat := f.mode &&& 0o777

/-- The headers of the upload. -/
def headers (f : FileData) : HeaderMap :=
  uploadHeaders (J.compresses f) (J.findMime (extension (filename J.path))) f.mtime f.data.length
    (permissions f)

/-- `file_uploader::start_upload`. -/
def startTasks (s : Uploading) (files : ScatteredFiles) :
    Prog TransferError (Uploading × List UploadTask) := do
  let (numParts, pumps) ← startUpload J.lim J.segmentSize files
  let etags := s.content.etags.take numParts ++
    List.replicate (numParts - s.content.etags.length) ""
  pure ({ s with content := ⟨numParts, s.content.numCompleted, etags⟩ },
    pumps.map fun p => .filePump files p.1 p.2)

/-- `file_uploader::operator()`. -/
def runFileUploader (s : Uploading) (o : UploadAnswer) :
    Prog TransferError (Uploading × List UploadTask) :=
  match s.fs J.path with
  | some (.file f) =>
    if unchanged f (findMtimeAndSize o.code o.lines) then pure (s, [])
    else
      let s := { s with
        service := s.service.initiateMultipart J.remote (J.headers f) o.uploadId
        uploadId := o.uploadId
        content := ⟨0, 0, []⟩ }
      if J.compresses f then pure (s, [.fileCompressor])
      else J.startTasks s ⟨[J.path], [f.data.length]⟩
  | some .dir | none => .throw (.system J.path)

/-- `file_compressor::operator()`. -/
def runFileCompressor (s : Uploading) : Prog TransferError (Uploading × List UploadTask) := do
  let data ← .ofOption (.system J.path) (s.fs.contents J.path)
  let blocks ← fileCompressor (J.lim.getCapability .cpuBound) data.length
  pure ({ s with compressor := .start blocks.length }, blocks.map .compressTask)

/-- `compress_task::operator()`. -/
def runCompressTask (s : Uploading) (block : Block) (o : UploadAnswer) :
    Prog TransferError (Uploading × List UploadTask) := do
  let tmp := J.scratchName o.random
  let (fs, size) ← doCompress J.zlib J.sys s.fs J.path tmp block.offset block.size
  let compressor ← .ofOption .outOfRange (s.compressor.onComplete block.blockNum tmp size)
  let s' := { s with fs := fs, compressor := compressor }
  -- the callback was called, or it was not
  match compressor.finishes.drop s.compressor.finishes.length with
  | [] => pure (s', [])
  | (files, sizes) :: _ => J.startTasks s' ⟨files, sizes⟩

/-- `file_pump::operator()`. -/
def runFilePump (s : Uploading) (files : ScatteredFiles) (curSegment numberOfSegments : Nat) :
    Prog TransferError (Uploading × List UploadTask) := do
  let segments ← filePump J.sys s.fs J.segmentSize files curSegment numberOfSegments
  pure (s, segments.map fun p => .partUpload p.1 p.2)

/-- `part_upload_task::operator()`. -/
def runPartUpload (s : Uploading) (num : Nat) (data : Bytes) :
    Prog TransferError (Uploading × List UploadTask) := do
  let etag := J.etag data
  let service ← s.service.uploadData J.remote (num + 1) s.uploadId data etag
  .ensure (num < s.content.etags.length) .outOfRange
  let content := s.content.bump num etag
  if content.numCompleted = content.numParts then do
    let service ← service.completeMultipart J.remote s.uploadId content.etags
    pure ({ s with service := service, content := content }, [])
  else pure ({ s with service := service, content := content }, [])

/-- The tasks of an upload. `unique_path` answers with a name that is not taken. -/
def tasks : TaskSystem Uploading UploadTask UploadAnswer TransferError where
  run s t o :=
    match t with
    | .fileUploader => J.runFileUploader s o
    | .fileCompressor => J.runFileCompressor s
    | .compressTask block => J.runCompressTask s block o
    | .filePump files cur num => J.runFilePump s files cur num
    | .partUpload num data => J.runPartUpload s num data
  answers s t o :=
    match t with
    | .fileUploader => s.service.AnswersHead J.remote o.code o.lines
    | .compressTask _ => s.fs (J.scratchName o.random) = none
    | .fileCompressor | .filePump .. | .partUpload .. => True

/-- What `do_compress` compresses a block of the file to. -/
def CompressesTo (data : Bytes) (block : Block) (m : Bytes) : Prop :=
  ∃ fs fs' : Files, ∃ tmp, fs.contents J.path = some data ∧ fs tmp = none ∧
    (doCompress J.zlib J.sys fs J.path tmp block.offset block.size).Evals (.ok (fs', m.length)) ∧
    fs'.contents tmp = some m

/-- What the file is stored as. -/
def StoredAs (f : FileData) (stored : Bytes) : Prop :=
  if J.compresses f then
    ∃ blocks ms, (fileCompressor (J.lim.getCapability .cpuBound) f.data.length).Evals (.ok blocks) ∧
      List.Forall₂ (J.CompressesTo f.data) blocks ms ∧ stored = ms.flatten
  else stored = f.data

/-- What an upload of the file relies on: `zlib`, calls and requests that succeed, and a limit on the
number of parts that suffices. -/
structure Ok (f : FileData) : Prop where
  lawful : J.zlib.Lawful
  reads : J.sys.Reads
  writesAll : J.sys.WritesAll
  segmentSize_pos : 0 < J.segmentSize
  maxInFlight : 2 ≤ J.lim.maxSegmentsInFlight
  fits : ∀ stored, J.StoredAs f stored → stored.length ≤ maxPartNum * J.segmentSize

variable {J}

/-- The file that a block is compressed to, in any file system. -/
theorem Ok.doCompress {f : FileData} (hJ : J.Ok f) {fs : Files} {tmp : Str}
    (hpath : fs.contents J.path = some f.data) (htmp : fs tmp = none) {block : Block}
    (hblock : block.offset + block.size ≤ f.data.length) :
    ∃ m, J.CompressesTo f.data block m ∧
      (ExtremeS3.doCompress J.zlib J.sys fs J.path tmp block.offset block.size).Evals
        (.ok (fs.set tmp (some (.file ⟨m, J.sys.now, 0o600⟩)), m.length)) := by
  obtain ⟨m, -, hm⟩ := doCompress_spec hJ.lawful hJ.reads hJ.writesAll hpath htmp hblock
  exact ⟨m, ⟨fs, _, tmp, hpath, htmp, hm, Files.contents_set_self ..⟩, hm⟩

/-- A block is compressed to a member of the stored file. -/
theorem Ok.member {f : FileData} (hJ : J.Ok f) {block : Block} {m : Bytes}
    (h : J.CompressesTo f.data block m) (hblock : block.offset + block.size ≤ f.data.length) :
    J.zlib.Member m ((f.data.drop block.offset).take block.size) := by
  obtain ⟨fs, fs', tmp, hpath, htmp, hm, hcontents⟩ := h
  obtain ⟨m', hmember, hm'⟩ := doCompress_spec hJ.lawful hJ.reads hJ.writesAll hpath htmp hblock
  have he := hm.unique hm'
  simp only [Except.ok.injEq, Prod.mk.injEq] at he
  rw [he.1, Files.contents_set_self] at hcontents
  cases hcontents
  exact hmember

/-- A file that is compressed is larger than a block. -/
theorem minimalBlock_le {f : FileData} (h : J.compresses f) : minimalBlock ≤ f.data.length := by
  have h' : compressionThreshold < f.data.length := by
    simp only [compresses, shouldCompress, Bool.and_eq_true, decide_eq_true_eq] at h
    exact h.1.1.2
  simp only [compressionThreshold, minimalBlock] at h' ⊢
  omega

/-- The blocks of a file that is compressed. -/
theorem exists_blocks {f : FileData} (h : J.compresses f) :
    ∃ blockSz, 0 < blockSz ∧
      (fileCompressor (J.lim.getCapability .cpuBound) f.data.length).Evals (.ok
        ((List.range (sliceCount blockSz f.data.length)).map fun k =>
          ⟨k, blockSz * k, min blockSz (f.data.length - blockSz * k)⟩)) :=
  fileCompressor_spec (J.lim.getCapability_pos _) (minimalBlock_le h)

/-- What is stored for a file that is compressed inflates to the file. -/
theorem StoredAs.inflating {f : FileData} (hJ : J.Ok f) (hc : J.compresses f) {stored : Bytes}
    (h : J.StoredAs f stored) :
    ∃ n, J.zlib.Inflating n J.zlib.inflateInit stored f.data := by
  rw [StoredAs, if_pos hc] at h
  obtain ⟨blocks, ms, hblocks, hms, rfl⟩ := h
  obtain ⟨blockSz, hpos, hblocks'⟩ := J.exists_blocks hc
  cases hblocks.unique hblocks'
  rw [List.forall₂_map_left_iff] at hms
  have hmembers : List.Forall₂ J.zlib.Member ms
      ((List.range (sliceCount blockSz f.data.length)).map fun k => slice blockSz k f.data) := by
    rw [List.forall₂_map_right_iff]
    have hmem : List.Forall₂ (fun k m => k ∈ List.range (sliceCount blockSz f.data.length) ∧
        J.CompressesTo f.data ⟨k, blockSz * k, min blockSz (f.data.length - blockSz * k)⟩ m)
        (List.range (sliceCount blockSz f.data.length)) ms :=
      (List.forall₂_and_left _ _).2 ⟨fun _ h => h, hms⟩
    refine List.Forall₂.flip (hmem.imp fun k m ⟨hk, hm⟩ => ?_)
    have hlt := (lt_sliceCount_iff hpos).1 (List.mem_range.1 hk)
    rw [Nat.mul_comm] at hlt
    have := hJ.member hm (by dsimp only; omega)
    have htake : (f.data.drop (blockSz * k)).take (min blockSz (f.data.length - blockSz * k)) =
        (f.data.drop (blockSz * k)).take blockSz :=
      List.take_eq_take_iff.2 (by rw [List.length_drop]; omega)
    rwa [htake, Nat.mul_comm] at this
  have := Zlib.inflating_flatten hmembers
  rwa [flatten_slices (le_sliceCount_mul hpos)] at this

end UploadJob

end ExtremeS3
