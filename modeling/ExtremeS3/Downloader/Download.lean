import ExtremeS3.Compressor.Decoder
import ExtremeS3.Connection.Service
import ExtremeS3.Downloader.Content
import ExtremeS3.Lib.Tasks

/-!
# The download of a file

`file_downloader` asks for the headers of an object and schedules a `download_segment_task` for each
segment; each of these downloads its range and schedules a `write_segment_task`. The last one to
write its segment gives the temporary file the name of the target, or schedules a
`file_decompressor` for it.

`runFileDownloader_plans` and the lemmas before it say how the first task ends, whatever its request
for the headers is answered. `Object.From` says what an object and its headers have to do with the
file that it was uploaded from.
-/

namespace ExtremeS3

/-- What a download is done with: the segment size, the system, `zlib`, and the fields of the
`file_downloader`. -/
structure DownloadJob where
  segmentSize : Nat
  sys : Sys
  zlib : Zlib
  scratchDir : Str
  path : Str
  remote : S3Path
  deleteDir : Bool

/-- The tasks of a download. -/
inductive DownloadTask where
  | fileDownloader
  | downloadSegment (curSegment : Nat)
  | writeSegment (curSegment : Nat) (data : Bytes)
  | fileDecompressor

/-- What the tasks share: the files, the service and the `download_content`. -/
structure Downloading where
  fs : Files
  service : Service
  content : DownloadContent

/-- What answers a task: the code and the lines of the answer to a `HEAD` request, and the random
part of a name from `unique_path`. -/
structure DownloadAnswer where
  code : Nat
  lines : List Str
  random : Str

namespace DownloadJob

variable (J : DownloadJob)

/-- The files after `delete_dir_` is obeyed. -/
def clear (fs : Files) : Files := if J.deleteDir then fs.removeAll J.path else fs

/-- `file_downloader::operator()`. -/
def runFileDownloader (s : Downloading) (o : DownloadAnswer) :
    Prog TransferError (Downloading × List DownloadTask) := do
  let fs := J.clear s.fs
  let local_ : Nat × Int64 :=
    match fs J.path with
    | some (.file f) => (f.data.length, f.mtime)
    | some .dir | none => (0, 0)
  let mod := findMtimeAndSize o.code o.lines
  .ensure mod.found .notFound
  if mod.mtime ≠ 0 ∧ mod.mtime = local_.2 ∧ mod.rawSize = local_.1 then
    pure ({ s with fs := fs }, [])
  else do
    let segNum ← segmentNumber J.segmentSize mod.remoteSize
    let localFile := temporaryName J.scratchDir J.path mod.compressed o.random
    let fs ← (fs.unlink localFile).create J.sys localFile 0o600
    let fs ← fs.update localFile (FileData.allocate mod.remoteSize)
    pure ({ s with fs := fs, content := mod.content segNum localFile J.path },
      (List.range segNum).map .downloadSegment)

/-- `download_segment_task::operator()`. -/
def runDownloadSegment (s : Downloading) (curSegment : Nat) :
    Prog TransferError (Downloading × List DownloadTask) := do
  let data ← s.service.downloadData J.remote (J.segmentSize * curSegment)
    (s.content.size J.segmentSize curSegment)
  pure (s, [.writeSegment curSegment data])

/-- `write_segment_task::operator()`. The last of the tasks of the segments destroys the content. -/
def runWriteSegment (s : Downloading) (curSegment : Nat) (data : Bytes) :
    Prog TransferError (Downloading × List DownloadTask) := do
  let fs ← doWrite J.sys s.fs s.content.localFile (J.segmentSize * curSegment) data
  let content := s.content.count
  if content.Full then
    if content.compressed then
      let content := { content with deleteTempFile := false }
      pure ({ s with fs := content.destroy fs, content := content }, [.fileDecompressor])
    else do
      let fs ← content.replaceTarget fs
      pure ({ s with fs := content.destroy fs, content := content }, [])
  else pure ({ s with fs := fs, content := content }, [])

/-- `file_decompressor::operator()`, with its destructor that removes the source. -/
def runFileDecompressor (s : Downloading) (o : DownloadAnswer) :
    Prog TransferError (Downloading × List DownloadTask) := do
  let fs ← fileDecompressor J.zlib J.sys s.fs s.content.localFile s.content.targetFile
    (s.content.targetFile ++ '-' :: o.random) s.content.mtime s.content.mode
  pure ({ s with fs := fs.unlink s.content.localFile }, [])

/-- The tasks of a download. `unique_path` answers with a name that is not taken. -/
def tasks : TaskSystem Downloading DownloadTask DownloadAnswer TransferError where
  run s t o :=
    match t with
    | .fileDownloader => J.runFileDownloader s o
    | .downloadSegment k => J.runDownloadSegment s k
    | .writeSegment k data => J.runWriteSegment s k data
    | .fileDecompressor => J.runFileDecompressor s o
  answers s t o :=
    match t with
    | .fileDownloader => s.service.AnswersHead J.remote o.code o.lines ∧
      ∀ compressed, s.fs (temporaryName J.scratchDir J.path compressed o.random) = none ∧
        temporaryName J.scratchDir J.path compressed o.random ≠ J.path
    | .fileDecompressor => s.fs (J.path ++ '-' :: o.random) = none
    | .downloadSegment _ | .writeSegment .. => True

end DownloadJob

/-! ## The first task -/

/-- The size and the time of a regular file, or zeros. -/
def Files.sizeAndTime (fs : Files) (path : Str) : Nat × Int64 :=
  match fs path with
  | some (.file f) => (f.data.length, f.mtime)
  | some .dir | none => (0, 0)

/-- An object is found unless the status is 404. -/
theorem found_findMtimeAndSize (code : Nat) (lines : List Str) :
    (findMtimeAndSize code lines).found = decide (code ≠ 404) := by
  rw [findMtimeAndSize]
  split <;> rfl

namespace DownloadJob

variable (J : DownloadJob)

/-- The test of `file_downloader::operator()` that there is nothing to download. -/
def Unchanged (fs : Files) (mod : FileDesc) : Prop :=
  mod.mtime ≠ 0 ∧ mod.mtime = (fs.sizeAndTime J.path).2 ∧ mod.rawSize = (fs.sizeAndTime J.path).1

instance (fs : Files) (mod : FileDesc) : Decidable (J.Unchanged fs mod) :=
  inferInstanceAs (Decidable (_ ∧ _ ∧ _))

/-- The name of the temporary file for the object that the headers describe. -/
def temporaryFor (head : DownloadAnswer) : Str :=
  temporaryName J.scratchDir J.path (findMtimeAndSize head.code head.lines).compressed head.random

variable {J} {fs : Files} {s : Downloading} {head : DownloadAnswer}

/-- Nothing is made where the directory is removed. -/
theorem clear_of_none {q : Str} (h : fs q = none) : J.clear fs q = none := by
  rw [clear]
  split
  · rw [Files.removeAll]
    split
    · rfl
    · exact h
  · exact h

/-- Nothing is at the path of a job that deletes what is there. -/
theorem clear_path_of_delete (h : J.deleteDir = true) (fs : Files) : J.clear fs J.path = none := by
  rw [clear, if_pos h, Files.removeAll, if_pos (.inl rfl)]

/-- An object that is not there is an error. -/
theorem runFileDownloader_notFound (h : head.code = 404) :
    (J.runFileDownloader s head).Evals (.error .notFound) := by
  refine Prog.Evals.bind_error (Prog.evals_ensure_not ?_ _)
  rw [found_findMtimeAndSize, h]
  decide

/-- An answer with headers that the target looks unchanged by ends the task. -/
theorem runFileDownloader_unchanged (hcode : head.code ≠ 404)
    (h : J.Unchanged (J.clear s.fs) (findMtimeAndSize head.code head.lines)) :
    (J.runFileDownloader s head).Evals (.ok ({ s with fs := J.clear s.fs }, [])) := by
  refine Prog.Evals.bind (Prog.evals_ensure ?_ _) ?_
  · rw [found_findMtimeAndSize]
    exact decide_eq_true hcode
  · exact Prog.evals_if_pos h (Prog.evals_pure _)

section

variable (hcode : head.code ≠ 404)
  (hchanged : ¬ J.Unchanged (J.clear s.fs) (findMtimeAndSize head.code head.lines))
  (hpos : 0 < J.segmentSize)

include hcode hchanged hpos

/-- An object with more segments than there may be is an error. -/
theorem runFileDownloader_tooManySegments
    (h : maxSegments * J.segmentSize < (findMtimeAndSize head.code head.lines).remoteSize) :
    (J.runFileDownloader s head).Evals (.error .tooManySegments) := by
  refine Prog.Evals.bind (Prog.evals_ensure ?_ _) ?_
  · rw [found_findMtimeAndSize]
    exact decide_eq_true hcode
  · refine Prog.evals_if_neg hchanged ?_
    exact Prog.Evals.bind_error ((segmentNumber_tooManySegments_iff hpos _).2 h)

/-- A temporary file in the place of a directory is an error. -/
theorem runFileDownloader_notCreated
    (hfits : (findMtimeAndSize head.code head.lines).remoteSize ≤ maxSegments * J.segmentSize)
    (h : J.clear s.fs (J.temporaryFor head) = some .dir) :
    (J.runFileDownloader s head).Evals (.error (.system (J.temporaryFor head))) := by
  refine Prog.Evals.bind (Prog.evals_ensure ?_ _) ?_
  · rw [found_findMtimeAndSize]
    exact decide_eq_true hcode
  · refine Prog.evals_if_neg hchanged ?_
    refine Prog.Evals.bind (segmentNumber_spec hpos hfits) ?_
    exact Prog.Evals.bind_error (Files.evals_unlink_create_dir h J.sys 0o600)

/-- Any other answer is taken for the object: its length is the size of the temporary file, and of
what the segments are of. -/
theorem runFileDownloader_plans
    (hfits : (findMtimeAndSize head.code head.lines).remoteSize ≤ maxSegments * J.segmentSize)
    (h : J.clear s.fs (J.temporaryFor head) ≠ some .dir) :
    let mod := findMtimeAndSize head.code head.lines
    let segNum := partCount J.segmentSize mod.remoteSize
    (J.runFileDownloader s head).Evals (.ok
      ({ s with
        fs := (J.clear s.fs).set (J.temporaryFor head)
          (some (.file ⟨List.replicate mod.remoteSize 0, J.sys.now, 0o600⟩)),
        content := mod.content segNum (J.temporaryFor head) J.path },
      (List.range segNum).map .downloadSegment)) := by
  intro mod segNum
  refine Prog.Evals.bind (Prog.evals_ensure ?_ _) ?_
  · rw [found_findMtimeAndSize]
    exact decide_eq_true hcode
  · refine Prog.evals_if_neg hchanged ?_
    refine Prog.Evals.bind (segmentNumber_spec hpos hfits) ?_
    refine Prog.Evals.bind (Files.evals_unlink_create h J.sys 0o600) ?_
    refine Prog.Evals.bind (Files.evals_update (Files.set_self ..) _) ?_
    rw [Files.set_set]
    exact Prog.evals_pure _

end

end DownloadJob

/-- A download with segments of one byte. -/
def someDownload : DownloadJob :=
  ⟨1, .full, marking, "/tmp".toList, "/m/f".toList, ⟨"s3".toList, "b".toList, "/f".toList⟩, false⟩

/-- The object was uploaded from the file. -/
def Object.From (z : Zlib) (object : Object) (f : FileData) : Prop :=
  ∃ compressed mime,
    object.headers = uploadHeaders compressed mime f.mtime f.data.length f.mode ∧
    if compressed then ∃ n, z.Inflating n z.inflateInit object.data f.data
    else object.data = f.data

/-- What a download of the object relies on: calls and requests that succeed, sizes of files, and a
limit on the number of segments that suffices. -/
structure DownloadJob.Ok (J : DownloadJob) (object : Object) (f : FileData) : Prop where
  reads : J.sys.Reads
  writesAll : J.sys.WritesAll
  segmentSize_pos : 0 < J.segmentSize
  fits : object.data.length ≤ maxSegments * J.segmentSize
  size : f.data.length < 2 ^ 63
  remoteSize : object.data.length < 2 ^ 63
  mode : f.mode < 2 ^ 32

end ExtremeS3
