import ExtremeS3.Downloader.Download
import ExtremeS3.Errors
import ExtremeS3.Lib.Machine

/-!
# The tasks of one download, in any order

The executor runs the `download_segment_task`s and the `write_segment_task`s of a download at the
same time, and each of them may fail. A `download_segment_task` that returns leaves a
`write_segment_task`, so that a segment has one task at a time: `SegmentStep` is what it does next,
and what it changes of the files and the `download_content`. A `write_segment_task` writes its
segment chunk by chunk, and then counts it in one section under `m_`, in which the task that counts
the last segment finishes the download. An exception goes to the executor's retry loop
(`afterAttempt`); only requests throw what is retried.

`Assembly.Step` adds the steps of the `file_downloader`, of the destructor of the content, and of
the `file_decompressor`.
-/

namespace ExtremeS3

/-- Where a segment stands: in the loop over the attempts to download it, in the one over the
attempts to write it, or in the loop of `do_write`. -/
inductive SegmentTask where
  | download (a : Attempts)
  | write (a : Attempts) (data : Bytes)
  | writing (f : Nat) (data : Bytes) (offset : Nat)

/-- Where a `file_decompressor` stands: in the loop over its attempts, or past its destructor. -/
inductive DecompressTask where
  | run (a : Attempts)
  | deleted

/-- The download with its tasks. There is no content before the `file_downloader` makes it, and
`destroyed` says that its destructor has run. -/
structure Assembly where
  fs : Files
  downloader : Attempts
  content : Option DownloadContent
  tasks : List SegmentTask
  decompressors : List DecompressTask
  destroyed : Bool

/-- What the task of a segment may look at and change. -/
structure Segment where
  fs : Files
  content : DownloadContent
  task : SegmentTask
  decompressors : List DecompressTask

/-- What happens in a step. The labels of `write` say what was written and where; `counted`,
`handed`, `replaced` and `notReplaced` are the ends of a section under `m_`; `handed` and
`replaced` say what the temporary file held, and `replaced` and `decompressed` what they put at the
target. -/
inductive AssemblyLabel where
  | checked (r : Option Thrown)
  | created
  | scheduled
  | downloaded (num : Nat) (r : Option Thrown)
  | opened (num : Nat)
  | wrote (num offset : Nat) (bytes : Bytes)
  | notWritten (num : Nat) (e : Thrown)
  | counted (num : Nat)
  | handed (num : Nat) (held : Option Bytes)
  | replaced (num : Nat) (held : Option Bytes) (target : Option Node)
  | notReplaced (num : Nat) (e : Thrown)
  | destroyed
  | decompressed (target : Option Node)
  | notDecompressed (e : Thrown)
  | released

/-- The executor is done with the segment. -/
def SegmentTask.Over : SegmentTask → Prop
  | .download (.ended _) | .write (.ended _) _ => True
  | .download (.next _) | .write (.next _) _ | .writing .. => False

/-- The executor gave the segment up. -/
def SegmentTask.Failed : SegmentTask → Prop
  | .download (.ended fail) | .write (.ended fail) _ => fail = true
  | .download (.next _) | .write (.next _) _ | .writing .. => False

/-- A task that has failed is over. -/
theorem SegmentTask.Failed.over {t : SegmentTask} (h : t.Failed) : t.Over := by
  rcases t with (_ | _) | ⟨_ | _, _⟩ | _
  · exact h
  · trivial
  · exact h
  · trivial
  · exact h

/-- A regular file with another time and mode. -/
def Files.touch (fs : Files) (path : Str) (mtime : Int64) (mode : Nat) : Files :=
  match fs path with
  | some (.file f) => fs.set path (some (.file ⟨f.data, mtime, mode⟩))
  | some .dir | none => fs

/-- Setting times and mode leaves the bytes of all files as they are. -/
theorem Files.contents_touch (fs : Files) (path : Str) (mtime : Int64) (mode : Nat) (q : Str) :
    (fs.touch path mtime mode).contents q = fs.contents q := by
  rcases hp : fs path with _ | f | _
  · rw [touch, hp]
  · rw [touch, hp]
    by_cases hq : q = path
    · rw [hq, contents_set_self, contents, hp]
    · exact contents_set_of_ne hq
  · rw [touch, hp]

/-- Setting times and mode leaves the other files alone. -/
theorem Files.touch_of_ne {fs : Files} {path q : Str} (h : q ≠ path) (mtime : Int64) (mode : Nat) :
    fs.touch path mtime mode q = fs q := by
  rcases hp : fs path with _ | f | _
  · rw [touch, hp]
  · rw [touch, hp]
    exact set_of_ne h
  · rw [touch, hp]

namespace DownloadJob

variable (J : DownloadJob) (service : Service)

/-- What the task of the segment `num` does next. -/
inductive SegmentStep (num : Nat) : Segment → AssemblyLabel → Segment → Prop
  | downloaded {v : Segment} {f : Nat} {data : Bytes} :
    v.task = .download (.next f) →
    (service.downloadData J.remote (J.segmentSize * num)
      (v.content.size J.segmentSize num)).Evals (.ok data) →
    SegmentStep num v (.downloaded num none) { v with task := .write (.next 0) data }
  | notDownloaded {v : Segment} {f : Nat} (e : Thrown) :
    v.task = .download (.next f) →
    SegmentStep num v (.downloaded num (some e))
      { v with task := .download (afterAttempt f (some e)) }
  | opened {v : Segment} {f : Nat} {data : Bytes} :
    v.task = .write (.next f) data →
    (v.fs.contents v.content.localFile).isSome →
    SegmentStep num v (.opened num) { v with task := .writing f data 0 }
  -- a `write` that takes nothing changes nothing, and is made again
  | wrote {v : Segment} {f offset offset' : Nat} {data : Bytes} {fs : Files} (sys : Sys) :
    v.task = .writing f data offset →
    (writeChunk sys v.content.localFile (J.segmentSize * num) data (v.fs, offset)).Evals
      (.ok (.inl (fs, offset'))) →
    offset < offset' →
    SegmentStep num v
      (.wrote num (J.segmentSize * num + offset) ((data.drop offset).take (offset' - offset)))
      { v with fs := fs, task := .writing f data offset' }
  -- what `open` and `write` throw is not retried
  | notOpened {v : Segment} {f : Nat} {data : Bytes} (e : Thrown) :
    v.task = .write (.next f) data → e.retried = false →
    SegmentStep num v (.notWritten num e)
      { v with task := .write (afterAttempt f (some e)) data }
  | notWritten {v : Segment} {f offset : Nat} {data : Bytes} (e : Thrown) :
    v.task = .writing f data offset → e.retried = false →
    SegmentStep num v (.notWritten num e)
      { v with task := .write (afterAttempt f (some e)) data }
  | counted {v : Segment} {f offset : Nat} {data : Bytes} :
    v.task = .writing f data offset → data.length ≤ offset →
    ¬ v.content.count.Full →
    SegmentStep num v (.counted num)
      { v with content := v.content.count, task := .write (afterAttempt f none) data }
  | handed {v : Segment} {f offset : Nat} {data : Bytes} :
    v.task = .writing f data offset → data.length ≤ offset →
    v.content.count.Full → v.content.compressed = true →
    SegmentStep num v (.handed num (v.fs.contents v.content.localFile))
      { v with
        content := { v.content.count with deleteTempFile := false },
        task := .write (afterAttempt f none) data,
        decompressors := v.decompressors ++ [.run (.next 0)] }
  | replaced {v : Segment} {f offset : Nat} {data : Bytes} {fs : Files} :
    v.task = .writing f data offset → data.length ≤ offset →
    v.content.count.Full → v.content.compressed = false →
    (v.content.count.replaceTarget v.fs).Evals (.ok fs) →
    SegmentStep num v
      (.replaced num (v.fs.contents v.content.localFile) (fs v.content.targetFile))
      { v with
        fs := fs, content := v.content.count, task := .write (afterAttempt f none) data }
  -- the time or the mode may have been set before what failed
  | notReplaced {v : Segment} {f offset : Nat} {data : Bytes} {fs : Files} (e : Thrown)
    (mtime : Int64) (mode : Nat) :
    v.task = .writing f data offset → data.length ≤ offset →
    v.content.count.Full → v.content.compressed = false → e.retried = false →
    fs = v.fs ∨ fs = v.fs.touch v.content.localFile mtime mode →
    SegmentStep num v (.notReplaced num e)
      { v with
        fs := fs, content := v.content.count, task := .write (afterAttempt f (some e)) data }

/-- The part of the download that the task of a segment sees. -/
def segment (s : Assembly) (content : DownloadContent) (task : SegmentTask) : Segment :=
  ⟨s.fs, content, task, s.decompressors⟩

/-- The download after a step of the task of the segment `num`. -/
def withSegment (s : Assembly) (num : Nat) (v : Segment) : Assembly :=
  { s with
    fs := v.fs, content := some v.content, tasks := s.tasks.set num v.task,
    decompressors := v.decompressors }

/-- The steps of a download. -/
inductive Step : Assembly → AssemblyLabel → Assembly → Prop
  | unchanged {s : Assembly} {f : Nat} {mod : FileDesc} :
    s.downloader = .next f → mod.found = true → J.Unchanged (J.clear s.fs) mod →
    Step s (.checked none) { s with fs := J.clear s.fs, downloader := afterAttempt f none }
  | threw {s : Assembly} {f : Nat} (e : Thrown) :
    s.downloader = .next f →
    Step s (.checked (some e))
      { s with fs := J.clear s.fs, downloader := afterAttempt f (some e) }
  | notCreated {s : Assembly} {f : Nat} {compressed : Bool} {random : Str} (e : Thrown) :
    s.downloader = .next f →
    temporaryName J.scratchDir J.path compressed random ≠ J.path →
    Step s (.checked (some e))
      { s with
        fs := (J.clear s.fs).unlink (temporaryName J.scratchDir J.path compressed random),
        downloader := afterAttempt f (some e) }
  -- nothing is thrown once the file is there, and `fallocate64` may allocate less
  | created {s : Assembly} {f : Nat} {mod : FileDesc} {segNum size : Nat} {random localFile : Str}
    {fs fs' : Files} (sys : Sys) :
    s.downloader = .next f → mod.found = true → ¬ J.Unchanged (J.clear s.fs) mod →
    (segmentNumber J.segmentSize mod.remoteSize).Evals (.ok segNum) →
    localFile = temporaryName J.scratchDir J.path mod.compressed random → localFile ≠ J.path →
    (((J.clear s.fs).unlink localFile).create sys localFile 0o600).Evals (.ok fs) →
    size ≤ mod.remoteSize → (fs.update localFile (FileData.allocate size)).Evals (.ok fs') →
    Step s .created
      { s with
        fs := fs', downloader := afterAttempt f none,
        content := some (mod.content segNum localFile J.path) }
  | scheduled {s : Assembly} {content : DownloadContent} :
    s.content = some content → s.tasks.length < content.numSegments →
    Step s .scheduled { s with tasks := s.tasks ++ [.download (.next 0)] }
  | segment {s : Assembly} {content : DownloadContent} {task : SegmentTask} {num : Nat}
    {a : AssemblyLabel} {v : Segment} :
    s.content = some content → s.tasks[num]? = some task →
    J.SegmentStep service num (segment s content task) a v →
    Step s a (withSegment s num v)
  -- the tasks hold the content, and so does the `file_downloader` until it has scheduled them
  | destroyed {s : Assembly} {content : DownloadContent} :
    s.content = some content → s.tasks.length = content.numSegments → (∀ t ∈ s.tasks, t.Over) →
    s.destroyed = false →
    Step s .destroyed { s with fs := content.destroy s.fs, destroyed := true }
  | decompressed {s : Assembly} {content : DownloadContent} {num f : Nat} {random : Str}
    {fs : Files} (sys : Sys) :
    s.content = some content → s.decompressors[num]? = some (.run (.next f)) →
    s.fs (content.targetFile ++ '-' :: random) = none →
    (fileDecompressor J.zlib sys s.fs content.localFile content.targetFile
      (content.targetFile ++ '-' :: random) content.mtime content.mode).Evals (.ok fs) →
    Step s (.decompressed (fs content.targetFile))
      { s with fs := fs, decompressors := s.decompressors.set num (.run (afterAttempt f none)) }
  -- the output of a `file_decompressor` that throws is removed
  | notDecompressed {s : Assembly} {num f : Nat} (e : Thrown) :
    s.decompressors[num]? = some (.run (.next f)) → e.retried = false →
    Step s (.notDecompressed e)
      { s with decompressors := s.decompressors.set num (.run (afterAttempt f (some e))) }
  | released {s : Assembly} {content : DownloadContent} {num : Nat} {fail : Bool} :
    s.content = some content → s.decompressors[num]? = some (.run (.ended fail)) →
    Step s .released
      { s with
        fs := s.fs.unlink content.localFile, decompressors := s.decompressors.set num .deleted }

/-- A download before its first attempt. -/
def startAssembly (fs : Files) : Assembly where
  fs := fs
  downloader := .next 0
  content := none
  tasks := []
  decompressors := []
  destroyed := false

/-- The runs of a download. -/
def assemblyMachine : Machine Assembly AssemblyLabel where
  init s := ∃ fs, s = startAssembly fs
  step := J.Step service

end DownloadJob

/-! ## What the labels of a run say -/

/-- The segment that a section under `m_` counts. -/
def AssemblyLabel.counts : AssemblyLabel → Option Nat
  | .counted num | .handed num _ | .replaced num _ _ | .notReplaced num _ => some num
  | .checked _ | .created | .scheduled | .downloaded .. | .opened _ | .wrote .. | .notWritten .. |
    .destroyed | .decompressed _ | .notDecompressed _ | .released => none

/-- What the temporary file held when it was renamed or handed to a `file_decompressor`. -/
def AssemblyLabel.finishes : AssemblyLabel → Option (Option Bytes)
  | .handed _ held | .replaced _ held _ => some held
  | .checked _ | .created | .scheduled | .downloaded .. | .opened _ | .wrote .. | .notWritten .. |
    .counted _ | .notReplaced .. | .destroyed | .decompressed _ | .notDecompressed _ |
    .released => none

/-- What a rename put at the target. -/
def AssemblyLabel.renames : AssemblyLabel → Option (Option Node)
  | .replaced _ _ target | .decompressed target => some target
  | .checked _ | .created | .scheduled | .downloaded .. | .opened _ | .wrote .. | .notWritten .. |
    .counted _ | .handed .. | .notReplaced .. | .destroyed | .notDecompressed _ | .released => none

/-- What a step wrote of the segment `num`. -/
def AssemblyLabel.bytes (num : Nat) : AssemblyLabel → Bytes
  | .wrote num' _ bytes => if num' = num then bytes else []
  | .checked _ | .created | .scheduled | .downloaded .. | .opened _ | .notWritten .. | .counted _ |
    .handed .. | .replaced .. | .notReplaced .. | .destroyed | .decompressed _ |
    .notDecompressed _ | .released => []

/-- The segments that were counted, in order. -/
def countedSegments (ls : List AssemblyLabel) : List Nat := ls.filterMap AssemblyLabel.counts

/-- What was in the temporary file each time that a download finished. -/
def finishes (ls : List AssemblyLabel) : List (Option Bytes) :=
  ls.filterMap AssemblyLabel.finishes

/-- What the renames put at the target, in order. -/
def renames (ls : List AssemblyLabel) : List (Option Node) := ls.filterMap AssemblyLabel.renames

/-- What was written of the segment `num`. -/
def segmentBytes (num : Nat) (ls : List AssemblyLabel) : Bytes :=
  ls.flatMap (AssemblyLabel.bytes num)

/-- Every write of a segment goes on where the writes of it before ended. -/
def WritesInOrder (segmentSize : Nat) (ls : List AssemblyLabel) : Prop :=
  ∀ ks num offset bytes ms, ls = ks ++ .wrote num offset bytes :: ms →
    offset = segmentSize * num + (segmentBytes num ks).length

/-- Some segment was given up. -/
def Assembly.Failed (s : Assembly) : Prop := ∃ t ∈ s.tasks, t.Failed

section

variable {ls : List AssemblyLabel} {a : AssemblyLabel}

/-- The last record counts its segment, if it has one, behind those counted before. -/
theorem countedSegments_append (ls : List AssemblyLabel) (a : AssemblyLabel) :
    countedSegments (ls ++ [a]) = countedSegments ls ++ a.counts.toList :=
  filterMap_concat ..

/-- A record that counts no segment leaves those that are counted. -/
theorem countedSegments_append_of_none (h : a.counts = none) :
    countedSegments (ls ++ [a]) = countedSegments ls := by
  rw [countedSegments_append, h, Option.toList_none, List.append_nil]

/-- The last record finishes its file, if it has one, behind those finished before. -/
theorem finishes_append (ls : List AssemblyLabel) (a : AssemblyLabel) :
    finishes (ls ++ [a]) = finishes ls ++ a.finishes.toList :=
  filterMap_concat ..

/-- A record that finishes no file leaves those that are finished. -/
theorem finishes_append_of_none (h : a.finishes = none) : finishes (ls ++ [a]) = finishes ls := by
  rw [finishes_append, h, Option.toList_none, List.append_nil]

/-- The last record renames its file, if it has one, behind those renamed before. -/
theorem renames_append (ls : List AssemblyLabel) (a : AssemblyLabel) :
    renames (ls ++ [a]) = renames ls ++ a.renames.toList :=
  filterMap_concat ..

/-- A record that renames no file leaves those that are renamed. -/
theorem renames_append_of_none (h : a.renames = none) : renames (ls ++ [a]) = renames ls := by
  rw [renames_append, h, Option.toList_none, List.append_nil]

/-- The bytes of a segment are those written before, and those of the last record. -/
theorem segmentBytes_append (num : Nat) (ls : List AssemblyLabel) (a : AssemblyLabel) :
    segmentBytes num (ls ++ [a]) = segmentBytes num ls ++ a.bytes num := by
  rw [segmentBytes, List.flatMap_append, List.flatMap_singleton, segmentBytes]

/-- A record that writes nothing for a segment leaves its bytes as they are. -/
theorem segmentBytes_append_of_nil {num : Nat} (h : a.bytes num = []) :
    segmentBytes num (ls ++ [a]) = segmentBytes num ls := by
  rw [segmentBytes_append, h, List.append_nil]

end

/-- Writes are in order if they were before, and the last one starts where its segment ends. -/
theorem WritesInOrder.append {segmentSize : Nat} {ls : List AssemblyLabel} {a : AssemblyLabel}
    (h : WritesInOrder segmentSize ls) (ha : ∀ num offset bytes, a = .wrote num offset bytes →
      offset = segmentSize * num + (segmentBytes num ls).length) :
    WritesInOrder segmentSize (ls ++ [a]) := by
  intro ks num offset bytes ms he
  rcases List.eq_nil_or_concat ms with rfl | ⟨ms', b, rfl⟩
  · obtain ⟨rfl, hb⟩ := List.append_inj' he rfl
    exact ha num offset bytes (List.singleton_inj.1 hb)
  · rw [List.concat_eq_append, ← List.cons_append, ← List.append_assoc] at he
    exact h ks num offset bytes ms' (List.append_inj' he rfl).1

end ExtremeS3
