import ExtremeS3.Downloader.Download

/-!
# Error answers to the request for the headers

The other requests check the code of their answer in `check_for_errors`. `find_mtime_and_size` only
compares it with 404, so `file_downloader` takes any other error answer for the object, and its
`Content-Length` for the size (`runFileDownloader_plans`). `error_rejected_iff` says which of the
error answers it does reject.
-/

namespace ExtremeS3

namespace DownloadJob

variable (J : DownloadJob)

/-- The tasks of a download whose request for the headers is answered by `head`. Every request for a
segment is answered by any service. -/
def tasksAnswered (head : DownloadAnswer) :
    TaskSystem Downloading DownloadTask (DownloadAnswer × Service) TransferError where
  run s t o := J.tasks.run { s with service := o.2 } t o.1
  answers s t o := t = .fileDownloader → o = (head, s.service)

/-- The answer is not taken for the object: the `file_downloader` throws, and so schedules nothing,
and no run puts another file at the target. -/
structure Rejects (s : Downloading) (head : DownloadAnswer) : Prop where
  throws : ∃ e, (J.runFileDownloader s head).Evals (.error e) ∧ (head.code = 404 → e = .notFound)
  kept : ∀ s' ts, ((J.tasksAnswered head).machine (s, [.fileDownloader])).Reachable (s', ts) →
    ∀ f, s'.fs J.path = some (.file f) → s.fs J.path = some (.file f)

variable {J} {s : Downloading} {head : DownloadAnswer}

/-- A task that throws leaves the target as it is. -/
theorem Rejects.of_throws {e : TransferError}
    (h : (J.runFileDownloader s head).Evals (.error e)) (he : head.code = 404 → e = .notFound) :
    J.Rejects s head := by
  refine ⟨⟨e, h, he⟩, fun s' ts hreach f hf => ?_⟩
  have hstart : (s', ts) = (s, [.fileDownloader]) := by
    refine hreach.invariant (I := fun c => c = (s, [DownloadTask.fileDownloader]))
      (fun c hc => hc) ?_
    rintro c ⟨i, o⟩ c' rfl ⟨t, s'', new, ht, ho, hrun, -⟩
    obtain ⟨-, rfl⟩ : i = 0 ∧ t = .fileDownloader := by
      cases i with
      | zero => exact ⟨rfl, (Option.some.inj ht).symm⟩
      | succ i => cases ht
    obtain rfl := ho rfl
    cases hrun.unique h
  cases hstart
  exact hf

/-- An error answer is rejected just if its code is 404, or if the target does not look unchanged by
its headers and no temporary file can be made for the length that they give. -/
theorem error_rejected_iff (J : DownloadJob) (hpos : 0 < J.segmentSize) (s : Downloading)
    (head : DownloadAnswer) : (400 ≤ head.code → J.Rejects s head) ↔
      head.code < 400 ∨ head.code = 404 ∨
        ¬ J.Unchanged (J.clear s.fs) (findMtimeAndSize head.code head.lines) ∧
          (maxSegments * J.segmentSize < (findMtimeAndSize head.code head.lines).remoteSize ∨
            J.clear s.fs (J.temporaryFor head) = some .dir) := by
  rw [← Nat.not_le, ← imp_iff_not_or]
  refine imp_congr_right fun _ => ⟨fun h => ?_, fun h => ?_⟩
  · obtain ⟨e, he, -⟩ := h.throws
    by_contra hcond
    rw [not_or, not_and, not_or] at hcond
    obtain ⟨hcode, hcond⟩ := hcond
    by_cases hchanged : J.Unchanged (J.clear s.fs) (findMtimeAndSize head.code head.lines)
    · cases he.unique (runFileDownloader_unchanged hcode hchanged)
    · obtain ⟨hfits, hdir⟩ := hcond hchanged
      cases he.unique (runFileDownloader_plans hcode hchanged hpos (Nat.le_of_not_lt hfits) hdir)
  · by_cases hcode : head.code = 404
    · exact .of_throws (runFileDownloader_notFound hcode) fun _ => rfl
    · obtain ⟨hchanged, hsize⟩ := h.resolve_left hcode
      by_cases hlt : maxSegments * J.segmentSize < (findMtimeAndSize head.code head.lines).remoteSize
      · exact .of_throws (runFileDownloader_tooManySegments hcode hchanged hpos hlt)
          fun h => absurd h hcode
      · exact .of_throws (runFileDownloader_notCreated hcode hchanged hpos (Nat.le_of_not_lt hlt)
          (hsize.resolve_left hlt)) fun h => absurd h hcode

/-- `error_rejected_iff` for a code of 404. -/
theorem error_rejected_iff_404 : someDownload.Rejects
    ⟨fun _ => none, ⟨fun _ => none, fun _ => none⟩, ⟨0, 0, 0, 0, 0, [], [], false, false⟩⟩
    ⟨404, [], []⟩ :=
  (error_rejected_iff someDownload (by decide) _ _).2 (.inr (.inl rfl)) (by decide)

/-- A file with an object of its bytes. -/
def beforeError : Downloading where
  fs := onlyFile someDownload.path [10, 20, 30]
  service := ⟨fun _ => some ⟨[], [10, 20, 30]⟩, fun _ => none⟩
  content := ⟨0, 0, 0, 0, 0, [], [], false, false⟩

/-- A server error with a text of one character. -/
def serverError : DownloadAnswer := ⟨500, ["content-length: 1".toList], []⟩

/-- What a temporary file of the length of that text makes of the download. -/
def afterError : Downloading where
  fs := beforeError.fs.set (someDownload.temporaryFor serverError) (some (.file ⟨[0], 0, 0o600⟩))
  service := beforeError.service
  content :=
    ⟨0, 0o664, 1, 0, 1, someDownload.temporaryFor serverError, someDownload.path, true, false⟩

/-- What is read from the error answer: an object of one byte, without an error. -/
theorem findMtimeAndSize_serverError :
    findMtimeAndSize serverError.code serverError.lines = ⟨0, 1, 1, 0o664, false, true⟩ := by
  decide

/-- The temporary file of the download is another than its target. -/
theorem temporaryFor_serverError : someDownload.path ≠ someDownload.temporaryFor serverError := by
  rw [temporaryFor, findMtimeAndSize_serverError]
  decide

/-- The error answer starts the download of one segment. -/
theorem runFileDownloader_serverError :
    (someDownload.runFileDownloader beforeError serverError).Evals
      (.ok (afterError, [.downloadSegment 0])) := by
  have hchanged : ¬ someDownload.Unchanged (someDownload.clear beforeError.fs)
      (findMtimeAndSize serverError.code serverError.lines) := by
    rw [findMtimeAndSize_serverError]
    decide
  have hnone : beforeError.fs (someDownload.temporaryFor serverError) = none :=
    onlyFile_of_ne temporaryFor_serverError.symm [10, 20, 30]
  have hdir : beforeError.fs (someDownload.temporaryFor serverError) ≠ some .dir := by
    rw [hnone]
    exact fun h => by cases h
  have hfits : (findMtimeAndSize serverError.code serverError.lines).remoteSize ≤
      maxSegments * someDownload.segmentSize := by
    rw [findMtimeAndSize_serverError]
    decide
  have := runFileDownloader_plans (by decide) hchanged (by decide) hfits hdir
  rw [findMtimeAndSize_serverError] at this
  exact this

/-- The byte that is written replaces the target. -/
theorem runWriteSegment_serverError : ∃ s, (someDownload.runWriteSegment afterError 0 [10]).Evals
    (.ok (s, [])) ∧ s.fs someDownload.path = some (.file ⟨[10], 0, 0o664⟩) := by
  have htemp : afterError.fs afterError.content.localFile = some (.file ⟨[0], 0, 0o600⟩) :=
    Files.set_self beforeError.fs (someDownload.temporaryFor serverError) _
  obtain ⟨mtime, hwrite⟩ := doWrite_spec Sys.full_writesAll htemp (1 * 0) [10] (by decide)
  set fs := afterError.fs.set afterError.content.localFile
    (some (.file ⟨overwrite [0] (1 * 0) [10], mtime, 0o600⟩)) with hfs
  have hfile : afterError.fs someDownload.path = some (.file ⟨[10, 20, 30], 0, 0o600⟩) :=
    (@Files.set_of_ne beforeError.fs _ _ (some (.file ⟨[0], 0, 0o600⟩))
      temporaryFor_serverError).trans (onlyFile_self someDownload.path [10, 20, 30])
  have hpath : fs someDownload.path ≠ some .dir := by
    rw [hfs, Files.set_of_ne (show someDownload.path ≠ afterError.content.localFile from
      temporaryFor_serverError), hfile]
    exact fun h => by cases h
  have hreplace := afterError.content.count.evals_replaceTarget fs (Files.set_self ..)
    temporaryFor_serverError hpath
  refine ⟨_, hwrite.bind (Prog.evals_if_pos rfl (hreplace.bind (Prog.evals_pure _))), ?_⟩
  dsimp only
  rw [DownloadContent.destroy_of_ne _ _ temporaryFor_serverError]
  exact Files.set_self ..

/-- A run replaces the file by the first byte of the object. -/
theorem truncated_reachable : ∃ s, ((someDownload.tasksAnswered serverError).machine
    (beforeError, [.fileDownloader])).Reachable (s, []) ∧
      s.fs someDownload.path = some (.file ⟨[10], 0, 0o664⟩) := by
  obtain ⟨s, hwrite, hs⟩ := runWriteSegment_serverError
  have hdownload : (someDownload.runDownloadSegment afterError 0).Evals
      (.ok (afterError, [.writeSegment 0 [10]])) :=
    (Service.evals_downloadData
      (show afterError.service.objects someDownload.remote = some ⟨[], [10, 20, 30]⟩ from rfl) 0 1
      (by decide) (fun h => by cases h)).bind (Prog.evals_pure _)
  have hrun : ((someDownload.tasksAnswered serverError).machine
      (beforeError, [.fileDownloader])).Run (beforeError, [.fileDownloader])
        (List.replicate 3 (0, serverError, beforeError.service)) (s, []) := by
    refine .cons ⟨_, _, _, rfl, fun _ => rfl, runFileDownloader_serverError, rfl⟩ ?_
    refine .cons ⟨_, _, _, rfl, (fun h => by cases h), hdownload, rfl⟩ ?_
    exact .single ⟨_, _, _, rfl, (fun h => by cases h), hwrite, rfl⟩
  exact ⟨s, ⟨_, _, rfl, hrun⟩, hs⟩

/-- The answer with a code of 500 is taken for the object. -/
theorem error_not_rejected : ¬ ∀ (J : DownloadJob) (s : Downloading) (head : DownloadAnswer),
    0 < J.segmentSize → 400 ≤ head.code → J.Rejects s head := by
  intro h
  obtain ⟨s, hreach, hs⟩ := truncated_reachable
  have := (h someDownload beforeError serverError (by decide) (by decide)).kept s [] hreach _ hs
  cases this

end DownloadJob

end ExtremeS3
