import ExtremeS3.Agenda.Execution
import ExtremeS3.Downloader.DownloadCompletes
import ExtremeS3.Uploader.Metadata
import Mathlib.Algebra.Order.BigOperators.Group.List
import Mathlib.Algebra.Order.Group.Nat

/-!
# The agenda runs a download

`download_completes` is about the tasks of a download in any order, one at a time. `downloadClass`
says what the agenda sees of them: a `download_segment_task` needs a segment, which it hands to its
`write_segment_task`. A download suits every agenda that may have a segment in flight
(`downloadClass_suits`), and a name that is not taken can always be found, as there are only finitely
many files (`exists_download_answer`). So the executors bring the download to its end
(`agenda_downloads_file`).
-/

namespace ExtremeS3

/-- `get_class`, `needs_segments` and `ordinal` of the tasks of a download. A `write_segment_task`
has the segment that it writes as a field. -/
def downloadClass : SyncTaskClass DownloadTask where
  getClass
    | .writeSegment .. => .ioBound
    | .fileDecompressor => .cpuBound
    | .fileDownloader | .downloadSegment _ => .unbound
  needsSegments
    | .downloadSegment _ => 1
    | .fileDownloader | .writeSegment .. | .fileDecompressor => 0
  ordinal _ := 0
  holdsSegment
    | .writeSegment .. => true
    | .fileDownloader | .downloadSegment _ | .fileDecompressor => false
  needs_of_holds t h := by
    cases t with
    | writeSegment => rfl
    | fileDownloader | downloadSegment | fileDecompressor => cases h

/-! ## Segments -/

section

variable {J : DownloadJob} {s s' : Downloading} {o : DownloadAnswer} {new : List DownloadTask}

/-- What the first task schedules holds no segment. -/
theorem holdsSegment_runFileDownloader {n : Nat}
    (h : J.runFileDownloader s o n = some (.ok (s', new))) :
    ∀ u ∈ new, downloadClass.holdsSegment u = false := by
  obtain ⟨_, -, h⟩ := Prog.bind_eq_ok h
  change (if J.Unchanged (J.clear s.fs) (findMtimeAndSize o.code o.lines) then _ else _ :
    Prog TransferError (Downloading × List DownloadTask)) n = _ at h
  split at h
  · cases h
    intro u hu
    cases hu
  · obtain ⟨_, -, h⟩ := Prog.bind_eq_ok h
    obtain ⟨_, -, h⟩ := Prog.bind_eq_ok h
    obtain ⟨_, -, h⟩ := Prog.bind_eq_ok h
    cases h
    intro u hu
    obtain ⟨k, -, rfl⟩ := List.mem_map.1 hu
    rfl

/-- What a task that writes its segment schedules holds no segment. -/
theorem holdsSegment_runWriteSegment {k n : Nat} {data : Bytes}
    (h : J.runWriteSegment s k data n = some (.ok (s', new))) :
    ∀ u ∈ new, downloadClass.holdsSegment u = false := by
  obtain ⟨_, -, h⟩ := Prog.bind_eq_ok h
  dsimp only at h
  split at h
  · split at h
    · cases h
      intro u hu
      rw [List.mem_singleton.1 hu]
      rfl
    · obtain ⟨_, -, h⟩ := Prog.bind_eq_ok h
      cases h
      intro u hu
      cases hu
  · cases h
    intro u hu
    cases hu

/-- A task that schedules one which writes a segment needs a segment. -/
theorem needsSegments_of_run {t : DownloadTask} (h : (J.tasks.run s t o).Evals (.ok (s', new)))
    {k : Nat} {u : DownloadTask} (hu : new[k]? = some u) (hholds : downloadClass.holdsSegment u) :
    k < downloadClass.needsSegments t := by
  obtain ⟨n, hn⟩ := h.exists_eq
  have hmem : u ∈ new := List.mem_of_getElem? hu
  cases t with
  | fileDownloader =>
    rw [holdsSegment_runFileDownloader hn u hmem] at hholds
    cases hholds
  | downloadSegment cur =>
    obtain ⟨data, -, hn⟩ := Prog.bind_eq_ok hn
    cases hn
    cases k with
    | zero => exact Nat.one_pos
    | succ k => cases hu
  | writeSegment cur data =>
    rw [holdsSegment_runWriteSegment hn u hmem] at hholds
    cases hholds
  | fileDecompressor =>
    obtain ⟨fs, -, hn⟩ := Prog.bind_eq_ok hn
    cases hn
    cases hmem

/-- A download suits an agenda that may have a segment in flight. -/
theorem downloadClass_suits {lim : AgendaLimits} (hlim : 0 < lim.maxSegmentsInFlight)
    (start : Downloading × List DownloadTask) : downloadClass.Suits lim J.tasks start where
  fits _ _ _ t _ := by
    cases t with
    | downloadSegment => exact hlim
    | fileDownloader | writeSegment | fileDecompressor => exact Nat.zero_le _
  provides _ _ _ _ _ _ _ _ _ hrun _ _ hu hholds := needsSegments_of_run hrun hu hholds

end

/-! ## Names that are not taken -/

/-- Different tries take different names for the temporary file. -/
theorem temporaryName_injective (scratchDir path : Str) (compressed : Bool) :
    (temporaryName scratchDir path compressed).Injective := by
  intro r r' h
  rw [temporaryName, temporaryName] at h
  split at h
  · have hname : "cratchy-".toList ++ r ++ "-dl".toList = "cratchy-".toList ++ r' ++ "-dl".toList :=
      appendPath_cons_injective scratchDir 's' h
    exact List.append_cancel_left (List.append_cancel_right hname)
  · exact (List.cons.inj (List.append_cancel_left (List.append_cancel_right h))).2

/-- The name that `file_decompressor` asks for. -/
theorem decompressedName_injective (path : Str) (_ : Unit) :
    Function.Injective fun random => path ++ '-' :: random := fun _ _ h =>
  (List.cons.inj (List.append_cancel_left h)).2

/-! ## The download -/

section

variable {J : DownloadJob} {object : Object} {f : FileData} {s₀ : Downloading}

/-- The weight of a task is part of that of its list. -/
theorem DownloadTask.weight_le_downloadWeight {t : DownloadTask} {ts : List DownloadTask}
    (h : t ∈ ts) : t.weight ≤ downloadWeight ts :=
  List.le_sum_of_mem (List.mem_map_of_mem h)

/-- No task weighs more than the first. -/
theorem DownloadTask.weight_le (t : DownloadTask) : t.weight ≤ weight .fileDownloader := by
  cases t with
  | fileDownloader => exact Nat.le_refl _
  | downloadSegment | writeSegment | fileDecompressor =>
    rw [DownloadTask.weight, DownloadTask.weight]
    decide

/-- The first task is not scheduled again: nothing weighs more. -/
theorem Downloading.Phase.notMem_fileDownloader {fs₀ : Files} {s : Downloading}
    {before after new : List DownloadTask} {t : DownloadTask}
    (h : s.Phase J object f fs₀ (before ++ t :: after)) (hnew : downloadWeight new < t.weight) :
    .fileDownloader ∉ before ++ after ++ new := by
  intro hmem
  rcases List.mem_append.1 hmem with hmem | hmem
  · generalize hts : before ++ t :: after = ts at h
    cases h with
    | start | decompressor =>
      rcases List.append_eq_singleton_iff.1 hts with ⟨rfl, hts⟩ | ⟨-, hts⟩
      · rw [(List.cons.inj hts).2] at hmem
        cases hmem
      · cases hts
    | segments compressed done data hseg =>
      subst hts
      have hsub := ((List.sublist_cons_self t after).append_left before).subset
      exact hseg.tasks .fileDownloader (hsub hmem)
    | finished => simp at hts
  · exact absurd (hnew.trans_le t.weight_le)
      (DownloadTask.weight_le_downloadWeight hmem).not_gt

/-- A download that has begun is in a phase, and before its first task has run nothing is changed. -/
theorem phase_of_reachable (hJ : J.Ok object f) (hfrom : object.From J.zlib f)
    (hpath : s₀.fs J.path = none) (hobject : s₀.service.objects J.remote = some object)
    {s : Downloading} {ts : List DownloadTask}
    (h : (J.tasks.machine (s₀, [.fileDownloader])).Reachable (s, ts)) :
    s.Phase J object f (J.clear s₀.fs) ts ∧ (.fileDownloader ∈ ts → s = s₀) := by
  refine TaskSystem.reachable_invariant
    (I := fun s ts => s.Phase J object f (J.clear s₀.fs) ts ∧ (.fileDownloader ∈ ts → s = s₀))
    ⟨.start rfl hpath hobject, fun _ => rfl⟩ (fun s before t after o s' new hI ho hrun => ?_) h
  obtain ⟨s'', new', hrun', hphase, hlt⟩ := hI.1.step hJ hfrom ho
  cases hrun.unique hrun'
  exact ⟨hphase, fun hmem => absurd hmem (hI.1.notMem_fileDownloader hlt)⟩

/-- Every task that comes to run can be answered. -/
theorem exists_download_answer (hJ : J.Ok object f) (hfrom : object.From J.zlib f)
    (hpath : s₀.fs J.path = none) (hobject : s₀.service.objects J.remote = some object)
    (hhead : ∃ code lines, s₀.service.AnswersHead J.remote code lines)
    (hfinite : {q | s₀.fs q ≠ none}.Finite) {s : Downloading} {ts : List DownloadTask}
    (h : (J.tasks.machine (s₀, [.fileDownloader])).Reachable (s, ts)) {t : DownloadTask}
    (ht : t ∈ ts) : ∃ o, J.tasks.answers s t o := by
  obtain ⟨hphase, hstart⟩ := phase_of_reachable hJ hfrom hpath hobject h
  cases t with
  | fileDownloader =>
    obtain rfl := hstart ht
    obtain ⟨code, lines, hhead⟩ := hhead
    obtain ⟨random, hrandom⟩ := exists_free (hfinite.insert J.path)
      (temporaryName_injective J.scratchDir J.path)
    refine ⟨⟨code, lines, random⟩, hhead, fun compressed => ?_⟩
    obtain ⟨hne, hfree⟩ := not_or.1 (hrandom compressed)
    exact ⟨not_not.1 hfree, hne⟩
  | downloadSegment | writeSegment => exact ⟨⟨0, [], []⟩, trivial⟩
  | fileDecompressor =>
    cases hphase with
    | start => cases List.mem_singleton.1 ht
    | segments compressed done data hseg => exact (hseg.tasks _ ht).elim
    | finished => cases ht
    | decompressor read htemp =>
      obtain ⟨mtime, mode, hfs⟩ := htemp.fs
      obtain ⟨random, hrandom⟩ := exists_free (hfinite.insert s.content.localFile)
        (decompressedName_injective J.path)
      obtain ⟨hne, hfree⟩ := not_or.1 (hrandom ())
      refine ⟨⟨0, [], random⟩, ?_⟩
      show s.fs (J.path ++ '-' :: random) = none
      rw [hfs, Files.set_of_ne hne]
      exact J.clear_of_none (not_not.1 hfree)

/-- A download suits an agenda that may have a segment in flight: each of its tasks that needs the
segment hands it on. However the executors of the agenda take turns, a download to where no file is
comes to its end, and restores the file that the object was uploaded from without any other change.
-/
theorem agenda_downloads_file (hJ : J.Ok object f) (hfrom : object.From J.zlib f)
    (hpath : s₀.fs J.path = none) (hobject : s₀.service.objects J.remote = some object)
    (hhead : ∃ code lines, s₀.service.AnswersHead J.remote code lines)
    (hfinite : {q | s₀.fs q ≠ none}.Finite) {lim : AgendaLimits}
    (hlim : 0 < lim.maxSegmentsInFlight) :
    downloadClass.Suits lim J.tasks (s₀, [.fileDownloader]) ∧
      downloadClass.Executes lim J.tasks (s₀, [.fileDownloader]) fun s =>
        s.fs = (J.clear s₀.fs).set J.path (some (.file f)) := by
  have hsuits := downloadClass_suits (J := J) hlim (s₀, [.fileDownloader])
  refine ⟨hsuits, (download_completes hJ hfrom hpath hobject).executes
    (fun s ts hr t ht => ?_) hsuits⟩
  exact exists_download_answer hJ hfrom hpath hobject hhead hfinite hr ht

end

/-- What the service has after an upload of a small file. -/
def someObject : Object :=
  ⟨uploadHeaders false "text/plain".toList 7 3 0o644, someFile.data⟩

/-- There are no files, and the service has just that object. -/
def beforeDownload : Downloading where
  fs _ := none
  service := ⟨fun path => if path = someDownload.remote then some someObject else none, fun _ => none⟩
  content := ⟨0, 0, 0, 0, 0, [], [], false, false⟩

/-- The service of the example answers with the size of its object. -/
theorem answersHead_smallAnswer :
    beforeDownload.service.AnswersHead someDownload.remote 200 smallAnswer :=
  ⟨by decide, smallAnswer_lines.givesStored⟩

/-- `agenda_downloads_file` for the small file. -/
theorem agenda_downloads_file_small :
    downloadClass.Suits smallLimits someDownload.tasks (beforeDownload, [.fileDownloader]) ∧
      downloadClass.Executes smallLimits someDownload.tasks (beforeDownload, [.fileDownloader])
        fun s => s.fs = Files.set (fun _ => none) someDownload.path
          (some (.file ⟨[10, 20, 30], 7, 0o644⟩)) :=
  have hok : someDownload.Ok someObject ⟨[10, 20, 30], 7, 0o644⟩ :=
    ⟨Sys.full_reads, Sys.full_writesAll, by decide, by decide, by decide, by decide, by decide⟩
  agenda_downloads_file hok ⟨false, _, rfl, rfl⟩ rfl rfl
    ⟨200, smallAnswer, answersHead_smallAnswer⟩ (by simp [beforeDownload])
    (show 0 < smallLimits.maxSegmentsInFlight by decide)

end ExtremeS3
