import ExtremeS3.Agenda.Execution
import ExtremeS3.RoundTrip
import ExtremeS3.Uploader.UploadCompletes

/-!
# The agenda runs an upload

`upload_completes` is about the tasks of an upload in any order, one at a time. `uploadClass` says
what the agenda sees of them: a `file_pump` needs as many segments as it schedules parts, and hands
one to each `part_upload_task`. `UploadTask.Makes` says of each task what the agenda and the file
system see of it. So an upload suits the agenda that it is planned for, and the executors bring it
to its end (`agenda_uploads_file`).
-/

namespace ExtremeS3

/-- `get_class`, `needs_segments` and `ordinal` of the tasks of an upload. A `part_upload_task` has
the segment that it uploads as a field. -/
def uploadClass : SyncTaskClass UploadTask where
  getClass
    | .compressTask _ => .cpuBound
    | .filePump .. => .ioBound
    | .fileUploader | .fileCompressor | .partUpload .. => .unbound
  needsSegments
    | .filePump _ _ numberOfSegments => numberOfSegments
    | .fileUploader | .fileCompressor | .compressTask _ | .partUpload .. => 0
  ordinal _ := 0
  holdsSegment
    | .partUpload .. => true
    | .fileUploader | .fileCompressor | .compressTask _ | .filePump .. => false
  needs_of_holds t h := by
    cases t with
    | partUpload => rfl
    | fileUploader | fileCompressor | compressTask | filePump => cases h

/-- What a task makes: it may create a file, it does not start the upload again, and it schedules
tasks that the agenda can serve, for each that holds a segment one of its own. -/
structure UploadTask.Makes (lim : AgendaLimits) (t : UploadTask) (s s' : Uploading)
    (new : List UploadTask) : Prop where
  files : s'.fs = s.fs ∨ ∃ tmp node, s'.fs = s.fs.set tmp (some node)
  notFirst : ∀ u ∈ new, u ≠ .fileUploader
  fits : ∀ u ∈ new, uploadClass.needsSegments u ≤ lim.maxSegmentsInFlight
  provides : ∀ (k : Nat) u, new[k]? = some u → uploadClass.holdsSegment u →
    k < uploadClass.needsSegments t

section

variable {J : UploadJob} {f : FileData} {s s' : Uploading} {new : List UploadTask}

/-- Most tasks schedule none that holds a segment. -/
theorem UploadTask.Makes.of_forall {lim : AgendaLimits} {t : UploadTask}
    (hfiles : s'.fs = s.fs ∨ ∃ tmp node, s'.fs = s.fs.set tmp (some node))
    (hnew : ∀ u ∈ new, u ≠ .fileUploader ∧
      uploadClass.needsSegments u ≤ lim.maxSegmentsInFlight ∧ uploadClass.holdsSegment u = false) :
    t.Makes lim s s' new where
  files := hfiles
  notFirst u hu := (hnew u hu).1
  fits u hu := (hnew u hu).2.1
  provides k u hu hholds := by
    rw [(hnew u (List.mem_of_getElem? hu)).2.2] at hholds
    cases hholds

/-- `start_upload` schedules pumps that the agenda can serve. -/
theorem startTasks_eq_ok (hJ : J.Ok f) {files : ScatteredFiles} {n : Nat}
    (h : J.startTasks s files n = some (.ok (s', new))) :
    s'.fs = s.fs ∧ ∀ u ∈ new, u ≠ .fileUploader ∧
      uploadClass.needsSegments u ≤ J.lim.maxSegmentsInFlight ∧
      uploadClass.holdsSegment u = false := by
  obtain ⟨⟨num, pumps⟩, hstart, h⟩ := Prog.bind_eq_ok h
  cases h
  refine ⟨rfl, fun u hu => ?_⟩
  obtain ⟨p, hp, rfl⟩ := List.mem_map.1 hu
  refine ⟨by simp, ?_, rfl⟩
  by_cases hsize : files.sizes.sum ≤ maxPartNum * J.segmentSize
  · obtain ⟨pumps', hok, -, hpumps⟩ := startUpload_spec files hJ.maxInFlight hJ.segmentSize_pos hsize
    cases hok.only _ _ hstart
    exact (hpumps p hp).2
  · have hbig := (startUpload_tooBig_iff J.lim hJ.segmentSize_pos files).2 (Nat.lt_of_not_le hsize)
    cases hbig.only _ _ hstart

/-- As many segments are read as are left. -/
theorem length_readSegments {sys : Sys} {fs : Files} {segmentSize : Nat} {files : ScatteredFiles}
    {k left curPiece offsetWithin n : Nat} {segments : List (Nat × Bytes)}
    (h : readSegments sys fs segmentSize files k left curPiece offsetWithin n =
      some (.ok segments)) : segments.length = left := by
  induction left generalizing k curPiece offsetWithin segments with
  | zero => cases h; rfl
  | succ left ih =>
    obtain ⟨r, -, h⟩ := Prog.bind_eq_ok h
    obtain ⟨more, hmore, h⟩ := Prog.bind_eq_ok h
    cases h
    rw [List.length_cons, ih hmore]

/-- Each task of an upload makes what `UploadTask.Makes` says of it. -/
theorem makes_of_run (hJ : J.Ok f) {t : UploadTask} {o : UploadAnswer}
    (h : (J.tasks.run s t o).Evals (.ok (s', new))) : t.Makes J.lim s s' new := by
  obtain ⟨n, hn⟩ := h.exists_eq
  cases t with
  | fileUploader =>
    change J.runFileUploader s o n = _ at hn
    rw [UploadJob.runFileUploader] at hn
    cases hnode : s.fs J.path with
    | none => rw [hnode] at hn; cases hn
    | some node =>
      rw [hnode] at hn
      cases node with
      | dir => cases hn
      | file g =>
        dsimp only at hn
        split at hn
        · cases hn
          exact .of_forall (.inl rfl) (by simp)
        · split at hn
          · cases hn
            refine .of_forall (.inl rfl) fun u hu => ?_
            rw [List.mem_singleton.1 hu]
            exact ⟨by simp, Nat.zero_le _, rfl⟩
          · obtain ⟨hfs, hnew⟩ := startTasks_eq_ok hJ hn
            exact .of_forall (.inl hfs) hnew
  | fileCompressor =>
    obtain ⟨data, -, hn⟩ := Prog.bind_eq_ok hn
    obtain ⟨blocks, -, hn⟩ := Prog.bind_eq_ok hn
    cases hn
    refine .of_forall (.inl rfl) fun u hu => ?_
    obtain ⟨b, -, rfl⟩ := List.mem_map.1 hu
    exact ⟨by simp, Nat.zero_le _, rfl⟩
  | compressTask block =>
    obtain ⟨⟨fs, size⟩, hcompress, hn⟩ := Prog.bind_eq_ok hn
    obtain ⟨compressor, -, hn⟩ := Prog.bind_eq_ok hn
    obtain ⟨d, rfl⟩ := doCompress_sets hcompress
    dsimp only at hn
    cases hdrop : compressor.finishes.drop s.compressor.finishes.length with
    | nil =>
      rw [hdrop] at hn
      cases hn
      exact .of_forall (.inr ⟨_, _, rfl⟩) (by simp)
    | cons files more =>
      rw [hdrop] at hn
      obtain ⟨hfs, hnew⟩ := startTasks_eq_ok hJ hn
      exact .of_forall (.inr ⟨_, _, hfs⟩) hnew
  | filePump files cur num =>
    obtain ⟨segments, hread, hn⟩ := Prog.bind_eq_ok hn
    cases hn
    have hpart : ∀ u ∈ segments.map fun p => UploadTask.partUpload p.1 p.2,
        ∃ k data, u = .partUpload k data := by
      intro u hu
      obtain ⟨p, -, rfl⟩ := List.mem_map.1 hu
      exact ⟨_, _, rfl⟩
    refine ⟨.inl rfl, fun u hu => ?_, fun u hu => ?_, fun k u hu _ => ?_⟩
    · obtain ⟨k, data, rfl⟩ := hpart u hu
      simp
    · obtain ⟨k, data, rfl⟩ := hpart u hu
      exact Nat.zero_le _
    · have hlt := (List.getElem?_eq_some_iff.1 hu).1
      rw [List.length_map] at hlt
      exact hlt.trans_eq (length_readSegments hread)
  | partUpload num data =>
    obtain ⟨service, -, hn⟩ := Prog.bind_eq_ok hn
    obtain ⟨_, -, hn⟩ := Prog.bind_eq_ok hn
    dsimp only at hn
    split at hn
    · obtain ⟨service, -, hn⟩ := Prog.bind_eq_ok hn
      cases hn
      exact .of_forall (.inl rfl) (by simp)
    · cases hn
      exact .of_forall (.inl rfl) (by simp)

/-! ## The upload -/

/-- What an upload has reached: just its first task has not run, or it is not to run again; the agenda
can serve each task, and there are finitely many files. -/
structure Uploading.Reached (J : UploadJob) (s s₀ : Uploading) (ts : List UploadTask) : Prop where
  first : s = s₀ ∧ ts = [.fileUploader] ∨ ∀ t ∈ ts, t ≠ .fileUploader
  fits : ∀ t ∈ ts, uploadClass.needsSegments t ≤ J.lim.maxSegmentsInFlight
  finite : {q | s.fs q ≠ none}.Finite

variable {s₀ : Uploading} {ts : List UploadTask} {t : UploadTask}

/-- What an upload reaches before a task runs, it reaches after it. -/
theorem Uploading.Reached.step {before after : List UploadTask}
    (h : s.Reached J s₀ (before ++ t :: after)) (hmakes : t.Makes J.lim s s' new) :
    s'.Reached J s₀ (before ++ after ++ new) := by
  have hsub := ((List.sublist_cons_self t after).append_left before).subset
  have hrest : ∀ u ∈ before ++ after, u ≠ .fileUploader := by
    rcases h.first with ⟨-, hts⟩ | hne
    · -- there is no other task
      rcases List.append_eq_singleton_iff.1 hts with ⟨rfl, hts⟩ | ⟨-, hts⟩
      · rw [(List.cons.inj hts).2]
        simp
      · cases hts
    · exact fun u hu => hne u (hsub hu)
  refine ⟨.inr (List.forall_mem_append.2 ⟨hrest, hmakes.notFirst⟩),
    List.forall_mem_append.2 ⟨fun u hu => h.fits u (hsub hu), hmakes.fits⟩, ?_⟩
  rcases hmakes.files with hfs | ⟨tmp, node, hfs⟩
  · rw [hfs]
    exact h.finite
  · rw [hfs]
    exact finite_set h.finite tmp node

/-- Every state that the tasks of an upload lead to is one the upload reaches. -/
theorem reached_of_reachable (hJ : J.Ok f) (hfinite : {q | s₀.fs q ≠ none}.Finite)
    (h : (J.tasks.machine (s₀, [.fileUploader])).Reachable (s, ts)) : s.Reached J s₀ ts :=
  TaskSystem.reachable_invariant (I := fun s ts => s.Reached J s₀ ts)
    ⟨.inl ⟨rfl, rfl⟩, fun t ht => by rw [List.mem_singleton.1 ht]; exact Nat.zero_le _, hfinite⟩
    (fun _ _ _ _ _ _ _ hI _ hrun => hI.step (makes_of_run hJ hrun)) h

/-- An upload suits the agenda that its pumps are planned for. -/
theorem uploadClass_suits (hJ : J.Ok f) (hfinite : {q | s₀.fs q ≠ none}.Finite) :
    uploadClass.Suits J.lim J.tasks (s₀, [.fileUploader]) where
  fits _ _ h := (reached_of_reachable hJ hfinite h).fits
  provides _ _ _ _ _ _ _ _ _ hrun := (makes_of_run hJ hrun).provides

/-- Different tries take different names for the file of a block. -/
theorem scratchName_injective (J : UploadJob) (_ : Unit) : J.scratchName.Injective := by
  intro r r' h
  have hname : "cratchy-".toList ++ r = "cratchy-".toList ++ r' :=
    appendPath_cons_injective J.scratchDir 's' h
  exact List.append_cancel_left hname

/-- Every task that comes to run can be answered. -/
theorem exists_upload_answer (hhead : ∃ code lines, s₀.service.AnswersHead J.remote code lines)
    (h : s.Reached J s₀ ts) (ht : t ∈ ts) : ∃ o, J.tasks.answers s t o := by
  cases t with
  | fileUploader =>
    rcases h.first with ⟨rfl, -⟩ | hne
    · obtain ⟨code, lines, hhead⟩ := hhead
      exact ⟨⟨code, lines, "", []⟩, hhead⟩
    · exact absurd rfl (hne _ ht)
  | compressTask =>
    obtain ⟨random, hrandom⟩ := exists_free h.finite (scratchName_injective J)
    exact ⟨⟨0, [], "", random⟩, not_not.1 (hrandom ())⟩
  | fileCompressor | filePump | partUpload => exact ⟨⟨0, [], "", []⟩, trivial⟩

/-- An upload suits its agenda: its tasks fit, and each of its pumps claims a segment for every part
that it schedules. However the executors of the agenda take turns, the upload of a file that is not
taken to be unchanged comes to its end, and the object has the headers of the file and holds what it
is stored as. -/
theorem agenda_uploads_file (hJ : J.Ok f) (hfile : s₀.fs J.path = some (.file f))
    (hchanged : ∀ code lines, s₀.service.AnswersHead J.remote code lines →
      UploadJob.unchanged f (findMtimeAndSize code lines) = false)
    (hhead : ∃ code lines, s₀.service.AnswersHead J.remote code lines)
    (hfinite : {q | s₀.fs q ≠ none}.Finite) :
    uploadClass.Suits J.lim J.tasks (s₀, [.fileUploader]) ∧
      uploadClass.Executes J.lim J.tasks (s₀, [.fileUploader]) fun s =>
        ∃ stored, J.StoredAs f stored ∧
          s.service.objects J.remote = some ⟨J.headers f, stored⟩ := by
  have hsuits := uploadClass_suits hJ hfinite
  refine ⟨hsuits, (upload_completes hJ hfile hchanged).executes (fun s ts hr t ht => ?_) hsuits⟩
  exact exists_upload_answer hhead (reached_of_reachable hJ hfinite hr) ht

end

/-- `agenda_uploads_file` for a small file. -/
theorem agenda_uploads_file_small :
    uploadClass.Suits smallLimits someUpload.tasks (beforeUpload, [.fileUploader]) ∧
      uploadClass.Executes smallLimits someUpload.tasks (beforeUpload, [.fileUploader]) fun s =>
        ∃ stored, someUpload.StoredAs someFile stored ∧
          s.service.objects someUpload.remote = some ⟨someUpload.headers someFile, stored⟩ :=
  agenda_uploads_file (J := someUpload)
    ⟨marking_lawful, Sys.full_reads, Sys.full_writesAll, by decide, by decide,
      fun stored h => by rw [storedAs_someFile h]; decide⟩
    rfl (fun _ _ h => unchanged_of_no_object someFile rfl h)
    ⟨404, [], rfl, by simp⟩ (finite_set (by simp) _ _)

end ExtremeS3
