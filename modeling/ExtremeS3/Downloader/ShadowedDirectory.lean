import ExtremeS3.Downloader.ExactlyOnce

/-!
# A file in the place of a directory

With `delete_dir_` set, `file_downloader` removes the tree at its path before it asks for the object,
so that the tree is lost if any task that follows is given up (`tree_not_kept`). In a run in which
the executor gives no task up, every segment is counted (`Going`), and when all tasks have ended there
is the new file (`replaces_directory`).
-/

namespace ExtremeS3

/-- What the step throws in the state before it makes the executor give a task up. -/
def Assembly.GivesUp (s : Assembly) (a : AssemblyLabel) : Prop :=
  match a with
  | .checked (some e) => ∃ f, s.downloader = .next f ∧ afterAttempt f (some e) = .ended true
  | .downloaded num (some e) =>
    ∃ f, s.tasks[num]? = some (.download (.next f)) ∧ afterAttempt f (some e) = .ended true
  | .notWritten .. | .notReplaced .. | .notDecompressed _ => True
  | .checked none | .created | .scheduled | .downloaded _ none | .opened _ | .wrote .. |
    .counted _ | .handed .. | .replaced .. | .destroyed | .decompressed _ | .released => False

/-- The executor is done with all tasks of the download. -/
structure Assembly.Ended (s : Assembly) : Prop where
  downloader : ∃ fail, s.downloader = .ended fail
  scheduled : ∀ content, s.content = some content → s.tasks.length = content.numSegments
  tasks : ∀ t ∈ s.tasks, t.Over
  decompressors : ∀ d ∈ s.decompressors, ∀ f, d ≠ .run (.next f)

namespace DownloadJob

variable (J : DownloadJob) (service : Service)

/-- The steps of a download that make the executor give no task up. -/
def lossless : Machine Assembly AssemblyLabel :=
  (J.assemblyMachine service).restrict fun s a _ => ¬ s.GivesUp a

/-- The download has put a file at its path by one rename, or the tree there is as it was. -/
def FailureSafe (fs₀ : Files) (ls : List AssemblyLabel) (s : Assembly) : Prop :=
  (∃ f, renames ls = [some (.file f)] ∧ s.fs J.path = some (.file f)) ∨
    ∀ q, q = J.path ∨ J.path ++ "/".toList <+: q → s.fs q = fs₀ q

/-- What holds as long as no task is given up. -/
structure Going (ls : List AssemblyLabel) (s : Assembly) : Prop where
  waiting : s.content = none → ∃ f, s.downloader = .next f
  counted : ∀ num t, s.tasks[num]? = some t → t.Over → num ∈ countedSegments ls
  notFull : ∀ content, s.content = some content → finishes ls = [] → ¬ content.Full
  decompressed : ∀ d ∈ s.decompressors, (∀ f, d ≠ .run (.next f)) → renames ls ≠ []

variable {J service} {fs₀ : Files} {ls : List AssemblyLabel} {s : Assembly}

/-- An attempt that throws ends the loop over the attempts only by giving up. -/
theorem ended_of_some {f : Nat} {e : Thrown} {fail : Bool}
    (h : afterAttempt f (some e) = .ended fail) : afterAttempt f (some e) = .ended true := by
  cases fail with
  | true => exact h
  | false => exact absurd h (afterAttempt_some_ne f e)

/-- A segment that is counted stays so. -/
theorem mem_countedSegments_append {num : Nat} (a : AssemblyLabel) (h : num ∈ countedSegments ls) :
    num ∈ countedSegments (ls ++ [a]) := by
  rw [countedSegments_append]
  exact List.mem_append_left _ h

/-- If nothing is finished after a record, nothing was before, and the record finishes nothing. -/
theorem finishes_of_append {a : AssemblyLabel} (h : finishes (ls ++ [a]) = []) :
    finishes ls = [] ∧ a.finishes = none := by
  rw [finishes_append] at h
  obtain ⟨h₁, h₂⟩ := List.append_eq_nil_iff.1 h
  refine ⟨h₁, ?_⟩
  cases hf : a.finishes with
  | none => rfl
  | some x => rw [hf] at h₂; cases h₂

/-- A file that was renamed stays so. -/
theorem renames_append_ne_nil (a : AssemblyLabel) (h : renames ls ≠ []) :
    renames (ls ++ [a]) ≠ [] := by
  rw [renames_append]
  exact List.append_ne_nil_of_left_ne_nil h _

/-- What a step of a segment has to keep. -/
theorem Going.update (h : Going ls s) {num : Nat} {t : SegmentTask} (ht : s.tasks[num]? = some t)
    {v : Segment} {a : AssemblyLabel} (hover : v.task.Over → a.counts = some num)
    (hfull : a.finishes = none → finishes ls = [] → ¬ v.content.Full)
    (hds : v.decompressors = s.decompressors ∨
      ∃ f, v.decompressors = s.decompressors ++ [.run (.next f)]) :
    Going (ls ++ [a]) (withSegment s num v) where
  waiting hnone := by cases hnone
  counted k t' hk ho := by
    have hk : (s.tasks.set num v.task)[k]? = some t' := hk
    rw [getElem?_set_of_getElem? ht] at hk
    split at hk
    · next he =>
      cases hk
      rw [countedSegments_append, hover ho, he]
      exact List.mem_append_right _ (List.mem_singleton.2 rfl)
    · exact mem_countedSegments_append a (h.counted k t' hk ho)
  notFull content hc hfinishes := by
    cases hc
    obtain ⟨hls, ha⟩ := finishes_of_append hfinishes
    exact hfull ha hls
  decompressed d hd hne := by
    have hd : d ∈ v.decompressors := hd
    refine renames_append_ne_nil a (h.decompressed d ?_ hne)
    rcases hds with hds | ⟨f, hds⟩
    · rwa [hds] at hd
    · rw [hds] at hd
      exact (List.mem_append.1 hd).resolve_right fun he => hne f (List.mem_singleton.1 he)

/-- A job over a directory goes on over a step of a segment that does not give up. -/
theorem Going.segmentStep (h : Going ls s) {content : DownloadContent}
    (hmade : s.content = some content) {num : Nat} {t : SegmentTask} (ht : s.tasks[num]? = some t)
    {a : AssemblyLabel} {v : Segment} (hs : J.SegmentStep service num (segment s content t) a v)
    (hgives : ¬ s.GivesUp a) : Going (ls ++ [a]) (withSegment s num v) := by
  have hnot := h.notFull content hmade
  cases hs with
  | downloaded | opened | wrote =>
    exact h.update ht (fun ho => ho.elim) (fun _ => hnot) (.inl rfl)
  | @notDownloaded f e hv =>
    refine h.update ht (fun ho => ?_) (fun _ => hnot) (.inl rfl)
    have hv : t = .download (.next f) := hv
    dsimp only at ho
    cases ha : afterAttempt f (some e) with
    | next g =>
      rw [ha] at ho
      exact ho.elim
    | ended fail => exact absurd ⟨f, hv ▸ ht, ended_of_some ha⟩ hgives
  | notOpened | notWritten | notReplaced => exact absurd trivial hgives
  | counted hv hend hfull => exact h.update ht (fun _ => rfl) (fun _ _ => hfull) (.inl rfl)
  | handed => exact h.update ht (fun _ => rfl) (fun ha => by cases ha) (.inr ⟨0, rfl⟩)
  | replaced => exact h.update ht (fun _ => rfl) (fun ha => by cases ha) (.inl rfl)

/-- A step that leaves the segments. -/
theorem Going.keep (h : Going ls s) {u : Assembly} (a : AssemblyLabel)
    (hcontent : u.content = s.content) (htasks : u.tasks = s.tasks)
    (hdownloader : u.content = none → ∃ f, u.downloader = .next f)
    (hds : ∀ d ∈ u.decompressors, (∀ f, d ≠ .run (.next f)) → renames (ls ++ [a]) ≠ []) :
    Going (ls ++ [a]) u where
  waiting := hdownloader
  counted k t hk ho := mem_countedSegments_append a (h.counted k t (htasks ▸ hk) ho)
  notFull content hc hfinishes := h.notFull content (hcontent ▸ hc) (finishes_of_append hfinishes).1
  decompressed := hds

/-- An attempt at the first task that is not given up is made again. -/
theorem exists_next {f : Nat} {e : Thrown} (h : afterAttempt f (some e) ≠ .ended true) :
    ∃ g, afterAttempt f (some e) = .next g := by
  cases ha : afterAttempt f (some e) with
  | next g => exact ⟨g, rfl⟩
  | ended fail => exact absurd (ended_of_some ha) h

/-- A job over a directory goes on over every step that loses no task. -/
theorem Going.step (hdelete : J.deleteDir = true) (h : Going ls s) {a : AssemblyLabel} {u : Assembly}
    (hs : (J.lossless service).step s a u) : Going (ls ++ [a]) u := by
  obtain ⟨hgives, hs⟩ := hs
  have hold : ∀ d ∈ s.decompressors, (∀ f, d ≠ .run (.next f)) → renames (ls ++ [a]) ≠ [] :=
    fun d hd hne => renames_append_ne_nil a (h.decompressed d hd hne)
  cases hs with
  | unchanged _ _ hsame =>
    have hnone := clear_path_of_delete hdelete s.fs
    obtain ⟨hne, hzero, -⟩ := hsame
    rw [Files.sizeAndTime, hnone] at hzero
    exact absurd hzero hne
  | threw e hd | notCreated e hd =>
    exact h.keep _ rfl rfl (fun _ => exists_next fun he => hgives ⟨_, hd, he⟩) hold
  | @created f mod segNum _ _ _ _ _ _ _ _ _ hseg =>
    obtain ⟨n, hn⟩ := hseg.exists_eq
    refine ⟨fun hnone => ?_, fun k t hk ho => mem_countedSegments_append _ (h.counted k t hk ho),
      fun content hc _ hfull => ?_, hold⟩
    · cases hnone
    cases hc
    have hpos : 0 < segNum := by
      rw [(segmentNumber_eq_ok hn).2]
      exact partCount_pos ..
    exact absurd hfull (Nat.ne_of_lt hpos)
  | @scheduled content hmade =>
    refine ⟨fun hnone => ?_, fun k t hk ho => ?_, fun c hc hfinishes => ?_, hold⟩
    · cases hmade.symm.trans hnone
    · have hk : (s.tasks ++ [.download (.next 0)])[k]? = some t := hk
      rw [List.getElem?_append] at hk
      split at hk
      · exact mem_countedSegments_append _ (h.counted k t hk ho)
      · obtain ⟨-, rfl⟩ := eq_of_getElem?_singleton hk
        exact ho.elim
    · exact h.notFull c hc (finishes_of_append hfinishes).1
  | segment hmade ht hstep => exact h.segmentStep hmade ht hstep hgives
  | destroyed hmade =>
    exact h.keep _ rfl rfl (fun hnone => by cases hmade.symm.trans hnone) hold
  | decompressed _ hmade =>
    refine h.keep _ rfl rfl (fun hnone => by cases hmade.symm.trans hnone) fun _ _ _ => ?_
    rw [renames_append]
    exact List.append_ne_nil_of_right_ne_nil _ (List.cons_ne_nil _ _)
  | notDecompressed => exact absurd trivial hgives
  | @released content num fail hmade hd =>
    refine h.keep _ rfl rfl (fun hnone => by cases hmade.symm.trans hnone) fun d hd' hne => ?_
    rcases List.mem_or_eq_of_mem_set hd' with hd' | rfl
    · exact hold d hd' hne
    · exact hold _ (List.mem_of_getElem? hd) fun _ he => by cases he

/-- The first task does the same where the tree is gone. -/
theorem Step.of_clear (hmade : s.content = none) (hds : s.decompressors = []) {fs : Files}
    (hfs : J.clear s.fs = J.clear fs) {a : AssemblyLabel} {u : Assembly}
    (hs : J.Step service s a u) : J.Step service { s with fs := fs } a u := by
  cases hs with
  | unchanged hd hfound hsame =>
    rw [hfs] at hsame ⊢
    exact .unchanged hd hfound hsame
  | threw e hd =>
    rw [hfs]
    exact .threw e hd
  | notCreated e hd hne =>
    rw [hfs]
    exact .notCreated e hd hne
  | created sys hd hfound hchanged hseg hlocal hne hcreate hsize hupdate =>
    rw [hfs] at hchanged hcreate
    exact .created sys hd hfound hchanged hseg hlocal hne hcreate hsize hupdate
  | scheduled hmade' | segment hmade' | destroyed hmade' | decompressed _ hmade'
  | released hmade' => cases hmade.symm.trans hmade'
  | notDecompressed _ hd =>
    rw [hds] at hd
    cases hd

/-- Clearing the target twice is clearing it once. -/
theorem clear_clear (fs : Files) : J.clear (J.clear fs) = J.clear fs := by
  simp only [clear]
  split
  · funext q
    simp only [Files.removeAll]
    split <;> rfl
  · rfl

/-- A run that has begun is a run from the files without the tree. -/
theorem run_clear (hne : ls ≠ []) (h : (J.lossless service).Run (startAssembly fs₀) ls s) :
    (J.lossless service).Run (startAssembly (J.clear fs₀)) ls s := by
  cases ls with
  | nil => exact absurd rfl hne
  | cons a ls =>
    obtain ⟨t, ⟨hgives, hs⟩, hr⟩ := h.cons_inv
    exact .cons ⟨hgives, hs.of_clear rfl rfl (clear_clear fs₀).symm⟩ hr

/-- In every run that loses no task a job over a directory goes on. -/
theorem Going.of_run (hdelete : J.deleteDir = true)
    (h : (J.lossless service).Run (startAssembly fs₀) ls s) : Going ls s := by
  refine h.invariant ⟨fun _ => ⟨0, rfl⟩, fun num t ht => ?_, fun content hc => ?_, fun d hd => ?_⟩
    fun ls t a u ht hs => ht.step hdelete hs
  · cases ht
  · cases hc
  · cases hd

/-- While segments are downloaded and written, not all tasks have ended. -/
theorem Assembling.not_ended {content : DownloadContent} {held : Bytes}
    (h : J.Assembling service fs₀ ls s content held) (hgoing : Going ls s) : ¬ s.Ended := by
  intro hended
  have hlength := hended.scheduled content h.made
  refine hgoing.notFull content h.made h.finishes ?_
  have hall : content.numSegments ≤ (countedSegments ls).length := by
    refine le_length_of_forall_lt fun k hk => ?_
    rw [← hlength] at hk
    have ht := List.getElem?_eq_getElem hk
    exact hgoing.counted k _ ht (hended.tasks _ (List.mem_of_getElem? ht))
  have honce : (countedSegments ls).length ≤ content.numSegments := by
    refine length_le_of_nodup_lt h.nodup fun k hk => ?_
    obtain ⟨fail, data, ht, -⟩ := h.counted k hk
    rw [← hlength]
    exact (List.getElem?_eq_some_iff.1 ht).1
  exact h.count.trans (Nat.le_antisymm honce hall)

/-- A download with `delete_dir_` in which no task is given up puts the new file where the directory
was. -/
theorem replaces_directory (hdelete : J.deleteDir = true)
    (h : (J.lossless service).Run (startAssembly fs₀) ls s) (hended : s.Ended) :
    J.FailureSafe fs₀ ls s := by
  have hne : ls ≠ [] := by
    rintro rfl
    obtain rfl := h.eq_of_nil
    obtain ⟨fail, hd⟩ := hended.downloader
    cases hd
  have hnone := clear_path_of_delete hdelete fs₀
  have hrun := run_clear hne h
  have hgoing := Going.of_run hdelete hrun
  cases Progress.of_run (.inr hnone) hrun.of_restrict with
  | waiting hw =>
    obtain ⟨f, hf⟩ := hgoing.waiting hw.made
    obtain ⟨fail, hd⟩ := hended.downloader
    cases hf.symm.trans hd
  | assembling content held ha => exact absurd hended (ha.not_ended hgoing)
  | finished content object held hf =>
    cases hf.stage with
    | replaced _ _ hrenames hfile => exact .inl ⟨_, hrenames, hfile⟩
    | handed f _ _ hds =>
      have := hended.decompressors (.run (.next f)) (by rw [hds]; exact List.mem_singleton_self _) f
      exact absurd rfl this
    | ended d _ hds hover hfile =>
      have hrenames := hgoing.decompressed d (by rw [hds]; exact List.mem_singleton_self _) hover
      rcases hfile with ⟨hnil, -⟩ | ⟨f, hren, hf⟩
      · exact absurd hnil hrenames
      · exact .inl ⟨f, hren, hf⟩

/-! ## A directory in the place of one byte -/

/-- The download of one byte over a directory. -/
def overDirectory : DownloadJob := { oneByte with deleteDir := true }

/-- A directory with a file. -/
def directory : Files := fun q =>
  if q = oneByte.path then some .dir
  else if q = oneByte.path ++ "/a".toList then some (.file someFile) else none

/-- Once the target is cleared, a disk with a directory there is as one without it. -/
theorem clear_directory : overDirectory.clear noFiles = overDirectory.clear directory := by
  funext q
  show Files.removeAll noFiles oneByte.path q = Files.removeAll directory oneByte.path q
  simp only [Files.removeAll]
  split
  · rfl
  · next h =>
    rw [not_or] at h
    rw [directory, if_neg h.1, if_neg]
    · rfl
    · rintro rfl
      exact h.2 ⟨['a'], rfl⟩

/-- A download of one segment that has ended. -/
theorem ended_of_segment (fs : Files) {content : DownloadContent} (h : content.numSegments = 1)
    (data : Bytes) (destroyed : Bool) : Assembly.Ended
      ⟨fs, .ended false, some content, [.write (.ended false) data], [], destroyed⟩ where
  downloader := ⟨false, rfl⟩
  scheduled c hc := by
    cases hc
    exact h.symm
  tasks t ht := by
    rw [List.mem_singleton.1 ht]
    trivial
  decompressors d hd := by cases hd

/-- `replaces_directory` for the run that downloads the byte. -/
theorem replaces_directory_one : ∃ ls s,
    (overDirectory.assemblyMachine oneByteService).Run (startAssembly directory) ls s ∧
      renames ls = [some (.file ⟨[7], 5, 0o644⟩)] ∧ overDirectory.FailureSafe directory ls s := by
  have hcreated : overDirectory.Step oneByteService (startAssembly directory) .created
      (oneByteAssembly (oneByteFiles [0]) []) :=
    (oneByte_created true).of_clear rfl rfl clear_directory
  have hrun : (overDirectory.lossless oneByteService).Run (startAssembly directory)
      [.created, .scheduled, .downloaded 0 none, .opened 0, .wrote 0 0 [7],
        .replaced 0 (some [7]) (some (.file ⟨[7], 5, 0o644⟩))] _ :=
    .cons ⟨id, hcreated⟩ <|
    .cons ⟨id, Step.scheduled rfl Nat.zero_lt_one⟩ <|
    .cons ⟨id, Step.segment rfl rfl (oneByte_downloaded true)⟩ <|
    .cons ⟨id, Step.segment rfl rfl (SegmentStep.opened rfl rfl)⟩ <|
    .cons ⟨id, Step.segment rfl rfl (oneByte_wrote true)⟩ <|
    .single ⟨id, Step.segment rfl rfl (oneByte_replaced true)⟩
  exact ⟨_, _, hrun.of_restrict, rfl, replaces_directory rfl hrun (ended_of_segment _ rfl _ _)⟩

/-- A failed request for the headers loses the directory. -/
theorem tree_not_kept : ¬ ∀ (J : DownloadJob) (service : Service) (fs₀ : Files)
    (ls : List AssemblyLabel) (s : Assembly), J.deleteDir = true → fs₀ J.path = some .dir →
      (J.assemblyMachine service).Run (startAssembly fs₀) ls s → s.Ended →
      J.FailureSafe fs₀ ls s := by
  intro h
  have hrun : (overDirectory.assemblyMachine oneByteService).Run (startAssembly directory)
      [.checked (some .other)] _ := .single (Step.threw .other rfl)
  have hended : Assembly.Ended { startAssembly directory with
      fs := overDirectory.clear directory, downloader := afterAttempt 0 (some .other) } := by
    refine ⟨⟨true, rfl⟩, fun content hc => ?_, fun t ht => ?_, fun d hd => ?_⟩
    · cases hc
    · cases ht
    · cases hd
  rcases h overDirectory oneByteService directory _ _ rfl rfl hrun hended with ⟨f, hf, -⟩ | hkeep
  · cases hf
  · cases hkeep overDirectory.path (.inl rfl)

end DownloadJob

end ExtremeS3
