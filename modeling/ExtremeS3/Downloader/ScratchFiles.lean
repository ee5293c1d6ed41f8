import ExtremeS3.Compressor.Decoder
import ExtremeS3.Downloader.ShadowedDirectory

/-!
# The temporary files of a download

The temporary file of a download belongs to the `download_content`, whose destructor unlinks it, until
it is handed to a `file_decompressor`, whose destructor does. `ScratchStep` names the temporary files
that the steps of a download create: this one, and the output of each `file_decompressor`, which a guard
unlinks however the decompression ends. Whatever fails and in whatever order the tasks run, the first has
an owner or is gone, and the others are gone (`Tracked`).
-/

namespace ExtremeS3

/-- What happens in a step of a download, with the name of a temporary file that it creates. -/
inductive ScratchLabel where
  | created (localFile : Str)
  | decompressor (tmp : Str) (r : Option Thrown)
  | task (a : AssemblyLabel)

/-- The step creates a temporary file, or may have. -/
def AssemblyLabel.Creates : AssemblyLabel → Prop
  | .created | .decompressed _ | .notDecompressed _ => True
  | .checked _ | .scheduled | .downloaded .. | .opened _ | .wrote .. | .notWritten .. | .counted _ |
    .handed .. | .replaced .. | .notReplaced .. | .destroyed | .released => False

/-- The temporary file that a step of a download creates. -/
def ScratchLabel.creates : ScratchLabel → Option Str
  | .created tmp | .decompressor tmp _ => some tmp
  | .task _ => none

/-- The temporary files that were created. -/
def scratchNames (ls : List ScratchLabel) : List Str := ls.filterMap ScratchLabel.creates

/-- All tasks of the download have ended and are destroyed. -/
structure Assembly.Over (s : Assembly) : Prop extends s.Ended where
  destroyed : s.content ≠ none → s.destroyed = true
  released : ∀ d ∈ s.decompressors, d = .deleted

namespace DownloadJob

variable (J : DownloadJob) (service : Service)

/-- The steps of a download, and what a `file_decompressor` that throws leaves. -/
inductive ScratchStep : Assembly → ScratchLabel → Assembly → Prop
  | created {s u : Assembly} {content : DownloadContent} :
    J.Step service s .created u → u.content = some content →
    ScratchStep s (.created content.localFile) u
  | decompressed {s : Assembly} {content : DownloadContent} {num f : Nat} {random : Str}
    {fs : Files} (sys : Sys) :
    s.content = some content → s.decompressors[num]? = some (.run (.next f)) →
    s.fs (content.targetFile ++ '-' :: random) = none →
    (fileDecompressor J.zlib sys s.fs content.localFile content.targetFile
      (content.targetFile ++ '-' :: random) content.mtime content.mode).Evals (.ok fs) →
    ScratchStep s (.decompressor (content.targetFile ++ '-' :: random) none)
      { s with fs := fs, decompressors := s.decompressors.set num (.run (afterAttempt f none)) }
  -- it throws before its temporary file is created, or after
  | notDecompressed {s : Assembly} {content : DownloadContent} {num f : Nat} {random : Str}
    {fs : Files} (sys : Sys) (e : Thrown) :
    s.content = some content → s.decompressors[num]? = some (.run (.next f)) → e.retried = false →
    s.fs (content.targetFile ++ '-' :: random) = none →
    fs = s.fs ∨ DecompressorLeaves sys s.fs content.localFile
      (content.targetFile ++ '-' :: random) fs →
    ScratchStep s (.decompressor (content.targetFile ++ '-' :: random) (some e))
      { s with fs := fs, decompressors := s.decompressors.set num (.run (afterAttempt f (some e))) }
  | task {s u : Assembly} {a : AssemblyLabel} :
    J.Step service s a u → ¬ a.Creates → ScratchStep s (.task a) u

/-- The runs of a download with the names of its temporary files. -/
def scratchMachine : Machine Assembly ScratchLabel where
  init s := ∃ fs, s = startAssembly fs
  step := J.ScratchStep service

variable {J service} {s u : Assembly} {r : Str}

/-- Each step is one of the download. -/
theorem ScratchStep.exists_step {l : ScratchLabel} (hs : J.ScratchStep service s l u) :
    ∃ a, J.Step service s a u := by
  cases hs with
  | created hs => exact ⟨_, hs⟩
  | decompressed sys hmade hd htmp hrun => exact ⟨_, .decompressed sys hmade hd htmp hrun⟩
  | @notDecompressed content num f random fs sys e hmade hd he htmp hleaves =>
    obtain rfl : fs = s.fs := hleaves.elim id fun h => h.eq htmp
    exact ⟨_, .notDecompressed e hd he⟩
  | task hs => exact ⟨_, hs⟩

/-- Each run is one of the download. -/
theorem exists_run {ls : List ScratchLabel} (h : (J.scratchMachine service).Run s ls u) :
    ∃ ks, (J.assemblyMachine service).Run s ks u := by
  induction h with
  | nil => exact ⟨[], .nil⟩
  | snoc _ hs ih =>
    obtain ⟨ks, hks⟩ := ih
    obtain ⟨a, ha⟩ := hs.exists_step
    exact ⟨ks ++ [a], hks.snoc ha⟩

end DownloadJob

/-! ## Owners -/

/-- Neither a directory nor a file is made at the path. -/
def Files.NotMade (fs fs' : Files) (r : Str) : Prop :=
  (fs r ≠ some .dir → fs' r ≠ some .dir) ∧ (fs r = none → fs' r = none)

namespace Files

variable {fs fs' : Files} {r : Str}

/-- A file that stays as it is is not made. -/
theorem notMade_of_eq (h : fs' r = fs r) : fs.NotMade fs' r :=
  ⟨fun hdir => h ▸ hdir, h.trans⟩

/-- A file that is not there afterwards is not made. -/
theorem notMade_of_none (h : fs' r = none) : fs.NotMade fs' r :=
  ⟨fun _ => ne_dir_of_none h, fun _ => h⟩

/-- Writing a file that is there makes none. -/
theorem notMade_set {path : Str} {d : FileData} (h : fs path = some (.file d)) (f : FileData)
    (r : Str) : fs.NotMade (fs.set path (some (.file f))) r := by
  by_cases hr : r = path
  · subst hr
    exact ⟨fun _ => set_file_ne_dir _ _ _, (fun hnone => by cases h.symm.trans hnone)⟩
  · exact notMade_of_eq (set_of_ne hr)

/-- Setting times and mode makes no file. -/
theorem notMade_touch (fs : Files) (path : Str) (mtime : Int64) (mode : Nat) (r : Str) :
    fs.NotMade (fs.touch path mtime mode) r := by
  rcases hp : fs path with _ | f | _
  · rw [touch, hp]
    exact notMade_of_eq rfl
  · rw [touch, hp]
    exact notMade_set hp _ r
  · rw [touch, hp]
    exact notMade_of_eq rfl

/-- Removing a file makes none. -/
theorem notMade_unlink (fs : Files) (path r : Str) : fs.NotMade (fs.unlink path) r := by
  by_cases hr : r = path
  · subst hr
    exact ⟨fun hdir => ne_dir_of_none (unlink_self hdir), fun hnone => unlink_eq_none hnone _⟩
  · exact notMade_of_eq (unlink_of_ne _ hr)

/-- Two steps that do not make a file do not make it together. -/
theorem NotMade.trans {fs'' : Files} (h : fs.NotMade fs' r) (h' : fs'.NotMade fs'' r) :
    fs.NotMade fs'' r :=
  ⟨fun hdir => h'.1 (h.1 hdir), fun hnone => h'.2 (h.2 hnone)⟩

end Files

/-- A destructor will unlink the temporary file: that of the content, or of a `file_decompressor`. -/
structure Assembly.Owned (s : Assembly) (r : Str) (content : DownloadContent) : Prop where
  made : s.content = some content
  localFile : content.localFile = r
  owner : (content.deleteTempFile = true ∧ s.destroyed = false) ∨ ∃ d ∈ s.decompressors, d ≠ .deleted

namespace DownloadJob

/-- A temporary file has an owner or is gone. -/
structure Tracked (J : DownloadJob) (s : Assembly) (r : Str) : Prop where
  ne_path : r ≠ J.path
  not_dir : s.fs r ≠ some .dir
  owned : (∃ content, s.Owned r content) ∨ s.fs r = none

/-- How a download stands after any steps. -/
structure Sound (J : DownloadJob) (s : Assembly) : Prop where
  downloader : ∀ f, s.downloader = .next f → s.content = none
  made : s.content = none → s.decompressors = [] ∧ s.destroyed = false
  targetFile : ∀ content, s.content = some content → content.targetFile = J.path
  localFile : ∀ content, s.content = some content → content.localFile ≠ J.path
  handed : ∀ content, s.content = some content → content.deleteTempFile = true →
    s.decompressors = []

variable {J : DownloadJob} {service : Service} {s u : Assembly} {r : Str}

/-- A path with a suffix is another path. -/
theorem ne_append_cons (path random : Str) : path ++ '-' :: random ≠ path := by
  intro he
  cases List.append_right_eq_self.1 he

/-- A name that is not the target and has no file is tracked. -/
theorem Tracked.of_none (hne : r ≠ J.path) (h : s.fs r = none) : J.Tracked s r :=
  ⟨hne, Files.ne_dir_of_none h, .inr h⟩

/-- What a step has to keep of a temporary file. -/
theorem Tracked.keep (h : J.Tracked s r) (hfs : s.fs.NotMade u.fs r)
    (howned : ∀ content, s.Owned r content → (∃ content, u.Owned r content) ∨ u.fs r = none) :
    J.Tracked u r where
  ne_path := h.ne_path
  not_dir := hfs.1 h.not_dir
  owned := by
    rcases h.owned with ⟨content, ho⟩ | hr
    · exact howned content ho
    · exact .inr (hfs.2 hr)

/-- Clearing the target makes no file. -/
theorem notMade_clear (fs : Files) (r : Str) : fs.NotMade (J.clear fs) r := by
  rw [clear]
  split
  · by_cases hr : r = J.path ∨ J.path ++ "/".toList <+: r
    · exact Files.notMade_of_none (if_pos hr)
    · exact Files.notMade_of_eq (if_neg hr)
  · exact Files.notMade_of_eq rfl

/-- What a task of a segment changes of the content, and that the content has the temporary file to
itself unless it hands it on. -/
theorem SegmentStep.content_eq {num : Nat} {v w : Segment} {a : AssemblyLabel}
    (hs : J.SegmentStep service num v a w) :
    w.content.localFile = v.content.localFile ∧ w.content.targetFile = v.content.targetFile ∧
      ((w.content.deleteTempFile = v.content.deleteTempFile ∧ w.decompressors = v.decompressors) ∨
        (w.content.deleteTempFile = false ∧
          w.decompressors = v.decompressors ++ [.run (.next 0)])) := by
  cases hs with
  | handed => exact ⟨rfl, rfl, .inr ⟨rfl, rfl⟩⟩
  | _ => exact ⟨rfl, rfl, .inl ⟨rfl, rfl⟩⟩

/-- It makes nothing but the target. -/
theorem SegmentStep.notMade {num : Nat} {v w : Segment} {a : AssemblyLabel}
    (hs : J.SegmentStep service num v a w) (hne : r ≠ v.content.targetFile) :
    v.fs.NotMade w.fs r := by
  cases hs with
  | wrote sys hv hwrite =>
    obtain ⟨n, hn⟩ := hwrite.exists_eq
    obtain ⟨-, -, -, d, mtime, hd, rfl⟩ := writeChunk_eq_ok hn
    exact Files.notMade_set hd _ r
  | replaced hv hend hfull hplain hrun =>
    obtain ⟨n, hn⟩ := hrun.exists_eq
    obtain ⟨f, -, rfl⟩ := DownloadContent.replaceTarget_eq_ok hn
    have hset : ∀ node, Files.set (v.fs.set v.content.count.localFile none) v.content.count.targetFile
        node r = v.fs.set v.content.count.localFile none r := fun node => Files.set_of_ne hne
    by_cases hr : r = v.content.count.localFile
    · refine Files.notMade_of_none ((hset _).trans ?_)
      rw [hr, Files.set_self]
    · exact Files.notMade_of_eq ((hset _).trans (Files.set_of_ne hr))
  | notReplaced e mtime mode hv hend hfull hplain he hfs =>
    rcases hfs with rfl | rfl
    · exact Files.notMade_of_eq rfl
    · exact Files.notMade_touch ..
  | _ => exact Files.notMade_of_eq rfl

/-- The job is sound before its first step. -/
theorem sound_start (fs : Files) : J.Sound (startAssembly fs) where
  downloader _ _ := rfl
  made _ := ⟨rfl, rfl⟩
  targetFile content hc := by cases hc
  localFile content hc := by cases hc
  handed content hc := by cases hc

/-- A step of a `file_decompressor`. -/
theorem Sound.decompressor (h : J.Sound s) {num : Nat} {d : DecompressTask}
    (hd : s.decompressors[num]? = some d) (fs : Files) (d' : DecompressTask) :
    J.Sound { s with fs := fs, decompressors := s.decompressors.set num d' } := by
  have hne : s.decompressors ≠ [] := by
    intro he
    rw [he] at hd
    cases hd
  exact ⟨h.downloader, fun hc => absurd (h.made hc).1 hne, h.targetFile, h.localFile,
    fun content hc hdelete => absurd (h.handed content hc hdelete) hne⟩

/-- Every step leaves the job sound. -/
theorem Step.sound {a : AssemblyLabel} (hs : J.Step service s a u) (h : J.Sound s) : J.Sound u := by
  cases hs with
  | unchanged hd => exact ⟨(fun f hf => by cases hf), h.made, h.targetFile, h.localFile, h.handed⟩
  | threw _ hd | notCreated _ hd =>
    exact ⟨fun f _ => h.downloader _ hd, h.made, h.targetFile, h.localFile, h.handed⟩
  | created _ hd _ _ _ _ hne =>
    obtain ⟨hds, -⟩ := h.made (h.downloader _ hd)
    refine ⟨(fun f hf => by cases hf), (fun hc => by cases hc), fun content hc => ?_,
      fun content hc => ?_, fun _ _ _ => hds⟩
    · cases hc
      rfl
    · cases hc
      exact hne
  | scheduled => exact ⟨h.downloader, h.made, h.targetFile, h.localFile, h.handed⟩
  | destroyed hmade =>
    exact ⟨h.downloader, (fun hc => by cases hmade.symm.trans hc), h.targetFile, h.localFile,
      h.handed⟩
  | @segment content task num _ v hmade ht hstep =>
    obtain ⟨hlocal, htarget, howner⟩ := hstep.content_eq
    refine ⟨fun f hf => ?_, (fun hc => by cases hc), fun content' hc => ?_,
      fun content' hc => ?_, fun content' hc hdelete => ?_⟩
    · cases (h.downloader f hf).symm.trans hmade
    · cases hc
      exact htarget.trans (h.targetFile content hmade)
    · cases hc
      exact hlocal ▸ h.localFile content hmade
    · cases hc
      rcases howner with ⟨hd, hds⟩ | ⟨hd, -⟩
      · exact hds.trans (h.handed content hmade (hd ▸ hdelete))
      · cases hd.symm.trans hdelete
  | decompressed _ _ hd | notDecompressed _ hd | released _ hd => exact h.decompressor hd _ _

/-- The decompressor goes on, and is not past its destructor. -/
theorem Tracked.decompressor (h : J.Tracked s r) {num : Nat} {d : DecompressTask}
    (hd : s.decompressors[num]? = some d) {fs : Files} (hfs : s.fs.NotMade fs r) (a : Attempts) :
    J.Tracked { s with fs := fs, decompressors := s.decompressors.set num (.run a) } r := by
  refine h.keep hfs fun content ho => .inl ⟨content, ho.made, ho.localFile, ?_⟩
  have hrun : DecompressTask.run a ∈ s.decompressors.set num (.run a) :=
    List.mem_set (List.getElem?_eq_some_iff.1 hd).1 _
  exact .inr ⟨_, hrun, fun h => by cases h⟩

/-- A scratch file that is tracked before a step is tracked after it. -/
theorem Step.tracked {a : AssemblyLabel} (hs : J.Step service s a u) (hsound : J.Sound s)
    (h : J.Tracked s r) : J.Tracked u r := by
  have hnone : ∀ {f : Nat}, s.downloader = .next f → ∀ content, s.content ≠ some content :=
    fun hd content hc => by cases (hsound.downloader _ hd).symm.trans hc
  cases hs with
  | unchanged hd | threw _ hd =>
    exact h.keep (notMade_clear ..) fun content ho => absurd ho.made (hnone hd content)
  | notCreated _ hd =>
    refine h.keep ?_ fun content ho => absurd ho.made (hnone hd content)
    exact (notMade_clear ..).trans (Files.notMade_unlink ..)
  | @created f mod segNum size random localFile fs fs' sys hd _ _ _ _ hne hcreate _ hupdate =>
    obtain ⟨n, hn⟩ := hcreate.exists_eq
    obtain ⟨_, -, rfl⟩ := Files.unlink_create_eq_ok hn
    obtain ⟨n, hn⟩ := hupdate.exists_eq
    obtain ⟨_, -, rfl⟩ := Files.update_eq_ok hn
    by_cases hr : r = localFile
    · refine ⟨h.ne_path, ?_, .inl ⟨_, rfl, hr.symm, .inl ⟨rfl, ?_⟩⟩⟩
      · rw [hr]
        exact Files.set_file_ne_dir _ _ _
      · exact (hsound.made (hsound.downloader _ hd)).2
    · refine h.keep ?_ fun content ho => absurd ho.made (hnone hd content)
      refine (notMade_clear (J := J) ..).trans (Files.notMade_of_eq ?_)
      show Files.set (Files.set _ localFile _) localFile _ r = _
      rw [Files.set_set, Files.set_of_ne hr]
  | scheduled hmade hlt =>
    exact h.keep (Files.notMade_of_eq rfl) fun content ho => .inl ⟨content, ho.made, ho.localFile,
      ho.owner⟩
  | @segment content task num _ v hmade ht hstep =>
    have hne : r ≠ content.targetFile := hsound.targetFile content hmade ▸ h.ne_path
    obtain ⟨hlocal, htarget, howner⟩ := hstep.content_eq
    refine h.keep (hstep.notMade hne) fun content' ho => .inl ⟨v.content, rfl, ?_, ?_⟩
    · cases ho.made.symm.trans hmade
      exact hlocal.trans ho.localFile
    · cases ho.made.symm.trans hmade
      rcases howner with ⟨hd, hds⟩ | ⟨-, hds⟩
      · refine ho.owner.imp (fun hc => ⟨hd.trans hc.1, hc.2⟩) fun hlive => ?_
        show ∃ d ∈ v.decompressors, d ≠ .deleted
        rwa [hds]
      · refine .inr ⟨.run (.next 0), ?_, (fun h => by cases h)⟩
        show _ ∈ v.decompressors
        rw [hds]
        exact List.mem_append_right _ (List.mem_singleton.2 rfl)
  | @destroyed content hmade hlength hover hdestroyed =>
    have hne : content.localFile ≠ content.targetFile := by
      rw [hsound.targetFile content hmade]
      exact hsound.localFile content hmade
    cases hdelete : content.deleteTempFile with
    | true =>
      have hunlink : content.destroy s.fs = s.fs.unlink content.localFile :=
        if_pos ⟨hne, hdelete⟩
      refine h.keep ?_ fun content' ho => .inr ?_
      · show s.fs.NotMade (content.destroy s.fs) r
        rw [hunlink]
        exact Files.notMade_unlink ..
      · cases ho.made.symm.trans hmade
        show content.destroy s.fs r = none
        rw [hunlink, ho.localFile]
        exact Files.unlink_self h.not_dir
    | false =>
      have hkeep := DownloadContent.destroy_of_not_deleted hdelete s.fs
      refine h.keep (Files.notMade_of_eq (congrFun hkeep r)) fun content' ho =>
        .inl ⟨content', ho.made, ho.localFile, .inr ?_⟩
      cases ho.made.symm.trans hmade
      refine ho.owner.resolve_left fun hc => ?_
      cases hdelete.symm.trans hc.1
  | @decompressed content num f random fs sys hmade hd htmp hrun =>
    obtain ⟨n, hn⟩ := hrun.exists_eq
    obtain ⟨hgone, hsame⟩ := fileDecompressor_leaves (ne_append_cons _ random).symm hn
    refine h.decompressor hd ?_ _
    by_cases hr : r = content.targetFile ++ '-' :: random
    · exact Files.notMade_of_none (hr ▸ hgone)
    · exact Files.notMade_of_eq (hsame r (hsound.targetFile content hmade ▸ h.ne_path) hr)
  | notDecompressed e hd => exact h.decompressor hd (Files.notMade_of_eq rfl) _
  | released hmade hd =>
    refine h.keep (Files.notMade_unlink ..) fun content ho => .inr ?_
    cases ho.made.symm.trans hmade
    rw [ho.localFile]
    exact Files.unlink_self h.not_dir

/-- The temporary file of the download belongs to its content. -/
theorem Step.tracked_localFile (hs : J.Step service s .created u) (hsound : J.Sound s)
    {content : DownloadContent} (hmade : u.content = some content) :
    J.Tracked u content.localFile := by
  cases hs with
  | @created f mod segNum size random localFile fs fs' sys hd _ _ _ _ hne hcreate _ hupdate =>
    cases hmade
    obtain ⟨n, hn⟩ := hupdate.exists_eq
    obtain ⟨_, -, rfl⟩ := Files.update_eq_ok hn
    exact ⟨hne, Files.set_file_ne_dir _ _ _,
      .inl ⟨_, rfl, rfl, .inl ⟨rfl, (hsound.made (hsound.downloader _ hd)).2⟩⟩⟩
  | segment _ _ hstep => cases hstep

/-- The scratch file that a step creates is tracked. -/
theorem ScratchStep.tracked_created {l : ScratchLabel} (hs : J.ScratchStep service s l u)
    (hsound : J.Sound s) (hr : l.creates = some r) : J.Tracked u r := by
  cases hs with
  | created hs hmade =>
    cases hr
    exact hs.tracked_localFile hsound hmade
  | @decompressed content num f random fs sys hmade hd htmp hrun =>
    cases hr
    obtain ⟨n, hn⟩ := hrun.exists_eq
    exact .of_none (hsound.targetFile content hmade ▸ ne_append_cons _ random)
      (fileDecompressor_leaves (ne_append_cons _ random).symm hn).1
  | @notDecompressed content num f random fs sys e hmade hd he htmp hleaves =>
    cases hr
    obtain rfl : fs = s.fs := hleaves.elim id fun h => h.eq htmp
    exact .of_none (hsound.targetFile content hmade ▸ ne_append_cons _ random) htmp
  | task => cases hr

/-- In every run, every temporary file has an owner or is gone. -/
theorem tracked_of_run {fs₀ : Files} {ls : List ScratchLabel}
    (h : (J.scratchMachine service).Run (startAssembly fs₀) ls s) :
    ∀ r ∈ scratchNames ls, J.Tracked s r := by
  refine h.forall_created (sound_start (J := J) fs₀) fun t l u ht hs => ?_
  obtain ⟨a, hstep⟩ := hs.exists_step
  exact ⟨hstep.sound ht, fun r hr => hs.tracked_created ht hr, fun r hr => hstep.tracked ht hr⟩

/-- They are gone when all tasks have ended and are destroyed. -/
theorem scratchNames_gone {fs₀ : Files} {ls : List ScratchLabel}
    (h : (J.scratchMachine service).Run (startAssembly fs₀) ls s) (hover : s.Over) :
    ∀ r ∈ scratchNames ls, s.fs r = none := by
  intro r hr
  rcases (tracked_of_run h r hr).owned with ⟨content, hmade, -, ⟨-, hd⟩ | ⟨d, hmem, hne⟩⟩ | hnone
  · have hdestroyed := hover.destroyed fun hc => by cases hc.symm.trans hmade
    cases hd.symm.trans hdestroyed
  · exact absurd (hover.released d hmem) hne
  · exact hnone

end DownloadJob

end ExtremeS3
