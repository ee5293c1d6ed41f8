import ExtremeS3.Downloader.Download

/-!
# A download completes

A download passes through phases as an upload does. In the phase of the segments every segment
belongs to just one task that is left, or is written (`Downloading.Segments`). Each task keeps its
phase or begins the next one, so in whatever order the tasks run, in the end there is the file that
the object was uploaded from, and nothing else has changed (`download_completes`). What one task
does to the phase is a lemma for each kind of task (`Downloading.runFileDownloader_spec`,
`Downloading.Segments.downloadSegment`, `Downloading.Segments.writeSegment`,
`Downloading.Temporary.fileDecompressor`).
-/

namespace ExtremeS3

/-- The segments that a task downloads or writes. -/
def DownloadTask.segments : DownloadTask → List Nat
  | .downloadSegment k | .writeSegment k _ => [k]
  | .fileDownloader | .fileDecompressor => []

/-- The number of tasks that may come of a task, with itself. -/
def DownloadTask.weight : DownloadTask → Nat
  | .fileDecompressor => 1
  | .writeSegment .. => 2
  | .downloadSegment _ => 3
  | .fileDownloader => 3 * maxSegments + 1

/-- The number of tasks that may come of the tasks that are left. -/
def downloadWeight (ts : List DownloadTask) : Nat := (ts.map DownloadTask.weight).sum

@[simp] theorem downloadWeight_cons (t : DownloadTask) (ts : List DownloadTask) :
    downloadWeight (t :: ts) = t.weight + downloadWeight ts := by
  simp [downloadWeight]

@[simp] theorem downloadWeight_nil : downloadWeight [] = 0 := rfl

section

variable (J : DownloadJob) (object : Object) (f : FileData) (fs₀ : Files)

/-- A task of the second phase. -/
def DownloadTask.Segment : DownloadTask → Prop
  | .downloadSegment _ => True
  | .writeSegment k data => data = slice J.segmentSize k object.data
  | .fileDownloader | .fileDecompressor => False

/-- There are the files of the start and a temporary file. -/
structure Downloading.Temporary (s : Downloading) (compressed : Bool) (read : Nat) (del : Bool)
    (data : Bytes) : Prop where
  stored : s.service.objects J.remote = some object
  holds : if compressed then ∃ n, J.zlib.Inflating n J.zlib.inflateInit object.data f.data
    else object.data = f.data
  content : s.content = ⟨f.mtime, f.mode, partCount J.segmentSize object.data.length, read,
    object.data.length, s.content.localFile, J.path, del, compressed⟩
  free : fs₀ s.content.localFile = none
  ne_path : s.content.localFile ≠ J.path
  path : fs₀ J.path = none
  fs : ∃ mtime mode, s.fs = fs₀.set s.content.localFile (some (.file ⟨data, mtime, mode⟩))

/-- The tasks `ts` are left to download and write segments; the segments in `done` are written. -/
structure Downloading.Segments (s : Downloading) (compressed : Bool) (done : List Nat)
    (data : Bytes) (ts : List DownloadTask) : Prop where
  temporary : s.Temporary J object f fs₀ compressed done.length true data
  slices : HasSlices J.segmentSize object.data done data
  cover : (ts.flatMap DownloadTask.segments ++ done).Perm
    (List.range (partCount J.segmentSize object.data.length))
  tasks : ∀ t ∈ ts, t.Segment J object

/-- Where a download stands. -/
inductive Downloading.Phase : Downloading → List DownloadTask → Prop
  | start {s} : J.clear s.fs = fs₀ → s.fs J.path = none →
      s.service.objects J.remote = some object → Phase s [.fileDownloader]
  | segments {s ts} (compressed done data) : s.Segments J object f fs₀ compressed done data ts →
      ts ≠ [] → Phase s ts
  | decompressor {s} (read) : s.Temporary J object f fs₀ true read false object.data →
      Phase s [.fileDecompressor]
  | finished {s} : s.fs = fs₀.set J.path (some (.file f)) → Phase s []

end

variable {J : DownloadJob} {object : Object} {f : FileData} {fs₀ : Files}

/-- A task of a segment has a segment to fetch or to write. -/
theorem DownloadTask.Segment.segments_ne_nil {t : DownloadTask} (h : t.Segment J object) :
    t.segments ≠ [] := by
  cases t with
  | downloadSegment k | writeSegment k data => exact List.cons_ne_nil _ _
  | fileDownloader | fileDecompressor => exact h.elim

/-- The first task leaves the downloads of the segments. -/
theorem Downloading.runFileDownloader_spec (hJ : J.Ok object f) (hfrom : object.From J.zlib f)
    {s : Downloading} {o : DownloadAnswer} (hclear : J.clear s.fs = fs₀)
    (hpath : s.fs J.path = none) (hobject : s.service.objects J.remote = some object)
    (ho : J.tasks.answers s .fileDownloader o) :
    ∃ s' new, (J.runFileDownloader s o).Evals (.ok (s', new)) ∧ s'.Phase J object f fs₀ new ∧
      downloadWeight new < DownloadTask.weight .fileDownloader := by
  obtain ⟨hhead, hrandom⟩ := ho
  obtain ⟨compressed, mime, hheaders, hdata⟩ := hfrom
  have hnone : ∀ q, s.fs q = none → fs₀ q = none := fun q hq => hclear ▸ J.clear_of_none hq
  obtain ⟨hfree, hne⟩ := hrandom compressed
  rw [Service.AnswersHead, hobject] at hhead
  have hgives : GivesHeaders
      (storedHeaders compressed mime f.mtime f.data.length f.mode object.data.length) o.lines := by
    have := hhead.2
    rwa [Object.answered, hheaders] at this
  have hmod := findMtimeAndSize_of_gives hgives hhead.1 hJ.size hJ.mode hJ.remoteSize
  set tmp := temporaryName J.scratchDir J.path compressed o.random with htmp
  set n := partCount J.segmentSize object.data.length with hn
  have hsame : ¬ J.Unchanged (J.clear s.fs) (findMtimeAndSize o.code o.lines) := by
    intro h
    have htime : (findMtimeAndSize o.code o.lines).mtime = 0 := by
      rw [h.2.1, Files.sizeAndTime, hclear, hnone _ hpath]
    exact h.1 htime
  have hfits : (findMtimeAndSize o.code o.lines).remoteSize ≤ maxSegments * J.segmentSize := by
    rw [hmod]
    exact hJ.fits
  have htemp : J.temporaryFor o = tmp := by rw [DownloadJob.temporaryFor, hmod]
  have hdir : J.clear s.fs (J.temporaryFor o) ≠ some .dir := by
    rw [htemp, hclear]
    exact Files.ne_dir_of_none (hnone tmp hfree)
  have hrun := DownloadJob.runFileDownloader_plans hhead.1 hsame hJ.segmentSize_pos hfits hdir
  rw [htemp, hclear, hmod] at hrun
  refine ⟨_, _, hrun, .segments compressed []
      (List.replicate object.data.length 0) ⟨⟨hobject, hdata, rfl, hnone tmp hfree, hne,
        hnone _ hpath, _, _, rfl⟩, ⟨List.length_replicate, by simp⟩, ?_, ?_⟩ ?_, ?_⟩
  · rw [List.flatMap_map, List.append_nil]
    exact .of_eq (List.flatMap_singleton' _)
  · intro t ht
    obtain ⟨k, -, rfl⟩ := List.mem_map.1 ht
    trivial
  · have := partCount_pos J.segmentSize object.data.length
    simp only [ne_eq, List.map_eq_nil_iff, List.range_eq_nil]
    omega
  · have hle : n ≤ maxSegments := partCount_le (by decide) hJ.segmentSize_pos hJ.fits
    have : downloadWeight ((List.range n).map .downloadSegment) = 3 * n := by
      simp [downloadWeight, Function.comp_def, DownloadTask.weight, Nat.mul_comm]
    rw [this, DownloadTask.weight]
    omega

/-- A segment is downloaded, and left to be written. -/
theorem Downloading.Segments.downloadSegment (hJ : J.Ok object f) {s : Downloading}
    {compressed : Bool} {done : List Nat} {data : Bytes} {before after : List DownloadTask} {k : Nat}
    (h : s.Segments J object f fs₀ compressed done data (before ++ .downloadSegment k :: after)) :
    ∃ new, (J.runDownloadSegment s k).Evals (.ok (s, [new])) ∧ new.weight = 2 ∧
      s.Segments J object f fs₀ compressed done data (before ++ after ++ [new]) := by
  have hk : k < partCount J.segmentSize object.data.length := by
    rw [← List.mem_range, ← h.cover.mem_iff]
    simp [DownloadTask.segments]
  have hle : k * J.segmentSize ≤ object.data.length := by
    rcases (lt_partCount_iff hJ.segmentSize_pos).1 hk with rfl | hlt
    · omega
    · omega
  have hsize : s.content.size J.segmentSize k =
      min J.segmentSize (object.data.length - k * J.segmentSize) := by
    rw [DownloadContent.size_eq, h.temporary.content]
  have hzero : s.content.size J.segmentSize k = 0 → object.data = [] := fun h0 => by
    rw [hsize] at h0
    have := hJ.segmentSize_pos
    rcases (lt_partCount_iff hJ.segmentSize_pos).1 hk with rfl | hlt
    · exact List.length_eq_zero_iff.1 (by omega)
    · omega
  have hdownload := Service.evals_downloadData h.temporary.stored
    (J.segmentSize * k) (s.content.size J.segmentSize k)
    (by rw [hsize, Nat.mul_comm]; omega) hzero
  have hslice : (object.data.drop (J.segmentSize * k)).take (s.content.size J.segmentSize k) =
      slice J.segmentSize k object.data := by
    rw [slice, Nat.mul_comm, hsize]
    exact List.take_eq_take_iff.2 (by rw [List.length_drop]; omega)
  rw [hslice] at hdownload
  refine ⟨.writeSegment k (slice J.segmentSize k object.data), hdownload.bind (Prog.evals_pure _),
    rfl, { h with cover := ?_, tasks := fun t ht => ?_ }⟩
  · refine List.Perm.trans (List.Perm.append_right _ ?_) h.cover
    simp only [List.flatMap_append, List.flatMap_cons, List.flatMap_nil, DownloadTask.segments,
      List.append_assoc, List.append_nil]
    exact List.Perm.append_left _ List.perm_append_comm
  · rcases List.mem_append.1 ht with ht | ht
    · exact h.tasks t (mem_of_mem_without ht)
    · rw [List.mem_singleton.1 ht]
      rfl

/-- What is left of the segments when one more is written. -/
theorem Downloading.Segments.cover_write {s : Downloading} {compressed : Bool} {done : List Nat}
    {data d : Bytes} {before after : List DownloadTask} {k : Nat}
    (h : s.Segments J object f fs₀ compressed done data (before ++ .writeSegment k d :: after)) :
    ((before ++ after).flatMap DownloadTask.segments ++ k :: done).Perm
      (List.range (partCount J.segmentSize object.data.length)) := by
  refine List.Perm.trans ?_ h.cover
  simp only [List.flatMap_append, List.flatMap_cons, DownloadTask.segments, List.append_assoc]
  exact List.Perm.append_left _ List.perm_middle

/-- The segment is written to the temporary file, and counted. -/
theorem Downloading.Segments.doWrite (hJ : J.Ok object f) {s : Downloading} {compressed : Bool}
    {done : List Nat} {data d : Bytes} {before after : List DownloadTask} {k : Nat}
    (h : s.Segments J object f fs₀ compressed done data (before ++ .writeSegment k d :: after)) :
    ∃ fs' data', (ExtremeS3.doWrite J.sys s.fs s.content.localFile (J.segmentSize * k) d).Evals
        (.ok fs') ∧ HasSlices J.segmentSize object.data (k :: done) data' ∧
      Downloading.Temporary J object f fs₀ { s with fs := fs', content := s.content.count }
        compressed (done.length + 1) true data' := by
  obtain rfl : d = _ := h.tasks (.writeSegment k d) (by simp)
  have hk : k < partCount J.segmentSize object.data.length := by
    rw [← List.mem_range, ← h.cover_write.mem_iff]
    simp
  have hle : k * J.segmentSize ≤ object.data.length := by
    rcases (lt_partCount_iff hJ.segmentSize_pos).1 hk with rfl | hlt
    · omega
    · omega
  have htemp := h.temporary
  obtain ⟨mtime, mode, hfs⟩ := htemp.fs
  have hfile : s.fs s.content.localFile = some (.file ⟨data, mtime, mode⟩) := by
    rw [hfs, Files.set_self]
  obtain ⟨mtime', hwrite⟩ := doWrite_spec hJ.writesAll hfile (J.segmentSize * k)
    (slice J.segmentSize k object.data)
    (by
      rw [length_slice, h.slices.length, Nat.mul_comm]
      omega)
  refine ⟨_, overwrite data (J.segmentSize * k) (slice J.segmentSize k object.data), hwrite, ?_,
    htemp.stored, htemp.holds, ?_, htemp.free, htemp.ne_path, htemp.path, mtime', mode, ?_⟩
  · rw [Nat.mul_comm]
    exact h.slices.write hle
  · show s.content.count = _
    rw [DownloadContent.count, htemp.content]
  · show Files.set s.fs s.content.localFile _ = Files.set fs₀ s.content.localFile _
    rw [hfs, Files.set_set]

/-- The temporary file takes the place of the target. -/
theorem Downloading.Temporary.replaceTarget {s : Downloading} {read : Nat}
    (h : s.Temporary J object f fs₀ false read true object.data) :
    ∃ fs', (s.content.replaceTarget s.fs).Evals (.ok fs') ∧
      s.content.destroy fs' = fs₀.set J.path (some (.file f)) := by
  obtain ⟨mtime, mode, hfs⟩ := h.fs
  have hfile : s.fs s.content.localFile = some (.file ⟨object.data, mtime, mode⟩) := by
    rw [hfs, Files.set_self]
  have htarget : s.content.targetFile = J.path := by rw [h.content]
  have hdir : s.fs s.content.targetFile ≠ some .dir := by
    rw [htarget, hfs, Files.set_of_ne h.ne_path.symm]
    exact Files.ne_dir_of_none h.path
  have hreplace := DownloadContent.evals_replaceTarget s.content s.fs hfile
    (htarget ▸ h.ne_path.symm) hdir
  have hf : f = ⟨object.data, s.content.mtime, s.content.mode⟩ := by
    have hholds : object.data = f.data := h.holds
    rw [h.content, hholds]
  refine ⟨_, hreplace, ?_⟩
  rw [htarget, hfs, Files.set_set, Files.set_eq_self h.free, ← hf, DownloadContent.destroy,
    if_pos ⟨htarget ▸ h.ne_path, by rw [h.content]⟩, Files.unlink_of_none]
  rw [Files.set_of_ne h.ne_path, h.free]

/-- A segment is written, and the download finished or left to be decompressed if it was the last. -/
theorem Downloading.Segments.writeSegment (hJ : J.Ok object f) {s : Downloading}
    {compressed : Bool} {done : List Nat} {data d : Bytes} {before after : List DownloadTask}
    {k : Nat}
    (h : s.Segments J object f fs₀ compressed done data (before ++ .writeSegment k d :: after)) :
    ∃ s' new, (J.runWriteSegment s k d).Evals (.ok (s', new)) ∧
      s'.Phase J object f fs₀ (before ++ after ++ new) ∧ downloadWeight new < 2 := by
  have hcover := h.cover_write
  have hlen := hcover.length_eq
  rw [List.length_append, List.length_cons, List.length_range] at hlen
  obtain ⟨fs', data', hwrite, hslices, htemp⟩ := h.doWrite hJ
  have hcount : s.content.count.segmentsRead = done.length + 1 ∧ s.content.count.numSegments =
      partCount J.segmentSize object.data.length ∧ s.content.count.compressed = compressed := by
    have hcontent : s.content.count = _ := htemp.content
    rw [hcontent]
    exact ⟨rfl, rfl, rfl⟩
  by_cases hlast : before ++ after = []
  · -- the last of the segments
    rw [hlast, List.flatMap_nil, List.length_nil, Nat.zero_add] at hlen
    obtain rfl : data' = object.data :=
      hslices.eq_of_forall (le_partCount_mul hJ.segmentSize_pos) fun j hj => by
        have := hcover.mem_iff.2 (List.mem_range.2 hj)
        rwa [hlast] at this
    have hfull : s.content.count.Full := by
      rw [DownloadContent.Full, hcount.1, hcount.2.1, hlen]
    rw [hlast]
    cases compressed with
    | true =>
      refine ⟨_, _, hwrite.bind (Prog.evals_if_pos hfull (Prog.evals_if_pos hcount.2.2
        (Prog.evals_pure _))), .decompressor (done.length + 1) ?_, by decide⟩
      rw [DownloadContent.destroy_of_not_deleted rfl]
      exact { htemp with
        content := congrArg (fun c => { c with deleteTempFile := false }) htemp.content }
    | false =>
      obtain ⟨fs'', hreplace, hfs⟩ := htemp.replaceTarget
      have hplain : ¬ s.content.count.compressed = true := by
        rw [hcount.2.2]
        exact Bool.false_ne_true
      exact ⟨_, _, hwrite.bind (Prog.evals_if_pos hfull (Prog.evals_if_neg hplain
        (hreplace.bind (Prog.evals_pure _)))), .finished hfs, by decide⟩
  · have htasks : ∀ t ∈ before ++ after, t.Segment J object := fun t ht =>
      h.tasks t (mem_of_mem_without ht)
    obtain ⟨t, ht⟩ := List.exists_mem_of_ne_nil _ hlast
    have hpos : 0 < ((before ++ after).flatMap DownloadTask.segments).length :=
      List.length_pos_iff.2 fun hnil =>
        (htasks t ht).segments_ne_nil (List.flatMap_eq_nil_iff.1 hnil t ht)
    have hfull : ¬ s.content.count.Full := by
      rw [DownloadContent.Full, hcount.1, hcount.2.1]
      omega
    refine ⟨_, [], hwrite.bind (Prog.evals_if_neg hfull (Prog.evals_pure _)), ?_, by decide⟩
    rw [List.append_nil]
    exact .segments compressed (k :: done) data' ⟨htemp, hslices, hcover, htasks⟩ hlast

/-- The decompressor leaves the file that the object was uploaded from. -/
theorem Downloading.Temporary.fileDecompressor (hJ : J.Ok object f) {s : Downloading} {read : Nat}
    (h : s.Temporary J object f fs₀ true read false object.data) {o : DownloadAnswer}
    (ho : J.tasks.answers s .fileDecompressor o) :
    ∃ s', (J.runFileDecompressor s o).Evals (.ok (s', [])) ∧
      s'.fs = fs₀.set J.path (some (.file f)) := by
  obtain ⟨n, hinf⟩ := h.holds
  obtain ⟨mtime, mode, hfs⟩ := h.fs
  have hsource : s.fs.contents s.content.localFile = some object.data := by
    rw [hfs, Files.contents_set_self]
  have htarget : s.content.targetFile = J.path := by rw [h.content]
  have hmtime : s.content.mtime = f.mtime := by rw [h.content]
  have hmode : s.content.mode = f.mode := by rw [h.content]
  have hne : J.path ≠ J.path ++ '-' :: o.random := by simp
  have hpath : s.fs J.path ≠ some .dir := by
    rw [hfs, Files.set_of_ne h.ne_path.symm, h.path]
    exact fun he => by cases he
  have hrun := fileDecompressor_spec hJ.reads hJ.writesAll hsource ho hne hpath hinf f.mtime f.mode
  refine ⟨_, Prog.Evals.bind (by rw [htarget, hmtime, hmode]; exact hrun) (Prog.evals_pure _), ?_⟩
  have hlocal : (s.fs.set J.path (some (.file f))) s.content.localFile =
      some (.file ⟨object.data, mtime, mode⟩) := by
    rw [Files.set_of_ne h.ne_path, hfs, Files.set_self]
  show Files.unlink (s.fs.set J.path (some (.file f))) s.content.localFile = _
  rw [Files.unlink, hlocal, if_neg (by simp)]
  funext q
  have hfree := h.free
  rw [hfs, Files.set, Files.set, Files.set, Files.set]
  split
  · next hq => rw [hq, if_neg h.ne_path, hfree]
  · rfl

/-- Every task keeps its phase or begins the next one. -/
theorem Downloading.Phase.step (hJ : J.Ok object f) (hfrom : object.From J.zlib f)
    {s : Downloading} {before after : List DownloadTask} {t : DownloadTask} {o : DownloadAnswer}
    (h : s.Phase J object f fs₀ (before ++ t :: after)) (ho : J.tasks.answers s t o) :
    ∃ s' new, (J.tasks.run s t o).Evals (.ok (s', new)) ∧
      s'.Phase J object f fs₀ (before ++ after ++ new) ∧ downloadWeight new < t.weight := by
  generalize hts : before ++ t :: after = ts at h
  cases h with
  | start hclear hpath hobject =>
    obtain ⟨rfl, rfl, rfl⟩ : before = [] ∧ t = .fileDownloader ∧ after = [] := by
      simpa [List.append_eq_singleton_iff] using hts
    exact Downloading.runFileDownloader_spec hJ hfrom hclear hpath hobject ho
  | segments compressed done data hseg hne =>
    subst hts
    have ht : t.Segment J object := hseg.tasks t (by simp)
    cases t with
    | fileDownloader | fileDecompressor => exact ht.elim
    | downloadSegment k =>
      obtain ⟨new, hrun, hweight, hseg'⟩ := hseg.downloadSegment hJ
      refine ⟨s, [new], hrun, .segments compressed done data hseg' (by simp), ?_⟩
      rw [downloadWeight_cons, hweight, downloadWeight_nil, DownloadTask.weight]
      decide
    | writeSegment k d => exact hseg.writeSegment hJ
  | decompressor read htemp =>
    obtain ⟨rfl, rfl, rfl⟩ : before = [] ∧ t = .fileDecompressor ∧ after = [] := by
      simpa [List.append_eq_singleton_iff] using hts
    obtain ⟨s', hrun, hfs⟩ := htemp.fileDecompressor hJ ho
    exact ⟨s', [], hrun, .finished hfs, by decide⟩
  | finished => simp at hts

/-- Where no file is, a download completes, and restores the file that the object was uploaded from
without any other change. -/
theorem download_completes (hJ : J.Ok object f) (hfrom : object.From J.zlib f) {s : Downloading}
    (hpath : s.fs J.path = none) (hobject : s.service.objects J.remote = some object) :
    J.tasks.Completes (s, [.fileDownloader]) fun s' =>
      s'.fs = (J.clear s.fs).set J.path (some (.file f)) := by
  refine TaskSystem.completes_of_invariant (fun t ts => t.Phase J object f (J.clear s.fs) ts)
    DownloadTask.weight (.start rfl hpath hobject)
    (fun t before u after o h ho => h.step hJ hfrom ho) fun t h => ?_
  generalize hts : ([] : List DownloadTask) = ts at h
  cases h with
  | finished hfs => exact hfs
  | start | decompressor => cases hts
  | segments compressed done data hseg hne => exact absurd hts.symm hne

end ExtremeS3
