import ExtremeS3.Sync.Basic

/-!
# What an upload schedules

`process_upload` works level by level: `uploadVisit` follows its recursion along a relative path and
gives the local directory there with the remote directory, if any, it is compared with, and
`UploadsAt` lists what it schedules at one level, `delete_possibly_recursive` included. A plan
schedules nothing else (`uploadsAt_of_mem`), and all of it when it does not fail
(`mem_processUpload`). Each of the loops has a lemma that says what it schedules (`mem_uploadFile`,
`mem_uploadSubdir`, `mem_deleteUnseen`), and one level is the step of the induction over the local
tree (`uploadsAt_or_subdir`).
-/

namespace ExtremeS3

/-- What is left after erasing names is what has another name. -/
theorem mem_eraseAll {names : List Str} {m : List (Str × V)} {e : Str × V} :
    e ∈ eraseAll names m ↔ e ∈ m ∧ e.1 ∉ names := by
  induction names generalizing m with
  | nil => simp [eraseAll]
  | cons n names ih =>
    show e ∈ eraseAll names (eraseKey n m) ↔ _
    rw [ih, mem_eraseKey, List.mem_cons, not_or, and_assoc]

/-- The names of a directory are those of its files and its subdirectories. -/
theorem Dir.mem_names {d : Dir Str ι φ} {n : Str} :
    n ∈ d.names ↔ (findKey n d.files).isSome ∨ (findKey n d.subdirs).isSome := by
  rw [names, List.mem_append, mem_keys, mem_keys]

/-- The maps of every directory of a remote tree that may be absent are maps. -/
def RemoteSorted (r : Option S3Dir) : Prop := ∀ d ∈ r, d.Everywhere Dir.Sorted

/-! ## Remote deletion -/

/-- Subdirectories are deleted one by one. -/
theorem deleteSubdirs_eq (sync : Sync) (ds : List (Str × S3Dir)) :
    deleteSubdirs sync ds = .forEach ds fun e => deletePossiblyRecursive sync false e.2 := by
  induction ds with
  | nil => rw [deleteSubdirs]; rfl
  | cons e ds ih => rw [deleteSubdirs, ih]; rfl

/-- A recursive deletion of the files and then of the subdirectories. -/
theorem deletePossiblyRecursive_eq (sync : Sync) (d : S3Dir) :
    deletePossiblyRecursive sync false d =
      .forEach d.files (fun e =>
        if sync.checkIncluded e.2.absoluteName.path then
          .one (.remoteFileDeleter e.2.absoluteName)
        else .nil) ++
      .forEach d.subdirs fun e => deletePossiblyRecursive sync false e.2 := by
  cases d with
  | node i files subdirs =>
    rw [deletePossiblyRecursive, Bool.false_and, if_neg Bool.false_ne_true, deleteSubdirs_eq]
    rfl

/-- Deleting a directory never fails. -/
theorem failed_deletePossiblyRecursive (sync : Sync) (d : S3Dir) :
    (deletePossiblyRecursive sync false d).failed = false := by
  induction d using Dir.induct with
  | node i files subdirs ih =>
    rw [deletePossiblyRecursive_eq, Plan.failed_append, Bool.or_eq_false_iff, Plan.failed_forEach,
      Plan.failed_forEach]
    refine ⟨fun e _ => ?_, fun e he => ih e.1 e.2 he⟩
    split <;> rfl

/-- What is deleted of a directory are its files that are included, and what is deleted of its
subdirectories. -/
theorem mem_deletePossiblyRecursive_node {sync : Sync} {d : S3Dir} {t : Task} :
    t ∈ (deletePossiblyRecursive sync false d).actions ↔
      (∃ e ∈ d.files, sync.checkIncluded e.2.absoluteName.path ∧
        t = .remoteFileDeleter e.2.absoluteName) ∨
      ∃ e ∈ d.subdirs, t ∈ (deletePossiblyRecursive sync false e.2).actions := by
  have hf := failed_deletePossiblyRecursive sync d
  rw [deletePossiblyRecursive_eq, Plan.failed_append, Bool.or_eq_false_iff] at hf
  rw [deletePossiblyRecursive_eq, Plan.mem_actions_append hf.1, Plan.mem_forEach hf.1,
    Plan.mem_forEach hf.2]
  refine or_congr (exists_congr fun e => and_congr_right fun _ => ?_) Iff.rfl
  split <;> simp_all

/-- A recursive deletion deletes the files below the directory that the filter includes. -/
theorem mem_deletePossiblyRecursive {sync : Sync} {d : S3Dir} (hd : d.Everywhere Dir.Sorted)
    {t : Task} :
    t ∈ (deletePossiblyRecursive sync false d).actions ↔
      ∃ p f, d.fileAt p = some f ∧ sync.checkIncluded f.absoluteName.path ∧
        t = .remoteFileDeleter f.absoluteName := by
  induction d using Dir.induct with
  | node i files subdirs ih =>
    obtain ⟨hfiles, hsubdirs⟩ := hd.root
    rw [mem_deletePossiblyRecursive_node, Dir.exists_fileAt]
    constructor
    · rintro (⟨e, he, h⟩ | ⟨e, he, h⟩)
      · exact .inl ⟨e.1, e.2, hfiles.findKey_eq_some.2 he, h⟩
      · have hn := hsubdirs.findKey_eq_some.2 he
        exact .inr ⟨e.1, e.2, hn, (ih e.1 e.2 he (hd.child hn)).1 h⟩
    · rintro (⟨n, f, hf, h⟩ | ⟨n, e, he, h⟩)
      · exact .inl ⟨(n, f), mem_of_findKey hf, h⟩
      · exact .inr ⟨(n, e), mem_of_findKey he, (ih n e (mem_of_findKey he) (hd.child he)).2 h⟩

/-! ## One level -/

/-- What `process_upload` schedules at a local directory `l` that it compares with `r` and uploads
to `path`, without what it schedules in the subdirectories. -/
inductive UploadsAt (sync : Sync) (l : LocalDir) (r : Option S3Dir) (path : S3Path) : Task → Prop
  | upload {n f} : findKey n l.files = some f → f.unsyncable = false →
      sync.checkIncluded f.absoluteName →
      ((r.bind fun d => findKey n d.subdirs) = none →
        sync.checkMode → ∃ d ∈ r, findKey n d.files = none) →
      ((r.bind fun d => findKey n d.subdirs).isSome → sync.deleteMissing) →
      UploadsAt sync l r path (.fileUploader f.absoluteName (derive path n))
  | shadowedDir {n f dir p g} : sync.deleteMissing → findKey n l.files = some f →
      f.unsyncable = false → sync.checkIncluded f.absoluteName →
      (r.bind fun d => findKey n d.subdirs) = some dir → dir.fileAt p = some g →
      sync.checkIncluded g.absoluteName.path →
      UploadsAt sync l r path (.remoteFileDeleter g.absoluteName)
  | shadowingFile {n dir g} : sync.deleteMissing → findKey n l.subdirs = some dir →
      (r.bind fun d => findKey n d.files) = some g →
      UploadsAt sync l r path (.remoteFileDeleter g.absoluteName)
  | unseenFile {n g} : sync.deleteMissing → n ∉ l.names →
      (r.bind fun d => findKey n d.files) = some g →
      UploadsAt sync l r path (.remoteFileDeleter g.absoluteName)
  | unseenDir {n dir p g} : sync.deleteMissing → n ∉ l.names →
      (r.bind fun d => findKey n d.subdirs) = some dir → dir.fileAt p = some g →
      sync.checkIncluded g.absoluteName.path →
      UploadsAt sync l r path (.remoteFileDeleter g.absoluteName)

/-- The remote directory that a local subdirectory is compared with, if there is one, unless it is
not visited. -/
def descend (sync : Sync) (r : Option S3Dir) (n : Str) : Option (Option S3Dir) :=
  match r.bind fun d => findKey n d.files with
  | some _ => if sync.deleteMissing then some none else none
  | none => some (r.bind fun d => findKey n d.subdirs)

/-- What the recursion of `process_upload` compares at a relative path. -/
def uploadVisit (sync : Sync) (r : Option S3Dir) :
    LocalDir → List Str → Option (LocalDir × Option S3Dir)
  | l, [] => some (l, r)
  | l, n :: p =>
    (findKey n l.subdirs).bind fun l' => (descend sync r n).bind fun r' => uploadVisit sync r' l' p

/-- What a local file is planned for: its upload, with what is in its place deleted before it. -/
theorem mem_uploadFile {sync : Sync} {r : Option S3Dir} {path : S3Path} {n : Str} {f : LocalFile}
    {t : Task} :
    t ∈ (uploadFile sync r path n f).actions ↔
      f.unsyncable = false ∧ sync.checkIncluded f.absoluteName ∧
      ((∃ dir, (r.bind fun d => findKey n d.subdirs) = some dir ∧ sync.deleteMissing ∧
          (t ∈ (deletePossiblyRecursive sync false dir).actions ∨
            t = .fileUploader f.absoluteName (derive path n))) ∨
        (r.bind fun d => findKey n d.subdirs) = none ∧
          (sync.checkMode → ∃ d ∈ r, findKey n d.files = none) ∧
          t = .fileUploader f.absoluteName (derive path n)) := by
  simp only [uploadFile]
  cases hu : f.unsyncable with
  | true => simp
  | false =>
    cases hc : sync.checkIncluded f.absoluteName with
    | false => simp
    | true =>
      cases hr : r.bind fun d => findKey n d.subdirs with
      | some dir =>
        cases hd : sync.deleteMissing with
        | false => simp
        | true => simp [Plan.mem_actions_append (failed_deletePossiblyRecursive sync dir)]
      | none =>
        cases hm : sync.checkMode with
        | false => simp
        | true =>
          cases r with
          | none => simp
          | some d => cases hf : findKey n d.files <;> simp [hf]

/-- Deleting what is not seen never fails. -/
theorem failed_deleteUnseen (sync : Sync) (names : List Str) (r : Option S3Dir) :
    (deleteUnseen sync names r).failed = false := by
  cases r with
  | none => rfl
  | some d =>
    simp only [deleteUnseen]
    split
    · rw [Plan.failed_append, Bool.or_eq_false_iff, Plan.failed_forEach, Plan.failed_forEach]
      exact ⟨fun _ _ => rfl, fun e _ => failed_deletePossiblyRecursive sync e.2⟩
    · rfl

/-- What is deleted is what is not seen, and only if it may be deleted. -/
theorem mem_deleteUnseen {sync : Sync} {names : List Str} {r : Option S3Dir} {t : Task} :
    t ∈ (deleteUnseen sync names r).actions ↔
      sync.deleteMissing ∧ ∃ d ∈ r,
        (∃ e ∈ d.files, e.1 ∉ names ∧ t = .remoteFileDeleter e.2.absoluteName) ∨
        ∃ e ∈ d.subdirs, e.1 ∉ names ∧ t ∈ (deletePossiblyRecursive sync false e.2).actions := by
  have hf := failed_deleteUnseen sync names r
  cases r with
  | none => simp [deleteUnseen]
  | some d =>
    simp only [deleteUnseen] at hf ⊢
    cases hd : sync.deleteMissing with
    | false => simp
    | true =>
      rw [hd, if_pos rfl, Plan.failed_append, Bool.or_eq_false_iff] at hf
      simp only [if_true, Plan.mem_actions_append hf.1, Plan.mem_forEach hf.1,
        Plan.mem_forEach hf.2, mem_eraseAll, Plan.actions_one, List.mem_singleton, and_assoc,
        true_and, Option.mem_some_iff, exists_eq_left']

/-- What the loop of `process_upload` over the subdirectories does with one of them. -/
def uploadSubdir (sync : Sync) (r : Option S3Dir) (path : S3Path) (n : Str) (l : LocalDir) :
    Plan Task :=
  match r.bind fun d => findKey n d.files with
  | some file =>
    if sync.deleteMissing then
      .one (.remoteFileDeleter file.absoluteName) ++ processUpload sync none (derive path n) l
    else .nil
  | none => processUpload sync (r.bind fun d => findKey n d.subdirs) (derive path n) l

/-- The local subdirectories are gone through one by one. -/
theorem uploadSubdirs_eq (sync : Sync) (r : Option S3Dir) (path : S3Path)
    (ds : List (Str × LocalDir)) :
    uploadSubdirs sync r path ds = .forEach ds fun e => uploadSubdir sync r path e.1 e.2 := by
  induction ds with
  | nil => rw [uploadSubdirs]; rfl
  | cons e ds ih => rw [uploadSubdirs, ih]; rfl

/-- What a local subdirectory is planned for: a file in its place is deleted, and its entries are
gone through. -/
theorem mem_uploadSubdir {sync : Sync} {r : Option S3Dir} {path : S3Path} {n : Str} {l : LocalDir}
    {t : Task} :
    t ∈ (uploadSubdir sync r path n l).actions ↔
      (sync.deleteMissing ∧ ∃ g, (r.bind fun d => findKey n d.files) = some g ∧
        t = .remoteFileDeleter g.absoluteName) ∨
      ∃ r', descend sync r n = some r' ∧ t ∈ (processUpload sync r' (derive path n) l).actions := by
  simp only [uploadSubdir, descend]
  cases r.bind fun d => findKey n d.files with
  | none => simp
  | some g =>
    cases hd : sync.deleteMissing with
    | false => simp
    | true => simp

/-- A task that `process_upload` schedules is scheduled at its level or in a subdirectory. -/
theorem mem_processUpload_node_of_mem {sync : Sync} {r : Option S3Dir} {path : S3Path} {l : LocalDir}
    {t : Task} (h : t ∈ (processUpload sync r path l).actions) :
    (∃ e ∈ l.files, t ∈ (uploadFile sync r path e.1 e.2).actions) ∨
    (∃ e ∈ l.subdirs,
      (sync.deleteMissing ∧ ∃ g, (r.bind fun d => findKey e.1 d.files) = some g ∧
        t = .remoteFileDeleter g.absoluteName) ∨
      ∃ r', descend sync r e.1 = some r' ∧
        t ∈ (processUpload sync r' (derive path e.1) e.2).actions) ∨
    t ∈ (deleteUnseen sync l.names r).actions := by
  cases l with
  | node i files subdirs =>
    rw [processUpload] at h
    rcases Plan.mem_of_append h with h | h
    · rcases Plan.mem_of_append h with h | h
      · exact .inl (Plan.mem_of_forEach h)
      · rw [uploadSubdirs_eq] at h
        obtain ⟨e, he, h⟩ := Plan.mem_of_forEach h
        exact .inr (.inl ⟨e, he, mem_uploadSubdir.1 h⟩)
    · exact .inr (.inr h)

/-- A plan that does not fail schedules all of this. -/
theorem mem_processUpload_node {sync : Sync} {r : Option S3Dir} {path : S3Path} {l : LocalDir}
    (hf : (processUpload sync r path l).failed = false) {t : Task} :
    t ∈ (processUpload sync r path l).actions ↔
    (∃ e ∈ l.files, t ∈ (uploadFile sync r path e.1 e.2).actions) ∨
    (∃ e ∈ l.subdirs,
      (sync.deleteMissing ∧ ∃ g, (r.bind fun d => findKey e.1 d.files) = some g ∧
        t = .remoteFileDeleter g.absoluteName) ∨
      ∃ r', descend sync r e.1 = some r' ∧
        t ∈ (processUpload sync r' (derive path e.1) e.2).actions) ∨
    t ∈ (deleteUnseen sync l.names r).actions := by
  cases l with
  | node i files subdirs =>
    rw [processUpload, Plan.failed_append, Bool.or_eq_false_iff] at hf
    have hfs := hf.1
    rw [Plan.failed_append, Bool.or_eq_false_iff] at hfs
    have hs := hfs.2
    rw [uploadSubdirs_eq] at hs
    rw [processUpload, Plan.mem_actions_append hf.1, Plan.mem_actions_append hfs.1,
      Plan.mem_forEach hfs.1, uploadSubdirs_eq, Plan.mem_forEach hs, or_assoc]
    simp only [mem_uploadSubdir]
    rfl

/-- The plans of the subdirectories of one that does not fail do not fail. -/
theorem failed_processUpload_subdir {sync : Sync} {r : Option S3Dir} {path : S3Path} {l : LocalDir}
    (hf : (processUpload sync r path l).failed = false) {e : Str × LocalDir} (he : e ∈ l.subdirs)
    {r' : Option S3Dir} (hr : descend sync r e.1 = some r') :
    (processUpload sync r' (derive path e.1) e.2).failed = false := by
  cases l with
  | node i files subdirs =>
    rw [processUpload, Plan.failed_append, Bool.or_eq_false_iff, Plan.failed_append,
      Bool.or_eq_false_iff, uploadSubdirs_eq] at hf
    have := Plan.failed_forEach.1 hf.1.2 e he
    simp only [descend] at hr
    simp only [uploadSubdir] at this
    split at hr
    · next g hg =>
      split at hr
      · next hd =>
        cases hr
        simpa [hg, hd] using this
      · cases hr
    · next hg =>
      cases hr
      simpa [hg] using this

/-- The remote directory the walk goes down to is sorted. -/
theorem RemoteSorted.descend {sync : Sync} {r r' : Option S3Dir} {n : Str} (h : RemoteSorted r)
    (hr : descend sync r n = some r') : RemoteSorted r' := by
  simp only [ExtremeS3.descend] at hr
  split at hr
  · split at hr
    · cases hr
      exact nofun
    · cases hr
  · cases hr
    intro d hd
    obtain ⟨e, he, hd⟩ := Option.bind_eq_some_iff.1 hd
    exact (h e he).child hd

/-- A remote subdirectory is sorted everywhere. -/
theorem RemoteSorted.subdir {r : Option S3Dir} (h : RemoteSorted r) {n : Str} {d : S3Dir}
    (hd : (r.bind fun e => findKey n e.subdirs) = some d) : d.Everywhere Dir.Sorted := by
  obtain ⟨e, he, hd⟩ := Option.bind_eq_some_iff.1 hd
  exact (h e he).child hd

/-- A task that is scheduled is scheduled at the level or in a subdirectory. -/
theorem uploadsAt_or_subdir {sync : Sync} {r : Option S3Dir} {path : S3Path} {l : LocalDir}
    {t : Task} (hl : l.Sorted) (hr : RemoteSorted r)
    (h : t ∈ (processUpload sync r path l).actions) :
    UploadsAt sync l r path t ∨ ∃ n l' r', findKey n l.subdirs = some l' ∧
      descend sync r n = some r' ∧ t ∈ (processUpload sync r' (derive path n) l').actions := by
  rcases mem_processUpload_node_of_mem h with ⟨e, he, h⟩ | ⟨e, he, h⟩ | h
  · have hn := hl.1.findKey_eq_some.2 he
    obtain ⟨hu, hc, ⟨dir, hdir, hd, h | rfl⟩ | ⟨hnone, hm, rfl⟩⟩ := mem_uploadFile.1 h
    · obtain ⟨p, g, hg, hi, rfl⟩ := (mem_deletePossiblyRecursive (hr.subdir hdir)).1 h
      exact .inl (.shadowedDir hd hn hu hc hdir hg hi)
    · refine .inl (.upload hn hu hc (fun hnone => ?_) fun _ => hd)
      rw [hdir] at hnone
      cases hnone
    · refine .inl (.upload hn hu hc (fun _ => hm) fun hs => ?_)
      rw [hnone] at hs
      cases hs
  · have hn := hl.2.findKey_eq_some.2 he
    rcases h with ⟨hd, g, hg, rfl⟩ | ⟨r', hr', h⟩
    · exact .inl (.shadowingFile hd hn hg)
    · exact .inr ⟨e.1, e.2, r', hn, hr', h⟩
  · obtain ⟨hd, d, hdr, ⟨e, he, hne, rfl⟩ | ⟨e, he, hne, h⟩⟩ := mem_deleteUnseen.1 h
    · have hn := (hr d hdr).root.1.findKey_eq_some.2 he
      exact .inl (.unseenFile hd hne (Option.bind_eq_some_iff.2 ⟨d, hdr, hn⟩))
    · have hn := (hr d hdr).root.2.findKey_eq_some.2 he
      obtain ⟨p, g, hg, hi, rfl⟩ := (mem_deletePossiblyRecursive ((hr d hdr).child hn)).1 h
      exact .inl (.unseenDir hd hne (Option.bind_eq_some_iff.2 ⟨d, hdr, hn⟩) hg hi)

/-- A plan that does not fail schedules what belongs to its level. -/
theorem mem_of_uploadsAt {sync : Sync} {r : Option S3Dir} {path : S3Path} {l : LocalDir}
    (hr : RemoteSorted r) (hf : (processUpload sync r path l).failed = false) {t : Task}
    (h : UploadsAt sync l r path t) : t ∈ (processUpload sync r path l).actions := by
  rw [mem_processUpload_node hf]
  cases h with
  | @upload n f hn hu hc hm hd =>
    refine .inl ⟨(n, f), mem_of_findKey hn, mem_uploadFile.2 ⟨hu, hc, ?_⟩⟩
    cases hdir : r.bind fun d => findKey n d.subdirs with
    | some dir => exact .inl ⟨dir, rfl, hd (by rw [hdir]; rfl), .inr rfl⟩
    | none => exact .inr ⟨rfl, hm hdir, rfl⟩
  | @shadowedDir n f dir p g hd hn hu hc hdir hg hi =>
    refine .inl ⟨(n, f), mem_of_findKey hn, mem_uploadFile.2 ⟨hu, hc, .inl ⟨dir, hdir, hd, .inl ?_⟩⟩⟩
    exact (mem_deletePossiblyRecursive (hr.subdir hdir)).2 ⟨p, g, hg, hi, rfl⟩
  | @shadowingFile n dir g hd hn hg =>
    exact .inr (.inl ⟨(n, dir), mem_of_findKey hn, .inl ⟨hd, g, hg, rfl⟩⟩)
  | @unseenFile n g hd hne hg =>
    obtain ⟨d, hdr, hg⟩ := Option.bind_eq_some_iff.1 hg
    refine .inr (.inr (mem_deleteUnseen.2 ⟨hd, d, hdr, .inl ⟨(n, g), mem_of_findKey hg, hne, rfl⟩⟩))
  | @unseenDir n dir p g hd hne hdir hg hi =>
    obtain ⟨d, hdr, hdir'⟩ := Option.bind_eq_some_iff.1 hdir
    refine .inr (.inr (mem_deleteUnseen.2
      ⟨hd, d, hdr, .inr ⟨(n, dir), mem_of_findKey hdir', hne, ?_⟩⟩))
    exact (mem_deletePossiblyRecursive (hr.subdir hdir)).2 ⟨p, g, hg, hi, rfl⟩

/-! ## All levels -/

/-- A plan schedules only what belongs to a level that the recursion visits. -/
theorem uploadsAt_of_mem {sync : Sync} {r : Option S3Dir} {path : S3Path} {l : LocalDir} {t : Task}
    (hl : l.Everywhere Dir.Sorted) (hr : RemoteSorted r)
    (h : t ∈ (processUpload sync r path l).actions) :
    ∃ p l' r', uploadVisit sync r l p = some (l', r') ∧ UploadsAt sync l' r' (deriveAll path p) t := by
  induction l using Dir.induct generalizing r path with
  | node i files subdirs ih =>
    rcases uploadsAt_or_subdir hl.root hr h with h | ⟨n, l', r', hn, hr', h⟩
    · exact ⟨[], _, r, rfl, h⟩
    · obtain ⟨p, l'', r'', hv, h⟩ := ih n l' (mem_of_findKey hn) (hl.child hn) (hr.descend hr') h
      refine ⟨n :: p, l'', r'', ?_, h⟩
      rw [uploadVisit, hn, Option.bind_some, hr', Option.bind_some, hv]

/-- A plan that does not fail schedules what belongs to the levels that the recursion visits. -/
theorem mem_processUpload {sync : Sync} {r : Option S3Dir} {path : S3Path} {l : LocalDir} {t : Task}
    (hl : l.Everywhere Dir.Sorted) (hr : RemoteSorted r)
    (hf : (processUpload sync r path l).failed = false) :
    t ∈ (processUpload sync r path l).actions ↔
      ∃ p l' r', uploadVisit sync r l p = some (l', r') ∧
        UploadsAt sync l' r' (deriveAll path p) t := by
  refine ⟨uploadsAt_of_mem hl hr, ?_⟩
  rintro ⟨p, l', r', hv, h⟩
  induction p generalizing l r path with
  | nil =>
    cases hv
    exact mem_of_uploadsAt hr hf h
  | cons n p ih =>
    obtain ⟨m, hm, hv⟩ := Option.bind_eq_some_iff.1 hv
    obtain ⟨r₁, hr₁, hv⟩ := Option.bind_eq_some_iff.1 hv
    have he := mem_of_findKey hm
    have hf' := failed_processUpload_subdir hf he hr₁
    have := ih (hl.child hm) (hr.descend hr₁) hf' hv h
    exact (mem_processUpload_node hf).2 (.inr (.inl ⟨(n, m), he, .inr ⟨r₁, hr₁, this⟩⟩))

/-- A level that is visited is at its path in both trees. -/
theorem uploadVisit_dirAt {sync : Sync} {r r' : Option S3Dir} {l l' : LocalDir} {p : List Str}
    (h : uploadVisit sync r l p = some (l', r')) :
    l.dirAt p = some l' ∧ ∀ d ∈ r', (r.bind fun e => e.dirAt p) = some d := by
  induction p generalizing l r with
  | nil =>
    cases h
    exact ⟨rfl, fun d hd => by rw [hd]; rfl⟩
  | cons n p ih =>
    obtain ⟨m, hm, h⟩ := Option.bind_eq_some_iff.1 h
    obtain ⟨r₁, hr₁, h⟩ := Option.bind_eq_some_iff.1 h
    obtain ⟨h₁, h₂⟩ := ih h
    refine ⟨by rw [Dir.dirAt_cons, hm]; exact h₁, fun d hd => ?_⟩
    have := h₂ d hd
    simp only [descend] at hr₁
    split at hr₁
    · split at hr₁
      · cases hr₁; cases this
      · cases hr₁
    · cases hr₁
      cases r with
      | none => cases this
      | some e => exact this

/-- A plan that looks into no absent directory does not fail. -/
theorem failed_processUpload {sync : Sync} (hm : sync.checkMode = false) {r : Option S3Dir}
    {path : S3Path} (l : LocalDir) : (processUpload sync r path l).failed = false := by
  induction l using Dir.induct generalizing r path with
  | node i files subdirs ih =>
    rw [processUpload, Plan.failed_append, Plan.failed_append, failed_deleteUnseen,
      uploadSubdirs_eq, Bool.or_false, Bool.or_eq_false_iff, Plan.failed_forEach,
      Plan.failed_forEach]
    refine ⟨fun e _ => ?_, fun e he => ?_⟩
    · simp only [uploadFile, hm, Bool.not_false, if_true]
      split
      · rfl
      · split
        · rfl
        · split
          · split
            · simp [failed_deletePossiblyRecursive]
            · rfl
          · rfl
    · simp only [uploadSubdir]
      split
      · split
        · simp [ih e.1 e.2 he]
        · rfl
      · exact ih e.1 e.2 he

end ExtremeS3
