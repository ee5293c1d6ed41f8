import ExtremeS3.Sync.Upload

/-!
# What a download schedules

The counterpart of the levels of an upload: `downloadVisit` follows the recursion of
`process_downloads` along a relative path, and `DownloadsAt` lists what it does at one level. A plan
does nothing else (`downloadsAt_of_mem`), and all of it when it does not fail
(`mem_processDownloads`). Each of the loops has a lemma that says what it adds (`mem_downloadFile`,
`mem_downloadSubdir`, `mem_deleteUnseenLocals`), and one level is the step of the induction over the
remote tree (`downloadsAt_or_subdir`). The names that are not seen are looked up in the map that is
built of them (`findKey_unseenLocals`).
-/

namespace ExtremeS3

/-- The maps of every directory of a local tree that may be absent are maps. -/
def LocalSorted (l : Option LocalDir) : Prop := ∀ d ∈ l, d.Everywhere Dir.Sorted

/-- The path that `unseen` keeps for a name: that of the subdirectory, or else of the file. -/
def unseenAt (l : Option LocalDir) (n : Str) : Option Str :=
  match l.bind fun d => findKey n d.subdirs with
  | some dir => some dir.info
  | none => (l.bind fun d => findKey n d.files).map LocalFile.absoluteName

/-! ## The local names that no remote name erases -/

/-- Entries put into a sorted map leave it sorted. -/
theorem sorted_foldl_upsert {V W : Type} (f : V → W) (es : List (Str × V)) {m : List (Str × W)}
    (hm : Sorted m) : Sorted (es.foldl (fun m e => upsert e.1 (fun _ => f e.2) m) m) := by
  induction es generalizing m with
  | nil => exact hm
  | cons e es ih => exact ih (hm.upsert _ _)

/-- Writing the entries of a map into another one. -/
theorem findKey_foldl_upsert {V W : Type} (f : V → W) {es : List (Str × V)} (he : Sorted es)
    {m : List (Str × W)} (hm : Sorted m) (n : Str) :
    findKey n (es.foldl (fun m e => upsert e.1 (fun _ => f e.2) m) m) =
      match findKey n es with
      | some v => some (f v)
      | none => findKey n m := by
  induction es generalizing m with
  | nil => rfl
  | cons e es ih =>
    obtain ⟨k, v⟩ := e
    obtain ⟨hlt, hes⟩ := sorted_cons.1 he
    rw [List.foldl_cons, ih hes (hm.upsert _ _), findKey_cons, findKey_upsert hm]
    by_cases hn : n = k
    · subst hn
      rw [findKey_eq_none_of_lt hlt, if_pos rfl, if_pos rfl]
    · rw [if_neg hn, if_neg hn]

/-- The unseen entries are sorted. -/
theorem sorted_unseenLocals (l : Option LocalDir) : Sorted (unseenLocals l) := by
  cases l with
  | none => exact sorted_nil
  | some d =>
    exact sorted_foldl_upsert Dir.info _ (sorted_foldl_upsert LocalFile.absoluteName _ sorted_nil)

/-- What is kept as unseen under a name is the path of the entry of that name. -/
theorem findKey_unseenLocals {l : Option LocalDir} (hl : LocalSorted l) (n : Str) :
    findKey n (unseenLocals l) = unseenAt l n := by
  cases l with
  | none => rfl
  | some d =>
    obtain ⟨hf, hd⟩ := (hl d rfl).root
    have hfs := sorted_foldl_upsert LocalFile.absoluteName d.files sorted_nil
    rw [unseenLocals, findKey_foldl_upsert Dir.info hd hfs,
      findKey_foldl_upsert LocalFile.absoluteName hf sorted_nil]
    simp only [unseenAt, Option.bind_some]
    cases findKey n d.subdirs with
    | some _ => rfl
    | none => cases findKey n d.files <;> rfl

/-- Deleting what is not seen never fails. -/
theorem failed_deleteUnseenLocals (sync : Sync) (names : List Str) (l : Option LocalDir) :
    (deleteUnseenLocals sync names l).failed = false := by
  simp only [deleteUnseenLocals]
  split
  · exact Plan.failed_forEach.2 fun _ _ => rfl
  · rfl

/-- What is deleted is what is not seen, under its own path, and only if it may be deleted. -/
theorem mem_deleteUnseenLocals {sync : Sync} {names : List Str} {l : Option LocalDir}
    (hl : LocalSorted l) {a : Action} :
    a ∈ (deleteUnseenLocals sync names l).actions ↔
      sync.deleteMissing ∧ ∃ n path, n ∉ names ∧ unseenAt l n = some path ∧
        a = .schedule (.localFileDeleter path) := by
  have hf := failed_deleteUnseenLocals sync names l
  simp only [deleteUnseenLocals] at hf ⊢
  cases hd : sync.deleteMissing with
  | false => simp
  | true =>
    rw [hd, if_pos rfl] at hf
    rw [if_pos rfl, Plan.mem_forEach hf]
    simp only [Plan.actions_one, List.mem_singleton, true_and, mem_eraseAll]
    constructor
    · rintro ⟨e, ⟨he, hn⟩, rfl⟩
      refine ⟨e.1, e.2, hn, ?_, rfl⟩
      rw [← findKey_unseenLocals hl, (sorted_unseenLocals l).findKey_eq_some]
      exact he
    · rintro ⟨n, path, hn, hp, rfl⟩
      rw [← findKey_unseenLocals hl] at hp
      exact ⟨(n, path), ⟨mem_of_findKey hp, hn⟩, rfl⟩

/-! ## One level -/

/-- What `process_downloads` does at a remote directory `r` that it compares with `l` and downloads
to `path`, without what it does in the subdirectories. -/
inductive DownloadsAt (sync : Sync) (r : S3Dir) (l : Option LocalDir) (path : Str) : Action → Prop
  | download {n f} : findKey n r.files = some f → sync.checkIncluded f.absoluteName.path →
      ((l.bind fun d => findKey n d.subdirs).isSome → sync.deleteMissing) →
      (sync.checkMode → ∃ d ∈ l, findKey n d.files = none) →
      DownloadsAt sync r l path (.schedule
        (.fileDownloader (appendPath path n) f.absoluteName
          (l.bind fun d => findKey n d.subdirs).isSome))
  | mkdir {n d} : findKey n r.subdirs = some d →
      ((l.bind fun d => findKey n d.files).isSome → sync.deleteMissing) →
      (l.bind fun d => findKey n d.subdirs) = none →
      DownloadsAt sync r l path (.mkdir (appendPath path n))
  | unseen {n target} : sync.deleteMissing → n ∉ r.names → unseenAt l n = some target →
      DownloadsAt sync r l path (.schedule (.localFileDeleter target))

/-- The local directory that a remote subdirectory is compared with, if there is one, unless it is
not visited. -/
def descendLocal (sync : Sync) (l : Option LocalDir) (n : Str) : Option (Option LocalDir) :=
  if (l.bind fun d => findKey n d.files).isSome && !sync.deleteMissing then none
  else some (l.bind fun d => findKey n d.subdirs)

/-- What the recursion of `process_downloads` compares at a relative path. -/
def downloadVisit (sync : Sync) (l : Option LocalDir) :
    S3Dir → List Str → Option (S3Dir × Option LocalDir)
  | r, [] => some (r, l)
  | r, n :: p =>
    (findKey n r.subdirs).bind fun r' =>
      (descendLocal sync l n).bind fun l' => downloadVisit sync l' r' p

/-- A file is downloaded if it is included, what is in its place may be deleted, and a run that only
checks finds none there. -/
theorem mem_downloadFile {sync : Sync} {l : Option LocalDir} {path n : Str} {f : S3File}
    {a : Action} :
    a ∈ (downloadFile sync l path n f).actions ↔
      sync.checkIncluded f.absoluteName.path ∧
      ((l.bind fun d => findKey n d.subdirs).isSome → sync.deleteMissing) ∧
      (sync.checkMode → ∃ d ∈ l, findKey n d.files = none) ∧
      a = .schedule (.fileDownloader (appendPath path n) f.absoluteName
        (l.bind fun d => findKey n d.subdirs).isSome) := by
  simp only [downloadFile]
  cases hc : sync.checkIncluded f.absoluteName.path with
  | false => simp
  | true =>
    cases hs : (l.bind fun d => findKey n d.subdirs).isSome <;>
      cases hd : sync.deleteMissing <;> cases hm : sync.checkMode <;>
      first
      | simp; done
      | cases l with
        | none => simp
        | some d => cases hf : findKey n d.files <;> simp [hf]

/-- What the loop of `process_downloads` over the subdirectories does with one of them. -/
def downloadSubdir (sync : Sync) (l : Option LocalDir) (path n : Str) (r : S3Dir) : Plan Action :=
  let curLocalPath := appendPath path n
  let newDir := l.bind fun d => findKey n d.subdirs
  let shadowed := (l.bind fun d => findKey n d.files).isSome
  if shadowed && !sync.deleteMissing then .nil
  else
    (if newDir.isNone then .one (.mkdir curLocalPath) else .nil) ++
    processDownloads sync newDir curLocalPath r

/-- The remote subdirectories are gone through one by one. -/
theorem downloadSubdirs_eq (sync : Sync) (l : Option LocalDir) (path : Str)
    (ds : List (Str × S3Dir)) :
    downloadSubdirs sync l path ds = .forEach ds fun e => downloadSubdir sync l path e.1 e.2 := by
  induction ds with
  | nil => rw [downloadSubdirs]; rfl
  | cons e ds ih => rw [downloadSubdirs, ih]; rfl

/-- An action below a remote subdirectory makes its directory, or is one of the directory itself. -/
theorem mem_downloadSubdir {sync : Sync} {l : Option LocalDir} {path n : Str} {r : S3Dir}
    {a : Action} :
    a ∈ (downloadSubdir sync l path n r).actions ↔
      (((l.bind fun d => findKey n d.files).isSome → sync.deleteMissing) ∧
        (l.bind fun d => findKey n d.subdirs) = none ∧ a = .mkdir (appendPath path n)) ∨
      ∃ l', descendLocal sync l n = some l' ∧
        a ∈ (processDownloads sync l' (appendPath path n) r).actions := by
  simp only [downloadSubdir, descendLocal]
  cases hs : (l.bind fun d => findKey n d.files).isSome <;> cases hd : sync.deleteMissing <;>
    cases hn : l.bind fun d => findKey n d.subdirs <;>
    simp

/-- An action that `process_downloads` makes is made at its level or in a subdirectory. -/
theorem mem_processDownloads_node_of_mem {sync : Sync} {l : Option LocalDir} {path : Str} {r : S3Dir}
    {a : Action} (h : a ∈ (processDownloads sync l path r).actions) :
    (∃ e ∈ r.files, a ∈ (downloadFile sync l path e.1 e.2).actions) ∨
    (∃ e ∈ r.subdirs, a ∈ (downloadSubdir sync l path e.1 e.2).actions) ∨
    a ∈ (deleteUnseenLocals sync r.names l).actions := by
  cases r with
  | node i files subdirs =>
    rw [processDownloads] at h
    rcases Plan.mem_of_append h with h | h
    · rcases Plan.mem_of_append h with h | h
      · exact .inl (Plan.mem_of_forEach h)
      · rw [downloadSubdirs_eq] at h
        exact .inr (.inl (Plan.mem_of_forEach h))
    · exact .inr (.inr h)

/-- A plan that does not fail makes all of them. -/
theorem mem_processDownloads_node {sync : Sync} {l : Option LocalDir} {path : Str} {r : S3Dir}
    (hf : (processDownloads sync l path r).failed = false) {a : Action} :
    a ∈ (processDownloads sync l path r).actions ↔
    (∃ e ∈ r.files, a ∈ (downloadFile sync l path e.1 e.2).actions) ∨
    (∃ e ∈ r.subdirs, a ∈ (downloadSubdir sync l path e.1 e.2).actions) ∨
    a ∈ (deleteUnseenLocals sync r.names l).actions := by
  cases r with
  | node i files subdirs =>
    rw [processDownloads, Plan.failed_append, Bool.or_eq_false_iff] at hf
    have hfs := hf.1
    rw [Plan.failed_append, Bool.or_eq_false_iff] at hfs
    have hs := hfs.2
    rw [downloadSubdirs_eq] at hs
    rw [processDownloads, Plan.mem_actions_append hf.1, Plan.mem_actions_append hfs.1,
      Plan.mem_forEach hfs.1, downloadSubdirs_eq, Plan.mem_forEach hs, or_assoc]
    rfl

/-- The plans of the subdirectories of one that does not fail do not fail. -/
theorem failed_processDownloads_subdir {sync : Sync} {l : Option LocalDir} {path : Str} {r : S3Dir}
    (hf : (processDownloads sync l path r).failed = false) {e : Str × S3Dir} (he : e ∈ r.subdirs)
    {l' : Option LocalDir} (hl : descendLocal sync l e.1 = some l') :
    (processDownloads sync l' (appendPath path e.1) e.2).failed = false := by
  cases r with
  | node i files subdirs =>
    rw [processDownloads, Plan.failed_append, Bool.or_eq_false_iff, Plan.failed_append,
      Bool.or_eq_false_iff, downloadSubdirs_eq] at hf
    have := Plan.failed_forEach.1 hf.1.2 e he
    simp only [descendLocal] at hl
    split at hl
    · cases hl
    · next hs =>
      cases hl
      simp only [downloadSubdir, if_neg hs, Plan.failed_append, Bool.or_eq_false_iff] at this
      exact this.2

/-- The local directory the walk goes down to is sorted. -/
theorem LocalSorted.descend {sync : Sync} {l l' : Option LocalDir} {n : Str} (h : LocalSorted l)
    (hl : descendLocal sync l n = some l') : LocalSorted l' := by
  simp only [descendLocal] at hl
  split at hl
  · cases hl
  · cases hl
    intro d hd
    obtain ⟨e, he, hd⟩ := Option.bind_eq_some_iff.1 hd
    exact (h e he).child hd

/-- An action that is made is made at the level or in a subdirectory. -/
theorem downloadsAt_or_subdir {sync : Sync} {l : Option LocalDir} {path : Str} {r : S3Dir}
    {a : Action} (hr : r.Sorted) (hl : LocalSorted l)
    (h : a ∈ (processDownloads sync l path r).actions) :
    DownloadsAt sync r l path a ∨ ∃ n r' l', findKey n r.subdirs = some r' ∧
      descendLocal sync l n = some l' ∧
      a ∈ (processDownloads sync l' (appendPath path n) r').actions := by
  rcases mem_processDownloads_node_of_mem h with ⟨e, he, h⟩ | ⟨e, he, h⟩ | h
  · obtain ⟨hc, hs, hm, rfl⟩ := mem_downloadFile.1 h
    exact .inl (.download (hr.1.findKey_eq_some.2 he) hc hs hm)
  · have hn := hr.2.findKey_eq_some.2 he
    rcases mem_downloadSubdir.1 h with ⟨hs, hnone, rfl⟩ | ⟨l', hl', h⟩
    · exact .inl (.mkdir hn hs hnone)
    · exact .inr ⟨e.1, e.2, l', hn, hl', h⟩
  · obtain ⟨hd, n, target, hn, ht, rfl⟩ := (mem_deleteUnseenLocals hl).1 h
    exact .inl (.unseen hd hn ht)

/-- A plan that does not fail makes what belongs to its level. -/
theorem mem_of_downloadsAt {sync : Sync} {l : Option LocalDir} {path : Str} {r : S3Dir}
    (hl : LocalSorted l) (hf : (processDownloads sync l path r).failed = false) {a : Action}
    (h : DownloadsAt sync r l path a) : a ∈ (processDownloads sync l path r).actions := by
  rw [mem_processDownloads_node hf]
  cases h with
  | @download n f hn hc hs hm =>
    exact .inl ⟨(n, f), mem_of_findKey hn, mem_downloadFile.2 ⟨hc, hs, hm, rfl⟩⟩
  | @mkdir n d hn hs hnone =>
    exact .inr (.inl ⟨(n, d), mem_of_findKey hn,
      mem_downloadSubdir.2 (.inl ⟨hs, hnone, rfl⟩)⟩)
  | @unseen n target hd hn ht =>
    exact .inr (.inr ((mem_deleteUnseenLocals hl).2 ⟨hd, n, target, hn, ht, rfl⟩))

/-! ## All levels -/

/-- A plan makes only what belongs to a level that the recursion visits. -/
theorem downloadsAt_of_mem {sync : Sync} {l : Option LocalDir} {path : Str} {r : S3Dir} {a : Action}
    (hr : r.Everywhere Dir.Sorted) (hl : LocalSorted l)
    (h : a ∈ (processDownloads sync l path r).actions) :
    ∃ p r' l', downloadVisit sync l r p = some (r', l') ∧
      DownloadsAt sync r' l' (p.foldl appendPath path) a := by
  induction r using Dir.induct generalizing l path with
  | node i files subdirs ih =>
    rcases downloadsAt_or_subdir hr.root hl h with h | ⟨n, r', l', hn, hl', h⟩
    · exact ⟨[], _, l, rfl, h⟩
    · obtain ⟨p, r'', l'', hv, h⟩ := ih n r' (mem_of_findKey hn) (hr.child hn) (hl.descend hl') h
      refine ⟨n :: p, r'', l'', ?_, h⟩
      rw [downloadVisit, hn, Option.bind_some, hl', Option.bind_some, hv]

/-- A plan that does not fail makes what belongs to the levels that the recursion visits. -/
theorem mem_processDownloads {sync : Sync} {l : Option LocalDir} {path : Str} {r : S3Dir}
    {a : Action} (hr : r.Everywhere Dir.Sorted) (hl : LocalSorted l)
    (hf : (processDownloads sync l path r).failed = false) :
    a ∈ (processDownloads sync l path r).actions ↔
      ∃ p r' l', downloadVisit sync l r p = some (r', l') ∧
        DownloadsAt sync r' l' (p.foldl appendPath path) a := by
  refine ⟨downloadsAt_of_mem hr hl, ?_⟩
  rintro ⟨p, r', l', hv, h⟩
  induction p generalizing r l path with
  | nil =>
    cases hv
    exact mem_of_downloadsAt hl hf h
  | cons n p ih =>
    obtain ⟨m, hm, hv⟩ := Option.bind_eq_some_iff.1 hv
    obtain ⟨l₁, hl₁, hv⟩ := Option.bind_eq_some_iff.1 hv
    have he := mem_of_findKey hm
    have hf' := failed_processDownloads_subdir hf he hl₁
    have := ih (hr.child hm) (hl.descend hl₁) hf' hv h
    exact (mem_processDownloads_node hf).2
      (.inr (.inl ⟨(n, m), he, mem_downloadSubdir.2 (.inr ⟨l₁, hl₁, this⟩)⟩))

/-- A level that is visited is at its path in both trees. -/
theorem downloadVisit_dirAt {sync : Sync} {l l' : Option LocalDir} {r r' : S3Dir} {p : List Str}
    (h : downloadVisit sync l r p = some (r', l')) :
    r.dirAt p = some r' ∧ l' = l.bind fun d => d.dirAt p := by
  induction p generalizing r l with
  | nil =>
    cases h
    exact ⟨rfl, (Option.bind_fun_some _).symm⟩
  | cons n p ih =>
    obtain ⟨m, hm, h⟩ := Option.bind_eq_some_iff.1 h
    obtain ⟨l₁, hl₁, h⟩ := Option.bind_eq_some_iff.1 h
    obtain ⟨h₁, h₂⟩ := ih h
    refine ⟨by rw [Dir.dirAt_cons, hm]; exact h₁, ?_⟩
    simp only [descendLocal] at hl₁
    split at hl₁
    · cases hl₁
    · cases hl₁
      rw [h₂, Option.bind_assoc]
      rfl

/-- With `delete_missing` every directory of the remote tree is visited. -/
theorem downloadVisit_of_dirAt {sync : Sync} (hd : sync.deleteMissing) {l : Option LocalDir}
    {r r' : S3Dir} {p : List Str} (h : r.dirAt p = some r') :
    downloadVisit sync l r p = some (r', l.bind fun d => d.dirAt p) := by
  induction p generalizing r l with
  | nil => cases h; cases l <;> rfl
  | cons n p ih =>
    obtain ⟨m, hm, h⟩ := Option.bind_eq_some_iff.1 h
    have hl : descendLocal sync l n = some (l.bind fun d => findKey n d.subdirs) := by
      rw [descendLocal, hd, Bool.not_true, Bool.and_false, if_neg Bool.false_ne_true]
    rw [downloadVisit, hm, Option.bind_some, hl, Option.bind_some, ih h, Option.bind_assoc]
    rfl

/-- A plan that looks into no absent directory does not fail. -/
theorem failed_processDownloads {sync : Sync} (hm : sync.checkMode = false) {l : Option LocalDir}
    {path : Str} (r : S3Dir) : (processDownloads sync l path r).failed = false := by
  induction r using Dir.induct generalizing l path with
  | node i files subdirs ih =>
    rw [processDownloads, Plan.failed_append, Plan.failed_append, failed_deleteUnseenLocals,
      downloadSubdirs_eq, Bool.or_false, Bool.or_eq_false_iff, Plan.failed_forEach,
      Plan.failed_forEach]
    refine ⟨fun e _ => ?_, fun e he => ?_⟩
    · simp only [downloadFile, hm, Bool.not_false, if_true]
      split
      · rfl
      · split <;> rfl
    · simp only [downloadSubdir]
      split
      · rfl
      · rw [Plan.failed_append, ih e.1 e.2 he]
        split <;> rfl

end ExtremeS3
