import ExtremeS3.Connection.ParsePath
import ExtremeS3.Sync.Names
import ExtremeS3.Sync.Upload

/-!
# What a removal and a publication of a path act on

`do_rm` plans the deletion of the tree that `create_schedule` reads for the path, and
`schedule_recursive_publication` publishes the files of a tree that it reads directory by directory;
both are read with `try_to_root`. They act on the same objects: those that the listing of the path
finds and the filter includes (`mem_deletions`, `mem_publications`). The listing is one of a prefix,
so it finds objects beside a path that does not end with a separator.
-/

namespace ExtremeS3

/-- `publish_file_task`: the objects that it makes public. -/
def publishFileTask (sync : Sync) (fl : S3File) : List S3Path :=
  if sync.checkIncluded fl.absoluteName.path then [fl.absoluteName] else []

/-- `publish_subdir_task`, and the tasks that it schedules. -/
def publishSubdirTask (sync : Sync) (bucket : Bucket) : Nat → S3Path → List S3Path
  | 0, _ => []
  | fuel + 1, path =>
    let dir := readItems path unlisted (bucket.list (path.path.drop 1))
    dir.files.flatMap (fun e => publishFileTask sync e.2) ++
      dir.subdirs.flatMap fun e => publishSubdirTask sync bucket fuel e.2.info

/-- `schedule_recursive_publication`, and what its tasks make public. -/
def scheduleRecursivePublication (sync : Sync) (bucket : Bucket) (remote : S3Path) : List S3Path :=
  let curRoot := readItems (toRoot remote) unlisted (bucket.list (remote.path.drop 1))
  curRoot.files.flatMap (fun e => publishFileTask sync e.2) ++
    curRoot.subdirs.flatMap fun e => publishSubdirTask sync bucket (bucket.depth + 1) e.2.info

/-- What `do_rm` schedules for a path. -/
def rmSchedule (sync : Sync) (bucket : Bucket) (recursive : Bool) (path : S3Path) : Plan Task :=
  deletePossiblyRecursive sync (!recursive) (bucket.tree path true)

/-- The path names the object, or a directory above it. -/
def S3Path.Names (path : S3Path) (key : Str) : Prop :=
  let k := path.path.drop 1
  key = k ∨ (if path.path.getLast? = some '/' then k else k ++ "/".toList) <+: key

/-- A removal deletes only what the path names. -/
def RmActsOnNamed (sync : Sync) (bucket : Bucket) (recursive : Bool) (path : S3Path) : Prop :=
  ∀ remote, .remoteFileDeleter remote ∈ (rmSchedule sync bucket recursive path).actions →
    path.Names (remote.path.drop 1)

/-- A publication makes public only what the path names. -/
def PublishActsOnNamed (sync : Sync) (bucket : Bucket) (path : S3Path) : Prop :=
  ∀ remote ∈ scheduleRecursivePublication sync bucket path, path.Names (remote.path.drop 1)

/-- Some key goes on after the path by a name with a separator, so that the root of the listing has
subdirectories. -/
def Bucket.HasSubdirs (bucket : Bucket) (path : S3Path) : Prop :=
  ∃ rest, path.path.drop 1 ++ rest ∈ bucket.keys ∧ '/' ∈ rest

/-- The path ends with a separator, or no object that the listing reaches and the filter includes
has a key which goes on after the path by another character. -/
def Bucket.NothingBeside (bucket : Bucket) (sync : Sync) (path : S3Path) : Prop :=
  path.path.getLast? = some '/' ∨ ∀ c rest, c ≠ '/' →
    let key := path.path.drop 1 ++ c :: rest
    bucket.Asked path key → bucket.Reaches path true key → sync.checkIncluded ('/' :: key) = false

section

variable {sync : Sync} {bucket : Bucket} {path : S3Path}

/-- A file of the tree that the filter includes. -/
def IncludedFile (sync : Sync) (tree : S3Dir) (remote : S3Path) : Prop :=
  ∃ p f, tree.fileAt p = some f ∧ sync.checkIncluded f.absoluteName.path ∧ f.absoluteName = remote

/-- A file is published if it is included. -/
theorem mem_publishFileTask {fl : S3File} {remote : S3Path} :
    remote ∈ publishFileTask sync fl ↔
      sync.checkIncluded fl.absoluteName.path ∧ fl.absoluteName = remote := by
  unfold publishFileTask
  split
  · next h => simp [h, eq_comm]
  · next h => simp [h]

/-- What a listing and the tasks of its subdirectories make public. -/
theorem mem_publish (sub : S3Path → S3Dir) (publish : S3Path → List S3Path)
    (hsub : ∀ q remote, remote ∈ publish q ↔ IncludedFile sync (sub q) remote)
    {items : List Item} {remote : S3Path} :
    remote ∈ (readItems path unlisted items).files.flatMap (fun e => publishFileTask sync e.2) ++
        (readItems path unlisted items).subdirs.flatMap (fun e => publish e.2.info) ↔
      IncludedFile sync (readItems path sub items) remote := by
  obtain ⟨hfiles, hsubdirs⟩ := @sorted_root_readItems path unlisted items
  rw [List.mem_append, List.mem_flatMap, List.mem_flatMap, IncludedFile, Dir.exists_fileAt]
  refine or_congr (Iff.intro ?_ ?_) (Iff.intro ?_ ?_)
  · rintro ⟨⟨n, f⟩, he, hf⟩
    refine ⟨n, f, ?_, mem_publishFileTask.1 hf⟩
    exact findKey_files_readItems.2 (findKey_files_readItems.1 (hfiles.findKey_eq_some.2 he))
  · rintro ⟨n, f, he, hf⟩
    refine ⟨(n, f), ?_, mem_publishFileTask.2 hf⟩
    exact hfiles.findKey_eq_some.1 (findKey_files_readItems.2 (findKey_files_readItems.1 he))
  · rintro ⟨⟨n, e⟩, he, hmem⟩
    obtain ⟨rfl, hitem⟩ := findKey_subdirs_readItems.1 (hsubdirs.findKey_eq_some.2 he)
    exact ⟨n, _, findKey_subdirs_readItems.2 ⟨rfl, hitem⟩, (hsub _ _).1 hmem⟩
  · rintro ⟨n, e, he, hmem⟩
    obtain ⟨rfl, hitem⟩ := findKey_subdirs_readItems.1 he
    exact ⟨(n, _), hsubdirs.findKey_eq_some.1 (findKey_subdirs_readItems.2 ⟨rfl, hitem⟩),
      (hsub _ _).2 hmem⟩

/-- What is published below a directory are the included files of its listing. -/
theorem mem_publishSubdirTask {fuel : Nat} {path remote : S3Path} :
    remote ∈ publishSubdirTask sync bucket fuel path ↔
      IncludedFile sync (listSubdir bucket (noFaults bucket) fuel path) remote := by
  induction fuel generalizing path remote with
  | zero =>
    refine ⟨fun h => (by cases h), ?_⟩
    rintro ⟨p, f, hf, -⟩
    obtain ⟨q, n, rfl⟩ := (List.eq_nil_or_concat' p).resolve_left (Dir.ne_nil_of_fileAt hf)
    rw [Dir.fileAt_concat] at hf
    obtain ⟨d, hd, hn⟩ := Option.bind_eq_some_iff.1 hf
    obtain ⟨-, rfl⟩ := Dir.dirAt_of_subdirs_nil rfl hd
    cases hn
  | succ fuel ih => exact mem_publish _ (publishSubdirTask sync bucket fuel) fun _ _ => ih

/-- A publication makes the files of the tree public that the filter includes. -/
theorem mem_publications {remote : S3Path} :
    remote ∈ scheduleRecursivePublication sync bucket path ↔
      IncludedFile sync (bucket.tree path true) remote :=
  mem_publish _ (publishSubdirTask sync bucket (bucket.depth + 1)) fun _ _ => mem_publishSubdirTask

/-- The root of the listing has subdirectories just if some key goes on by a name. -/
theorem subdirs_tree (h : path.path.head? = some '/') :
    (bucket.tree path true).subdirs ≠ [] ↔ bucket.HasSubdirs path := by
  obtain ⟨-, hf⟩ := path_eq_toRoot h
  have hsome : ∀ d : S3Dir, d.subdirs ≠ [] ↔ ∃ n e, findKey n d.subdirs = some e ∧ True := by
    intro d
    cases hd : d.subdirs with
    | nil => simp
    | cons e subdirs => exact ⟨fun _ => ⟨e.1, e.2, findKey_cons_self .., trivial⟩, fun _ => by simp⟩
  rw [hsome, tree_eq h (.inl rfl), exists_subdir_list hf, Bucket.HasSubdirs, drop_path h]
  constructor
  · rintro ⟨n, s, -, ⟨t, rfl⟩, hkey, -⟩
    exact ⟨t ++ '/' :: s, by simpa using hkey, by simp⟩
  · rintro ⟨rest, hkey, hslash⟩
    obtain ⟨t, s, rfl, ht⟩ := List.eq_append_cons_of_mem hslash
    refine ⟨_, s, fun hn => ?_, List.prefix_append _ t, by simpa using hkey, trivial⟩
    exact (List.mem_append.1 hn).elim hf ht

/-- A removal that is not recursive schedules nothing where the root has subdirectories. -/
theorem rmSchedule_fail (h : path.path.head? = some '/') (hsub : bucket.HasSubdirs path) :
    rmSchedule sync bucket false path = .fail := by
  have hne := (subdirs_tree h).2 hsub
  unfold rmSchedule
  cases htree : bucket.tree path true with
  | node i files subdirs =>
    rw [htree] at hne
    rw [deletePossiblyRecursive, if_pos (by simpa using hne)]

/-- Any other removal deletes the files of the tree that the filter includes. -/
theorem mem_deletions (h : path.path.head? = some '/') {recursive : Bool}
    (hsub : recursive ∨ ¬ bucket.HasSubdirs path) {remote : S3Path} :
    .remoteFileDeleter remote ∈ (rmSchedule sync bucket recursive path).actions ↔
      IncludedFile sync (bucket.tree path true) remote := by
  have hsorted : (bucket.tree path true).Everywhere Dir.Sorted :=
    sorted_readItems (sorted_listSubdir _) _ _
  have hrec : rmSchedule sync bucket recursive path =
      deletePossiblyRecursive sync false (bucket.tree path true) := by
    unfold rmSchedule
    rcases hsub with rfl | hsub
    · rfl
    · have hnil := not_not.1 fun hne => hsub ((subdirs_tree h).1 hne)
      cases htree : bucket.tree path true with
      | node i files subdirs =>
        rw [htree] at hnil
        cases hnil
        simp [deletePossiblyRecursive]
  rw [hrec, mem_deletePossiblyRecursive hsorted, IncludedFile]
  simp only [Task.remoteFileDeleter.injEq, eq_comm]

/-- What is acted on is what the path names just if nothing beside the path is included. -/
theorem forall_included_names (h : path.path.head? = some '/') :
    (∀ remote, IncludedFile sync (bucket.tree path true) remote →
        path.Names (remote.path.drop 1)) ↔ bucket.NothingBeside sync path := by
  constructor
  · intro hall
    by_cases hl : path.path.getLast? = some '/'
    · exact .inl hl
    · refine .inr fun c rest hc hasked hreach => ?_
      by_contra hinc
      obtain ⟨p, f, hf, hpath⟩ := (finds_tree h (.inl rfl)).2 ⟨hasked, hreach⟩
      rw [← hpath, Bool.not_eq_false] at hinc
      have hnames := hall _ ⟨p, f, hf, hinc, rfl⟩
      rw [hpath, S3Path.Names, if_neg hl, List.drop_one, List.tail_cons] at hnames
      rcases hnames with heq | hle
      · have := congrArg List.length heq
        simp at this
      · rw [List.prefix_append_right_inj] at hle
        exact hc (List.cons_prefix_cons.1 hle).1.symm
  · rintro hbeside remote ⟨p, f, hf, hinc, rfl⟩
    obtain ⟨q, n, rfl⟩ := (List.eq_nil_or_concat' p).resolve_left (Dir.ne_nil_of_fileAt hf)
    have hf' := hf
    rw [Dir.fileAt_concat] at hf'
    obtain ⟨d, hd, hn⟩ := Option.bind_eq_some_iff.1 hf'
    obtain ⟨key, -, -, hpath⟩ := exact_tree h (.inl rfl) hd hn
    obtain ⟨hasked, hreach⟩ := (finds_tree h (.inl rfl)).1 ⟨_, f, hf, hpath⟩
    rw [hpath] at hinc ⊢
    rw [S3Path.Names, List.drop_one, List.tail_cons]
    rcases hbeside with hl | hbeside
    · rw [if_pos hl]
      exact .inr hasked.2.1
    · obtain ⟨rest, rfl⟩ := hasked.2.1
      rcases rest with _ | ⟨c, rest⟩
      · exact .inl (List.append_nil _)
      · by_cases hc : c = '/'
        · refine .inr ?_
          subst hc
          split
          · exact List.prefix_append _ _
          · exact (List.prefix_append_right_inj _).2 (by simp)
        · rw [hbeside c rest hc hasked hreach] at hinc
          cases hinc

end

end ExtremeS3
