import ExtremeS3.Connection.ParsePath
import ExtremeS3.Sync.EndToEnd
import ExtremeS3.Sync.NamedPath

/-!
# The command `rm`

`do_rm` lets `create_schedule` plan the deletions below all its paths, and runs the agenda only when
that has not thrown. So a directory below one of the paths stops a removal that is not recursive
before anything is deleted, below the other paths too. Otherwise, in whatever order the tasks run,
just the objects asked for and included are deleted, and a second removal has nothing left to do
(`rm_exact`).
-/

namespace ExtremeS3

/-- What `create_schedule` plans for the paths of `do_rm`. -/
def rmPlan (sync : Sync) (buckets : Str → Bucket) (recursive : Bool) (remotes : List S3Path) :
    Plan Task :=
  .forEach remotes fun path => rmSchedule sync (buckets path.bucket) recursive path

/-- What `do_rm` leaves when it runs the tasks in some order, unless `create_schedule` has thrown. -/
def rmLeaves (plan : Plan Task) (ts : List Task) (objects : Set S3Path) : Set S3Path :=
  if plan.failed then objects else ts.foldl Task.run objects

section
variable {sync : Sync} {buckets : Str → Bucket} {recursive : Bool} {remotes : List S3Path}

/-- The object is one that a removal of the paths is asked for. -/
def Doomed (sync : Sync) (buckets : Str → Bucket) (remotes : List S3Path) (k : S3Path) : Prop :=
  ∃ path ∈ remotes, ∃ key, (buckets path.bucket).Asked path key ∧
    k = { path with path := '/' :: key } ∧ sync.checkIncluded ('/' :: key)

/-- The objects of the buckets of the paths. -/
def objectsOf (buckets : Str → Bucket) (remotes : List S3Path) : Set S3Path :=
  {k | ∃ path ∈ remotes, k ∈ (buckets path.bucket).objects path}

/-- A file of the tree that the filter includes is an object asked for. -/
theorem includedFile_tree {bucket : Bucket} {path k : S3Path} (hkeys : bucket.PlainKeys)
    (habs : path.path.head? = some '/') :
    IncludedFile sync (bucket.tree path true) k ↔
      ∃ key, bucket.Asked path key ∧ k = { path with path := '/' :: key } ∧
        sync.checkIncluded ('/' :: key) := by
  have hmem := mem_keys_tree (k := k) hkeys habs (.inl rfl : (true : Bool) ∨ _)
  constructor
  · rintro ⟨p, f, hf, hincluded, rfl⟩
    obtain ⟨key, hasked, hk⟩ := hmem.1 ⟨p, f, hf, rfl⟩
    refine ⟨key, hasked, hk, ?_⟩
    rwa [hk] at hincluded
  · rintro ⟨key, hasked, rfl, hincluded⟩
    obtain ⟨p, f, hf, hk⟩ := hmem.2 ⟨key, hasked, rfl⟩
    exact ⟨p, f, hf, by rw [hk]; exact hincluded, hk⟩

/-- A removal that does not come to a directory, or is recursive, deletes the whole tree. -/
theorem rmSchedule_eq {bucket : Bucket} {path : S3Path} (habs : path.path.head? = some '/')
    (h : recursive ∨ ¬ bucket.HasSubdirs path) :
    rmSchedule sync bucket recursive path =
      deletePossiblyRecursive sync false (bucket.tree path true) := by
  unfold rmSchedule
  rcases h with rfl | hsub
  · rfl
  · have hnil := not_not.1 fun hne => hsub ((subdirs_tree habs).1 hne)
    cases htree : bucket.tree path true with
    | node i files subdirs =>
      rw [htree] at hnil
      cases hnil
      simp [deletePossiblyRecursive]

/-- A removal fails just where it is not recursive and comes to a directory. -/
theorem failed_rmSchedule {bucket : Bucket} {path : S3Path} (habs : path.path.head? = some '/') :
    (rmSchedule sync bucket recursive path).failed = false ↔
      recursive ∨ ¬ bucket.HasSubdirs path := by
  constructor
  · intro h
    by_contra hno
    obtain ⟨hrec, hsub⟩ := not_or.1 hno
    rw [Bool.not_eq_true] at hrec
    rw [hrec, rmSchedule_fail habs (not_not.1 hsub)] at h
    cases h
  · intro h
    rw [rmSchedule_eq habs h]
    exact failed_deletePossiblyRecursive sync _

/-- The plan of a removal fails just where one of its paths stops it. -/
theorem failed_rmPlan (habs : ∀ path ∈ remotes, path.path.head? = some '/') :
    (rmPlan sync buckets recursive remotes).failed = false ↔
      recursive ∨ ∀ path ∈ remotes, ¬ (buckets path.bucket).HasSubdirs path := by
  unfold rmPlan
  rw [Plan.failed_forEach]
  constructor
  · intro h
    refine or_iff_not_imp_left.2 fun hrec path hpath => ?_
    exact ((failed_rmSchedule (habs path hpath)).1 (h path hpath)).resolve_left hrec
  · intro h path hpath
    exact (failed_rmSchedule (habs path hpath)).2 (h.imp_right fun h => h path hpath)

/-- The plan of a removal deletes just the objects asked for and included. -/
theorem mem_rmPlan (habs : ∀ path ∈ remotes, path.path.head? = some '/')
    (hkeys : ∀ path ∈ remotes, (buckets path.bucket).PlainKeys)
    (hplan : (rmPlan sync buckets recursive remotes).failed = false) {t : Task} :
    t ∈ (rmPlan sync buckets recursive remotes).actions ↔
      ∃ k, t = .remoteFileDeleter k ∧ Doomed sync buckets remotes k := by
  have hsub := (failed_rmPlan habs).1 hplan
  have hmem : ∀ path ∈ remotes,
      (t ∈ (rmSchedule sync (buckets path.bucket) recursive path).actions ↔
        ∃ k, t = .remoteFileDeleter k ∧
          IncludedFile sync ((buckets path.bucket).tree path true) k) := by
    intro path hpath
    rw [rmSchedule_eq (habs path hpath) (hsub.imp_right fun h => h path hpath),
      mem_deletePossiblyRecursive (sorted_tree path)]
    constructor
    · rintro ⟨p, f, hf, hincluded, rfl⟩
      exact ⟨_, rfl, p, f, hf, hincluded, rfl⟩
    · rintro ⟨k, rfl, p, f, hf, hincluded, rfl⟩
      exact ⟨p, f, hf, hincluded, rfl⟩
  unfold rmPlan at hplan ⊢
  rw [Plan.mem_forEach hplan]
  constructor
  · rintro ⟨path, hpath, ht⟩
    obtain ⟨k, rfl, hk⟩ := (hmem path hpath).1 ht
    exact ⟨k, rfl, path, hpath, (includedFile_tree (hkeys path hpath) (habs path hpath)).1 hk⟩
  · rintro ⟨k, rfl, path, hpath, hk⟩
    refine ⟨path, hpath, (hmem path hpath).2 ⟨k, rfl, ?_⟩⟩
    exact (includedFile_tree (hkeys path hpath) (habs path hpath)).2 hk

/-- What a removal leaves. -/
theorem mem_rmLeaves (habs : ∀ path ∈ remotes, path.path.head? = some '/')
    (hkeys : ∀ path ∈ remotes, (buckets path.bucket).PlainKeys) {ts : List Task}
    (hts : ts.Perm (rmPlan sync buckets recursive remotes).actions) {objects : Set S3Path}
    {k : S3Path} :
    k ∈ rmLeaves (rmPlan sync buckets recursive remotes) ts objects ↔
      k ∈ objects ∧ ((recursive ∨ ∀ path ∈ remotes, ¬ (buckets path.bucket).HasSubdirs path) →
        ¬ Doomed sync buckets remotes k) := by
  unfold rmLeaves
  have hfailed : (rmPlan sync buckets recursive remotes).failed = false ↔ _ := failed_rmPlan habs
  rw [← hfailed]
  cases hplan : (rmPlan sync buckets recursive remotes).failed with
  | true => simp
  | false =>
    have hmem := fun t => (hts.mem_iff (a := t)).trans (mem_rmPlan habs hkeys hplan)
    have hno : ∀ path k, Task.fileUploader path k ∉ ts := by
      intro path k h
      obtain ⟨k', hk', -⟩ := (hmem _).1 h
      cases hk'
    rw [if_neg (by simp), mem_foldl_run fun path k h => absurd h (hno path k)]
    simp [hno, hmem]

end

end ExtremeS3
