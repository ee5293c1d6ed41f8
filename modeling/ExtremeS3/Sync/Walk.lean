import ExtremeS3.Lib.DirWalk
import ExtremeS3.Sync.Listing

/-!
# The walk over a remote path

`create_schedule` and `schedule_recursive_walk` list the root of a remote path themselves and leave
every directory further down to a `list_subdir_task`, which adds what it lists to the tree that they
share and schedules the tasks for the directories it has found. The executors of the agenda perform
these tasks in whatever order; the tree is the same in the end (`walk_order_free`).
-/

namespace ExtremeS3

open Growing (Filling Grown)

/-- `list_subdir_task`, when its attempts have ended: its directory has been read in place, up to the
failure if there was one, and without one tasks are scheduled for the directories in it. -/
def walkTask (bucket : Bucket) (faults : Faults bucket) : Filling Str S3Path S3File where
  fill d :=
    let pre := d.info.path.drop 1
    ((faults.part pre).getD (bucket.list pre)).foldl (addItem unlisted) d
  goesOn d := (faults.part (d.info.path.drop 1)).isNone

/-- The root of a remote path when its own listing has been read. -/
def Remote.root (r : Remote) : S3Dir :=
  readItems (toRoot r.path) unlisted (r.bucket.list (r.path.path.drop 1))

/-- The tasks that list what is below the root. -/
def Remote.walk (r : Remote) : Machine (Growing Str S3Path S3File) (List Str) :=
  Growing.machine (walkTask r.bucket r.faults) r.root

section
variable {bucket : Bucket} {faults : Faults bucket} {path : S3Path}

/-! ## Reading a directory now, and what is below it later -/

/-- Mapping the values of a map that is set is setting the mapped one. -/
theorem map_upsert {V W : Type} (g : V → W) (k : Str) (v : V) (m : List (Str × V)) :
    (upsert k (fun _ => v) m).map (fun e => (e.1, g e.2)) =
      upsert k (fun _ => g v) (m.map fun e => (e.1, g e.2)) := by
  induction m with
  | nil => rfl
  | cons e m ih =>
    obtain ⟨k', v'⟩ := e
    rw [List.map_cons, upsert, upsert]
    split
    · rfl
    · split
      · rfl
      · rw [List.map_cons, ih]

/-- What is found is read as a leaf first, and as what it will have become in the end. -/
theorem mapSubdirs_readItems (sub : S3Path → S3Dir) (path : S3Path) (items : List Item) :
    Dir.mapSubdirs (fun d => sub d.info) (readItems path unlisted items) =
      readItems path sub items := by
  have hstep : ∀ (d : S3Dir) (i : Item), Dir.mapSubdirs (fun d => sub d.info) (addItem unlisted d i) =
      addItem sub (Dir.mapSubdirs (fun d => sub d.info) d) i := by
    intro d i
    cases i with
    | content name =>
      rw [addItem, addItem]
      split <;> rfl
    | commonPrefix name =>
      exact congrArg (Dir.node _ _) (map_upsert (fun d : S3Dir => sub d.info) _ _ _)
  have hfold : ∀ d : S3Dir,
      Dir.mapSubdirs (fun d => sub d.info) (items.foldl (addItem unlisted) d) =
        items.foldl (addItem sub) (Dir.mapSubdirs (fun d => sub d.info) d) := by
    induction items with
    | nil => exact fun _ => rfl
    | cons i items ih =>
      intro d
      rw [List.foldl_cons, List.foldl_cons, ih, hstep]
  exact hfold _

/-- Only the directories in it matter to a directory. -/
theorem readItems_congr {sub sub' : S3Path → S3Dir}
    (h : ∀ n, sub (derive path (n ++ "/".toList)) = sub' (derive path (n ++ "/".toList)))
    (items : List Item) : readItems path sub items = readItems path sub' items := by
  have hfold : ∀ d : S3Dir, d.info = path →
      items.foldl (addItem sub) d = items.foldl (addItem sub') d := by
    induction items with
    | nil => exact fun _ _ => rfl
    | cons i items ih =>
      intro d hd
      have hstep : addItem sub d i = addItem sub' d i := by
        cases i with
        | content name => rfl
        | commonPrefix name => simp only [addItem, hd, h]
      rw [List.foldl_cons, List.foldl_cons, hstep]
      exact ih _ ((info_addItem d i).trans hd)
  exact hfold _ rfl

/-- A joined path is at least as long as its two parts. -/
theorem length_joinPath_le (s n : Str) : s.length + n.length ≤ (joinPath s n).length := by
  cases n with
  | nil => exact Nat.le_refl _
  | cons c n =>
    simp only [joinPath]
    split <;> simp

/-- The path of a directory is longer than that of the directory it is in. -/
theorem length_derive (path : S3Path) (n : Str) :
    path.path.length < (derive path (n ++ "/".toList)).path.length := by
  have h := length_joinPath_le path.path (n ++ "/".toList)
  rw [List.length_append] at h
  exact Nat.lt_of_lt_of_le (Nat.lt_add_of_pos_right (Nat.succ_pos _)) h

/-- With enough fuel, more fuel reads no more. -/
theorem listSubdir_succ {fuel : Nat} (h : bucket.depth + 1 < fuel + path.path.length) :
    listSubdir bucket faults fuel path = listSubdir bucket faults (fuel + 1) path := by
  induction fuel generalizing path with
  | zero =>
    have hnil : bucket.list (path.path.drop 1) = [] := by
      refine bucket.list_eq_nil ?_
      rw [List.length_drop]
      omega
    rw [listSubdir, listSubdir]
    split
    · rw [hnil]
      rfl
    · next items hitems =>
      have hsubset := faults.subset hitems
      rw [hnil] at hsubset
      rw [List.eq_nil_of_subset_nil hsubset]
      rfl
  | succ fuel ih =>
    rw [listSubdir, listSubdir]
    split
    · refine readItems_congr (fun n => ih ?_) _
      have := length_derive path n
      omega
    · rfl

/-- A recursion over the directories is what the tasks make of the tree. -/
theorem unfolds_walkTask (bucket : Bucket) (faults : Faults bucket) :
    (walkTask bucket faults).Unfolds (listSubdir bucket faults (bucket.depth + 2)) := by
  have hfill : ∀ i : S3Path, (walkTask bucket faults).fill (Dir.leaf i) =
      readItems i unlisted ((faults.part (i.path.drop 1)).getD (bucket.list (i.path.drop 1))) :=
    fun _ => rfl
  constructor
  case leaves =>
    intro i n d hd
    have hsorted := (sorted_readItems sorted_unlisted i
      ((faults.part (i.path.drop 1)).getD (bucket.list (i.path.drop 1)))).root.2
    rw [hfill] at hd
    exact exists_of_findKey_subdirs (hsorted.findKey_eq_some.2 hd)
  case sorted =>
    intro i
    rw [hfill]
    exact (sorted_readItems sorted_unlisted i _).root
  case full =>
    intro i
    rw [hfill, mapSubdirs_readItems, listSubdir]
    have hgoes : (walkTask bucket faults).goesOn (Dir.leaf i) =
        (faults.part (i.path.drop 1)).isNone := rfl
    split
    · next hpart =>
      rw [hgoes, hpart, Option.isNone_none, if_pos rfl]
      refine readItems_congr (fun n => listSubdir_succ ?_) _
      have := length_derive i n
      omega
    · next items hpart =>
      rw [hgoes, hpart, if_neg (by simp)]
      rfl

end

/-- The tree of the recursion, from the root. -/
theorem Remote.mapSubdirs_root (r : Remote) :
    Dir.mapSubdirs (fun d => listSubdir r.bucket r.faults (r.bucket.depth + 2) d.info) r.root =
      r.listing := by
  rw [Remote.root, mapSubdirs_readItems, Remote.listing]
  refine readItems_congr (fun n => (listSubdir_succ ?_).symm) _
  have := length_derive (toRoot r.path) n
  omega

/-- In the beginning a task is pending for each directory of the root. -/
theorem Remote.grown_start (r : Remote) :
    Grown (listSubdir r.bucket r.faults (r.bucket.depth + 2)) r.listing [] (.start r.root) := by
  have hsorted : r.root.Everywhere Dir.Sorted := sorted_readItems sorted_unlisted _ _
  rw [← r.mapSubdirs_root]
  exact Growing.grown_start
    (fun n d hd => exists_of_findKey_subdirs (hsorted.root.2.findKey_eq_some.2 hd)) hsorted.root.2

/-- What a run of the tasks keeps. -/
theorem Remote.grown (r : Remote) {ls : List (List Str)} {s : Growing Str S3Path S3File}
    (h : r.walk.Run (.start r.root) ls s) :
    Grown (listSubdir r.bucket r.faults (r.bucket.depth + 2)) r.listing ls s :=
  Growing.grown_of_run (unfolds_walkTask r.bucket r.faults) r.grown_start h

/-- In whatever order the listing tasks of a remote path are performed, none is stuck, each has a
directory of its own, so that there are no more of them than directories, and when none is left the
tree is that of the recursive listing. -/
theorem walk_order_free (r : Remote) {ls : List (List Str)} {s : Growing Str S3Path S3File}
    (h : r.walk.Run (.start r.root) ls s) :
    (∀ p ∈ s.pending, ∃ t, r.walk.step s p t) ∧
      ls.Nodup ∧ ls.length ≤ {p | (r.listing.dirAt p).isSome}.ncard ∧
      (s.pending = [] → s.tree = r.listing) := by
  have hgrown := r.grown h
  refine ⟨fun p hp => hgrown.exists_perform hp, ?_, hgrown.length_le, ?_⟩
  · exact (List.nodup_append.1 hgrown.nodup).1
  · exact hgrown.tree_eq r.sorted_listing

/-- The root is an absolute path. -/
theorem slash_absolute : "/".toList.head? = some '/' := rfl

/-- A remote path with one object, in a directory. -/
def oneBelow : Remote where
  path := ⟨[], "b".toList, "/".toList⟩
  bucket := Bucket.ofKeys ["a/x".toList]
  faults := ⟨fun _ => none, by nofun⟩
  absolute := slash_absolute

/-- Its tree. -/
def oneBelowTree : S3Dir :=
  .node ⟨[], "b".toList, "/".toList⟩ []
    [("a".toList, .node ⟨[], "b".toList, "/a/".toList⟩
      [("x".toList, ⟨⟨[], "b".toList, "/a/x".toList⟩⟩)] [])]

/-- `walk_order_free` for the task of one directory. -/
theorem walk_order_free_one : ∃ s, oneBelow.walk.Run (.start oneBelow.root) [["a".toList]] s ∧
    s.tree = oneBelow.listing := by
  have hrun : oneBelow.walk.Run (.start oneBelow.root) [["a".toList]]
      ⟨oneBelowTree, []⟩ := .single rfl
  exact ⟨_, hrun, (walk_order_free oneBelow hrun).2.2.2 rfl⟩

end ExtremeS3
