import ExtremeS3.Sync.Basic

/-!
# How the local tree is read from disk

`check_entry` adds a directory entry to the tree of the directory above it, and recurses into
directories; it passes over entries with a space in their path. So the tree of a directory has the
entries on disk whose paths have none: `fileAt_checkEntries` and `dirAt_checkEntries` say so for one
directory, and `fileAt_buildLocalDir` and `dirAt_buildLocalDir` for a source. A path is followed
from its first name on (`dirAt_cons_checkEntries`), and nothing is seen at or below a path with a
space (`seenFile_of_above`, `seenDir_of_above`). What is read is a tree that a directory can have,
with no file in the place of a subdirectory (`isLocal_checkEntries`).
-/

namespace ExtremeS3

/-- A directory entry, as `status` and `symlink_status` tell it. -/
inductive Entry where
  | regular
  | symlink
  | other
  | directory (entries : List (Str × Entry))

/-- A disk: the working directory, what is at a path without following a link, and what a
`directory_iterator` goes through at a path. -/
structure Disk where
  cwd : Str
  entry : Str → Option Entry
  list : Str → Option (List (Str × Entry))

/-- What stops `create_schedule` before anything is planned: a path that cannot be iterated over, or
one of the errors of `merge_to_left`. -/
inductive ScheduleError (ι : Type) where
  | iterate (path : Str)
  | fileCollision (right left : ι)
  | fileShadows (right left : ι)
  | dirShadowed (right left : ι)
  deriving DecidableEq, Repr

/-- What `check_entry` does with an entry that is not a directory. -/
def addFile (cwd : Str) (parent : LocalDir) (path : Str) (unsyncable : Bool) : LocalDir :=
  let absoluteName := absolute cwd path
  .node parent.info
    (upsert (filename absoluteName) (fun _ => ⟨absoluteName, unsyncable⟩) parent.files)
    parent.subdirs

mutual

/-- `check_entry`. -/
def checkEntry (cwd : Str) (parent : LocalDir) (path : Str) : Entry → LocalDir
  | .directory entries =>
    if ' ' ∈ path then parent
    else
      let target := checkEntries cwd (.node (absolute cwd path) [] []) path entries
      .node parent.info parent.files (upsert (filename path) (fun _ => target) parent.subdirs)
  | .regular => if ' ' ∈ path then parent else addFile cwd parent path false
  | .symlink | .other => if ' ' ∈ path then parent else addFile cwd parent path true

/-- The loop of `check_entry` over the entries of the directory at `path`. -/
def checkEntries (cwd : Str) (target : LocalDir) (path : Str) : List (Str × Entry) → LocalDir
  | [] => target
  | (name, entry) :: entries =>
    checkEntries cwd (checkEntry cwd target (appendPath path name) entry) path entries

end

/-- Where `build_local_dir` starts. -/
def Disk.start (disk : Disk) (startPath : Str) : Str :=
  let start := absolute disk.cwd startPath
  if filename start = ".".toList then parentPath start else start

/-- `build_local_dir`. -/
def buildLocalDir (disk : Disk) (startPath : Str) (upload : Bool) :
    Except (ScheduleError Str) LocalDir :=
  let start := disk.start startPath
  if startPath.getLast? ≠ some '/' ∧ upload then
    -- we're actually synchronizing path/../path, not path/*
    .ok (checkEntry disk.cwd (.node (parentPath start) [] []) start
      ((disk.entry start).getD .other))
  else
    match disk.list start with
    | none => .error (.iterate start)
    | some entries => .ok (checkEntries disk.cwd (.node start [] []) start entries)

/-! ## Entries on disk -/

/-- What an entry becomes as a file of a tree. -/
def Entry.unsyncable? : Entry → Option Bool
  | .regular => some false
  | .symlink | .other => some true
  | .directory _ => none

/-- The entry at a relative path. -/
def Entry.at : List Str → Entry → Option Entry
  | [], e => some e
  | n :: p, .directory entries => (findKey n entries).bind (Entry.at p)
  | _ :: _, .regular | _ :: _, .symlink | _ :: _, .other => none

/-- A path in two parts is followed in two parts. -/
theorem Entry.at_append (p q : List Str) (e : Entry) :
    e.at (p ++ q) = (e.at p).bind (Entry.at q) := by
  induction p generalizing e with
  | nil => rfl
  | cons n p ih =>
    cases e with
    | directory es =>
      rw [List.cons_append, Entry.at, Entry.at, Option.bind_assoc]
      exact congrArg _ (funext ih)
    | regular => rfl
    | symlink => rfl
    | other => rfl

/-- The names in every directory are different, and names between separators. -/
def Entry.Ok (e : Entry) : Prop :=
  ∀ p entries, e.at p = some (.directory entries) →
    (entries.map Prod.fst).Nodup ∧ ∀ n ∈ entries.map Prod.fst, NameOk n

/-- The names of a directory that is in order are in order, and none is there twice. -/
theorem Entry.Ok.root {entries : List (Str × Entry)} (h : (Entry.directory entries).Ok) :
    (entries.map Prod.fst).Nodup ∧ ∀ n ∈ entries.map Prod.fst, NameOk n := h [] entries rfl

/-- An entry of a directory that is in order is in order. -/
theorem Entry.Ok.child {entries : List (Str × Entry)} (h : (Entry.directory entries).Ok) {n : Str}
    {e : Entry} (hn : findKey n entries = some e) : e.Ok := fun p entries' he =>
  h (n :: p) entries' (by rw [Entry.at, hn]; exact he)

/-- A regular file is in order. -/
theorem Entry.ok_regular : Entry.regular.Ok := fun p entries h => by cases p <;> cases h

/-- A directory is in order if its names and its entries are. -/
theorem Entry.ok_directory {entries : List (Str × Entry)} (hnodup : (entries.map Prod.fst).Nodup)
    (hnames : ∀ n ∈ entries.map Prod.fst, NameOk n) (h : ∀ e ∈ entries, e.2.Ok) :
    (Entry.directory entries).Ok := fun p entries' hp => by
  cases p with
  | nil =>
    cases hp
    exact ⟨hnodup, hnames⟩
  | cons n p =>
    obtain ⟨e, he, hp⟩ := Option.bind_eq_some_iff.1 hp
    exact h (n, e) (mem_of_findKey he) p entries' hp

/-- What is below an entry that is in order is in order. -/
theorem Entry.Ok.at {e e' : Entry} (h : e.Ok) {p : List Str} (he : e.at p = some e') : e'.Ok :=
  fun q entries hq => h (p ++ q) entries (by rw [Entry.at_append, he]; exact hq)

/-- A disk with an absolute working directory and proper names. -/
structure Disk.Ok (disk : Disk) : Prop where
  cwd : disk.cwd.head? = some '/'
  entry : ∀ path e, disk.entry path = some e → e.Ok
  list : ∀ path entries, disk.list path = some entries → (Entry.directory entries).Ok

/-! ## The tree of a directory -/

/-- The file that an entry is read as. -/
def seenFile (path : Str) (e : Entry) : Option LocalFile :=
  if ' ' ∈ path then none else e.unsyncable?.map fun u => ⟨path, u⟩

/-- The directory that an entry is read as. -/
def seenDir (cwd path : Str) : Entry → Option LocalDir
  | .directory entries =>
    if ' ' ∈ path then none else some (checkEntries cwd (.node path [] []) path entries)
  | .regular | .symlink | .other => none

section

variable {cwd path : Str}

/-- An entry is put under its name among the files, if it is seen as a file. -/
theorem files_checkEntry (hpath : path.head? = some '/') {parent : LocalDir} (hs : parent.Sorted)
    (e : Entry) (m : Str) :
    findKey m (checkEntry cwd parent path e).files =
      if m = filename path then (seenFile path e).or (findKey m parent.files)
      else findKey m parent.files := by
  by_cases hsp : ' ' ∈ path
  · cases e <;> simp [checkEntry, seenFile, hsp]
  · cases e <;>
      simp [checkEntry, seenFile, hsp, addFile, absolute_of_head hpath, findKey_upsert hs.1,
        Entry.unsyncable?]

/-- An entry is put under its name among the subdirectories, if it is seen as a directory. -/
theorem subdirs_checkEntry (hpath : path.head? = some '/') {parent : LocalDir} (hs : parent.Sorted)
    (e : Entry) (m : Str) :
    findKey m (checkEntry cwd parent path e).subdirs =
      if m = filename path then (seenDir cwd path e).or (findKey m parent.subdirs)
      else findKey m parent.subdirs := by
  by_cases hsp : ' ' ∈ path
  · cases e <;> simp [checkEntry, seenDir, hsp]
  · cases e <;>
      simp [checkEntry, seenDir, hsp, addFile, absolute_of_head hpath, findKey_upsert hs.2]

/-- Looking at an entry leaves the directory sorted. -/
theorem sorted_checkEntry (cwd path : Str) {parent : LocalDir} (hs : parent.Sorted) (e : Entry) :
    (checkEntry cwd parent path e).Sorted := by
  by_cases hsp : ' ' ∈ path
  · cases e <;> simpa [checkEntry, hsp] using hs
  · cases e <;> simp only [checkEntry, hsp, if_false, addFile]
    · exact ⟨hs.1.upsert _ _, hs.2⟩
    · exact ⟨hs.1.upsert _ _, hs.2⟩
    · exact ⟨hs.1.upsert _ _, hs.2⟩
    · exact ⟨hs.1, hs.2.upsert _ _⟩

/-- Looking at an entry leaves the path of the directory as it is. -/
theorem info_checkEntry (parent : LocalDir) (e : Entry) :
    (checkEntry cwd parent path e).info = parent.info := by
  by_cases hsp : ' ' ∈ path
  · cases e <;> simp [checkEntry, hsp]
  · cases e <;> simp [checkEntry, hsp, addFile]

/-- Looking at entries leaves the directory sorted. -/
theorem sorted_checkEntries {target : LocalDir} (hs : target.Sorted) (es : List (Str × Entry)) :
    (checkEntries cwd target path es).Sorted := by
  induction es generalizing target with
  | nil => simpa [checkEntries] using hs
  | cons e es ih =>
    rw [checkEntries]
    exact ih (sorted_checkEntry _ _ hs e.2)

/-- Looking at entries leaves the path of the directory as it is. -/
theorem info_checkEntries (target : LocalDir) (es : List (Str × Entry)) :
    (checkEntries cwd target path es).info = target.info := by
  induction es generalizing target with
  | nil => rw [checkEntries]
  | cons e es ih => rw [checkEntries, ih, info_checkEntry]

/-- One directory: what a name is read as, besides what was there. -/
theorem findKey_checkEntries (cwd : Str) (hpath : path.head? = some '/') {es : List (Str × Entry)}
    (hnodup : (es.map Prod.fst).Nodup) (hok : ∀ n ∈ es.map Prod.fst, NameOk n) {target : LocalDir}
    (hs : target.Sorted) (m : Str) :
    findKey m (checkEntries cwd target path es).files =
        ((findKey m es).bind (seenFile (joinPath path m))).or (findKey m target.files) ∧
      findKey m (checkEntries cwd target path es).subdirs =
        ((findKey m es).bind (seenDir cwd (joinPath path m))).or (findKey m target.subdirs) := by
  have hne : path ≠ [] := fun h => by rw [h] at hpath; cases hpath
  induction es generalizing target with
  | nil => simp [checkEntries]
  | cons e es ih =>
    obtain ⟨n, e⟩ := e
    obtain ⟨hn, hnodup⟩ := List.nodup_cons.1 hnodup
    have hnok := hok n List.mem_cons_self
    have happ : appendPath path n = joinPath path n := by rw [appendPath, if_neg hne]
    have hhead : (joinPath path n).head? = some '/' := by
      rw [← hpath]
      exact head?_joinAll hne [n]
    obtain ⟨hfiles, hdirs⟩ := ih hnodup (fun k hk => hok k (List.mem_cons_of_mem _ hk))
      (sorted_checkEntry cwd _ hs e)
    rw [checkEntries, hfiles, hdirs, happ, files_checkEntry hhead hs, subdirs_checkEntry hhead hs,
      filename_joinPath path hnok, findKey_cons]
    by_cases hm : m = n
    · subst hm
      rw [findKey_eq_none.2 hn, if_pos rfl, if_pos rfl, if_pos rfl]
      exact ⟨rfl, rfl⟩
    · rw [if_neg hm, if_neg hm, if_neg hm]
      exact ⟨rfl, rfl⟩

/-- A path with a space leads below one with a space. -/
theorem seenFile_of_above {s t : Str} (h : s <+: t) (hs : ' ' ∈ s) (e : Entry) :
    seenFile t e = none := if_pos (h.subset hs)

/-- No directory is seen at or below a path with a blank. -/
theorem seenDir_of_above (cwd : Str) {s t : Str} (h : s <+: t) (hs : ' ' ∈ s) (e : Entry) :
    seenDir cwd t e = none := by
  cases e with
  | directory => exact if_pos (h.subset hs)
  | regular => rfl
  | symlink => rfl
  | other => rfl

/-- The tree of a directory before anything is read. -/
def emptyDir (i : Str) : LocalDir := .node i [] []

/-- An empty directory is sorted. -/
theorem sorted_emptyDir (i : Str) : (emptyDir i).Sorted := Dir.sorted_empty i

/-- A path into a directory that was read is followed from the entry of its first name on. -/
theorem dirAt_cons_checkEntries (hpath : path.head? = some '/') {es : List (Str × Entry)}
    (hok : (Entry.directory es).Ok) (i n : Str) (p : List Str) :
    (checkEntries cwd (emptyDir i) path es).dirAt (n :: p) =
      (findKey n es).bind fun e => (seenDir cwd (joinPath path n) e).bind (Dir.dirAt p) := by
  obtain ⟨-, hdirs⟩ := findKey_checkEntries cwd hpath hok.root.1 hok.root.2 (sorted_emptyDir i) n
  have hempty : findKey n (emptyDir i).subdirs = none := rfl
  rw [Dir.dirAt_cons, hdirs, hempty, Option.or_none, Option.bind_assoc]

/-- The directories below an entry. -/
theorem dirAt_seenDir (hpath : path.head? = some '/') {e : Entry} (hok : e.Ok) (p : List Str) :
    (seenDir cwd path e).bind (Dir.dirAt p) = (e.at p).bind (seenDir cwd (joinAll path p)) := by
  induction p generalizing path e with
  | nil => exact Option.bind_fun_some _
  | cons n p ih =>
    cases e with
    | directory es =>
      rw [seenDir]
      split
      · next hsp =>
        have hnone := seenDir_of_above cwd (prefix_joinAll path (n :: p)) hsp
        rw [funext hnone]
        exact (Option.bind_fun_none _).symm
      · refine (dirAt_cons_checkEntries hpath hok path n p).trans ?_
        rw [Entry.at]
        cases hn : findKey n es with
        | none => rfl
        | some e => exact ih (head?_joinPath hpath n) (hok.child hn)
    | regular => rfl
    | symlink => rfl
    | other => rfl

/-- The directories of the tree of a directory, the root apart. -/
theorem dirAt_checkEntries (hpath : path.head? = some '/') {es : List (Str × Entry)}
    (hok : (Entry.directory es).Ok) (i : Str) {p : List Str} (hp : p ≠ []) :
    (checkEntries cwd (emptyDir i) path es).dirAt p =
      ((Entry.directory es).at p).bind (seenDir cwd (joinAll path p)) := by
  cases p with
  | nil => exact absurd rfl hp
  | cons n p =>
    rw [dirAt_cons_checkEntries hpath hok, Entry.at]
    cases hn : findKey n es with
    | none => rfl
    | some e => exact dirAt_seenDir (head?_joinPath hpath n) (hok.child hn) p

/-- The file of a name in the tree of a directory. -/
theorem files_checkEntries (hpath : path.head? = some '/') {es : List (Str × Entry)}
    (hok : (Entry.directory es).Ok) (i n : Str) :
    findKey n (checkEntries cwd (emptyDir i) path es).files =
      ((Entry.directory es).at [n]).bind (seenFile (joinPath path n)) := by
  obtain ⟨hfiles, -⟩ := findKey_checkEntries cwd hpath hok.root.1 hok.root.2 (sorted_emptyDir i) n
  have hempty : findKey n (emptyDir i).files = none := rfl
  rw [hfiles, hempty, Option.or_none, Entry.at]
  cases findKey n es <;> rfl

/-- The file of a name in a directory below an entry. -/
theorem files_seenDir (hpath : path.head? = some '/') {e : Entry} (hok : e.Ok) (p : List Str)
    (n : Str) :
    (((e.at p).bind (seenDir cwd (joinAll path p))).bind fun d => findKey n d.files) =
      (e.at (p ++ [n])).bind (seenFile (joinAll path (p ++ [n]))) := by
  have hne : path ≠ [] := fun h => by rw [h] at hpath; cases hpath
  have hhead : (joinAll path p).head? = some '/' := by rw [head?_joinAll hne, hpath]
  rw [Entry.at_append, joinAll_concat]
  cases he : e.at p with
  | none => rfl
  | some e' =>
    rw [Option.bind_some, Option.bind_some]
    cases e' with
    | directory es =>
      rw [seenDir]
      split
      · next hsp =>
        have hle : joinAll path p <+: joinPath (joinAll path p) n := prefix_joinAll _ [n]
        rw [funext (seenFile_of_above hle hsp)]
        exact (Option.bind_fun_none _).symm
      · exact files_checkEntries hhead (hok.at he) _ n
    | regular => rfl
    | symlink => rfl
    | other => rfl

/-- The files of the tree of a directory. -/
theorem fileAt_checkEntries (hpath : path.head? = some '/') {es : List (Str × Entry)}
    (hok : (Entry.directory es).Ok) (i : Str) (p : List Str) :
    (checkEntries cwd (emptyDir i) path es).fileAt p =
      ((Entry.directory es).at p).bind (seenFile (joinAll path p)) := by
  rcases List.eq_nil_or_concat p with rfl | ⟨q, n, rfl⟩
  · simp [Entry.at, seenFile, Entry.unsyncable?]
  · rw [List.concat_eq_append, Dir.fileAt_concat]
    by_cases hq : q = []
    · subst hq
      exact files_checkEntries hpath hok i n
    · rw [dirAt_checkEntries hpath hok i hq]
      exact files_seenDir hpath hok q n

/-- Every directory of the tree of a directory is a tree of its own, read at its path. -/
theorem eq_of_dirAt_checkEntries (hpath : path.head? = some '/') {es : List (Str × Entry)}
    (hok : (Entry.directory es).Ok) {i : Str} {p : List Str} {d : LocalDir}
    (hd : (checkEntries cwd (emptyDir i) path es).dirAt p = some d) :
    ∃ j es', (Entry.directory es).at p = some (.directory es') ∧
      d = checkEntries cwd (emptyDir j) (joinAll path p) es' ∧ (p ≠ [] → j = joinAll path p) ∧
      (p = [] → j = i) := by
  by_cases hp : p = []
  · subst hp
    cases hd
    exact ⟨i, es, rfl, rfl, fun h => absurd rfl h, fun _ => rfl⟩
  · rw [dirAt_checkEntries hpath hok i hp] at hd
    obtain ⟨e, he, hd⟩ := Option.bind_eq_some_iff.1 hd
    cases e with
    | directory es' =>
      rw [seenDir] at hd
      split at hd
      · cases hd
      · exact ⟨_, es', he, (Option.some.inj hd).symm, fun _ => rfl, fun h => absurd h hp⟩
    | regular => cases hd
    | symlink => cases hd
    | other => cases hd

/-- One directory of such a tree: its maps are maps, and each name is an entry on disk, which is
read as a file or as a directory. -/
theorem level_checkEntries (hpath : path.head? = some '/') {es : List (Str × Entry)}
    (hok : (Entry.directory es).Ok) (i : Str) :
    (checkEntries cwd (emptyDir i) path es).Sorted ∧
      (checkEntries cwd (emptyDir i) path es).Unshadowed ∧
      (checkEntries cwd (emptyDir i) path es).Named NameOk := by
  have hlevel := findKey_checkEntries cwd hpath hok.root.1 hok.root.2 (sorted_emptyDir i)
  refine ⟨sorted_checkEntries (sorted_emptyDir i) es, fun n f hf => ?_, fun n hn => ?_⟩
  · rw [(hlevel n).1] at hf
    rw [(hlevel n).2]
    cases hn : findKey n es with
    | none => rfl
    | some e =>
      rw [hn, Option.bind_some] at hf
      cases e with
      | directory es' => simp [seenFile, Entry.unsyncable?, emptyDir] at hf
      | regular => rfl
      | symlink => rfl
      | other => rfl
  · refine hok.root.2 n (mem_keys.2 ?_)
    rw [(hlevel n).1, (hlevel n).2] at hn
    cases he : findKey n es with
    | some e => rfl
    | none => simp [he, emptyDir] at hn

/-- The tree of a directory is a local tree. -/
theorem isLocal_checkEntries (hpath : path.head? = some '/') {es : List (Str × Entry)}
    (hok : (Entry.directory es).Ok) :
    Dir.IsLocal (checkEntries cwd (emptyDir path) path es) path := by
  have hne : path ≠ [] := fun h => by rw [h] at hpath; cases hpath
  have hat : ∀ p d, (checkEntries cwd (emptyDir path) path es).dirAt p = some d →
      d.info = joinAll path p ∧ d.Sorted ∧ d.Unshadowed ∧ d.Named NameOk := by
    intro p d hd
    obtain ⟨j, es', he, rfl, hj, hj'⟩ := eq_of_dirAt_checkEntries hpath hok hd
    have hhead : (joinAll path p).head? = some '/' := by rw [head?_joinAll hne, hpath]
    refine ⟨?_, level_checkEntries hhead (hok.at he) j⟩
    rw [info_checkEntries]
    by_cases hp : p = []
    · rw [hp]
      exact hj' hp
    · exact hj hp
  exact {
    ne_nil := hne
    sorted := fun p d hd => (hat p d hd).2.1
    unshadowed := fun p d hd => (hat p d hd).2.2.1
    named := fun p d hd => (hat p d hd).2.2.2
    file := fun p f hf => by
      rw [fileAt_checkEntries hpath hok] at hf
      obtain ⟨e, -, hf⟩ := Option.bind_eq_some_iff.1 hf
      rw [seenFile] at hf
      split at hf
      · cases hf
      · obtain ⟨u, -, rfl⟩ := Option.map_eq_some_iff.1 hf
        rfl
    dir := fun p d hd => (hat p d hd).1 }

/-- The directories of the tree of one entry, the root apart. -/
theorem dirAt_checkEntry (hpath : path.head? = some '/') {e : Entry} (hok : e.Ok) (i n : Str)
    (p : List Str) :
    (checkEntry cwd (emptyDir i) path e).dirAt (n :: p) =
      if n = filename path then (e.at p).bind (seenDir cwd (joinAll path p)) else none := by
  have hempty : findKey n (emptyDir i).subdirs = none := rfl
  rw [Dir.dirAt_cons, subdirs_checkEntry hpath (sorted_emptyDir i), hempty, Option.or_none]
  split
  · exact dirAt_seenDir hpath hok p
  · rfl

/-- The files of the tree of one entry. -/
theorem fileAt_checkEntry (hpath : path.head? = some '/') {e : Entry} (hok : e.Ok) (i n : Str)
    (p : List Str) :
    (checkEntry cwd (emptyDir i) path e).fileAt (n :: p) =
      if n = filename path then (e.at p).bind (seenFile (joinAll path p)) else none := by
  rcases List.eq_nil_or_concat p with rfl | ⟨q, k, rfl⟩
  · have hempty : findKey n (emptyDir i).files = none := rfl
    rw [Dir.fileAt_singleton, files_checkEntry hpath (sorted_emptyDir i), hempty, Option.or_none]
    rfl
  · rw [List.concat_eq_append, ← List.cons_append, Dir.fileAt_concat, dirAt_checkEntry hpath hok]
    split
    · exact files_seenDir hpath hok q k
    · rfl

/-- An entry is read as a file or as a directory. -/
theorem unshadowed_checkEntry (hpath : path.head? = some '/') (e : Entry)
    (i : Str) : (checkEntry cwd (emptyDir i) path e).Unshadowed := by
  intro n f hf
  rw [files_checkEntry hpath (sorted_emptyDir i)] at hf
  rw [subdirs_checkEntry hpath (sorted_emptyDir i)]
  split at hf
  · next hn =>
    rw [if_pos hn]
    cases e with
    | directory => simp [seenFile, Entry.unsyncable?, emptyDir] at hf
    | regular => rfl
    | symlink => rfl
    | other => rfl
  · cases hf

/-- Every directory that was read is sorted, and no file of it is shadowed. -/
theorem level_dirAt_checkEntry {i n : Str} (hpath : path.head? = some '/') {e : Entry}
    (hok : e.Ok) {p : List Str} {d : LocalDir}
    (hd : (checkEntry cwd (emptyDir i) path e).dirAt (n :: p) = some d) :
    d.Sorted ∧ d.Unshadowed := by
  have hne : path ≠ [] := fun hn => by rw [hn] at hpath; cases hpath
  rw [dirAt_checkEntry hpath hok] at hd
  split at hd
  · obtain ⟨e', he, hd⟩ := Option.bind_eq_some_iff.1 hd
    cases e' with
    | directory es =>
      rw [seenDir] at hd
      split at hd
      · cases hd
      · cases hd
        have hhead : (joinAll path p).head? = some '/' := by rw [head?_joinAll hne, hpath]
        obtain ⟨hsorted, hunshadowed, -⟩ := level_checkEntries hhead (hok.at he) (joinAll path p)
        exact ⟨hsorted, hunshadowed⟩
    | regular => cases hd
    | symlink => cases hd
    | other => cases hd
  · cases hd

end

/-! ## The tree of a source -/

/-- What is on disk at a relative path below the counterpart of a source of an upload, with its
path. -/
def Disk.below (disk : Disk) (startPath : Str) (p : List Str) : Option (Str × Entry) :=
  let start := disk.start startPath
  if startPath.getLast? = some '/' then
    if p = [] then none
    else (disk.list start).bind fun entries =>
      ((Entry.directory entries).at p).map fun e => (joinAll start p, e)
  else
    match p with
    | [] => none
    | n :: p =>
      if n = filename start then
        (((disk.entry start).getD .other).at p).map fun e => (joinAll start p, e)
      else none

/-- A beginning of an absolute path is absolute. -/
theorem head?_of_prefix {s t : Str} (h : s <+: t) (hs : s ≠ []) (ht : t.head? = some '/') :
    s.head? = some '/' := by
  obtain ⟨u, rfl⟩ := h
  rwa [List.head?_append_of_ne_nil _ hs] at ht

/-- What is above an absolute path, the root apart, is absolute. -/
theorem head?_parentPath {path : Str} (hpath : path.head? = some '/')
    (hall : path.all (· = '/') = false) : (parentPath path).head? = some '/' := by
  have hdir : path.rdropWhile (· ≠ '/') ≠ [] := by
    rw [Ne, List.rdropWhile_eq_nil_iff]
    intro hno
    cases path with
    | nil => cases hpath
    | cons c path =>
      cases hpath
      exact absurd (hno '/' List.mem_cons_self) (by decide)
  have hhead := head?_of_prefix (List.rdropWhile_prefix _ _) hdir hpath
  rw [parentPath, hall, if_neg Bool.false_ne_true]
  dsimp only
  split
  · rfl
  · next hsep =>
    refine head?_of_prefix (List.rdropWhile_prefix _ _) (fun hno => hsep ⟨hdir, ?_⟩) hhead
    rw [List.rdropWhile_eq_nil_iff] at hno
    exact List.all_eq_true.2 hno

/-- An absolute path that is `.` at its end is not the root. -/
theorem all_eq_false_of_filename_dot {path : Str} (hpath : path.head? = some '/')
    (hdot : filename path = ".".toList) : path.all (· = '/') = false := by
  refine Bool.eq_false_iff.2 fun hall => ?_
  have hlast : path.getLast? = some '/' := by
    cases hl : path.getLast? with
    | none =>
      rw [List.getLast?_eq_none_iff.1 hl] at hpath
      cases hpath
    | some c =>
      have hc := List.all_eq_true.1 hall c (List.mem_of_getLast? hl)
      rw [of_decide_eq_true hc]
  rw [filename, if_pos hlast, if_pos hall] at hdot
  exact absurd hdot (by decide)

/-- An absolute path stays absolute. -/
theorem Disk.Ok.head?_start {disk : Disk} (h : disk.Ok) (startPath : Str) :
    (disk.start startPath).head? = some '/' := by
  have habs : (absolute disk.cwd startPath).head? = some '/' := by
    rw [absolute]
    split
    · assumption
    · have hne : disk.cwd ≠ [] := fun hn => by have := h.cwd; rw [hn] at this; cases this
      rw [appendPath, if_neg hne]
      exact head?_joinPath h.cwd startPath
  rw [Disk.start]
  split
  · next hdot => exact head?_parentPath habs (all_eq_false_of_filename_dot habs hdot)
  · exact habs

/-- Nothing is on disk at or below an entry that is not a directory but the entry. -/
theorem Entry.ok_other : Entry.other.Ok := fun p entries h => by
  cases p with
  | nil => cases h
  | cons => cases h

/-- Every path of a disk that is in order leads to an entry that is in order. -/
theorem Disk.Ok.getD_entry {disk : Disk} (h : disk.Ok) (path : Str) :
    ((disk.entry path).getD .other).Ok := by
  cases he : disk.entry path with
  | none => exact Entry.ok_other
  | some e => exact h.entry path e he

section

variable {disk : Disk} {startPath : Str} {l : LocalDir}

/-- The tree of a source is the one of its entries, or of itself. -/
theorem buildLocalDir_ok (h : buildLocalDir disk startPath true = .ok l) :
    startPath.getLast? = some '/' ∧ (∃ es, disk.list (disk.start startPath) = some es ∧
        l = checkEntries disk.cwd (emptyDir (disk.start startPath)) (disk.start startPath) es) ∨
      startPath.getLast? ≠ some '/' ∧
        l = checkEntry disk.cwd (emptyDir (parentPath (disk.start startPath)))
          (disk.start startPath) ((disk.entry (disk.start startPath)).getD .other) := by
  rw [buildLocalDir] at h
  by_cases hslash : startPath.getLast? = some '/'
  · rw [if_neg fun h => h.1 hslash] at h
    split at h
    · cases h
    · next es hes =>
      cases h
      exact .inl ⟨hslash, es, hes, rfl⟩
  · rw [if_pos ⟨hslash, rfl⟩] at h
    cases h
    exact .inr ⟨hslash, rfl⟩

/-- The files of the tree of a source. -/
theorem fileAt_buildLocalDir (hdisk : disk.Ok) (h : buildLocalDir disk startPath true = .ok l)
    (p : List Str) :
    l.fileAt p = (disk.below startPath p).bind fun x => seenFile x.1 x.2 := by
  have hstart := hdisk.head?_start startPath
  simp only [Disk.below]
  rcases buildLocalDir_ok h with ⟨hslash, es, hes, rfl⟩ | ⟨hslash, rfl⟩
  · rw [if_pos hslash, hes]
    split
    · next hp => rw [hp]; rfl
    · rw [Option.bind_some, Option.bind_map]
      exact fileAt_checkEntries hstart (hdisk.list _ es hes) _ p
  · rw [if_neg hslash]
    cases p with
    | nil => rfl
    | cons n p =>
      rw [fileAt_checkEntry hstart (hdisk.getD_entry _)]
      dsimp only
      split
      · rw [Option.bind_map]; rfl
      · rfl

/-- The directories of the tree of a source, the root apart. -/
theorem dirAt_buildLocalDir (hdisk : disk.Ok) (h : buildLocalDir disk startPath true = .ok l)
    {p : List Str} (hp : p ≠ []) :
    l.dirAt p = (disk.below startPath p).bind fun x => seenDir disk.cwd x.1 x.2 := by
  have hstart := hdisk.head?_start startPath
  simp only [Disk.below]
  rcases buildLocalDir_ok h with ⟨hslash, es, hes, rfl⟩ | ⟨hslash, rfl⟩
  · rw [if_pos hslash, hes, if_neg hp, Option.bind_some, Option.bind_map]
    exact dirAt_checkEntries hstart (hdisk.list _ es hes) _ hp
  · rw [if_neg hslash]
    cases p with
    | nil => exact absurd rfl hp
    | cons n p =>
      rw [dirAt_checkEntry hstart (hdisk.getD_entry _)]
      dsimp only
      split
      · rw [Option.bind_map]; rfl
      · rfl

/-- The maps of the tree of a source are maps, and none of its names is shadowed. -/
theorem sorted_buildLocalDir (hdisk : disk.Ok) (h : buildLocalDir disk startPath true = .ok l) :
    l.Everywhere Dir.Sorted ∧ l.Everywhere Dir.Unshadowed := by
  have hstart := hdisk.head?_start startPath
  rcases buildLocalDir_ok h with ⟨-, es, hes, rfl⟩ | ⟨-, rfl⟩
  · have hl : Dir.IsLocal (checkEntries disk.cwd (emptyDir _) _ es) _ :=
      isLocal_checkEntries hstart (hdisk.list _ es hes)
    exact ⟨hl.sorted, hl.unshadowed⟩
  · have hok := hdisk.getD_entry (disk.start startPath)
    refine ⟨fun p d hd => ?_, fun p d hd => ?_⟩
    · cases p with
      | nil =>
        cases hd
        exact sorted_checkEntry _ _ (sorted_emptyDir _) _
      | cons n p => exact (level_dirAt_checkEntry hstart hok hd).1
    · cases p with
      | nil =>
        cases hd
        exact unshadowed_checkEntry hstart _ _
      | cons n p => exact (level_dirAt_checkEntry hstart hok hd).2

end

end ExtremeS3
