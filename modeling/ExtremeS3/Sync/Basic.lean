import ExtremeS3.Lib.Dir
import ExtremeS3.Lib.Plan
import ExtremeS3.Sync.Paths

/-!
# The planner of a synchronization

A `synchronizer` compares a tree of local files with a tree of remote objects and schedules tasks.
`process_upload` and `process_downloads` recurse over the tree of their source side together with
the directory of the same name on the other side, if there is one; `delete_possibly_recursive`
recurses over a remote tree. Where `check_mode` makes the code look into the maps of a directory
that is not there, planning fails.
-/

namespace ExtremeS3

/-- `local_file`, without the name that its directory keeps it under. -/
structure LocalFile where
  absoluteName : Str
  unsyncable : Bool
  deriving DecidableEq, Repr

/-- `s3_file`, likewise. -/
structure S3File where
  absoluteName : S3Path
  deriving DecidableEq, Repr

/-- `local_dir`, with its `absolute_name_`. -/
abbrev LocalDir := Dir Str Str LocalFile

/-- `s3_directory`, with its `absolute_name_`. -/
abbrev S3Dir := Dir Str S3Path S3File

/-- The tasks that a planner schedules. -/
inductive Task where
  | fileUploader (path : Str) (remote : S3Path)
  | remoteFileDeleter (remote : S3Path)
  | fileDownloader (path : Str) (remote : S3Path) (deleteDir : Bool)
  | localFileDeleter (file : Str)
  deriving DecidableEq, Repr

/-- The members of `synchronizer` that planning reads, with the `check_mode` it is called with and
the test that `pattern_match` makes of a pattern and a name. -/
structure Sync where
  deleteMissing : Bool
  checkMode : Bool
  included : List Str
  excluded : List Str
  patternMatch : Str → Str → Bool

/-- `check_included`. -/
def Sync.checkIncluded (sync : Sync) (name : Str) : Bool :=
  if ' ' ∈ name then false -- skip filenames with spaces
  else if sync.excluded.any fun f => sync.patternMatch f name then false
  else if sync.included ≠ [] then sync.included.any fun f => sync.patternMatch f name
  else true

/-- Erase keys one after the other. -/
def eraseAll (names : List Str) (m : List (Str × V)) : List (Str × V) :=
  names.foldl (fun m n => eraseKey n m) m

/-- The names in a directory, its files first. -/
def Dir.names (d : Dir Str ι φ) : List Str := d.files.map Prod.fst ++ d.subdirs.map Prod.fst

/-! ## Remote deletion -/

mutual

/-- `delete_possibly_recursive`. -/
def deletePossiblyRecursive (sync : Sync) (nonRecursive : Bool) : S3Dir → Plan Task
  | .node _ files subdirs =>
    if nonRecursive && !subdirs.isEmpty then .fail
    else
      .forEach files (fun e =>
        if sync.checkIncluded e.2.absoluteName.path then
          .one (.remoteFileDeleter e.2.absoluteName)
        else .nil) ++
      deleteSubdirs sync subdirs

/-- The loop of `delete_possibly_recursive` over the subdirectories. -/
def deleteSubdirs (sync : Sync) : List (Str × S3Dir) → Plan Task
  | [] => .nil
  | (_, dir) :: dirs => deletePossiblyRecursive sync false dir ++ deleteSubdirs sync dirs

end

/-! ## Upload -/

/-- What `process_upload` does with a local file. -/
def uploadFile (sync : Sync) (remotes : Option S3Dir) (remotePath : S3Path) (name : Str)
    (file : LocalFile) : Plan Task :=
  if file.unsyncable then .nil -- skip bad files
  else if !sync.checkIncluded file.absoluteName then .nil
  else
    let uploader := Task.fileUploader file.absoluteName (derive remotePath name)
    match remotes.bind fun r => findKey name r.subdirs with
    | some dir =>
      -- the local file shadows a directory on the remote side
      if sync.deleteMissing then deletePossiblyRecursive sync false dir ++ .one uploader else .nil
    | none =>
      if !sync.checkMode then .one uploader
      else
        match remotes with
        | none => .fail -- `remotes->files_` of no directory
        | some r => if (findKey name r.files).isSome then .nil else .one uploader

/-- The deletions at the end of `process_upload`: of the remote files and directories that no local
name has erased from `unseen` and `unseen_dirs`. -/
def deleteUnseen (sync : Sync) (locals : List Str) (remotes : Option S3Dir) : Plan Task :=
  match remotes with
  | none => .nil
  | some r =>
    if sync.deleteMissing then
      .forEach (eraseAll locals r.files) (fun e => .one (.remoteFileDeleter e.2.absoluteName)) ++
      .forEach (eraseAll locals r.subdirs) fun e => deletePossiblyRecursive sync false e.2
    else .nil

mutual

/-- `process_upload`. -/
def processUpload (sync : Sync) (remotes : Option S3Dir) (remotePath : S3Path) :
    LocalDir → Plan Task
  | .node _ files subdirs =>
    .forEach files (fun e => uploadFile sync remotes remotePath e.1 e.2) ++
    uploadSubdirs sync remotes remotePath subdirs ++
    deleteUnseen sync (files.map Prod.fst ++ subdirs.map Prod.fst) remotes

/-- The loop of `process_upload` over the subdirectories. -/
def uploadSubdirs (sync : Sync) (remotes : Option S3Dir) (remotePath : S3Path) :
    List (Str × LocalDir) → Plan Task
  | [] => .nil
  | (name, dir) :: dirs =>
    (match remotes.bind fun r => findKey name r.files with
    | some file =>
      -- the local directory is shadowed by a file on the remote side
      if sync.deleteMissing then
        .one (.remoteFileDeleter file.absoluteName) ++
        processUpload sync none (derive remotePath name) dir
      else .nil
    | none =>
      processUpload sync (remotes.bind fun r => findKey name r.subdirs) (derive remotePath name)
        dir) ++
    uploadSubdirs sync remotes remotePath dirs

end

/-! ## Download -/

/-- What `process_downloads` does: it schedules tasks, and it makes directories at once. -/
inductive Action where
  | schedule (task : Task)
  | mkdir (path : Str)
  deriving DecidableEq, Repr

/-- What `process_downloads` does with a remote file. -/
def downloadFile (sync : Sync) (locals : Option LocalDir) (localPath name : Str) (file : S3File) :
    Plan Action :=
  if !sync.checkIncluded file.absoluteName.path then .nil
  else
    let shadowed := (locals.bind fun l => findKey name l.subdirs).isSome
    let downloader := Action.schedule
      (.fileDownloader (appendPath localPath name) file.absoluteName shadowed)
    if shadowed && !sync.deleteMissing then .nil
    else if !sync.checkMode then .one downloader
    else
      match locals with
      | none => .fail -- `locals->files_` of no directory
      | some l => if (findKey name l.files).isSome then .nil else .one downloader

/-- `unseen` before anything is erased from it: the names of a local directory with the paths. -/
def unseenLocals : Option LocalDir → List (Str × Str)
  | none => []
  | some l =>
    l.subdirs.foldl (fun m e => upsert e.1 (fun _ => e.2.info) m)
      (l.files.foldl (fun m e => upsert e.1 (fun _ => e.2.absoluteName) m) [])

/-- The deletions at the end of `process_downloads`. -/
def deleteUnseenLocals (sync : Sync) (remotes : List Str) (locals : Option LocalDir) :
    Plan Action :=
  if sync.deleteMissing then
    .forEach (eraseAll remotes (unseenLocals locals)) fun e =>
      .one (.schedule (.localFileDeleter e.2))
  else .nil

mutual

/-- `process_downloads`. -/
def processDownloads (sync : Sync) (locals : Option LocalDir) (localPath : Str) :
    S3Dir → Plan Action
  | .node _ files subdirs =>
    .forEach files (fun e => downloadFile sync locals localPath e.1 e.2) ++
    downloadSubdirs sync locals localPath subdirs ++
    deleteUnseenLocals sync (files.map Prod.fst ++ subdirs.map Prod.fst) locals

/-- The loop of `process_downloads` over the subdirectories. -/
def downloadSubdirs (sync : Sync) (locals : Option LocalDir) (localPath : Str) :
    List (Str × S3Dir) → Plan Action
  | [] => .nil
  | (name, dir) :: dirs =>
    (let curLocalPath := appendPath localPath name
    let newDir := locals.bind fun l => findKey name l.subdirs
    let shadowed := (locals.bind fun l => findKey name l.files).isSome
    if shadowed && !sync.deleteMissing then .nil
    else
      -- `local_file_deleter(cur_local_path)(agenda_ptr());` declares a function: the file stays
      (if newDir.isNone then .one (.mkdir curLocalPath) else .nil) ++
      processDownloads sync newDir curLocalPath dir) ++
    downloadSubdirs sync locals localPath dirs

end

/-! ## Trees and options to mirror -/

/-- A tree whose maps are maps, with names between separators. -/
structure Dir.Proper (d : Dir Str ι φ) : Prop where
  sorted : d.Everywhere Dir.Sorted
  named : d.Everywhere (Dir.Named NameOk)

/-- A subdirectory of a proper directory is proper. -/
theorem Dir.Proper.child {d e : Dir Str ι φ} (h : d.Proper) {n : Str}
    (hn : findKey n d.subdirs = some e) : e.Proper := ⟨h.sorted.child hn, h.named.child hn⟩

/-- A local tree as it is read from the directory `root`. -/
structure Dir.IsLocal (l : LocalDir) (root : Str) : Prop where
  ne_nil : root ≠ []
  sorted : l.Everywhere Dir.Sorted
  unshadowed : l.Everywhere Dir.Unshadowed
  named : l.Everywhere (Dir.Named NameOk)
  file : ∀ p f, l.fileAt p = some f → f.absoluteName = joinAll root p
  dir : ∀ p d, l.dirAt p = some d → d.info = joinAll root p

/-- A synchronization with `delete_missing` and empty filters. -/
structure Sync.Mirrors (sync : Sync) : Prop where
  deleteMissing : sync.deleteMissing = true
  checkMode : sync.checkMode = false
  included : sync.included = []
  excluded : sync.excluded = []

/-- Such a synchronization. -/
def mirroring : Sync where
  deleteMissing := true
  checkMode := false
  included := []
  excluded := []
  patternMatch := (· == ·)

/-- The example run mirrors. -/
theorem mirrors_mirroring : mirroring.Mirrors := ⟨rfl, rfl, rfl, rfl⟩

/-- A run that mirrors includes every name without a blank. -/
theorem Sync.Mirrors.checkIncluded {sync : Sync} (h : sync.Mirrors) {name : Str}
    (hn : ' ' ∉ name) : sync.checkIncluded name = true := by
  simp [Sync.checkIncluded, hn, h.included, h.excluded]

end ExtremeS3
