import ExtremeS3.Sync.Download
import ExtremeS3.Sync.Upload

/-!
# Without `delete_missing` nothing is deleted

Neither planner schedules a task that deletes, unless `delete_missing` is set
(`sync_deletes_nothing`). Each place where one of them can delete has a guard of its own, so
a level of the recursion is enough: `processUpload` and `processDownloads` go on with the same
`synchronizer`.
-/

namespace ExtremeS3

/-- The task removes something, or a directory before it downloads. -/
def Task.deletes : Task → Bool
  | .remoteFileDeleter _ | .localFileDeleter _ => true
  | .fileDownloader _ _ deleteDir => deleteDir
  | .fileUploader .. => false

/-- The action schedules a task that removes something. -/
def Action.deletes : Action → Bool
  | .schedule task => task.deletes
  | .mkdir _ => false

variable {sync : Sync}

/-- The upload of a file deletes nothing, where nothing may be deleted. -/
theorem deletes_uploadFile (hd : sync.deleteMissing = false) {r : Option S3Dir} {path : S3Path}
    {n : Str} {f : LocalFile} {t : Task} (h : t ∈ (uploadFile sync r path n f).actions) :
    t.deletes = false := by
  obtain ⟨-, -, ⟨dir, -, hd', -⟩ | ⟨-, -, rfl⟩⟩ := mem_uploadFile.1 h
  · rw [hd] at hd'
    cases hd'
  · rfl

/-- An upload schedules no deletion, at any level. -/
theorem deletes_processUpload (hd : sync.deleteMissing = false) {r : Option S3Dir} {path : S3Path}
    {l : LocalDir} {t : Task} (h : t ∈ (processUpload sync r path l).actions) :
    t.deletes = false := by
  have hno : ¬ sync.deleteMissing = true := by rw [hd]; exact Bool.false_ne_true
  induction l using Dir.induct generalizing r path with
  | node i files subdirs ih =>
    rcases mem_processUpload_node_of_mem h with ⟨e, -, h⟩ | ⟨e, he, h⟩ | h
    · exact deletes_uploadFile hd h
    · rcases h with ⟨hd', -⟩ | ⟨r', -, h⟩
      · exact absurd hd' hno
      · exact ih e.1 e.2 he h
    · exact absurd (mem_deleteUnseen.1 h).1 hno

/-- The download of a file deletes nothing, where nothing may be deleted. -/
theorem deletes_downloadFile (hd : sync.deleteMissing = false) {l : Option LocalDir} {path n : Str}
    {f : S3File} {a : Action} (h : a ∈ (downloadFile sync l path n f).actions) :
    a.deletes = false := by
  obtain ⟨-, hs, -, rfl⟩ := mem_downloadFile.1 h
  -- the flag is set only where `delete_missing` is
  show (l.bind fun d => findKey n d.subdirs).isSome = false
  cases hl : (l.bind fun d => findKey n d.subdirs).isSome with
  | false => rfl
  | true =>
    rw [hs hl] at hd
    cases hd

/-- A download schedules no deletion, at any level. -/
theorem deletes_processDownloads (hd : sync.deleteMissing = false) {l : Option LocalDir} {path : Str}
    {r : S3Dir} {a : Action} (h : a ∈ (processDownloads sync l path r).actions) :
    a.deletes = false := by
  induction r using Dir.induct generalizing l path with
  | node i files subdirs ih =>
    rcases mem_processDownloads_node_of_mem h with ⟨e, -, h⟩ | ⟨e, he, h⟩ | h
    · exact deletes_downloadFile hd h
    · rcases mem_downloadSubdir.1 h with ⟨-, -, rfl⟩ | ⟨l', -, h⟩
      · rfl
      · exact ih e.1 e.2 he h
    · rw [deleteUnseenLocals, if_neg (by rw [hd]; exact Bool.false_ne_true)] at h
      cases h

/-- Without `delete_missing`, no upload and no download deletes anything. -/
theorem sync_deletes_nothing (hd : sync.deleteMissing = false) :
    (∀ remotes remotePath locals, ∀ t ∈ (processUpload sync remotes remotePath locals).actions,
      t.deletes = false) ∧
    ∀ locals localPath remotes, ∀ a ∈ (processDownloads sync locals localPath remotes).actions,
      a.deletes = false :=
  ⟨fun _ _ _ _ h => deletes_processUpload hd h, fun _ _ _ _ h => deletes_processDownloads hd h⟩

/-- A synchronization that keeps what is missing. -/
def keeping : Sync := { mirroring with deleteMissing := false }

/-- `sync_deletes_nothing` at that synchronization. -/
theorem sync_deletes_nothing_keeping :
    (∀ remotes remotePath locals, ∀ t ∈ (processUpload keeping remotes remotePath locals).actions,
      t.deletes = false) ∧
    ∀ locals localPath remotes, ∀ a ∈ (processDownloads keeping locals localPath remotes).actions,
      a.deletes = false := sync_deletes_nothing rfl

end ExtremeS3
