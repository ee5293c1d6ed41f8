import ExtremeS3.Sync.Deletions
import ExtremeS3.Sync.Merge

/-!
# Which uploads delete nothing that is still there locally

The local tree leaves out the entries with a space in their path, and what it leaves out an upload
takes for missing: `spared_iff` says of an object when it is not deleted, in terms of what is on
disk, and `upload_spares_iff` for which sources no object is deleted that has a regular file. Both
rest on what the tree has of the disk (`ReadFrom.fileAt_eq_some`, `ReadFrom.dirAt_isSome`) and on
which deletions an upload plans.
-/

namespace ExtremeS3

/-- A regular file is on disk at the relative path below one of the sources. -/
def Disk.Holds (disk : Disk) (sources : List Str) (p : List Str) : Prop :=
  ∃ src ∈ sources, ∃ path, disk.below src p = some (path, .regular)

/-- Why an upload does not delete an object: an entry without a space in its path is read as a file
at the path of the object, or above it as one that is not uploaded; or a remote file takes the place
of a directory above it that is read; or its directory is not read and the filter rejects it. -/
inductive Spared (disk : Disk) (sources : List Str) (sync : Sync) (remotes : S3Dir) (p : List Str)
    (g : S3File) : Prop
  | seen {q src path e u} : q <+: p → src ∈ sources → disk.below src q = some (path, e) →
      ' ' ∉ path → e.unsyncable? = some u →
      q = p ∨ u = true ∨ sync.checkIncluded path = false → Spared disk sources sync remotes p g
  | shadowed {q src path entries} : q ≠ [] → q <+: p → q ≠ p → src ∈ sources →
      disk.below src q = some (path, .directory entries) → ' ' ∉ path →
      (remotes.fileAt q).isSome → Spared disk sources sync remotes p g
  | rejected : sync.checkIncluded g.absoluteName.path = false → p.dropLast ≠ [] →
      (∀ src ∈ sources, ∀ path entries,
        disk.below src p.dropLast = some (path, .directory entries) → ' ' ∈ path) →
      Spared disk sources sync remotes p g

section

variable {disk : Disk} {sources : List Str} {sync : Sync} {locals : LocalDir} {remotes : S3Dir}

/-- A file is seen if its path has no blank, and its kind is one that is listed. -/
theorem seenFile_eq_some {path : Str} {e : Entry} {f : LocalFile} :
    seenFile path e = some f ↔
      ' ' ∉ path ∧ e.unsyncable? = some f.unsyncable ∧ f.absoluteName = path := by
  rw [seenFile]
  by_cases hsp : ' ' ∈ path
  · simp [hsp]
  · rw [if_neg hsp, Option.map_eq_some_iff]
    constructor
    · rintro ⟨u, hu, rfl⟩
      exact ⟨hsp, hu, rfl⟩
    · rintro ⟨-, hu, rfl⟩
      exact ⟨_, hu, rfl⟩

/-- A directory is seen if its path has no blank. -/
theorem seenDir_isSome {cwd path : Str} {e : Entry} :
    (seenDir cwd path e).isSome ↔ ' ' ∉ path ∧ ∃ entries, e = .directory entries := by
  cases e with
  | directory es =>
    rw [seenDir]
    by_cases hsp : ' ' ∈ path <;> simp [hsp]
  | regular => simp [seenDir]
  | symlink => simp [seenDir]
  | other => simp [seenDir]

/-- The files of the local tree. -/
theorem ReadFrom.fileAt_eq_some (h : ReadFrom disk sources none (some locals)) {p : List Str}
    {f : LocalFile} :
    locals.fileAt p = some f ↔ ∃ src ∈ sources, ∃ e,
      disk.below src p = some (f.absoluteName, e) ∧ ' ' ∉ f.absoluteName ∧
        e.unsyncable? = some f.unsyncable := by
  have := h.fileAt p f
  simp only [Option.mem_def, Option.some.injEq, exists_eq_left', reduceCtorEq, false_and,
    exists_false, false_or] at this
  rw [this]
  constructor
  · rintro ⟨src, hsrc, ⟨path, e⟩, hx, hf⟩
    obtain ⟨hsp, hu, rfl⟩ := seenFile_eq_some.1 hf
    exact ⟨src, hsrc, e, hx, hsp, hu⟩
  · rintro ⟨src, hsrc, e, hx, hsp, hu⟩
    exact ⟨src, hsrc, _, hx, seenFile_eq_some.2 ⟨hsp, hu, rfl⟩⟩

/-- The directories of the local tree. -/
theorem ReadFrom.dirAt_isSome (h : ReadFrom disk sources none (some locals)) {p : List Str}
    (hp : p ≠ []) :
    (locals.dirAt p).isSome ↔ ∃ src ∈ sources, ∃ path entries,
      disk.below src p = some (path, .directory entries) ∧ ' ' ∉ path := by
  have := h.dirAt p hp
  simp only [Option.mem_def, Option.some.injEq, exists_eq_left', reduceCtorEq, false_and,
    exists_false, false_or] at this
  rw [this]
  constructor
  · rintro ⟨src, hsrc, ⟨path, e⟩, hx, hd⟩
    obtain ⟨hsp, entries, rfl⟩ := seenDir_isSome.1 hd
    exact ⟨src, hsrc, path, entries, hx, hsp⟩
  · rintro ⟨src, hsrc, path, entries, hx, hsp⟩
    exact ⟨src, hsrc, _, hx, seenDir_isSome.2 ⟨hsp, entries, rfl⟩⟩

/-- What an upload with `delete_missing` does not delete, in terms of what is on disk. -/
theorem spared_iff (h : ReadFrom disk sources none (some locals)) (hd : sync.deleteMissing)
    (p : List Str) (g : S3File) :
    Spared disk sources sync remotes p g ↔ ¬ sync.Deletes locals remotes p g := by
  constructor
  · intro hs hdel
    cases hs with
    | @seen q src path e u hq hsrc hx hsp hu hwhy =>
      have hf : locals.fileAt q = some ⟨path, u⟩ := h.fileAt_eq_some.2 ⟨src, hsrc, e, hx, hsp, hu⟩
      obtain ⟨hsync, hinc⟩ := hdel.above q _ hq hf
      rcases hwhy with rfl | hwhy | hwhy
      · rw [hdel.fileAt] at hf; cases hf
      · rw [show u = false from hsync] at hwhy; cases hwhy
      · rw [show sync.checkIncluded path = true from hinc] at hwhy; cases hwhy
    | @shadowed q src path entries hq hle hne hsrc hx hsp hg =>
      have hdir := (h.dirAt_isSome hq).2 ⟨src, hsrc, path, entries, hx, hsp⟩
      rw [hdel.dirs q hq hle hne hdir] at hg
      cases hg
    | rejected hc hp hno =>
      rcases hdel.included with hdir | hinc
      · obtain ⟨src, hsrc, path, entries, hx, hsp⟩ := (h.dirAt_isSome hp).1 hdir
        exact hsp (hno src hsrc path entries hx)
      · rw [hc] at hinc; cases hinc
  · intro hdel
    by_contra hs
    have hfile : ∀ q f, q <+: p → locals.fileAt q = some f →
        q ≠ p ∧ f.unsyncable = false ∧ sync.checkIncluded f.absoluteName := by
      intro q f hle hf
      obtain ⟨src, hsrc, e, hx, hsp, hu⟩ := h.fileAt_eq_some.1 hf
      by_contra hno
      refine hs (.seen hle hsrc hx hsp hu ?_)
      by_cases hq : q = p
      · exact .inl hq
      · cases hfu : f.unsyncable with
        | true => exact .inr (.inl rfl)
        | false =>
          refine .inr (.inr (Bool.eq_false_iff.2 fun hc => hno ⟨hq, hfu, hc⟩))
    refine hdel ⟨hd, Option.eq_none_iff_forall_not_mem.2 fun f hf =>
      (hfile p f (List.prefix_refl p) hf).1 rfl, fun q f hle hf => (hfile q f hle hf).2,
      fun q hq hle hne hdir => ?_, ?_⟩
    · obtain ⟨src, hsrc, path, entries, hx, hsp⟩ := (h.dirAt_isSome hq).1 hdir
      by_contra hg
      exact hs (.shadowed hq hle hne hsrc hx hsp (Option.isSome_iff_ne_none.2 hg))
    · by_contra hno
      rw [not_or, Bool.not_eq_true, Bool.not_eq_true] at hno
      have hp : p.dropLast ≠ [] := fun hp => by rw [hp] at hno; cases hno.1
      refine hs (.rejected hno.2 hp fun src hsrc path entries hx => ?_)
      by_contra hsp
      have hdir := (h.dirAt_isSome hp).2 ⟨src, hsrc, path, entries, hx, hsp⟩
      rw [hno.1] at hdir
      cases hdir

end

/-- An upload deletes no object that has a regular file on disk, at the same path below a source,
exactly when it is without `delete_missing` or every object with such a file is spared. -/
theorem upload_spares_iff {disk : Disk} {sources : List Str} {sync : Sync} {locals : LocalDir}
    {remotes : S3Dir} {dest : S3Path} (hdisk : disk.Ok)
    (hlocals : buildLocals disk true none sources = .ok (some locals))
    (hr : remotes.Everywhere Dir.Sorted)
    (hkeys : ∀ p p' g g', remotes.fileAt p = some g → remotes.fileAt p' = some g' →
      g.absoluteName = g'.absoluteName → p = p')
    (hf : (processUpload sync (some remotes) dest locals).failed = false) :
    (∀ p g, remotes.fileAt p = some g →
      .remoteFileDeleter g.absoluteName ∈
        (processUpload sync (some remotes) dest locals).actions → ¬ disk.Holds sources p) ↔
    (sync.deleteMissing → ∀ p g, remotes.fileAt p = some g → disk.Holds sources p →
      Spared disk sources sync remotes p g) := by
  have hread : ReadFrom disk sources none (some locals) :=
    buildLocals_ok hdisk nofun nofun hlocals
  have hdel : ∀ p g, remotes.fileAt p = some g →
      (.remoteFileDeleter g.absoluteName ∈
        (processUpload sync (some remotes) dest locals).actions ↔
      sync.Deletes locals remotes p g) := by
    intro p g hg
    rw [deletes_iff (hread.sorted _ rfl) (hread.unshadowed _ rfl) hr hf]
    constructor
    · rintro ⟨p', g', hg', hk, h⟩
      have hp := hkeys p' p g' g hg' hg hk
      subst hp
      rw [hg] at hg'
      cases hg'
      exact h
    · exact fun h => ⟨p, g, hg, rfl, h⟩
  constructor
  · intro h hd p g hg hholds
    rw [spared_iff hread hd]
    exact fun hdeletes => h p g hg ((hdel p g hg).2 hdeletes) hholds
  · intro h p g hg hmem hholds
    have hdeletes := (hdel p g hg).1 hmem
    have hd := hdeletes.deleteMissing
    exact (spared_iff hread hd p g).1 (h hd p g hg hholds) hdeletes

/-- A disk with the regular file `s` in one directory. -/
def diskWith (dir : Str) : Disk where
  cwd := "/".toList
  entry _ := none
  list path := if path = dir then some [("s".toList, .regular)] else none

/-- A disk with one directory is in order. -/
theorem ok_diskWith (dir : Str) : (diskWith dir).Ok where
  cwd := rfl
  entry := nofun
  list path entries h := by
    rw [diskWith] at h
    dsimp only at h
    split at h
    · cases h
      refine Entry.ok_directory (by simp) (fun n hn => ?_) (fun e he => ?_)
      · rw [List.mem_singleton.1 hn]
        exact ⟨by decide, by decide⟩
      · rw [List.mem_singleton.1 he]
        exact Entry.ok_regular
    · cases h

/-- An upload of a directory with a space in its path deletes an object that has a local file. -/
theorem upload_deletes_held :
    ∃ locals, buildLocals (diskWith "/a b".toList) true none ["/a b/".toList] = .ok (some locals) ∧
      ¬ ∀ p g, oneRemote.fileAt p = some g →
        .remoteFileDeleter g.absoluteName ∈
          (processUpload mirroring (some oneRemote) ⟨[], "b".toList, "/d/".toList⟩ locals).actions →
        ¬ (diskWith "/a b".toList).Holds ["/a b/".toList] p := by
  refine ⟨emptyDir "/a b".toList, rfl, fun h => ?_⟩
  refine h ["s".toList] ⟨[], "b".toList, "/d/s".toList⟩ rfl (by decide) ?_
  exact ⟨_, List.mem_singleton_self _, "/a b/s".toList, rfl⟩

/-- `upload_spares_iff` where the local file is uploaded. -/
theorem upload_spares_iff_one :
    (∀ p g, oneRemote.fileAt p = some g →
      .remoteFileDeleter g.absoluteName ∈
        (processUpload mirroring (some oneRemote) ⟨[], "b".toList, "/d".toList⟩
          (.node "/l".toList [("s".toList, ⟨"/l/s".toList, false⟩)] [])).actions →
        ¬ (diskWith "/l".toList).Holds ["/l/".toList] p) ↔
    (mirroring.deleteMissing → ∀ p g, oneRemote.fileAt p = some g →
      (diskWith "/l".toList).Holds ["/l/".toList] p →
      Spared (diskWith "/l".toList) ["/l/".toList] mirroring oneRemote p g) :=
  upload_spares_iff (ok_diskWith _) rfl proper_oneRemote.sorted
    (fun p p' g g' hg hg' _ => by rw [(fileAt_oneRemote hg).1, (fileAt_oneRemote hg').1])
    (failed_processUpload rfl _)

end ExtremeS3
