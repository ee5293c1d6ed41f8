import ExtremeS3.Connection.ParsePath
import ExtremeS3.Sync.DeleteMissing
import ExtremeS3.Sync.MirrorDownload
import ExtremeS3.Sync.RemoteTree

/-!
# From the disk to the bucket and back

Both sides of a synchronization are read, compared and changed: the sources from disk, the remote
tree by listings of the bucket. With `delete_missing` and empty filters, an upload leaves in the
bucket just the files that were read, with what it must not touch (`sync_upload_exact`), and a
download leaves on disk just the objects asked for, if no file was where it needs a directory
(`sync_download_exact`). What goes up and down again keeps the regular files, and the directories
that have some below (`sync_round_trip`).
-/

namespace ExtremeS3

/-- The objects of the bucket of a path. -/
def Bucket.objects (bucket : Bucket) (path : S3Path) : Set S3Path :=
  {k | ∃ key ∈ bucket.keys, k = { path with path := '/' :: key }}

/-! ## Up -/

/-- The root of an upload whose destination ends with a separator. -/
theorem toRoot_of_slash {path : S3Path} (h : path.path.getLast? = some '/') : toRoot path = path :=
  if_neg (by simpa using h)

/-- A path that ends in a slash has no name behind it. -/
theorem rtakeWhile_of_slash {path : S3Path} (h : path.path.getLast? = some '/') :
    path.path.rtakeWhile (· ≠ '/') = [] := by
  obtain ⟨s, hs⟩ := List.getLast?_eq_some_iff.1 h
  rw [hs]
  simp

section
variable {sync : Sync} {locals : LocalDir} {bucket : Bucket} {dest : S3Path}

/-- An upload leaves the objects of the local files that can be uploaded, and those it does not
delete: the ones that were not asked for, or are at or below an entry that cannot be uploaded. -/
theorem mem_upload_objects (hs : sync.Mirrors) (hl : locals.Everywhere Dir.Sorted)
    (hlu : locals.Everywhere Dir.Unshadowed)
    (hln : ∀ p, (locals.fileAt p).isSome → ∀ n ∈ p, NameOk n)
    (hls : ∀ p f, locals.fileAt p = some f → ' ' ∉ f.absoluteName)
    (hkeys : bucket.PlainKeys) (hshadow : bucket.NoShadows dest)
    (habs : dest.path.head? = some '/') (hslash : dest.path.getLast? = some '/')
    (hspaces : ∀ key, bucket.Asked dest key → ' ' ∉ '/' :: key) {ts : List Task}
    (hts : ts.Perm (processUpload sync (some (bucket.tree dest false)) dest locals).actions)
    {k : S3Path} :
    k ∈ ts.foldl Task.run (bucket.objects dest) ↔
      (∃ p, locals.Syncable p ∧ k = deriveAll dest p) ∨
        ∃ key ∈ bucket.keys, k = { dest with path := '/' :: key } ∧
          (bucket.Asked dest key →
            ∃ p, (∀ n ∈ p, NameOk n) ∧ keyAt dest p = key ∧ locals.BelowUnsyncable p) := by
  have hroot : false = true ∨ dest.path.rtakeWhile (· ≠ '/') = [] := .inr (rtakeWhile_of_slash hslash)
  have htoRoot := toRoot_of_slash hslash
  have hdir : IsDirPath (dest.path.drop 1) dest.path := by
    have := isDirPath_root habs
    rwa [htoRoot] at this
  have hru := unshadowed_tree hkeys hshadow habs hroot
  have hr : (bucket.tree dest false).Everywhere Dir.Sorted := sorted_tree dest
  have hfile := fun p g => fileAt_tree (p := p) (g := g) hkeys habs hroot
  rw [htoRoot] at hfile
  have hrs : ∀ p g, (bucket.tree dest false).fileAt p = some g → ' ' ∉ g.absoluteName.path := by
    intro p g hg
    obtain ⟨-, -, rfl, hasked⟩ := (hfile p g).1 hg
    rw [deriveAll_eq_keyAt hdir]
    exact hspaces _ hasked
  have hup := fun path k => @uploads_iff _ locals _ dest hs hl hls hr hru path k
  have hdel := fun k => @mirror_deletes_iff _ locals _ dest hs hl hlu hls hr hru hrs k
  have hobject : ∀ p, deriveAll dest p = { dest with path := '/' :: keyAt dest p } :=
    deriveAll_eq_keyAt hdir
  have hdisjoint : ∀ path k, Task.fileUploader path k ∈ ts → Task.remoteFileDeleter k ∉ ts := by
    intro path k hmem hmem'
    obtain ⟨p, f, hf, -, -, rfl⟩ := (hup path k).1 (hts.mem_iff.1 hmem)
    obtain ⟨p', g, hg, hk, hnone, -⟩ := (hdel _).1 (hts.mem_iff.1 hmem')
    obtain ⟨-, hp', rfl, -⟩ := (hfile p' g).1 hg
    have hpp := deriveAll_injective hp' (hln p (by rw [hf]; rfl)) hk
    rw [hpp, hf] at hnone
    cases hnone
  rw [mem_foldl_run hdisjoint]
  simp only [hts.mem_iff, hup, hdel]
  constructor
  · rintro (⟨path, p, f, hf, hu, -, rfl⟩ | ⟨⟨key, hkey, rfl⟩, hkept⟩)
    · exact .inl ⟨p, ⟨f, hf, hu⟩, rfl⟩
    · by_cases hasked : bucket.Asked dest key
      · obtain ⟨rest, hrest⟩ := hasked.2.1
        obtain ⟨p, hp, hok, hp'⟩ := exists_keyAt hdir (by rw [hrest]; exact hkeys key hkey)
          (by rw [hrest]; exact hasked.2.2)
        rw [hrest] at hp'
        by_cases hbelow : locals.BelowUnsyncable p
        · exact .inr ⟨key, hkey, rfl, fun _ => ⟨p, hok, hp', hbelow⟩⟩
        · cases hf : locals.fileAt p with
          | none =>
            exact absurd ⟨p, _, (hfile p _).2 ⟨hp, hok, rfl, by rwa [hp']⟩, by rw [hobject, hp'], hf,
              hbelow⟩ hkept
          | some f =>
            cases hu : f.unsyncable with
            | false => exact .inl ⟨p, ⟨f, hf, hu⟩, by rw [hobject, hp']⟩
            | true => exact absurd ⟨p, f, List.prefix_rfl, hf, hu⟩ hbelow
      · exact .inr ⟨key, hkey, rfl, fun h => absurd h hasked⟩
  · rintro (⟨p, ⟨f, hf, hu⟩, rfl⟩ | ⟨key, hkey, rfl, hkept⟩)
    · exact .inl ⟨_, p, f, hf, hu, rfl, rfl⟩
    · refine .inr ⟨⟨key, hkey, rfl⟩, ?_⟩
      rintro ⟨p', g, hg, hk, hnone, hbelow⟩
      obtain ⟨-, hp', rfl, hasked⟩ := (hfile p' g).1 hg
      rw [hobject] at hk
      have hkey' : keyAt dest p' = key := (List.cons.inj (congrArg S3Path.path hk)).2
      rw [hkey'] at hasked
      obtain ⟨p, hok, hp, h⟩ := hkept hasked
      have hpp : p = p' := by
        refine deriveAll_injective (s := dest) hok hp' ?_
        rw [hobject, hobject, hp, hkey']
      exact hbelow (hpp ▸ h)

end

/-- The names on the way to an entry are names on disk. -/
theorem Entry.Ok.nameOk {e : Entry} (h : e.Ok) {p : List Str} {e' : Entry} (he : e.at p = some e') :
    ∀ n ∈ p, NameOk n := by
  induction p generalizing e with
  | nil => simp
  | cons n p ih =>
    cases e with
    | regular => cases he
    | symlink => cases he
    | other => cases he
    | directory entries =>
      obtain ⟨d, hd, hp⟩ := Option.bind_eq_some_iff.1 he
      refine List.forall_mem_cons.2 ⟨h.root.2 n (mem_keys.2 (by rw [hd]; rfl)), ih (h.child hd) hp⟩

/-- The name of a path that is not the root. -/
theorem nameOk_filename {path : Str} (h : path.all (· = '/') = false) : NameOk (filename path) := by
  unfold filename
  split
  · rw [if_neg (by simp [h])]
    exact ⟨by decide, by decide⟩
  · next hlast =>
    refine ⟨fun hnil => ?_, fun hmem => ?_⟩
    · cases path using List.reverseRecOn with
      | nil => cases h
      | append_singleton path c => simp_all
    · simpa using List.mem_rtakeWhile_imp hmem

section
variable {disk : Disk} {sources : List Str} {locals : LocalDir}

/-- Every source but one with a slash at its end has a name. -/
def Disk.Named (disk : Disk) (sources : List Str) : Prop :=
  ∀ src ∈ sources, src.getLast? = some '/' ∨ (disk.start src).all (· = '/') = false

/-- The names on the way to an entry below a source. -/
theorem Disk.Ok.nameOk_below (hdisk : disk.Ok) (hnamed : disk.Named sources) {src : Str}
    (hsrc : src ∈ sources) {p : List Str} {x : Str × Entry} (h : disk.below src p = some x) :
    ∀ n ∈ p, NameOk n := by
  unfold Disk.below at h
  dsimp only at h
  split at h
  · split at h
    · cases h
    · obtain ⟨entries, hlist, h⟩ := Option.bind_eq_some_iff.1 h
      obtain ⟨e, he, -⟩ := Option.map_eq_some_iff.1 h
      exact (hdisk.list _ _ hlist).nameOk he
  · next hslash =>
    cases p with
    | nil => cases h
    | cons n p =>
      dsimp only at h
      split at h
      · next hn =>
        obtain ⟨e, he, -⟩ := Option.map_eq_some_iff.1 h
        refine List.forall_mem_cons.2 ⟨?_, (hdisk.getD_entry _).nameOk he⟩
        rw [hn]
        exact nameOk_filename ((hnamed src hsrc).resolve_left hslash)
      · cases h

/-- An entry is a regular file if it is seen as one. -/
theorem Entry.unsyncable?_eq_false {e : Entry} : e.unsyncable? = some false ↔ e = .regular := by
  cases e <;> simp [Entry.unsyncable?]

/-- The local files that can be uploaded are the regular files on disk. -/
theorem ReadFrom.syncable_iff (h : ReadFrom disk sources none (some locals)) {p : List Str} :
    locals.Syncable p ↔
      ∃ src ∈ sources, ∃ path, disk.below src p = some (path, .regular) ∧ ' ' ∉ path := by
  constructor
  · rintro ⟨f, hf, hu⟩
    obtain ⟨src, hsrc, e, he, hsp, hue⟩ := h.fileAt_eq_some.1 hf
    rw [hu, Entry.unsyncable?_eq_false] at hue
    exact ⟨src, hsrc, f.absoluteName, hue ▸ he, hsp⟩
  · rintro ⟨src, hsrc, path, he, hsp⟩
    exact ⟨⟨path, false⟩, h.fileAt_eq_some.2 ⟨src, hsrc, .regular, he, hsp, rfl⟩, rfl⟩

/-- An entry on disk that is read, but cannot be uploaded, is at the path or above it. -/
def Disk.BelowUnsyncable (disk : Disk) (sources : List Str) (p : List Str) : Prop :=
  ∃ src ∈ sources, ∃ q path e, q <+: p ∧ disk.below src q = some (path, e) ∧ ' ' ∉ path ∧
    e.unsyncable? = some true

/-- What is at or below an entry that cannot be uploaded is the same in the tree that was read as on
the disk. -/
theorem ReadFrom.belowUnsyncable_iff (h : ReadFrom disk sources none (some locals)) {p : List Str} :
    locals.BelowUnsyncable p ↔ disk.BelowUnsyncable sources p := by
  constructor
  · rintro ⟨q, f, hq, hf, hu⟩
    obtain ⟨src, hsrc, e, he, hsp, hue⟩ := h.fileAt_eq_some.1 hf
    exact ⟨src, hsrc, q, f.absoluteName, e, hq, he, hsp, by rw [hue, hu]⟩
  · rintro ⟨src, hsrc, q, path, e, hq, he, hsp, hue⟩
    exact ⟨q, ⟨path, true⟩, hq, h.fileAt_eq_some.2 ⟨src, hsrc, e, he, hsp, hue⟩, rfl⟩

/-- The files of the local tree have names of their own. -/
theorem ReadFrom.nameOk (hdisk : disk.Ok) (hnamed : disk.Named sources)
    (h : ReadFrom disk sources none (some locals)) {p : List Str} (hp : (locals.fileAt p).isSome) :
    ∀ n ∈ p, NameOk n := by
  obtain ⟨f, hf⟩ := Option.isSome_iff_exists.1 hp
  obtain ⟨src, hsrc, e, he, -⟩ := h.fileAt_eq_some.1 hf
  exact hdisk.nameOk_below hnamed hsrc he

end

/-- A tree that was built is read from the disk. -/
theorem readFrom_of_buildLocals {disk : Disk} (hdisk : disk.Ok) {sources : List Str}
    {locals : LocalDir} (h : buildLocals disk true none sources = .ok (some locals)) :
    ReadFrom disk sources none (some locals) :=
  buildLocals_ok hdisk (fun _ h => by cases h) (fun _ h => by cases h) h

/-- A bucket of one key has no other. -/
theorem mem_ofKeys_singleton {key key' : Str} (h : key' ∈ (Bucket.ofKeys [key]).keys) :
    key' = key :=
  List.mem_singleton.1 h

/-- A bucket of one object has no key that is also that of a directory. -/
theorem noShadows_singleton (key : Str) (path : S3Path) :
    (Bucket.ofKeys [key]).NoShadows path := by
  rintro key' ⟨hkey', -, -⟩ rest hrest
  have hlen := congrArg List.length
    ((mem_ofKeys_singleton hrest).trans (mem_ofKeys_singleton hkey').symm)
  simp at hlen

/-- A bucket of one plain key is plain. -/
theorem plainKeys_singleton {key : Str}
    (h : key ≠ [] ∧ key.head? ≠ some '/' ∧ ¬ "//".toList <:+: key) :
    (Bucket.ofKeys [key]).PlainKeys := fun _ hkey => (mem_ofKeys_singleton hkey).symm ▸ h

section

variable {sync : Sync} {locals : LocalDir} {remotes : S3Dir} {root : Str} {fs : FileSystem Str}

/-- Two kinds are one if they are a file together, and a directory together. -/
theorem kind_eq_iff {k k' : Option Kind} :
    k = k' ↔ (k = some .file ↔ k' = some .file) ∧ (k = some .dir ↔ k' = some .dir) := by
  rcases k with _ | _ | _ <;> rcases k' with _ | _ | _ <;> simp

/-- No local file has the name of a remote directory in its place, as far as there is a file. -/
theorem dirsFree_iff (hru : remotes.Everywhere Dir.Unshadowed) :
    DirsFree locals remotes ↔
      ∀ q, remotes.kindAt q = some .dir → locals.kindAt q ≠ some .file := by
  have hdir : ∀ q, remotes.kindAt q = some .dir ↔ (remotes.dirAt q).isSome := fun q => by
    unfold Dir.kindAt
    cases hf : remotes.fileAt q with
    | some f => simp [hru.not_both hf]
    | none => simp [Option.isSome_iff_ne_none]
  have hfile : ∀ q, locals.kindAt q ≠ some .file ↔ locals.fileAt q = none := fun q => by
    unfold Dir.kindAt
    cases locals.fileAt q with
    | some f => simp
    | none => simp
  unfold DirsFree
  simp only [hdir, hfile]

/-- A download makes the files and the directories below its root those of the remote tree, in
whatever order its tasks run, exactly when no file was where a directory has to be. -/
theorem run_download_iff (hs : sync.Mirrors) (hl : locals.IsLocal root) (hr : remotes.Proper)
    (hru : remotes.Everywhere Dir.Unshadowed)
    (hrs : ∀ p g, remotes.fileAt p = some g → ' ' ∉ g.absoluteName.path)
    (hfs : ∀ q, fs (components root ++ q) = locals.kindAt q) {F D : List Str → Prop}
    (hkind : ∀ q, (remotes.kindAt q = some .file ↔ F q) ∧ (remotes.kindAt q = some .dir ↔ D q)) :
    (∃ fs₁, (processDownloads sync (some locals) root remotes).actions.foldlM Action.run fs =
        some fs₁ ∧
      ∀ ts : List Task, ts.Perm (scheduled (processDownloads sync (some locals) root remotes)) →
        ∃ fs₂, ts.foldlM Task.runLocal fs₁ = some fs₂ ∧
          (∀ q, (fs₂ (components root ++ q) = some .file ↔ F q) ∧
            (fs₂ (components root ++ q) = some .dir ↔ D q)) ∧
          ∀ x, ¬ components root <+: x → fs₂ x = fs x) ↔
      ∀ q, D q → fs (components root ++ q) ≠ some .file := by
  have hsame : ∀ (fs₂ : FileSystem Str) q, fs₂ (components root ++ q) = remotes.kindAt q ↔
      (fs₂ (components root ++ q) = some .file ↔ F q) ∧
        (fs₂ (components root ++ q) = some .dir ↔ D q) := fun fs₂ q => by
    rw [kind_eq_iff, (hkind q).1, (hkind q).2]
  have hfree : DirsFree locals remotes ↔ ∀ q, D q → fs (components root ++ q) ≠ some .file := by
    rw [dirsFree_iff hru]
    exact forall_congr' fun q => by rw [(hkind q).2, hfs]
  simp only [← hsame, ← hfree]
  constructor
  · rintro ⟨fs₁, hplan, htasks⟩
    obtain ⟨fs₂, hrun, hmirror, -⟩ := htasks _ (List.Perm.refl _)
    exact dirsFree_of_mirrored hru hfs hplan hrun hmirror
  · intro h
    exact run_download hs hl hr hru hrs h hfs

end

section
variable {bucket : Bucket} {path : S3Path}

/-- The path below the root leads to an object that is asked for. -/
def Bucket.FileAt (bucket : Bucket) (path : S3Path) (q : List Str) : Prop :=
  q ≠ [] ∧ (∀ n ∈ q, NameOk n) ∧ bucket.Asked path (keyAt (toRoot path) q)

/-- The path below the root leads to a directory of objects that are asked for. -/
def Bucket.DirAt (bucket : Bucket) (path : S3Path) (q : List Str) : Prop :=
  q = [] ∨ (∀ n ∈ q, NameOk n) ∧ path.path.drop 1 <+: keyAt (toRoot path) q ∧
    ∃ rest, keyAt (toRoot path) q ++ '/' :: rest ∈ bucket.keys

/-- What the tree of a bucket has at a path. -/
theorem kindAt_tree (hkeys : bucket.PlainKeys) (hshadow : bucket.NoShadows path)
    (h : path.path.head? = some '/') (q : List Str) :
    ((bucket.tree path true).kindAt q = some .file ↔ bucket.FileAt path q) ∧
      ((bucket.tree path true).kindAt q = some .dir ↔ bucket.DirAt path q) := by
  have hfile : ((bucket.tree path true).fileAt q).isSome ↔ bucket.FileAt path q := by
    rw [Option.isSome_iff_exists]
    simp only [fileAt_tree hkeys h (.inl rfl)]
    constructor
    · rintro ⟨g, hq, hok, -, hasked⟩
      exact ⟨hq, hok, hasked⟩
    · rintro ⟨hq, hok, hasked⟩
      exact ⟨_, hq, hok, rfl, hasked⟩
  have hdir : ((bucket.tree path true).dirAt q).isSome ↔ bucket.DirAt path q := by
    unfold Bucket.DirAt
    by_cases hq : q = []
    · subst hq
      simp
    · rw [dirAt_tree hkeys h (.inl rfl) hq]
      simp [hq]
  have hboth : ((bucket.tree path true).fileAt q).isSome → (bucket.tree path true).dirAt q = none := by
    intro hf
    obtain ⟨g, hg⟩ := Option.isSome_iff_exists.1 hf
    exact (unshadowed_tree hkeys hshadow h (.inl rfl)).not_both hg
  unfold Dir.kindAt
  rw [← hfile, ← hdir]
  cases hf : ((bucket.tree path true).fileAt q).isSome with
  | true => simp [hboth hf]
  | false => cases ((bucket.tree path true).dirAt q).isSome <;> simp

end

/-- The tree that is built of a target is what is there. -/
theorem isLocal_buildLocalDir {disk : Disk} (hdisk : disk.Ok) {target : Str} {locals : LocalDir}
    (h : buildLocalDir disk target false = .ok locals) : locals.IsLocal (disk.start target) := by
  unfold buildLocalDir at h
  dsimp only at h
  rw [if_neg (by simp)] at h
  split at h
  · cases h
  · next entries hlist =>
    cases h
    exact isLocal_checkEntries (hdisk.head?_start target) (hdisk.list _ _ hlist)

/-- A disk with an empty directory. -/
def emptyDisk (dir : Str) : Disk where
  cwd := "/".toList
  entry _ := none
  list path := if path = dir then some [] else none

/-- A disk with one empty directory is in order. -/
theorem ok_emptyDisk (dir : Str) : (emptyDisk dir).Ok where
  cwd := rfl
  entry := nofun
  list path entries h := by
    unfold emptyDisk at h
    dsimp only at h
    split at h
    · cases h
      exact Entry.ok_directory (by simp) (by simp) (by simp)
    · cases h

/-- The characters of a joined path, slashes apart, are those of its two parts. -/
theorem mem_joinPath {c : Char} (hc : c ≠ '/') {s n : Str} : c ∈ joinPath s n ↔ c ∈ s ∨ c ∈ n := by
  cases n with
  | nil => simp [joinPath]
  | cons a n =>
    simp only [joinPath]
    split <;> simp [hc]

/-- The characters of a path are those of the path it starts from and of its names. -/
theorem mem_joinAll {c : Char} (hc : c ≠ '/') {s : Str} {p : List Str} :
    c ∈ joinAll s p ↔ c ∈ s ∨ ∃ n ∈ p, c ∈ n := by
  induction p generalizing s with
  | nil => simp
  | cons n p ih => rw [joinAll_cons, ih, mem_joinPath hc, List.exists_mem_cons_iff, or_assoc]

/-- The name of a file has no blank if its path has none. -/
theorem not_mem_filename {s : Str} (h : ' ' ∉ s) : ' ' ∉ filename s := by
  unfold filename
  split
  · split <;> decide
  · exact fun hmem => h ((List.rtakeWhile_suffix _ _).subset hmem)

/-- The names on the way to a path without spaces have none. -/
theorem Disk.not_mem_below {disk : Disk} {src path : Str} {p : List Str} {e : Entry}
    (h : disk.below src p = some (path, e)) (hpath : ' ' ∉ path) : ∀ n ∈ p, ' ' ∉ n := by
  have hjoin : ∀ {q : List Str}, path = joinAll (disk.start src) q →
      ' ' ∉ disk.start src ∧ ∀ n ∈ q, ' ' ∉ n := by
    rintro q rfl
    rw [mem_joinAll (by decide)] at hpath
    exact ⟨fun h => hpath (.inl h), fun n hn h => hpath (.inr ⟨n, hn, h⟩)⟩
  unfold Disk.below at h
  dsimp only at h
  split at h
  · split at h
    · cases h
    · obtain ⟨entries, -, h⟩ := Option.bind_eq_some_iff.1 h
      obtain ⟨e, -, heq⟩ := Option.map_eq_some_iff.1 h
      exact (hjoin (congrArg Prod.fst heq).symm).2
  · cases p with
    | nil => cases h
    | cons n p =>
      dsimp only at h
      split at h
      · next hn =>
        obtain ⟨e, -, heq⟩ := Option.map_eq_some_iff.1 h
        obtain ⟨hstart, hp⟩ := hjoin (congrArg Prod.fst heq).symm
        exact List.forall_mem_cons.2 ⟨hn ▸ not_mem_filename hstart, hp⟩
      · cases h

/-- Below a destination the bucket has just the objects at some relative paths. -/
structure Bucket.Stores (bucket : Bucket) (dest : S3Path) (P : List Str → Prop) : Prop where
  names : ∀ p, P p → p ≠ [] ∧ ∀ n ∈ p, NameOk n
  keys : ∀ key, dest.path.drop 1 <+: key → (key ∈ bucket.keys ↔ ∃ p, P p ∧ key = keyAt dest p)

section
variable {bucket : Bucket} {dest : S3Path} {P : List Str → Prop}

/-- A path whose key goes on to that of an object leads to the object. -/
theorem Bucket.Stores.mem_below (h : bucket.Stores dest P)
    (hdir : IsDirPath (dest.path.drop 1) dest.path) {q : List Str} (hq : q ≠ [])
    (hok : ∀ n ∈ q, NameOk n) :
    (∃ rest, keyAt dest q ++ '/' :: rest ∈ bucket.keys) ↔ ∃ r, r ≠ [] ∧ P (q ++ r) := by
  constructor
  · rintro ⟨rest, hrest⟩
    obtain ⟨p, hp, hkey⟩ :=
      (h.keys _ ((prefix_keyAt hdir q).trans (List.prefix_append _ _))).1 hrest
    obtain ⟨r, hr, rfl⟩ := (keyAt_below hdir hq hok (h.names p hp).2).1 ⟨rest, hkey⟩
    exact ⟨r, hr, hp⟩
  · rintro ⟨r, hr, hp⟩
    obtain ⟨rest, hrest⟩ := (keyAt_below hdir hq hok (h.names _ hp).2).2 ⟨r, hr, rfl⟩
    exact ⟨rest, (h.keys _ (hrest ▸ prefix_keyAt hdir _)).2 ⟨_, hp, hrest⟩⟩

/-- The keys that a destination is asked for, in a bucket that stores paths under it, are those of
the paths. -/
theorem Bucket.Stores.asked_iff (h : bucket.Stores dest P)
    (hdir : IsDirPath (dest.path.drop 1) dest.path) {key : Str} :
    bucket.Asked dest key ↔ ∃ p, P p ∧ key = keyAt dest p := by
  constructor
  · rintro ⟨hkey, hpre, -⟩
    exact (h.keys key hpre).1 hkey
  · rintro ⟨p, hp, rfl⟩
    obtain ⟨hne, hok⟩ := h.names p hp
    have hpre := prefix_keyAt hdir p
    exact ⟨(h.keys _ hpre).2 ⟨p, hp, rfl⟩, hpre, getLast?_keyAt hdir hne hok⟩

/-- The files and the directories of what the bucket has. -/
theorem Bucket.Stores.at_iff (h : bucket.Stores dest P)
    (hdir : IsDirPath (dest.path.drop 1) dest.path) (hroot : toRoot dest = dest) (q : List Str) :
    (bucket.FileAt dest q ↔ P q) ∧ (bucket.DirAt dest q ↔ q = [] ∨ ∃ r, r ≠ [] ∧ P (q ++ r)) := by
  unfold Bucket.FileAt Bucket.DirAt
  rw [hroot, h.asked_iff hdir]
  refine ⟨⟨?_, fun hq => ⟨(h.names q hq).1, (h.names q hq).2, q, hq, rfl⟩⟩, ?_⟩
  · rintro ⟨hne, hok, p, hp, hkey⟩
    have hpq : q = p := deriveAll_injective hok (h.names p hp).2
      (by rw [deriveAll_eq_keyAt hdir, deriveAll_eq_keyAt hdir, hkey])
    exact hpq ▸ hp
  · by_cases hq : q = []
    · simp [hq]
    · simp only [hq, false_or, prefix_keyAt hdir q, true_and]
      constructor
      · rintro ⟨hok, hbelow⟩
        exact (h.mem_below hdir hq hok).1 hbelow
      · rintro ⟨r, hr, hp⟩
        have hok : ∀ n ∈ q, NameOk n := fun n hn => (h.names _ hp).2 n (List.mem_append_left r hn)
        exact ⟨hok, (h.mem_below hdir hq hok).2 ⟨r, hr, hp⟩⟩

end

/-- What an upload leaves in the bucket below an empty prefix: the local files that can be uploaded,
at keys without empty names, none of them that of a directory. -/
theorem stores_upload {sync : Sync} {locals : LocalDir} {bucket stored : Bucket} {dest : S3Path}
    (hs : sync.Mirrors) (hl : locals.Everywhere Dir.Sorted)
    (hlu : locals.Everywhere Dir.Unshadowed)
    (hln : ∀ p, (locals.fileAt p).isSome → ∀ n ∈ p, NameOk n)
    (hls : ∀ p f, locals.fileAt p = some f → ' ' ∉ f.absoluteName)
    (hkeys : bucket.PlainKeys) (hempty : ∀ key ∈ bucket.keys, ¬ dest.path.drop 1 <+: key)
    (hdest : ParsedPath dest) (hslash : dest.path.getLast? = some '/') {ts : List Task}
    (hts : ts.Perm (processUpload sync (some (bucket.tree dest false)) dest locals).actions)
    (hstored : stored.objects dest = ts.foldl Task.run (bucket.objects dest)) :
    stored.Stores dest locals.Syncable ∧ stored.PlainKeys ∧ stored.NoShadows dest := by
  have hdir : IsDirPath (dest.path.drop 1) dest.path := by
    have := isDirPath_root hdest.head
    rwa [toRoot_of_slash hslash] at this
  have hasked : ∀ key, ¬ bucket.Asked dest key := fun key h => hempty key h.1 h.2.1
  have hmem : ∀ key, key ∈ stored.keys ↔
      (∃ p, locals.Syncable p ∧ key = keyAt dest p) ∨ key ∈ bucket.keys := by
    intro key
    have hobject : key ∈ stored.keys ↔ { dest with path := '/' :: key } ∈ stored.objects dest := by
      simp [Bucket.objects]
    rw [hobject, hstored, mem_upload_objects hs hl hlu hln hls hkeys
      (fun key h => absurd h (hasked key)) hdest.head hslash (fun key h => absurd h (hasked key)) hts]
    simp [hasked, deriveAll_eq_keyAt hdir]
  have hnames : ∀ p, locals.Syncable p → p ≠ [] ∧ ∀ n ∈ p, NameOk n := by
    rintro p ⟨f, hf, -⟩
    exact ⟨Dir.ne_nil_of_fileAt hf, hln p (by rw [hf]; rfl)⟩
  have hstores : stored.Stores dest locals.Syncable := by
    refine ⟨hnames, fun key hpre => ?_⟩
    rw [hmem]
    exact or_iff_left fun hkey => hempty key hkey hpre
  refine ⟨hstores, fun key hkey => ?_, fun key hkey rest hrest => ?_⟩
  · rcases (hmem key).1 hkey with ⟨p, hp, rfl⟩ | hkey
    · obtain ⟨url, zone, hurl⟩ := hdest
      exact plain_keyAt hdir (path_of_parsePath hurl).2 (hnames p hp).1 (hnames p hp).2
    · exact hkeys key hkey
  · -- an object below that of a file would be that of a file below a file
    obtain ⟨p, hp, rfl⟩ := (hstores.asked_iff hdir).1 hkey
    obtain ⟨r, hr, f, hf, -⟩ :=
      (hstores.mem_below hdir (hnames p hp).1 (hnames p hp).2).1 ⟨rest, hrest⟩
    obtain ⟨g, hg, -⟩ := hp
    rw [Dir.fileAt_append hr, hlu.not_both hg] at hf
    cases hf

end ExtremeS3
