import ExtremeS3.Sync.Download

/-!
# Which plans respect the filter

The filter is consulted for uploads, for downloads and for the files of a directory that is deleted
recursively. It is not consulted for a remote file without a local one of its name, for one that a
local directory shadows, or for anything local. `upload_keeps_iff` and `download_keeps_iff` say for
which trees nothing that the filter rejects is lost by that, and `filter_protects_iff` puts them
together. For a download the condition is one on the entries of each local directory that is visited
(`RejectedLocalsKept.entry`), and either direction is a lemma (`keeps_of_rejectedLocalsKept`,
`rejectedLocalsKept_of_keeps`).
-/

namespace ExtremeS3

/-- Removing the path removes no local file that the filter rejects. -/
def Sync.Spares (sync : Sync) (locals : LocalDir) (target : Str) : Prop :=
  ∀ p f, locals.fileAt p = some f → AtOrBelow target f.absoluteName →
    sync.checkIncluded f.absoluteName

/-- The task transfers and deletes nothing that the filter rejects. -/
def Task.Keeps (sync : Sync) (locals : LocalDir) : Task → Prop
  | .fileUploader path _ => sync.checkIncluded path
  | .remoteFileDeleter remote => sync.checkIncluded remote.path
  | .fileDownloader path remote deleteDir =>
    sync.checkIncluded remote.path ∧ (deleteDir → sync.Spares locals path)
  | .localFileDeleter file => sync.Spares locals file

/-- The action transfers and deletes nothing that the filter rejects. -/
def Action.Keeps (sync : Sync) (locals : LocalDir) : Action → Prop
  | .schedule t => t.Keeps sync locals
  | .mkdir _ => True

/-! ## Upload -/

/-- Every remote file that the filter rejects, in a directory that is there on both sides and that
no remote file shadows, has a local file of its name, and no local directory. -/
def RejectedRemotesKept (sync : Sync) (locals : LocalDir) (remotes : S3Dir) : Prop :=
  ∀ p l r, locals.dirAt p = some l → remotes.dirAt p = some r →
    (∀ q, q <+: p → remotes.fileAt q = none) →
    ∀ n g, findKey n r.files = some g → sync.checkIncluded g.absoluteName.path = false →
      (findKey n l.files).isSome ∧ findKey n l.subdirs = none

/-- Without a remote directory there is none further down. -/
theorem uploadVisit_none {sync : Sync} {l l' : LocalDir} {r' : Option S3Dir} {p : List Str}
    (h : uploadVisit sync none l p = some (l', r')) : r' = none := by
  refine Option.eq_none_iff_forall_not_mem.2 fun d hd => ?_
  have := (uploadVisit_dirAt h).2 d hd
  cases this

/-- No file is above a path or at it: none is at its first name, and none above the rest. -/
theorem forall_prefix_fileAt {r r' : S3Dir} {n : Str} {p : List Str}
    (hr : findKey n r.subdirs = some r') :
    (∀ q, q <+: n :: p → r.fileAt q = none) ↔
      findKey n r.files = none ∧ ∀ q, q <+: p → r'.fileAt q = none := by
  constructor
  · intro h
    refine ⟨h [n] ((List.prefix_cons_inj n).2 p.nil_prefix), fun q hq => ?_⟩
    cases q with
    | nil => rfl
    | cons m q =>
      have := h (n :: m :: q) ((List.prefix_cons_inj n).2 hq)
      rwa [Dir.fileAt_cons (List.cons_ne_nil _ _), hr] at this
  · rintro ⟨hf, h⟩ q hq
    cases q with
    | nil => rfl
    | cons m q =>
      obtain ⟨rfl, hq'⟩ := List.cons_prefix_cons.1 hq
      cases q with
      | nil => exact hf
      | cons k q =>
        rw [Dir.fileAt_cons (List.cons_ne_nil _ _), hr]
        exact h _ hq'

/-- With `delete_missing` the recursion of an upload compares the directories that are there on
both sides and that no remote file shadows. -/
theorem uploadVisit_some_iff {sync : Sync} (hd : sync.deleteMissing) {l l' : LocalDir} {r r' : S3Dir}
    {p : List Str} :
    uploadVisit sync (some r) l p = some (l', some r') ↔
      l.dirAt p = some l' ∧ r.dirAt p = some r' ∧ ∀ q, q <+: p → r.fileAt q = none := by
  induction p generalizing l r with
  | nil =>
    simp only [uploadVisit, Dir.dirAt_nil, Option.some.injEq, Prod.mk.injEq, List.prefix_nil]
    exact ⟨fun h => ⟨h.1, h.2, fun q hq => hq ▸ rfl⟩, fun h => ⟨h.1, h.2.1⟩⟩
  | cons n p ih =>
    rw [uploadVisit, Dir.dirAt_cons, Dir.dirAt_cons]
    cases hl : findKey n l.subdirs with
    | none => simp
    | some l₁ =>
      simp only [Option.bind_some, descend]
      cases hf : findKey n r.files with
      | some g =>
        simp only [hd, if_true, Option.bind_some]
        refine ⟨fun h => (by cases uploadVisit_none h), fun h => ?_⟩
        have := h.2.2 [n] ((List.prefix_cons_inj n).2 p.nil_prefix)
        rw [Dir.fileAt_singleton, hf] at this
        cases this
      | none =>
        simp only [Option.bind_some]
        cases hr : findKey n r.subdirs with
        | none =>
          exact ⟨fun h => (by cases uploadVisit_none h), fun h => by cases h.2.1⟩
        | some r₁ => simp only [ih, Option.bind_some, forall_prefix_fileAt hr, hf, true_and]

/-- An upload deletes nothing that the filter rejects exactly when every rejected remote file that
it could take for missing has a local file of its name. -/
theorem upload_keeps_iff {sync : Sync} {locals : LocalDir} {remotes : S3Dir} {path : S3Path}
    (hl : locals.Everywhere Dir.Sorted) (hr : remotes.Everywhere Dir.Sorted)
    (hf : (processUpload sync (some remotes) path locals).failed = false) :
    (∀ t ∈ (processUpload sync (some remotes) path locals).actions, t.Keeps sync locals) ↔
      (sync.deleteMissing → RejectedRemotesKept sync locals remotes) := by
  have hrs : RemoteSorted (some remotes) := fun d hd => by cases hd; exact hr
  constructor
  · intro h hd p l r hlp hrp hq n g hg hc
    have hv := (uploadVisit_some_iff hd).2 ⟨hlp, hrp, hq⟩
    have hmem := fun t (ht : UploadsAt sync l (some r) (deriveAll path p) t) =>
      h t ((mem_processUpload hl hrs hf).2 ⟨p, l, some r, hv, ht⟩)
    have hno : ¬ Task.Keeps sync locals (.remoteFileDeleter g.absoluteName) := fun hk => by
      rw [Task.Keeps, hc] at hk
      cases hk
    have hsub : findKey n l.subdirs = none := by
      cases hs : findKey n l.subdirs with
      | none => rfl
      | some dir => exact absurd (hmem _ (.shadowingFile hd hs hg)) hno
    refine ⟨?_, hsub⟩
    by_contra hfile
    refine hno (hmem _ (.unseenFile hd (fun hn => ?_) hg))
    rcases Dir.mem_names.1 hn with hn | hn
    · exact hfile hn
    · rw [hsub] at hn
      cases hn
  · intro h t ht
    obtain ⟨p, l, r, hv, ht⟩ := uploadsAt_of_mem hl hrs ht
    -- a rejected file of the compared remote directory has a local file of its name
    have hkept : ∀ n g, (r.bind fun d => findKey n d.files) = some g → sync.deleteMissing →
        sync.checkIncluded g.absoluteName.path = false →
        (findKey n l.files).isSome ∧ findKey n l.subdirs = none := by
      intro n g hg hd hc
      obtain ⟨d, rfl, hg⟩ := Option.bind_eq_some_iff.1 hg
      obtain ⟨hlp, hrp, hq⟩ := (uploadVisit_some_iff hd).1 hv
      exact h hd p l d hlp hrp hq n g hg hc
    cases ht with
    | upload _ _ hc => exact hc
    | shadowedDir _ _ _ _ _ _ hi => exact hi
    | unseenDir _ _ _ _ hi => exact hi
    | @shadowingFile n dir g hd hs hg =>
      by_contra hc
      rw [(hkept n g hg hd (Bool.eq_false_iff.2 hc)).2] at hs
      cases hs
    | @unseenFile n g hd hn hg =>
      by_contra hc
      exact hn (Dir.mem_names.2 (.inl (hkept n g hg hd (Bool.eq_false_iff.2 hc)).1))

/-! ## Download -/

/-- Every local file that the filter rejects, in a directory that is there on both sides, has a
remote entry of its name; and so has every local directory above such a file, and no remote file of
its name that the filter includes. -/
def RejectedLocalsKept (sync : Sync) (locals : LocalDir) (remotes : S3Dir) : Prop :=
  ∀ p r n q f, remotes.dirAt p = some r → locals.fileAt (p ++ n :: q) = some f →
    sync.checkIncluded f.absoluteName = false →
    n ∈ r.names ∧ (q ≠ [] → ∀ g, findKey n r.files = some g →
      sync.checkIncluded g.absoluteName.path = false)

section

variable {locals : LocalDir} {root : Str}

/-- A name of a local directory extends its path to one with the names of files. -/
theorem Dir.IsLocal.nameOk (hl : locals.IsLocal root) {p : List Str} {l : LocalDir}
    (hp : locals.dirAt p = some l) {n : Str}
    (hn : (findKey n l.files).isSome ∨ (findKey n l.subdirs).isSome) :
    ∀ m ∈ p ++ [n], NameOk m := by
  intro m hm
  rcases List.mem_append.1 hm with hm | hm
  · exact hl.named.forall_name_dirAt (by rw [hp]; rfl) m hm
  · rw [List.mem_singleton.1 hm]
    exact hl.named p l hp n hn

/-- A local file at or below an entry of a local directory. -/
theorem Dir.IsLocal.atOrBelow (hl : locals.IsLocal root) {p q : List Str} {f : LocalFile} {n : Str}
    (hn : ∀ m ∈ p ++ [n], NameOk m) (hf : locals.fileAt q = some f)
    (h : AtOrBelow (joinAll root (p ++ [n])) f.absoluteName) : ∃ q', q = p ++ n :: q' := by
  rw [hl.file q f hf, atOrBelow_joinAll hn (hl.named.forall_name_fileAt hf)] at h
  obtain ⟨q', rfl⟩ := h
  exact ⟨q', by simp⟩

/-- A local file below a directory is not at it, and one at a file is not below it. -/
theorem Dir.IsLocal.subdir_iff (hl : locals.IsLocal root) {p q : List Str} {l : LocalDir} {n : Str}
    {f : LocalFile} (hp : locals.dirAt p = some l) (hf : locals.fileAt (p ++ n :: q) = some f) :
    if q = [] then findKey n l.files = some f ∧ findKey n l.subdirs = none
    else findKey n l.files = none ∧ (findKey n l.subdirs).isSome := by
  rw [Dir.fileAt_append (List.cons_ne_nil _ _), hp, Option.bind_some] at hf
  split
  · next hq =>
    subst hq
    exact ⟨hf, hl.unshadowed p l hp n f hf⟩
  · next hq =>
    rw [Dir.fileAt_cons hq] at hf
    obtain ⟨d, hd, -⟩ := Option.bind_eq_some_iff.1 hf
    refine ⟨?_, by rw [hd]; rfl⟩
    cases hn : findKey n l.files with
    | none => rfl
    | some g =>
      have := hl.unshadowed p l hp n g hn
      rw [hd] at this
      cases this

/-- The path that `unseen` keeps for a name of a local directory. -/
theorem Dir.IsLocal.unseenAt_eq (hl : locals.IsLocal root) {p : List Str} {l : LocalDir}
    (hp : locals.dirAt p = some l) {n target : Str} (h : unseenAt (some l) n = some target) :
    target = joinAll root (p ++ [n]) ∧
      ((findKey n l.files).isSome ∨ (findKey n l.subdirs).isSome) := by
  simp only [unseenAt, Option.bind_some] at h
  split at h
  · next d hd =>
    cases h
    refine ⟨hl.dir _ d ?_, .inr (by rw [hd]; rfl)⟩
    rw [Dir.dirAt_concat, hp]
    exact hd
  · obtain ⟨f, hf, rfl⟩ := Option.map_eq_some_iff.1 h
    refine ⟨hl.file _ f ?_, .inl (by rw [hf]; rfl)⟩
    rw [Dir.fileAt_concat, hp]
    exact hf

/-- The path of an entry, as the recursion of a download makes it. -/
theorem Dir.IsLocal.appendPath_eq (hl : locals.IsLocal root) (p : List Str) (n : Str) :
    appendPath (p.foldl appendPath root) n = joinAll root (p ++ [n]) := by
  rw [foldl_appendPath hl.ne_nil, appendPath, if_neg (joinAll_ne_nil hl.ne_nil p), joinAll_concat]

/-- What spares the rejected files does not spare an entry that is one or has one below it. -/
theorem Dir.IsLocal.not_spares (hl : locals.IsLocal root) {sync : Sync} {p q : List Str} {n : Str}
    {f : LocalFile} (hn : ∀ m ∈ p ++ [n], NameOk m) (hf : locals.fileAt (p ++ n :: q) = some f)
    (hc : sync.checkIncluded f.absoluteName = false) :
    ¬ sync.Spares locals (joinAll root (p ++ [n])) := by
  intro hs
  have hle : AtOrBelow (joinAll root (p ++ [n])) f.absoluteName := by
    rw [hl.file _ f hf, atOrBelow_joinAll hn (hl.named.forall_name_fileAt hf)]
    exact ⟨q, by simp⟩
  rw [hs _ f hf hle] at hc
  cases hc

end

/-- A local directory keeps a path for each of its names. -/
theorem exists_unseenAt {l : LocalDir} {n : Str}
    (h : (findKey n l.files).isSome ∨ (findKey n l.subdirs).isSome) :
    ∃ target, unseenAt (some l) n = some target := by
  simp only [unseenAt, Option.bind_some]
  cases hs : findKey n l.subdirs with
  | some d => exact ⟨_, rfl⟩
  | none =>
    rw [hs] at h
    obtain ⟨g, hg⟩ := Option.isSome_iff_exists.1 (h.resolve_right Bool.false_ne_true)
    exact ⟨_, by rw [hg]; rfl⟩

section

variable {sync : Sync} {locals : LocalDir} {remotes : S3Dir} {root : Str}

/-- A download that deletes nothing that the filter rejects finds the rejected local files kept. -/
theorem rejectedLocalsKept_of_keeps (hl : locals.IsLocal root) (hr : remotes.Everywhere Dir.Sorted)
    (hf : (processDownloads sync (some locals) root remotes).failed = false)
    (h : ∀ a ∈ (processDownloads sync (some locals) root remotes).actions, a.Keeps sync locals)
    (hd : sync.deleteMissing) : RejectedLocalsKept sync locals remotes := by
  intro p r n q f hrp hfp hc
  have hls : LocalSorted (some locals) := fun d hd => by cases hd; exact hl.sorted
  -- the local directory in which the file, or a directory above it, is
  obtain ⟨l, hlp⟩ : ∃ l, locals.dirAt p = some l := by
    rw [Dir.fileAt_append (List.cons_ne_nil _ _)] at hfp
    obtain ⟨l, hlp, -⟩ := Option.bind_eq_some_iff.1 hfp
    exact ⟨l, hlp⟩
  have hv := downloadVisit_of_dirAt (l := some locals) hd hrp
  rw [Option.bind_some, hlp] at hv
  have hmem := fun a (ha : DownloadsAt sync r (some l) (p.foldl appendPath root) a) =>
    h a ((mem_processDownloads hr hls hf).2 ⟨p, r, some l, hv, ha⟩)
  have hentry := hl.subdir_iff hlp hfp
  have hnames : (findKey n l.files).isSome ∨ (findKey n l.subdirs).isSome := by
    split at hentry
    · exact .inl (by rw [hentry.1]; rfl)
    · exact .inr hentry.2
  -- removing the entry removes the file
  have hno := hl.not_spares (hl.nameOk hlp hnames) hfp hc
  have hseen : n ∈ r.names := by
    by_contra hn
    obtain ⟨target, ht⟩ := exists_unseenAt hnames
    have hremoved := hmem _ (.unseen hd hn ht)
    rw [(hl.unseenAt_eq hlp ht).1] at hremoved
    exact hno hremoved
  refine ⟨hseen, fun hq g hg => Bool.eq_false_iff.2 fun hi => ?_⟩
  rw [if_neg hq] at hentry
  have hdownload := hmem _ (.download hg hi (fun _ => hd) fun _ => ⟨l, rfl, hentry.1⟩)
  rw [hl.appendPath_eq, Option.bind_some] at hdownload
  exact hno (hdownload.2 hentry.2)

/-- A rejected file at or below an entry, with what the condition says of the entry. -/
theorem RejectedLocalsKept.entry (hl : locals.IsLocal root)
    (h : RejectedLocalsKept sync locals remotes) {p q : List Str} {r : S3Dir} {l : LocalDir}
    {n : Str} {f : LocalFile} (hrp : remotes.dirAt p = some r) (hlp : locals.dirAt p = some l)
    (hn : (findKey n l.files).isSome ∨ (findKey n l.subdirs).isSome)
    (hf : locals.fileAt q = some f) (hle : AtOrBelow (joinAll root (p ++ [n])) f.absoluteName)
    (hc : sync.checkIncluded f.absoluteName = false) :
    n ∈ r.names ∧ ((findKey n l.subdirs).isSome →
      ∀ g, findKey n r.files = some g → sync.checkIncluded g.absoluteName.path = false) := by
  obtain ⟨q', rfl⟩ := hl.atOrBelow (hl.nameOk hlp hn) hf hle
  have hentry := hl.subdir_iff hlp hf
  obtain ⟨hseen, hkept⟩ := h p r n q' f hrp hf hc
  refine ⟨hseen, fun hdir => hkept fun hq => ?_⟩
  -- the file itself is no directory
  rw [if_pos hq] at hentry
  rw [hentry.2] at hdir
  cases hdir

/-- A download deletes nothing that the filter rejects when the rejected local files are kept. -/
theorem keeps_of_rejectedLocalsKept (hl : locals.IsLocal root)
    (hr : remotes.Everywhere Dir.Sorted)
    (h : sync.deleteMissing → RejectedLocalsKept sync locals remotes) :
    ∀ a ∈ (processDownloads sync (some locals) root remotes).actions, a.Keeps sync locals := by
  intro a ha
  have hls : LocalSorted (some locals) := fun d hd => by cases hd; exact hl.sorted
  obtain ⟨p, r, l', hv, ha⟩ := downloadsAt_of_mem hr hls ha
  obtain ⟨hrp, hlp⟩ := downloadVisit_dirAt hv
  rw [Option.bind_some] at hlp
  cases l' with
  | none =>
    cases ha with
    | download _ hi => exact ⟨hi, fun hm => by cases hm⟩
    | mkdir => trivial
    | unseen _ _ ht => cases ht
  | some l =>
    cases ha with
    | @download n g hg hi hs _ =>
      refine ⟨hi, fun hdir q f hfq hle => ?_⟩
      rw [hl.appendPath_eq] at hle
      rw [Option.bind_some] at hdir
      by_contra hc
      have hrej :=
        ((h (hs hdir)).entry hl hrp hlp.symm (.inr hdir) hfq hle (Bool.eq_false_iff.2 hc)).2 hdir
      rw [hrej g hg] at hi
      cases hi
    | mkdir => trivial
    | @unseen n target hd hn ht =>
      obtain ⟨rfl, hentry⟩ := hl.unseenAt_eq hlp.symm ht
      intro q f hfq hle
      by_contra hc
      exact hn ((h hd).entry hl hrp hlp.symm hentry hfq hle (Bool.eq_false_iff.2 hc)).1

/-- A download deletes nothing that the filter rejects exactly when the rejected local files are
kept. -/
theorem download_keeps_iff (hl : locals.IsLocal root) (hr : remotes.Everywhere Dir.Sorted)
    (hf : (processDownloads sync (some locals) root remotes).failed = false) :
    (∀ a ∈ (processDownloads sync (some locals) root remotes).actions, a.Keeps sync locals) ↔
      (sync.deleteMissing → RejectedLocalsKept sync locals remotes) :=
  ⟨rejectedLocalsKept_of_keeps hl hr hf, keeps_of_rejectedLocalsKept hl hr⟩

end

/-! ## Both directions -/

/-- A plan transfers and deletes nothing that the filter rejects exactly when, with
`delete_missing`, the trees leave it no rejected name to delete without asking. -/
theorem filter_protects_iff {sync : Sync} {locals : LocalDir} {remotes : S3Dir} {root : Str}
    {path : S3Path} (hl : locals.IsLocal root) (hr : remotes.Everywhere Dir.Sorted)
    (hu : (processUpload sync (some remotes) path locals).failed = false)
    (hd : (processDownloads sync (some locals) root remotes).failed = false) :
    ((∀ t ∈ (processUpload sync (some remotes) path locals).actions, t.Keeps sync locals) ↔
      (sync.deleteMissing → RejectedRemotesKept sync locals remotes)) ∧
    ((∀ a ∈ (processDownloads sync (some locals) root remotes).actions, a.Keeps sync locals) ↔
      (sync.deleteMissing → RejectedLocalsKept sync locals remotes)) :=
  ⟨upload_keeps_iff hl.sorted hr hu, download_keeps_iff hl hr hd⟩

/-- A synchronization with `delete_missing` that excludes one path. -/
def excluding (path : Str) : Sync := { mirroring with excluded := [path] }

/-- The directory `/l` without entries. -/
def emptyLocals : LocalDir := .node "/l".toList [] []

/-- The directory `/d` of a bucket with the file `s`. -/
def oneRemote : S3Dir :=
  .node ⟨[], "b".toList, "/d".toList⟩ [("s".toList, ⟨[], "b".toList, "/d/s".toList⟩)] []

/-- The tree without files is that of an empty directory. -/
theorem isLocal_emptyLocals : emptyLocals.IsLocal "/l".toList where
  ne_nil := by decide
  sorted p d h := by
    obtain ⟨-, rfl⟩ := Dir.dirAt_of_subdirs_nil rfl h
    exact ⟨sorted_nil, sorted_nil⟩
  unshadowed p d h := by
    obtain ⟨-, rfl⟩ := Dir.dirAt_of_subdirs_nil rfl h
    exact nofun
  named p d h := by
    obtain ⟨-, rfl⟩ := Dir.dirAt_of_subdirs_nil rfl h
    intro n hn
    rcases hn with hn | hn <;> cases hn
  file p f h := by
    match p with
    | [] | [_] | _ :: _ :: _ => cases h
  dir p d h := by
    obtain ⟨rfl, rfl⟩ := Dir.dirAt_of_subdirs_nil rfl h
    rfl

/-- The only file of the tree is `s`. -/
theorem fileAt_oneRemote {p : List Str} {g : S3File} (h : oneRemote.fileAt p = some g) :
    p = ["s".toList] ∧ g = ⟨[], "b".toList, "/d/s".toList⟩ := by
  match p with
  | [n] =>
    cases List.mem_singleton.1 (mem_of_findKey h)
    exact ⟨rfl, rfl⟩

/-- The tree of one remote file is proper. -/
theorem proper_oneRemote : oneRemote.Proper where
  sorted := Dir.everywhere_of_subdirs_nil rfl ⟨by simp [oneRemote, Sorted], sorted_nil⟩
  named := Dir.everywhere_of_subdirs_nil rfl fun n hn => by
    rw [List.mem_singleton.1 (mem_keys.2 (hn.resolve_right Bool.false_ne_true))]
    exact ⟨by decide, by decide⟩

/-- No file of the tree is shadowed. -/
theorem unshadowed_oneRemote : oneRemote.Everywhere Dir.Unshadowed :=
  Dir.everywhere_of_subdirs_nil rfl fun _ _ _ => rfl

/-- An upload that deletes the excluded object `/d/s`, which has no local file of its name. -/
theorem filter_ignored :
    ¬ ∀ t ∈ (processUpload (excluding "/d/s".toList) (some oneRemote) ⟨[], "b".toList, "/d".toList⟩
      emptyLocals).actions, t.Keeps (excluding "/d/s".toList) emptyLocals := by
  intro h
  have hk : (excluding "/d/s".toList).checkIncluded "/d/s".toList = true :=
    h (.remoteFileDeleter ⟨[], "b".toList, "/d/s".toList⟩) (by decide)
  exact absurd hk (by decide)

/-- `filter_protects_iff` at these trees, with another path excluded. -/
theorem filter_protects_iff_other :
    ((∀ t ∈ (processUpload (excluding "/x".toList) (some oneRemote) ⟨[], "b".toList, "/d".toList⟩
        emptyLocals).actions, t.Keeps (excluding "/x".toList) emptyLocals) ↔
      ((excluding "/x".toList).deleteMissing →
        RejectedRemotesKept (excluding "/x".toList) emptyLocals oneRemote)) ∧
    ((∀ a ∈ (processDownloads (excluding "/x".toList) (some emptyLocals) "/l".toList
        oneRemote).actions, a.Keeps (excluding "/x".toList) emptyLocals) ↔
      ((excluding "/x".toList).deleteMissing →
        RejectedLocalsKept (excluding "/x".toList) emptyLocals oneRemote)) :=
  filter_protects_iff isLocal_emptyLocals proper_oneRemote.sorted (failed_processUpload rfl _)
    (failed_processDownloads rfl _)

end ExtremeS3
