import ExtremeS3.Sync.Deletions
import Mathlib.Data.List.Nodup
import Mathlib.Data.Set.Insert

/-!
# An upload with `delete_missing` mirrors the local tree

With empty filters, and in trees without shadowed names, an upload visits every local directory
together with the remote directory at the same path (`uploadVisit_eq`). So its uploads and its
deletions are known path by path (`uploads_iff`, `mirror_deletes_iff`), each key is acted on at most
once (`nodup_keys_processUpload`), and the keys that are left do not depend on the order of the
tasks (`mem_foldl_run`). `upload_mirrors` puts this together. That no key is used twice goes through
the names of one level: the keys under one name are not those under another (`Chunks`).
-/

namespace ExtremeS3

/-- A remote tree as it is read from the destination `dest`. -/
structure Dir.IsRemote (r : S3Dir) (dest : S3Path) : Prop extends r.Proper where
  file : ∀ p f, r.fileAt p = some f → f.absoluteName = deriveAll dest p

/-- The keys of the files of a remote tree. -/
def Dir.keys (r : S3Dir) : Set S3Path := {k | ∃ p f, r.fileAt p = some f ∧ f.absoluteName = k}

/-- What executing a task does to the keys of a bucket. -/
def Task.run (keys : Set S3Path) : Task → Set S3Path
  | .fileUploader _ remote => insert remote keys
  | .remoteFileDeleter remote => keys \ {remote}
  | _ => keys

/-- The key that a task uploads or deletes. -/
def Task.key : Task → Option S3Path
  | .fileUploader _ remote | .remoteFileDeleter remote => some remote
  | _ => none

/-- The path leads to a local file that can be uploaded. -/
def Dir.Syncable (l : LocalDir) (p : List Str) : Prop :=
  ∃ f, l.fileAt p = some f ∧ f.unsyncable = false

/-- The keys that an upload should leave: those of the local files that can be uploaded, and those
that were there at or below unsyncable entries. -/
def mirrored (locals : LocalDir) (remotes : S3Dir) (dest : S3Path) : Set S3Path :=
  {k | ∃ p, k = deriveAll dest p ∧ (locals.Syncable p ∨
    ((remotes.fileAt p).isSome ∧ locals.BelowUnsyncable p))}

/-! ## Executing the tasks -/

/-- In whatever order tasks run of which none deletes what another one uploads, the keys left are
those uploaded and those that were there and are not deleted. -/
theorem mem_foldl_run {ts : List Task}
    (hts : ∀ path k, Task.fileUploader path k ∈ ts → Task.remoteFileDeleter k ∉ ts)
    {keys : Set S3Path} {k : S3Path} :
    k ∈ ts.foldl Task.run keys ↔
      (∃ path, Task.fileUploader path k ∈ ts) ∨ k ∈ keys ∧ Task.remoteFileDeleter k ∉ ts := by
  induction ts generalizing keys with
  | nil => simp
  | cons t ts ih =>
    have hts' : ∀ path k, Task.fileUploader path k ∈ ts → Task.remoteFileDeleter k ∉ ts :=
      fun path k h hd => hts path k (List.mem_cons_of_mem _ h) (List.mem_cons_of_mem _ hd)
    rw [List.foldl_cons, ih hts']
    cases t with
    | fileUploader path remote =>
      simp only [Task.run, Set.mem_insert_iff, List.mem_cons, Task.fileUploader.injEq, reduceCtorEq,
        false_or]
      constructor
      · rintro (⟨path', h⟩ | ⟨rfl | hk, hd⟩)
        · exact .inl ⟨path', .inr h⟩
        · exact .inl ⟨path, .inl ⟨rfl, rfl⟩⟩
        · exact .inr ⟨hk, hd⟩
      · rintro (⟨path', ⟨rfl, rfl⟩ | h⟩ | ⟨hk, hd⟩)
        · refine .inr ⟨.inl rfl, fun hd => ?_⟩
          exact hts _ _ List.mem_cons_self (List.mem_cons_of_mem _ hd)
        · exact .inl ⟨path', h⟩
        · exact .inr ⟨.inr hk, hd⟩
    | remoteFileDeleter remote =>
      simp only [Task.run, Set.mem_sdiff, Set.mem_singleton_iff, List.mem_cons, reduceCtorEq,
        false_or, Task.remoteFileDeleter.injEq, not_or, and_assoc]
    | fileDownloader => simp [Task.run]
    | localFileDeleter => simp [Task.run]

/-! ## The levels -/

/-- In a remote tree without shadowed names every local directory is compared with the remote
directory at its path. -/
theorem uploadVisit_eq {sync : Sync} (hd : sync.deleteMissing) {l : LocalDir} {r : S3Dir}
    (hr : r.Everywhere Dir.Unshadowed) (p : List Str) :
    uploadVisit sync (some r) l p = (l.dirAt p).map fun l' => (l', r.dirAt p) := by
  have hnone : ∀ (p : List Str) (l : LocalDir),
      uploadVisit sync none l p = (l.dirAt p).map fun l' => (l', none) := fun p => by
    induction p with
    | nil => exact fun l => rfl
    | cons n p ih =>
      intro l
      rw [uploadVisit, Dir.dirAt_cons, Option.map_bind]
      refine congrArg _ (funext fun l' => ?_)
      exact ih l'
  induction p generalizing l r with
  | nil => rfl
  | cons n p ih =>
    rw [uploadVisit, Dir.dirAt_cons, Dir.dirAt_cons, Option.map_bind]
    refine congrArg _ (funext fun l' => ?_)
    simp only [descend, Option.bind_some, Function.comp_apply]
    cases hf : findKey n r.files with
    | some g =>
      rw [hr.root n g hf]
      simp only [hd, if_true, Option.bind_some, hnone, Option.bind_none]
    | none =>
      simp only [Option.bind_some]
      cases hn : findKey n r.subdirs with
      | none => simp only [hnone, Option.bind_none]
      | some r' => exact ih (hr.child hn)

section

variable {sync : Sync} {locals : LocalDir} {remotes : S3Dir} {dest : S3Path}

/-- An object that is deleted has no local file at its path, and is not below an unsyncable
entry. -/
theorem deleted_path (hl : locals.Everywhere Dir.Sorted) (hlu : locals.Everywhere Dir.Unshadowed)
    (hr : remotes.Everywhere Dir.Sorted) {k : S3Path}
    (h : .remoteFileDeleter k ∈ (processUpload sync (some remotes) dest locals).actions) :
    ∃ p g, remotes.fileAt p = some g ∧ g.absoluteName = k ∧ locals.fileAt p = none ∧
      ¬ locals.BelowUnsyncable p := by
  obtain ⟨p, g, hg, hk, h⟩ := deletes_of_mem hl hlu hr h
  refine ⟨p, g, hg, hk, h.fileAt, ?_⟩
  rintro ⟨q, f, hle, hf, hu⟩
  rw [(h.above q f hle hf).1] at hu
  cases hu

/-- With empty filters an object is deleted exactly when it has no local file at its path and is
not below an unsyncable entry. -/
theorem mirror_deletes_iff (hs : sync.Mirrors) (hl : locals.Everywhere Dir.Sorted)
    (hlu : locals.Everywhere Dir.Unshadowed)
    (hls : ∀ p f, locals.fileAt p = some f → ' ' ∉ f.absoluteName)
    (hr : remotes.Everywhere Dir.Sorted) (hru : remotes.Everywhere Dir.Unshadowed)
    (hrs : ∀ p g, remotes.fileAt p = some g → ' ' ∉ g.absoluteName.path) {k : S3Path} :
    .remoteFileDeleter k ∈ (processUpload sync (some remotes) dest locals).actions ↔
      ∃ p g, remotes.fileAt p = some g ∧ g.absoluteName = k ∧ locals.fileAt p = none ∧
        ¬ locals.BelowUnsyncable p := by
  refine ⟨deleted_path hl hlu hr, ?_⟩
  rintro ⟨p, g, hg, rfl, hnone, hbelow⟩
  refine mem_of_deletes hl hr (failed_processUpload hs.checkMode _) hg
    ⟨hs.deleteMissing, hnone, fun q f hle hf => ⟨?_, hs.checkIncluded (hls q f hf)⟩, ?_,
      .inr (hs.checkIncluded (hrs p g hg))⟩
  · exact Bool.eq_false_iff.2 fun hu => hbelow ⟨q, f, hle, hf, hu⟩
  · -- a remote file above the object would shadow the directory that leads to it
    rintro q - ⟨s, rfl⟩ hne -
    have hs : s ≠ [] := fun h => hne (by rw [h, List.append_nil])
    refine Option.eq_none_iff_forall_not_mem.2 fun f hf => ?_
    rw [Dir.fileAt_append hs, hru.not_both hf] at hg
    cases hg

/-- With empty filters a local file is uploaded exactly when it is syncable. -/
theorem uploads_iff (hs : sync.Mirrors) (hl : locals.Everywhere Dir.Sorted)
    (hls : ∀ p f, locals.fileAt p = some f → ' ' ∉ f.absoluteName)
    (hr : remotes.Everywhere Dir.Sorted) (hru : remotes.Everywhere Dir.Unshadowed) {path : Str}
    {k : S3Path} :
    .fileUploader path k ∈ (processUpload sync (some remotes) dest locals).actions ↔
      ∃ p f, locals.fileAt p = some f ∧ f.unsyncable = false ∧ f.absoluteName = path ∧
        k = deriveAll dest p := by
  constructor
  · intro h
    obtain ⟨p, l, r, hv, h⟩ := uploadsAt_of_mem hl (remoteSorted_some hr) h
    cases h with
    | @upload n f hf hu _ _ _ =>
      refine ⟨p ++ [n], f, ?_, hu, rfl, (deriveAll_concat dest p n).symm⟩
      rw [Dir.fileAt_concat, (uploadVisit_dirAt hv).1]
      exact hf
  · rintro ⟨pp, f, hf, hu, rfl, rfl⟩
    obtain ⟨p, n, rfl⟩ := (List.eq_nil_or_concat' pp).resolve_left (Dir.ne_nil_of_fileAt hf)
    have hc := hs.checkIncluded (hls _ f hf)
    rw [Dir.fileAt_concat] at hf
    obtain ⟨l, hlp, hf⟩ := Option.bind_eq_some_iff.1 hf
    have hv := uploadVisit_eq hs.deleteMissing (l := locals) hru p
    rw [hlp, Option.map_some] at hv
    refine (mem_processUpload hl (remoteSorted_some hr) (failed_processUpload hs.checkMode _)).2
      ⟨p, l, remotes.dirAt p, hv, ?_⟩
    rw [deriveAll_concat]
    exact .upload hf hu hc (fun _ hm => by rw [hs.checkMode] at hm; cases hm)
      fun _ => hs.deleteMissing

end

/-! ## Every key is acted on at most once -/

/-- The key of an object at a name below a path, or further down. -/
def UnderName (path : S3Path) (n : Str) (k : S3Path) : Prop :=
  NameOk n ∧ ∃ q, (∀ m ∈ q, NameOk m) ∧ k = deriveAll path (n :: q)

/-- A key is under one name only. -/
theorem UnderName.unique {path k : S3Path} {n m : Str} (h : UnderName path n k)
    (h' : UnderName path m k) : n = m := by
  obtain ⟨hn, q, hq, rfl⟩ := h
  obtain ⟨hm, q', hq', he⟩ := h'
  have := deriveAll_injective (List.forall_mem_cons.2 ⟨hn, hq⟩) (List.forall_mem_cons.2 ⟨hm, hq'⟩) he
  exact (List.cons.inj this).1

/-- What lies under a name further down lies under the name above it. -/
theorem UnderName.derive {path k : S3Path} {n m : Str} (hn : NameOk n)
    (h : UnderName (derive path n) m k) : UnderName path n k := by
  obtain ⟨hm, q, hq, rfl⟩ := h
  exact ⟨hn, m :: q, List.forall_mem_cons.2 ⟨hm, hq⟩, rfl⟩

/-- The key at a name is not one under a name below it. -/
theorem UnderName.ne_derive {path k : S3Path} {n m : Str}
    (h : UnderName (ExtremeS3.derive path n) m k) : k ≠ ExtremeS3.derive path n := by
  obtain ⟨hm, q, hq, rfl⟩ := h
  intro he
  have := deriveAll_injective (s := ExtremeS3.derive path n) (List.forall_mem_cons.2 ⟨hm, hq⟩)
    (q := []) nofun he
  cases this

/-- Keys listed name by name, each under its name. -/
structure Chunks (path : S3Path) (chunks : List (Str × List S3Path)) : Prop where
  names : (chunks.map Prod.fst).Nodup
  nodup : ∀ c ∈ chunks, c.2.Nodup
  under : ∀ c ∈ chunks, ∀ k ∈ c.2, UnderName path c.1 k

/-- If each name has its own keys, once each, no key is there twice. -/
theorem Chunks.nodup_keys {path : S3Path} {chunks : List (Str × List S3Path)}
    (h : Chunks path chunks) : (chunks.flatMap Prod.snd).Nodup := by
  refine List.nodup_flatMap.2 ⟨h.nodup, ?_⟩
  have hne := List.pairwise_map.1 h.names
  refine hne.imp_of_mem fun {c d} hc hd hcd => ?_
  refine List.disjoint_left.2 fun k hk hk' => ?_
  exact hcd ((h.under c hc k hk).unique (h.under d hd k hk'))

/-- The keys that the tasks of a plan act on. -/
def planKeys (p : Plan Task) : List S3Path := p.actions.filterMap Task.key

/-- The keys of two plans are those of both, if the first does not fail. -/
theorem planKeys_append {p q : Plan Task} (h : p.failed = false) :
    planKeys (p ++ q) = planKeys p ++ planKeys q := by
  rw [planKeys, Plan.actions_append h, List.filterMap_append]
  rfl

/-- The keys of a loop that succeeds are those of its passes. -/
theorem planKeys_forEach {l : List β} {f : β → Plan Task} (h : (Plan.forEach l f).failed = false) :
    planKeys (.forEach l f) = l.flatMap fun b => planKeys (f b) := by
  rw [planKeys, Plan.actions_forEach h, List.filterMap_flatMap]
  rfl

/-- A key of a plan is that of one of its tasks. -/
theorem mem_planKeys {p : Plan Task} {k : S3Path} :
    k ∈ planKeys p ↔ ∃ t ∈ p.actions, t.key = some k := by
  rw [planKeys, List.mem_filterMap]

/-- No name of a sorted directory without shadowed files is there twice. -/
theorem Dir.nodup_names {d : Dir Str ι φ} (hs : d.Sorted) (hu : d.Unshadowed) : d.names.Nodup := by
  refine List.nodup_append'.2 ⟨hs.1.nodup_keys, hs.2.nodup_keys, ?_⟩
  refine List.disjoint_left.2 fun n hn hn' => ?_
  obtain ⟨f, hf⟩ := Option.isSome_iff_exists.1 (mem_keys.1 hn)
  rw [mem_keys, hu n f hf] at hn'
  cases hn'

/-- What is left after erasing names is part of what was there. -/
theorem eraseAll_sublist (names : List Str) (m : List (Str × V)) :
    (eraseAll names m).Sublist m := by
  induction names generalizing m with
  | nil => exact .refl m
  | cons n names ih => exact (ih _).trans List.filter_sublist

/-- A remote tree read from a path, in which no name is shadowed. -/
structure RemoteOk (path : S3Path) (r : S3Dir) : Prop where
  isRemote : r.IsRemote path
  unshadowed : r.Everywhere Dir.Unshadowed

/-- What holds of a remote directory holds of it as one that is there. -/
theorem RemoteOk.ofMem {path : S3Path} {r : S3Dir} (h : RemoteOk path r) :
    ∀ d ∈ some r, RemoteOk path d := fun d hd => by cases hd; exact h

/-- The names of a remote directory are in order. -/
theorem RemoteOk.nameOk {path : S3Path} {r : S3Dir} (h : RemoteOk path r) {n : Str}
    (hn : n ∈ r.names) : NameOk n :=
  h.isRemote.named.root n (Dir.mem_names.1 hn)

/-- A remote subdirectory is at the path derived for its name. -/
theorem RemoteOk.child {path : S3Path} {r d : S3Dir} (h : RemoteOk path r) {n : Str}
    (hn : findKey n r.subdirs = some d) : RemoteOk (derive path n) d where
  isRemote := by
    refine ⟨⟨h.isRemote.sorted.child hn, h.isRemote.named.child hn⟩, fun p f hf => ?_⟩
    refine h.isRemote.file (n :: p) f ?_
    rw [Dir.fileAt_cons (Dir.ne_nil_of_fileAt hf), hn]
    exact hf
  unshadowed := h.unshadowed.child hn

/-- A remote file is at the path derived for its name. -/
theorem RemoteOk.file {path : S3Path} {r : S3Dir} (h : RemoteOk path r) {n : Str} {g : S3File}
    (hn : findKey n r.files = some g) : g.absoluteName = derive path n :=
  h.isRemote.file [n] g hn

/-- The key that is derived for a name is under it. -/
theorem underName_derive {path : S3Path} {n : Str} (hn : NameOk n) :
    UnderName path n (derive path n) := ⟨hn, [], nofun, rfl⟩

/-- The keys that a recursive deletion acts on are under the names of the directory. -/
theorem underName_of_mem_delete {sync : Sync} {path k : S3Path} {d : S3Dir} (h : RemoteOk path d)
    (hk : k ∈ planKeys (deletePossiblyRecursive sync false d)) : ∃ n, UnderName path n k := by
  obtain ⟨t, ht, hk⟩ := mem_planKeys.1 hk
  obtain ⟨p, f, hf, -, rfl⟩ := (mem_deletePossiblyRecursive h.isRemote.sorted).1 ht
  cases hk
  have hn := h.isRemote.named.forall_name_fileAt hf
  rw [h.isRemote.file p f hf]
  match p with
  | n :: p =>
    exact ⟨n, hn n List.mem_cons_self, p, fun m hm => hn m (List.mem_cons_of_mem _ hm), rfl⟩

/-- The chunks of keys that a recursive deletion acts on. -/
theorem nodup_keys_delete {sync : Sync} {path : S3Path} {d : S3Dir} (h : RemoteOk path d) :
    (planKeys (deletePossiblyRecursive sync false d)).Nodup := by
  induction d using Dir.induct generalizing path with
  | node i files subdirs ih =>
    have hf := failed_deletePossiblyRecursive sync (.node i files subdirs)
    have hs := h.isRemote.sorted.root
    rw [deletePossiblyRecursive_eq, Plan.failed_append, Bool.or_eq_false_iff] at hf
    rw [deletePossiblyRecursive_eq, planKeys_append hf.1, planKeys_forEach hf.1,
      planKeys_forEach hf.2]
    -- the keys file by file, and subdirectory by subdirectory
    have hc : Chunks path
        (files.map (fun e => (e.1, planKeys (if sync.checkIncluded e.2.absoluteName.path then
            Plan.one (.remoteFileDeleter e.2.absoluteName) else .nil))) ++
          subdirs.map fun e => (e.1, planKeys (deletePossiblyRecursive sync false e.2))) := by
      refine ⟨?_, fun c hc => ?_, fun c hc k hk => ?_⟩
      · simpa [Function.comp_def, Dir.names] using Dir.nodup_names hs h.unshadowed.root
      · rcases List.mem_append.1 hc with hc | hc
        · obtain ⟨e, he, rfl⟩ := List.mem_map.1 hc
          show (planKeys _).Nodup
          split
          · exact List.nodup_singleton _
          · exact List.nodup_nil
        · obtain ⟨e, he, rfl⟩ := List.mem_map.1 hc
          exact ih e.1 e.2 he (h.child (hs.2.findKey_eq_some.2 he))
      · rcases List.mem_append.1 hc with hc | hc
        · obtain ⟨e, he, rfl⟩ := List.mem_map.1 hc
          have hn := hs.1.findKey_eq_some.2 he
          have hname := h.nameOk (Dir.mem_names.2 (.inl (by rw [hn]; rfl)))
          change k ∈ planKeys _ at hk
          split at hk
          · rw [List.mem_singleton.1 hk, h.file hn]
            exact underName_derive hname
          · cases hk
        · obtain ⟨e, he, rfl⟩ := List.mem_map.1 hc
          have hn := hs.2.findKey_eq_some.2 he
          have hname := h.nameOk (Dir.mem_names.2 (.inr (by rw [hn]; rfl)))
          obtain ⟨m, hm⟩ := underName_of_mem_delete (h.child hn) hk
          exact hm.derive hname
    simpa [List.flatMap_map] using hc.nodup_keys

/-- Keys that are grouped by different names can be put together. -/
theorem Chunks.append {path : S3Path} {cs ds : List (Str × List S3Path)} (hc : Chunks path cs)
    (hd : Chunks path ds) (hne : ∀ c ∈ cs, ∀ d ∈ ds, c.1 ≠ d.1) : Chunks path (cs ++ ds) where
  names := by
    rw [List.map_append]
    refine List.nodup_append'.2 ⟨hc.names, hd.names, List.disjoint_left.2 fun n hn hn' => ?_⟩
    obtain ⟨c, hcm, rfl⟩ := List.mem_map.1 hn
    obtain ⟨d, hdm, he⟩ := List.mem_map.1 hn'
    exact hne c hcm d hdm he.symm
  nodup := List.forall_mem_append.2 ⟨hc.nodup, hd.nodup⟩
  under := List.forall_mem_append.2 ⟨hc.under, hd.under⟩

/-- Chunks of keys made for the entries of a map. -/
theorem Chunks.of_map {path : S3Path} {V : Type} {m : List (Str × V)} (hm : (m.map Prod.fst).Nodup)
    {f : Str × V → List S3Path} (hf : ∀ e ∈ m, (f e).Nodup ∧ ∀ k ∈ f e, UnderName path e.1 k) :
    Chunks path (m.map fun e => (e.1, f e)) where
  names := by simpa [Function.comp_def] using hm
  nodup := List.forall_mem_map.2 fun e he => (hf e he).1
  under := List.forall_mem_map.2 fun e he => (hf e he).2

section

variable {sync : Sync} {path : S3Path} {r : Option S3Dir}

/-- What is said of the keys of a plan holds of a plan without keys. -/
theorem keys_of_empty {plan : Plan Task} (h : planKeys plan = []) {P : S3Path → Prop} :
    (planKeys plan).Nodup ∧ ∀ k ∈ planKeys plan, P k := by
  rw [h]
  exact ⟨List.nodup_nil, List.forall_mem_nil _⟩

/-- The keys that a local file uses are under its name, once each. -/
theorem keys_uploadFile (hr : ∀ d ∈ r, RemoteOk path d) {n : Str} (hn : NameOk n) (f : LocalFile) :
    (planKeys (uploadFile sync r path n f)).Nodup ∧
      ∀ k ∈ planKeys (uploadFile sync r path n f), UnderName path n k := by
  have huploader : (planKeys (.one (.fileUploader f.absoluteName (derive path n)))).Nodup ∧
      ∀ k ∈ planKeys (.one (.fileUploader f.absoluteName (derive path n))), UnderName path n k := by
    refine ⟨List.nodup_singleton _, fun k hk => ?_⟩
    rw [List.mem_singleton.1 hk]
    exact underName_derive hn
  simp only [uploadFile]
  split
  · exact keys_of_empty rfl
  split
  · exact keys_of_empty rfl
  split
  · next dir hdir =>
    split
    · obtain ⟨d, hd, hdir⟩ := Option.bind_eq_some_iff.1 hdir
      have hok := (hr d hd).child hdir
      rw [planKeys_append (failed_deletePossiblyRecursive sync dir)]
      refine ⟨List.nodup_append'.2 ⟨nodup_keys_delete hok, huploader.1, ?_⟩,
        List.forall_mem_append.2 ⟨fun k hk => ?_, huploader.2⟩⟩
      · refine List.disjoint_right.2 fun k hk hk' => ?_
        obtain ⟨m, hm⟩ := underName_of_mem_delete hok hk'
        exact hm.ne_derive (List.mem_singleton.1 hk)
      · obtain ⟨m, hm⟩ := underName_of_mem_delete hok hk
        exact hm.derive hn
    · exact keys_of_empty rfl
  · split
    · exact huploader
    · split
      · exact keys_of_empty rfl
      · split
        · exact keys_of_empty rfl
        · exact huploader

/-- The keys that a local subdirectory uses are under its name, once each. -/
theorem keys_uploadSubdir (hr : ∀ d ∈ r, RemoteOk path d) {n : Str} (hn : NameOk n) {l : LocalDir}
    (ih : ∀ r', (∀ d ∈ r', RemoteOk (derive path n) d) →
      (planKeys (processUpload sync r' (derive path n) l)).Nodup ∧
      ∀ k ∈ planKeys (processUpload sync r' (derive path n) l), ∃ m, UnderName (derive path n) m k) :
    (planKeys (uploadSubdir sync r path n l)).Nodup ∧
      ∀ k ∈ planKeys (uploadSubdir sync r path n l), UnderName path n k := by
  simp only [uploadSubdir]
  split
  · next g hg =>
    split
    · obtain ⟨d, hd, hg⟩ := Option.bind_eq_some_iff.1 hg
      obtain ⟨hnodup, hunder⟩ := ih none fun d hd => by cases hd
      rw [planKeys_append (Plan.failed_one _)]
      have hkey : planKeys (.one (.remoteFileDeleter g.absoluteName)) = [derive path n] := by
        rw [← (hr d hd).file hg]
        rfl
      rw [hkey, List.singleton_append]
      refine ⟨List.nodup_cons.2 ⟨fun hk => ?_, hnodup⟩, List.forall_mem_cons.2
        ⟨underName_derive hn, fun k hk => ?_⟩⟩
      · obtain ⟨m, hm⟩ := hunder _ hk
        exact hm.ne_derive rfl
      · obtain ⟨m, hm⟩ := hunder k hk
        exact hm.derive hn
    · exact keys_of_empty rfl
  · next hg =>
    obtain ⟨hnodup, hunder⟩ := ih (r.bind fun d => findKey n d.subdirs) fun d hd => by
      obtain ⟨e, he, hd⟩ := Option.bind_eq_some_iff.1 hd
      exact (hr e he).child hd
    refine ⟨hnodup, fun k hk => ?_⟩
    obtain ⟨m, hm⟩ := hunder k hk
    exact hm.derive hn

/-- The chunks of keys that the deletions at the end of `process_upload` act on. -/
theorem exists_chunks_deleteUnseen (sync : Sync) (hr : ∀ d ∈ r, RemoteOk path d) (names : List Str) :
    ∃ cs, Chunks path cs ∧ planKeys (deleteUnseen sync names r) = cs.flatMap Prod.snd ∧
      ∀ c ∈ cs, c.1 ∉ names := by
  have hnil : ∃ cs, Chunks path cs ∧ planKeys Plan.nil = cs.flatMap Prod.snd ∧
      ∀ c ∈ cs, c.1 ∉ names := ⟨[], ⟨List.nodup_nil, nofun, nofun⟩, rfl, nofun⟩
  have hf := failed_deleteUnseen sync names r
  cases r with
  | none => exact hnil
  | some d =>
    have hok := hr d rfl
    have hs := hok.isRemote.sorted.root
    simp only [deleteUnseen] at hf ⊢
    split at hf
    · next hd =>
      rw [Plan.failed_append, Bool.or_eq_false_iff] at hf
      rw [if_pos hd, planKeys_append hf.1, planKeys_forEach hf.1, planKeys_forEach hf.2]
      have hsub : ∀ {V : Type} {m : List (Str × V)}, (m.map Prod.fst).Nodup →
          ((eraseAll names m).map Prod.fst).Nodup := fun hm =>
        ((eraseAll_sublist names _).map _).nodup hm
      have hfiles : Chunks path ((eraseAll names d.files).map fun e =>
          (e.1, planKeys (.one (.remoteFileDeleter e.2.absoluteName)))) := by
        refine .of_map (hsub hs.1.nodup_keys) fun e he => ⟨List.nodup_singleton _, fun k hk => ?_⟩
        have hn := hs.1.findKey_eq_some.2 (mem_eraseAll.1 he).1
        rw [List.mem_singleton.1 hk, hok.file hn]
        exact underName_derive (hok.nameOk (Dir.mem_names.2 (.inl (by rw [hn]; rfl))))
      have hdirs : Chunks path ((eraseAll names d.subdirs).map fun e =>
          (e.1, planKeys (deletePossiblyRecursive sync false e.2))) := by
        refine .of_map (hsub hs.2.nodup_keys) fun e he => ?_
        have hn := hs.2.findKey_eq_some.2 (mem_eraseAll.1 he).1
        refine ⟨nodup_keys_delete (hok.child hn), fun k hk => ?_⟩
        obtain ⟨m, hm⟩ := underName_of_mem_delete (hok.child hn) hk
        exact hm.derive (hok.nameOk (Dir.mem_names.2 (.inr (by rw [hn]; rfl))))
      refine ⟨_, hfiles.append hdirs ?_, by simp [List.flatMap_map], ?_⟩
      · refine List.forall_mem_map.2 fun e he => List.forall_mem_map.2 fun e' he' hne => ?_
        have hn := hok.unshadowed.root e.1 e.2 (hs.1.findKey_eq_some.2 (mem_eraseAll.1 he).1)
        rw [show e.1 = e'.1 from hne, hs.2.findKey_eq_some.2 (mem_eraseAll.1 he').1] at hn
        cases hn
      · exact List.forall_mem_append.2 ⟨List.forall_mem_map.2 fun e he => (mem_eraseAll.1 he).2,
          List.forall_mem_map.2 fun e he => (mem_eraseAll.1 he).2⟩
    · next hd =>
      rw [if_neg hd]
      exact hnil

end

/-- An upload acts on each key at most once. -/
theorem nodup_keys_processUpload {sync : Sync} (hm : sync.checkMode = false) {r : Option S3Dir}
    {path : S3Path} {l : LocalDir} (hl : l.Proper) (hlu : l.Everywhere Dir.Unshadowed)
    (hr : ∀ d ∈ r, RemoteOk path d) :
    (planKeys (processUpload sync r path l)).Nodup ∧
      ∀ k ∈ planKeys (processUpload sync r path l), ∃ n, UnderName path n k := by
  induction l using Dir.induct generalizing r path with
  | node i files subdirs ih =>
    have hs := hl.sorted.root
    have hf : (processUpload sync r path (.node i files subdirs)).failed = false :=
      failed_processUpload hm _
    rw [processUpload, Plan.failed_append, Bool.or_eq_false_iff] at hf
    have hf₁ := hf.1
    rw [Plan.failed_append, Bool.or_eq_false_iff, uploadSubdirs_eq] at hf₁
    have hfiles : Chunks path (files.map fun e => (e.1, planKeys (uploadFile sync r path e.1 e.2))) := by
      refine .of_map hs.1.nodup_keys fun e he => keys_uploadFile hr ?_ e.2
      exact hl.named.root e.1 (.inl (by rw [hs.1.findKey_eq_some.2 he]; rfl))
    have hsubdirs : Chunks path
        (subdirs.map fun e => (e.1, planKeys (uploadSubdir sync r path e.1 e.2))) := by
      refine .of_map hs.2.nodup_keys fun e he => keys_uploadSubdir hr ?_ fun r' hr' => ?_
      · exact hl.named.root e.1 (.inr (by rw [hs.2.findKey_eq_some.2 he]; rfl))
      · have hn := hs.2.findKey_eq_some.2 he
        exact ih e.1 e.2 he ⟨hl.sorted.child hn, hl.named.child hn⟩ (hlu.child hn) hr'
    obtain ⟨cs, hcs, hkeys, hnames⟩ := exists_chunks_deleteUnseen sync hr
      (files.map Prod.fst ++ subdirs.map Prod.fst)
    have hall := (hfiles.append hsubdirs ?_).append hcs ?_
    · have he : planKeys (processUpload sync r path (.node i files subdirs)) =
          (files.map (fun e => (e.1, planKeys (uploadFile sync r path e.1 e.2))) ++
            subdirs.map (fun e => (e.1, planKeys (uploadSubdir sync r path e.1 e.2))) ++
            cs).flatMap Prod.snd := by
        rw [processUpload, planKeys_append hf.1, uploadSubdirs_eq, planKeys_append hf₁.1,
          planKeys_forEach hf₁.1, planKeys_forEach hf₁.2, hkeys]
        simp [List.flatMap_map]
      rw [he]
      refine ⟨hall.nodup_keys, fun k hk => ?_⟩
      obtain ⟨c, hc, hk⟩ := List.mem_flatMap.1 hk
      exact ⟨c.1, hall.under c hc k hk⟩
    · refine List.forall_mem_map.2 fun e he => List.forall_mem_map.2 fun e' he' hne => ?_
      have hn := hlu.root e.1 e.2 (hs.1.findKey_eq_some.2 he)
      rw [show e.1 = e'.1 from hne, hs.2.findKey_eq_some.2 he'] at hn
      cases hn
    · intro c hc d hd hne
      refine hnames d hd (hne ▸ ?_)
      rcases List.mem_append.1 hc with hc | hc
      · obtain ⟨e, he, rfl⟩ := List.mem_map.1 hc
        exact List.mem_append_left _ (List.mem_map_of_mem he)
      · obtain ⟨e, he, rfl⟩ := List.mem_map.1 hc
        exact List.mem_append_right _ (List.mem_map_of_mem he)

/-! ## The mirror law -/

section

variable {sync : Sync} {locals : LocalDir} {remotes : S3Dir} {dest : S3Path}

/-- If no key is used twice, two tasks with one key are the same. -/
theorem nodup_filterMap_unique {ts : List Task} (h : (ts.filterMap Task.key).Nodup) {t u : Task}
    (ht : t ∈ ts) (hu : u ∈ ts) {k : S3Path} (htk : t.key = some k) (huk : u.key = some k) :
    t = u := by
  induction ts with
  | nil => cases ht
  | cons a ts ih =>
    have hmem : ∀ b ∈ ts, b.key = some k → k ∈ ts.filterMap Task.key := fun b hb hk =>
      List.mem_filterMap.2 ⟨b, hb, hk⟩
    have htail : a.key = some k → k ∉ ts.filterMap Task.key := fun hk => by
      rw [List.filterMap_cons, hk] at h
      exact (List.nodup_cons.1 h).1
    have hts : (ts.filterMap Task.key).Nodup :=
      h.sublist (List.Sublist.filterMap _ (List.sublist_cons_self a ts))
    rcases List.mem_cons.1 ht with hta | hta <;> rcases List.mem_cons.1 hu with hua | hua
    · rw [hta, hua]
    · exact absurd (hmem u hua huk) (htail (hta ▸ htk))
    · exact absurd (hmem t hta htk) (htail (hua ▸ huk))
    · exact ih hts hta hua

/-- A key that an upload uploads is not one that it deletes. -/
theorem not_deleted_of_uploaded {p : Plan Task} (h : (planKeys p).Nodup) {path : Str} {k : S3Path}
    (hu : .fileUploader path k ∈ p.actions) : .remoteFileDeleter k ∉ p.actions := fun hd => by
  have := nodup_filterMap_unique h hu hd (k := k) rfl rfl
  cases this

/-- The tasks of an upload leave the mirrored keys, in whatever order they run. -/
theorem run_upload (hs : sync.Mirrors) (hl : locals.Proper)
    (hlu : locals.Everywhere Dir.Unshadowed)
    (hls : ∀ p f, locals.fileAt p = some f → ' ' ∉ f.absoluteName) (hr : RemoteOk dest remotes)
    (hrs : ∀ p g, remotes.fileAt p = some g → ' ' ∉ g.absoluteName.path) {ts : List Task}
    (hts : ts.Perm (processUpload sync (some remotes) dest locals).actions) :
    ts.foldl Task.run remotes.keys = mirrored locals remotes dest := by
  have hnodup := (nodup_keys_processUpload hs.checkMode hl hlu hr.ofMem).1
  have hrsorted := hr.isRemote.sorted
  ext k
  rw [mem_foldl_run fun path k hu hd =>
    not_deleted_of_uploaded hnodup (hts.mem_iff.1 hu) (hts.mem_iff.1 hd)]
  simp only [hts.mem_iff, uploads_iff hs hl.sorted hls hrsorted hr.unshadowed,
    mirror_deletes_iff hs hl.sorted hlu hls hrsorted hr.unshadowed hrs]
  constructor
  · rintro (⟨_, p, f, hf, hu, rfl, rfl⟩ | ⟨⟨p, g, hg, rfl⟩, hkept⟩)
    · exact ⟨p, rfl, .inl ⟨f, hf, hu⟩⟩
    · refine ⟨p, hr.isRemote.file p g hg, ?_⟩
      by_contra hno
      rw [not_or] at hno
      have hbelow : ¬ locals.BelowUnsyncable p := fun hb => hno.2 ⟨by rw [hg]; rfl, hb⟩
      refine hkept ⟨p, g, hg, rfl, Option.eq_none_iff_forall_not_mem.2 fun f hf => ?_, hbelow⟩
      cases hu : f.unsyncable with
      | false => exact hno.1 ⟨f, hf, hu⟩
      | true => exact hbelow ⟨p, f, List.prefix_refl p, hf, hu⟩
  · rintro ⟨p, rfl, ⟨f, hf, hu⟩ | ⟨hg, hbelow⟩⟩
    · exact .inl ⟨_, p, f, hf, hu, rfl, rfl⟩
    · obtain ⟨g, hg⟩ := Option.isSome_iff_exists.1 hg
      refine .inr ⟨⟨p, g, hg, hr.isRemote.file p g hg⟩, ?_⟩
      rintro ⟨q, g', hg', he, -, hno⟩
      rw [hr.isRemote.file q g' hg'] at he
      have hqp := deriveAll_injective (hr.isRemote.named.forall_name_fileAt hg')
        (hr.isRemote.named.forall_name_fileAt hg) he
      exact hno (hqp ▸ hbelow)

/-- An upload from the same local tree to a remote tree with the mirrored keys deletes nothing. -/
theorem no_deletion_of_mirrored (hl : locals.Proper) (hlu : locals.Everywhere Dir.Unshadowed)
    (hr : RemoteOk dest remotes) {remotes' : S3Dir} (hr' : remotes'.IsRemote dest)
    (hkeys : remotes'.keys = mirrored locals remotes dest) (k : S3Path) :
    .remoteFileDeleter k ∉ (processUpload sync (some remotes') dest locals).actions := fun h => by
  obtain ⟨p, g, hg, rfl, hnone, hbelow⟩ := deleted_path hl.sorted hlu hr'.sorted h
  have hk : g.absoluteName ∈ remotes'.keys := ⟨p, g, hg, rfl⟩
  rw [hkeys, hr'.file p g hg] at hk
  obtain ⟨q, he, ⟨f, hf, -⟩ | ⟨hq, hqb⟩⟩ := hk
  · have hpq := deriveAll_injective (hr'.named.forall_name_fileAt hg)
      (hl.named.forall_name_fileAt hf) he
    rw [hpq, hf] at hnone
    cases hnone
  · obtain ⟨g', hg'⟩ := Option.isSome_iff_exists.1 hq
    have hpq := deriveAll_injective (hr'.named.forall_name_fileAt hg)
      (hr.isRemote.named.forall_name_fileAt hg') he
    exact hbelow (hpq ▸ hqb)

end

/-- With `delete_missing` and empty filters, an upload of a local tree to a remote tree, without
spaces and without shadowed names, plans tasks that leave the mirrored keys in whatever order they
run; it acts on no key twice, and once it has run there is nothing left to delete. -/
theorem upload_mirrors {sync : Sync} {locals : LocalDir} {remotes : S3Dir} {dest : S3Path}
    (hs : sync.Mirrors) (hl : locals.Proper) (hlu : locals.Everywhere Dir.Unshadowed)
    (hls : ∀ p f, locals.fileAt p = some f → ' ' ∉ f.absoluteName)
    (hr : remotes.IsRemote dest) (hru : remotes.Everywhere Dir.Unshadowed)
    (hrs : ∀ p g, remotes.fileAt p = some g → ' ' ∉ g.absoluteName.path) :
    let plan := processUpload sync (some remotes) dest locals
    plan.failed = false ∧
    (∀ ts : List Task, ts.Perm plan.actions →
      ts.foldl Task.run remotes.keys = mirrored locals remotes dest) ∧
    (planKeys plan).Nodup ∧
    (∀ path k, .fileUploader path k ∈ plan.actions → .remoteFileDeleter k ∉ plan.actions) ∧
    ∀ remotes' : S3Dir, remotes'.IsRemote dest → remotes'.keys = mirrored locals remotes dest →
      ∀ k, .remoteFileDeleter k ∉ (processUpload sync (some remotes') dest locals).actions := by
  have hok : RemoteOk dest remotes := ⟨hr, hru⟩
  have hnodup := (nodup_keys_processUpload hs.checkMode hl hlu hok.ofMem).1
  exact ⟨failed_processUpload hs.checkMode locals, fun ts hts => run_upload hs hl hlu hls hok hrs hts,
    hnodup, fun path k => not_deleted_of_uploaded hnodup,
    fun remotes' hr' hkeys => no_deletion_of_mirrored hl hlu hok hr' hkeys⟩

/-- The directory `/l` with the file `a` and the unsyncable entry `s`. -/
def twoLocals : LocalDir :=
  .node "/l".toList [("a".toList, ⟨"/l/a".toList, false⟩), ("s".toList, ⟨"/l/s".toList, true⟩)] []

/-- `upload_mirrors` where a file is uploaded and an object is kept for an unsyncable entry. -/
theorem upload_mirrors_two :
    let dest : S3Path := ⟨[], "b".toList, "/d".toList⟩
    let plan := processUpload mirroring (some oneRemote) dest twoLocals
    plan.failed = false ∧
    (∀ ts : List Task, ts.Perm plan.actions →
      ts.foldl Task.run oneRemote.keys = mirrored twoLocals oneRemote dest) ∧
    (planKeys plan).Nodup ∧
    (∀ path k, .fileUploader path k ∈ plan.actions → .remoteFileDeleter k ∉ plan.actions) ∧
    ∀ remotes' : S3Dir, remotes'.IsRemote dest →
      remotes'.keys = mirrored twoLocals oneRemote dest →
      ∀ k, .remoteFileDeleter k ∉ (processUpload mirroring (some remotes') dest twoLocals).actions := by
  have hlocal : ∀ p f, twoLocals.fileAt p = some f →
      f.absoluteName = "/l/a".toList ∨ f.absoluteName = "/l/s".toList := fun p f hf => by
    match p with
    | [n] =>
      rcases List.mem_pair.1 (mem_of_findKey hf) with he | he <;> cases he
      · exact .inl rfl
      · exact .inr rfl
  refine upload_mirrors mirrors_mirroring ⟨?_, ?_⟩ ?_ (fun p f hf => ?_) ⟨proper_oneRemote, ?_⟩
    unshadowed_oneRemote fun p g hg => ?_
  · exact Dir.everywhere_of_subdirs_nil rfl ⟨by simp [twoLocals, Sorted]; decide, sorted_nil⟩
  · refine Dir.everywhere_of_subdirs_nil rfl fun n hn => ?_
    rcases List.mem_pair.1 (mem_keys.2 (hn.resolve_right Bool.false_ne_true)) with rfl | rfl
    · exact ⟨by decide, by decide⟩
    · exact ⟨by decide, by decide⟩
  · exact Dir.everywhere_of_subdirs_nil rfl fun _ _ _ => rfl
  · rcases hlocal p f hf with he | he <;> rw [he] <;> decide
  · intro p g hg
    obtain ⟨rfl, rfl⟩ := fileAt_oneRemote hg
    rfl
  · rw [(fileAt_oneRemote hg).2]
    decide

end ExtremeS3
