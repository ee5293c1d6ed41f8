import ExtremeS3.Lib.FileSystem
import ExtremeS3.Lib.Machine
import ExtremeS3.Sync.Deletions

/-!
# When a download with `delete_missing` mirrors the remote tree

While it plans, a download makes the directories that are missing (`run_processDownloads`). The
tasks it schedules have targets of which none is above another one, so no task undoes what another
one did (`run_task`), in whatever order they run. But a local file that has the name of a remote
directory stays: `mkdir` leaves it alone, and no task makes a directory (`dirsFree_of_mirrored`).
`download_mirrors_iff` puts this together. One directory is entered by `run_enter`, and a loop over
subdirectories of different names makes those of each (`run_downloadSubdirs`).
-/

namespace ExtremeS3

/-- What there is at a relative path of a tree. -/
def Dir.kindAt (d : Dir Str ι φ) (p : List Str) : Option Kind :=
  if (d.fileAt p).isSome then some .file else if (d.dirAt p).isSome then some .dir else none

/-- What there is at a relative path of a local tree; one that is absent is an empty directory. -/
def localKindAt (l : Option LocalDir) (p : List Str) : Option Kind :=
  (l.getD (.node [] [] [])).kindAt p

/-- What an action that is made while planning does to the local files. -/
def Action.run (fs : FileSystem Str) : Action → Option (FileSystem Str)
  | .schedule _ => some fs
  | .mkdir path => fs.mkdir (components path)

/-- What executing a task does to the local files. -/
def Task.runLocal (fs : FileSystem Str) : Task → Option (FileSystem Str)
  | .fileDownloader path _ deleteDir =>
    (if deleteDir then fs.removeAll (components path) else fs).writeFile (components path)
  | .localFileDeleter file => some (fs.removeAll (components file))
  | .fileUploader .. | .remoteFileDeleter _ => some fs

/-- The tasks that are scheduled, in order. -/
def scheduled (p : Plan Action) : List Task :=
  p.actions.filterMap fun
    | .schedule t => some t
    | .mkdir _ => none

/-- The tasks of a plan are those it schedules. -/
theorem mem_scheduled {p : Plan Action} {t : Task} :
    t ∈ scheduled p ↔ .schedule t ∈ p.actions := by
  rw [scheduled, List.mem_filterMap]
  constructor
  · rintro ⟨a, ha, h⟩
    cases a with
    | schedule u => cases h; exact ha
    | mkdir => cases h
  · exact fun h => ⟨_, h, rfl⟩

/-- No local file has the name of a remote directory in its place. -/
def DirsFree (locals : LocalDir) (remotes : S3Dir) : Prop :=
  ∀ p, (remotes.dirAt p).isSome → locals.fileAt p = none

/-- There is none in a directory either. -/
theorem DirsFree.child {l l' : LocalDir} {r r' : S3Dir} {n : Str} (h : DirsFree l r)
    (hl : findKey n l.subdirs = some l') (hr : findKey n r.subdirs = some r') : DirsFree l' r' := by
  intro p hp
  have hn := h (n :: p)
  rw [Dir.dirAt_cons, hr] at hn
  by_cases hnil : p = []
  · rw [hnil, Dir.fileAt_nil]
  · rw [Dir.fileAt_cons hnil, hl] at hn
    exact hn hp

/-- The name of a remote subdirectory is not that of a local file. -/
theorem DirsFree.findKey_eq_none {l : Option LocalDir} {r r' : S3Dir} {n : Str}
    (h : ∀ d ∈ l, DirsFree d r) (hr : findKey n r.subdirs = some r') :
    (l.bind fun d => findKey n d.files) = none := by
  cases l with
  | none => rfl
  | some d =>
    have hn := h d rfl [n]
    rw [Dir.dirAt_cons, hr, Dir.fileAt_singleton] at hn
    exact hn rfl

/-! ## While planning -/

/-- Below a subdirectory. -/
theorem localKindAt_cons_some {l : Option LocalDir} (hl : ∀ d ∈ l, d.Unshadowed) {n : Str}
    {d : LocalDir} (h : (l.bind fun d => findKey n d.subdirs) = some d) (q : List Str) :
    localKindAt l (n :: q) = localKindAt (some d) q := by
  obtain ⟨e, rfl, hd⟩ := Option.bind_eq_some_iff.1 h
  simp only [localKindAt, Option.getD_some, Dir.kindAt, Dir.dirAt_cons, hd, Option.bind_some]
  cases q with
  | nil =>
    have hf : findKey n e.files = none := by
      cases hf : findKey n e.files with
      | none => rfl
      | some f => rw [hl e rfl n f hf] at hd; cases hd
    rw [Dir.fileAt_singleton, hf, Dir.fileAt_nil]
  | cons m q => rw [Dir.fileAt_cons (List.cons_ne_nil m q), hd, Option.bind_some]

/-- Below a name that is not a subdirectory there is nothing, and at it a file at most. -/
theorem localKindAt_cons_none {l : Option LocalDir} {n : Str}
    (h : (l.bind fun d => findKey n d.subdirs) = none) (q : List Str) :
    localKindAt l (n :: q) =
      if q = [] ∧ (l.bind fun d => findKey n d.files).isSome then some .file else none := by
  cases l with
  | none =>
    cases q with
    | nil => rfl
    | cons m q => rfl
  | some e =>
    simp only [Option.bind_some] at h ⊢
    simp only [localKindAt, Option.getD_some, Dir.kindAt, Dir.dirAt_cons, h, Option.bind_none]
    cases q with
    | nil => simp
    | cons m q => rw [Dir.fileAt_cons (List.cons_ne_nil m q), h]; simp

/-- Actions that only schedule change nothing. -/
theorem foldlM_run_schedule {as : List Action} (h : ∀ a ∈ as, ∃ t, a = .schedule t)
    (fs : FileSystem Str) : as.foldlM Action.run fs = some fs := by
  induction as with
  | nil => rfl
  | cons a as ih =>
    obtain ⟨t, rfl⟩ := h a List.mem_cons_self
    exact ih fun b hb => h b (List.mem_cons_of_mem _ hb)

/-- Actions are run one after the other. -/
theorem foldlM_run_append {as bs : List Action} {fs fs' : FileSystem Str}
    (h : as.foldlM Action.run fs = some fs') :
    (as ++ bs).foldlM Action.run fs = bs.foldlM Action.run fs' := by
  rw [List.foldlM_append, h]
  rfl

/-- A directory is not below its own entries. -/
theorem not_prefix_self_of_append (c : List Str) (n : Str) : ¬ c ++ [n] <+: c := by
  intro h
  have := h.length_le
  rw [List.length_append, List.length_singleton] at this
  omega

/-- What is below two entries of a directory shows that they have one name. -/
theorem eq_of_prefix_cons {c q : List Str} {n m : Str} (h : c ++ [n] <+: c ++ m :: q) :
    n = m := by
  rw [List.prefix_append_right_inj, List.cons_prefix_cons] at h
  exact h.1

/-- Below `c` the directories of the tree are made, and nothing else changes. -/
structure MakesDirs (r : S3Dir) (c : List Str) (fs fs' : FileSystem Str) : Prop where
  below : ∀ q, fs' (c ++ q) = if (r.dirAt q).isSome then some .dir else fs (c ++ q)
  frame : ∀ x, ¬ c <+: x → fs' x = fs x

section

variable {sync : Sync} {l : Option LocalDir} {path n : Str} {fs : FileSystem Str}

/-- Before it recurses into a subdirectory a download makes sure that it is a directory, with the
local entries below it, unless a local file has its name. -/
theorem run_enter (hl : ∀ d ∈ l, d.Unshadowed) {c : List Str}
    (hfree : (l.bind fun d => findKey n d.files) = none)
    (hn : components (appendPath path n) = c ++ [n]) (hdir : fs c = some .dir)
    (hfs : ∀ q, fs (c ++ n :: q) = localKindAt l (n :: q)) (r : S3Dir) :
    ∃ fs', (downloadSubdir sync l path n r).actions.foldlM Action.run fs =
        (processDownloads sync (l.bind fun d => findKey n d.subdirs) (appendPath path n)
          r).actions.foldlM Action.run fs' ∧
      (∀ q, fs' (c ++ n :: q) = localKindAt (l.bind fun d => findKey n d.subdirs) q) ∧
      (∀ q, q ≠ [] → fs' (c ++ n :: q) = fs (c ++ n :: q)) ∧
      ∀ x, ¬ c ++ [n] <+: x → fs' x = fs x := by
  have hsplit : ∀ q, c ++ n :: q = c ++ [n] ++ q := fun q => by simp
  have hparent : (c ++ [n]).dropLast = c := List.dropLast_concat
  simp only [downloadSubdir, hfree, Option.isSome_none, Bool.false_and, Bool.false_eq_true,
    if_false]
  cases hsub : l.bind fun d => findKey n d.subdirs with
  | some d =>
    -- the local directory stays
    exact ⟨fs, rfl, fun q => by rw [hfs, localKindAt_cons_some hl hsub], fun _ _ => rfl,
      fun _ _ => rfl⟩
  | none =>
    -- there is nothing of its name, so the directory is made
    have hnone : ∀ q, fs (c ++ n :: q) = none := fun q => by
      rw [hfs, localKindAt_cons_none hsub, hfree, if_neg (by simp)]
    have hput : ∀ q, q ≠ [] → fs.put (c ++ [n]) .dir (c ++ n :: q) = none := fun q hq => by
      rw [FileSystem.put_of_ne (fun h => hq ?_), hnone]
      rw [hsplit] at h
      exact List.append_right_eq_self.1 h
    have hmake : fs.mkdir (components (appendPath path n)) = some (fs.put (c ++ [n]) .dir) := by
      rw [hn]
      refine FileSystem.mkdir_of_none (hnone []) ?_
      rw [hparent, hdir]
    refine ⟨fs.put (c ++ [n]) .dir, ?_, fun q => ?_, fun q hq => ?_, fun x hx => ?_⟩
    · simp [Action.run, hmake]
    · cases q with
      | nil => rw [FileSystem.put_self]; rfl
      | cons m q =>
        rw [hput _ (List.cons_ne_nil m q), localKindAt_cons_none (l := none) rfl,
          if_neg (by simp)]
    · rw [hput q hq, hnone q]
    · rw [FileSystem.put_of_ne fun h => hx ⟨[], by rw [h, List.append_nil]⟩]

/-- A download of a subdirectory makes the directories of it, if the downloads below it do. -/
theorem run_downloadSubdir (hl : ∀ d ∈ l, d.Unshadowed) {c : List Str}
    (hfree : (l.bind fun d => findKey n d.files) = none)
    (hn : components (appendPath path n) = c ++ [n]) {r : S3Dir}
    (hrec : ∀ fs₁ : FileSystem Str,
      (∀ q, fs₁ (c ++ [n] ++ q) = localKindAt (l.bind fun d => findKey n d.subdirs) q) →
      ∃ fs', (processDownloads sync (l.bind fun d => findKey n d.subdirs) (appendPath path n)
          r).actions.foldlM Action.run fs₁ = some fs' ∧ MakesDirs r (c ++ [n]) fs₁ fs')
    (hdir : fs c = some .dir) (hfs : ∀ q, fs (c ++ n :: q) = localKindAt l (n :: q)) :
    ∃ fs', (downloadSubdir sync l path n r).actions.foldlM Action.run fs = some fs' ∧
      MakesDirs r (c ++ [n]) fs fs' := by
  obtain ⟨fs₁, hrun₁, hkind, hsame, hframe₁⟩ := run_enter hl hfree hn hdir hfs r
  obtain ⟨fs₂, hrun₂, hmakes⟩ := hrec fs₁ fun q => by
    rw [List.append_assoc]
    exact hkind q
  refine ⟨fs₂, by rw [hrun₁, hrun₂], fun q => ?_, fun x hx => ?_⟩
  · rw [hmakes.below q]
    cases hq : (r.dirAt q).isSome with
    | true => rfl
    | false =>
      have hqn : q ≠ [] := fun h => by rw [h] at hq; cases hq
      have := hsame q hqn
      rw [if_neg Bool.false_ne_true, if_neg Bool.false_ne_true, List.append_assoc]
      exact this
  · rw [hmakes.frame x hx, hframe₁ x hx]

end

/-- A loop over subdirectories of different names makes the directories of each. -/
theorem run_downloadSubdirs {sync : Sync} {l : Option LocalDir} {path : Str} {c : List Str}
    {ds : List (Str × S3Dir)} (hnodup : (ds.map Prod.fst).Nodup)
    (hds : ∀ e ∈ ds, ∀ fs : FileSystem Str, fs c = some .dir →
      (∀ q, fs (c ++ e.1 :: q) = localKindAt l (e.1 :: q)) →
      ∃ fs', (downloadSubdir sync l path e.1 e.2).actions.foldlM Action.run fs = some fs' ∧
        MakesDirs e.2 (c ++ [e.1]) fs fs')
    {fs : FileSystem Str} (hdir : fs c = some .dir)
    (hfs : ∀ e ∈ ds, ∀ q, fs (c ++ e.1 :: q) = localKindAt l (e.1 :: q)) :
    ∃ fs', (ds.flatMap fun e => (downloadSubdir sync l path e.1 e.2).actions).foldlM Action.run fs =
        some fs' ∧
      (∀ e ∈ ds, ∀ q, fs' (c ++ e.1 :: q) =
        if (e.2.dirAt q).isSome then some .dir else fs (c ++ e.1 :: q)) ∧
      ∀ x, (∀ e ∈ ds, ¬ c ++ [e.1] <+: x) → fs' x = fs x := by
  induction ds generalizing fs with
  | nil => exact ⟨fs, rfl, nofun, fun _ _ => rfl⟩
  | cons e ds ih =>
    obtain ⟨hne, hnodup⟩ := List.nodup_cons.1 hnodup
    obtain ⟨fs₁, hrun₁, hmakes⟩ := hds e List.mem_cons_self fs hdir (hfs e List.mem_cons_self)
    -- the other subdirectories are still as they were
    have hother : ∀ e' ∈ ds, ∀ q, fs₁ (c ++ e'.1 :: q) = fs (c ++ e'.1 :: q) := fun e' he' q => by
      refine hmakes.frame _ fun hp => hne ?_
      rw [eq_of_prefix_cons hp]
      exact List.mem_map_of_mem he'
    have hdir₁ : fs₁ c = some .dir := by
      rw [hmakes.frame c (not_prefix_self_of_append c e.1), hdir]
    obtain ⟨fs₂, hrun₂, hbelow, hframe⟩ := ih hnodup
      (fun e' he' => hds e' (List.mem_cons_of_mem _ he')) hdir₁ fun e' he' q => by
        rw [hother e' he' q, hfs e' (List.mem_cons_of_mem _ he') q]
    refine ⟨fs₂, ?_, fun e' he' q => ?_, fun x hx => ?_⟩
    · rw [List.flatMap_cons, foldlM_run_append hrun₁, hrun₂]
    · rcases List.mem_cons.1 he' with rfl | he'
      · rw [hframe _ fun e he hp => hne ?_]
        · have := hmakes.below q
          rwa [List.append_assoc] at this
        · rw [← eq_of_prefix_cons hp]
          exact List.mem_map_of_mem he
      · rw [hbelow e' he' q, hother e' he' q]
    · rw [hframe x fun e' he' => hx e' (List.mem_cons_of_mem _ he'),
        hmakes.frame x (hx e List.mem_cons_self)]

/-- A download that does not fail plans its files, its subdirectories and the deletions, one after
the other. -/
theorem actions_processDownloads {sync : Sync} {l : Option LocalDir} {path : Str} {i : S3Path}
    {files : List (Str × S3File)} {subdirs : List (Str × S3Dir)}
    (h : (processDownloads sync l path (.node i files subdirs)).failed = false) :
    (processDownloads sync l path (.node i files subdirs)).actions =
      (Plan.forEach files fun e => downloadFile sync l path e.1 e.2).actions ++
        ((subdirs.flatMap fun e => (downloadSubdir sync l path e.1 e.2).actions) ++
        (deleteUnseenLocals sync (files.map Prod.fst ++ subdirs.map Prod.fst) l).actions) := by
  rw [processDownloads, Plan.failed_append, Bool.or_eq_false_iff] at h
  have hfirst := h.1
  rw [Plan.failed_append, Bool.or_eq_false_iff, downloadSubdirs_eq] at hfirst
  rw [processDownloads, Plan.actions_append h.1, downloadSubdirs_eq,
    Plan.actions_append hfirst.1, Plan.actions_forEach hfirst.2, List.append_assoc]

/-- While planning, a download makes the directories of the remote tree, unless a local file has the
name of one. -/
theorem run_processDownloads {sync : Sync} (hd : sync.deleteMissing) (hm : sync.checkMode = false)
    {r : S3Dir} (hr : r.Proper) {l : Option LocalDir} (hl : ∀ d ∈ l, d.Everywhere Dir.Unshadowed)
    (hfree : ∀ d ∈ l, DirsFree d r) {path : Str} (hpath : path ≠ []) {fs : FileSystem Str}
    (hfs : ∀ q, fs (components path ++ q) = localKindAt l q) :
    ∃ fs', (processDownloads sync l path r).actions.foldlM Action.run fs = some fs' ∧
      MakesDirs r (components path) fs fs' := by
  induction r using Dir.induct generalizing l path fs with
  | node i files subdirs ih =>
    have hs := hr.sorted.root
    have hf : (processDownloads sync l path (.node i files subdirs)).failed = false :=
      failed_processDownloads hm _
    have hfiles : ∀ a ∈ (Plan.forEach files fun e => downloadFile sync l path e.1 e.2).actions,
        ∃ t, a = .schedule t := fun a ha => by
      obtain ⟨e, -, ha⟩ := Plan.mem_of_forEach ha
      obtain ⟨-, -, -, rfl⟩ := mem_downloadFile.1 ha
      exact ⟨_, rfl⟩
    have hunseen : ∀ a ∈ (deleteUnseenLocals sync (files.map Prod.fst ++ subdirs.map Prod.fst)
        l).actions, ∃ t, a = .schedule t := fun a ha => by
      simp only [deleteUnseenLocals, hd, if_true] at ha
      obtain ⟨e, -, ha⟩ := Plan.mem_of_forEach ha
      exact ⟨_, List.mem_singleton.1 ha⟩
    have hdir : fs (components path) = some .dir := by
      have := hfs []
      rwa [List.append_nil] at this
    have hsub : ∀ e ∈ subdirs, ∀ fs : FileSystem Str, fs (components path) = some .dir →
        (∀ q, fs (components path ++ e.1 :: q) = localKindAt l (e.1 :: q)) →
        ∃ fs', (downloadSubdir sync l path e.1 e.2).actions.foldlM Action.run fs = some fs' ∧
          MakesDirs e.2 (components path ++ [e.1]) fs fs' := by
      intro e he fs hdir hfs
      have hn := hs.2.findKey_eq_some.2 he
      have hname := hr.named.root e.1 (.inr (by rw [hn]; rfl))
      have hcomp : components (appendPath path e.1) = components path ++ [e.1] := by
        rw [appendPath, if_neg hpath, components_joinPath path hname.ne_nil hname.slash]
      have hne : appendPath path e.1 ≠ [] := by
        rw [appendPath, if_neg hpath]
        exact joinPath_ne_nil hpath
      have hl₁ : ∀ d ∈ (l.bind fun d => findKey e.1 d.subdirs), d.Everywhere Dir.Unshadowed :=
        fun d h => by
          obtain ⟨d', hd', h⟩ := Option.bind_eq_some_iff.1 h
          exact (hl d' hd').child h
      have hfree₁ : ∀ d ∈ (l.bind fun d => findKey e.1 d.subdirs), DirsFree d e.2 := fun d h => by
        obtain ⟨d', hd', h⟩ := Option.bind_eq_some_iff.1 h
        exact (hfree d' hd').child h hn
      refine run_downloadSubdir (fun d h => (hl d h).root) (DirsFree.findKey_eq_none hfree hn) hcomp
        (fun fs₁ hfs₁ => ?_) hdir hfs
      rw [← hcomp] at hfs₁ ⊢
      exact ih e.1 e.2 he (hr.child hn) hl₁ hfree₁ hne hfs₁
    have hnodup : (subdirs.map Prod.fst).Nodup := hs.2.nodup_keys
    obtain ⟨fs', hrun, hbelow, hframe⟩ :=
      run_downloadSubdirs hnodup hsub hdir fun e _ q => hfs (e.1 :: q)
    refine ⟨fs', ?_, fun q => ?_, fun x hx => ?_⟩
    · rw [actions_processDownloads hf, foldlM_run_append (foldlM_run_schedule hfiles fs),
        foldlM_run_append hrun, foldlM_run_schedule hunseen]
    · cases q with
      | nil =>
        rw [List.append_nil, hframe _ fun e _ => not_prefix_self_of_append _ e.1, hdir]
        rfl
      | cons n q =>
        rw [Dir.dirAt_cons]
        cases hn : findKey n (Dir.node i files subdirs).subdirs with
        | some d => exact hbelow (n, d) (mem_of_findKey hn) q
        | none =>
          refine hframe _ fun e he hp => ?_
          rw [← eq_of_prefix_cons hp, hs.2.findKey_eq_some.2 he] at hn
          cases hn
    · exact hframe x fun e _ hp => hx ((List.prefix_append _ _).trans hp)

/-! ## The scheduled tasks -/

/-- The tasks that a download schedules, with the relative paths of their targets: the remote files
are downloaded, and in a directory that is there on both sides the local names that are not remote
names are deleted. -/
inductive Planned (locals : LocalDir) (remotes : S3Dir) (root : Str) : List Str → Task → Prop
  | download {p f} : remotes.fileAt p = some f → Planned locals remotes root p
      (.fileDownloader (joinAll root p) f.absoluteName (locals.dirAt p).isSome)
  | delete {p n l r} : locals.dirAt p = some l → remotes.dirAt p = some r → n ∈ l.names →
      n ∉ r.names → Planned locals remotes root (p ++ [n])
      (.localFileDeleter (joinAll root (p ++ [n])))

/-- The path that a task changes. -/
def Task.target : Task → Option Str
  | .fileDownloader path .. | .localFileDeleter path => some path
  | .fileUploader .. | .remoteFileDeleter _ => none

/-- What is at the path and below it is what the remote tree has there. -/
def Settled (remotes : S3Dir) (c : List Str) (p : List Str) (fs : FileSystem Str) : Prop :=
  ∀ q, fs (c ++ (p ++ q)) = remotes.kindAt (p ++ q)

/-- The directories are those of the remote tree; the rest is still local or already downloaded. -/
structure Between (locals : LocalDir) (remotes : S3Dir) (c : List Str) (fs : FileSystem Str) :
    Prop where
  dirs : ∀ q, (remotes.dirAt q).isSome → fs (c ++ q) = some .dir
  rest : ∀ q, remotes.dirAt q = none → fs (c ++ q) = none ∨ fs (c ++ q) = locals.kindAt q ∨
    fs (c ++ q) = some .file ∧ (remotes.fileAt q).isSome

section

variable {sync : Sync} {locals : LocalDir} {remotes : S3Dir} {root : Str}

/-- Only such tasks are scheduled. -/
theorem planned_of_mem (hl : locals.IsLocal root) (hr : remotes.Everywhere Dir.Sorted) {t : Task}
    (h : t ∈ scheduled (processDownloads sync (some locals) root remotes)) :
    ∃ p, Planned locals remotes root p t := by
  rw [mem_scheduled] at h
  obtain ⟨p, r, l, hv, hat⟩ := downloadsAt_of_mem hr (localSorted_some hl.sorted) h
  obtain ⟨hrp, rfl⟩ := downloadVisit_dirAt hv
  cases hat with
  | @download n f hf =>
    rw [appendPath_foldl hl.ne_nil, Option.bind_some, ← Dir.dirAt_concat]
    refine ⟨_, .download ?_⟩
    rw [Dir.fileAt_concat, hrp]
    exact hf
  | unseen =>
    obtain ⟨-, q, n, l, r, hlq, hrq, hn, hnr, rfl⟩ := local_deletes_of_mem hl hr h
    exact ⟨_, .delete hlq hrq hn hnr⟩

/-- The scheduled tasks. -/
theorem mem_scheduled_iff (hs : sync.Mirrors) (hl : locals.IsLocal root) (hr : remotes.Proper)
    (hrs : ∀ p g, remotes.fileAt p = some g → ' ' ∉ g.absoluteName.path) {t : Task} :
    t ∈ scheduled (processDownloads sync (some locals) root remotes) ↔
      ∃ p, Planned locals remotes root p t := by
  have hf : (processDownloads sync (some locals) root remotes).failed = false :=
    failed_processDownloads hs.checkMode remotes
  refine ⟨planned_of_mem hl hr.sorted, ?_⟩
  rw [mem_scheduled]
  rintro ⟨p, h⟩
  cases h with
  | download hfile =>
    obtain ⟨q, n, rfl⟩ := (List.eq_nil_or_concat' p).resolve_left (Dir.ne_nil_of_fileAt hfile)
    have hc := hs.checkIncluded (hrs _ _ hfile)
    rw [Dir.fileAt_concat] at hfile
    obtain ⟨r, hrp, hfile⟩ := Option.bind_eq_some_iff.1 hfile
    refine (mem_processDownloads hr.sorted (localSorted_some hl.sorted) hf).2
      ⟨q, r, _, downloadVisit_of_dirAt hs.deleteMissing hrp, ?_⟩
    rw [← appendPath_foldl hl.ne_nil, Dir.dirAt_concat, ← Option.bind_some locals fun l => l.dirAt q]
    exact .download hfile hc (fun _ => hs.deleteMissing) fun h => by rw [hs.checkMode] at h; cases h
  | delete hlq hrq hn hnr =>
    exact (local_deletes_iff hl hr.sorted hf).2
      ⟨hs.deleteMissing, _, _, _, _, hlq, hrq, hn, hnr, rfl⟩

/-- No remote directory is at the target of a task or below it. -/
theorem Planned.dirAt_eq_none (hru : remotes.Everywhere Dir.Unshadowed) {p q : List Str} {t : Task}
    (h : Planned locals remotes root p t) (hq : p <+: q) : remotes.dirAt q = none := by
  refine Option.eq_none_iff_forall_not_mem.2 fun d hd => ?_
  have hp := Dir.dirAt_of_prefix hq (by rw [hd]; rfl)
  cases h with
  | download hf =>
    rw [hru.not_both hf] at hp
    cases hp
  | @delete p n l r hlp hrp hn hnr =>
    rw [Dir.dirAt_concat, hrp] at hp
    exact hnr (Dir.mem_names.2 (.inr hp))

/-- What the remote tree has at the target of a task and below it. -/
theorem Planned.kindAt_eq (hru : remotes.Everywhere Dir.Unshadowed) {p q : List Str} {t : Task}
    (h : Planned locals remotes root p t) :
    remotes.kindAt (p ++ q) =
      if q = [] ∧ (remotes.fileAt p).isSome then some .file else none := by
  rw [Dir.kindAt, h.dirAt_eq_none hru (List.prefix_append p q)]
  by_cases hq : q = []
  · subst hq
    simp
  · have hf : remotes.fileAt (p ++ q) = none := by
      rw [Dir.fileAt_append hq, h.dirAt_eq_none hru (List.prefix_refl p)]
      rfl
    simp [hf, hq]

/-- The target of a task is in a remote directory. -/
theorem Planned.parent {p : List Str} {t : Task} (h : Planned locals remotes root p t) :
    p ≠ [] ∧ (remotes.dirAt p.dropLast).isSome := by
  cases h with
  | download hf =>
    obtain ⟨q, n, rfl⟩ := (List.eq_nil_or_concat' p).resolve_left (Dir.ne_nil_of_fileAt hf)
    rw [Dir.fileAt_concat] at hf
    obtain ⟨r, hrp, -⟩ := Option.bind_eq_some_iff.1 hf
    rw [List.dropLast_concat, hrp]
    exact ⟨by simp, rfl⟩
  | delete _ hrq =>
    rw [List.dropLast_concat, hrq]
    exact ⟨by simp, rfl⟩

/-- No target is above another one. -/
theorem Planned.eq_of_prefix (hru : remotes.Everywhere Dir.Unshadowed) {p p' : List Str}
    {t t' : Task} (h : Planned locals remotes root p t) (h' : Planned locals remotes root p' t')
    (hp : p <+: p') : p = p' := by
  obtain ⟨q, rfl⟩ := hp
  by_contra hne
  have hq : q ≠ [] := fun h => hne (by rw [h, List.append_nil])
  have hparent := h'.parent.2
  rw [List.dropLast_append_of_ne_nil hq, h.dirAt_eq_none hru (List.prefix_append _ _)] at hparent
  cases hparent

/-- The names on the path of a target. -/
theorem Planned.nameOk (hl : locals.IsLocal root) (hr : remotes.Proper) {p : List Str} {t : Task}
    (h : Planned locals remotes root p t) : ∀ n ∈ p, NameOk n := by
  cases h with
  | download hf => exact hr.named.forall_name_fileAt hf
  | delete hlq _ hn => exact hl.nameOk hlq (Dir.mem_names.1 hn)

/-- A task has one target. -/
theorem Planned.unique (hl : locals.IsLocal root) (hr : remotes.Proper) {p p' : List Str} {t : Task}
    (h : Planned locals remotes root p t) (h' : Planned locals remotes root p' t) : p = p' := by
  refine joinAll_injective (h.nameOk hl hr) (h'.nameOk hl hr) (s := root) ?_
  have key : ∀ {q}, Planned locals remotes root q t → t.target = some (joinAll root q) := fun h => by
    cases h <;> rfl
  exact Option.some.inj ((key h).symm.trans (key h'))

/-- What is not a remote directory and is there before or after the download is below a target. -/
theorem exists_planned {q : List Str} (hq : remotes.dirAt q = none)
    (h : locals.kindAt q ≠ none ∨ (remotes.fileAt q).isSome) :
    ∃ p t, Planned locals remotes root p t ∧ p <+: q := by
  cases hf : remotes.fileAt q with
  | some f => exact ⟨q, _, .download hf, List.prefix_refl q⟩
  | none =>
    have hlq : locals.kindAt q ≠ none := h.resolve_right (by simp [hf])
    have hne : q ≠ [] := fun h => by rw [h] at hq; cases hq
    obtain ⟨p, n, q, r, rfl, hrp, hsub⟩ := remotes.exists_deepest hne
    have hrn : findKey n r.subdirs = none := by
      rcases hsub with rfl | hsub
      · rwa [Dir.dirAt_concat, hrp] at hq
      · exact hsub
    -- the local tree has the name in the same directory
    obtain ⟨l, hlp, hn⟩ : ∃ l, locals.dirAt p = some l ∧ n ∈ l.names := by
      simp only [Dir.kindAt, Dir.fileAt_append (List.cons_ne_nil n q), Dir.dirAt_append] at hlq
      cases hlp : locals.dirAt p with
      | none => simp [hlp] at hlq
      | some l =>
        refine ⟨l, rfl, Dir.mem_names.2 ?_⟩
        by_contra hno
        rw [not_or, Option.not_isSome_iff_eq_none, Option.not_isSome_iff_eq_none] at hno
        refine hlq ?_
        rw [hlp, Option.bind_some, Option.bind_some, Dir.dirAt_cons, hno.2]
        cases q with
        | nil => rw [Dir.fileAt_singleton, hno.1]; rfl
        | cons m q => rw [Dir.fileAt_cons (List.cons_ne_nil m q), hno.2]; rfl
    cases hg : findKey n r.files with
    | some g =>
      refine ⟨p ++ [n], _, .download (f := g) ?_, by simp⟩
      rw [Dir.fileAt_concat, hrp]
      exact hg
    | none =>
      refine ⟨p ++ [n], _, .delete hlp hrp hn fun hnr => ?_, by simp⟩
      rcases Dir.mem_names.1 hnr with hnr | hnr
      · rw [hg] at hnr; cases hnr
      · rw [hrn] at hnr; cases hnr

/-! ## Running them -/

/-- A common beginning makes no difference to which path is below which. -/
theorem prefix_append_iff {c p q : List Str} : c ++ p <+: c ++ q ↔ p <+: q :=
  List.prefix_append_right_inj c

/-- A task succeeds, and changes what is at its target and below it to what the remote tree has
there. -/
theorem run_task (hl : locals.IsLocal root) (hr : remotes.Proper)
    (hru : remotes.Everywhere Dir.Unshadowed) {p : List Str} {t : Task}
    (h : Planned locals remotes root p t) {fs : FileSystem Str}
    (hfs : Between locals remotes (components root) fs) :
    ∃ fs', t.runLocal fs = some fs' ∧ Settled remotes (components root) p fs' ∧
      ∀ x, ¬ components root ++ p <+: x → fs' x = fs x := by
  have hpath := components_joinAll root (h.nameOk hl hr)
  have hkind := fun q => h.kindAt_eq (q := q) hru
  have hnone := h.dirAt_eq_none hru (List.prefix_refl p)
  have hparent := h.parent
  cases h with
  | @download p f hf =>
    have hdrop : (components root ++ p).dropLast = components root ++ p.dropLast :=
      List.dropLast_append_of_ne_nil hparent.1
    have habove : ¬ components root ++ p <+: components root ++ p.dropLast := fun h => by
      have hlen := (prefix_append_iff.1 h).length_le
      have hpos := List.length_pos_iff.2 hparent.1
      rw [List.length_dropLast] at hlen
      omega
    -- once the local directory of its name is removed, there is nothing below the target
    obtain ⟨fs₁, hfs₁, hat, hbelow, hframe⟩ : ∃ fs₁ : FileSystem Str,
        (if (locals.dirAt p).isSome then fs.removeAll (components root ++ p) else fs) = fs₁ ∧
        fs₁ (components root ++ p) ≠ some .dir ∧
        (∀ q, q ≠ [] → fs₁ (components root ++ (p ++ q)) = none) ∧
        ∀ x, ¬ components root ++ p <+: x → fs₁ x = fs x := by
      cases hdir : locals.dirAt p with
      | some d =>
        refine ⟨_, rfl, ?_, fun q _ => ?_, fun x hx => FileSystem.removeAll_of_not_prefix hx⟩
        · rw [Option.isSome_some, if_pos rfl, FileSystem.removeAll_of_prefix (List.prefix_refl _)]
          exact nofun
        · exact FileSystem.removeAll_of_prefix (prefix_append_iff.2 (List.prefix_append p q))
      | none =>
        refine ⟨fs, rfl, fun hat => ?_, fun q hq => ?_, fun _ _ => rfl⟩
        · rcases hfs.rest p hnone with h | h | ⟨h, -⟩
          · rw [hat] at h; cases h
          · rw [hat, Dir.kindAt, hdir] at h
            split at h <;> cases h
          · rw [hat] at h; cases h
        · have hfp : remotes.fileAt (p ++ q) = none := by
            rw [Dir.fileAt_append hq, hnone]
            rfl
          have hdp : remotes.dirAt (p ++ q) = none := by rw [Dir.dirAt_append, hnone]; rfl
          rcases hfs.rest (p ++ q) hdp with h | h | ⟨-, h⟩
          · exact h
          · rw [h, Dir.kindAt, Dir.fileAt_append hq, Dir.dirAt_append, hdir]
            rfl
          · rw [hfp] at h; cases h
    refine ⟨fs₁.put (components root ++ p) .file, ?_, fun q => ?_, fun x hx => ?_⟩
    · rw [Task.runLocal, hpath, hfs₁]
      refine FileSystem.writeFile_eq_some hat ?_
      rw [hdrop, hframe _ habove, hfs.dirs _ hparent.2]
    · rw [hkind q, hf]
      by_cases hq : q = []
      · subst hq
        rw [List.append_nil, FileSystem.put_self, if_pos ⟨rfl, rfl⟩]
      · rw [FileSystem.put_of_ne fun h => hq ?_, hbelow q hq, if_neg fun h => hq h.1]
        rw [← List.append_assoc] at h
        exact List.append_right_eq_self.1 h
    · rw [FileSystem.put_of_ne fun h => hx ⟨[], by rw [h, List.append_nil]⟩, hframe x hx]
  | @delete p n l r hlp hrp hn hnr =>
    refine ⟨_, by rw [Task.runLocal, hpath], fun q => ?_,
      fun x hx => FileSystem.removeAll_of_not_prefix hx⟩
    rw [FileSystem.removeAll_of_prefix (prefix_append_iff.2 (List.prefix_append _ q)), hkind q]
    have hf : remotes.fileAt (p ++ [n]) = none := by
      rw [Dir.fileAt_concat, hrp]
      exact Option.eq_none_iff_forall_not_mem.2 fun f hf =>
        hnr (Dir.mem_names.2 (.inl (by rw [show findKey n r.files = some f from hf]; rfl)))
    rw [hf]
    simp

/-- What a task settles stays settled while others run. -/
theorem settled_of_frame (hru : remotes.Everywhere Dir.Unshadowed) {p p' : List Str} {t t' : Task}
    (h : Planned locals remotes root p t) (h' : Planned locals remotes root p' t')
    {c : List Str} {fs fs' : FileSystem Str} (hdone : Settled remotes c p fs')
    (hframe : ∀ x, ¬ c ++ p <+: x → fs' x = fs x) (hs : Settled remotes c p' fs) :
    Settled remotes c p' fs' := by
  by_cases hp : p = p'
  · exact hp ▸ hdone
  · intro q
    rw [hframe _ fun hle => hp ?_, hs q]
    rw [prefix_append_iff] at hle
    rcases List.prefix_or_prefix_of_prefix hle (List.prefix_append p' q) with hle | hle
    · exact h.eq_of_prefix hru h' hle
    · exact (h'.eq_of_prefix hru h hle).symm

/-- A step that changes only what is at or below the path of a task, and settles that path, leaves the
file system between the two trees. -/
theorem Between.of_frame (hru : remotes.Everywhere Dir.Unshadowed) {p : List Str} {t : Task}
    (h : Planned locals remotes root p t) {c : List Str} {fs fs' : FileSystem Str}
    (hdone : Settled remotes c p fs') (hframe : ∀ x, ¬ c ++ p <+: x → fs' x = fs x)
    (hfs : Between locals remotes c fs) : Between locals remotes c fs' where
  dirs q hq := by
    rw [hframe _ fun hle => ?_, hfs.dirs q hq]
    rw [h.dirAt_eq_none hru (prefix_append_iff.1 hle)] at hq
    cases hq
  rest q hq := by
    by_cases hle : p <+: q
    · obtain ⟨q, rfl⟩ := hle
      rw [hdone q, Dir.kindAt, hq]
      cases hf : remotes.fileAt (p ++ q) with
      | some f => exact .inr (.inr ⟨rfl, rfl⟩)
      | none => exact .inl rfl
    · rw [hframe _ fun h => hle (prefix_append_iff.1 h)]
      exact hfs.rest q hq

/-- Tasks that a download schedules succeed in any order, and each settles its target. -/
theorem run_tasks (hl : locals.IsLocal root) (hr : remotes.Proper)
    (hru : remotes.Everywhere Dir.Unshadowed) {ts : List Task}
    (hts : ∀ t ∈ ts, ∃ p, Planned locals remotes root p t) {fs : FileSystem Str}
    (hfs : Between locals remotes (components root) fs) :
    ∃ fs', ts.foldlM Task.runLocal fs = some fs' ∧ Between locals remotes (components root) fs' ∧
      (∀ p t, Planned locals remotes root p t → t ∈ ts ∨ Settled remotes (components root) p fs →
        Settled remotes (components root) p fs') ∧
      ∀ x, ¬ components root <+: x → fs' x = fs x := by
  induction ts generalizing fs with
  | nil =>
    refine ⟨fs, rfl, hfs, fun p t _ h => h.resolve_left nofun, fun _ _ => rfl⟩
  | cons t ts ih =>
    obtain ⟨p, hp⟩ := hts t List.mem_cons_self
    obtain ⟨fs₁, hrun, hdone, hframe⟩ := run_task hl hr hru hp hfs
    obtain ⟨fs₂, hruns, hbetween, hsettled, hframe₂⟩ :=
      ih (fun u hu => hts u (List.mem_cons_of_mem _ hu)) (hfs.of_frame hru hp hdone hframe)
    refine ⟨fs₂, ?_, hbetween, fun p' t' hp' h => ?_, fun x hx => ?_⟩
    · rw [List.foldlM_cons, hrun]
      exact hruns
    · refine hsettled p' t' hp' ?_
      rcases h with h | h
      · rcases List.mem_cons.1 h with rfl | h
        · exact .inr (hp.unique hl hr hp' ▸ hdone)
        · exact .inl h
      · exact .inr (settled_of_frame hru hp hp' hdone hframe h)
    · rw [hframe₂ x hx, hframe x fun hle => hx ((List.prefix_append _ _).trans hle)]

/-- When everything planned is settled, what is below the root is what the remote tree has. -/
theorem settled_all (hru : remotes.Everywhere Dir.Unshadowed) {c : List Str} {fs : FileSystem Str}
    (hfs : Between locals remotes c fs)
    (hs : ∀ p t, Planned locals remotes root p t → Settled remotes c p fs) (q : List Str) :
    fs (c ++ q) = remotes.kindAt q := by
  cases hq : remotes.dirAt q with
  | some d =>
    have hf : remotes.fileAt q = none := Option.eq_none_iff_forall_not_mem.2 fun f hf => by
      rw [hru.not_both hf] at hq
      cases hq
    rw [hfs.dirs q (by rw [hq]; rfl), Dir.kindAt, hf, hq]
    rfl
  | none =>
    by_cases h : locals.kindAt q ≠ none ∨ (remotes.fileAt q).isSome
    · obtain ⟨p, t, hp, r, rfl⟩ := exists_planned hq h
      exact hs p t hp r
    · rw [not_or, not_ne_iff, Option.not_isSome_iff_eq_none] at h
      have hkind : remotes.kindAt q = none := by rw [Dir.kindAt, h.2, hq]; rfl
      rw [hkind]
      rcases hfs.rest q hq with hnone | hlocal | ⟨-, hf⟩
      · exact hnone
      · rw [hlocal, h.1]
      · rw [h.2] at hf; cases hf

end

/-! ## The whole download -/

/-- An action keeps what there is. -/
theorem Action.apply_of_run {a : Action} {fs fs' : FileSystem Str} {x : List Str} {k : Kind}
    (hx : fs x = some k) (h : a.run fs = some fs') : fs' x = some k := by
  cases a with
  | schedule t =>
    cases h
    exact hx
  | mkdir path => exact FileSystem.apply_of_mkdir h hx

/-- A task makes no directory. -/
theorem Task.runLocal_ne_dir {t : Task} {fs fs' : FileSystem Str} {x : List Str}
    (hx : fs x ≠ some .dir) (h : t.runLocal fs = some fs') : fs' x ≠ some .dir := by
  cases t with
  | fileDownloader path remote deleteDir =>
    refine FileSystem.writeFile_ne_dir h ?_
    split
    · exact FileSystem.removeAll_ne_dir hx
    · exact hx
  | localFileDeleter file =>
    cases h
    exact FileSystem.removeAll_ne_dir hx
  | fileUploader | remoteFileDeleter =>
    cases h
    exact hx

section

variable {sync : Sync} {locals : LocalDir} {remotes : S3Dir} {root : Str} {fs : FileSystem Str}

/-- Where a download, in some order of its tasks, leaves directories in the places of the remote
ones, no local file had the name of one. -/
theorem dirsFree_of_mirrored (hru : remotes.Everywhere Dir.Unshadowed)
    (hfs : ∀ q, fs (components root ++ q) = locals.kindAt q) {as : List Action}
    {fs₁ fs₂ : FileSystem Str} (hplan : as.foldlM Action.run fs = some fs₁) {ts : List Task}
    (htasks : ts.foldlM Task.runLocal fs₁ = some fs₂)
    (hkind : ∀ q, fs₂ (components root ++ q) = remotes.kindAt q) : DirsFree locals remotes := by
  intro p hp
  by_contra hfile
  have hbefore : fs (components root ++ p) = some .file := by
    rw [hfs, Dir.kindAt, if_pos (Option.isSome_iff_ne_none.2 hfile)]
  have hplanned : fs₁ (components root ++ p) = some .file :=
    Machine.foldlM_invariant (fun _ _ _ => Action.apply_of_run) hplan hbefore
  have hafter : fs₂ (components root ++ p) ≠ some .dir :=
    Machine.foldlM_invariant (fun _ _ _ => Task.runLocal_ne_dir) htasks (by rw [hplanned]; nofun)
  refine hafter ?_
  rw [hkind, Dir.kindAt, if_pos hp]
  cases hf : remotes.fileAt p with
  | none => rfl
  | some g =>
    rw [hru.not_both hf] at hp
    cases hp

/-- Otherwise the download leaves below its root what the remote tree has there, and changes nothing
else, in whatever order its tasks run. -/
theorem run_download (hs : sync.Mirrors) (hl : locals.IsLocal root) (hr : remotes.Proper)
    (hru : remotes.Everywhere Dir.Unshadowed)
    (hrs : ∀ p g, remotes.fileAt p = some g → ' ' ∉ g.absoluteName.path)
    (hfree : DirsFree locals remotes)
    (hfs : ∀ q, fs (components root ++ q) = locals.kindAt q) :
    ∃ fs₁, (processDownloads sync (some locals) root remotes).actions.foldlM Action.run fs =
        some fs₁ ∧
      ∀ ts : List Task, ts.Perm (scheduled (processDownloads sync (some locals) root remotes)) →
        ∃ fs₂, ts.foldlM Task.runLocal fs₁ = some fs₂ ∧
          (∀ q, fs₂ (components root ++ q) = remotes.kindAt q) ∧
          ∀ x, ¬ components root <+: x → fs₂ x = fs x := by
  obtain ⟨fs₁, hplanning, hmakes⟩ := run_processDownloads hs.deleteMissing hs.checkMode hr
    (l := some locals) (fun d hd => by cases hd; exact hl.unshadowed)
    (fun d hd => by cases hd; exact hfree) hl.ne_nil hfs
  have hbetween : Between locals remotes (components root) fs₁ := by
    constructor
    case dirs =>
      intro q hq
      rw [hmakes.below q, if_pos hq]
    case rest =>
      intro q hq
      refine .inr (.inl ?_)
      rw [hmakes.below q, if_neg (by simp [hq])]
      exact hfs q
  have hplanned := fun t => mem_scheduled_iff hs hl hr hrs (t := t)
  refine ⟨fs₁, hplanning, fun ts hts => ?_⟩
  obtain ⟨fs₂, hrun, hbetween₂, hsettled, hframe⟩ :=
    run_tasks hl hr hru (fun t ht => (hplanned t).1 (hts.mem_iff.1 ht)) hbetween
  refine ⟨fs₂, hrun, settled_all hru hbetween₂ fun p t ht => hsettled p t ht (.inl ?_), ?_⟩
  · exact hts.mem_iff.2 ((hplanned t).2 ⟨p, ht⟩)
  · intro x hx
    rw [hframe x hx, hmakes.frame x hx]

end

/-- A file system that has nothing but a tree at `c`. -/
def mounted (c : List Str) (d : Dir Str ι φ) : FileSystem Str := fun x =>
  if c <+: x then d.kindAt (x.drop c.length) else none

/-- A tree that is mounted has its kinds below its path. -/
theorem kindAt_mounted (c : List Str) (d : LocalDir) (q : List Str) :
    mounted c d (c ++ q) = d.kindAt q := by
  rw [mounted, if_pos (List.prefix_append _ q), List.drop_left]

/-- The directory `/l` with the file `x`. -/
def localsWithX : LocalDir := .node "/l".toList [("x".toList, ⟨"/l/x".toList, false⟩)] []

/-- The tree of a bucket with the object `x/k`. -/
def remotesBelowX : S3Dir :=
  .node ⟨[], "b".toList, "/".toList⟩ []
    [("x".toList, .node ⟨[], "b".toList, "/x/".toList⟩
      [("k".toList, ⟨[], "b".toList, "/x/k".toList⟩)] [])]

/-- The tree with the file `x` is that of a directory with it. -/
theorem isLocal_localsWithX : localsWithX.IsLocal "/l".toList where
  ne_nil := by decide
  sorted := Dir.everywhere_of_subdirs_nil rfl ⟨by simp [localsWithX, Sorted], sorted_nil⟩
  unshadowed := Dir.everywhere_of_subdirs_nil rfl fun _ _ _ => rfl
  named := Dir.everywhere_of_subdirs_nil rfl fun n hn => by
    rw [List.mem_singleton.1 (mem_keys.2 (hn.resolve_right Bool.false_ne_true))]
    exact ⟨by decide, by decide⟩
  file p f h := by
    rcases p with _ | ⟨n, _ | ⟨m, p⟩⟩
    · cases h
    · cases List.mem_singleton.1 (mem_of_findKey h)
      rfl
    · cases h
  dir p d h := by
    obtain ⟨rfl, rfl⟩ := Dir.dirAt_of_subdirs_nil rfl h
    rfl

/-- The remote tree below `x` is proper. -/
theorem proper_remotesBelowX : remotesBelowX.Proper where
  sorted := by
    refine Dir.everywhere_node ⟨sorted_nil, by simp [Sorted]⟩ ?_
    rw [List.forall_mem_singleton]
    exact Dir.everywhere_of_subdirs_nil rfl ⟨by simp [Sorted], sorted_nil⟩
  named := by
    refine Dir.everywhere_node (fun n hn => ?_) ?_
    · rw [List.mem_singleton.1 (mem_keys.2 (hn.resolve_left Bool.false_ne_true))]
      exact ⟨by decide, by decide⟩
    · rw [List.forall_mem_singleton]
      refine Dir.everywhere_of_subdirs_nil rfl fun n hn => ?_
      rw [List.mem_singleton.1 (mem_keys.2 (hn.resolve_right Bool.false_ne_true))]
      exact ⟨by decide, by decide⟩

/-- No file of the remote tree below `x` is shadowed. -/
theorem unshadowed_remotesBelowX : remotesBelowX.Everywhere Dir.Unshadowed := by
  refine Dir.everywhere_node (fun n f hf => by cases hf) ?_
  rw [List.forall_mem_singleton]
  exact Dir.everywhere_of_subdirs_nil rfl fun _ _ _ => rfl

end ExtremeS3
