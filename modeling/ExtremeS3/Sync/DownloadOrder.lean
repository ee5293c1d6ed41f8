import ExtremeS3.Lib.FileTree
import ExtremeS3.Sync.LocalTree
import ExtremeS3.Sync.MirrorDownload
import ExtremeS3.Sync.Names

/-!
# The order of the tasks of a download

The agenda runs the tasks that `process_downloads` schedules in any order. Each of them changes what
is at its target or below it, and it fails where the way to its target does not lead through
directories; so a downloader that replaces a directory leaves nothing of what other tasks did below.
Two tasks whose targets differ commute (`FileTree.update_comm`), and all targets differ
(`Planned.task_unique`), as long as the names are those of entries: a name `.` or `..`, or an empty
one, leads to the target of another task.
-/

namespace ExtremeS3

/-- A name that an entry of a directory can have. -/
structure PlainName (n : Str) : Prop extends NameOk n where
  not_dot : n ≠ ".".toList
  not_dotdot : n ≠ "..".toList

/-- The place that a name leads to from a directory. -/
def enterName (place : List Str) (n : Str) : List Str :=
  if n = ".".toList then place else if n = "..".toList then place.dropLast else place ++ [n]

/-- What executing a task does to the files on disk; where it fails, nothing more. `fetch` says what
a downloader writes, from the object and the file that is there, unless the object is not found or
the file is up to date. -/
def Task.exec {C : Type} (fetch : S3Path → Option C → Option C) (fs : FileTree Str C) :
    Task → FileTree Str C
  | .fileDownloader path remote deleteDir =>
    fs.update enterName (components path) deleteDir (fetch remote)
  | .localFileDeleter file => fs.update enterName (components file) true fun _ => none
  | .fileUploader .. | .remoteFileDeleter _ => fs

/-- No name in the path is empty, but the last one may be, and none is `.` or `..`. -/
structure PlainRest (rest : Str) : Prop where
  ne_nil : [] ∉ (rest.splitOn '/').dropLast
  not_dot : ".".toList ∉ rest.splitOn '/'
  not_dotdot : "..".toList ∉ rest.splitOn '/'

/-- The keys that are listed have such names below the root. -/
structure Remote.PlainNames (r : Remote) : Prop where
  ne_nil : [] ∉ r.bucket.keys
  rest : ∀ rest, r.rootPrefix ++ rest ∈ r.bucket.keys →
    r.path.path.drop 1 <+: r.rootPrefix ++ rest → PlainRest rest

/-- In whatever order the tasks run, they leave the same files and directories. -/
def OrderFree {C : Type} (fetch : S3Path → Option C → Option C) (tasks : List Task) : Prop :=
  ∀ (fs : FileTree Str C) (ts ts' : List Task), ts.Perm tasks → ts'.Perm tasks →
    ts.foldl (Task.exec fetch) fs = ts'.foldl (Task.exec fetch) fs

/-! ## Names of a listing -/

section

variable {bucket : Bucket} {faults : Faults bucket} {pre f : Str} {path : S3Path}

/-- The keys below the prefix that go on by the part of a name have plain names there. -/
def Bucket.PlainBelow (bucket : Bucket) (pre f : Str) : Prop :=
  ∀ rest, pre ++ rest ∈ bucket.keys → f <+: rest → PlainRest rest

/-- The first name of a plain path is plain, and so is the rest. -/
theorem plainRest_cons {n s : Str} (hn : '/' ∉ n) (h : PlainRest (n ++ '/' :: s)) :
    PlainName n ∧ PlainRest s := by
  have hsplit : (n ++ '/' :: s).splitOn '/' = n :: s.splitOn '/' := by
    rw [List.splitOn_append_cons_self, List.splitOn_eq_singleton hn]
    rfl
  obtain ⟨hnil, hdot, hdotdot⟩ := h
  rw [hsplit] at hnil hdot hdotdot
  rw [List.dropLast_cons_of_ne_nil (List.splitOn_ne_nil '/' s)] at hnil
  simp only [List.mem_cons, not_or] at hnil hdot hdotdot
  exact ⟨⟨⟨Ne.symm hnil.1, hn⟩, Ne.symm hdot.1, Ne.symm hdotdot.1⟩, hnil.2, hdot.2, hdotdot.2⟩

/-- Below a name that keys go on below. -/
theorem Bucket.PlainBelow.sub (h : bucket.PlainBelow pre f) {n : Str} (hn : '/' ∉ n) (hle : f <+: n) :
    bucket.PlainBelow (pre ++ n ++ "/".toList) [] := by
  intro rest hkey _
  refine (plainRest_cons hn (h (n ++ '/' :: rest) ?_ (hle.trans (List.prefix_append _ _)))).2
  simpa using hkey

/-- The name of an object in a directory is plain, where the rest of its key is. -/
theorem plainName_of_key {path m : Str} (hnil : [] ∉ bucket.keys) (hpath : IsDirPath pre path)
    (hm : '/' ∉ m) (hkey : pre ++ m ∈ bucket.keys) (hl : (pre ++ m).getLast? ≠ some '/')
    (h : PlainRest m) : PlainName m := by
  obtain ⟨-, hdot, hdotdot⟩ := h
  rw [List.splitOn_eq_singleton hm, List.mem_singleton] at hdot hdotdot
  refine ⟨⟨?_, hm⟩, Ne.symm hdot, Ne.symm hdotdot⟩
  rintro rfl
  rw [List.append_nil] at hkey hl
  rcases hpath.eq_nil_or with rfl | ⟨s, rfl⟩
  · exact hnil hkey
  · exact hl (by simp)

/-- The names in a directory are plain, and its subdirectories are those of plain names. -/
theorem plain_readItems {sub : S3Path → S3Dir} (hnil : [] ∉ bucket.keys) (hf : '/' ∉ f)
    (hpath : IsDirPath pre path.path) (hplain : bucket.PlainBelow pre f) {items : List Item}
    (hitems : items ⊆ bucket.list (pre ++ f))
    (hsub : ∀ pre path, IsDirPath pre path.path → bucket.PlainBelow pre [] →
      (sub path).Everywhere (Dir.Named PlainName)) :
    (readItems path sub items).Everywhere (Dir.Named PlainName) := by
  have hdirs : ∀ n e, findKey n (readItems path sub items).subdirs = some e →
      PlainName n ∧ e.Everywhere (Dir.Named PlainName) := by
    intro n e he
    obtain ⟨rfl, name, hmem, rfl⟩ := findKey_subdirs_readItems.1 he
    obtain ⟨m, s, hkey, hm, rfl⟩ := bucket.mem_commonPrefix.1 (hitems hmem)
    have hfm : '/' ∉ f ++ m := fun h => (List.mem_append.1 h).elim hf hm
    have hdrop : (pre ++ f ++ m ++ "/".toList).dropLast = pre ++ (f ++ m) := by
      rw [← List.append_assoc]
      exact List.dropLast_concat
    have hrest := hplain (f ++ m ++ '/' :: s) (by simpa using hkey) (by simp)
    obtain ⟨hname, -⟩ := plainRest_cons hfm hrest
    have hleaf : extractLeaf (pre ++ (f ++ m)) = f ++ m := by
      rw [extractLeaf_append hpath hfm, if_neg hname.ne_nil]
    rw [hdrop, hleaf]
    refine ⟨hname, hsub _ _ ?_ (hplain.sub hfm (List.prefix_append f m))⟩
    rw [derive, (hpath.sub _).1]
    exact (hpath.sub _).2
  intro p d hd
  cases p with
  | nil =>
    cases hd
    rintro n (hn | hn)
    · obtain ⟨g, hg⟩ := Option.isSome_iff_exists.1 hn
      obtain ⟨-, name, hmem, hl, rfl⟩ := findKey_files_readItems.1 hg
      obtain ⟨hkey, rest, rfl, hrest⟩ := bucket.mem_content.1 (hitems hmem)
      rw [List.append_assoc] at hkey hl ⊢
      have hm : '/' ∉ f ++ rest := fun h => (List.mem_append.1 h).elim hf hrest
      rw [extractLeaf_file hpath hm hl]
      exact plainName_of_key hnil hpath hm hkey hl (hplain _ hkey (List.prefix_append f rest))
    · obtain ⟨e, he⟩ := Option.isSome_iff_exists.1 hn
      exact (hdirs n e he).1
  | cons n p =>
    obtain ⟨e, he, hd⟩ := Option.bind_eq_some_iff.1 hd
    exact (hdirs n e he).2 p d hd

/-- A directory that is not listed has plain names. -/
theorem plain_unlisted (path : S3Path) : (unlisted path).Everywhere (Dir.Named PlainName) :=
  Dir.everywhere_of_subdirs_nil rfl fun n hn => by rcases hn with hn | hn <;> cases hn

/-- A listing of plain keys has plain names. -/
theorem plain_listSubdir (hnil : [] ∉ bucket.keys) {fuel : Nat} (hpath : IsDirPath pre path.path)
    (hplain : bucket.PlainBelow pre []) :
    (listSubdir bucket faults fuel path).Everywhere (Dir.Named PlainName) := by
  induction fuel generalizing pre path with
  | zero => exact plain_unlisted path
  | succ fuel ih =>
    have hdrop : path.path.drop 1 = pre := by rw [hpath.eq_cons]; rfl
    have hpre : bucket.list pre = bucket.list (pre ++ []) := by rw [List.append_nil]
    rw [listSubdir, hdrop]
    cases hpart : faults.part pre with
    | none =>
      dsimp only
      rw [hpre]
      exact plain_readItems hnil List.not_mem_nil hpath hplain (List.Subset.refl _)
        fun pre path hpath hplain => ih hpath hplain
    | some items =>
      have hitems := faults.subset hpart
      rw [hpre] at hitems
      exact plain_readItems hnil List.not_mem_nil hpath hplain hitems fun _ path _ _ =>
        plain_unlisted path

/-- The names in the listing of keys with plain names are plain. -/
theorem Remote.PlainNames.listing {r : Remote} (h : r.PlainNames) :
    r.listing.Everywhere (Dir.Named PlainName) := by
  obtain ⟨f, hf, hdrop⟩ := r.drop_path
  unfold Remote.listing
  rw [hdrop]
  refine plain_readItems h.ne_nil hf r.isDirPath ?_ (List.Subset.refl _) fun pre path hpath hplain =>
    plain_listSubdir h.ne_nil hpath hplain
  intro rest hkey hle
  refine h.rest rest hkey ?_
  rw [hdrop]
  exact (List.prefix_append_right_inj _).2 hle

/-- The names on the paths of merged listings are plain. -/
theorem plain_mergeRemotes {rs : List Remote} {tree : S3Dir} (hrs : ∀ r ∈ rs, r.PlainNames)
    (hm : mergeRemotes none (rs.map Remote.listing) = .ok (some tree)) {p : List Str}
    (hp : (tree.fileAt p).isSome ∨ (tree.dirAt p).isSome) : ∀ n ∈ p, PlainName n := by
  have hsorted : ∀ d ∈ rs.map Remote.listing, d.Everywhere Dir.Sorted := by
    intro d hd
    obtain ⟨r, -, rfl⟩ := List.mem_map.1 hd
    exact r.sorted_listing
  obtain ⟨-, hpaths⟩ := mergeRemotes_ok (fun d hd => by cases hd) hsorted hm
  obtain ⟨hfile, hdir⟩ := hpaths p
  rcases hp with hp | hp
  · obtain ⟨d, hd, hp⟩ := (hfile.1 ⟨tree, rfl, hp⟩).resolve_left fun ⟨d, hd, _⟩ => by cases hd
    obtain ⟨r, hr, rfl⟩ := List.mem_map.1 hd
    obtain ⟨g, hg⟩ := Option.isSome_iff_exists.1 hp
    exact (hrs r hr).listing.forall_name_fileAt hg
  · obtain ⟨d, hd, hp⟩ := (hdir.1 ⟨tree, rfl, hp⟩).resolve_left fun ⟨d, hd, _⟩ => by cases hd
    obtain ⟨r, hr, rfl⟩ := List.mem_map.1 hd
    exact (hrs r hr).listing.forall_name_dirAt hp

end

/-! ## Tasks of different targets -/

section

variable {C : Type} {locals : LocalDir} {remotes : S3Dir} {root : Str} {p : List Str} {t t' : Task}

/-- The task of a target is told by the remote file there, if there is one. -/
theorem Planned.cases (h : Planned locals remotes root p t) :
    (∃ f, remotes.fileAt p = some f ∧
      t = .fileDownloader (joinAll root p) f.absoluteName (locals.dirAt p).isSome) ∨
    remotes.fileAt p = none ∧ t = .localFileDeleter (joinAll root p) := by
  cases h with
  | @download p f hf => exact .inl ⟨f, hf, rfl⟩
  | @delete p n l r _ hrp _ hnr =>
    refine .inr ⟨?_, rfl⟩
    rw [Dir.fileAt_concat, hrp, Option.bind_some]
    cases hf : findKey n r.files with
    | none => rfl
    | some f => exact absurd (Dir.mem_names.2 (.inl (by rw [hf]; rfl))) hnr

/-- A target has one task. -/
theorem Planned.task_unique (h : Planned locals remotes root p t)
    (h' : Planned locals remotes root p t') : t = t' := by
  rcases h.cases with ⟨f, hf, rfl⟩ | ⟨hf, rfl⟩
  · rcases h'.cases with ⟨f', hf', rfl⟩ | ⟨hf', -⟩
    · rw [hf] at hf'
      cases hf'
      rfl
    · rw [hf] at hf'
      cases hf'
  · rcases h'.cases with ⟨f', hf', -⟩ | ⟨-, rfl⟩
    · rw [hf] at hf'
      cases hf'
    · rfl

/-- Plain names lead down. -/
theorem leadDown_of_plain (h : ∀ n ∈ p, PlainName n) : FileTree.LeadDown enterName p := by
  intro n hn place
  obtain ⟨-, hdot, hdotdot⟩ := h n hn
  unfold enterName
  rw [if_neg hdot, if_neg hdotdot]

/-- A task updates what is at its target. -/
theorem Planned.exec_eq (fetch : S3Path → Option C → Option C)
    (h : Planned locals remotes root p t) (hp : ∀ n ∈ p, PlainName n) :
    ∃ clear write, ∀ fs : FileTree Str C,
      t.exec fetch fs = fs.update enterName (components root ++ p) clear write := by
  have hpath := components_joinAll root fun n hn => (hp n hn).toNameOk
  cases h with
  | @download p f _ =>
    refine ⟨(locals.dirAt p).isSome, fetch f.absoluteName, fun fs => ?_⟩
    rw [Task.exec, hpath]
  | delete _ _ _ _ =>
    refine ⟨true, fun _ => none, fun fs => ?_⟩
    rw [Task.exec, hpath]

/-- The names on the path of a target are plain. -/
theorem Planned.plain (hl : locals.Everywhere (Dir.Named PlainName))
    (hr : ∀ p, (remotes.fileAt p).isSome ∨ (remotes.dirAt p).isSome → ∀ n ∈ p, PlainName n)
    (h : Planned locals remotes root p t) : ∀ n ∈ p, PlainName n := by
  cases h with
  | @download p f hf => exact hr p (.inl (by rw [hf]; rfl))
  | @delete p n l r hlp hrp hn hnr =>
    intro m hm
    rcases List.mem_append.1 hm with hm | hm
    · exact hr p (.inr (by rw [hrp]; rfl)) m hm
    · rw [List.mem_singleton.1 hm]
      exact hl p l hlp n (Dir.mem_names.1 hn)

end

/-- The root is an absolute path. -/
theorem root_absolute : "/".toList.head? = some '/' := rfl

/-- The whole of a bucket with the keys. -/
def remoteOf (keys : List Str) : Remote where
  path := ⟨[], "b".toList, "/".toList⟩
  bucket := .ofKeys keys
  faults := noFaults _
  absolute := root_absolute

/-- The local tree of a directory with the entries. -/
def localsOf (root : Str) (entries : List (Str × Entry)) : LocalDir :=
  checkEntries "/".toList (emptyDir root) root entries

/-- The tasks of a download with `delete_missing`. -/
def tasksOf (keys : List Str) (root : Str) (entries : List (Str × Entry)) : List Task :=
  scheduled (processDownloads mirroring (some (localsOf root entries)) root (remoteOf keys).listing)

/-- A file tree with these directories and files. -/
def onDisk (dirs files : List (List Str)) : FileTree Str Unit := fun q =>
  if q ∈ dirs then some .dir else if q ∈ files then some (.file ()) else none

/-- Two tasks that make a difference when they are swapped are not free of order. -/
theorem not_orderFree_of_ne {C : Type} {fetch : S3Path → Option C → Option C} {tasks : List Task}
    (t t' : Task) (h : tasks = [t, t']) (fs : FileTree Str C) (x : List Str)
    (hne : t'.exec fetch (t.exec fetch fs) x ≠ t.exec fetch (t'.exec fetch fs) x) :
    ¬ OrderFree fetch tasks := by
  subst h
  intro hfree
  exact hne (congrFun (hfree fs [t, t'] [t', t] (List.Perm.refl _) (List.Perm.swap _ _ _)) x)

end ExtremeS3
