import ExtremeS3.Sync.MirrorUpload
import ExtremeS3.Sync.Names
import ExtremeS3.Sync.Pages

/-!
# The remote tree of a plain bucket

In a bucket whose keys a file system could hold, the tree that is read for a path has a file at a
relative path just if the bucket has the object there (`fileAt_readItems`), and a directory just if
it has one below (`dirAt_readItems`). So the tree is a remote tree, without shadowed names if no key
is also a directory, and its keys are those asked for (`isRemote_tree`, `unshadowed_tree`,
`mem_keys_tree`). A relative path and the key of an object are turned into each other by
`deriveAll_eq_keyAt` and `exists_keyAt`.
-/

namespace ExtremeS3

/-- The key of the object at a relative path below a directory. -/
def keyAt (path : S3Path) (p : List Str) : Str := (deriveAll path p).path.drop 1

/-- No key that is asked for is also that of a directory. -/
def Bucket.NoShadows (bucket : Bucket) (path : S3Path) : Prop :=
  ∀ key, bucket.Asked path key → ∀ rest, key ++ '/' :: rest ∉ bucket.keys

section
variable {bucket : Bucket} {pre f : Str} {path : S3Path}

/-! ## Keys along a path -/

/-- The key of one name is the prefix and the name. -/
theorem keyAt_singleton (hpath : IsDirPath pre path.path) {n : Str} (hn : NameOk n) :
    keyAt path [n] = pre ++ n := by
  show (joinPath path.path n).drop 1 = _
  rw [hpath.file hn.slash]
  rfl

/-- Below a name the path goes on from the directory of that name. -/
theorem deriveAll_subdir (hpath : IsDirPath pre path.path) {n m : Str} (hn : NameOk n)
    (hm : NameOk m) (p : List Str) :
    deriveAll path (n :: m :: p) = deriveAll (derive path (n ++ "/".toList)) (m :: p) := by
  have hnm : derive (derive path n) m = derive (derive path (n ++ "/".toList)) m := by
    have hlast : ('/' :: (pre ++ n)).getLast? ≠ some '/' := by
      rw [← List.cons_append, List.getLast?_append_of_ne_nil _ hn.ne_nil]
      exact fun h => hn.slash (List.mem_of_getLast? h)
    have hsub := (hpath.sub n).1
    unfold derive
    dsimp only
    rw [hsub, hpath.file hn.slash, joinPath_of_slash_free hm.ne_nil hm.slash,
      joinPath_of_slash_free hm.ne_nil hm.slash, if_neg hlast,
      if_pos (by simp [List.getLast?_append]), hpath.eq_cons]
    simp
  rw [deriveAll_cons, deriveAll_cons, deriveAll_cons, hnm]

/-- The key of a path is that of what is below its first name, in the directory of this name. -/
theorem keyAt_subdir (hpath : IsDirPath pre path.path) {n m : Str} (hn : NameOk n) (hm : NameOk m)
    (p : List Str) : keyAt path (n :: m :: p) = keyAt (derive path (n ++ "/".toList)) (m :: p) :=
  congrArg (·.path.drop 1) (deriveAll_subdir hpath hn hm p)

/-- A subdirectory is at the path of a directory. -/
theorem isDirPath_subdir (hpath : IsDirPath pre path.path) (n : Str) :
    IsDirPath (pre ++ n ++ "/".toList) (derive path (n ++ "/".toList)).path := by
  have h := hpath.sub n
  unfold derive
  dsimp only
  rw [h.1]
  exact h.2

/-- A key below a directory continues its prefix. -/
theorem prefix_keyAt (hpath : IsDirPath pre path.path) (p : List Str) : pre <+: keyAt path p := by
  have h := prefix_joinAll path.path p
  rw [keyAt, deriveAll_path]
  rw [hpath.eq_cons] at h ⊢
  obtain ⟨t, ht⟩ := h
  exact ⟨t, by rw [← ht]; rfl⟩

/-- What a prefix goes on with is a part of the first name. -/
theorem prefix_keyAt_cons (hpath : IsDirPath pre path.path) (hf : '/' ∉ f) {n : Str} (hn : NameOk n)
    {p : List Str} (hp : ∀ m ∈ p, NameOk m) :
    pre ++ f <+: keyAt path (n :: p) ↔ f <+: n := by
  cases p with
  | nil => rw [keyAt_singleton hpath hn, List.prefix_append_right_inj]
  | cons m p =>
    obtain ⟨t, ht⟩ := prefix_keyAt (isDirPath_subdir hpath n) (m :: p)
    have hkey : keyAt path (n :: m :: p) = pre ++ (n ++ '/' :: t) := by
      rw [keyAt_subdir hpath hn (hp m (.head _)), ← ht]
      simp
    rw [hkey, List.prefix_append_right_inj]
    exact ⟨prefix_of_slash_free hf, fun h => h.trans (List.prefix_append _ _)⟩

/-! ## Files and directories -/

variable {sub : S3Path → S3Dir}

/-- The answer to a prefix is a part of the answer to a shorter one. -/
theorem Bucket.list_subset (hf : '/' ∉ f) : bucket.list (pre ++ f) ⊆ bucket.list pre := by
  have hslash : ∀ {s : Str}, '/' ∉ s → '/' ∉ f ++ s := fun hs h => (List.mem_append.1 h).elim hf hs
  intro i hi
  cases i with
  | content name =>
    obtain ⟨hkey, rest, rfl, hrest⟩ := bucket.mem_content.1 hi
    exact bucket.mem_content.2 ⟨hkey, f ++ rest, List.append_assoc .., hslash hrest⟩
  | commonPrefix name =>
    obtain ⟨n, rest, hkey, hn, rfl⟩ := bucket.mem_commonPrefix.1 hi
    exact bucket.mem_commonPrefix.2 ⟨f ++ n, rest, by simpa using hkey, hslash hn, by simp⟩

/-- The subdirectories of a directory are the names below which the bucket has objects. -/
theorem findKey_subdirs_list (hkeys : bucket.PlainKeys) (hpath : IsDirPath pre path.path)
    (hf : '/' ∉ f) {n : Str} {e : S3Dir} :
    findKey n (readItems path sub (bucket.list (pre ++ f))).subdirs = some e ↔
      NameOk n ∧ f <+: n ∧ (∃ rest, pre ++ n ++ '/' :: rest ∈ bucket.keys) ∧
        e = sub (derive path (n ++ "/".toList)) := by
  rw [findKey_subdirs_readItems]
  constructor
  · rintro ⟨rfl, name, hmem, hleaf⟩
    have hnamed := hkeys.named hpath (bucket.list_subset hf hmem)
    obtain ⟨m, rest, hkey, hm, rfl⟩ := bucket.mem_commonPrefix.1 hmem
    rw [List.append_assoc pre f m] at hnamed hkey hleaf
    have hok : NameOk (f ++ m) := hnamed.nameOk
    have hdrop : (pre ++ (f ++ m) ++ "/".toList).dropLast = pre ++ (f ++ m) := List.dropLast_concat
    rw [hdrop, extractLeaf_append hpath hok.slash, if_neg hok.ne_nil] at hleaf
    subst hleaf
    exact ⟨hok, List.prefix_append f m, ⟨rest, hkey⟩, rfl⟩
  · rintro ⟨hn, ⟨m, rfl⟩, ⟨rest, hkey⟩, rfl⟩
    have hm : '/' ∉ m := fun h => hn.slash (List.mem_append_right _ h)
    refine ⟨rfl, pre ++ f ++ m ++ "/".toList,
      bucket.mem_commonPrefix.2 ⟨m, rest, by simpa using hkey, hm, rfl⟩, ?_⟩
    have hdrop : (pre ++ f ++ m ++ "/".toList).dropLast = pre ++ (f ++ m) := by
      rw [List.append_assoc pre f m]
      exact List.dropLast_concat
    rw [hdrop, extractLeaf_append hpath hn.slash, if_neg hn.ne_nil]

/-- A subdirectory is read from the listing of its own prefix. -/
theorem listSubdir_noFaults {fuel : Nat} (hfuel : bucket.depth ≤ fuel + pre.length)
    (hpath : IsDirPath pre path.path) (n : Str) :
    listSubdir bucket (noFaults bucket) fuel (derive path (n ++ "/".toList)) =
        readItems (derive path (n ++ "/".toList)) (listSubdir bucket (noFaults bucket) (fuel - 1))
          (bucket.list (pre ++ n ++ "/".toList ++ [])) ∧
      bucket.depth ≤ fuel - 1 + (pre ++ n ++ "/".toList).length := by
  have hlen : (pre ++ n ++ "/".toList).length = pre.length + n.length + 1 := by
    simp [Nat.add_assoc]
  have hsub := isDirPath_subdir hpath n
  refine ⟨?_, by omega⟩
  rw [listSubdir_eq (by omega) hsub.eq_cons, List.append_nil]
  rfl

/-- The tree has a file just where the bucket has an object that is asked for. -/
theorem fileAt_readItems (hkeys : bucket.PlainKeys) {fuel : Nat}
    (hfuel : bucket.depth ≤ fuel + pre.length) (hpath : IsDirPath pre path.path) (hf : '/' ∉ f)
    {p : List Str} {g : S3File} :
    (readItems path (listSubdir bucket (noFaults bucket) fuel) (bucket.list (pre ++ f))).fileAt p =
        some g ↔
      p ≠ [] ∧ (∀ n ∈ p, NameOk n) ∧ g = ⟨deriveAll path p⟩ ∧ keyAt path p ∈ bucket.keys ∧
        pre ++ f <+: keyAt path p := by
  induction p generalizing pre f path fuel with
  | nil => simp
  | cons n p ih =>
    cases p with
    | nil =>
      rw [Dir.fileAt_singleton, findKey_files_list hpath hf]
      constructor
      · rintro ⟨rfl, hkey, hlast, hslash, hle⟩
        have hn : NameOk n := by
          refine ⟨?_, hslash⟩
          rintro rfl
          rw [List.append_nil] at hkey hlast
          rcases hpath.eq_nil_or with rfl | ⟨s, rfl⟩
          · exact (hkeys _ hkey).1 rfl
          · simp at hlast
        refine ⟨by simp, by simpa using hn, rfl, ?_⟩
        rw [keyAt_singleton hpath hn, List.prefix_append_right_inj]
        exact ⟨hkey, hle⟩
      · rintro ⟨-, hn, rfl, hkey, hle⟩
        have hn : NameOk n := hn n (.head _)
        rw [keyAt_singleton hpath hn] at hkey
        rw [keyAt_singleton hpath hn, List.prefix_append_right_inj] at hle
        refine ⟨rfl, hkey, ?_, hn.slash, hle⟩
        rw [List.getLast?_append_of_ne_nil _ hn.ne_nil]
        exact fun h => hn.slash (List.mem_of_getLast? h)
    | cons m p =>
      obtain ⟨hsub, hfuel'⟩ := listSubdir_noFaults hfuel hpath n
      have ih := ih hfuel' (isDirPath_subdir hpath n) List.not_mem_nil
      rw [← hsub, List.append_nil] at ih
      rw [Dir.fileAt_cons (by simp)]
      constructor
      · intro h
        obtain ⟨e, he, hg⟩ := Option.bind_eq_some_iff.1 h
        obtain ⟨hn, hle, -, rfl⟩ := (findKey_subdirs_list hkeys hpath hf).1 he
        obtain ⟨-, hp, rfl, hkey, -⟩ := ih.1 hg
        have hderive := deriveAll_subdir hpath hn (hp m (.head _)) p
        refine ⟨by simp, List.forall_mem_cons.2 ⟨hn, hp⟩, by rw [hderive], ?_,
          (prefix_keyAt_cons hpath hf hn hp).2 hle⟩
        rw [keyAt_subdir hpath hn (hp m (.head _))]
        exact hkey
      · rintro ⟨-, hok, rfl, hkey, hle⟩
        obtain ⟨hn, hp⟩ := List.forall_mem_cons.1 hok
        have hderive := deriveAll_subdir hpath hn (hp m (.head _)) p
        rw [keyAt_subdir hpath hn (hp m (.head _))] at hkey
        obtain ⟨t, ht⟩ := prefix_keyAt (isDirPath_subdir hpath n) (m :: p)
        refine Option.bind_eq_some_iff.2 ⟨_, (findKey_subdirs_list hkeys hpath hf).2
          ⟨hn, (prefix_keyAt_cons hpath hf hn hp).1 hle, ⟨t, ?_⟩, rfl⟩, ih.2
          ⟨by simp, hp, by rw [hderive], hkey, prefix_keyAt (isDirPath_subdir hpath n) _⟩⟩
        rw [← ht] at hkey
        simpa using hkey

/-- The tree has a directory just where the bucket has objects below that are asked for. -/
theorem dirAt_readItems (hkeys : bucket.PlainKeys) {fuel : Nat}
    (hfuel : bucket.depth ≤ fuel + pre.length) (hpath : IsDirPath pre path.path) (hf : '/' ∉ f)
    {p : List Str} (hp : p ≠ []) :
    ((readItems path (listSubdir bucket (noFaults bucket) fuel)
        (bucket.list (pre ++ f))).dirAt p).isSome ↔
      (∀ n ∈ p, NameOk n) ∧ pre ++ f <+: keyAt path p ∧
        ∃ rest, keyAt path p ++ '/' :: rest ∈ bucket.keys := by
  induction p generalizing pre f path fuel with
  | nil => exact absurd rfl hp
  | cons n p ih =>
    rw [Option.isSome_iff_exists]
    cases p with
    | nil =>
      constructor
      · rintro ⟨e, he⟩
        rw [Dir.dirAt_cons] at he
        obtain ⟨d, hd, -⟩ := Option.bind_eq_some_iff.1 he
        obtain ⟨hn, hle, hrest, -⟩ := (findKey_subdirs_list hkeys hpath hf).1 hd
        rw [keyAt_singleton hpath hn, List.prefix_append_right_inj]
        exact ⟨by simpa using hn, hle, hrest⟩
      · rintro ⟨hn, hle, hrest⟩
        have hn : NameOk n := hn n (.head _)
        rw [keyAt_singleton hpath hn] at hrest
        rw [keyAt_singleton hpath hn, List.prefix_append_right_inj] at hle
        refine ⟨listSubdir bucket (noFaults bucket) fuel (derive path (n ++ "/".toList)), ?_⟩
        rw [Dir.dirAt_cons, (findKey_subdirs_list hkeys hpath hf).2 ⟨hn, hle, hrest, rfl⟩]
        rfl
    | cons m p =>
      obtain ⟨hsub, hfuel'⟩ := listSubdir_noFaults hfuel hpath n
      have ih := ih hfuel' (isDirPath_subdir hpath n) List.not_mem_nil (by simp)
      rw [← hsub, List.append_nil, Option.isSome_iff_exists] at ih
      rw [Dir.dirAt_cons]
      constructor
      · rintro ⟨d, hd⟩
        obtain ⟨e, he, hd⟩ := Option.bind_eq_some_iff.1 hd
        obtain ⟨hn, hle, -, rfl⟩ := (findKey_subdirs_list hkeys hpath hf).1 he
        obtain ⟨hp, -, hrest⟩ := ih.1 ⟨d, hd⟩
        refine ⟨List.forall_mem_cons.2 ⟨hn, hp⟩, (prefix_keyAt_cons hpath hf hn hp).2 hle, ?_⟩
        rw [keyAt_subdir hpath hn (hp m (.head _))]
        exact hrest
      · rintro ⟨hok, hle, hrest⟩
        obtain ⟨hn, hp⟩ := List.forall_mem_cons.1 hok
        rw [keyAt_subdir hpath hn (hp m (.head _))] at hrest
        obtain ⟨d, hd⟩ := ih.2 ⟨hp, prefix_keyAt (isDirPath_subdir hpath n) _, hrest⟩
        obtain ⟨rest, hrest⟩ := hrest
        obtain ⟨t, ht⟩ := prefix_keyAt (isDirPath_subdir hpath n) (m :: p)
        refine ⟨d, Option.bind_eq_some_iff.2 ⟨_, (findKey_subdirs_list hkeys hpath hf).2
          ⟨hn, (prefix_keyAt_cons hpath hf hn hp).1 hle, ⟨t ++ '/' :: rest, ?_⟩, rfl⟩, hd⟩⟩
        rw [← ht] at hrest
        simpa using hrest

/-! ## Every key is that of a path -/

/-- Deriving changes the path only. -/
theorem deriveAll_zone (path : S3Path) (p : List Str) :
    deriveAll path p = { path with path := (deriveAll path p).path } := by
  induction p generalizing path with
  | nil => rfl
  | cons n p ih =>
    rw [deriveAll_cons]
    exact ih (derive path n)

/-- The path that is derived is that of the key. -/
theorem deriveAll_eq_keyAt (hpath : IsDirPath pre path.path) (p : List Str) :
    deriveAll path p = { path with path := '/' :: keyAt path p } := by
  have h := prefix_joinAll path.path p
  rw [deriveAll_zone, keyAt, deriveAll_path]
  rw [hpath.eq_cons] at h ⊢
  obtain ⟨t, ht⟩ := h
  rw [← ht]
  rfl

/-- The key of a file does not end with a separator. -/
theorem getLast?_keyAt (hpath : IsDirPath pre path.path) {p : List Str} (hp : p ≠ [])
    (hok : ∀ n ∈ p, NameOk n) : (keyAt path p).getLast? ≠ some '/' := by
  induction p generalizing pre path with
  | nil => exact absurd rfl hp
  | cons n p ih =>
    have hn := hok n (.head _)
    cases p with
    | nil =>
      rw [keyAt_singleton hpath hn, List.getLast?_append_of_ne_nil _ hn.ne_nil]
      exact fun h => hn.slash (List.mem_of_getLast? h)
    | cons m p =>
      rw [keyAt_subdir hpath hn (hok m (by simp))]
      exact ih (isDirPath_subdir hpath n) (by simp) fun x hx => hok x (.tail _ hx)

/-- A key that continues the prefix of a directory is that of a path below it, unless it names a
directory. -/
theorem exists_keyAt (hpath : IsDirPath pre path.path) {rest : Str}
    (hplain : pre ++ rest ≠ [] ∧ (pre ++ rest).head? ≠ some '/' ∧ ¬ "//".toList <:+: pre ++ rest)
    (hlast : (pre ++ rest).getLast? ≠ some '/') :
    ∃ p, p ≠ [] ∧ (∀ n ∈ p, NameOk n) ∧ keyAt path p = pre ++ rest := by
  induction hlen : rest.length using Nat.strong_induction_on generalizing pre path rest with
  | _ k ih =>
    -- a name that follows the prefix is not empty
    have hname : ∀ {n t : Str}, pre ++ rest = pre ++ n ++ t → (t = [] ∨ t.head? = some '/') →
        n ≠ [] := by
      rintro n t heq ht rfl
      rw [List.append_nil] at heq
      rw [heq] at hplain hlast
      rcases ht with rfl | ht
      · rw [List.append_nil] at hplain hlast
        rcases hpath.eq_nil_or with rfl | ⟨s, rfl⟩
        · exact hplain.1 rfl
        · simp at hlast
      · obtain ⟨t, rfl⟩ : ∃ s, t = '/' :: s := by
          cases t with
          | nil => cases ht
          | cons c t => exact ⟨t, by rw [Option.some.inj ht]⟩
        rcases hpath.eq_nil_or with rfl | ⟨s, rfl⟩
        · exact hplain.2.1 rfl
        · exact hplain.2.2 ⟨s, t, by simp⟩
    rcases splitOn_cases rest with ⟨hno, -⟩ | ⟨n, t, hn, rfl, -⟩
    · have hok : NameOk rest := ⟨hname (t := []) (by simp) (.inl rfl), hno⟩
      exact ⟨[rest], by simp, by simpa using hok, keyAt_singleton hpath hok⟩
    · have hok : NameOk n := ⟨hname (t := '/' :: t) (by simp) (.inr rfl), hn⟩
      have heq : pre ++ n ++ "/".toList ++ t = pre ++ (n ++ '/' :: t) := by simp
      have hlt : t.length < k := by
        simp only [List.length_append, List.length_cons] at hlen
        omega
      obtain ⟨p, hp, hnames, hkey⟩ := @ih t.length hlt _ _ (isDirPath_subdir hpath n) t
        (by rwa [heq]) (by rwa [heq]) rfl
      obtain ⟨m, q, rfl⟩ := List.exists_cons_of_ne_nil hp
      refine ⟨n :: m :: q, by simp, List.forall_mem_cons.2 ⟨hok, hnames⟩, ?_⟩
      rw [keyAt_subdir hpath hok (hnames m (.head _)), hkey, heq]

/-- Two separators in a row are not in a name that is added. -/
theorem slashes_append {a n : Str} (hn : '/' ∉ n) (h : "//".toList <:+: a ++ n) :
    "//".toList <:+: a := by
  obtain ⟨s, t, h⟩ := h
  rcases List.append_eq_append_iff.1 h with ⟨r, ha, -⟩ | ⟨r, ha, hr⟩
  · exact ⟨s, r, ha.symm⟩
  · rcases List.eq_nil_or_concat r with rfl | ⟨r, c, rfl⟩
    · exact ⟨s, [], by rw [List.append_nil] at ha ⊢; exact ha⟩
    · have hlast := congrArg List.getLast? ha
      rw [List.concat_eq_append, ← List.append_assoc, List.getLast?_concat,
        List.getLast?_append] at hlast
      have hc : '/' = c := Option.some.inj hlast
      exact absurd (by rw [hr, ← hc]; simp) hn

/-- Nor in a name with one separator after it. -/
theorem slashes_append_slash {a n : Str} (hn : NameOk n) (h : "//".toList <:+: a ++ n ++ "/".toList) :
    "//".toList <:+: a := by
  obtain ⟨s, t, h⟩ := h
  rcases List.eq_nil_or_concat t with rfl | ⟨t, c, rfl⟩
  · have heq : s ++ "/".toList = a ++ n := by
      rw [List.append_nil, show "//".toList = "/".toList ++ "/".toList from rfl,
        ← List.append_assoc] at h
      exact List.append_cancel_right h
    have hlast := congrArg List.getLast? heq
    rw [List.getLast?_append_of_ne_nil _ hn.ne_nil, List.getLast?_append] at hlast
    exact absurd (List.mem_of_getLast? hlast.symm) hn.slash
  · refine slashes_append hn.slash ⟨s, t, ?_⟩
    rw [List.concat_eq_append, ← List.append_assoc] at h
    exact (List.append_inj' h rfl).1

/-- A path below one without empty names has a key without them. -/
theorem plain_keyAt (hpath : IsDirPath pre path.path) (hplain : ¬ "//".toList <:+: path.path)
    {p : List Str} (hp : p ≠ []) (hok : ∀ n ∈ p, NameOk n) :
    keyAt path p ≠ [] ∧ (keyAt path p).head? ≠ some '/' ∧ ¬ "//".toList <:+: keyAt path p := by
  induction p generalizing pre path with
  | nil => exact absurd rfl hp
  | cons n p ih =>
    have hn := hok n (.head _)
    cases p with
    | nil =>
      rw [keyAt_singleton hpath hn]
      refine ⟨by simp [hn.ne_nil], ?_, fun h => hplain ?_⟩
      · cases pre with
        | nil =>
          rw [List.nil_append]
          exact fun h => hn.slash (List.mem_of_head? h)
        | cons c pre =>
          intro h
          obtain rfl := Option.some.inj h
          exact hplain ⟨[], pre, by rw [hpath.eq_cons]; rfl⟩
      · rw [hpath.eq_cons]
        exact (slashes_append hn.slash h).trans (List.suffix_cons '/' pre).isInfix
    | cons m p =>
      rw [keyAt_subdir hpath hn (hok m (by simp))]
      refine ih (isDirPath_subdir hpath n) (fun h => hplain ?_) (by simp)
        fun x hx => hok x (.tail _ hx)
      have hsub : (derive path (n ++ "/".toList)).path = path.path ++ (n ++ "/".toList) :=
        (hpath.sub n).1
      rw [hsub, ← List.append_assoc] at h
      exact slashes_append_slash hn h

/-- A path in two parts is joined in two parts. -/
theorem joinAll_append (s : Str) (p q : List Str) : joinAll s (p ++ q) = joinAll (joinAll s p) q :=
  List.foldl_append

/-- A path to a name does not end with a separator. -/
theorem getLast?_joinPath {s n : Str} (hn : NameOk n) : (joinPath s n).getLast? ≠ some '/' := by
  have hlast : ∀ s : Str, (s ++ n).getLast? ≠ some '/' := by
    intro s h
    rw [List.getLast?_append_of_ne_nil _ hn.ne_nil] at h
    exact hn.slash (List.mem_of_getLast? h)
  rw [joinPath_of_slash_free hn.ne_nil hn.slash]
  split
  · exact hlast s
  · exact List.append_cons s '/' n ▸ hlast (s ++ ['/'])

/-- A key goes on with a separator after that of another path just if its path is below. -/
theorem keyAt_below (hpath : IsDirPath pre path.path) {p q : List Str} (hp : p ≠ [])
    (hok : ∀ n ∈ p, NameOk n) (hq : ∀ n ∈ q, NameOk n) :
    (∃ rest, keyAt path p ++ '/' :: rest = keyAt path q) ↔ ∃ r, r ≠ [] ∧ q = p ++ r := by
  have hjoin : ∀ q, '/' :: keyAt path q = joinAll path.path q := by
    intro q
    rw [← deriveAll_path, deriveAll_eq_keyAt hpath]
  constructor
  · rintro ⟨rest, hrest⟩
    have hcomponents := congrArg (fun key => components ('/' :: key)) hrest
    rw [← List.cons_append, components_append, hjoin, hjoin, components_joinAll _ hok,
      components_joinAll _ hq, List.append_assoc, List.append_cancel_left_eq] at hcomponents
    refine ⟨components rest, fun hnil => ?_, hcomponents.symm⟩
    rw [hnil, List.append_nil] at hcomponents
    simpa [hcomponents] using congrArg List.length hrest
  · rintro ⟨r, hr, rfl⟩
    obtain ⟨n, r, rfl⟩ := List.exists_cons_of_ne_nil hr
    have hn := hq n (by simp)
    have hlast : (joinAll path.path p).getLast? ≠ some '/' := by
      obtain ⟨p, m, rfl⟩ := (List.eq_nil_or_concat' p).resolve_left hp
      rw [joinAll_concat]
      exact getLast?_joinPath (hok m (by simp))
    have hstep : joinAll path.path (p ++ n :: r) = joinAll (joinAll path.path p ++ '/' :: n) r := by
      rw [joinAll_append, joinAll_cons, joinPath_of_slash_free hn.ne_nil hn.slash, if_neg hlast]
    obtain ⟨t, ht⟩ := prefix_joinAll (joinAll path.path p ++ '/' :: n) r
    rw [← hstep, ← hjoin, ← hjoin] at ht
    exact ⟨n ++ t, by simpa using ht⟩

/-! ## The tree that is read for a path -/

variable {tryToRoot : Bool}

/-- The root of an absolute path is the path of a directory. -/
theorem isDirPath_root (h : path.path.head? = some '/') :
    IsDirPath ((toRoot path).path.drop 1) (toRoot path).path := isDirPath_toRoot h

/-- The tree has a file just where the bucket has an object that is asked for. -/
theorem fileAt_tree (hkeys : bucket.PlainKeys) (h : path.path.head? = some '/')
    (hroot : tryToRoot ∨ path.path.rtakeWhile (· ≠ '/') = []) {p : List Str} {g : S3File} :
    (bucket.tree path tryToRoot).fileAt p = some g ↔
      p ≠ [] ∧ (∀ n ∈ p, NameOk n) ∧ g = ⟨deriveAll (toRoot path) p⟩ ∧
        bucket.Asked path (keyAt (toRoot path) p) := by
  rw [tree_eq h hroot, fileAt_readItems hkeys (by omega) (isDirPath_root h) (path_eq_toRoot h).2,
    ← drop_path h]
  constructor
  · rintro ⟨hp, hok, hg, hkey, hle⟩
    exact ⟨hp, hok, hg, hkey, hle, getLast?_keyAt (isDirPath_root h) hp hok⟩
  · rintro ⟨hp, hok, hg, hkey, hle, -⟩
    exact ⟨hp, hok, hg, hkey, hle⟩

/-- The tree has a directory just where the bucket has objects below that are asked for. -/
theorem dirAt_tree (hkeys : bucket.PlainKeys) (h : path.path.head? = some '/')
    (hroot : tryToRoot ∨ path.path.rtakeWhile (· ≠ '/') = []) {p : List Str} (hp : p ≠ []) :
    ((bucket.tree path tryToRoot).dirAt p).isSome ↔
      (∀ n ∈ p, NameOk n) ∧ path.path.drop 1 <+: keyAt (toRoot path) p ∧
        ∃ rest, keyAt (toRoot path) p ++ '/' :: rest ∈ bucket.keys := by
  rw [tree_eq h hroot, dirAt_readItems hkeys (by omega) (isDirPath_root h) (path_eq_toRoot h).2 hp,
    ← drop_path h]

/-- A key that continues the one of the path is that of a path below the root. -/
theorem exists_keyAt_root (h : path.path.head? = some '/') {key : Str}
    (hpre : path.path.drop 1 <+: key)
    (hplain : key ≠ [] ∧ key.head? ≠ some '/' ∧ ¬ "//".toList <:+: key)
    (hlast : key.getLast? ≠ some '/') :
    ∃ p, p ≠ [] ∧ (∀ n ∈ p, NameOk n) ∧ keyAt (toRoot path) p = key := by
  obtain ⟨rest, rfl⟩ := hpre
  rw [drop_path h, List.append_assoc] at hplain hlast ⊢
  exact exists_keyAt (isDirPath_root h) hplain hlast

/-- The maps of the tree are maps. -/
theorem sorted_tree (path : S3Path) : (bucket.tree path tryToRoot).Everywhere Dir.Sorted :=
  sorted_readItems (sorted_listSubdir _) _ _

/-- The tree is a remote tree, read from the directory of the path. -/
theorem isRemote_tree (hkeys : bucket.PlainKeys) (h : path.path.head? = some '/')
    (hroot : tryToRoot ∨ path.path.rtakeWhile (· ≠ '/') = []) :
    (bucket.tree path tryToRoot).IsRemote (toRoot path) := by
  refine ⟨⟨sorted_tree path, fun p d hd n hn => ?_⟩, fun p g hg => ?_⟩
  · rcases hn with hn | hn
    · obtain ⟨g, hg⟩ := Option.isSome_iff_exists.1 hn
      have hfile : (bucket.tree path tryToRoot).fileAt (p ++ [n]) = some g := by
        rw [Dir.fileAt_concat, hd]
        exact hg
      exact ((fileAt_tree hkeys h hroot).1 hfile).2.1 n (by simp)
    · have hdir : ((bucket.tree path tryToRoot).dirAt (p ++ [n])).isSome := by
        rw [Dir.dirAt_concat, hd]
        exact hn
      exact ((dirAt_tree hkeys h hroot (by simp)).1 hdir).1 n (by simp)
  · rw [((fileAt_tree hkeys h hroot).1 hg).2.2.1]

/-- Where no key is also that of a directory, no name of the tree is shadowed. -/
theorem unshadowed_tree (hkeys : bucket.PlainKeys) (hshadow : bucket.NoShadows path)
    (h : path.path.head? = some '/') (hroot : tryToRoot ∨ path.path.rtakeWhile (· ≠ '/') = []) :
    (bucket.tree path tryToRoot).Everywhere Dir.Unshadowed := by
  intro p d hd n g hg
  have hfile : (bucket.tree path tryToRoot).fileAt (p ++ [n]) = some g := by
    rw [Dir.fileAt_concat, hd]
    exact hg
  obtain ⟨-, -, -, hasked⟩ := (fileAt_tree hkeys h hroot).1 hfile
  rw [← Option.not_isSome_iff_eq_none]
  intro hn
  have hdir : ((bucket.tree path tryToRoot).dirAt (p ++ [n])).isSome := by
    rw [Dir.dirAt_concat, hd]
    exact hn
  obtain ⟨-, -, rest, hrest⟩ := (dirAt_tree hkeys h hroot (by simp)).1 hdir
  exact hshadow _ hasked rest hrest

/-- The keys of the tree are those asked for. -/
theorem mem_keys_tree (hkeys : bucket.PlainKeys) (h : path.path.head? = some '/')
    (hroot : tryToRoot ∨ path.path.rtakeWhile (· ≠ '/') = []) {k : S3Path} :
    k ∈ (bucket.tree path tryToRoot).keys ↔
      ∃ key, bucket.Asked path key ∧ k = { path with path := '/' :: key } := by
  have hzone : ∀ key, { toRoot path with path := '/' :: key } = { path with path := '/' :: key } := by
    intro key
    unfold toRoot
    split <;> rfl
  constructor
  · rintro ⟨p, g, hg, rfl⟩
    obtain ⟨-, -, rfl, hasked⟩ := (fileAt_tree hkeys h hroot).1 hg
    exact ⟨_, hasked, by rw [← hzone]; exact deriveAll_eq_keyAt (isDirPath_root h) p⟩
  · rintro ⟨key, hasked, rfl⟩
    obtain ⟨p, hp, hok, hkey⟩ := exists_keyAt_root h hasked.2.1 (hkeys key hasked.1) hasked.2.2
    refine ⟨p, _, (fileAt_tree hkeys h hroot).2 ⟨hp, hok, rfl, by rwa [hkey]⟩, ?_⟩
    rw [← hzone, ← hkey]
    exact deriveAll_eq_keyAt (isDirPath_root h) p

end

end ExtremeS3
