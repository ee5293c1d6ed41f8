import ExtremeS3.Connection.ParsePath
import ExtremeS3.Sync.Listing

/-!
# Which objects the names of a listing address

`list_files_shallow` does not keep the keys that it reads. It takes the leaf of a key and derives
the path of the file from the path of the directory, and the listing of a subdirectory goes on from
the path that was derived for it. From a directory whose path ends with a separator the path of a
file is that of its object (`exact_listSubdir`), and the objects that are found are those directly
in a directory that the walk visits (`finds_listSubdir`). A root whose path does not end with a
separator derives other paths (`ne_of_findKey_root`), and so does a directory for an empty name
(`subdirPrefix`). `addresses_iff_reaches` says when the names address all objects.
-/

namespace ExtremeS3

/-- No listing fails. -/
def noFaults (bucket : Bucket) : Faults bucket where
  part _ := none
  subset h := by cases h

/-- The tree that `create_schedule` reads for a remote path. -/
def Bucket.tree (bucket : Bucket) (path : S3Path) (tryToRoot : Bool) : S3Dir :=
  readItems (if tryToRoot then toRoot path else path)
    (listSubdir bucket (noFaults bucket) (bucket.depth + 1)) (bucket.list (path.path.drop 1))

/-- The object is one of those that a listing of the path asks for, and not a directory. -/
def Bucket.Asked (bucket : Bucket) (path : S3Path) (key : Str) : Prop :=
  key ∈ bucket.keys ∧ path.path.drop 1 <+: key ∧ key.getLast? ≠ some '/'

/-- Every object asked for is in the tree under its own path, and every file of the tree has the
path of the object that it was read from. -/
structure Bucket.Addresses (bucket : Bucket) (path : S3Path) (tree : S3Dir) : Prop where
  found : ∀ key, bucket.Asked path key →
    ∃ p f, tree.fileAt p = some f ∧ f.absoluteName.path = '/' :: key
  exact : ∀ p d n f, tree.dirAt p = some d → findKey n d.files = some f →
    ∃ name, .content name ∈ bucket.list ((if p = [] then path else d.info).path.drop 1) ∧
      extractLeaf name = n ∧ f.absoluteName.path = '/' :: name

/-- The prefix that the listing of a directory goes on to for a name: the leaf of an empty name is
the prefix of the directory itself. -/
def subdirPrefix (pre n : Str) : Str := pre ++ (if n = [] then pre else n) ++ "/".toList

/-- The prefixes that are listed from a prefix on: first below the names that continue `f`, and then
below all. -/
inductive Bucket.Visits (bucket : Bucket) : Str → Str → Str → Prop
  | here {pre f : Str} : Visits bucket pre f pre
  | down {pre f n s dir : Str} : '/' ∉ n → f <+: n → pre ++ n ++ '/' :: s ∈ bucket.keys →
      Visits bucket (subdirPrefix pre n) [] dir → Visits bucket pre f dir

/-- The object is directly in a directory that is listed under its prefix. A root whose path does
not end with a separator is not, and a directory below it has the last name of the path once
more. -/
def Bucket.Reaches (bucket : Bucket) (path : S3Path) (tryToRoot : Bool) (key : Str) : Prop :=
  let root := (toRoot path).path.drop 1
  let f := path.path.rtakeWhile (· ≠ '/')
  ∃ dir m, key = dir ++ m ∧ '/' ∉ m ∧
    if tryToRoot ∨ f = [] then bucket.Visits root f dir
    else ∃ n s, '/' ∉ n ∧ f <+: n ∧ root ++ n ++ '/' :: s ∈ bucket.keys ∧
      bucket.Visits (path.path.drop 1 ++ '/' :: n ++ "/".toList) [] dir

/-! ## Where the entries of a directory come from -/

section

variable {path : S3Path} {sub : S3Path → S3Dir}

/-- The last item is added to what the others give. -/
theorem readItems_concat (items : List Item) (i : Item) :
    readItems path sub (items ++ [i]) = addItem sub (readItems path sub items) i := by
  rw [readItems, List.foldl_append]
  rfl

/-- Reading items leaves the path of the directory as it is. -/
theorem info_readItems (items : List Item) : (readItems path sub items).info = path := by
  induction items using List.reverseRecOn with
  | nil => rfl
  | append_singleton items i ih => rw [readItems_concat, info_addItem, ih]

/-- A directory that was read is sorted at its root. -/
theorem sorted_root_readItems (items : List Item) : (readItems path sub items).Sorted := by
  induction items using List.reverseRecOn with
  | nil => exact Dir.sorted_empty path
  | append_singleton items i ih =>
    rw [readItems_concat]
    exact sorted_addItem ih i

/-- The name of the file that an item adds. -/
def Item.fileName : Item → Option Str
  | .content name => if name.getLast? = some '/' then none else some (extractLeaf name)
  | .commonPrefix _ => none

/-- The name of the subdirectory that an item adds. -/
def Item.subdirName : Item → Option Str
  | .content _ => none
  | .commonPrefix name => some (extractLeaf name.dropLast)

/-- The last item adds its file, if it is one. -/
theorem files_readItems_concat (items : List Item) (i : Item) :
    (readItems path sub (items ++ [i])).files =
      i.fileName.elim (readItems path sub items).files fun n =>
        upsert n (fun _ => ⟨derive path n⟩) (readItems path sub items).files := by
  rw [readItems_concat]
  cases i with
  | content name =>
    rw [addItem, Item.fileName, info_readItems]
    split
    · rfl
    · rfl
  | commonPrefix name => rfl

/-- The last item adds its subdirectory, if it is one. -/
theorem subdirs_readItems_concat (items : List Item) (i : Item) :
    (readItems path sub (items ++ [i])).subdirs =
      i.subdirName.elim (readItems path sub items).subdirs fun n =>
        upsert n (fun _ => sub (derive path (n ++ "/".toList)))
          (readItems path sub items).subdirs := by
  rw [readItems_concat]
  cases i with
  | content name =>
    rw [addItem]
    split
    · rfl
    · rfl
  | commonPrefix name =>
    rw [addItem, Item.subdirName, info_readItems]
    rfl

/-- The files of a directory are those of the objects in the answer, by their leaves. -/
theorem findKey_files_readItems {items : List Item} {n : Str} {f : S3File} :
    findKey n (readItems path sub items).files = some f ↔ f = ⟨derive path n⟩ ∧
      ∃ name, .content name ∈ items ∧ name.getLast? ≠ some '/' ∧ extractLeaf name = n := by
  rw [findKey_written rfl (fun items => (sorted_root_readItems items).1) files_readItems_concat]
  refine and_congr_right fun _ => ⟨?_, ?_⟩
  · rintro ⟨i, hmem, hname⟩
    cases i with
    | content name =>
      rw [Item.fileName, Option.ite_none_left_eq_some, Option.some_inj] at hname
      exact ⟨name, hmem, hname⟩
    | commonPrefix name => cases hname
  · rintro ⟨name, hmem, hl, hn⟩
    refine ⟨_, hmem, ?_⟩
    rw [Item.fileName, if_neg hl, hn]

/-- The subdirectories of a directory are those of the common prefixes in the answer. -/
theorem findKey_subdirs_readItems {items : List Item} {n : Str} {e : S3Dir} :
    findKey n (readItems path sub items).subdirs = some e ↔
      e = sub (derive path (n ++ "/".toList)) ∧
        ∃ name, .commonPrefix name ∈ items ∧ extractLeaf name.dropLast = n := by
  rw [findKey_written rfl (fun items => (sorted_root_readItems items).2) subdirs_readItems_concat]
  refine and_congr_right fun _ => ⟨?_, ?_⟩
  · rintro ⟨i, hmem, hname⟩
    cases i with
    | content name => cases hname
    | commonPrefix name => exact ⟨name, hmem, Option.some.inj hname⟩
  · rintro ⟨name, hmem, hn⟩
    exact ⟨_, hmem, congrArg some hn⟩

end

/-! ## The directories of a tree -/

section

variable {bucket : Bucket} {pre f : Str} {path : S3Path}

/-- The path of a file is that of its object. -/
theorem IsDirPath.file {path m : Str} (h : IsDirPath pre path) (hm : '/' ∉ m) :
    joinPath path m = '/' :: (pre ++ m) := by
  by_cases hnil : m = []
  · rw [hnil, joinPath, h.eq_cons, List.append_nil]
  · rw [joinPath_of_slash_free hnil hm, if_pos h.slash, h.eq_cons]
    rfl

/-- The leaf of an object is what follows the prefix. -/
theorem extractLeaf_file {path m : Str} (h : IsDirPath pre path) (hm : '/' ∉ m)
    (hl : (pre ++ m).getLast? ≠ some '/') : extractLeaf (pre ++ m) = m := by
  rw [extractLeaf_append h hm]
  split
  · next hnil =>
    subst hnil
    rcases h.eq_nil_or with rfl | ⟨s, rfl⟩
    · rfl
    · exact absurd (by simp) hl
  · rfl

/-- The path of a subdirectory is that of the prefix which its listing goes on to. -/
theorem IsDirPath.subdir {path n : Str} (h : IsDirPath pre path) (hn : '/' ∉ n) :
    IsDirPath (subdirPrefix pre n) (joinPath path (extractLeaf (pre ++ n) ++ "/".toList)) := by
  rw [extractLeaf_append h hn, (h.sub _).1]
  exact (h.sub _).2

variable {sub : S3Path → S3Dir}

/-- The files of a directory are the objects in the answer, under their own paths. -/
theorem findKey_files_list (hpath : IsDirPath pre path.path) (hf : '/' ∉ f) {n : Str} {g : S3File} :
    findKey n (readItems path sub (bucket.list (pre ++ f))).files = some g ↔
      g = ⟨derive path n⟩ ∧ pre ++ n ∈ bucket.keys ∧ (pre ++ n).getLast? ≠ some '/' ∧ '/' ∉ n ∧
        f <+: n := by
  rw [findKey_files_readItems]
  refine and_congr_right fun _ => ⟨?_, ?_⟩
  · rintro ⟨name, hmem, hl, hleaf⟩
    obtain ⟨hkey, rest, rfl, hrest⟩ := bucket.mem_content.1 hmem
    rw [List.append_assoc] at hkey hl hleaf
    have hm : '/' ∉ f ++ rest := by simp [hf, hrest]
    rw [extractLeaf_file hpath hm hl] at hleaf
    subst hleaf
    exact ⟨hkey, hl, hm, List.prefix_append f rest⟩
  · rintro ⟨hkey, hl, hn, rest, rfl⟩
    refine ⟨_, bucket.mem_content.2 ⟨hkey, rest, (List.append_assoc ..).symm, ?_⟩, hl,
      extractLeaf_file hpath hn hl⟩
    exact fun h => hn (List.mem_append_right f h)

/-- The subdirectories of a directory are those of the names that keys go on below. -/
theorem exists_subdir_list (hf : '/' ∉ f) {Q : S3Dir → Prop} :
    (∃ n e, findKey n (readItems path sub (bucket.list (pre ++ f))).subdirs = some e ∧ Q e) ↔
      ∃ n s, '/' ∉ n ∧ f <+: n ∧ pre ++ n ++ '/' :: s ∈ bucket.keys ∧
        Q (sub (derive path (extractLeaf (pre ++ n) ++ "/".toList))) := by
  constructor
  · rintro ⟨n, e, he, hQ⟩
    obtain ⟨rfl, name, hmem, rfl⟩ := findKey_subdirs_readItems.1 he
    obtain ⟨m, rest, hkey, hm, rfl⟩ := bucket.mem_commonPrefix.1 hmem
    rw [show (pre ++ f ++ m ++ "/".toList).dropLast = pre ++ (f ++ m) by
      rw [← List.append_assoc]; exact List.dropLast_concat] at hQ
    exact ⟨f ++ m, rest, by simp [hf, hm], List.prefix_append f m, by simpa using hkey, hQ⟩
  · rintro ⟨n, s, hn, ⟨m, rfl⟩, hkey, hQ⟩
    refine ⟨_, _, findKey_subdirs_readItems.2 ⟨rfl, pre ++ f ++ m ++ "/".toList,
      bucket.mem_commonPrefix.2 ⟨m, s, by simpa using hkey, ?_, rfl⟩, ?_⟩, hQ⟩
    · exact fun h => hn (List.mem_append_right f h)
    · rw [← List.append_assoc pre]
      exact congrArg extractLeaf List.dropLast_concat

/-- A file of the tree has the path of the object. -/
def Finds (tree : S3Dir) (key : Str) : Prop :=
  ∃ p f, tree.fileAt p = some f ∧ f.absoluteName.path = '/' :: key

/-- A key is found in a tree if it is in its root, or in one of its subdirectories. -/
theorem finds_iff {tree : S3Dir} {key : Str} :
    Finds tree key ↔
      (∃ n f, findKey n tree.files = some f ∧ f.absoluteName.path = '/' :: key) ∨
        ∃ n e, findKey n tree.subdirs = some e ∧ Finds e key := Dir.exists_fileAt

/-- The objects that are found from a directory on: those in it, and those in its
subdirectories. -/
theorem finds_readItems (hpath : IsDirPath pre path.path) (hf : '/' ∉ f) {key : Str} :
    Finds (readItems path sub (bucket.list (pre ++ f))) key ↔
      (key ∈ bucket.keys ∧ key.getLast? ≠ some '/' ∧ ∃ m, key = pre ++ m ∧ '/' ∉ m ∧ f <+: m) ∨
        ∃ n s, '/' ∉ n ∧ f <+: n ∧ pre ++ n ++ '/' :: s ∈ bucket.keys ∧
          Finds (sub (derive path (extractLeaf (pre ++ n) ++ "/".toList))) key := by
  rw [finds_iff, exists_subdir_list hf]
  refine or_congr_left ⟨?_, ?_⟩
  · rintro ⟨n, g, hg, hkey⟩
    obtain ⟨rfl, hmem, hl, hn, hle⟩ := (findKey_files_list hpath hf).1 hg
    have heq : '/' :: (pre ++ n) = '/' :: key := (hpath.file hn).symm.trans hkey
    obtain ⟨-, rfl⟩ := List.cons_eq_cons.1 heq
    exact ⟨hmem, hl, n, rfl, hn, hle⟩
  · rintro ⟨hmem, hl, m, rfl, hm, hle⟩
    exact ⟨m, _, (findKey_files_list hpath hf).2 ⟨rfl, hmem, hl, hm, hle⟩, hpath.file hm⟩

/-- A walk visits its prefix, and what walks below the names with the given beginning visit. -/
theorem visits_iff {dir : Str} :
    bucket.Visits pre f dir ↔ dir = pre ∨
      ∃ n s, '/' ∉ n ∧ f <+: n ∧ pre ++ n ++ '/' :: s ∈ bucket.keys ∧
        bucket.Visits (subdirPrefix pre n) [] dir := by
  constructor
  · intro h
    cases h with
    | here => exact .inl rfl
    | down hn hle hkey h => exact .inr ⟨_, _, hn, hle, hkey, h⟩
  · rintro (rfl | ⟨n, s, hn, hle, hkey, h⟩)
    · exact .here
    · exact .down hn hle hkey h

/-- The prefix of a subdirectory starts with that of its directory, and with what its name starts
with. -/
theorem prefix_subdirPrefix {n : Str} (h : f <+: n) : pre ++ f <+: subdirPrefix pre n := by
  rw [subdirPrefix, List.append_assoc, List.prefix_append_right_inj]
  split
  · next hn =>
    have hnil : f = [] := List.prefix_nil.1 (hn ▸ h)
    rw [hnil]
    exact List.nil_prefix
  · exact h.trans (List.prefix_append _ _)

/-- A walk visits nothing that does not start with its prefix. -/
theorem Bucket.Visits.le {dir : Str} (h : bucket.Visits pre f dir) : pre <+: dir := by
  induction h with
  | here => exact List.prefix_refl _
  | @down pre f n s dir _ _ _ _ ih =>
    have hle : pre <+: subdirPrefix pre n := by
      rw [subdirPrefix, List.append_assoc]
      exact List.prefix_append _ _
    exact hle.trans ih

/-- The objects that are found from a directory on are those below the prefix, directly in a
directory that is listed under its prefix. -/
theorem finds_iff_visits {fuel : Nat} (hfuel : bucket.depth ≤ fuel + pre.length)
    (hpath : IsDirPath pre path.path) (hf : '/' ∉ f) {key : Str} :
    Finds (readItems path (listSubdir bucket (noFaults bucket) fuel) (bucket.list (pre ++ f))) key ↔
      key ∈ bucket.keys ∧ pre ++ f <+: key ∧ key.getLast? ≠ some '/' ∧
        ∃ dir m, key = dir ++ m ∧ '/' ∉ m ∧ bucket.Visits pre f dir := by
  induction fuel generalizing pre f path with
  | zero =>
    -- no key is longer than the prefix
    have hno : ∀ n s, pre ++ n ++ '/' :: s ∉ bucket.keys := by
      intro n s hkey
      have := bucket.length_le_depth hkey
      rw [List.length_append, List.length_append, List.length_cons] at this
      omega
    rw [finds_readItems hpath hf]
    constructor
    · rintro (⟨hmem, hl, m, rfl, hm, hle⟩ | ⟨n, s, -, -, hkey, -⟩)
      · exact ⟨hmem, (List.prefix_append_right_inj pre).2 hle, hl, pre, m, rfl, hm, .here⟩
      · exact absurd hkey (hno n s)
    · rintro ⟨hmem, hle, hl, dir, m, rfl, hm, hv⟩
      rcases visits_iff.1 hv with rfl | ⟨n, s, -, -, hkey, -⟩
      · exact .inl ⟨hmem, hl, m, rfl, hm, (List.prefix_append_right_inj _).1 hle⟩
      · exact absurd hkey (hno n s)
  | succ fuel ih =>
    rw [finds_readItems hpath hf]
    have hsub : ∀ n, '/' ∉ n →
        (Finds (listSubdir bucket (noFaults bucket) (fuel + 1)
            (derive path (extractLeaf (pre ++ n) ++ "/".toList))) key ↔
          key ∈ bucket.keys ∧ subdirPrefix pre n <+: key ∧ key.getLast? ≠ some '/' ∧
            ∃ dir m, key = dir ++ m ∧ '/' ∉ m ∧ bucket.Visits (subdirPrefix pre n) [] dir) := by
      intro n hn
      have hdir := hpath.subdir hn
      have hlen : (subdirPrefix pre n).length = pre.length + (if n = [] then pre else n).length + 1 := by
        simp [subdirPrefix, Nat.add_assoc]
      obtain ⟨q, hq⟩ : ∃ q, q = derive path (extractLeaf (pre ++ n) ++ "/".toList) := ⟨_, rfl⟩
      replace hdir : IsDirPath (subdirPrefix pre n) q.path := hq ▸ hdir
      have hdepth : bucket.depth ≤ fuel + (subdirPrefix pre n).length := by omega
      have hlt : bucket.depth < fuel + 1 + (subdirPrefix pre n).length := by omega
      have hiff := @ih (subdirPrefix pre n) [] q hdepth hdir List.not_mem_nil
      rw [List.append_nil] at hiff
      rw [← hq, listSubdir_eq hlt hdir.eq_cons]
      exact hiff
    constructor
    · rintro (⟨hmem, hl, m, rfl, hm, hle⟩ | ⟨n, s, hn, hle, hkey, hfind⟩)
      · exact ⟨hmem, (List.prefix_append_right_inj pre).2 hle, hl, pre, m, rfl, hm, .here⟩
      · obtain ⟨hmem, hpre, hl, dir, m, heq, hm, hv⟩ := (hsub n hn).1 hfind
        exact ⟨hmem, (prefix_subdirPrefix hle).trans hpre, hl, dir, m, heq, hm,
          .down hn hle hkey hv⟩
    · rintro ⟨hmem, hle, hl, dir, m, rfl, hm, hv⟩
      rcases visits_iff.1 hv with rfl | ⟨n, s, hn, hle', hkey, hv⟩
      · exact .inl ⟨hmem, hl, m, rfl, hm, (List.prefix_append_right_inj _).1 hle⟩
      · refine .inr ⟨n, s, hn, hle', hkey, (hsub n hn).2 ⟨hmem, ?_, hl, dir, m, rfl, hm, hv⟩⟩
        exact hv.le.trans (List.prefix_append dir m)

/-- The objects that are found from a subdirectory on. -/
theorem finds_listSubdir {fuel : Nat} (hfuel : bucket.depth < fuel + pre.length)
    (hpath : IsDirPath pre path.path) {key : Str} :
    Finds (listSubdir bucket (noFaults bucket) fuel path) key ↔
      key ∈ bucket.keys ∧ pre <+: key ∧ key.getLast? ≠ some '/' ∧
        ∃ dir m, key = dir ++ m ∧ '/' ∉ m ∧ bucket.Visits pre [] dir := by
  have hdepth : bucket.depth ≤ fuel - 1 + pre.length := by omega
  have hiff := @finds_iff_visits bucket pre [] path (fuel - 1) hdepth hpath List.not_mem_nil key
  rw [List.append_nil] at hiff
  rw [← hiff, listSubdir_eq hfuel hpath.eq_cons]
  rfl

/-- Every file of the directory has the path of the object that it was read from. -/
def Bucket.NamesExactly (bucket : Bucket) (d : S3Dir) : Prop :=
  ∀ n f, findKey n d.files = some f →
    ∃ name, .content name ∈ bucket.list (d.info.path.drop 1) ∧ extractLeaf name = n ∧
      f.absoluteName.path = '/' :: name

/-- The files of a directory that is listed under its prefix, or under one that goes on by a part of
a name, have the paths of their objects. -/
theorem exact_files_list (hpath : IsDirPath pre path.path) (hf : '/' ∉ f) {n : Str} {g : S3File}
    (h : findKey n (readItems path sub (bucket.list (pre ++ f))).files = some g) :
    ∃ name, .content name ∈ bucket.list (pre ++ f) ∧ extractLeaf name = n ∧
      g.absoluteName.path = '/' :: name := by
  obtain ⟨rfl, hkey, hl, hn, rest, rfl⟩ := (findKey_files_list hpath hf).1 h
  refine ⟨pre ++ (f ++ rest), bucket.mem_content.2 ⟨hkey, rest, (List.append_assoc ..).symm, ?_⟩,
    extractLeaf_file hpath hn hl, hpath.file hn⟩
  exact fun h => hn (List.mem_append_right f h)

/-- In every directory of a listing the files have the paths of the objects they were read from. -/
theorem exact_listSubdir {fuel : Nat} (hpath : IsDirPath pre path.path) :
    (listSubdir bucket (noFaults bucket) fuel path).Everywhere bucket.NamesExactly := by
  induction fuel generalizing pre path with
  | zero => exact Dir.everywhere_of_subdirs_nil rfl fun n f h => by cases h
  | succ fuel ih =>
    have hlist : listSubdir bucket (noFaults bucket) (fuel + 1) path =
        readItems path (listSubdir bucket (noFaults bucket) fuel) (bucket.list (pre ++ [])) := by
      rw [List.append_nil, listSubdir, hpath.eq_cons]
      rfl
    rw [hlist]
    intro p d hd
    cases p with
    | nil =>
      cases hd
      intro n g hg
      rw [info_readItems, hpath.eq_cons, List.drop_one, List.tail_cons]
      have := exact_files_list hpath List.not_mem_nil hg
      rwa [List.append_nil] at this
    | cons n p =>
      obtain ⟨e, he, hd⟩ := Option.bind_eq_some_iff.1 hd
      obtain ⟨m, s, hm, -, -, hd⟩ := (exists_subdir_list (Q := fun e => e.dirAt p = some d)
        List.not_mem_nil).1 ⟨n, e, he, hd⟩
      exact ih (hpath.subdir hm) p d hd

/-- The files below a directory have the paths of their objects. -/
theorem exact_below {fuel : Nat} (hf : '/' ∉ f)
    (hsub : ∀ n, '/' ∉ n → f <+: n →
      ∃ dir, IsDirPath dir (joinPath path.path (extractLeaf (pre ++ n) ++ "/".toList)))
    {p : List Str} (hp : p ≠ []) {d : S3Dir}
    (hd : (readItems path (listSubdir bucket (noFaults bucket) fuel)
      (bucket.list (pre ++ f))).dirAt p = some d) : bucket.NamesExactly d := by
  cases p with
  | nil => exact absurd rfl hp
  | cons n p =>
    obtain ⟨e, he, hd⟩ := Option.bind_eq_some_iff.1 hd
    obtain ⟨m, s, hm, hle, -, hd⟩ := (exists_subdir_list (Q := fun e => e.dirAt p = some d)
      hf).1 ⟨n, e, he, hd⟩
    obtain ⟨dir, hdir⟩ := hsub m hm hle
    exact exact_listSubdir hdir p d hd

end

/-! ## The root -/

section

variable {bucket : Bucket} {path : S3Path} {tryToRoot : Bool}

/-- The path of the root, and the part of a name that goes on from it. -/
theorem path_eq_toRoot (h : path.path.head? = some '/') :
    path.path = (toRoot path).path ++ path.path.rtakeWhile (· ≠ '/') ∧
      '/' ∉ path.path.rtakeWhile (· ≠ '/') := by
  obtain ⟨f, hf, hp, hl⟩ := exists_path_eq_toRoot h
  obtain ⟨s, hs⟩ := List.getLast?_eq_some_iff.1 hl
  have hlast : path.path.rtakeWhile (· ≠ '/') = f := by
    rw [hp, hs, List.append_assoc]
    exact rtakeWhile_after_slash s hf
  rw [hlast]
  exact ⟨hp, hf⟩

/-- The key of a path is that of its root, and the name behind it. -/
theorem drop_path (h : path.path.head? = some '/') :
    path.path.drop 1 = (toRoot path).path.drop 1 ++ path.path.rtakeWhile (· ≠ '/') := by
  have hroot := (isDirPath_toRoot h).eq_cons
  conv_lhs => rw [(path_eq_toRoot h).1, hroot]
  rfl

/-- An absolute path is a slash and its key. -/
theorem path_eq_cons (h : path.path.head? = some '/') : path.path = '/' :: path.path.drop 1 := by
  cases hp : path.path with
  | nil => rw [hp] at h; cases h
  | cons c s =>
    rw [hp] at h
    cases h
    rfl

/-- Where a root is listed under its prefix, it is the directory of the path. -/
theorem tree_eq (h : path.path.head? = some '/')
    (hroot : tryToRoot ∨ path.path.rtakeWhile (· ≠ '/') = []) :
    bucket.tree path tryToRoot =
      readItems (toRoot path) (listSubdir bucket (noFaults bucket) (bucket.depth + 1))
        (bucket.list ((toRoot path).path.drop 1 ++ path.path.rtakeWhile (· ≠ '/'))) := by
  have hpath : (if tryToRoot then toRoot path else path) = toRoot path := by
    split
    · rfl
    · next hno =>
      have hp := (path_eq_toRoot h).1
      rw [hroot.resolve_left hno, List.append_nil] at hp
      rw [toRoot, if_neg (not_not.2 (hp ▸ (isDirPath_toRoot h).slash))]
  rw [Bucket.tree, hpath, drop_path h]

/-- What is found from such a root on is what is asked for and reached. -/
theorem finds_tree (h : path.path.head? = some '/')
    (hroot : tryToRoot ∨ path.path.rtakeWhile (· ≠ '/') = []) {key : Str} :
    Finds (bucket.tree path tryToRoot) key ↔
      bucket.Asked path key ∧ bucket.Reaches path tryToRoot key := by
  rw [tree_eq h hroot, finds_iff_visits (by omega) (isDirPath_toRoot h) (path_eq_toRoot h).2,
    Bucket.Asked, Bucket.Reaches, drop_path h]
  simp only [if_pos hroot, and_assoc]

/-- The path of a root that ends with a name. -/
theorem getLast?_path (h : path.path.head? = some '/')
    (hf : path.path.rtakeWhile (· ≠ '/') ≠ []) : path.path.getLast? ≠ some '/' := by
  intro hl
  obtain ⟨hp, hslash⟩ := path_eq_toRoot h
  rw [hp, List.getLast?_append] at hl
  cases hlast : (path.path.rtakeWhile (· ≠ '/')).getLast? with
  | none => exact hf (List.getLast?_eq_none_iff.1 hlast)
  | some c =>
    rw [hlast] at hl
    cases hl
    exact hslash (List.mem_of_getLast? hlast)

/-- Below a root that ends with a name, a path repeats what goes on from that name. -/
theorem joinPath_below (h : path.path.head? = some '/')
    (hf : path.path.rtakeWhile (· ≠ '/') ≠ []) {n : Str} (hn : '/' ∉ n)
    (hle : path.path.rtakeWhile (· ≠ '/') <+: n) (t : Str) :
    extractLeaf ((toRoot path).path.drop 1 ++ n) = n ∧
      joinPath path.path (n ++ t) = path.path ++ '/' :: (n ++ t) := by
  have hnil : n ≠ [] := fun hnil => hf (List.prefix_nil.1 (hnil ▸ hle))
  refine ⟨?_, ?_⟩
  · rw [extractLeaf_append (isDirPath_toRoot h) hn, if_neg hnil]
  · cases n with
    | nil => exact absurd rfl hnil
    | cons c n =>
      have hc : c ≠ '/' := fun hc => hn (hc ▸ List.mem_cons_self)
      simp [joinPath, getLast?_path h hf, hc]

/-- A subdirectory below a path that does not end in a slash is at the path of a directory. -/
theorem isDirPath_below (h : path.path.head? = some '/')
    (hf : path.path.rtakeWhile (· ≠ '/') ≠ []) {n : Str} (hn : '/' ∉ n)
    (hle : path.path.rtakeWhile (· ≠ '/') <+: n) :
    IsDirPath (path.path.drop 1 ++ '/' :: n ++ "/".toList)
      (joinPath path.path (extractLeaf ((toRoot path).path.drop 1 ++ n) ++ "/".toList)) := by
  obtain ⟨hleaf, hjoin⟩ := joinPath_below h hf hn hle "/".toList
  rw [hleaf, hjoin]
  refine ⟨?_, ?_⟩
  · conv_lhs => rw [path_eq_cons h]
    simp
  · rw [← List.cons_append, ← List.append_assoc, List.getLast?_append]
    rfl

/-- The files of such a root have other paths than their objects. -/
theorem ne_of_findKey_root (h : path.path.head? = some '/')
    (hf : path.path.rtakeWhile (· ≠ '/') ≠ []) {sub : S3Path → S3Dir} {n : Str} {g : S3File}
    (hg : findKey n (readItems path sub (bucket.list (path.path.drop 1))).files = some g) {name : Str}
    (hmem : .content name ∈ bucket.list (path.path.drop 1)) (hleaf : extractLeaf name = n) :
    g.absoluteName.path ≠ '/' :: name := by
  obtain ⟨-, rest, rfl, hrest⟩ := bucket.mem_content.1 hmem
  obtain ⟨rfl, -⟩ := findKey_files_readItems.1 hg
  have hn : '/' ∉ path.path.rtakeWhile (· ≠ '/') ++ rest := fun hs =>
    (List.mem_append.1 hs).elim (path_eq_toRoot h).2 hrest
  obtain ⟨hname, hjoin⟩ := joinPath_below h hf hn (List.prefix_append _ rest) []
  rw [List.append_nil] at hjoin
  rw [drop_path h, List.append_assoc, hname] at hleaf
  subst hleaf
  intro heq
  have hpath : path.path ++ '/' :: (path.path.rtakeWhile (· ≠ '/') ++ rest) = path.path ++ rest := by
    rw [← hjoin]
    refine heq.trans ?_
    rw [← List.cons_append, ← path_eq_cons h]
  have hrest' := List.append_cancel_left hpath
  exact hrest (hrest' ▸ List.mem_cons_self)

/-- What is found from such a root on: its files under the paths they have, and what is asked for
and reached. -/
theorem finds_tree_below (h : path.path.head? = some '/')
    (hf : path.path.rtakeWhile (· ≠ '/') ≠ []) {key : Str} :
    Finds (bucket.tree path false) key ↔
      (∃ n g, findKey n (bucket.tree path false).files = some g ∧
        g.absoluteName.path = '/' :: key) ∨
      bucket.Asked path key ∧ bucket.Reaches path false key := by
  have htree : bucket.tree path false =
      readItems path (listSubdir bucket (noFaults bucket) (bucket.depth + 1))
        (bucket.list (path.path.drop 1)) := rfl
  rw [finds_iff]
  refine or_congr_right ?_
  rw [htree, drop_path h, exists_subdir_list (path_eq_toRoot h).2, Bucket.Asked, Bucket.Reaches]
  simp only [Bool.false_eq_true, false_or, if_neg hf]
  constructor
  · rintro ⟨n, s, hn, hle, hkey, hfind⟩
    obtain ⟨hmem, hpre, hl, dir, m, heq, hm, hv⟩ :=
      (finds_listSubdir (by omega) (isDirPath_below h hf hn hle)).1 hfind
    refine ⟨⟨hmem, ?_, hl⟩, dir, m, heq, hm, n, s, hn, hle, hkey, hv⟩
    rw [List.append_assoc] at hpre
    exact (List.prefix_append _ _).trans hpre
  · rintro ⟨⟨hmem, -, hl⟩, dir, m, rfl, hm, n, s, hn, hle, hkey, hv⟩
    refine ⟨n, s, hn, hle, hkey, (finds_listSubdir (by omega) (isDirPath_below h hf hn hle)).2
      ⟨hmem, hv.le.trans (List.prefix_append dir m), hl, dir, m, rfl, hm, hv⟩⟩

/-- The files of such a root and below have the paths of their objects. -/
theorem exact_tree (h : path.path.head? = some '/')
    (hroot : tryToRoot ∨ path.path.rtakeWhile (· ≠ '/') = []) {p : List Str} {d : S3Dir} {n : Str}
    {g : S3File} (hd : (bucket.tree path tryToRoot).dirAt p = some d)
    (hg : findKey n d.files = some g) :
    ∃ name, .content name ∈ bucket.list ((if p = [] then path else d.info).path.drop 1) ∧
      extractLeaf name = n ∧ g.absoluteName.path = '/' :: name := by
  obtain ⟨-, hslash⟩ := path_eq_toRoot h
  rw [tree_eq h hroot] at hd
  by_cases hp : p = []
  · subst hp
    cases hd
    rw [if_pos rfl, drop_path h]
    exact exact_files_list (isDirPath_toRoot h) hslash hg
  · rw [if_neg hp]
    exact exact_below hslash (fun m hm _ => ⟨_, (isDirPath_toRoot h).subdir hm⟩) hp hd n g hg

/-- The names of a listing address the objects just if all that is asked for is reached. -/
theorem addresses_iff_reaches (h : path.path.head? = some '/') :
    bucket.Addresses path (bucket.tree path tryToRoot) ↔
      ∀ key, bucket.Asked path key → bucket.Reaches path tryToRoot key := by
  obtain ⟨-, hslash⟩ := path_eq_toRoot h
  by_cases hroot : tryToRoot ∨ path.path.rtakeWhile (· ≠ '/') = []
  · constructor
    · intro haddr key hkey
      exact ((finds_tree h hroot).1 (haddr.found key hkey)).2
    · intro hreach
      exact ⟨fun key hkey => (finds_tree h hroot).2 ⟨hkey, hreach key hkey⟩,
        fun _ _ _ _ hd hg => exact_tree h hroot hd hg⟩
  · rw [not_or, Bool.not_eq_true] at hroot
    obtain ⟨rfl, hf⟩ := hroot
    constructor
    · intro haddr key hkey
      rcases (finds_tree_below h hf).1 (haddr.found key hkey) with ⟨n, g, hg, -⟩ | ⟨-, hreach⟩
      · -- a file of the root has another path than its object
        obtain ⟨name, hmem, hleaf, hpath⟩ := haddr.exact [] _ n g rfl hg
        exact absurd hpath (ne_of_findKey_root h hf hg hmem hleaf)
      · exact hreach
    · intro hreach
      have hno : ∀ n g, findKey n (bucket.tree path false).files ≠ some g := by
        intro n g hg
        obtain ⟨-, name, hmem, hl, -⟩ := findKey_files_readItems.1 hg
        obtain ⟨hkey, rest, rfl, hrest⟩ := bucket.mem_content.1 hmem
        obtain ⟨dir, m, heq, -, hv⟩ := hreach _ ⟨hkey, List.prefix_append _ _, hl⟩
        simp only [Bool.false_eq_true, false_or, if_neg hf] at hv
        obtain ⟨k, s, -, -, -, hv⟩ := hv
        obtain ⟨t, rfl⟩ := hv.le
        rw [List.append_assoc, List.append_assoc, List.append_assoc, List.append_cancel_left_eq] at heq
        exact hrest (heq ▸ List.mem_cons_self)
      refine ⟨fun key hkey => (finds_tree_below h hf).2 (.inr ⟨hkey, hreach key hkey⟩), ?_⟩
      intro p d n g hd hg
      by_cases hp : p = []
      · subst hp
        cases hd
        exact absurd hg (hno n g)
      · rw [if_neg hp]
        have htree : bucket.tree path false = readItems path _ _ := rfl
        rw [htree, drop_path h] at hd
        exact exact_below hslash (fun m hm hle => ⟨_, isDirPath_below h hf hm hle⟩) hp hd n g hg

end

end ExtremeS3
