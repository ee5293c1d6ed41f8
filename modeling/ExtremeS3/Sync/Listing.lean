import ExtremeS3.Sync.Merge
import Mathlib.Data.List.Dedup

/-!
# How the remote tree is read by listings

`list_files_shallow` lists one prefix of a bucket and adds what the service answers to a directory.
`create_schedule` lists the root itself; each directory further down is listed by a task of its own,
which may fail after a part of the answer, and then the directories in that part are never listed.
`deliveredAt` follows the tasks along a relative path: it says whether the directory there was
delivered, and what its own listing delivered. The tree has just that (`readItems_dirAt`).
-/

namespace ExtremeS3

/-- What the service answers to a listing: an object, or the common prefix of objects further
down. -/
inductive Item where
  | content (name : Str)
  | commonPrefix (name : Str)
  deriving DecidableEq, Repr

/-- A bucket: the keys of its objects, and the answers of the service to listings of a prefix with
the delimiter `/`, all pages in order. -/
structure Bucket where
  keys : List Str
  list : Str → List Item
  mem_content : ∀ {pre name}, .content name ∈ list pre ↔
    name ∈ keys ∧ ∃ rest, name = pre ++ rest ∧ '/' ∉ rest
  mem_commonPrefix : ∀ {pre name}, .commonPrefix name ∈ list pre ↔
    ∃ n rest, pre ++ n ++ '/' :: rest ∈ keys ∧ '/' ∉ n ∧ name = pre ++ n ++ "/".toList

/-- The listing tasks that fail, by the prefix they list, with the part of the answer that they
delivered before. -/
structure Faults (bucket : Bucket) where
  part : Str → Option (List Item)
  subset : ∀ {pre items}, part pre = some items → items ⊆ bucket.list pre

/-- `extract_leaf`. -/
def extractLeaf (path : Str) : Str :=
  if path.getLast? = some '/' then path else path.rtakeWhile (· ≠ '/')

/-- The directory that `list_files_shallow` reads into, with `try_to_root`. -/
def toRoot (path : S3Path) : S3Path :=
  if path.path.getLast? ≠ some '/' then
    let dir := path.path.rdropWhile (· ≠ '/')
    { path with path := if dir = [] then "/".toList else dir }
  else path

/-- What `list_files_shallow` does with one item of the answer; `sub` is what a subdirectory will
have become in the end. -/
def addItem (sub : S3Path → S3Dir) (target : S3Dir) : Item → S3Dir
  | .content name =>
    -- there are directory-like files
    if name.getLast? = some '/' then target
    else
      let leaf := extractLeaf name
      .node target.info (upsert leaf (fun _ => ⟨derive target.info leaf⟩) target.files)
        target.subdirs
  | .commonPrefix name =>
    let leaf := extractLeaf name.dropLast
    .node target.info target.files
      (upsert leaf (fun _ => sub (derive target.info (leaf ++ "/".toList))) target.subdirs)

/-- The loop of `list_files_shallow` over the items. -/
def readItems (path : S3Path) (sub : S3Path → S3Dir) (items : List Item) : S3Dir :=
  items.foldl (addItem sub) (.node path [] [])

/-- A directory that is never listed. -/
def unlisted (path : S3Path) : S3Dir := .node path [] []

/-- `list_subdir_task`, and the tasks that it schedules when it does not fail. -/
def listSubdir (bucket : Bucket) (faults : Faults bucket) : Nat → S3Path → S3Dir
  | 0, path => unlisted path
  | fuel + 1, path =>
    match faults.part (path.path.drop 1) with
    | none => readItems path (listSubdir bucket faults fuel) (bucket.list (path.path.drop 1))
    | some items => readItems path unlisted items

/-- The length of the longest key: no prefix that is longer has an answer. -/
def Bucket.depth (bucket : Bucket) : Nat := (bucket.keys.map List.length).foldr max 0

/-- One of the remote paths of a synchronization, with its bucket and the tasks that fail. -/
structure Remote where
  path : S3Path
  bucket : Bucket
  faults : Faults bucket
  absolute : path.path.head? = some '/'

/-- The tree that `create_schedule` reads for a remote path of a download. -/
def Remote.listing (r : Remote) : S3Dir :=
  readItems (toRoot r.path) (listSubdir r.bucket r.faults (r.bucket.depth + 1))
    (r.bucket.list (r.path.path.drop 1))

/-- The loop of `create_schedule` over the remote trees. -/
def mergeRemotes (remotes : Option S3Dir) : List S3Dir → Except (ScheduleError S3Path) (Option S3Dir)
  | [] => .ok remotes
  | cur :: lists =>
    match remotes with
    | none => mergeRemotes (some cur) lists
    | some r =>
      match mergeToLeft S3File.absoluteName r cur with
      | .error e => .error e
      | .ok merged => mergeRemotes (some merged) lists

/-! ## What a listing delivers -/

/-- The prefix of a directory further down. -/
def subPrefix (pre : Str) (p : List Str) : Str := p.foldl (fun s n => s ++ n ++ "/".toList) pre

/-- What the listing of the directory at a relative path delivered, if the directory itself was
delivered; `ok` says whether the directories delivered with `items` are listed. -/
def deliveredAt (bucket : Bucket) (faults : Faults bucket) (ok : Bool) (items : List Item)
    (pre : Str) : List Str → Option (List Item)
  | [] => some items
  | n :: p =>
    let sub := pre ++ n ++ "/".toList
    if .commonPrefix sub ∈ items then
      if ok then
        deliveredAt bucket faults (faults.part sub).isNone
          ((faults.part sub).getD (bucket.list sub)) sub p
      else deliveredAt bucket faults false [] sub p
    else none

/-- The prefix of the root. -/
def Remote.rootPrefix (r : Remote) : Str := (toRoot r.path).path.drop 1

/-- What the listing of the directory at a relative path delivered. -/
def Remote.delivered (r : Remote) (p : List Str) : Option (List Item) :=
  deliveredAt r.bucket r.faults true (r.bucket.list (r.path.path.drop 1)) r.rootPrefix p

/-- A directory at the relative path was delivered. -/
def Remote.Reaches (r : Remote) (p : List Str) : Prop := (r.delivered p).isSome

/-- The name of an object or a directory was delivered. -/
def Remote.Delivers (r : Remote) (p : List Str) (n : Str) : Prop :=
  ∃ items, r.delivered p = some items ∧
    let name := subPrefix r.rootPrefix p ++ n
    (.content name ∈ items ∨ .commonPrefix (name ++ "/".toList) ∈ items)

/-- The bucket has an object, among those asked for, at or below the relative path. -/
def Remote.Has (r : Remote) (p : List Str) : Prop :=
  ∃ key ∈ r.bucket.keys, r.path.path.drop 1 <+: key ∧
    ∃ rest, key = r.rootPrefix ++ rest ∧ p <+: rest.splitOn '/'

/-! ## One directory -/

/-- The item has a name of its own in the directory with the prefix. -/
def Item.Under (pre : Str) : Item → Prop
  | .content name => ∃ m, '/' ∉ m ∧ name = pre ++ m
  | .commonPrefix name => ∃ m, '/' ∉ m ∧ name = pre ++ m ++ "/".toList

/-- The path of a directory with the prefix. -/
structure IsDirPath (pre path : Str) : Prop where
  eq_cons : path = '/' :: pre
  slash : path.getLast? = some '/'

/-- Joining a name with a slash to the path of a directory gives the path of a directory. -/
theorem IsDirPath.sub {pre path : Str} (h : IsDirPath pre path) (n : Str) :
    joinPath path (n ++ "/".toList) = path ++ (n ++ "/".toList) ∧
      IsDirPath (pre ++ n ++ "/".toList) (path ++ (n ++ "/".toList)) := by
  refine ⟨?_, by rw [h.eq_cons]; simp, ?_⟩
  · cases n with
    | nil => simp [joinPath, h.slash]
    | cons c n => simp [joinPath, h.slash]
  · rw [← List.append_assoc, List.getLast?_append]
    rfl

/-- The prefix of a directory is empty or ends with a separator. -/
theorem IsDirPath.eq_nil_or {pre path : Str} (h : IsDirPath pre path) :
    pre = [] ∨ ∃ s, pre = s ++ "/".toList := by
  rcases List.eq_nil_or_concat' pre with hpre | ⟨s, c, rfl⟩
  · exact .inl hpre
  · have := h.slash
    rw [h.eq_cons, ← List.cons_append, List.getLast?_append] at this
    cases this
    exact .inr ⟨s, rfl⟩

/-- The leaf of a key in a directory is its name, or the prefix itself for the key of the directory.
-/
theorem extractLeaf_append {pre path m : Str} (h : IsDirPath pre path) (hm : '/' ∉ m) :
    extractLeaf (pre ++ m) = if m = [] then pre else m := by
  by_cases hnil : m = []
  · rw [if_pos hnil, hnil, List.append_nil, extractLeaf]
    rcases h.eq_nil_or with rfl | ⟨s, rfl⟩
    · rfl
    · rw [if_pos (by rw [List.getLast?_append]; rfl)]
  · rw [if_neg hnil, extractLeaf, if_neg]
    · rcases h.eq_nil_or with rfl | ⟨s, rfl⟩
      · rw [List.nil_append, List.rtakeWhile_eq_self_iff]
        exact fun c hc => decide_eq_true fun he => hm (he ▸ hc)
      · rw [List.append_assoc]
        exact rtakeWhile_after_slash s hm
    · intro hl
      rw [List.getLast?_append] at hl
      cases hml : m.getLast? with
      | none => exact hnil (List.getLast?_eq_none_iff.1 hml)
      | some c =>
        rw [hml] at hl
        cases hl
        exact hm (List.mem_of_getLast? hml)

/-- Only an item of its own name has a name between separators as its leaf. -/
theorem extractLeaf_append_eq {pre path m n : Str} (h : IsDirPath pre path) (hm : '/' ∉ m)
    (hn : NameOk n) : extractLeaf (pre ++ m) = n ↔ m = n := by
  rw [extractLeaf_append h hm]
  split
  · next hnil =>
    refine ⟨fun he => ?_, fun he => absurd (he ▸ hnil) hn.ne_nil⟩
    rcases h.eq_nil_or with rfl | ⟨s, rfl⟩
    · exact absurd he.symm hn.ne_nil
    · exact absurd (he ▸ List.mem_append_right s List.mem_cons_self) hn.slash
  · exact Iff.rfl

section

variable {pre : Str} {path : S3Path} {sub : S3Path → S3Dir}

/-- Adding an item leaves a directory sorted. -/
theorem sorted_addItem {d : S3Dir} (hd : d.Sorted) (i : Item) : (addItem sub d i).Sorted := by
  cases i with
  | content name =>
    rw [addItem]
    split
    · exact hd
    · exact ⟨hd.1.upsert _ _, hd.2⟩
  | commonPrefix name => exact ⟨hd.1, hd.2.upsert _ _⟩

/-- Adding an item leaves the path of a directory as it is. -/
theorem info_addItem (d : S3Dir) (i : Item) : (addItem sub d i).info = d.info := by
  cases i with
  | content name =>
    rw [addItem]
    split <;> rfl
  | commonPrefix name => rfl

/-- What an item adds to a directory at a name between separators. -/
theorem findKey_addItem (sub : S3Path → S3Dir) (hpath : IsDirPath pre path.path) {d : S3Dir}
    (hd : d.Sorted) (hinfo : d.info = path) {i : Item} (hi : i.Under pre) {n : Str} (hn : NameOk n) :
    ((findKey n (addItem sub d i).files).isSome ↔
      i = .content (pre ++ n) ∨ (findKey n d.files).isSome) ∧
    findKey n (addItem sub d i).subdirs =
      if i = .commonPrefix (pre ++ n ++ "/".toList) then
        some (sub { path with path := path.path ++ (n ++ "/".toList) })
      else findKey n d.subdirs := by
  cases i with
  | content name =>
    obtain ⟨m, hm, rfl⟩ := hi
    have hmn := extractLeaf_append_eq hpath hm hn
    have heq : (Item.content (pre ++ m) = .content (pre ++ n)) ↔ m = n := by
      rw [Item.content.injEq, List.append_right_inj]
    rw [heq, if_neg nofun, addItem]
    split
    · next hl =>
      refine ⟨?_, rfl⟩
      have hne : m ≠ n := fun he => by
        subst he
        rw [List.getLast?_append] at hl
        cases hml : m.getLast? with
        | none => exact hn.ne_nil (List.getLast?_eq_none_iff.1 hml)
        | some c =>
          rw [hml] at hl
          cases hl
          exact hn.slash (List.mem_of_getLast? hml)
      simp [hne]
    · refine ⟨?_, rfl⟩
      rw [Dir.files_node, findKey_upsert hd.1]
      by_cases he : m = n
      · rw [if_pos (hmn.2 he).symm]
        simp [he]
      · rw [if_neg fun h => he (hmn.1 h.symm)]
        simp [he]
  | commonPrefix name =>
    obtain ⟨m, hm, rfl⟩ := hi
    have hdrop : (pre ++ m ++ "/".toList).dropLast = pre ++ m := List.dropLast_concat
    have hmn := extractLeaf_append_eq hpath hm hn
    have heq : (Item.commonPrefix (pre ++ m ++ "/".toList) =
        .commonPrefix (pre ++ n ++ "/".toList)) ↔ m = n := by
      rw [Item.commonPrefix.injEq, List.append_left_inj, List.append_right_inj]
    refine ⟨by simp [addItem], ?_⟩
    rw [addItem, Dir.subdirs_node, findKey_upsert hd.2, hdrop]
    by_cases he : m = n
    · rw [if_pos (hmn.2 he).symm, if_pos (heq.2 he), hmn.2 he, hinfo, derive,
        (hpath.sub n).1]
    · rw [if_neg fun h => he (hmn.1 h.symm), if_neg fun h => he (heq.1 h)]

/-- What the items add to a directory. -/
theorem findKey_foldl_addItem (sub : S3Path → S3Dir) (hpath : IsDirPath pre path.path)
    {items : List Item}
    (hitems : ∀ i ∈ items, i.Under pre) {d : S3Dir} (hd : d.Sorted) (hinfo : d.info = path) {n : Str}
    (hn : NameOk n) :
    ((findKey n (items.foldl (addItem sub) d).files).isSome ↔
      .content (pre ++ n) ∈ items ∨ (findKey n d.files).isSome) ∧
    findKey n (items.foldl (addItem sub) d).subdirs =
      if .commonPrefix (pre ++ n ++ "/".toList) ∈ items then
        some (sub { path with path := path.path ++ (n ++ "/".toList) })
      else findKey n d.subdirs := by
  induction items generalizing d with
  | nil => simp
  | cons i items ih =>
    obtain ⟨hf, hs⟩ := findKey_addItem sub hpath hd hinfo (hitems i List.mem_cons_self) hn
    obtain ⟨hf', hs'⟩ := ih (fun j hj => hitems j (List.mem_cons_of_mem _ hj))
      (sorted_addItem hd i) ((info_addItem d i).trans hinfo)
    rw [List.foldl_cons, hf', hs', hf, hs]
    constructor
    · rw [List.mem_cons]
      constructor
      · rintro (h | h | h)
        · exact .inl (.inr h)
        · exact .inl (.inl h.symm)
        · exact .inr h
      · rintro ((h | h) | h)
        · exact .inr (.inl h.symm)
        · exact .inl h
        · exact .inr (.inr h)
    · by_cases h : Item.commonPrefix (pre ++ n ++ "/".toList) ∈ items
      · rw [if_pos h, if_pos (List.mem_cons_of_mem _ h)]
      · rw [if_neg h]
        by_cases hi : i = .commonPrefix (pre ++ n ++ "/".toList)
        · rw [if_pos hi, if_pos (by rw [hi]; exact List.mem_cons_self)]
        · rw [if_neg hi, if_neg]
          rintro (_ | _)
          · exact hi rfl
          · exact h ‹_›

/-- What there is at a name between separators. -/
theorem findKey_readItems (sub : S3Path → S3Dir) (hpath : IsDirPath pre path.path)
    {items : List Item} (hitems : ∀ i ∈ items, i.Under pre) {n : Str} (hn : NameOk n) :
    ((findKey n (readItems path sub items).files).isSome ↔ .content (pre ++ n) ∈ items) ∧
      findKey n (readItems path sub items).subdirs =
        if .commonPrefix (pre ++ n ++ "/".toList) ∈ items then
          some (sub { path with path := path.path ++ (n ++ "/".toList) })
        else none := by
  obtain ⟨hf, hs⟩ := findKey_foldl_addItem sub hpath hitems (Dir.sorted_empty path) rfl hn
  exact ⟨hf.trans (by simp), hs⟩

end

/-! ## Whole trees -/

/-- What becomes of the subdirectories of a listing that succeeded, or failed. -/
def subdirsOf (bucket : Bucket) (faults : Faults bucket) (ok : Bool) (fuel : Nat) : S3Path → S3Dir :=
  if ok then listSubdir bucket faults fuel else unlisted

section

variable {bucket : Bucket} {faults : Faults bucket} {pre : Str}

/-- No key is longer than the bucket is deep. -/
theorem Bucket.length_le_depth {k : Str} (hk : k ∈ bucket.keys) : k.length ≤ bucket.depth := by
  rw [Bucket.depth]
  generalize bucket.keys = keys at hk
  induction keys with
  | nil => cases hk
  | cons j keys ih =>
    simp only [List.map_cons, List.foldr_cons]
    rcases List.mem_cons.1 hk with rfl | hk
    · exact Nat.le_max_left ..
    · exact (ih hk).trans (Nat.le_max_right ..)

/-- The answer to a prefix has items with names of their own in the directory above it. -/
theorem Bucket.under_of_mem {f : Str} (hf : '/' ∉ f) {i : Item} (hi : i ∈ bucket.list (pre ++ f)) :
    i.Under pre := by
  have hslash : ∀ {r : Str}, '/' ∉ r → '/' ∉ f ++ r := fun hr h => by
    rcases List.mem_append.1 h with h | h
    · exact hf h
    · exact hr h
  cases i with
  | content name =>
    obtain ⟨-, rest, rfl, hr⟩ := bucket.mem_content.1 hi
    exact ⟨f ++ rest, hslash hr, List.append_assoc ..⟩
  | commonPrefix name =>
    obtain ⟨n, -, -, hn, rfl⟩ := bucket.mem_commonPrefix.1 hi
    exact ⟨f ++ n, hslash hn, by simp⟩

/-- No prefix longer than every key has an answer. -/
theorem Bucket.list_eq_nil (h : bucket.depth < pre.length) : bucket.list pre = [] := by
  refine List.eq_nil_iff_forall_not_mem.2 fun i hi => ?_
  cases i with
  | content name =>
    obtain ⟨hk, rest, rfl, -⟩ := bucket.mem_content.1 hi
    have := bucket.length_le_depth hk
    rw [List.length_append] at this
    omega
  | commonPrefix name =>
    obtain ⟨n, rest, hk, -⟩ := bucket.mem_commonPrefix.1 hi
    have := bucket.length_le_depth hk
    rw [List.length_append, List.length_append] at this
    omega

/-- With enough fuel, the answer to a listing is read to its end. -/
theorem listSubdir_eq {fuel : Nat} (h : bucket.depth < fuel + pre.length) {path : S3Path}
    (hpath : path.path = '/' :: pre) :
    listSubdir bucket faults fuel path =
      readItems path (subdirsOf bucket faults (faults.part pre).isNone (fuel - 1))
        ((faults.part pre).getD (bucket.list pre)) := by
  have hdrop : path.path.drop 1 = pre := by rw [hpath]; rfl
  cases fuel with
  | zero =>
    have hnil := bucket.list_eq_nil (show bucket.depth < pre.length by omega)
    have hitems : (faults.part pre).getD (bucket.list pre) = [] := by
      cases hp : faults.part pre with
      | none => exact hnil
      | some items => exact List.eq_nil_of_subset_nil (hnil ▸ faults.subset hp)
    rw [hitems]
    rfl
  | succ fuel =>
    rw [listSubdir, hdrop]
    cases faults.part pre with
    | none => rfl
    | some items => rfl

/-- The tree has the directories that were delivered, with the names that were delivered. -/
theorem readItems_dirAt {ok : Bool} {fuel : Nat} {items : List Item} {path : S3Path}
    (hpath : IsDirPath pre path.path) (hitems : ∀ i ∈ items, i.Under pre)
    (hfuel : bucket.depth ≤ fuel + pre.length) {p : List Str} (hp : ∀ n ∈ p, NameOk n) :
    ((readItems path (subdirsOf bucket faults ok fuel) items).dirAt p).isSome =
        (deliveredAt bucket faults ok items pre p).isSome ∧
      ∀ n, NameOk n →
        (((readItems path (subdirsOf bucket faults ok fuel) items).fileAt (p ++ [n])).isSome ∨
          ((readItems path (subdirsOf bucket faults ok fuel) items).dirAt (p ++ [n])).isSome ↔
        ∃ D, deliveredAt bucket faults ok items pre p = some D ∧
          (.content (subPrefix pre p ++ n) ∈ D ∨
            .commonPrefix (subPrefix pre p ++ n ++ "/".toList) ∈ D)) := by
  induction p generalizing ok fuel items pre path with
  | nil =>
    refine ⟨rfl, fun n hn => ?_⟩
    obtain ⟨hf, hs⟩ := findKey_readItems (subdirsOf bucket faults ok fuel) hpath hitems hn
    rw [List.nil_append, Dir.fileAt_singleton, Dir.dirAt_cons, hs, hf]
    simp only [deliveredAt, Option.some.injEq, exists_eq_left', subPrefix, List.foldl_nil]
    split <;> simp_all
  | cons m p ih =>
    have hm := hp m List.mem_cons_self
    obtain ⟨-, hs⟩ := findKey_readItems (subdirsOf bucket faults ok fuel) hpath hitems hm
    have hfile : ∀ n, p ++ [n] ≠ [] := fun n => by simp
    simp only [List.cons_append, Dir.dirAt_cons, Dir.fileAt_cons (hfile _), hs, deliveredAt]
    by_cases hin : Item.commonPrefix (pre ++ m ++ "/".toList) ∈ items
    · simp only [if_pos hin, Option.bind_some]
      obtain ⟨path', hpath'⟩ : ∃ q : S3Path,
          q = { path with path := path.path ++ (m ++ "/".toList) } := ⟨_, rfl⟩
      have hsub : IsDirPath (pre ++ m ++ "/".toList) path'.path := by
        rw [hpath']
        exact (hpath.sub m).2
      have hlen : (pre ++ m ++ "/".toList).length = pre.length + m.length + 1 := by
        simp [Nat.add_assoc]
      have hpos := List.length_pos_iff.2 hm.ne_nil
      have hp' : ∀ n ∈ p, NameOk n := fun n hn => hp n (List.mem_cons_of_mem _ hn)
      rw [← hpath']
      cases ok with
      | true =>
        -- the subdirectory has a listing of its own
        have heq : subdirsOf bucket faults true fuel path' = _ :=
          listSubdir_eq (by omega) hsub.eq_cons
        rw [heq]
        refine ih hsub (fun i hi => ?_) (by omega) hp'
        have hmem : i ∈ bucket.list (pre ++ m ++ "/".toList ++ []) := by
          rw [List.append_nil]
          cases hpart : faults.part (pre ++ m ++ "/".toList) with
          | none => rw [hpart] at hi; exact hi
          | some part => rw [hpart] at hi; exact faults.subset hpart hi
        exact Bucket.under_of_mem List.not_mem_nil hmem
      | false =>
        have heq : subdirsOf bucket faults false fuel path' =
            readItems path' (subdirsOf bucket faults false fuel) [] := rfl
        rw [heq]
        exact ih hsub (by simp) (by omega) hp'
    · simp only [if_neg hin, Option.bind_none]
      simp

/-- A subdirectory of a directory that was read is what `sub` made of it. -/
theorem exists_of_findKey_subdirs {path : S3Path} {sub : S3Path → S3Dir} {items : List Item} {n : Str}
    {d : S3Dir} (h : findKey n (readItems path sub items).subdirs = some d) : ∃ q, d = sub q := by
  have key : ∀ (items : List Item) (t : S3Dir), t.Sorted →
      (∀ n d, findKey n t.subdirs = some d → ∃ q, d = sub q) →
      ∀ n d, findKey n (items.foldl (addItem sub) t).subdirs = some d → ∃ q, d = sub q := by
    intro items
    induction items with
    | nil => exact fun t _ ht => ht
    | cons i items ih =>
      intro t hs ht
      refine ih (addItem sub t i) (sorted_addItem hs i) fun n d hd => ?_
      cases i with
      | content name =>
        rw [addItem] at hd
        split at hd
        · exact ht n d hd
        · exact ht n d hd
      | commonPrefix name =>
        rw [addItem, Dir.subdirs_node, findKey_upsert hs.2] at hd
        split at hd
        · cases hd
          exact ⟨_, rfl⟩
        · exact ht n d hd
  exact key items _ (Dir.sorted_empty path) (fun _ _ h => nomatch h) n d h

/-- A directory that is read from sorted ones is sorted everywhere. -/
theorem sorted_readItems {sub : S3Path → S3Dir} (hsub : ∀ q, (sub q).Everywhere Dir.Sorted)
    (path : S3Path) (items : List Item) : (readItems path sub items).Everywhere Dir.Sorted := by
  intro p d hd
  cases p with
  | nil =>
    cases hd
    have key : ∀ (items : List Item) (t : S3Dir), t.Sorted → (items.foldl (addItem sub) t).Sorted := by
      intro items
      induction items with
      | nil => exact fun _ h => h
      | cons i items ih => exact fun t ht => ih _ (sorted_addItem ht i)
    exact key items _ (Dir.sorted_empty path)
  | cons n p =>
    obtain ⟨e, he, hd⟩ := Option.bind_eq_some_iff.1 hd
    obtain ⟨q, rfl⟩ := exists_of_findKey_subdirs he
    exact hsub q p d hd

/-- A directory that is not listed is sorted. -/
theorem sorted_unlisted (path : S3Path) : (unlisted path).Everywhere Dir.Sorted :=
  Dir.everywhere_of_subdirs_nil rfl (Dir.sorted_empty path)

/-- A listing is sorted everywhere. -/
theorem sorted_listSubdir (fuel : Nat) (path : S3Path) :
    (listSubdir bucket faults fuel path).Everywhere Dir.Sorted := by
  induction fuel generalizing path with
  | zero => exact sorted_unlisted path
  | succ fuel ih =>
    rw [listSubdir]
    split
    · exact sorted_readItems ih path _
    · exact sorted_readItems sorted_unlisted path _

end

/-! ## The trees of remote paths -/

/-- The path asked for continues the path of the root by a part of a name. -/
theorem exists_path_eq_toRoot {path : S3Path} (h : path.path.head? = some '/') :
    ∃ f, '/' ∉ f ∧ path.path = (toRoot path).path ++ f ∧ (toRoot path).path.getLast? = some '/' := by
  rw [toRoot]
  split
  · next hl =>
    have hdir : path.path.rdropWhile (· ≠ '/') ≠ [] := by
      rw [Ne, List.rdropWhile_eq_nil_iff]
      intro hno
      exact absurd (hno '/' (List.mem_of_head? h)) (by decide)
    refine ⟨path.path.rtakeWhile (· ≠ '/'), fun hmem => ?_, ?_, ?_⟩
    · exact absurd (List.mem_rtakeWhile_imp hmem) (by decide)
    · simp only [hdir, if_false]
      exact List.rdropWhile_append_rtakeWhile.symm
    · simp only [hdir, if_false]
      have := List.rdropWhile_last_not _ _ hdir
      rw [List.getLast?_eq_some_getLast hdir]
      simpa using this
  · next hl => exact ⟨[], nofun, (List.append_nil _).symm, not_not.1 hl⟩

/-- The root of a path is the path of a directory. -/
theorem isDirPath_toRoot {path : S3Path} (h : path.path.head? = some '/') :
    IsDirPath ((toRoot path).path.drop 1) (toRoot path).path := by
  obtain ⟨f, -, hp, hl⟩ := exists_path_eq_toRoot h
  refine ⟨?_, hl⟩
  rw [hp] at h
  cases hroot : (toRoot path).path with
  | nil => rw [hroot] at hl; cases hl
  | cons c s =>
    rw [hroot] at h
    cases h
    rfl

/-- The root of a remote path is the path of a directory. -/
theorem Remote.isDirPath (r : Remote) : IsDirPath r.rootPrefix (toRoot r.path).path :=
  isDirPath_toRoot r.absolute

/-- A remote path is its root, and a name without a slash. -/
theorem Remote.drop_path (r : Remote) : ∃ f, '/' ∉ f ∧ r.path.path.drop 1 = r.rootPrefix ++ f := by
  obtain ⟨f, hf, hp, -⟩ := exists_path_eq_toRoot r.absolute
  refine ⟨f, hf, ?_⟩
  rw [hp, r.isDirPath.eq_cons]
  rfl

/-- The tree of a remote path has the directories and the names that were delivered. -/
theorem Remote.listing_dirAt (r : Remote) {p : List Str} (hp : ∀ n ∈ p, NameOk n) :
    ((r.listing.dirAt p).isSome ↔ r.Reaches p) ∧
      ∀ n, NameOk n → ((r.listing.fileAt (p ++ [n])).isSome ∨ (r.listing.dirAt (p ++ [n])).isSome ↔
        r.Delivers p n) := by
  obtain ⟨f, hf, hdrop⟩ := r.drop_path
  have hitems : ∀ i ∈ r.bucket.list (r.path.path.drop 1), i.Under r.rootPrefix := fun i hi => by
    rw [hdrop] at hi
    exact Bucket.under_of_mem hf hi
  have hlisting : r.listing = readItems (toRoot r.path)
      (subdirsOf r.bucket r.faults true (r.bucket.depth + 1))
      (r.bucket.list (r.path.path.drop 1)) := rfl
  rw [hlisting]
  have hfuel : r.bucket.depth ≤ r.bucket.depth + 1 + r.rootPrefix.length := by omega
  obtain ⟨hdir, hname⟩ := readItems_dirAt r.isDirPath hitems hfuel hp
  exact ⟨by rw [hdir]; rfl, hname⟩

/-- The listing of a remote path is sorted everywhere. -/
theorem Remote.sorted_listing (r : Remote) : r.listing.Everywhere Dir.Sorted :=
  sorted_readItems (sorted_listSubdir _) _ _

/-- The files and directories of merged remote trees are those of the trees. -/
theorem mergeRemotes_ok {before tree : Option S3Dir} {lists : List S3Dir}
    (hb : ∀ d ∈ before, d.Everywhere Dir.Sorted) (hl : ∀ d ∈ lists, d.Everywhere Dir.Sorted)
    (h : mergeRemotes before lists = .ok tree) :
    (∀ d ∈ tree, d.Everywhere Dir.Sorted) ∧
      ∀ p, ((∃ d ∈ tree, (d.fileAt p).isSome) ↔
          (∃ d ∈ before, (d.fileAt p).isSome) ∨ ∃ d ∈ lists, (d.fileAt p).isSome) ∧
        ((∃ d ∈ tree, (d.dirAt p).isSome) ↔
          (∃ d ∈ before, (d.dirAt p).isSome) ∨ ∃ d ∈ lists, (d.dirAt p).isSome) := by
  induction lists generalizing before with
  | nil =>
    cases h
    exact ⟨hb, fun p => by simp⟩
  | cons cur lists ih =>
    have hcur := hl cur List.mem_cons_self
    have hlists : ∀ d ∈ lists, d.Everywhere Dir.Sorted := fun d hd =>
      hl d (List.mem_cons_of_mem _ hd)
    cases before with
    | none =>
      obtain ⟨hs, hp⟩ := ih (fun d hd => by cases hd; exact hcur) hlists h
      exact ⟨hs, fun p => by simpa using hp p⟩
    | some r =>
      rw [mergeRemotes] at h
      split at h
      · cases h
      · next m hm =>
        have hr := hb r rfl
        obtain ⟨hs, hp⟩ := ih (fun d hd => by cases hd; exact sorted_mergeToLeft hr hcur hm) hlists h
        refine ⟨hs, fun p => ?_⟩
        simpa [fileAt_mergeToLeft hr hcur hm, dirAt_mergeToLeft hr hcur hm, Option.isSome_or,
          or_assoc] using hp p

/-! ## Without failures -/

/-- A slash-free part of a path is a part of its first name. -/
theorem prefix_of_slash_free {f n s : Str} (hf : '/' ∉ f) (h : f <+: n ++ '/' :: s) : f <+: n := by
  rcases List.prefix_or_prefix_of_prefix h (List.prefix_append n _) with h | ⟨t, rfl⟩
  · exact h
  · rw [List.prefix_append_right_inj] at h
    cases t with
    | nil => simp
    | cons c t =>
      obtain ⟨rfl, -⟩ := List.cons_prefix_cons.1 h
      exact absurd (List.mem_append_right n List.mem_cons_self) hf

/-- The first name of a path, and what follows it. -/
theorem splitOn_cases (rest : Str) :
    '/' ∉ rest ∧ rest.splitOn '/' = [rest] ∨
      ∃ n s, '/' ∉ n ∧ rest = n ++ '/' :: s ∧ rest.splitOn '/' = n :: s.splitOn '/' := by
  by_cases h : '/' ∈ rest
  · obtain ⟨n, s, rfl, hn⟩ := List.eq_append_cons_of_mem h
    refine .inr ⟨n, s, hn, rfl, ?_⟩
    rw [List.splitOn_append_cons_self, List.splitOn_eq_singleton hn]
    rfl
  · exact .inl ⟨h, List.splitOn_eq_singleton h⟩

/-- Where no listing fails, the name of an object at or below a path is delivered: along the path
the key of the object is `key`, which continues the prefix by `rest`. -/
theorem delivers_of_key {bucket : Bucket} {faults : Faults bucket}
    (hno : ∀ pre, faults.part pre = none) {p : List Str} {n : Str} {pre f key rest : Str}
    (hf : '/' ∉ f) (hkey : key ∈ bucket.keys) (hle : pre ++ f <+: key) (hrest : key = pre ++ rest)
    (hp : p ++ [n] <+: rest.splitOn '/') :
    ∃ items, deliveredAt bucket faults true (bucket.list (pre ++ f)) pre p = some items ∧
      (.content (subPrefix pre p ++ n) ∈ items ∨
        .commonPrefix (subPrefix pre p ++ n ++ "/".toList) ∈ items) := by
  -- a key that goes on below a name answers with the common prefix of the name
  have hcommon : ∀ {m s : Str}, '/' ∉ m → rest = m ++ '/' :: s →
      Item.commonPrefix (pre ++ m ++ "/".toList) ∈ bucket.list (pre ++ f) := by
    rintro m s hm rfl
    rw [hrest, List.prefix_append_right_inj] at hle
    obtain ⟨m', rfl⟩ := prefix_of_slash_free hf hle
    refine bucket.mem_commonPrefix.2 ⟨m', s, ?_, fun h => hm (List.mem_append_right f h), ?_⟩
    · rw [hrest] at hkey
      simpa using hkey
    · simp
  induction p generalizing pre f rest with
  | nil =>
    refine ⟨_, rfl, ?_⟩
    rcases splitOn_cases rest with ⟨hslash, hsplit⟩ | ⟨m, s, hm, hr, hsplit⟩
    · rw [hsplit] at hp
      obtain ⟨rfl, -⟩ := List.cons_prefix_cons.1 hp
      refine .inl (bucket.mem_content.2 ⟨hrest ▸ hkey, ?_⟩)
      rw [hrest, List.prefix_append_right_inj] at hle
      obtain ⟨t, rfl⟩ := hle
      exact ⟨t, (List.append_assoc ..).symm, fun h => hslash (List.mem_append_right f h)⟩
    · rw [hsplit] at hp
      obtain ⟨rfl, -⟩ := List.cons_prefix_cons.1 hp
      exact .inr (hcommon hm hr)
  | cons m p ih =>
    rcases splitOn_cases rest with ⟨hslash, hsplit⟩ | ⟨m', s, hm, hr, hsplit⟩
    · rw [hsplit] at hp
      obtain ⟨-, hp⟩ := List.cons_prefix_cons.1 hp
      have := hp.length_le
      simp at this
    · rw [hsplit] at hp
      obtain ⟨rfl, hp'⟩ := List.cons_prefix_cons.1 hp
      have hsub : key = pre ++ m ++ "/".toList ++ s := by rw [hrest, hr]; simp
      have hle' : pre ++ m ++ "/".toList ++ [] <+: key := by
        rw [hsub, List.append_nil]
        exact List.prefix_append _ _
      obtain ⟨items, hitems, hmem⟩ := ih List.not_mem_nil hle' hsub hp' (by
        rintro k t hk rfl
        refine bucket.mem_commonPrefix.2 ⟨k, t, ?_, hk, by simp⟩
        rw [hsub] at hkey
        simpa using hkey)
      rw [List.append_nil] at hitems
      refine ⟨items, ?_, hmem⟩
      rw [deliveredAt, if_pos (hcommon hm hr), if_pos rfl, hno]
      exact hitems

/-- Where no listing fails, the name of an object at or below a path is delivered. -/
theorem Remote.delivers_of_has (r : Remote) (hno : ∀ pre, r.faults.part pre = none) {p : List Str}
    {n : Str} (h : r.Has (p ++ [n])) : r.Delivers p n := by
  obtain ⟨key, hkey, hle, rest, hrest, hp⟩ := h
  obtain ⟨f, hf, hdrop⟩ := r.drop_path
  rw [hdrop] at hle
  obtain ⟨items, hitems, hmem⟩ := delivers_of_key hno hf hkey hle hrest hp
  refine ⟨items, ?_, hmem⟩
  rw [Remote.delivered, hdrop]
  exact hitems

/-- The item that a key is answered with in a listing of a prefix. -/
def itemOf (pre key : Str) : Option Item :=
  if pre <+: key then
    let rest := key.drop pre.length
    if '/' ∈ rest then some (.commonPrefix (pre ++ rest.takeWhile (· ≠ '/') ++ "/".toList))
    else some (.content key)
  else none

/-- What is before the first slash is the name. -/
theorem takeWhile_before_slash {n : Str} (hn : '/' ∉ n) (s : Str) :
    (n ++ '/' :: s).takeWhile (· ≠ '/') = n := by
  have hall : ∀ c ∈ n, decide (c ≠ '/') = true := fun c hc => decide_eq_true fun h => hn (h ▸ hc)
  rw [List.takeWhile_append_of_pos hall]
  simp

/-- A bucket that answers listings as the service documents it. -/
def Bucket.ofKeys (keys : List Str) : Bucket where
  keys := keys
  list pre := (keys.filterMap (itemOf pre)).dedup
  mem_content {pre name} := by
    rw [List.mem_dedup, List.mem_filterMap]
    constructor
    · rintro ⟨key, hkey, h⟩
      rw [itemOf] at h
      split at h
      · next hle =>
        obtain ⟨rest, rfl⟩ := hle
        rw [List.drop_left] at h
        dsimp only at h
        split at h
        · cases h
        · next hs => cases h; exact ⟨hkey, rest, rfl, hs⟩
      · cases h
    · rintro ⟨hkey, rest, rfl, hs⟩
      exact ⟨_, hkey, by simp [itemOf, hs]⟩
  mem_commonPrefix {pre name} := by
    rw [List.mem_dedup, List.mem_filterMap]
    constructor
    · rintro ⟨key, hkey, h⟩
      rw [itemOf] at h
      split at h
      · next hle =>
        obtain ⟨rest, rfl⟩ := hle
        rw [List.drop_left] at h
        dsimp only at h
        split at h
        · next hs =>
          obtain ⟨n, s, rfl, hn⟩ := List.eq_append_cons_of_mem hs
          rw [takeWhile_before_slash hn] at h
          cases h
          exact ⟨n, s, by simpa using hkey, hn, rfl⟩
        · cases h
      · cases h
    · rintro ⟨n, s, hkey, hn, rfl⟩
      refine ⟨_, hkey, ?_⟩
      rw [itemOf, List.append_assoc, if_pos (List.prefix_append _ _), List.drop_left]
      dsimp only
      rw [if_pos (by simp), takeWhile_before_slash hn]

end ExtremeS3
