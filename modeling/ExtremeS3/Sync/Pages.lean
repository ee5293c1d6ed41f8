import ExtremeS3.Errors
import ExtremeS3.Lib.Cursor
import ExtremeS3.Lib.Lists
import ExtremeS3.Lib.Prog
import ExtremeS3.Sync.Listing

/-!
# The pages of a listing

The service answers a listing by pages: the first of the items beyond a marker in the order of their
names, but in a page all objects before all common prefixes. The loop of `list_files_shallow` takes
the name of the last node as the next marker, which need not be the greatest name of the page.
`listing_complete` says that it ends all the same with every item of the listing, each once, and
that a `list_subdir_task` that is tried again on a directory that it has filled in part does so too.
-/

namespace ExtremeS3

/-- The name of an item, which is what the service sorts by. -/
def Item.name : Item → Str
  | .content name | .commonPrefix name => name

/-- The item is an object. -/
def Item.isContent : Item → Bool
  | .content _ => true
  | .commonPrefix _ => false

/-- What follows `IsTruncated` in a page, and what `IsTruncated` says. -/
structure Page where
  nodes : List Item
  isTruncated : Bool

/-- The items of a listing in the order of their names. -/
def Bucket.sorted (bucket : Bucket) (pre : Str) : List Item :=
  (bucket.list pre).dedup.mergeSort fun a b => a.name ≤ b.name

/-- The page that the service answers with. -/
def Bucket.page (bucket : Bucket) (pageSize : Nat) (pre marker : Str) : Page :=
  let items := ExtremeS3.page Item.name (bucket.sorted pre) pageSize marker
  { nodes := items.filter Item.isContent ++ items.filter fun i => !i.isContent
    isTruncated := pageSize < (after Item.name (bucket.sorted pre) marker).length }

/-- The answer to the request number `n` of a listing; `fails` says which requests throw. -/
def Bucket.answer (bucket : Bucket) (pageSize : Nat) (fails : Nat → Option Thrown) (n : Nat)
    (pre marker : Str) : Except Thrown Page :=
  match fails n with
  | some e => .error e
  | none => .ok (bucket.page pageSize pre marker)

/-- What the loop of `list_files_shallow` changes: the directory, the marker, and how many requests
were made. -/
structure ListState where
  target : S3Dir
  marker : Str
  requests : Nat

/-- The body of the loop of `list_files_shallow`. What is thrown leaves the directory as it is
then. -/
def listPage (answer : Nat → Str → Str → Except Thrown Page) (path : S3Path) (s : ListState) :
    Prog (Thrown × ListState) (ListState ⊕ ListState) :=
  match answer s.requests (path.path.drop 1) s.marker with
  | .error e => .throw (e, { s with requests := s.requests + 1 })
  | .ok page =>
    let s := { s with requests := s.requests + 1 }
    match page.nodes.getLast? with
    | none => pure (.inr s)
    | some last =>
      let target := page.nodes.foldl (addItem unlisted) s.target
      let s := { s with target := target, marker := last.name }
      pure (if page.isTruncated then .inl s else .inr s)

/-- `list_files_shallow`, after `requests` requests. -/
def listFilesShallow (answer : Nat → Str → Str → Except Thrown Page) (path : S3Path)
    (target : Option S3Dir) (tryToRoot : Bool) (requests : Nat) :
    Prog (Thrown × ListState) ListState :=
  let target := target.getD (unlisted (if tryToRoot then toRoot path else path))
  .loop (listPage answer path) ⟨target, [], requests⟩

/-- One attempt at `list_subdir_task` in the loop of the executor: the task is tried again, given up
(`none`), or returns its directory with the paths of the tasks that it schedules. -/
def attemptListSubdir (answer : Nat → Str → Str → Except Thrown Page) (path : S3Path)
    (s : Nat × S3Dir × Nat) :
    Prog Empty ((Nat × S3Dir × Nat) ⊕ Option (S3Dir × List S3Path)) := do
  match ← (listFilesShallow answer path (some s.2.1) false s.2.2).attempt with
  | .ok t => pure (.inr (some (t.target, t.target.subdirs.map fun e => e.2.info)))
  | .error (e, t) =>
    match afterAttempt s.1 (some e) with
    | .next f => pure (.inl (f, t.target, t.requests))
    | .ended _ => pure (.inr none)

/-- `list_subdir_task`, with its attempts. -/
def listSubdirTask (answer : Nat → Str → Str → Except Thrown Page) (path : S3Path) :
    Prog Empty (Option (S3Dir × List S3Path)) :=
  .loop (attemptListSubdir answer path) (0, unlisted path, 0)

/-! ## What the service sorts -/

/-- The keys that a local file system could hold: not empty, and without empty names. -/
def Bucket.PlainKeys (bucket : Bucket) : Prop :=
  ∀ key ∈ bucket.keys, key ≠ [] ∧ key.head? ≠ some '/' ∧ ¬ "//".toList <:+: key

/-- The item is of a directory with the prefix, and only the directory itself has no name in it. -/
inductive Item.Named (pre : Str) : Item → Prop
  | content (m : Str) : '/' ∉ m → pre ++ m ≠ [] → Named pre (.content (pre ++ m))
  | commonPrefix (n : Str) : NameOk n → Named pre (.commonPrefix (pre ++ n ++ "/".toList))

variable {bucket : Bucket} {pre : Str} {path : S3Path}

/-- An item of a plain bucket has the name of a file or of a directory. -/
theorem Bucket.PlainKeys.named (hkeys : bucket.PlainKeys) (hpath : IsDirPath pre path.path)
    {i : Item} (hi : i ∈ bucket.list pre) : i.Named pre := by
  cases i with
  | content name =>
    obtain ⟨hname, m, rfl, hm⟩ := bucket.mem_content.1 hi
    exact .content m hm (hkeys _ hname).1
  | commonPrefix name =>
    obtain ⟨n, rest, hkey, hn, rfl⟩ := bucket.mem_commonPrefix.1 hi
    refine .commonPrefix n ⟨?_, hn⟩
    rintro rfl
    obtain ⟨-, hhead, hslashes⟩ := hkeys _ hkey
    rw [List.append_nil] at hhead hslashes
    rcases hpath.eq_nil_or with rfl | ⟨s, rfl⟩
    · exact hhead rfl
    · exact hslashes ⟨s, rest, by simp⟩

/-- The name of a directory in a listing is in order. -/
theorem Item.Named.nameOk {n : Str}
    (h : (Item.commonPrefix (pre ++ n ++ "/".toList)).Named pre) : NameOk n := by
  generalize hi : Item.commonPrefix (pre ++ n ++ "/".toList) = i at h
  cases h with
  | content => cases hi
  | commonPrefix m hm =>
    have := Item.commonPrefix.inj hi
    rw [List.append_left_inj, List.append_right_inj] at this
    exact this ▸ hm

/-- Items of one listing with the same name are the same: an object has no separator beyond the
prefix, and a common prefix has one. -/
theorem Bucket.eq_of_name {i j : Item} (hi : i ∈ bucket.list pre) (hj : j ∈ bucket.list pre)
    (h : i.name = j.name) : i = j := by
  have hno : ∀ m n s : Str, '/' ∉ m → pre ++ m ≠ pre ++ n ++ '/' :: s := by
    intro m n s hm he
    rw [List.append_assoc, List.append_right_inj] at he
    exact hm (he ▸ List.mem_append_right n List.mem_cons_self)
  cases i with
  | content name =>
    cases j with
    | content name' => exact congrArg Item.content h
    | commonPrefix name' =>
      obtain ⟨-, m, rfl, hm⟩ := bucket.mem_content.1 hi
      obtain ⟨n, -, -, -, rfl⟩ := bucket.mem_commonPrefix.1 hj
      exact absurd h (hno m n [] hm)
  | commonPrefix name =>
    cases j with
    | content name' =>
      obtain ⟨n, -, -, -, rfl⟩ := bucket.mem_commonPrefix.1 hi
      obtain ⟨-, m, rfl, hm⟩ := bucket.mem_content.1 hj
      exact absurd h.symm (hno m n [] hm)
    | commonPrefix name' => exact congrArg Item.commonPrefix h

/-- An item has a name. -/
theorem Bucket.name_pos (hkeys : [] ∉ bucket.keys) {i : Item} (hi : i ∈ bucket.list pre) :
    ([] : Str) < i.name := by
  have hne : i.name ≠ [] := by
    cases i with
    | content name =>
      rintro rfl
      exact hkeys (bucket.mem_content.1 hi).1
    | commonPrefix name =>
      obtain ⟨n, -, -, -, rfl⟩ := bucket.mem_commonPrefix.1 hi
      exact List.append_ne_nil_of_right_ne_nil _ (List.cons_ne_nil _ _)
  cases h : i.name with
  | nil => exact absurd h hne
  | cons c s => exact List.nil_lt_cons c s

/-- Sorting a listing keeps its items. -/
theorem Bucket.mem_sorted {i : Item} : i ∈ bucket.sorted pre ↔ i ∈ bucket.list pre := by
  rw [Bucket.sorted, List.mem_mergeSort, List.mem_dedup]

/-- A sorted listing is sorted by the names of its items. -/
theorem Bucket.sortedBy (bucket : Bucket) (pre : Str) :
    SortedBy Item.name (bucket.sorted pre) := by
  have htrans : ∀ a b c : Item, decide (a.name ≤ b.name) = true →
      decide (b.name ≤ c.name) = true → decide (a.name ≤ c.name) = true := fun a b c hab hbc =>
    decide_eq_true (le_trans (of_decide_eq_true hab) (of_decide_eq_true hbc))
  have htotal : ∀ a b : Item, (decide (a.name ≤ b.name) || decide (b.name ≤ a.name)) = true := by
    intro a b
    rw [Bool.or_eq_true, decide_eq_true_iff, decide_eq_true_iff]
    exact le_total a.name b.name
  have hle : (bucket.sorted pre).Pairwise fun a b : Item => decide (a.name ≤ b.name) = true :=
    List.pairwise_mergeSort htrans htotal _
  have hnodup : (bucket.sorted pre).Nodup :=
    (List.mergeSort_perm _ _).nodup_iff.2 (List.nodup_dedup _)
  refine (hle.and hnodup).imp_of_mem fun {a b} ha hb hab => ?_
  refine lt_of_le_of_ne (of_decide_eq_true hab.1) fun he => hab.2 ?_
  exact Bucket.eq_of_name (Bucket.mem_sorted.1 ha) (Bucket.mem_sorted.1 hb) he

/-- The items of a page are those of the sorted listing behind its marker. -/
theorem Bucket.mem_page {pageSize : Nat} {marker : Str} {i : Item} :
    i ∈ (bucket.page pageSize pre marker).nodes ↔
      i ∈ ExtremeS3.page Item.name (bucket.sorted pre) pageSize marker := by
  rw [Bucket.page, List.mem_append, List.mem_filter, List.mem_filter]
  cases i.isContent <;> simp

/-! ## What the nodes add -/

/-- The name of the item is in the directory, unless it is the name of the directory. -/
def Item.In (pre : Str) (d : S3Dir) (i : Item) : Prop :=
  ∀ n, NameOk n → (i = .content (pre ++ n) → (findKey n d.files).isSome) ∧
    (i = .commonPrefix (pre ++ n ++ "/".toList) → (findKey n d.subdirs).isSome)

/-- A directory that was filled with some of the items. -/
structure Bucket.Fills (bucket : Bucket) (pre : Str) (path : S3Path) (d : S3Dir) : Prop where
  info : d.info = path
  sorted : d.Sorted
  files : ∀ n, (findKey n d.files).isSome → NameOk n ∧ .content (pre ++ n) ∈ bucket.list pre
  subdirs : ∀ n e, findKey n d.subdirs = some e →
    NameOk n ∧ .commonPrefix (pre ++ n ++ "/".toList) ∈ bucket.list pre ∧
      e.info = derive path (n ++ "/".toList)

/-- Adding an item of the listing to a directory that has items of it leaves it so, with the item
added and none of the others lost. -/
theorem Bucket.Fills.addItem {d : S3Dir} (h : bucket.Fills pre path d)
    (hpath : IsDirPath pre path.path) {i : Item} (hnamed : i.Named pre)
    (hi : i ∈ bucket.list pre) :
    bucket.Fills pre path (addItem unlisted d i) ∧ i.In pre (ExtremeS3.addItem unlisted d i) ∧
      ∀ j : Item, j.In pre d → j.In pre (ExtremeS3.addItem unlisted d i) := by
  cases hnamed with
  | content m hm hne =>
    by_cases hnil : m = []
    · -- the directory itself
      subst hnil
      rw [List.append_nil] at hne hi ⊢
      obtain ⟨s, hs⟩ := hpath.eq_nil_or.resolve_left hne
      have hskip : ExtremeS3.addItem unlisted d (.content pre) = d := by
        rw [ExtremeS3.addItem, if_pos (by rw [hs, List.getLast?_append]; rfl)]
      rw [hskip]
      refine ⟨h, fun n hn => ⟨fun he => ?_, fun he => by cases he⟩, fun j hj => hj⟩
      exact absurd (List.self_eq_append_right.1 (Item.content.inj he)) hn.ne_nil
    · have hleaf : extractLeaf (pre ++ m) = m := by rw [extractLeaf_append hpath hm, if_neg hnil]
      have hlast : (pre ++ m).getLast? ≠ some '/' := by
        intro hl
        rw [List.getLast?_append_of_ne_nil _ hnil] at hl
        exact hm (List.mem_of_getLast? hl)
      have hadd : ExtremeS3.addItem unlisted d (.content (pre ++ m)) = .node d.info
          (upsert m (fun _ => ⟨derive d.info m⟩) d.files) d.subdirs := by
        rw [ExtremeS3.addItem, if_neg hlast, hleaf]
      have hfind : ∀ n,
          (findKey n (upsert m (fun _ => (⟨derive d.info m⟩ : S3File)) d.files)).isSome ↔
            n = m ∨ (findKey n d.files).isSome := by
        intro n
        rw [findKey_upsert h.sorted.1]
        split <;> simp [*]
      rw [hadd]
      refine ⟨⟨h.info, ⟨h.sorted.1.upsert _ _, h.sorted.2⟩, fun n hn => ?_, h.subdirs⟩,
        fun n hn => ⟨fun he => ?_, fun he => by cases he⟩,
        fun j hj n hn => ⟨fun he => (hfind n).2 (.inr ((hj n hn).1 he)), (hj n hn).2⟩⟩
      · rcases (hfind n).1 hn with rfl | hn
        · exact ⟨⟨hnil, hm⟩, hi⟩
        · exact h.files n hn
      · exact (hfind n).2 (.inl (List.append_cancel_left (Item.content.inj he)).symm)
  | commonPrefix m hm =>
    have hleaf : extractLeaf (pre ++ m ++ "/".toList).dropLast = m := by
      rw [show (pre ++ m ++ "/".toList).dropLast = pre ++ m from List.dropLast_concat,
        extractLeaf_append hpath hm.slash, if_neg hm.ne_nil]
    have hadd : ExtremeS3.addItem unlisted d (.commonPrefix (pre ++ m ++ "/".toList)) =
        .node d.info d.files
          (upsert m (fun _ => unlisted (derive d.info (m ++ "/".toList))) d.subdirs) := by
      rw [ExtremeS3.addItem, hleaf]
    have hfind : ∀ n, findKey n (upsert m (fun _ => unlisted (derive d.info (m ++ "/".toList)))
        d.subdirs) = if n = m then some (unlisted (derive d.info (m ++ "/".toList)))
          else findKey n d.subdirs := by
      intro n
      rw [findKey_upsert h.sorted.2]
      by_cases hn : n = m
      · rw [if_pos hn, if_pos hn]
      · rw [if_neg hn, if_neg hn]
    rw [hadd]
    refine ⟨⟨h.info, ⟨h.sorted.1, h.sorted.2.upsert _ _⟩, h.files, fun n e hn => ?_⟩,
      fun n hn => ⟨(fun he => by cases he), fun he => ?_⟩,
      fun j hj n hn => ⟨(hj n hn).1, fun he => ?_⟩⟩
    · rw [Dir.subdirs_node, hfind] at hn
      split at hn
      · next he =>
        subst he
        cases hn
        exact ⟨hm, hi, by rw [h.info]; rfl⟩
      · exact h.subdirs n e hn
    · have he : n = m := by
        have := Item.commonPrefix.inj he
        rw [List.append_left_inj, List.append_right_inj] at this
        exact this.symm
      rw [Dir.subdirs_node, hfind, if_pos he]
      rfl
    · rw [Dir.subdirs_node, hfind]
      split
      · rfl
      · exact (hj n hn).2 he

/-- What the nodes of a page add. -/
theorem Bucket.Fills.foldl_addItem (hkeys : bucket.PlainKeys) (hpath : IsDirPath pre path.path)
    {nodes : List Item} (hnodes : nodes ⊆ bucket.list pre) {d : S3Dir}
    (h : bucket.Fills pre path d) :
    bucket.Fills pre path (nodes.foldl (ExtremeS3.addItem unlisted) d) ∧
      ∀ i : Item, i ∈ nodes ∨ i.In pre d →
        i.In pre (nodes.foldl (ExtremeS3.addItem unlisted) d) := by
  induction nodes generalizing d with
  | nil => exact ⟨h, fun i hi => hi.resolve_left List.not_mem_nil⟩
  | cons i nodes ih =>
    have hi := hnodes List.mem_cons_self
    obtain ⟨hfills, hin, hkeep⟩ := h.addItem hpath (hkeys.named hpath hi) hi
    obtain ⟨hfills', hin'⟩ := ih (List.subset_of_cons_subset hnodes) hfills
    refine ⟨hfills', fun j hj => hin' j ?_⟩
    rcases hj with hj | hj
    · rcases List.mem_cons.1 hj with rfl | hj
      · exact .inr hin
      · exact .inl hj
    · exact .inr (hkeep j hj)

/-! ## The loop over the pages -/

/-- The directory has these items of the listing added to it, in this order. -/
structure Bucket.Added (bucket : Bucket) (pre : Str) (start : S3Dir) (nodes : List Item)
    (d : S3Dir) : Prop where
  subset : nodes ⊆ bucket.list pre
  eq : d = nodes.foldl (addItem unlisted) start

/-- How the loop over the pages ends: with all items added, or at a request that throws. -/
def Bucket.EndsAdded (bucket : Bucket) (pre : Str) (start : S3Dir) (fails : Nat → Option Thrown)
    (requests : Nat) : Except (Thrown × ListState) ListState → Prop
  | .ok s => ∃ nodes, bucket.Added pre start nodes s.target ∧ ∀ i ∈ bucket.list pre, i ∈ nodes
  | .error (e, s) => (∃ nodes, bucket.Added pre start nodes s.target) ∧
    ∃ n, requests ≤ n ∧ n < s.requests ∧ fails n = some e

/-- How the loop over the pages ends: with all items, or at a request that throws. -/
def Bucket.Ends (bucket : Bucket) (pre : Str) (path : S3Path) (fails : Nat → Option Thrown)
    (requests : Nat) : Except (Thrown × ListState) ListState → Prop
  | .ok s => bucket.Fills pre path s.target ∧ ∀ i ∈ bucket.list pre, i.In pre s.target
  | .error (e, s) => bucket.Fills pre path s.target ∧
    ∃ n, requests ≤ n ∧ n < s.requests ∧ fails n = some e

section

variable {pageSize : Nat} {fails : Nat → Option Thrown}

/-- What the loop keeps: what is not beyond the marker was added. -/
structure ListInv (bucket : Bucket) (pre : Str) (start : S3Dir) (requests : Nat) (s : ListState) :
    Prop where
  requests : requests ≤ s.requests
  added : ∃ nodes, bucket.Added pre start nodes s.target ∧
    ∀ i ∈ bucket.list pre, ¬ s.marker < i.name → i ∈ nodes

/-- A page goes on with the loop, or ends it. -/
theorem listPage_step (hpre : path.path.drop 1 = pre) (hsize : 1 ≤ pageSize) {start : S3Dir}
    {requests : Nat} {s : ListState} (h : ListInv bucket pre start requests s) :
    (∃ s', (listPage (bucket.answer pageSize fails) path s).Evals (.ok (.inl s')) ∧
      ListInv bucket pre start requests s' ∧
      (after Item.name (bucket.sorted pre) s'.marker).length <
        (after Item.name (bucket.sorted pre) s.marker).length) ∨
    (∃ s', (listPage (bucket.answer pageSize fails) path s).Evals (.ok (.inr s')) ∧
      bucket.EndsAdded pre start fails requests (.ok s')) ∨
    ∃ e, (listPage (bucket.answer pageSize fails) path s).Evals (.error e) ∧
      bucket.EndsAdded pre start fails requests (.error e) := by
  obtain ⟨hrequests, nodes, hadded, hbefore⟩ := h
  cases hfails : fails s.requests with
  | some e =>
    refine .inr (.inr ⟨(e, { s with requests := s.requests + 1 }), ?_, ⟨nodes, hadded⟩, s.requests,
      hrequests, Nat.lt_succ_self _, hfails⟩)
    rw [listPage, Bucket.answer, hfails]
    exact Prog.evals_throw _
  | none =>
    have hrequests' := Nat.le_succ_of_le hrequests
    set page := bucket.page pageSize pre s.marker with hpage
    have hmem : ∀ i ∈ page.nodes, i ∈ bucket.list pre := fun i hi =>
      Bucket.mem_sorted.1 (mem_after.1 (mem_after_of_mem_page (Bucket.mem_page.1 hi))).1
    cases hlast : page.nodes.getLast? with
    | none =>
      -- nothing is beyond the marker
      have hnil := List.getLast?_eq_none_iff.1 hlast
      refine .inr (.inl ⟨{ s with requests := s.requests + 1 }, ?_, nodes, hadded, fun i hi => ?_⟩)
      · rw [listPage, Bucket.answer, hfails, hpre]
        dsimp only
        rw [← hpage, hlast]
        exact Prog.evals_pure _
      · refine hbefore i hi fun hlt => ?_
        have hafter := mem_after.2 ⟨Bucket.mem_sorted.2 hi, hlt⟩
        obtain ⟨j, hj⟩ := List.exists_mem_of_length_pos (l := ExtremeS3.page Item.name
          (bucket.sorted pre) pageSize s.marker) (by
            have := List.length_pos_of_mem hafter
            rw [ExtremeS3.page, List.length_take]
            omega)
        have := Bucket.mem_page.2 hj
        rw [← hpage, hnil] at this
        cases this
    | some last =>
      have hlastpage := Bucket.mem_page.1 (List.mem_of_getLast? hlast)
      have hadded' : bucket.Added pre start (nodes ++ page.nodes)
          (page.nodes.foldl (addItem unlisted) s.target) :=
        ⟨List.append_subset.2 ⟨hadded.subset, hmem⟩, by rw [List.foldl_append, ← hadded.eq]⟩
      set s' : ListState :=
        ⟨page.nodes.foldl (addItem unlisted) s.target, last.name, s.requests + 1⟩ with hs'
      have heval : (listPage (bucket.answer pageSize fails) path s).Evals
          (.ok (if page.isTruncated then .inl s' else .inr s')) := by
        rw [listPage, Bucket.answer, hfails, hpre]
        dsimp only
        rw [← hpage, hlast]
        exact Prog.evals_pure _
      have hlisted : ∀ i ∈ bucket.list pre, ¬ s.marker < i.name ∨ i ∈ page.nodes →
          i ∈ nodes ++ page.nodes := fun i hi hor =>
        List.mem_append.2 (hor.imp_left (hbefore i hi))
      by_cases htrunc : page.isTruncated = true
      · rw [if_pos htrunc] at heval
        refine .inl ⟨s', heval, ⟨hrequests', _, hadded', fun i hi hle => hlisted i hi ?_⟩,
          length_after_lt hlastpage⟩
        by_cases hlt : s.marker < i.name
        · exact .inr (Bucket.mem_page.2 (mem_page_of_le (bucket.sortedBy pre) hlastpage
            (Bucket.mem_sorted.2 hi) hlt (not_lt.1 hle)))
        · exact .inl hlt
      · rw [if_neg htrunc] at heval
        have hall : (after Item.name (bucket.sorted pre) s.marker).length ≤ pageSize := by
          by_contra hgt
          exact htrunc (decide_eq_true (by omega))
        refine .inr (.inl ⟨s', heval, _, hadded', fun i hi => hlisted i hi ?_⟩)
        by_cases hlt : s.marker < i.name
        · refine .inr (Bucket.mem_page.2 ?_)
          rw [page_eq_after hall]
          exact mem_after.2 ⟨Bucket.mem_sorted.2 hi, hlt⟩
        · exact .inl hlt

/-- Every listing of a bucket ends, with just the items of the listing added, each at least once. -/
theorem listFilesShallow_added (hkeys : [] ∉ bucket.keys) (hsize : 1 ≤ pageSize)
    (fails : Nat → Option Thrown) (path : S3Path) (target : Option S3Dir) (tryToRoot : Bool)
    (requests : Nat) :
    ∃ r, (listFilesShallow (bucket.answer pageSize fails) path target tryToRoot requests).Evals r ∧
      bucket.EndsAdded (path.path.drop 1)
        (target.getD (unlisted (if tryToRoot then toRoot path else path))) fails requests r :=
  Prog.exists_evals_loop_except (I := ListInv bucket (path.path.drop 1) _ requests)
    (fun s => (after Item.name (bucket.sorted (path.path.drop 1)) s.marker).length)
    (fun _ hs => listPage_step rfl hsize hs)
    ⟨Nat.le_refl _, [], ⟨List.nil_subset _, rfl⟩, fun _ hi hle =>
      absurd (Bucket.name_pos hkeys hi) hle⟩

/-- Every listing ends, from a directory that was filled in part too. -/
theorem listFilesShallow_ends (hkeys : bucket.PlainKeys) (hpath : IsDirPath pre path.path)
    (hsize : 1 ≤ pageSize) {d : S3Dir} (hd : bucket.Fills pre path d)
    (fails : Nat → Option Thrown) (tryToRoot : Bool) (requests : Nat) :
    ∃ r, (listFilesShallow (bucket.answer pageSize fails) path (some d) tryToRoot requests).Evals
        r ∧ bucket.Ends pre path fails requests r := by
  have hpre : path.path.drop 1 = pre := by rw [hpath.eq_cons]; rfl
  obtain ⟨r, hr, hends⟩ := listFilesShallow_added (fun hnil => (hkeys [] hnil).1 rfl) hsize fails path
    (some d) tryToRoot requests
  rw [hpre] at hends
  refine ⟨r, hr, ?_⟩
  cases r with
  | ok s =>
    obtain ⟨nodes, hadded, hall⟩ := hends
    obtain ⟨hfills, hin⟩ := hd.foldl_addItem hkeys hpath hadded.subset
    rw [Bucket.Ends, hadded.eq]
    exact ⟨hfills, fun i hi => hin i (.inl (hall i hi))⟩
  | error x =>
    obtain ⟨e, s⟩ := x
    obtain ⟨⟨nodes, hadded⟩, hfailed⟩ := hends
    rw [Bucket.Ends, hadded.eq]
    exact ⟨(hd.foldl_addItem hkeys hpath hadded.subset).1, hfailed⟩

/-! ## Whole listings -/

/-- The directory has just the names of the listing, each once. -/
structure Bucket.Lists (bucket : Bucket) (path : S3Path) (d : S3Dir) : Prop where
  info : d.info = path
  sorted : d.Sorted
  files : ∀ n, (findKey n d.files).isSome ↔
    n ≠ [] ∧ '/' ∉ n ∧ path.path.drop 1 ++ n ∈ bucket.keys
  subdirs : ∀ n, (findKey n d.subdirs).isSome ↔
    '/' ∉ n ∧ ∃ rest, path.path.drop 1 ++ n ++ '/' :: rest ∈ bucket.keys

/-- A request throws what is not retried, or so many throw that no attempt is left. -/
def GivesUp (fails : Nat → Option Thrown) : Prop :=
  (∃ n e, fails n = some e ∧ e.retried = false) ∨
    ∃ ns : List Nat, ns.Nodup ∧ ns.length = maxAttempts ∧ ∀ n ∈ ns, (fails n).isSome

/-- A directory that has items of the listing, and has them all, lists it. -/
theorem Bucket.Fills.lists (hkeys : bucket.PlainKeys)
    (hpath : IsDirPath (path.path.drop 1) path.path) {d : S3Dir}
    (h : bucket.Fills (path.path.drop 1) path d)
    (hall : ∀ i ∈ bucket.list (path.path.drop 1), i.In (path.path.drop 1) d) :
    bucket.Lists path d where
  info := h.info
  sorted := h.sorted
  files n := by
    constructor
    · intro hn
      obtain ⟨hok, hmem⟩ := h.files n hn
      exact ⟨hok.ne_nil, hok.slash, (bucket.mem_content.1 hmem).1⟩
    · rintro ⟨hne, hslash, hkey⟩
      exact (hall _ (bucket.mem_content.2 ⟨hkey, n, rfl, hslash⟩) n ⟨hne, hslash⟩).1 rfl
  subdirs n := by
    constructor
    · intro hn
      obtain ⟨e, he⟩ := Option.isSome_iff_exists.1 hn
      obtain ⟨hok, hmem, -⟩ := h.subdirs n e he
      obtain ⟨m, rest, hkey, -, heq⟩ := bucket.mem_commonPrefix.1 hmem
      rw [List.append_left_inj, List.append_right_inj] at heq
      exact ⟨hok.slash, rest, heq ▸ hkey⟩
    · rintro ⟨hslash, rest, hkey⟩
      have hmem := bucket.mem_commonPrefix.2 ⟨n, rest, hkey, hslash, rfl⟩
      exact (hall _ hmem n (hkeys.named hpath hmem).nameOk).2 rfl

/-- A directory that is not listed has no item. -/
theorem fills_unlisted (bucket : Bucket) : bucket.Fills pre path (unlisted path) where
  info := rfl
  sorted := Dir.sorted_empty path
  files _ h := by cases h
  subdirs _ _ h := by cases h

/-- What the loop over the attempts keeps. -/
structure AttemptInv (bucket : Bucket) (path : S3Path) (fails : Nat → Option Thrown)
    (s : Nat × S3Dir × Nat) : Prop where
  attempts : s.1 < maxAttempts
  fills : bucket.Fills (path.path.drop 1) path s.2.1
  failed : ∃ ns : List Nat, ns.Nodup ∧ ns.length = s.1 ∧ ∀ n ∈ ns, n < s.2.2 ∧ (fails n).isSome

/-- An attempt returns the whole listing, is followed by another one, or is the last. -/
theorem attemptListSubdir_step (hkeys : bucket.PlainKeys)
    (hpath : IsDirPath (path.path.drop 1) path.path) (hsize : 1 ≤ pageSize)
    {s : Nat × S3Dir × Nat} (h : AttemptInv bucket path fails s) :
    (∃ s', (attemptListSubdir (bucket.answer pageSize fails) path s).Evals (.ok (.inl s')) ∧
      AttemptInv bucket path fails s' ∧ maxAttempts - s'.1 < maxAttempts - s.1) ∨
    ∃ r, (attemptListSubdir (bucket.answer pageSize fails) path s).Evals (.ok (.inr r)) ∧
      (r = none → GivesUp fails) ∧ ∀ d tasks, r = some (d, tasks) →
        bucket.Lists path d ∧ tasks = d.subdirs.map fun e => derive path (e.1 ++ "/".toList) := by
  obtain ⟨f, d, requests⟩ := s
  obtain ⟨hf, hfills, ns, hnodup, hlen, hns⟩ := h
  dsimp only at hf hlen hns ⊢
  obtain ⟨r, hr, hends⟩ :=
    listFilesShallow_ends hkeys hpath hsize hfills fails false requests
  cases r with
  | ok t =>
    refine .inr ⟨_, hr.attempt.bind (Prog.evals_pure _), (fun hn => by cases hn),
      fun d' tasks hd => ?_⟩
    cases hd
    refine ⟨hends.1.lists hkeys hpath hends.2, List.map_congr_left fun e he => ?_⟩
    exact (hends.1.subdirs e.1 e.2 (hends.1.sorted.2.findKey_eq_some.2 he)).2.2
  | error x =>
    obtain ⟨e, t⟩ := x
    obtain ⟨hfills', n, hle, hlt, hn⟩ := hends
    have hns' : ∀ m ∈ n :: ns, m < t.requests ∧ (fails m).isSome := fun m hm => by
      rcases List.mem_cons.1 hm with rfl | hm
      · exact ⟨hlt, by rw [hn]; rfl⟩
      · exact ⟨(hns m hm).1.trans (lt_of_le_of_lt hle hlt), (hns m hm).2⟩
    have hnodup' : (n :: ns).Nodup :=
      List.nodup_cons.2 ⟨fun hm => absurd (hns n hm).1 (Nat.not_lt.2 hle), hnodup⟩
    have heval : (Prog.attempt _ : Prog Empty _).Evals _ := hr.attempt
    cases hafter : afterAttempt f (some e) with
    | next g =>
      obtain ⟨rfl, hg⟩ := afterAttempt_next_lt hafter
      refine .inl ⟨(f + 1, t.target, t.requests), heval.bind ?_,
        ⟨hg, hfills', n :: ns, hnodup', by rw [List.length_cons, hlen], hns'⟩, by omega⟩
      dsimp only
      rw [hafter]
      exact Prog.evals_pure _
    | ended fail =>
      refine .inr ⟨none, heval.bind ?_, fun _ => ?_, fun d' tasks hd => by cases hd⟩
      · dsimp only
        rw [hafter]
        exact Prog.evals_pure _
      · by_cases hretried : e.retried = false
        · exact .inl ⟨n, e, hn, hretried⟩
        · refine .inr ⟨n :: ns, hnodup', ?_, fun m hm => (hns' m hm).2⟩
          rw [List.length_cons, hlen]
          rw [Bool.not_eq_false] at hretried
          by_contra hne
          rw [afterAttempt, hretried, Bool.true_and, if_pos (decide_eq_true (by omega))] at hafter
          cases hafter

/-- Listing a directory by pages of any size ends with just the names under its path, each once;
so does a `list_subdir_task` whatever requests fail before it is given up, and it schedules a task
for each subdirectory. -/
theorem listing_complete (hkeys : bucket.PlainKeys) (habsolute : path.path.head? = some '/')
    (hslash : path.path.getLast? = some '/') (hsize : 1 ≤ pageSize) (tryToRoot : Bool)
    (fails : Nat → Option Thrown) :
    (∃ s, (listFilesShallow (bucket.answer pageSize fun _ => none) path none tryToRoot 0).Evals
      (.ok s) ∧ bucket.Lists path s.target) ∧
    ∃ r, (listSubdirTask (bucket.answer pageSize fails) path).Evals (.ok r) ∧
      (r = none → GivesUp fails) ∧ ∀ d tasks, r = some (d, tasks) →
        bucket.Lists path d ∧ tasks = d.subdirs.map fun e => derive path (e.1 ++ "/".toList) := by
  have hpath : IsDirPath (path.path.drop 1) path.path := by
    obtain ⟨rest, hrest⟩ := List.head?_eq_some_iff.1 habsolute
    exact ⟨by rw [hrest]; rfl, hslash⟩
  constructor
  · obtain ⟨r, hr, hends⟩ := listFilesShallow_ends hkeys hpath hsize (fills_unlisted bucket)
      (fun _ => none) tryToRoot 0
    have hroot : toRoot path = path := if_neg (not_not_intro hslash)
    cases r with
    | ok s =>
      refine ⟨s, ?_, hends.1.lists hkeys hpath hends.2⟩
      rw [listFilesShallow, Option.getD_none, hroot, ite_self]
      exact hr
    | error e =>
      obtain ⟨-, n, -, -, hn⟩ := hends
      cases hn
  · exact Prog.exists_evals_loop (I := AttemptInv bucket path fails)
      (fun s => maxAttempts - s.1) (fun _ hs => attemptListSubdir_step hkeys hpath hsize hs)
      ⟨show 0 < maxAttempts by decide, fills_unlisted bucket, [], List.nodup_nil, rfl,
        fun n hn => by cases hn⟩

end

/-- A bucket with an object in its root and one below. -/
def smallBucket : Bucket := .ofKeys ["a/x".toList, "b".toList]

/-- The second request fails. -/
def failsOnce (n : Nat) : Option Thrown := if n = 1 then some (.es3 .errWarn) else none

/-- A listing that fails once is not given up. -/
theorem not_givesUp_failsOnce : ¬ GivesUp failsOnce := by
  rintro (⟨n, e, he, hretried⟩ | ⟨ns, hnodup, hlen, hns⟩)
  · rw [failsOnce] at he
    split at he
    · cases he
      cases hretried
    · cases he
  · have hle := length_le_of_nodup_lt (n := 2) hnodup fun n hn => by
      have hsome := hns n hn
      rw [failsOnce] at hsome
      split at hsome
      · omega
      · cases hsome
    rw [hlen] at hle
    exact absurd hle (by decide)

/-- `listing_complete` for pages of one item, with a request that fails. -/
theorem listing_complete_small : ∃ d tasks,
    (listSubdirTask (smallBucket.answer 1 failsOnce)
      ⟨"s3".toList, "b".toList, "/".toList⟩).Evals (.ok (some (d, tasks))) ∧
    (findKey "b".toList d.files).isSome ∧ (findKey "a".toList d.subdirs).isSome := by
  have hkeys : smallBucket.PlainKeys := by
    intro key hkey
    rcases List.mem_cons.1 hkey with rfl | hkey
    · decide
    · obtain rfl := List.mem_singleton.1 hkey
      decide
  obtain ⟨-, r, hr, hnone, hlists⟩ := listing_complete hkeys
    (show (⟨"s3".toList, "b".toList, "/".toList⟩ : S3Path).path.head? = some '/' from rfl) rfl
    (Nat.le_refl 1) false failsOnce
  cases r with
  | none => exact absurd (hnone rfl) not_givesUp_failsOnce
  | some r =>
    obtain ⟨hd, -⟩ := hlists r.1 r.2 rfl
    refine ⟨r.1, r.2, hr, (hd.files _).2 ⟨by decide, by decide, ?_⟩,
      (hd.subdirs _).2 ⟨by decide, "x".toList, ?_⟩⟩
    · exact List.mem_cons_of_mem _ List.mem_cons_self
    · exact List.mem_cons_self

end ExtremeS3
