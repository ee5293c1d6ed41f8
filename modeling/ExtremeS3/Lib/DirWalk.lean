import ExtremeS3.Lib.Dir
import ExtremeS3.Lib.Machine
import Mathlib.Data.Set.Card
import Mathlib.Data.Set.Finite.Lattice

/-!
# Trees that grow by tasks

A task fills one directory of a shared tree, and schedules a task for each directory that is in it
then. Which task runs next is open. `Grown` is what every order keeps: where a task is pending the
tree has a leaf, and everywhere else it shows what the whole tree shows. So the tree in the end is
the one that a recursion would have built (`Growing.tree_eq`), each task has a directory of its own
(`Growing.nodup`), and there are no more tasks than directories (`Growing.length_le`).
-/

namespace ExtremeS3

namespace Dir

variable {K : Type u} {ι : Type v} {φ : Type w}

/-- A directory that nothing is known of. -/
def leaf (i : ι) : Dir K ι φ := .node i [] []

/-- Replace every subdirectory. -/
def mapSubdirs (g : Dir K ι φ → Dir K ι φ) (d : Dir K ι φ) : Dir K ι φ :=
  .node d.info d.files (d.subdirs.map fun e => (e.1, g e.2))

/-- What a directory shows by itself. -/
def head (d : Dir K ι φ) : ι × List (K × φ) × List K := (d.info, d.files, d.subdirs.map Prod.fst)

@[simp] theorem head_mapSubdirs (g : Dir K ι φ → Dir K ι φ) (d : Dir K ι φ) :
    (d.mapSubdirs g).head = d.head := by
  simp [head, mapSubdirs, Function.comp_def]

variable [LinearOrder K]

/-- Change the directory at a relative path in place. -/
def modifyAt (f : Dir K ι φ → Dir K ι φ) : List K → Dir K ι φ → Dir K ι φ
  | [], d => f d
  | n :: p, .node i fs ds =>
    .node i fs (ds.map fun e => if e.1 = n then (e.1, modifyAt f p e.2) else e)

/-- A subdirectory is looked up in a mapped directory as in the directory, and then mapped. -/
theorem findKey_mapSubdirs (g : Dir K ι φ → Dir K ι φ) (n : K) (d : Dir K ι φ) :
    findKey n (d.mapSubdirs g).subdirs = (findKey n d.subdirs).map g := by
  unfold mapSubdirs
  rw [subdirs_node]
  induction d.subdirs with
  | nil => rfl
  | cons e ds ih =>
    obtain ⟨m, d⟩ := e
    rw [List.map_cons, findKey_cons, findKey_cons, ih]
    split <;> rfl

/-- Changing the subdirectory of a name changes what is found under that name, and nothing else. -/
theorem findKey_modify (g : Dir K ι φ → Dir K ι φ) (n m : K) (ds : List (K × Dir K ι φ)) :
    findKey m (ds.map fun e => if e.1 = n then (e.1, g e.2) else e) =
      if m = n then (findKey m ds).map g else findKey m ds := by
  induction ds with
  | nil => simp
  | cons e ds ih =>
    obtain ⟨k, d⟩ := e
    by_cases hk : k = n
    · simp only [List.map_cons, if_pos hk, findKey_cons, ih]
      by_cases hm : m = k
      · simp [hm, hk]
      · simp [hm]
    · simp only [List.map_cons, if_neg hk, findKey_cons, ih]
      by_cases hm : m = k
      · simp [hm, hk]
      · simp [hm]

/-- A change further down is seen from the first name on, and on the paths through it only. -/
theorem dirAt_modifyAt_cons (f : Dir K ι φ → Dir K ι φ) (n m : K) (p q : List K) (d : Dir K ι φ) :
    dirAt (m :: q) (modifyAt f (n :: p) d) =
      if m = n then (findKey n d.subdirs).bind fun e => dirAt q (modifyAt f p e)
      else dirAt (m :: q) d := by
  obtain ⟨i, fs, ds⟩ := d
  rw [modifyAt, dirAt_cons, subdirs_node, findKey_modify (modifyAt f p)]
  by_cases hm : m = n
  · subst hm
    simp only [if_pos, subdirs_node]
    cases findKey m ds <;> rfl
  · simp only [if_neg hm]
    rfl

/-- Below the place that is changed, there is what it is changed to. -/
theorem dirAt_modifyAt_append (f : Dir K ι φ → Dir K ι φ) (p q : List K) (d : Dir K ι φ) :
    dirAt (p ++ q) (modifyAt f p d) = (dirAt p d).bind fun e => dirAt q (f e) := by
  induction p generalizing d with
  | nil => rfl
  | cons n p ih =>
    rw [List.cons_append, dirAt_modifyAt_cons, if_pos rfl, dirAt_cons, Option.bind_assoc]
    exact congrArg _ (funext ih)

/-- Beside the place that is changed, nothing changes. -/
theorem dirAt_modifyAt_of_not_prefix (f : Dir K ι φ → Dir K ι φ) {p q : List K} (hpq : ¬ p <+: q)
    (hqp : ¬ q <+: p) (d : Dir K ι φ) : dirAt q (modifyAt f p d) = dirAt q d := by
  induction p generalizing q d with
  | nil => exact absurd (List.nil_prefix) hpq
  | cons n p ih =>
    cases q with
    | nil => exact absurd (List.nil_prefix) hqp
    | cons m q =>
      rw [dirAt_modifyAt_cons]
      split
      · next hm =>
        subst hm
        rw [List.prefix_cons_inj] at hpq hqp
        rw [dirAt_cons]
        exact congrArg _ (funext (ih hpq hqp))
      · rfl

/-- Above the place that is changed, directories show the same. -/
theorem head_modifyAt (f : Dir K ι φ → Dir K ι φ) {p q : List K} (hpq : ¬ p <+: q)
    (d : Dir K ι φ) : (dirAt q (modifyAt f p d)).map head = (dirAt q d).map head := by
  induction p generalizing q d with
  | nil => exact absurd (List.nil_prefix) hpq
  | cons n p ih =>
    cases q with
    | nil =>
      obtain ⟨i, fs, ds⟩ := d
      have hkeys : (ds.map fun e => if e.1 = n then (e.1, modifyAt f p e.2) else e).map Prod.fst =
          ds.map Prod.fst := by
        rw [List.map_map]
        refine List.map_congr_left fun e _ => ?_
        dsimp only [Function.comp_apply]
        split <;> rfl
      simp [modifyAt, head, hkeys]
    | cons m q =>
      rw [dirAt_modifyAt_cons]
      split
      · next hm =>
        subst hm
        rw [List.prefix_cons_inj] at hpq
        rw [dirAt_cons]
        cases findKey m d.subdirs with
        | none => rfl
        | some e => exact ih hpq e
      · rfl

/-- A tree is determined by what its directories show. -/
theorem ext_head {t d : Dir K ι φ} (hd : d.Everywhere Sorted)
    (h : ∀ p, (dirAt p t).map head = (dirAt p d).map head) : t = d := by
  induction d using Dir.induct generalizing t with
  | node i fs ds ih =>
    obtain ⟨i', fs', ds'⟩ := t
    have hhead := h []
    simp only [dirAt_nil, Option.map_some, head, info_node, files_node, subdirs_node,
      Option.some.injEq, Prod.mk.injEq] at hhead
    obtain ⟨rfl, rfl, hkeys⟩ := hhead
    have hs : ExtremeS3.Sorted ds := hd.root.2
    have hs' : ExtremeS3.Sorted ds' := by
      unfold ExtremeS3.Sorted
      rw [hkeys]
      exact hs
    have hbelow : ∀ n, findKey n ds' = findKey n ds := by
      intro n
      have hat := fun p => h (n :: p)
      simp only [dirAt_cons, subdirs_node] at hat
      cases hn : findKey n ds with
      | none =>
        rw [findKey_eq_none, hkeys, ← findKey_eq_none]
        exact hn
      | some e =>
        have hin : n ∈ ds'.map Prod.fst := by
          rw [hkeys, mem_keys, hn]
          rfl
        obtain ⟨e', he'⟩ := Option.isSome_iff_exists.1 (mem_keys.1 hin)
        rw [he', hn] at hat
        rw [he', ih n e (mem_of_findKey hn) (hd.child hn) hat]
    have hds : ds' = ds := by
      refine hs'.ext hs fun e => ?_
      obtain ⟨n, e⟩ := e
      rw [← hs'.findKey_eq_some, ← hs.findKey_eq_some, hbelow]
    rw [hds]

/-- Directories that show the same have the same files. -/
theorem fileAt_of_head {t d : Dir K ι φ} {p : List K}
    (h : (dirAt p t).map head = (dirAt p d).map head) (n : K) :
    fileAt (p ++ [n]) t = fileAt (p ++ [n]) d := by
  rw [fileAt_concat, fileAt_concat]
  cases ht : dirAt p t with
  | none =>
    rw [ht] at h
    rw [Option.map_eq_none_iff.1 h.symm]
  | some e =>
    rw [ht] at h
    obtain ⟨e', he', hhead⟩ := Option.map_eq_some_iff.1 h.symm
    have hfiles : e'.files = e.files := congrArg (·.2.1) hhead
    rw [he', Option.bind_some, Option.bind_some, hfiles]

/-- A tree has finitely many directories. -/
theorem finite_dirAt (d : Dir K ι φ) : {p | (dirAt p d).isSome}.Finite := by
  induction d using Dir.induct with
  | node i fs ds ih =>
    have hcover : {p | (dirAt p (.node i fs ds)).isSome} ⊆
        {[]} ∪ ⋃ e ∈ {e | e ∈ ds}, (fun p => e.1 :: p) '' {p | (dirAt p e.2).isSome} := by
      intro p hp
      cases p with
      | nil => exact .inl rfl
      | cons n p =>
        simp only [Set.mem_ofPred_eq, dirAt_cons, subdirs_node] at hp
        obtain ⟨e, he⟩ := Option.isSome_iff_exists.1 hp
        obtain ⟨d, hd, he⟩ := Option.bind_eq_some_iff.1 he
        refine .inr (Set.mem_biUnion (mem_of_findKey hd) ⟨p, ?_, rfl⟩)
        exact Option.isSome_iff_exists.2 ⟨e, he⟩
    refine Set.Finite.subset ((Set.finite_singleton _).union ?_) hcover
    exact Set.Finite.biUnion (List.finite_toSet ds) fun e he => (ih e.1 e.2 he).image _

end Dir

/-! ## The tasks -/

/-- A tree in which tasks are pending at some relative paths. -/
structure Growing (K : Type u) (ι : Type v) (φ : Type w) where
  tree : Dir K ι φ
  pending : List (List K)

namespace Growing

open Dir (leaf head modifyAt mapSubdirs)

variable {K : Type u} {ι : Type v} {φ : Type w} [LinearOrder K]

/-- What a task does: it fills its directory, and goes on to those in it unless it fails. -/
structure Filling (K : Type u) (ι : Type v) (φ : Type w) where
  fill : Dir K ι φ → Dir K ι φ
  goesOn : Dir K ι φ → Bool

/-- The paths of the directories in a directory. -/
def below (p : List K) (d : Dir K ι φ) : List (List K) := d.subdirs.map fun e => p ++ [e.1]

/-- The task at a path. -/
def perform (f : Filling K ι φ) (s : Growing K ι φ) (p : List K) : Option (Growing K ι φ) :=
  if p ∈ s.pending then
    (Dir.dirAt p s.tree).map fun d =>
      ⟨modifyAt f.fill p s.tree,
        s.pending.erase p ++ if f.goesOn d then below p (f.fill d) else []⟩
  else none

/-- A tree whose root is filled, with a task for each directory in it. -/
def start (root : Dir K ι φ) : Growing K ι φ := ⟨root, below [] root⟩

/-- The tasks in any order. -/
def machine (f : Filling K ι φ) (root : Dir K ι φ) : Machine (Growing K ι φ) (List K) where
  init s := s = start root
  step s p t := s.perform f p = some t

/-- A recursion that fills a directory, and the directories in it by itself. -/
structure Filling.Unfolds (f : Filling K ι φ) (full : ι → Dir K ι φ) : Prop where
  leaves : ∀ i n d, (n, d) ∈ (f.fill (leaf i)).subdirs → ∃ j, d = leaf j
  sorted : ∀ i, (f.fill (leaf i)).Sorted
  full : ∀ i, full i =
    if f.goesOn (leaf i) then mapSubdirs (fun d => full d.info) (f.fill (leaf i))
    else f.fill (leaf i)

variable {f : Filling K ι φ} {full : ι → Dir K ι φ} {goal root : Dir K ι φ}

/-- What every order of the tasks keeps: the tree has a leaf where a task is pending, and shows what
the whole tree shows everywhere else; the tasks done and pending have paths of their own. -/
structure Grown (full : ι → Dir K ι φ) (goal : Dir K ι φ) (ls : List (List K))
    (s : Growing K ι φ) : Prop where
  pending : ∀ p ∈ s.pending,
    ∃ i, Dir.dirAt p s.tree = some (leaf i) ∧ Dir.dirAt p goal = some (full i)
  shows : ∀ p, (∀ q ∈ s.pending, ¬ q <+: p) →
    (Dir.dirAt p s.tree).map head = (Dir.dirAt p goal).map head
  nodup : (ls ++ s.pending).Nodup
  performed : ∀ p ∈ ls, (Dir.dirAt p goal).isSome ∧ ∀ q ∈ s.pending, ¬ q <+: p

omit [LinearOrder K] in
/-- What is below a directory are the paths to its subdirectories. -/
theorem mem_below {p q : List K} {d : Dir K ι φ} :
    q ∈ below p d ↔ ∃ n e, (n, e) ∈ d.subdirs ∧ q = p ++ [n] := by
  constructor
  · intro h
    obtain ⟨e, he, rfl⟩ := List.mem_map.1 h
    exact ⟨e.1, e.2, he, rfl⟩
  · rintro ⟨n, e, he, rfl⟩
    exact List.mem_map.2 ⟨(n, e), he, rfl⟩

/-- In a sorted directory no path is below it twice. -/
theorem nodup_below {d : Dir K ι φ} (h : Sorted d.subdirs) (p : List K) : (below p d).Nodup := by
  have hmap : below p d = (d.subdirs.map Prod.fst).map fun n => p ++ [n] := by
    rw [List.map_map]
    rfl
  rw [hmap]
  exact h.nodup_keys.map fun n m hnm => by simpa using hnm

/-- Below a leaf there is nothing. -/
theorem Grown.dirAt_below {ls : List (List K)} {s : Growing K ι φ} (h : Grown full goal ls s)
    {p q : List K} (hp : p ∈ s.pending) (hpq : p <+: q) (hq : (Dir.dirAt q s.tree).isSome) :
    p = q := by
  obtain ⟨i, hi, -⟩ := h.pending p hp
  obtain ⟨r, rfl⟩ := hpq
  cases r with
  | nil => simp
  | cons n r =>
    rw [Dir.dirAt_append, hi] at hq
    cases hq

/-- Two tasks are pending at different places, none above the other. -/
theorem Grown.eq_of_prefix {ls : List (List K)} {s : Growing K ι φ} (h : Grown full goal ls s)
    {p q : List K} (hp : p ∈ s.pending) (hq : q ∈ s.pending) (hpq : p <+: q) : p = q := by
  obtain ⟨i, hi, -⟩ := h.pending q hq
  exact h.dirAt_below hp hpq (by rw [hi]; rfl)

/-- A task that is performed was pending at a leaf. -/
theorem Grown.perform_eq {ls : List (List K)} {s t : Growing K ι φ} (h : Grown full goal ls s)
    {p : List K} (hstep : s.perform f p = some t) :
    p ∈ s.pending ∧ ∃ i, Dir.dirAt p s.tree = some (leaf i) ∧ Dir.dirAt p goal = some (full i) ∧
      t = ⟨modifyAt f.fill p s.tree,
        s.pending.erase p ++ if f.goesOn (leaf i) then below p (f.fill (leaf i)) else []⟩ := by
  unfold perform at hstep
  split at hstep
  · next hp =>
    obtain ⟨i, hi, hgoal⟩ := h.pending p hp
    rw [hi] at hstep
    exact ⟨hp, i, hi, hgoal, (Option.some.inj hstep).symm⟩
  · cases hstep

/-- A task keeps the tree a part of the whole one. -/
theorem Grown.step (hf : f.Unfolds full) {ls : List (List K)} {s t : Growing K ι φ}
    (h : Grown full goal ls s) {p : List K} (hstep : s.perform f p = some t) :
    Grown full goal (ls ++ [p]) t := by
  obtain ⟨hp, i, hi, hgoal, rfl⟩ := h.perform_eq hstep
  have hpending : s.pending.Nodup := (List.nodup_append.1 h.nodup).2.1
  have hold : ∀ q ∈ s.pending.erase p, q ∈ s.pending ∧ ¬ p <+: q ∧ ¬ q <+: p := by
    intro q hq
    obtain ⟨hne, hq⟩ := (List.Nodup.mem_erase_iff hpending).1 hq
    exact ⟨hq, fun hpq => hne (h.eq_of_prefix hp hq hpq).symm, fun hqp => hne (h.eq_of_prefix hq hp hqp)⟩
  have hnew : ∀ q ∈ (if f.goesOn (leaf i) then below p (f.fill (leaf i)) else []),
      f.goesOn (leaf i) ∧ ∃ n e, findKey n (f.fill (leaf i)).subdirs = some e ∧ q = p ++ [n] := by
    intro q hq
    split at hq
    · next hgoes =>
      obtain ⟨n, e, he, rfl⟩ := mem_below.1 hq
      exact ⟨hgoes, n, e, (hf.sorted i).2.findKey_eq_some.2 he, rfl⟩
    · cases hq
  have hat : ∀ r, Dir.dirAt (p ++ r) (modifyAt f.fill p s.tree) = Dir.dirAt r (f.fill (leaf i)) := by
    intro r
    rw [Dir.dirAt_modifyAt_append, hi, Option.bind_some]
  have hsub : f.goesOn (leaf i) → ∀ n, findKey n (full i).subdirs =
      (findKey n (f.fill (leaf i)).subdirs).map fun d => full d.info := by
    intro hgoes n
    rw [hf.full i, if_pos hgoes]
    exact Dir.findKey_mapSubdirs (fun d => full d.info) n _
  constructor
  case pending =>
    intro q hq
    rcases List.mem_append.1 hq with hq | hq
    · obtain ⟨hq, hpq, hqp⟩ := hold q hq
      dsimp only
      rw [Dir.dirAt_modifyAt_of_not_prefix f.fill hpq hqp]
      exact h.pending q hq
    · obtain ⟨hgoes, n, e, he, rfl⟩ := hnew q hq
      obtain ⟨j, rfl⟩ := hf.leaves i n e (mem_of_findKey he)
      refine ⟨j, ?_, ?_⟩
      · rw [hat, Dir.dirAt_cons, he]
        rfl
      · rw [Dir.dirAt_append, hgoal, Option.bind_some, Dir.dirAt_cons, hsub hgoes, he]
        rfl
  case shows =>
    intro q hq
    dsimp only at hq ⊢
    by_cases hpq : p <+: q
    · obtain ⟨r, rfl⟩ := hpq
      rw [hat, Dir.dirAt_append, hgoal, Option.bind_some]
      cases hgoes : f.goesOn (leaf i) with
      | false =>
        have hfull := hf.full i
        rw [hgoes, if_neg (by simp)] at hfull
        rw [hfull]
      | true =>
        cases r with
        | nil =>
          have hfull := hf.full i
          rw [hgoes, if_pos rfl] at hfull
          rw [hfull]
          simp
        | cons n r =>
          -- no directory of this name, or its task would be pending
          have hnone : findKey n (f.fill (leaf i)).subdirs = none := by
            rw [findKey_eq_none]
            intro hn
            obtain ⟨e, he, rfl⟩ := List.mem_map.1 hn
            refine hq (p ++ [e.1]) (List.mem_append_right _ ?_) ⟨r, by simp⟩
            rw [if_pos hgoes]
            exact List.mem_map.2 ⟨e, he, rfl⟩
          rw [Dir.dirAt_cons, Dir.dirAt_cons, hsub hgoes, hnone]
          rfl
    · rw [Dir.head_modifyAt f.fill hpq]
      refine h.shows q fun q' hq' => ?_
      by_cases hne : q' = p
      · exact hne ▸ hpq
      · exact hq q' (List.mem_append_left _ ((List.Nodup.mem_erase_iff hpending).2 ⟨hne, hq'⟩))
  case nodup =>
    have hperm : (ls ++ [p] ++ s.pending.erase p).Perm (ls ++ s.pending) := by
      rw [List.append_assoc]
      exact .append_left ls (List.perm_cons_erase hp).symm
    dsimp only
    rw [← List.append_assoc, List.nodup_append]
    refine ⟨hperm.nodup_iff.2 h.nodup, ?_, ?_⟩
    · split
      · exact nodup_below (hf.sorted i).2 p
      · exact List.nodup_nil
    · rintro a ha b hb rfl
      obtain ⟨-, n, e, -, rfl⟩ := hnew _ hb
      rcases List.mem_append.1 (hperm.mem_iff.1 ha) with ha | ha
      · exact (h.performed _ ha).2 p hp (List.prefix_append p [n])
      · simpa using h.eq_of_prefix hp ha (List.prefix_append p [n])
  case performed =>
    intro q hq
    rcases List.mem_append.1 hq with hq | hq
    · obtain ⟨hsome, hbelow⟩ := h.performed q hq
      refine ⟨hsome, fun q' hq' => ?_⟩
      rcases List.mem_append.1 hq' with hq' | hq'
      · exact hbelow q' (hold q' hq').1
      · obtain ⟨-, n, e, -, rfl⟩ := hnew q' hq'
        exact fun hle => hbelow p hp ((List.prefix_append p [n]).trans hle)
    · rw [List.mem_singleton.1 hq]
      refine ⟨by rw [hgoal]; rfl, fun q' hq' => ?_⟩
      rcases List.mem_append.1 hq' with hq' | hq'
      · exact (hold q' hq').2.2
      · obtain ⟨-, n, e, -, rfl⟩ := hnew q' hq'
        exact fun hle => absurd hle.length_le (by simp)

/-- In the beginning there is a leaf for each directory of the root. -/
theorem grown_start (hleaves : ∀ n d, (n, d) ∈ root.subdirs → ∃ j, d = leaf j)
    (hsorted : Sorted root.subdirs) :
    Grown full (mapSubdirs (fun d => full d.info) root) [] (start root) := by
  have hbelow : ∀ q ∈ below [] root, ∃ n e, findKey n root.subdirs = some e ∧ q = [n] := by
    intro q hq
    obtain ⟨n, e, he, rfl⟩ := mem_below.1 hq
    exact ⟨n, e, hsorted.findKey_eq_some.2 he, rfl⟩
  have hgoal : ∀ n, findKey n (mapSubdirs (fun d => full d.info) root).subdirs =
      (findKey n root.subdirs).map fun d => full d.info :=
    fun n => Dir.findKey_mapSubdirs (fun d => full d.info) n root
  constructor
  case pending =>
    intro q hq
    obtain ⟨n, e, he, rfl⟩ := hbelow q hq
    obtain ⟨j, rfl⟩ := hleaves n e (mem_of_findKey he)
    refine ⟨j, ?_, ?_⟩
    · rw [start, Dir.dirAt_cons, he]
      rfl
    · rw [Dir.dirAt_cons, hgoal, he]
      rfl
  case shows =>
    intro q hq
    cases q with
    | nil => simp [start]
    | cons n q =>
      have hnone : findKey n root.subdirs = none := by
        rw [findKey_eq_none]
        intro hn
        obtain ⟨e, he, rfl⟩ := List.mem_map.1 hn
        exact hq [e.1] (List.mem_map.2 ⟨e, he, rfl⟩) ⟨q, rfl⟩
      rw [start, Dir.dirAt_cons, Dir.dirAt_cons, hgoal, hnone]
      rfl
  case nodup => exact nodup_below hsorted []
  case performed => exact fun q hq => absurd hq List.not_mem_nil

/-- What a run keeps. -/
theorem grown_of_run (hf : f.Unfolds full) {ls : List (List K)} {s : Growing K ι φ}
    (h₀ : Grown full goal [] (start root)) (h : (machine f root).Run (start root) ls s) :
    Grown full goal ls s :=
  h.invariant h₀ fun _ _ _ _ hg hs => hg.step hf hs

/-- When no task is pending the tree is whole. -/
theorem Grown.tree_eq {ls : List (List K)} {s : Growing K ι φ} (h : Grown full goal ls s)
    (hgoal : goal.Everywhere Dir.Sorted) (hs : s.pending = []) : s.tree = goal :=
  Dir.ext_head hgoal fun p => h.shows p (by simp [hs])

/-- A tree that grows has a file just if the whole tree has it and no task is pending above. -/
theorem Grown.fileAt {ls : List (List K)} {s : Growing K ι φ} (h : Grown full goal ls s) (p : List K)
    (n : K) :
    Dir.fileAt (p ++ [n]) s.tree =
      if ∃ q ∈ s.pending, q <+: p then none else Dir.fileAt (p ++ [n]) goal := by
  split
  · next hq =>
    obtain ⟨q, hq, hqp⟩ := hq
    obtain ⟨i, hi, -⟩ := h.pending q hq
    obtain ⟨r, rfl⟩ := hqp
    rw [Dir.fileAt_concat, Dir.dirAt_append, hi]
    cases r <;> rfl
  · next hno => exact Dir.fileAt_of_head (h.shows p fun q hq hqp => hno ⟨q, hq, hqp⟩) n

/-- A task adds the files of its directory to the tree, and no other ones. -/
theorem Grown.fileAt_perform (hf : f.Unfolds full) {ls : List (List K)} {s t : Growing K ι φ}
    (h : Grown full goal ls s) {p : List K} (hstep : s.perform f p = some t) :
    ∃ d, Dir.dirAt p t.tree = some d ∧ d.Sorted ∧ ∀ q n,
      (q = p → Dir.fileAt (q ++ [n]) s.tree = none) ∧
      Dir.fileAt (q ++ [n]) t.tree =
        if q = p then findKey n d.files else Dir.fileAt (q ++ [n]) s.tree := by
  obtain ⟨hp, i, hi, -, rfl⟩ := h.perform_eq hstep
  have hat : ∀ r, Dir.dirAt (p ++ r) (modifyAt f.fill p s.tree) = Dir.dirAt r (f.fill (leaf i)) := by
    intro r
    rw [Dir.dirAt_modifyAt_append, hi, Option.bind_some]
  refine ⟨f.fill (leaf i), by simpa using hat [], hf.sorted i, fun q n => ⟨?_, ?_⟩⟩
  · rintro rfl
    rw [Dir.fileAt_concat, hi]
    rfl
  · rw [Dir.fileAt_concat, Dir.fileAt_concat]
    by_cases hpq : p <+: q
    · obtain ⟨r, rfl⟩ := hpq
      dsimp only
      rw [hat, Dir.dirAt_append, hi]
      cases r with
      | nil => simp
      | cons m r =>
        -- what is below the directory is a leaf, or nothing
        rw [if_neg (by simp), Dir.dirAt_cons]
        cases hm : findKey m (f.fill (leaf i)).subdirs with
        | none => rfl
        | some e =>
          obtain ⟨j, rfl⟩ := hf.leaves i m e (mem_of_findKey hm)
          cases r <;> rfl
    · have hne : q ≠ p := fun he => hpq (he ▸ List.prefix_rfl)
      rw [if_neg hne, ← Dir.fileAt_concat, ← Dir.fileAt_concat]
      exact Dir.fileAt_of_head (Dir.head_modifyAt f.fill hpq s.tree) n

/-- A pending task can be performed. -/
theorem Grown.exists_perform {ls : List (List K)} {s : Growing K ι φ} (h : Grown full goal ls s)
    {p : List K} (hp : p ∈ s.pending) : ∃ t, s.perform f p = some t := by
  obtain ⟨i, hi, -⟩ := h.pending p hp
  rw [← Option.isSome_iff_exists, perform, if_pos hp, hi]
  rfl

/-- There are no more tasks than directories. -/
theorem Grown.length_le {ls : List (List K)} {s : Growing K ι φ} (h : Grown full goal ls s) :
    ls.length ≤ {p | (Dir.dirAt p goal).isSome}.ncard := by
  classical
  have hnodup : ls.Nodup := (List.nodup_append.1 h.nodup).1
  rw [← List.toFinset_card_of_nodup hnodup, ← Set.ncard_coe_finset]
  refine Set.ncard_le_ncard (fun p hp => ?_) (Dir.finite_dirAt goal)
  exact (h.performed p (List.mem_toFinset.1 hp)).1

end Growing

end ExtremeS3
