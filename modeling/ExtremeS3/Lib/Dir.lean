import ExtremeS3.Lib.SortedMap

/-!
# Trees of named directories

A directory holds a map of files and a map of subdirectories, both keyed by name. `fileAt` and
`dirAt` read a tree at a relative path, which is a list of names, so that facts about whole trees
are stated and proved along paths. A property of the maps of one directory is lifted to a tree by
`Everywhere`: it holds of every directory that a path leads to. `Dir.induct` is the induction over
the subdirectories.
-/

namespace ExtremeS3

/-- A directory with the maps of its files and subdirectories. -/
inductive Dir (K : Type u) (ι : Type v) (φ : Type w) where
  | node (info : ι) (files : List (K × φ)) (subdirs : List (K × Dir K ι φ))

namespace Dir

variable {K : Type u} {ι : Type v} {φ : Type w}

def info : Dir K ι φ → ι | node i _ _ => i
def files : Dir K ι φ → List (K × φ) | node _ fs _ => fs
def subdirs : Dir K ι φ → List (K × Dir K ι φ) | node _ _ ds => ds

@[simp] theorem info_node (i : ι) (fs : List (K × φ)) (ds) : (node i fs ds).info = i := rfl
@[simp] theorem files_node (i : ι) (fs : List (K × φ)) (ds) : (node i fs ds).files = fs := rfl
@[simp] theorem subdirs_node (i : ι) (fs : List (K × φ)) (ds) : (node i fs ds).subdirs = ds := rfl

/-- Induction over the subdirectories. -/
theorem induct {motive : Dir K ι φ → Prop}
    (node : ∀ i fs ds, (∀ n d, (n, d) ∈ ds → motive d) → motive (.node i fs ds)) (d : Dir K ι φ) :
    motive d :=
  Dir.rec (motive_1 := motive) (motive_2 := fun ds => ∀ n d, (n, d) ∈ ds → motive d)
    (motive_3 := fun e => motive e.2) node (fun _ _ => nofun)
    (fun e ds he hds n d h => by
      rcases List.mem_cons.1 h with rfl | h
      · exact he
      · exact hds n d h)
    (fun _ _ h => h) d

variable [LinearOrder K]

/-- The directory at a relative path. -/
def dirAt : List K → Dir K ι φ → Option (Dir K ι φ)
  | [], d => some d
  | n :: p, d => (findKey n d.subdirs).bind (dirAt p)

/-- The file at a relative path. -/
def fileAt : List K → Dir K ι φ → Option φ
  | [], _ => none
  | [n], d => findKey n d.files
  | n :: m :: p, d => (findKey n d.subdirs).bind (fileAt (m :: p))

@[simp] theorem dirAt_nil (d : Dir K ι φ) : dirAt [] d = some d := rfl

/-- A directory is looked up name by name. -/
theorem dirAt_cons (n : K) (p : List K) (d : Dir K ι φ) :
    dirAt (n :: p) d = (findKey n d.subdirs).bind (dirAt p) := rfl

/-- A path in two parts leads to where its second part leads from the directory of the first. -/
theorem dirAt_append (p q : List K) (d : Dir K ι φ) :
    dirAt (p ++ q) d = (dirAt p d).bind (dirAt q) := by
  induction p generalizing d with
  | nil => rfl
  | cons n p ih =>
    rw [List.cons_append, dirAt_cons, dirAt_cons, Option.bind_assoc]
    exact congrArg _ (funext ih)

@[simp] theorem fileAt_nil (d : Dir K ι φ) : fileAt [] d = none := rfl

@[simp] theorem fileAt_singleton (n : K) (d : Dir K ι φ) : fileAt [n] d = findKey n d.files := rfl

/-- A file further down is looked up in the subdirectory of its first name. -/
theorem fileAt_cons {p : List K} (hp : p ≠ []) (n : K) (d : Dir K ι φ) :
    fileAt (n :: p) d = (findKey n d.subdirs).bind (fileAt p) := by
  cases p with
  | nil => exact absurd rfl hp
  | cons m p => rfl

/-- A file is a file of the directory above it. -/
theorem fileAt_append {q : List K} (hq : q ≠ []) (p : List K) (d : Dir K ι φ) :
    fileAt (p ++ q) d = (dirAt p d).bind (fileAt q) := by
  induction p generalizing d with
  | nil => rfl
  | cons n p ih =>
    rw [List.cons_append, fileAt_cons (by simp [hq]), dirAt_cons, Option.bind_assoc]
    exact congrArg _ (funext ih)

/-- A file is looked up by its last name in the directory it is in. -/
theorem fileAt_concat (p : List K) (n : K) (d : Dir K ι φ) :
    fileAt (p ++ [n]) d = (dirAt p d).bind fun e => findKey n e.files :=
  fileAt_append (List.cons_ne_nil _ _) p d

/-- A directory is looked up by its last name in the directory it is in. -/
theorem dirAt_concat (p : List K) (n : K) (d : Dir K ι φ) :
    dirAt (p ++ [n]) d = (dirAt p d).bind fun e => findKey n e.subdirs := by
  rw [dirAt_append]
  congr
  funext e
  exact Option.bind_fun_some _

/-- A file has a name. -/
theorem ne_nil_of_fileAt {p : List K} {d : Dir K ι φ} {f : φ} (h : fileAt p d = some f) : p ≠ [] := by
  rintro rfl
  cases h

/-- The paths below a directory that leads nowhere lead nowhere. -/
theorem dirAt_of_prefix {p q : List K} {d : Dir K ι φ} (h : p <+: q) (hq : (dirAt q d).isSome) :
    (dirAt p d).isSome := by
  obtain ⟨r, rfl⟩ := h
  rw [dirAt_append] at hq
  cases hp : dirAt p d with
  | none => rw [hp] at hq; cases hq
  | some _ => rfl

/-- A file of a tree is one of its root or of a subdirectory. -/
theorem exists_fileAt {d : Dir K ι φ} {P : List K → φ → Prop} :
    (∃ p f, fileAt p d = some f ∧ P p f) ↔
      (∃ n f, findKey n d.files = some f ∧ P [n] f) ∨
      ∃ n e, findKey n d.subdirs = some e ∧ ∃ p f, fileAt p e = some f ∧ P (n :: p) f := by
  constructor
  · rintro ⟨p, f, hf, hP⟩
    match p with
    | [] => cases hf
    | [n] => exact .inl ⟨n, f, hf, hP⟩
    | n :: m :: p =>
      obtain ⟨e, he, hf⟩ := Option.bind_eq_some_iff.1 hf
      exact .inr ⟨n, e, he, m :: p, f, hf, hP⟩
  · rintro (⟨n, f, hf, hP⟩ | ⟨n, e, he, p, f, hf, hP⟩)
    · exact ⟨[n], f, hf, hP⟩
    · refine ⟨n :: p, f, ?_, hP⟩
      rw [fileAt_cons (ne_nil_of_fileAt hf), he]
      exact hf

/-- A path leaves a tree at some directory: at its last name, or where no subdirectory goes on. -/
theorem exists_deepest (d : Dir K ι φ) {p : List K} (hp : p ≠ []) :
    ∃ q n r e, p = q ++ n :: r ∧ dirAt q d = some e ∧ (r = [] ∨ findKey n e.subdirs = none) := by
  induction p generalizing d with
  | nil => exact absurd rfl hp
  | cons n p ih =>
    cases p with
    | nil => exact ⟨[], n, [], d, rfl, rfl, .inl rfl⟩
    | cons m p =>
      cases hn : findKey n d.subdirs with
      | none => exact ⟨[], n, m :: p, d, rfl, rfl, .inr hn⟩
      | some e =>
        obtain ⟨q, k, r, e', hp, he, hr⟩ := ih e (List.cons_ne_nil _ _)
        exact ⟨n :: q, k, r, e', by rw [hp, List.cons_append], by rw [dirAt_cons, hn]; exact he, hr⟩

/-! ## Properties of every directory -/

/-- The property holds of every directory of the tree. -/
def Everywhere (P : Dir K ι φ → Prop) (root : Dir K ι φ) : Prop :=
  ∀ p d, dirAt p root = some d → P d

/-- What holds everywhere holds at the root. -/
theorem Everywhere.root {P : Dir K ι φ → Prop} {root : Dir K ι φ} (h : Everywhere P root) : P root :=
  h [] root rfl

/-- What holds everywhere holds everywhere below a directory of the tree. -/
theorem Everywhere.dirAt {P : Dir K ι φ → Prop} {root d : Dir K ι φ} (h : Everywhere P root)
    {p : List K} (hp : dirAt p root = some d) : Everywhere P d := fun q e he =>
  h (p ++ q) e (by rw [dirAt_append, hp]; exact he)

/-- What holds everywhere holds everywhere below a subdirectory. -/
theorem Everywhere.child {P : Dir K ι φ → Prop} {root d : Dir K ι φ} (h : Everywhere P root) {n : K}
    (hn : findKey n root.subdirs = some d) : Everywhere P d :=
  h.dirAt (p := [n]) (by rw [dirAt_cons, hn]; rfl)

/-- A directory without subdirectories leads only to itself. -/
theorem dirAt_of_subdirs_nil {d e : Dir K ι φ} (hd : d.subdirs = []) {p : List K}
    (h : Dir.dirAt p d = some e) : p = [] ∧ e = d := by
  cases p with
  | nil => exact ⟨rfl, (Option.some.inj h).symm⟩
  | cons n p =>
    rw [dirAt_cons, hd] at h
    cases h

/-- Without subdirectories, what holds at the root holds everywhere. -/
theorem everywhere_of_subdirs_nil {d : Dir K ι φ} (hd : d.subdirs = []) {P : Dir K ι φ → Prop}
    (h : P d) : Everywhere P d := fun p e he => by
  obtain ⟨-, rfl⟩ := dirAt_of_subdirs_nil hd he
  exact h

/-- What holds at the root and everywhere below its subdirectories holds everywhere. -/
theorem everywhere_node {i : ι} {fs : List (K × φ)} {ds : List (K × Dir K ι φ)}
    {P : Dir K ι φ → Prop} (h : P (node i fs ds)) (hds : ∀ e ∈ ds, Everywhere P e.2) :
    Everywhere P (node i fs ds) := by
  intro p d hd
  cases p with
  | nil =>
    cases hd
    exact h
  | cons n p =>
    obtain ⟨e, he, hd⟩ := Option.bind_eq_some_iff.1 hd
    exact hds (n, e) (mem_of_findKey he) p d hd

/-- The maps of files and subdirectories are maps. -/
def Sorted (d : Dir K ι φ) : Prop := ExtremeS3.Sorted d.files ∧ ExtremeS3.Sorted d.subdirs

/-- A directory without files and subdirectories is sorted. -/
theorem sorted_empty (i : ι) : Sorted (node i [] [] : Dir K ι φ) := ⟨sorted_nil, sorted_nil⟩

/-- No name is both a file and a subdirectory. -/
def Unshadowed (d : Dir K ι φ) : Prop :=
  ∀ n f, findKey n d.files = some f → findKey n d.subdirs = none

/-- The names satisfy a property. -/
def Named (P : K → Prop) (d : Dir K ι φ) : Prop :=
  ∀ n, (findKey n d.files).isSome ∨ (findKey n d.subdirs).isSome → P n

/-- In a tree without shadowed names no path leads both to a file and to a directory. -/
theorem Everywhere.not_both {root : Dir K ι φ} (h : Everywhere Unshadowed root) {p : List K} {f : φ}
    (hf : fileAt p root = some f) : Dir.dirAt p root = none := by
  obtain ⟨q, n, rfl⟩ := (List.eq_nil_or_concat' p).resolve_left (ne_nil_of_fileAt hf)
  rw [fileAt_concat] at hf
  rw [dirAt_concat]
  cases hq : Dir.dirAt q root with
  | none => rfl
  | some d =>
    rw [hq] at hf
    exact h q d hq n f hf

/-- The files on a path that leaves a tree without shadowed names at a directory: there is none but
the one that the path leaves the tree by. -/
theorem Everywhere.fileAt_prefix {root d : Dir K ι φ} (h : Everywhere Unshadowed root) {p q r : List K}
    {n : K} (hp : Dir.dirAt p root = some d) (hq : q = [] ∨ findKey n d.subdirs = none)
    (hr : r <+: p ++ n :: q) {f : φ} (hf : fileAt r root = some f) :
    r = p ++ [n] ∧ findKey n d.files = some f := by
  rcases List.prefix_or_prefix_of_prefix hr (p.prefix_append (n :: q)) with hle | ⟨s, rfl⟩
  · have hsome := dirAt_of_prefix hle (by rw [hp]; rfl)
    rw [h.not_both hf] at hsome
    cases hsome
  · rw [List.prefix_append_right_inj] at hr
    rw [fileAt_append (fun hs => ?_), hp, Option.bind_some] at hf
    · cases s with
      | nil => cases hf
      | cons m s =>
        obtain ⟨rfl, hs⟩ := List.cons_prefix_cons.1 hr
        cases s with
        | nil => exact ⟨rfl, hf⟩
        | cons k s =>
          have hne : q ≠ [] := fun he => by simp [he] at hs
          rw [fileAt_cons (List.cons_ne_nil _ _), hq.resolve_left hne] at hf
          cases hf
    · subst hs
      rw [List.append_nil] at hf
      rw [h.not_both hf] at hp
      cases hp

/-- The names on a path to a directory are names of the tree. -/
theorem Everywhere.forall_name_dirAt {P : K → Prop} {root : Dir K ι φ}
    (h : Everywhere (Named P) root) {p : List K} (hp : (Dir.dirAt p root).isSome) : ∀ n ∈ p, P n := by
  induction p generalizing root with
  | nil => nofun
  | cons m p ih =>
    rw [dirAt_cons] at hp
    cases hm : findKey m root.subdirs with
    | none => rw [hm] at hp; cases hp
    | some d =>
      rw [hm] at hp
      intro n hn
      rcases List.mem_cons.1 hn with rfl | hn
      · exact h.root n (.inr (by rw [hm]; rfl))
      · exact ih (h.child hm) hp n hn

/-- The names on a path to a file are names of the tree. -/
theorem Everywhere.forall_name_fileAt {P : K → Prop} {root : Dir K ι φ}
    (h : Everywhere (Named P) root) {p : List K} {f : φ} (hp : fileAt p root = some f) :
    ∀ n ∈ p, P n := by
  obtain ⟨q, n, rfl⟩ := (List.eq_nil_or_concat' p).resolve_left (ne_nil_of_fileAt hp)
  rw [fileAt_concat] at hp
  obtain ⟨d, hd, hn⟩ := Option.bind_eq_some_iff.1 hp
  intro m hm
  rcases List.mem_append.1 hm with hm | hm
  · exact h.forall_name_dirAt (by rw [hd]; rfl) m hm
  · rw [List.mem_singleton.1 hm]
    exact h q d hd n (.inl (by rw [hn]; rfl))

end Dir

end ExtremeS3
