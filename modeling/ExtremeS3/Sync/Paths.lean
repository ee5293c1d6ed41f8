import ExtremeS3.Common
import Mathlib.Data.Char
import Mathlib.Data.List.DropRight
import Mathlib.Data.List.Lex

/-!
# Paths as strings

`derive` extends the path of an object by a name, and the `/` of `bf::path` extends a local path.
Both put one separator between the two, unless there is one already. A path reached from a
directory by names is read back by `components`, which splits at the separators
(`components_joinAll`); so different relative paths lead to different strings
(`joinAll_injective`).
-/

namespace ExtremeS3

/-- `s3_path`. -/
structure S3Path where
  zone : Str
  bucket : Str
  path : Str
  deriving DecidableEq, Repr

/-- Append a name to a path, with a `/` between them unless one of them brings it. -/
def joinPath (left right : Str) : Str :=
  match right with
  | [] => left
  | c :: _ => if left.getLast? ≠ some '/' ∧ c ≠ '/' then left ++ '/' :: right else left ++ right

/-- `derive`. -/
def derive (left : S3Path) (right : Str) : S3Path := { left with path := joinPath left.path right }

/-- `operator/` of `bf::path`. -/
def appendPath (left right : Str) : Str := if left = [] then right else joinPath left right

/-- Different names give different paths behind a common beginning. -/
theorem appendPath_cons_injective (left : Str) (c : Char) :
    Function.Injective fun right => appendPath left (c :: right) := by
  intro r r' h
  simp only [appendPath, joinPath] at h
  split at h
  · exact (List.cons.inj h).2
  · split at h
    · exact (List.cons.inj (List.cons.inj (List.append_cancel_left h)).2).2
    · exact (List.cons.inj (List.append_cancel_left h)).2

/-- `absolute` of `bf::path`, in the working directory. -/
def absolute (cwd path : Str) : Str := if path.head? = some '/' then path else appendPath cwd path

/-- `filename` of `bf::path`: what follows the last separator, or `.` after a last separator that is
not the root. -/
def filename (path : Str) : Str :=
  if path.getLast? = some '/' then if path.all (· = '/') then "/".toList else ".".toList
  else path.rtakeWhile (· ≠ '/')

/-- `parent_path` of `bf::path`: the path without its filename and the separators before it. -/
def parentPath (path : Str) : Str :=
  if path.all (· = '/') then []
  else
    let dir := path.rdropWhile (· ≠ '/')
    if dir ≠ [] ∧ dir.all (· = '/') then "/".toList else dir.rdropWhile (· = '/')

/-- A name between two separators. -/
structure NameOk (n : Str) : Prop where
  ne_nil : n ≠ []
  slash : '/' ∉ n

/-- The names of a path. -/
def components (s : Str) : List Str := (s.splitOn '/').filter (· ≠ [])

/-- A path extended by names. -/
def joinAll (s : Str) (p : List Str) : Str := p.foldl joinPath s

@[simp] theorem joinAll_nil (s : Str) : joinAll s [] = s := rfl

/-- Names are joined one by one. -/
theorem joinAll_cons (s n : Str) (p : List Str) : joinAll s (n :: p) = joinAll (joinPath s n) p := rfl

/-- The components of a path in two parts are those of both. -/
theorem components_append (s t : Str) :
    components (s ++ '/' :: t) = components s ++ components t := by
  rw [components, List.splitOn_append_cons_self, List.filter_append]
  rfl

/-- A name without a slash is its only component. -/
theorem components_of_slash_free {n : Str} (hn : n ≠ []) (hs : '/' ∉ n) : components n = [n] := by
  rw [components, List.splitOn_eq_singleton hs]
  simp [hn]

/-- A name without a slash is joined with one slash. -/
theorem joinPath_of_slash_free {s n : Str} (hn : n ≠ []) (hs : '/' ∉ n) :
    joinPath s n = if s.getLast? = some '/' then s ++ n else s ++ '/' :: n := by
  cases n with
  | nil => exact absurd rfl hn
  | cons c n =>
    have hc : c ≠ '/' := fun h => hs (h ▸ List.mem_cons_self)
    by_cases hl : s.getLast? = some '/' <;> simp [joinPath, hl, hc]

/-- Joining a name adds it to the components. -/
theorem components_joinPath (s : Str) {n : Str} (hn : n ≠ []) (hs : '/' ∉ n) :
    components (joinPath s n) = components s ++ [n] := by
  rw [joinPath_of_slash_free hn hs]
  split
  · next hl =>
    obtain ⟨l, rfl⟩ := List.getLast?_eq_some_iff.1 hl
    rw [List.append_assoc, List.singleton_append, components_append, components_append,
      components_of_slash_free hn hs]
    simp [components]
  · rw [components_append, components_of_slash_free hn hs]

/-- A path reached by names has the names it was reached by. -/
theorem components_joinAll (s : Str) {p : List Str} (hp : ∀ n ∈ p, NameOk n) :
    components (joinAll s p) = components s ++ p := by
  induction p generalizing s with
  | nil => simp
  | cons n p ih =>
    have hn := hp n List.mem_cons_self
    rw [joinAll_cons, ih _ fun m hm => hp m (List.mem_cons_of_mem _ hm),
      components_joinPath s hn.ne_nil hn.slash, List.append_assoc]
    rfl

/-- Different relative paths lead to different strings. -/
theorem joinAll_injective {s : Str} {p q : List Str} (hp : ∀ n ∈ p, NameOk n)
    (hq : ∀ n ∈ q, NameOk n) (h : joinAll s p = joinAll s q) : p = q := by
  have := congrArg components h
  rw [components_joinAll s hp, components_joinAll s hq] at this
  exact List.append_cancel_left this

/-- The path of the object at a relative path below another one. -/
def deriveAll (s : S3Path) (p : List Str) : S3Path := p.foldl derive s

@[simp] theorem deriveAll_nil (s : S3Path) : deriveAll s [] = s := rfl

/-- Names are derived one by one. -/
theorem deriveAll_cons (s : S3Path) (n : Str) (p : List Str) :
    deriveAll s (n :: p) = deriveAll (derive s n) p := rfl

/-- The last name is derived last. -/
theorem deriveAll_concat (s : S3Path) (p : List Str) (n : Str) :
    deriveAll s (p ++ [n]) = derive (deriveAll s p) n := by
  simp [deriveAll]

/-- The path that is derived is the joined one. -/
theorem deriveAll_path (s : S3Path) (p : List Str) :
    (deriveAll s p).path = joinAll s.path p := by
  induction p generalizing s with
  | nil => rfl
  | cons n p ih => rw [deriveAll_cons, ih, joinAll_cons]; rfl

/-- Different names in order derive different paths. -/
theorem deriveAll_injective {s : S3Path} {p q : List Str} (hp : ∀ n ∈ p, NameOk n)
    (hq : ∀ n ∈ q, NameOk n) (h : deriveAll s p = deriveAll s q) : p = q :=
  joinAll_injective hp hq (by rw [← deriveAll_path, ← deriveAll_path, h])

/-- A path with a name joined to it is not empty. -/
theorem joinPath_ne_nil {s n : Str} (hs : s ≠ []) : joinPath s n ≠ [] := by
  cases n with
  | nil => exact hs
  | cons c n =>
    simp only [joinPath]
    split <;> simp

/-- Local paths are extended in the same way. -/
theorem foldl_appendPath {s : Str} (hs : s ≠ []) (p : List Str) :
    p.foldl appendPath s = joinAll s p := by
  induction p generalizing s with
  | nil => rfl
  | cons n p ih =>
    rw [List.foldl_cons, joinAll_cons, appendPath, if_neg hs, ih (joinPath_ne_nil hs)]

/-- The last name is joined last. -/
theorem joinAll_concat (s : Str) (p : List Str) (n : Str) :
    joinAll s (p ++ [n]) = joinPath (joinAll s p) n := by
  simp [joinAll]

/-- A path with names joined to it is not empty. -/
theorem joinAll_ne_nil {s : Str} (hs : s ≠ []) (p : List Str) : joinAll s p ≠ [] := by
  induction p generalizing s with
  | nil => exact hs
  | cons n p ih => exact ih (joinPath_ne_nil hs)

/-- The path is the other one or lies below it. -/
def AtOrBelow (target path : Str) : Prop := components target <+: components path

/-- A joined path is at or below another if its names start with those of the other. -/
theorem atOrBelow_joinAll {s : Str} {p q : List Str} (hp : ∀ n ∈ p, NameOk n)
    (hq : ∀ n ∈ q, NameOk n) : AtOrBelow (joinAll s p) (joinAll s q) ↔ p <+: q := by
  rw [AtOrBelow, components_joinAll s hp, components_joinAll s hq, List.prefix_append_right_inj]

/-- A joined path starts with what it is joined to. -/
theorem prefix_joinPath (s n : Str) : s <+: joinPath s n := by
  cases n with
  | nil => exact List.prefix_refl s
  | cons c n =>
    simp only [joinPath]
    split <;> exact List.prefix_append _ _

/-- What is joined to an absolute path is absolute. -/
theorem head?_joinPath {s : Str} (hs : s.head? = some '/') (n : Str) :
    (joinPath s n).head? = some '/' := by
  obtain ⟨t, ht⟩ := prefix_joinPath s n
  rw [← ht, List.head?_append, hs, Option.some_or]

/-- A path is a prefix of the paths below it. -/
theorem prefix_joinAll (s : Str) (p : List Str) : s <+: joinAll s p := by
  induction p generalizing s with
  | nil => exact List.prefix_refl s
  | cons n p ih => exact (prefix_joinPath s n).trans (ih _)

/-- What follows the last separator. -/
theorem rtakeWhile_after_slash (s : Str) {n : Str} (hn : '/' ∉ n) :
    (s ++ '/' :: n).rtakeWhile (· ≠ '/') = n := by
  have hall : ∀ c ∈ n, decide (c ≠ '/') = true := fun c hc =>
    decide_eq_true fun h => hn (h ▸ hc)
  rw [List.rtakeWhile, List.reverse_append, List.reverse_cons, List.append_assoc,
    List.takeWhile_append_of_pos fun c hc => hall c (List.mem_reverse.1 hc)]
  simp

/-- The name of a joined path is the name that was joined. -/
theorem filename_joinPath (s : Str) {n : Str} (hn : NameOk n) : filename (joinPath s n) = n := by
  have hlast : (joinPath s n).getLast? ≠ some '/' := by
    have hn' : n.getLast? ≠ some '/' := fun h => hn.slash (List.mem_of_getLast? h)
    have hc : n.getLast? ≠ none := fun h => hn.ne_nil (List.getLast?_eq_none_iff.1 h)
    rw [joinPath_of_slash_free hn.ne_nil hn.slash]
    split
    · rw [List.getLast?_append]
      cases hl : n.getLast? with
      | none => exact absurd hl hc
      | some c => simpa [hl] using hn'
    · rw [List.getLast?_append, List.getLast?_cons]
      cases hl : n.getLast? with
      | none => exact absurd hl hc
      | some c => simpa [hl] using hn'
  rw [filename, if_neg hlast, joinPath_of_slash_free hn.ne_nil hn.slash]
  split
  · next hl =>
    obtain ⟨t, rfl⟩ := List.getLast?_eq_some_iff.1 hl
    rw [List.append_assoc, List.singleton_append, rtakeWhile_after_slash t hn.slash]
  · exact rtakeWhile_after_slash s hn.slash

/-- A joined path starts as what it is joined to. -/
theorem head?_joinAll {s : Str} (hs : s ≠ []) (p : List Str) : (joinAll s p).head? = s.head? := by
  obtain ⟨t, ht⟩ := prefix_joinAll s p
  rw [← ht, List.head?_append_of_ne_nil _ hs]

/-- An absolute path is its own. -/
theorem absolute_of_head {cwd path : Str} (h : path.head? = some '/') : absolute cwd path = path :=
  if_pos h

end ExtremeS3
