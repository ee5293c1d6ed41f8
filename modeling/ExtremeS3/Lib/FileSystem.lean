import Mathlib.Data.List.Infix

/-!
# File systems

A file system says what there is at each path, a list of names. `removeAll` removes a path with
everything below it; `mkdir` and `writeFile` need the directory that holds the path, and `mkdir`
leaves alone what is there. Each lemma says what one of them changes; only `mkdir` makes a
directory, and it replaces nothing.
-/

namespace ExtremeS3

/-- What there is at a path. -/
inductive Kind where
  | file
  | dir
  deriving DecidableEq, Repr

/-- What there is at each path. -/
def FileSystem (K : Type u) := List K → Option Kind

namespace FileSystem

variable {K : Type u} [DecidableEq K]

/-- Put something at a path. -/
def put (fs : FileSystem K) (path : List K) (kind : Kind) : FileSystem K := fun q =>
  if q = path then some kind else fs q

/-- Remove the path with everything below it. -/
def removeAll (fs : FileSystem K) (path : List K) : FileSystem K := fun q =>
  if path <+: q then none else fs q

/-- Make a directory, unless there is something at the path. -/
def mkdir (fs : FileSystem K) (path : List K) : Option (FileSystem K) :=
  if (fs path).isSome then some fs
  else if fs path.dropLast = some .dir then some (fs.put path .dir)
  else none

/-- Make a file, or replace one. -/
def writeFile (fs : FileSystem K) (path : List K) : Option (FileSystem K) :=
  if fs path.dropLast = some .dir ∧ fs path ≠ some .dir then some (fs.put path .file) else none

/-- What is put at a path is there. -/
theorem put_self (fs : FileSystem K) (path : List K) (kind : Kind) :
    fs.put path kind path = some kind := if_pos rfl

/-- Putting something at a path leaves the others alone. -/
theorem put_of_ne {fs : FileSystem K} {path q : List K} {kind : Kind} (h : q ≠ path) :
    fs.put path kind q = fs q := if_neg h

/-- Removing a path removes all that is below it. -/
theorem removeAll_of_prefix {fs : FileSystem K} {path q : List K} (h : path <+: q) :
    fs.removeAll path q = none := if_pos h

/-- Removing a path leaves all that is not below it. -/
theorem removeAll_of_not_prefix {fs : FileSystem K} {path q : List K} (h : ¬ path <+: q) :
    fs.removeAll path q = fs q := if_neg h

/-- A directory can be made where nothing is, in a directory. -/
theorem mkdir_of_none {fs : FileSystem K} {path : List K} (h : fs path = none)
    (hp : fs path.dropLast = some .dir) : fs.mkdir path = some (fs.put path .dir) := by
  rw [mkdir, h, if_pos hp]
  rfl

/-- Making a directory keeps what is there. -/
theorem apply_of_mkdir {fs fs' : FileSystem K} {path q : List K} {kind : Kind}
    (h : fs.mkdir path = some fs') (hq : fs q = some kind) : fs' q = some kind := by
  unfold mkdir at h
  split at h
  · cases h
    exact hq
  · next hnone =>
    split at h
    · cases h
      -- the path had nothing, so `q` is another one
      rw [put_of_ne, hq]
      rintro rfl
      rw [hq] at hnone
      exact hnone rfl
    · cases h

/-- Removing makes no directory. -/
theorem removeAll_ne_dir {fs : FileSystem K} {path q : List K} (h : fs q ≠ some .dir) :
    fs.removeAll path q ≠ some .dir := by
  unfold removeAll
  split
  · nofun
  · exact h

/-- Writing a file makes no directory. -/
theorem writeFile_ne_dir {fs fs' : FileSystem K} {path q : List K}
    (h : fs.writeFile path = some fs') (hq : fs q ≠ some .dir) : fs' q ≠ some .dir := by
  unfold writeFile at h
  split at h
  · cases h
    unfold put
    split
    · nofun
    · exact hq
  · cases h

/-- A file can be written where there is no directory, in a directory. -/
theorem writeFile_eq_some {fs : FileSystem K} {path : List K} (h : fs path ≠ some .dir)
    (hp : fs path.dropLast = some .dir) : fs.writeFile path = some (fs.put path .file) :=
  if_pos ⟨hp, h⟩

end FileSystem

end ExtremeS3
