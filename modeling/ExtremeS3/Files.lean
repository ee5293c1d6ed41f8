import ExtremeS3.Common
import ExtremeS3.Lib.Prog
import ExtremeS3.Lib.Slices
import Mathlib.Data.Fintype.EquivFin
import Mathlib.Data.Set.Finite.Lattice

/-!
# Files and the calls on them

A transfer reads and writes regular files through descriptors at offsets. `Sys` says how many bytes
each `read` and `write` transfers of those it is asked for, so that both may be short; a call that
fails throws `TransferError`. Each call changes one path at most, except `removeAll`. A call has a
lemma that it can be made (`evals_create`, `evals_update`, `evals_rename`) and one that says what
has changed where it was (`create_eq_ok`, `update_eq_ok`, `rename_eq_ok`).
-/

namespace ExtremeS3

/-- A regular file: what it holds, its modification time and its permission bits. -/
structure FileData where
  data : Bytes
  mtime : Int64
  mode : Nat
  deriving DecidableEq, Repr

/-- A small file. -/
def someFile : FileData := ⟨[10, 20, 30], 7, 0o100644⟩

/-- What there is at a path. -/
inductive Node where
  | file (f : FileData)
  | dir
  deriving DecidableEq, Repr

/-- What there is at each path. -/
def Files := Str → Option Node

/-- What makes a task throw. -/
inductive TransferError where
  | system (path : Str)
  | outOfRange
  | overflow
  | divisionByZero
  | tooBig
  | tooManySegments
  | notFound
  | compressing
  | gz
  | noUpload
  | segmentSize (offset : Nat)
  deriving DecidableEq, Repr

/-- How many bytes a call transfers, by the path, the offset and the number of bytes asked for; and
the clock. -/
structure Sys where
  readCount : Str → Nat → Nat → Nat
  writeCount : Str → Nat → Nat → Nat
  now : Int64

namespace Files

/-- What the regular file at a path holds. -/
def contents (fs : Files) (path : Str) : Option Bytes :=
  match fs path with
  | some (.file f) => some f.data
  | some .dir | none => none

/-- Put something at a path, or nothing. -/
def set (fs : Files) (path : Str) (node : Option Node) : Files := fun q =>
  if q = path then node else fs q

/-- `unlink`, which is not checked for an error. -/
def unlink (fs : Files) (path : Str) : Files :=
  if fs path = some .dir then fs else fs.set path none

/-- `bf::remove_all`. -/
def removeAll (fs : Files) (path : Str) : Files := fun q =>
  if q = path ∨ path ++ "/".toList <+: q then none else fs q

/-- `open` with `O_CREAT`. -/
def create (fs : Files) (sys : Sys) (path : Str) (mode : Nat) : Prog TransferError Files :=
  match fs path with
  | some (.file _) => pure fs
  | some .dir => .throw (.system path)
  | none => pure (fs.set path (some (.file ⟨[], sys.now, mode⟩)))

/-- Change the regular file at a path. -/
def update (fs : Files) (path : Str) (f : FileData → FileData) : Prog TransferError Files :=
  match fs path with
  | some (.file d) => pure (fs.set path (some (.file (f d))))
  | some .dir | none => .throw (.system path)

/-- `rename`. -/
def rename (fs : Files) (source target : Str) : Prog TransferError Files :=
  match fs source, fs target with
  | some (.file d), some (.file _) | some (.file d), none =>
    pure ((fs.set source none).set target (some (.file d)))
  | _, _ => .throw (.system target)

/-- What is set at a path is there. -/
theorem set_self (fs : Files) (path : Str) (node : Option Node) : fs.set path node path = node :=
  if_pos rfl

/-- A file that is set is no directory. -/
theorem set_file_ne_dir (fs : Files) (path : Str) (f : FileData) :
    fs.set path (some (.file f)) path ≠ some .dir := by
  rw [set_self]
  exact fun h => by cases h

/-- Where nothing is, there is no directory. -/
theorem ne_dir_of_none {fs : Files} {path : Str} (h : fs path = none) : fs path ≠ some .dir := by
  rw [h]
  exact fun h => by cases h

/-- Setting a path leaves the others alone. -/
theorem set_of_ne {fs : Files} {path q : Str} {node : Option Node} (h : q ≠ path) :
    fs.set path node q = fs q := if_neg h

/-- Of two writes to a path the second one counts. -/
@[simp] theorem set_set (fs : Files) (path : Str) (n n' : Option Node) :
    (fs.set path n).set path n' = fs.set path n' := by
  funext q
  simp only [set]
  split <;> rfl

/-- Setting what is there changes nothing. -/
theorem set_eq_self {fs : Files} {path : Str} {node : Option Node} (h : fs path = node) :
    fs.set path node = fs := by
  funext q
  rw [set]
  split
  · next hq => rw [hq, h]
  · rfl

/-- Removing a file that is not there changes nothing. -/
theorem unlink_of_none {fs : Files} {path : Str} (h : fs path = none) : fs.unlink path = fs := by
  rw [unlink, if_neg (by rw [h]; exact nofun), set_eq_self h]

/-- The bytes of a file that is set are its own. -/
theorem contents_set_self (fs : Files) (path : Str) (f : FileData) :
    (fs.set path (some (.file f))).contents path = some f.data := by
  rw [contents, set_self]

/-- Setting a path leaves the bytes of the others as they are. -/
theorem contents_set_of_ne {fs : Files} {path q : Str} {node : Option Node} (h : q ≠ path) :
    (fs.set path node).contents q = fs.contents q := by
  rw [contents, set_of_ne h, contents]

/-- A file can be created where nothing is, and is empty. -/
theorem evals_create {fs : Files} {path : Str} (h : fs path = none) (sys : Sys) (mode : Nat) :
    (fs.create sys path mode).Evals
      (.ok (fs.set path (some (.file ⟨[], sys.now, mode⟩)))) := by
  rw [create, h]
  exact Prog.evals_pure _

/-- A file that is there can be changed. -/
theorem evals_update {fs : Files} {path : Str} {d : FileData} (h : fs path = some (.file d))
    (f : FileData → FileData) :
    (fs.update path f).Evals (.ok (fs.set path (some (.file (f d))))) := by
  rw [update, h]
  exact Prog.evals_pure _

/-- An update that returns found a regular file. -/
theorem update_eq_ok {fs fs' : Files} {path : Str} {f : FileData → FileData} {n : Nat}
    (h : fs.update path f n = some (.ok fs')) :
    ∃ d, fs path = some (.file d) ∧ fs' = fs.set path (some (.file (f d))) := by
  rcases hp : fs path with _ | d | _
  · rw [update, hp] at h
    cases h
  · rw [update, hp] at h
    cases h
    exact ⟨d, rfl, rfl⟩
  · rw [update, hp] at h
    cases h

/-- A file that is created is there, and creating it again changes nothing. -/
theorem create_eq_ok {fs fs' : Files} {sys : Sys} {path : Str} {mode n : Nat}
    (h : fs.create sys path mode n = some (.ok fs')) :
    fs.create sys path mode = pure fs' ∧ fs'.create sys path mode = pure fs' ∧
      ∃ f, fs' = fs.set path (some (.file f)) := by
  have hagain : ∀ f, (fs.set path (some (.file f))).create sys path mode =
      pure (fs.set path (some (.file f))) := by
    intro f
    rw [create, set_self]
  rcases hp : fs path with _ | d | _
  · rw [create, hp] at h ⊢
    cases h
    exact ⟨rfl, hagain _, _, rfl⟩
  · rw [create, hp] at h ⊢
    cases h
    have hself : fs = fs.set path (some (.file d)) := (set_eq_self hp).symm
    refine ⟨rfl, ?_, d, hself⟩
    have := hagain d
    rwa [← hself] at this
  · rw [create, hp] at h
    cases h

/-- A rename that returns found a regular file. -/
theorem rename_eq_ok {fs fs' : Files} {source target : Str} {n : Nat}
    (h : fs.rename source target n = some (.ok fs')) :
    ∃ d, fs source = some (.file d) ∧
      fs' = (fs.set source none).set target (some (.file d)) := by
  rcases hs : fs source with _ | d | _
  · rw [rename, hs] at h
    cases h
  · refine ⟨d, rfl, ?_⟩
    rcases ht : fs target with _ | f | _
    · rw [rename, hs, ht] at h
      cases h
      rfl
    · rw [rename, hs, ht] at h
      cases h
      rfl
    · rw [rename, hs, ht] at h
      cases h
  · rw [rename, hs] at h
    cases h

/-- A file that is created where what was there is unlinked is empty. -/
theorem unlink_create_eq_ok {fs fs' : Files} {sys : Sys} {path : Str} {mode n : Nat}
    (h : (fs.unlink path).create sys path mode n = some (.ok fs')) :
    ∃ f, f.data = [] ∧ fs' = fs.set path (some (.file f)) := by
  by_cases hp : fs path = some .dir
  · rw [unlink, if_pos hp, create, hp] at h
    cases h
  · rw [unlink, if_neg hp, create, set_self] at h
    cases h
    exact ⟨_, rfl, set_set ..⟩

/-- A file is created where what was there is unlinked. -/
theorem evals_unlink_create {fs : Files} {path : Str} (h : fs path ≠ some .dir) (sys : Sys)
    (mode : Nat) : ((fs.unlink path).create sys path mode).Evals
      (.ok (fs.set path (some (.file ⟨[], sys.now, mode⟩)))) := by
  rw [unlink, if_neg h]
  have := evals_create (set_self fs path none) sys mode
  rwa [set_set] at this

/-- No file is created where there is a directory. -/
theorem evals_unlink_create_dir {fs : Files} {path : Str} (h : fs path = some .dir) (sys : Sys)
    (mode : Nat) : ((fs.unlink path).create sys path mode).Evals (.error (.system path)) := by
  rw [unlink, if_pos h, create, h]
  exact Prog.evals_throw _

/-- A file that is removed is not there. -/
theorem unlink_self {fs : Files} {path : Str} (h : fs path ≠ some .dir) :
    fs.unlink path path = none := by
  rw [unlink, if_neg h, set_self]

/-- Removing a file makes no other. -/
theorem unlink_eq_none {fs : Files} {q : Str} (h : fs q = none) (path : Str) :
    fs.unlink path q = none := by
  by_cases hq : q = path
  · subst hq
    rw [unlink_of_none h, h]
  · rw [unlink]
    split
    · exact h
    · exact (set_of_ne hq).trans h

/-- Removing a file leaves the others alone. -/
theorem unlink_of_ne (fs : Files) {path q : Str} (h : q ≠ path) : fs.unlink path q = fs q := by
  rw [unlink]
  split
  · rfl
  · exact set_of_ne h

/-- A file can be renamed to a path that is not a directory, and takes the place of what is there.
-/
theorem evals_rename {fs : Files} {source target : Str} {d : FileData}
    (h : fs source = some (.file d)) (ht : fs target ≠ some .dir) :
    (fs.rename source target).Evals
      (.ok ((fs.set source none).set target (some (.file d)))) := by
  rw [rename, h]
  rcases hn : fs target with _ | _ | _
  · exact Prog.evals_pure _
  · exact Prog.evals_pure _
  · exact absurd hn ht

/-- No file is renamed over a directory. -/
theorem evals_rename_dir {fs : Files} (source : Str) {target : Str} (h : fs target = some .dir) :
    (fs.rename source target).Evals (.error (.system target)) := by
  rw [rename, h]
  rcases fs source with _ | _ | _ <;> exact Prog.evals_throw _

end Files

namespace Sys

/-- `read` from an offset. -/
def read (sys : Sys) (fs : Files) (path : Str) (offset size : Nat) : Prog TransferError Bytes := do
  let data ← .ofOption (.system path) (fs.contents path)
  pure ((data.drop offset).take (min size (sys.readCount path offset size)))

/-- How many of the bytes a `write` at an offset takes. -/
def written (sys : Sys) (path : Str) (offset : Nat) (bytes : Bytes) : Bytes :=
  bytes.take (sys.writeCount path offset bytes.length)

/-- No `read` returns nothing before the end of a file. -/
def Reads (sys : Sys) : Prop := ∀ path offset size, 0 < size → 0 < sys.readCount path offset size

/-- Every `write` takes all bytes. -/
def WritesAll (sys : Sys) : Prop := ∀ path offset size, size ≤ sys.writeCount path offset size

/-- A system whose calls transfer all bytes. -/
def full : Sys := ⟨fun _ _ size => size, fun _ _ size => size, 0⟩

/-- A call that reads all it is asked for reads. -/
theorem full_reads : full.Reads := fun _ _ _ h => h

/-- A call that writes all it is given writes all. -/
theorem full_writesAll : full.WritesAll := fun _ _ _ => Nat.le_refl _

/-- What is written is all that is given, where calls write all. -/
theorem written_of_writesAll {sys : Sys} (h : sys.WritesAll) (path : Str) (offset : Nat)
    (bytes : Bytes) : sys.written path offset bytes = bytes :=
  List.take_of_length_le (h path offset bytes.length)

/-- A file can be read, from any offset, for as many bytes as the call returns. -/
theorem evals_read_of_contents (sys : Sys) {fs : Files} {path : Str} {data : Bytes}
    (h : fs.contents path = some data) (offset size : Nat) :
    (sys.read fs path offset size).Evals
      (.ok ((data.drop offset).take (min size (sys.readCount path offset size)))) :=
  (Prog.evals_ofOption h _).bind (Prog.evals_pure _)

/-- A `read` before the end of a file returns a part of what follows that is not empty. -/
theorem evals_read {sys : Sys} (hs : sys.Reads) {fs : Files} {path : Str} {data : Bytes}
    (h : fs.contents path = some data) (offset : Nat) {size : Nat} (hsize : 0 < size) :
    ∃ n, 0 < n ∧ n ≤ size ∧
      (sys.read fs path offset size).Evals (.ok ((data.drop offset).take n)) := by
  have := hs path offset size hsize
  exact ⟨min size (sys.readCount path offset size), by omega, by omega,
    sys.evals_read_of_contents h offset size⟩

end Sys

/-- A file with the bytes, where nothing else is. -/
def onlyFile (path : Str) (data : Bytes) : Files := fun q =>
  if q = path then some (.file ⟨data, 0, 0o600⟩) else none

/-- The one file of a disk is at its path. -/
theorem onlyFile_self (path : Str) (data : Bytes) :
    onlyFile path data path = some (.file ⟨data, 0, 0o600⟩) := if_pos rfl

/-- The one file of a disk has its bytes. -/
theorem contents_onlyFile (path : Str) (data : Bytes) :
    (onlyFile path data).contents path = some data := by
  rw [Files.contents, onlyFile_self]

/-- Nothing is elsewhere on a disk with one file. -/
theorem onlyFile_of_ne {path q : Str} (h : q ≠ path) (data : Bytes) : onlyFile path data q = none :=
  if_neg h

/-- With a file more there are still finitely many. -/
theorem finite_set {fs : Files} (h : {q | fs q ≠ none}.Finite) (tmp : Str) (node : Option Node) :
    {q | fs.set tmp node q ≠ none}.Finite := by
  refine (h.insert tmp).subset fun q hq => ?_
  by_cases hqt : q = tmp
  · exact .inl hqt
  · rw [Set.mem_ofPred_eq, Files.set_of_ne hqt] at hq
    exact .inr hq

/-- There are names that finitely many files do not have. -/
theorem exists_free {ι : Type} [Finite ι] {taken : Set Str} (htaken : taken.Finite)
    {name : ι → Str → Str} (hname : ∀ i, (name i).Injective) :
    ∃ random, ∀ i, name i random ∉ taken := by
  have hfinite : (⋃ i, Set.preimage (name i) taken).Finite :=
    Set.finite_iUnion fun i => htaken.preimage (hname i).injOn
  obtain ⟨random, hrandom⟩ := hfinite.exists_notMem
  exact ⟨random, fun i hi => hrandom (Set.mem_iUnion.2 ⟨i, hi⟩)⟩

end ExtremeS3
