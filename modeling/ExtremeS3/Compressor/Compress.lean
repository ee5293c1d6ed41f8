import ExtremeS3.Compressor.Zlib
import ExtremeS3.Files
import Mathlib.Data.List.DropRight

/-!
# The compression of a file

`file_compressor` cuts a file into blocks, and `compress_task::do_compress` feeds one block to a
deflating stream, buffer by buffer, and writes what the stream puts out to a temporary file. That
file is one member with the block as its content (`doCompress_spec`). The loop over the buffers that
are read and the loop over those that are put out have a lemma each (`compressChunk_spec`,
`deflateChunk_spec`).
-/

namespace ExtremeS3

/-- `MINIMAL_BLOCK`. -/
def minimalBlock : Nat := 1024 * 1024

/-- `COMPRESSION_THRESHOLD`. -/
def compressionThreshold : Nat := 10000000

/-- One of the blocks of `file_compressor::operator()`. -/
structure Block where
  blockNum : Nat
  offset : Nat
  size : Nat
  deriving DecidableEq, Repr

/-- What the loops of `do_compress` change: the stream, the input that is left, what stands in the
temporary file, and the number of bytes that `deflate` put out. -/
structure DeflateState (z : Zlib) where
  stream : z.Deflate
  input : Bytes
  out : Bytes
  consumed : Nat

/-- The body of the inner loop of `do_compress`. -/
def deflateChunk (z : Zlib) (sys : Sys) (tmp : Str) (s : DeflateState z) :
    Prog TransferError (DeflateState z ⊕ DeflateState z) := do
  let r := z.deflate s.stream s.input deflateRoom false
  .ensure (r.code = zOk) .compressing
  let s' : DeflateState z :=
    ⟨r.state, r.rest, s.out ++ sys.written tmp s.out.length r.out, s.consumed + r.out.length⟩
  pure (if r.rest ≠ [] then .inl s' else .inr s')

/-- The body of the outer loop of `do_compress`; the state has the number of bytes read. -/
def compressChunk (z : Zlib) (sys : Sys) (fs : Files) (path tmp : Str) (offset size : Nat)
    (s : Nat × DeflateState z) :
    Prog TransferError ((Nat × DeflateState z) ⊕ DeflateState z) :=
  if s.1 < size then do
    let chunk := min (1024 * 1024 * 2) (size - s.1)
    let buf ← sys.read fs path (offset + s.1) chunk
    let s' ← .loop (deflateChunk z sys tmp) { s.2 with input := buf }
    pure (.inl (s.1 + buf.length, s'))
  else pure (.inr s.2)

/-- `compress_task::do_compress`: the files with the temporary one, and the size that is reported for
it. -/
def doCompress (z : Zlib) (sys : Sys) (fs : Files) (path tmp : Str) (offset size : Nat) :
    Prog TransferError (Files × Nat) := do
  .ensure (fs.contents path).isSome (.system path)
  let fs ← fs.create sys tmp 0o600
  let s ← .loop (compressChunk z sys fs path tmp offset size) (0, ⟨z.deflateInit, [], [], 0⟩)
  -- we're writing the epilogue
  let r := z.deflate s.stream [] deflateRoom true
  .ensure (r.code = zStreamEnd) .compressing
  let out := s.out ++ sys.written tmp s.out.length r.out
  let fs ← fs.update tmp fun f => { f with data := overwrite f.data 0 out, mtime := sys.now }
  pure (fs, s.consumed + r.out.length)

/-- `file_compressor::operator()`: the blocks of the file, each of which is compressed by a task. -/
def fileCompressor (cpuCapability : Nat) (fileSz : Nat) : Prog TransferError (List Block) := do
  let estimateNumBlocks := fileSz / minimalBlock
  let estimateNumBlocks :=
    if cpuCapability < estimateNumBlocks then cpuCapability else estimateNumBlocks
  .ensure (estimateNumBlocks ≠ 0) .divisionByZero
  let blockSz := fileSz / estimateNumBlocks
  .ensure (blockSz ≠ 0) .divisionByZero
  let numBlocks := sliceCount blockSz fileSz
  pure ((List.range numBlocks).map fun f =>
    let offset := blockSz * f
    let size := fileSz - offset
    ⟨f, offset, if blockSz < size then blockSz else size⟩)

/-- The `extension` of a `bf::path`, from its `filename`. -/
def extension (name : Str) : Str :=
  if name = ".".toList ∨ name = "..".toList ∨ '.' ∉ name then []
  else '.' :: name.rtakeWhile (· ≠ '.')

/-- A byte of a buffer of `char`s, which are signed, in a comparison with a number. -/
def signedChar (b : UInt8) : Int := if b.toNat < 128 then b.toNat else b.toNat - 256

/-- The extensions of files that are compressed already. -/
def compressedExtensions : List Str :=
  [".gz".toList, ".zip".toList, ".tgz".toList, ".bz2".toList, ".7z".toList, ".bam".toList,
    ".idx".toList, ".png".toList, ".gif".toList, ".jpg".toList, ".jpeg".toList, ".htm".toList,
    ".html".toList]

/-- `should_compress`, from the `filename` of the path and what the file holds. -/
def shouldCompress (name : Str) (data : Bytes) : Bool :=
  let magic (i : Nat) : Int := signedChar (data[i]?.getD 0)
  !(extension name ∈ compressedExtensions) && compressionThreshold < data.length &&
    !(magic 0 = 0x1F && magic 1 = 0x8B && magic 2 = 0x8 && magic 3 = 0x8)

/-! ## One block -/

variable {z : Zlib} {sys : Sys}

/-- The inner loop feeds all of its input to the stream. -/
theorem deflateChunk_spec (hz : z.Lawful) (hw : sys.WritesAll) (tmp : Str) {x : Bytes}
    {s : DeflateState z} (hs : z.Deflating s.stream x s.out) (hcons : s.consumed = s.out.length)
    (hne : s.input ≠ []) :
    ∃ s', (Prog.loop (deflateChunk z sys tmp) s).Evals (.ok s') ∧
      z.Deflating s'.stream (x ++ s.input) s'.out ∧ s'.consumed = s'.out.length := by
  obtain ⟨b, hb⟩ := hz.bounded (x ++ s.input).length
  refine Prog.exists_evals_loop (I := fun t => ∃ taken, taken ++ t.input = s.input ∧
      t.input ≠ [] ∧ z.Deflating t.stream (x ++ taken) t.out ∧ t.consumed = t.out.length)
    (fun t => b + deflateRoom - t.out.length) (fun t ht => ?_)
    ⟨[], rfl, hne, by rwa [List.append_nil], hcons⟩
  obtain ⟨taken, htaken, hin, hdef, hc⟩ := ht
  obtain ⟨hcode, ⟨more, hmore⟩, hfull⟩ := hz.deflate hdef hin
  have hstep := Zlib.Deflating.step hdef hmore.symm
  have hlen : t.out.length ≤ b := hb hdef (by rw [← htaken]; simp)
  rw [List.append_assoc] at hstep
  set r := z.deflate t.stream t.input deflateRoom false with hr
  have hbody : (deflateChunk z sys tmp t).Evals (.ok (if r.rest ≠ [] then
      .inl ⟨r.state, r.rest, t.out ++ r.out, t.consumed + r.out.length⟩
      else .inr ⟨r.state, r.rest, t.out ++ r.out, t.consumed + r.out.length⟩)) := by
    refine (Prog.evals_ensure (decide_eq_true hcode) _).bind ?_
    rw [← hr, Sys.written_of_writesAll hw]
    exact Prog.evals_pure _
  have hcons' : t.consumed + r.out.length = (t.out ++ r.out).length := by
    rw [hc, List.length_append]
  by_cases hrest : r.rest = []
  · rw [if_neg (not_not_intro hrest)] at hbody
    rw [hrest, List.append_nil] at hmore
    exact .inr ⟨_, hbody, by rwa [hmore, htaken] at hstep, hcons'⟩
  · rw [if_pos hrest] at hbody
    refine .inl ⟨_, hbody, ⟨taken ++ more, by rw [List.append_assoc, hmore, htaken], hrest, hstep,
      hcons'⟩, ?_⟩
    have := hfull hrest
    have hroom : 0 < deflateRoom := by decide
    simp only [List.length_append]
    omega

/-- The outer loop feeds the block to the stream. -/
theorem compressChunk_spec (hz : z.Lawful) (hr : sys.Reads) (hw : sys.WritesAll) {fs : Files}
    {path : Str} {data : Bytes} (hpath : fs.contents path = some data) (tmp : Str)
    {offset size : Nat} (hsize : offset + size ≤ data.length) :
    ∃ s, (Prog.loop (compressChunk z sys fs path tmp offset size)
        (0, ⟨z.deflateInit, [], [], 0⟩)).Evals (.ok s) ∧
      z.Deflating s.stream ((data.drop offset).take size) s.out ∧ s.consumed = s.out.length := by
  have hstart : 0 ≤ size ∧ z.Deflating z.deflateInit ((data.drop offset).take 0) [] ∧
      0 = ([] : Bytes).length := ⟨Nat.zero_le _, .init, rfl⟩
  refine Prog.exists_evals_loop (I := fun t : Nat × DeflateState z => t.1 ≤ size ∧
      z.Deflating t.2.stream ((data.drop offset).take t.1) t.2.out ∧
      t.2.consumed = t.2.out.length) (fun t => size - t.1) (fun t ht => ?_) hstart
  obtain ⟨raw, s⟩ := t
  obtain ⟨hle, hdef, hc⟩ := ht
  dsimp only at hle hdef hc ⊢
  by_cases hlt : raw < size
  · obtain ⟨k, hk, hkn, hread⟩ := Sys.evals_read hr hpath (offset + raw)
      (show 0 < min (1024 * 1024 * 2) (size - raw) by omega)
    have hlen : ((data.drop (offset + raw)).take k).length = k := by
      rw [List.length_take, List.length_drop]
      omega
    obtain ⟨s', hloop, hdef', hc'⟩ := deflateChunk_spec hz hw tmp
      (s := { s with input := (data.drop (offset + raw)).take k }) hdef hc
      (List.ne_nil_of_length_pos (by rw [hlen]; exact hk))
    refine .inl ⟨(raw + k, s'), ?_, ⟨by dsimp only; omega, ?_, hc'⟩, by dsimp only; omega⟩
    · rw [compressChunk, if_pos hlt]
      refine hread.bind (hloop.bind ?_)
      rw [hlen]
      exact Prog.evals_pure _
    · rwa [← List.drop_drop, ← List.take_add] at hdef'
  · obtain rfl : raw = size := by omega
    refine .inr ⟨s, ?_, hdef, hc⟩
    rw [compressChunk, if_neg hlt]
    exact Prog.evals_pure _

/-- The temporary file of a block is a member with the block as its content. -/
theorem doCompress_spec (hz : z.Lawful) (hr : sys.Reads) (hw : sys.WritesAll) {fs : Files}
    {path tmp : Str} {data : Bytes} (hpath : fs.contents path = some data) (htmp : fs tmp = none)
    {offset size : Nat} (hsize : offset + size ≤ data.length) :
    ∃ m, z.Member m ((data.drop offset).take size) ∧
      (doCompress z sys fs path tmp offset size).Evals
        (.ok (fs.set tmp (some (.file ⟨m, sys.now, 0o600⟩)), m.length)) := by
  have hne : path ≠ tmp := by
    rintro rfl
    rw [Files.contents, htmp] at hpath
    cases hpath
  obtain ⟨s, hloop, hdef, hc⟩ := compressChunk_spec hz hr hw
    ((Files.contents_set_of_ne hne).trans hpath) tmp hsize
  obtain ⟨hcode, hmember⟩ := hz.finish hdef
  refine ⟨_, hmember, ?_⟩
  refine (Prog.evals_ensure (by rw [hpath]; rfl) _).bind ((Files.evals_create htmp sys _).bind ?_)
  refine hloop.bind ?_
  refine (Prog.evals_ensure (decide_eq_true hcode) _).bind ?_
  refine (Files.evals_update (Files.set_self ..) _).bind ?_
  rw [Files.set_set, overwrite_nil_left, Sys.written_of_writesAll hw, hc, List.length_append]
  exact Prog.evals_pure _

/-- The temporary file is all that `do_compress` changes. -/
theorem doCompress_sets {fs fs' : Files} {path tmp : Str} {offset size reported n : Nat}
    (h : doCompress z sys fs path tmp offset size n = some (.ok (fs', reported))) :
    ∃ f, fs' = fs.set tmp (some (.file f)) := by
  obtain ⟨_, -, h⟩ := Prog.bind_eq_ok h
  obtain ⟨fs₁, hfs₁, h⟩ := Prog.bind_eq_ok h
  obtain ⟨s, -, h⟩ := Prog.bind_eq_ok h
  obtain ⟨_, -, h⟩ := Prog.bind_eq_ok h
  obtain ⟨fs₂, hfs₂, h⟩ := Prog.bind_eq_ok h
  cases h
  obtain ⟨-, -, f, rfl⟩ := Files.create_eq_ok hfs₁
  obtain ⟨d, -, rfl⟩ := Files.update_eq_ok hfs₂
  exact ⟨_, Files.set_set ..⟩

/-- Where the temporary file was created before, `do_compress` goes on as it does when it has created
it. -/
theorem doCompress_create {fs fs₁ : Files} {path tmp : Str} (hpath : (fs.contents path).isSome)
    (h : (fs.create sys tmp 0o600).Evals (.ok fs₁)) (offset size : Nat) :
    doCompress z sys fs₁ path tmp offset size = doCompress z sys fs path tmp offset size := by
  obtain ⟨n, hn⟩ := h.exists_eq
  obtain ⟨hcreate, hagain, f, rfl⟩ := Files.create_eq_ok hn
  have hpath₁ : ((fs.set tmp (some (.file f))).contents path).isSome := by
    by_cases he : path = tmp
    · rw [he, Files.contents_set_self]
      rfl
    · rwa [Files.contents_set_of_ne he]
  rw [doCompress, doCompress, hpath, hpath₁, hcreate, hagain]

/-! ## The blocks -/

/-- The blocks of a file tile it. -/
theorem fileCompressor_spec {cpuCapability fileSz : Nat} (hcpu : 0 < cpuCapability)
    (hsize : minimalBlock ≤ fileSz) :
    ∃ blockSz, 0 < blockSz ∧
      (fileCompressor cpuCapability fileSz).Evals (.ok
        ((List.range (sliceCount blockSz fileSz)).map fun f =>
          ⟨f, blockSz * f, min blockSz (fileSz - blockSz * f)⟩)) := by
  obtain ⟨est, hest, hpos, hle⟩ : ∃ est, est =
      (if cpuCapability < fileSz / minimalBlock then cpuCapability else fileSz / minimalBlock) ∧
      0 < est ∧ est ≤ fileSz / minimalBlock := by
    refine ⟨_, rfl, ?_⟩
    have : 0 < fileSz / minimalBlock := Nat.div_pos hsize (by decide)
    split <;> omega
  have hle' : est ≤ fileSz := hle.trans (Nat.div_le_self ..)
  have hblock : 0 < fileSz / est := Nat.div_pos hle' hpos
  refine ⟨fileSz / est, hblock, ?_⟩
  rw [fileCompressor]
  simp only [← hest]
  refine (Prog.evals_ensure (decide_eq_true (by omega)) _).bind ?_
  refine (Prog.evals_ensure (decide_eq_true (by omega)) _).bind ?_
  have hmin : ∀ f, (if fileSz / est < fileSz - fileSz / est * f then fileSz / est
      else fileSz - fileSz / est * f) = min (fileSz / est) (fileSz - fileSz / est * f) := fun f => by
    split <;> omega
  simp only [hmin]
  exact Prog.evals_pure _

end ExtremeS3
