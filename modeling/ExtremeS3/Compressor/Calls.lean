import ExtremeS3.Compressor.Compress
import ExtremeS3.Compressor.Decompress

/-!
# The calls of a compression and of a decompression

`Zlib.Deflated` and `Zlib.Inflated` follow the calls in the loops of `do_compress` and
`file_decompressor`, and say what `deflate` and `inflate` put out in each of them, whatever becomes of
it. Each output is given to one `write`, which may take a part of it only: `Sys.appendAll` is what the
file holds then, and it is all that was put out just if each `write` took all that it was given
(`Sys.appendAll_iff`).
-/

namespace ExtremeS3

namespace Sys

variable (sys : Sys)

/-- The bytes that a `read` returns of a file that holds the data. -/
def bytesRead (path : Str) (data : Bytes) (offset size : Nat) : Bytes :=
  (data.drop offset).take (min size (sys.readCount path offset size))

/-- What a file holds when each chunk was given to one `write`. -/
def appendAll (path : Str) : Bytes → List Bytes → Bytes
  | out, [] => out
  | out, chunk :: chunks => appendAll path (out ++ sys.written path out.length chunk) chunks

/-- Each of these `write`s takes all that it is given. -/
def TakesAll (path : Str) : Nat → List Bytes → Prop
  | _, [] => True
  | offset, chunk :: chunks => chunk.length ≤ sys.writeCount path offset chunk.length ∧
      TakesAll path (offset + chunk.length) chunks

variable {sys}

/-- A read that returns has taken bytes of a file that is there. -/
theorem read_eq_ok {fs : Files} {path : Str} {offset size n : Nat} {buf : Bytes}
    (h : sys.read fs path offset size n = some (.ok buf)) :
    ∃ data, fs.contents path = some data ∧ buf = sys.bytesRead path data offset size := by
  obtain ⟨data, hdata, h⟩ := Prog.bind_eq_ok h
  rw [Prog.pure_apply] at h
  cases h
  cases hc : fs.contents path with
  | none => rw [hc] at hdata; cases hdata
  | some d => rw [hc] at hdata; cases hdata; exact ⟨data, rfl, rfl⟩

/-- A `read` that returns nothing is at the end of the file. -/
theorem bytesRead_eq_nil (hr : sys.Reads) {path : Str} {data : Bytes} {offset size : Nat}
    (hsize : 0 < size) (h : sys.bytesRead path data offset size = []) : data.drop offset = [] := by
  have hpos := hr path offset size hsize
  have hlen := congrArg List.length h
  rw [bytesRead, List.length_take, List.length_nil] at hlen
  exact List.length_eq_zero_iff.1 (by omega)

/-- What follows an offset is what is read there, and what follows that. -/
theorem drop_eq_bytesRead_append (path : Str) (data : Bytes) (offset size : Nat) :
    data.drop offset = sys.bytesRead path data offset size ++
      data.drop (offset + (sys.bytesRead path data offset size).length) := by
  obtain ⟨rest, hrest⟩ : sys.bytesRead path data offset size <+: data.drop offset :=
    List.take_prefix _ _
  rw [← List.drop_drop, ← hrest, List.drop_left]

/-- No more bytes are written than were given. -/
theorem length_written_le (sys : Sys) (path : Str) (offset : Nat) (bytes : Bytes) :
    (sys.written path offset bytes).length ≤ bytes.length := by
  rw [written, List.length_take]
  omega

/-- Appending two lists of chunks is appending one after the other. -/
theorem appendAll_append (path : Str) (out : Bytes) (cs ds : List Bytes) :
    sys.appendAll path out (cs ++ ds) = sys.appendAll path (sys.appendAll path out cs) ds := by
  induction cs generalizing out with
  | nil => rfl
  | cons c cs ih => exact ih _

/-- Appending chunks makes a file longer by their lengths at most. -/
theorem length_appendAll_le (sys : Sys) (path : Str) (out : Bytes) (chunks : List Bytes) :
    (sys.appendAll path out chunks).length ≤ out.length + chunks.flatten.length := by
  induction chunks generalizing out with
  | nil => simp [appendAll]
  | cons c cs ih =>
    have := ih (out ++ sys.written path out.length c)
    have := sys.length_written_le path out.length c
    simp only [appendAll, List.flatten_cons, List.length_append] at *
    omega

/-- A file is as long as all of the chunks just if every `write` takes all. -/
theorem length_appendAll_iff (path : Str) (out : Bytes) (chunks : List Bytes) :
    (sys.appendAll path out chunks).length = out.length + chunks.flatten.length ↔
      sys.TakesAll path out.length chunks := by
  induction chunks generalizing out with
  | nil => simp [appendAll, TakesAll]
  | cons c cs ih =>
    have hlen : (sys.written path out.length c).length =
        min (sys.writeCount path out.length c.length) c.length := by
      rw [written, List.length_take]
    have hle := sys.length_appendAll_le path (out ++ sys.written path out.length c) cs
    rw [appendAll, TakesAll, List.flatten_cons, List.length_append]
    by_cases hc : c.length ≤ sys.writeCount path out.length c.length
    · rw [Nat.min_eq_right hc] at hlen
      have hih := ih (out ++ sys.written path out.length c)
      rw [List.length_append, hlen] at hih
      rw [← hih, and_iff_right hc]
      omega
    · rw [List.length_append, hlen] at hle
      refine iff_of_false ?_ (fun h => hc h.1)
      omega

/-- Where writes take all bytes, all chunks are taken whole. -/
theorem takesAll_of_writesAll (h : sys.WritesAll) (path : Str) (offset : Nat)
    (chunks : List Bytes) : sys.TakesAll path offset chunks := by
  induction chunks generalizing offset with
  | nil => trivial
  | cons c cs ih => exact ⟨h path offset c.length, ih _⟩

/-- What such `write`s leave are the chunks. -/
theorem appendAll_of_takesAll {path : Str} {out : Bytes} {chunks : List Bytes}
    (h : sys.TakesAll path out.length chunks) :
    sys.appendAll path out chunks = out ++ chunks.flatten := by
  induction chunks generalizing out with
  | nil => exact (List.append_nil out).symm
  | cons c cs ih =>
    have hw : sys.written path out.length c = c := List.take_of_length_le h.1
    rw [appendAll, hw, ih (by rw [List.length_append]; exact h.2), List.flatten_cons,
      List.append_assoc]

/-- The file holds the chunks just if each of them was taken whole. -/
theorem appendAll_iff (path : Str) (chunks : List Bytes) :
    sys.appendAll path [] chunks = chunks.flatten ↔ sys.TakesAll path 0 chunks := by
  constructor
  · intro h
    refine (length_appendAll_iff path [] chunks).1 ?_
    rw [h, List.length_nil, Nat.zero_add]
  · intro h
    exact appendAll_of_takesAll (show sys.TakesAll path ([] : Bytes).length chunks from h)

end Sys

/-! ## The calls of `deflate` -/

/-- What the calls of `deflate` on a buffer put out. -/
inductive Zlib.DeflateCalls (z : Zlib) : z.Deflate → Bytes → List Bytes → z.Deflate → Prop
  | last {s input} : (z.deflate s input deflateRoom false).code = zOk →
    (z.deflate s input deflateRoom false).rest = [] →
    DeflateCalls z s input [(z.deflate s input deflateRoom false).out]
      (z.deflate s input deflateRoom false).state
  | again {s input outs t} : (z.deflate s input deflateRoom false).code = zOk →
    (z.deflate s input deflateRoom false).rest ≠ [] →
    DeflateCalls z (z.deflate s input deflateRoom false).state
      (z.deflate s input deflateRoom false).rest outs t →
    DeflateCalls z s input ((z.deflate s input deflateRoom false).out :: outs) t

section

variable (z : Zlib) (sys : Sys) (path : Str) (data : Bytes)

/-- What the calls of `deflate` put out on the buffers that are read of a block, from the number of
bytes of it that were read before. -/
inductive CompressCalls (offset size : Nat) : Nat → z.Deflate → List Bytes → z.Deflate → Prop
  | done {raw s} : size ≤ raw → CompressCalls offset size raw s [] s
  | chunk {raw s buf outs t outs' u} : raw < size →
    buf = sys.bytesRead path data (offset + raw) (min (1024 * 1024 * 2) (size - raw)) →
    z.DeflateCalls s buf outs t → CompressCalls offset size (raw + buf.length) t outs' u →
    CompressCalls offset size raw s (outs ++ outs') u

/-- What `deflate` puts out for a block of the data, call by call. -/
def Zlib.Deflated (offset size : Nat) (outs : List Bytes) : Prop :=
  ∃ outs' s, CompressCalls z sys path data offset size 0 z.deflateInit outs' s ∧
    (z.deflate s [] deflateRoom true).code = zStreamEnd ∧
    outs = outs' ++ [(z.deflate s [] deflateRoom true).out]

end

variable {z : Zlib} {sys : Sys}

/-- The state after a call of `deflate` and the `write` of what it put out. -/
def DeflateState.call (sys : Sys) (tmp : Str) (s : DeflateState z) : DeflateState z :=
  let r := z.deflate s.stream s.input deflateRoom false
  ⟨r.state, r.rest, s.out ++ sys.written tmp s.out.length r.out, s.consumed + r.out.length⟩

/-- A call that succeeds goes on while there is input left, and then ends the loop. -/
theorem deflateChunk_eq_ok {tmp : Str} {s : DeflateState z} {n : Nat}
    {y : DeflateState z ⊕ DeflateState z} (h : deflateChunk z sys tmp s n = some (.ok y)) :
    (z.deflate s.stream s.input deflateRoom false).code = zOk ∧
      y = if (s.call sys tmp).input ≠ [] then .inl (s.call sys tmp) else .inr (s.call sys tmp) := by
  obtain ⟨_, hcode, h⟩ := Prog.bind_eq_ok h
  rw [Prog.pure_apply] at h
  cases h
  exact ⟨of_decide_eq_true (Prog.ensure_eq_ok hcode), rfl⟩

/-- The inner loop of `do_compress` gives each output to one `write`. -/
theorem deflateChunk_loop_eq_ok {tmp : Str} {s s' : DeflateState z} {n : Nat}
    (h : Prog.loop (deflateChunk z sys tmp) s n = some (.ok s')) :
    ∃ outs, z.DeflateCalls s.stream s.input outs s'.stream ∧
      s'.out = sys.appendAll tmp s.out outs ∧ s'.consumed = s.consumed + outs.flatten.length := by
  refine Prog.loop_induction (P := fun s s' => ∃ outs,
    z.DeflateCalls s.stream s.input outs s'.stream ∧ s'.out = sys.appendAll tmp s.out outs ∧
      s'.consumed = s.consumed + outs.flatten.length) (fun s a ha => ?_) (fun s t a ht ih => ?_) h
  · obtain ⟨hcode, hy⟩ := deflateChunk_eq_ok ha
    split at hy
    · cases hy
    · next hrest =>
      cases hy
      refine ⟨_, .last hcode (not_not.1 hrest), rfl, ?_⟩
      rw [List.flatten_singleton]
      rfl
  · obtain ⟨hcode, hy⟩ := deflateChunk_eq_ok ht
    obtain ⟨outs, hcalls, hout, hcons⟩ := ih
    split at hy
    · next hrest =>
      cases hy
      refine ⟨_, .again hcode hrest hcalls, hout, ?_⟩
      rw [hcons, List.flatten_cons, List.length_append, ← Nat.add_assoc]
      rfl
    · cases hy

/-- The outer loop of `do_compress` does so for every buffer of the block. -/
theorem compressChunk_loop_eq_ok {fs : Files} {path tmp : Str} {data : Bytes}
    (hpath : fs.contents path = some data) {offset size raw : Nat} {s s' : DeflateState z} {n : Nat}
    (h : Prog.loop (compressChunk z sys fs path tmp offset size) (raw, s) n = some (.ok s')) :
    ∃ outs, CompressCalls z sys path data offset size raw s.stream outs s'.stream ∧
      s'.out = sys.appendAll tmp s.out outs ∧ s'.consumed = s.consumed + outs.flatten.length := by
  refine Prog.loop_induction (P := fun (t : Nat × DeflateState z) s' => ∃ outs,
    CompressCalls z sys path data offset size t.1 t.2.stream outs s'.stream ∧
      s'.out = sys.appendAll tmp t.2.out outs ∧
      s'.consumed = t.2.consumed + outs.flatten.length) (fun t a ha => ?_)
    (fun t t' a ht ih => ?_) h
  · unfold compressChunk at ha
    split at ha
    · obtain ⟨_, -, ha⟩ := Prog.bind_eq_ok ha
      obtain ⟨_, -, ha⟩ := Prog.bind_eq_ok ha
      cases ha
    · next hlt =>
      cases ha
      exact ⟨[], .done (Nat.le_of_not_lt hlt), rfl, rfl⟩
  · unfold compressChunk at ht
    split at ht
    · next hlt =>
      obtain ⟨buf, hread, ht⟩ := Prog.bind_eq_ok ht
      obtain ⟨u, hu, ht⟩ := Prog.bind_eq_ok ht
      cases ht
      obtain ⟨data', hdata', hbuf⟩ := Sys.read_eq_ok hread
      cases hpath.symm.trans hdata'
      obtain ⟨outs, hcalls, hout, hcons⟩ := deflateChunk_loop_eq_ok hu
      obtain ⟨outs', hcalls', hout', hcons'⟩ := ih
      refine ⟨outs ++ outs', .chunk hlt hbuf hcalls hcalls', ?_, ?_⟩
      · rw [hout', hout, Sys.appendAll_append]
      · rw [hcons', hcons, List.flatten_append, List.length_append, Nat.add_assoc]
    · cases ht

/-- What `do_compress` writes of what `deflate` puts out, and the size that it reports. -/
theorem doCompress_eq_ok {fs fs' : Files} {path tmp : Str} {offset size reported n : Nat}
    (htmp : fs tmp = none)
    (h : doCompress z sys fs path tmp offset size n = some (.ok (fs', reported))) :
    ∃ data outs, fs.contents path = some data ∧ z.Deflated sys path data offset size outs ∧
      fs'.contents tmp = some (sys.appendAll tmp [] outs) ∧ reported = outs.flatten.length := by
  obtain ⟨_, hpath, h⟩ := Prog.bind_eq_ok h
  obtain ⟨data, hdata⟩ := Option.isSome_iff_exists.1 (Prog.ensure_eq_ok hpath)
  have hne : path ≠ tmp := by
    rintro rfl
    rw [Files.contents, htmp] at hdata
    cases hdata
  obtain ⟨fs₁, hfs₁, h⟩ := Prog.bind_eq_ok h
  rw [Files.create, htmp] at hfs₁
  cases hfs₁
  obtain ⟨s, hloop, h⟩ := Prog.bind_eq_ok h
  obtain ⟨outs, hcalls, hout, hcons⟩ :=
    compressChunk_loop_eq_ok ((Files.contents_set_of_ne hne).trans hdata) hloop
  obtain ⟨_, hcode, h⟩ := Prog.bind_eq_ok h
  obtain ⟨fs₂, hfs₂, h⟩ := Prog.bind_eq_ok h
  cases h
  obtain ⟨d, hd, rfl⟩ := Files.update_eq_ok hfs₂
  rw [Files.set_self] at hd
  cases hd
  refine ⟨data, _, hdata, ⟨outs, _, hcalls, of_decide_eq_true (Prog.ensure_eq_ok hcode), rfl⟩, ?_, ?_⟩
  · rw [Files.contents_set_self, overwrite_nil_left, Sys.appendAll_append, hout]
    rfl
  · rw [hcons, List.flatten_append, List.length_append, List.flatten_singleton]
    simp

/-! ## The calls of `inflate` -/

/-- What the calls of `inflate` on a buffer put out. -/
inductive Zlib.InflateCalls (z : Zlib) : z.Inflate → Bytes → List Bytes → z.Inflate → Prop
  | done {s} : InflateCalls z s [] [] s
  | call {s input outs t} : input ≠ [] → 0 ≤ (z.inflate s input inflateRoom).code →
    InflateCalls z (z.inflateNext s input) (z.inflate s input inflateRoom).rest outs t →
    InflateCalls z s input ((z.inflate s input inflateRoom).out :: outs) t

section

variable (z : Zlib) (sys : Sys) (path : Str) (data : Bytes)

/-- What the calls of `inflate` put out on the buffers that are read of the data from an offset. -/
inductive DecompressCalls : Nat → z.Inflate → List Bytes → z.Inflate → Prop
  | done {offset s} : sys.bytesRead path data offset (1024 * 1024) = [] →
    DecompressCalls offset s [] s
  | chunk {offset s buf outs t outs' u} : buf = sys.bytesRead path data offset (1024 * 1024) →
    buf ≠ [] → z.InflateCalls s buf outs t → DecompressCalls (offset + buf.length) t outs' u →
    DecompressCalls offset s (outs ++ outs') u

/-- What `inflate` puts out for the data, call by call. -/
def Zlib.Inflated (outs : List Bytes) : Prop :=
  ∃ s, DecompressCalls z sys path data 0 z.inflateInit outs s

end

/-- The calls on a buffer are determined. -/
theorem Zlib.InflateCalls.unique {s t t' : z.Inflate} {input : Bytes} {outs outs' : List Bytes}
    (h : z.InflateCalls s input outs t) (h' : z.InflateCalls s input outs' t') :
    outs = outs' ∧ t = t' := by
  induction h generalizing outs' t' with
  | done =>
    cases h' with
    | done => exact ⟨rfl, rfl⟩
    | call hin => exact absurd rfl hin
  | call hin _ _ ih =>
    cases h' with
    | done => exact absurd rfl hin
    | call _ _ hrest =>
      obtain ⟨rfl, rfl⟩ := ih hrest
      exact ⟨rfl, rfl⟩

/-- The calls on a file are determined. -/
theorem DecompressCalls.unique {path : Str} {data : Bytes} {offset : Nat} {s t t' : z.Inflate}
    {outs outs' : List Bytes} (h : DecompressCalls z sys path data offset s outs t)
    (h' : DecompressCalls z sys path data offset s outs' t') : outs = outs' := by
  induction h generalizing outs' t' with
  | done hend =>
    cases h' with
    | done => rfl
    | chunk hbuf hne => exact absurd (hbuf.trans hend) hne
  | chunk hbuf hne hcalls _ ih =>
    cases h' with
    | done hend => exact absurd (hbuf.trans hend) hne
    | chunk hbuf' _ hcalls' hrest =>
      obtain rfl := hbuf.trans hbuf'.symm
      obtain ⟨rfl, rfl⟩ := hcalls.unique hcalls'
      rw [ih hrest]

/-- What is inflated of a file is the same in every run. -/
theorem Zlib.Inflated.unique {path : Str} {data : Bytes} {outs outs' : List Bytes}
    (h : z.Inflated sys path data outs) (h' : z.Inflated sys path data outs') : outs = outs' := by
  obtain ⟨t, ht⟩ := h
  obtain ⟨t', ht'⟩ := h'
  exact ht.unique ht'

/-- The inner loop of `file_decompressor` gives each output to one `write`. -/
theorem inflateChunk_loop_eq_ok {tmp : Str} {s s' : InflateState z} {n : Nat}
    (h : Prog.loop (inflateChunk z sys tmp) s n = some (.ok s')) :
    ∃ outs, z.InflateCalls s.stream s.input outs s'.stream ∧
      s'.out = sys.appendAll tmp s.out outs ∧ s'.offset = s.offset := by
  refine Prog.loop_induction (P := fun s s' => ∃ outs,
    z.InflateCalls s.stream s.input outs s'.stream ∧ s'.out = sys.appendAll tmp s.out outs ∧
      s'.offset = s.offset) (fun s a ha => ?_) (fun s t a ht ih => ?_) h
  · unfold inflateChunk at ha
    split at ha
    · obtain ⟨_, -, ha⟩ := Prog.bind_eq_ok ha
      cases ha
    · next hin =>
      cases ha
      refine ⟨[], ?_, rfl, rfl⟩
      rw [not_not.1 hin]
      exact .done
  · unfold inflateChunk at ht
    split at ht
    · next hin =>
      obtain ⟨_, hcode, ht⟩ := Prog.bind_eq_ok ht
      cases ht
      obtain ⟨outs, hcalls, hout, hoff⟩ := ih
      exact ⟨_, .call hin (of_decide_eq_true (Prog.ensure_eq_ok hcode)) hcalls, hout, hoff⟩
    · cases ht

/-- The outer loop of `file_decompressor` does so for every buffer of the file. -/
theorem decompressChunk_loop_eq_ok {fs : Files} {path tmp : Str} {data : Bytes}
    (hpath : fs.contents path = some data) {s s' : InflateState z} {n : Nat}
    (h : Prog.loop (decompressChunk z sys fs path tmp) s n = some (.ok s')) :
    ∃ outs, DecompressCalls z sys path data s.offset s.stream outs s'.stream ∧
      s'.out = sys.appendAll tmp s.out outs := by
  refine Prog.loop_induction (P := fun s s' => ∃ outs,
    DecompressCalls z sys path data s.offset s.stream outs s'.stream ∧
      s'.out = sys.appendAll tmp s.out outs) (fun s a ha => ?_) (fun s t a ht ih => ?_) h
  · obtain ⟨buf, hread, ha⟩ := Prog.bind_eq_ok ha
    obtain ⟨data', hdata', rfl⟩ := Sys.read_eq_ok hread
    cases hpath.symm.trans hdata'
    split at ha
    · next hbuf =>
      cases ha
      exact ⟨[], .done hbuf, rfl⟩
    · obtain ⟨_, -, ha⟩ := Prog.bind_eq_ok ha
      cases ha
  · obtain ⟨buf, hread, ht⟩ := Prog.bind_eq_ok ht
    obtain ⟨data', hdata', hbuf⟩ := Sys.read_eq_ok hread
    cases hpath.symm.trans hdata'
    split at ht
    · cases ht
    · next hne =>
      obtain ⟨u, hu, ht⟩ := Prog.bind_eq_ok ht
      cases ht
      obtain ⟨outs, hcalls, hout, hoff⟩ := inflateChunk_loop_eq_ok hu
      obtain ⟨outs', hcalls', hout'⟩ := ih
      rw [hoff] at hcalls'
      refine ⟨outs ++ outs', .chunk hbuf hne hcalls hcalls', ?_⟩
      rw [hout', hout, Sys.appendAll_append]

/-- What `file_decompressor` puts at the result of what `inflate` puts out. -/
theorem fileDecompressor_writes {fs fs' : Files} {source result tmp : Str} {mtime : Int64}
    {mode n : Nat} (htmp : fs tmp = none) (hne : result ≠ tmp)
    (h : fileDecompressor z sys fs source result tmp mtime mode n = some (.ok fs')) :
    ∃ data outs, fs.contents source = some data ∧ z.Inflated sys source data outs ∧
      fs' result = some (.file ⟨sys.appendAll tmp [] outs, mtime, mode⟩) := by
  obtain ⟨hsource, fs₁, s, f, hcreate, hloop, hf, rfl⟩ := fileDecompressor_ok h
  obtain ⟨data, hdata⟩ := Option.isSome_iff_exists.1 hsource
  have hsrc : source ≠ tmp := by
    rintro rfl
    rw [Files.contents, htmp] at hdata
    cases hdata
  rw [Files.create, htmp] at hcreate
  cases hcreate
  obtain ⟨outs, hcalls, hout⟩ :=
    decompressChunk_loop_eq_ok ((Files.contents_set_of_ne hsrc).trans hdata) hloop
  rw [Files.set_self] at hf
  cases hf
  refine ⟨data, outs, hdata, ⟨_, hcalls⟩, ?_⟩
  rw [Files.unlink_of_ne _ hne, Files.set_self, overwrite_nil_left, hout]

end ExtremeS3
