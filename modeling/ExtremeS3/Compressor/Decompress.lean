import ExtremeS3.Compressor.Zlib
import ExtremeS3.Files

/-!
# The decompression of a file

`file_decompressor` reads a file buffer by buffer and feeds each buffer to an inflating stream,
which it initializes again after the end of every member. What it puts out goes to a temporary file
that is renamed in the end. `Zlib.Feeds` is the rule for its loops: what is known of the stream and of
the bytes that follow is known again after the last of them, wherever the buffers end.
-/

namespace ExtremeS3

/-- What the loops of `file_decompressor::operator()` change: the offset in the source, the stream,
the input that is left, and what stands in the temporary file. -/
structure InflateState (z : Zlib) where
  offset : Nat
  stream : z.Inflate
  input : Bytes
  out : Bytes

/-- The body of the inner loop of `file_decompressor::operator()`. -/
def inflateChunk (z : Zlib) (sys : Sys) (tmp : Str) (s : InflateState z) :
    Prog TransferError (InflateState z ⊕ InflateState z) :=
  if s.input ≠ [] then do
    let r := z.inflate s.stream s.input inflateRoom
    .ensure (0 ≤ r.code) .gz
    let out := s.out ++ sys.written tmp s.out.length r.out
    -- for gzip files with concatenated content
    let stream := if r.code = zStreamEnd then z.inflateInit else r.state
    pure (.inl ⟨s.offset, stream, r.rest, out⟩)
  else pure (.inr s)

/-- The body of the outer loop of `file_decompressor::operator()`. -/
def decompressChunk (z : Zlib) (sys : Sys) (fs : Files) (source tmp : Str) (s : InflateState z) :
    Prog TransferError (InflateState z ⊕ InflateState z) := do
  let buf ← sys.read fs source s.offset (1024 * 1024)
  if buf = [] then pure (.inr s)
  else do
    let s' ← .loop (inflateChunk z sys tmp) { s with offset := s.offset + buf.length, input := buf }
    pure (.inl s')

/-- `file_decompressor::operator()`, with the `unlink` at its end. -/
def fileDecompressor (z : Zlib) (sys : Sys) (fs : Files) (source result tmp : Str) (mtime : Int64)
    (mode : Nat) : Prog TransferError Files := do
  .ensure (fs.contents source).isSome (.system source)
  let fs ← fs.create sys tmp 0o600
  let s ← .loop (decompressChunk z sys fs source tmp) ⟨0, z.inflateInit, [], []⟩
  let fs ← fs.update tmp fun f => { f with data := overwrite f.data 0 s.out, mtime := sys.now }
  let fs ← fs.update tmp fun f => { f with mtime := mtime }
  let fs ← fs.update tmp fun f => { f with mode := mode }
  let fs ← fs.rename tmp result
  pure (fs.unlink tmp)

variable {z : Zlib} {sys : Sys}

/-- What is known of a stream and of the bytes that it is fed with, in so many calls at most: each
call takes a part of them and keeps what is known, or throws if it may. -/
structure Zlib.Feeds (z : Zlib) (R : Nat → z.Inflate → Bytes → Prop) (throws : Prop) : Prop where
  step : ∀ {n s bytes input}, R n s bytes → input ≠ [] → input <+: bytes →
    ((z.inflate s input inflateRoom).code < 0 ∧ throws) ∨
    (0 ≤ (z.inflate s input inflateRoom).code ∧ ∃ n' taken bytes', n' < n ∧
      input = taken ++ (z.inflate s input inflateRoom).rest ∧ bytes = taken ++ bytes' ∧
      R n' (z.inflateNext s input) bytes')

/-- The inner loop takes all of its input, or throws. -/
theorem Zlib.Feeds.inflateChunk {R : Nat → z.Inflate → Bytes → Prop} {throws : Prop}
    (hf : z.Feeds R throws) (sys : Sys) (tmp : Str) {s : InflateState z} {n : Nat} {bytes : Bytes}
    (h : R n s.stream (s.input ++ bytes)) :
    (∃ s', (Prog.loop (ExtremeS3.inflateChunk z sys tmp) s).Evals (.ok s') ∧ s'.offset = s.offset ∧
      ∃ n', R n' s'.stream bytes) ∨
    ((Prog.loop (ExtremeS3.inflateChunk z sys tmp) s).Evals (.error .gz) ∧ throws) := by
  suffices hloops : (∃ s', Prog.Loops (ExtremeS3.inflateChunk z sys tmp) s (.ok s') ∧
      s'.offset = s.offset ∧ ∃ n', R n' s'.stream bytes) ∨
      (Prog.Loops (ExtremeS3.inflateChunk z sys tmp) s (.error .gz) ∧ throws) by
    rcases hloops with ⟨s', hs', hend⟩ | ⟨hgz, hthrows⟩
    · exact .inl ⟨s', hs'.evals, hend⟩
    · exact .inr ⟨hgz.evals, hthrows⟩
  induction n using Nat.strongRecOn generalizing s with
  | ind n ih =>
    by_cases hin : s.input = []
    · rw [hin, List.nil_append] at h
      refine .inl ⟨s, .done ?_, rfl, n, h⟩
      exact Prog.evals_if_neg (not_not_intro hin) (Prog.evals_pure _)
    · rcases hf.step h hin (List.prefix_append _ _) with
        ⟨hcode, hthrows⟩ | ⟨hcode, n', taken, bytes', hn', htaken, hbytes, hnext⟩
      · refine .inr ⟨.throws (Prog.evals_if_pos hin (Prog.Evals.bind_error ?_)), hthrows⟩
        exact Prog.evals_ensure_not (by simpa using hcode) _
      · set r := z.inflate s.stream s.input inflateRoom with hr
        have hrest : bytes' = r.rest ++ bytes := by
          rw [htaken, List.append_assoc] at hbytes
          exact (List.append_cancel_left hbytes).symm
        rw [hrest] at hnext
        have hbody : (ExtremeS3.inflateChunk z sys tmp s).Evals (.ok (.inl ⟨s.offset,
            z.inflateNext s.stream s.input, r.rest,
            s.out ++ sys.written tmp s.out.length r.out⟩)) :=
          Prog.evals_if_pos hin ((Prog.evals_ensure (decide_eq_true hcode) _).bind
            (Prog.evals_pure _))
        rcases ih n' hn' (s := ⟨s.offset, z.inflateNext s.stream s.input, r.rest,
            s.out ++ sys.written tmp s.out.length r.out⟩) hnext with
          ⟨s', hs', hoff, hend⟩ | ⟨hgz, hthrows⟩
        · exact .inl ⟨s', .again hbody hs', hoff, hend⟩
        · exact .inr ⟨.again hbody hgz, hthrows⟩

/-- The outer loop takes all of the file, or throws. -/
theorem Zlib.Feeds.decompressChunk {R : Nat → z.Inflate → Bytes → Prop} {throws : Prop}
    (hf : z.Feeds R throws) (hr : sys.Reads) {fs : Files} {source : Str} {data : Bytes}
    (hsource : fs.contents source = some data) (tmp : Str) {n : Nat}
    (h : R n z.inflateInit data) :
    (∃ s, (Prog.loop (ExtremeS3.decompressChunk z sys fs source tmp)
        ⟨0, z.inflateInit, [], []⟩).Evals (.ok s) ∧ ∃ n', R n' s.stream []) ∨
    ((Prog.loop (ExtremeS3.decompressChunk z sys fs source tmp) ⟨0, z.inflateInit, [], []⟩).Evals
      (.error .gz) ∧ throws) := by
  have hends : ∃ r, (Prog.loop (ExtremeS3.decompressChunk z sys fs source tmp)
      ⟨0, z.inflateInit, [], []⟩).Evals r ∧
      ((∃ s, r = .ok s ∧ ∃ n', R n' s.stream []) ∨ (r = .error .gz ∧ throws)) := by
    refine Prog.exists_evals_loop_except (I := fun t : InflateState z => t.offset ≤ data.length ∧
      ∃ n', R n' t.stream (data.drop t.offset)) (fun t => data.length - t.offset) (fun t ht => ?_)
      ⟨Nat.zero_le _, n, h⟩
    obtain ⟨hle, n', hR⟩ := ht
    obtain ⟨k, hk, hkn, hread⟩ := Sys.evals_read hr hsource t.offset
      (show 0 < 1024 * 1024 by decide)
    by_cases hend : (data.drop t.offset).take k = []
    · have hlen : data.length ≤ t.offset := by
        have := congrArg List.length hend
        rw [List.length_take, List.length_drop, List.length_nil] at this
        omega
      rw [List.drop_of_length_le hlen] at hR
      exact .inr (.inl ⟨t, hread.bind (Prog.evals_if_pos hend (Prog.evals_pure _)),
        .inl ⟨t, rfl, n', hR⟩⟩)
    · set buf := (data.drop t.offset).take k with hbuf
      have hsplit : data.drop t.offset = buf ++ data.drop (t.offset + buf.length) := by
        obtain ⟨rest, hrest⟩ := List.take_prefix k (data.drop t.offset)
        rw [← List.drop_drop, ← hrest, ← hbuf, List.drop_left]
      rw [hsplit] at hR
      have hpos : 0 < buf.length := List.length_pos_iff.2 hend
      have hbound : t.offset + buf.length ≤ data.length := by
        rw [hbuf, List.length_take, List.length_drop]
        omega
      rcases hf.inflateChunk sys tmp
          (s := { t with offset := t.offset + buf.length, input := buf }) hR with
        ⟨s', hloop, hoff, n'', hR'⟩ | ⟨hgz, hthrows⟩
      · dsimp only at hoff
        refine .inl ⟨s', ?_, ⟨by omega, n'', by rwa [hoff]⟩, by omega⟩
        exact hread.bind (Prog.evals_if_neg hend (hloop.bind (Prog.evals_pure _)))
      · refine .inr (.inr ⟨.gz, ?_, .inr ⟨rfl, hthrows⟩⟩)
        exact hread.bind (Prog.evals_if_neg hend hgz.bind_error)
  obtain ⟨r, hr, ⟨s, rfl, hs⟩ | ⟨rfl, hthrows⟩⟩ := hends
  · exact .inl ⟨s, hr, hs⟩
  · exact .inr ⟨hr, hthrows⟩

section

variable {fs : Files} {source result tmp : Str} {data : Bytes}
  (hsource : fs.contents source = some data) (htmp : fs tmp = none)

include hsource htmp

/-- Making the temporary file leaves the source as it is. -/
theorem contents_create_tmp (node : Option Node) :
    (fs.set tmp node).contents source = some data := by
  have hne : source ≠ tmp := by
    rintro rfl
    rw [Files.contents, htmp] at hsource
    cases hsource
  exact (Files.contents_set_of_ne hne).trans hsource

/-- What is decompressed is written to the temporary file, and then renamed. -/
theorem fileDecompressor_of_rename {s : InflateState z} (hloop : (Prog.loop (decompressChunk z sys
      (fs.set tmp (some (.file ⟨[], sys.now, 0o600⟩))) source tmp)
        ⟨0, z.inflateInit, [], []⟩).Evals (.ok s)) {mtime : Int64} {mode : Nat}
    {r : Except TransferError Files}
    (hrename : ((fs.set tmp (some (.file ⟨s.out, mtime, mode⟩))).rename tmp result >>=
      fun fs => pure (fs.unlink tmp)).Evals r) :
    (fileDecompressor z sys fs source result tmp mtime mode).Evals r := by
  refine (Prog.evals_ensure (by rw [hsource]; rfl) _).bind ?_
  refine (Files.evals_create htmp sys _).bind (hloop.bind ?_)
  refine (Files.evals_update (Files.set_self ..) _).bind ?_
  refine (Files.evals_update (Files.set_self ..) _).bind ?_
  refine (Files.evals_update (Files.set_self ..) _).bind ?_
  simp only [Files.set_set, overwrite_nil_left]
  exact hrename

/-- A decompressor whose loops return puts what they wrote at the result. -/
theorem fileDecompressor_of_loop (hne : result ≠ tmp) (hresult : fs result ≠ some .dir)
    {s : InflateState z} (hloop : (Prog.loop (decompressChunk z sys
      (fs.set tmp (some (.file ⟨[], sys.now, 0o600⟩))) source tmp)
        ⟨0, z.inflateInit, [], []⟩).Evals (.ok s)) (mtime : Int64) (mode : Nat) :
    (fileDecompressor z sys fs source result tmp mtime mode).Evals
      (.ok (fs.set result (some (.file ⟨s.out, mtime, mode⟩)))) := by
  refine fileDecompressor_of_rename hsource htmp hloop ?_
  refine (Files.evals_rename (Files.set_self ..) (by rwa [Files.set_of_ne hne])).bind ?_
  rw [Files.set_set, Files.set_eq_self htmp, Files.unlink_of_none]
  · exact Prog.evals_pure _
  · rwa [Files.set_of_ne hne.symm]

/-- It throws if there is a directory at the result. -/
theorem fileDecompressor_of_loop_dir (hne : result ≠ tmp) (hresult : fs result = some .dir)
    {s : InflateState z} (hloop : (Prog.loop (decompressChunk z sys
      (fs.set tmp (some (.file ⟨[], sys.now, 0o600⟩))) source tmp)
        ⟨0, z.inflateInit, [], []⟩).Evals (.ok s)) (mtime : Int64) (mode : Nat) :
    (fileDecompressor z sys fs source result tmp mtime mode).Evals (.error (.system result)) := by
  refine fileDecompressor_of_rename hsource htmp hloop (Files.evals_rename_dir _ ?_).bind_error
  rwa [Files.set_of_ne hne]

/-- An exception of the loop is that of the decompressor. -/
theorem fileDecompressor_of_loop_error {e : TransferError} (hloop : (Prog.loop (decompressChunk z sys
      (fs.set tmp (some (.file ⟨[], sys.now, 0o600⟩))) source tmp)
        ⟨0, z.inflateInit, [], []⟩).Evals (.error e)) (result : Str) (mtime : Int64) (mode : Nat) :
    (fileDecompressor z sys fs source result tmp mtime mode).Evals (.error e) := by
  refine (Prog.evals_ensure (by rw [hsource]; rfl) _).bind ?_
  exact (Files.evals_create htmp sys _).bind hloop.bind_error

end

/-- What a decompression that ends has gone through. -/
theorem fileDecompressor_ok {fs fs' : Files} {source result tmp : Str} {mtime : Int64} {mode n : Nat}
    (h : fileDecompressor z sys fs source result tmp mtime mode n = some (.ok fs')) :
    (fs.contents source).isSome ∧ ∃ fs₁ s f, fs.create sys tmp 0o600 n = some (.ok fs₁) ∧
      Prog.loop (decompressChunk z sys fs₁ source tmp) ⟨0, z.inflateInit, [], []⟩ n =
        some (.ok s) ∧
      fs₁ tmp = some (.file f) ∧
      fs' = ((fs₁.set tmp none).set result
        (some (.file ⟨overwrite f.data 0 s.out, mtime, mode⟩))).unlink tmp := by
  obtain ⟨_, hsource, h⟩ := Prog.bind_eq_ok h
  obtain ⟨fs₁, h₁, h⟩ := Prog.bind_eq_ok h
  obtain ⟨s, hloop, h⟩ := Prog.bind_eq_ok h
  obtain ⟨fs₂, h₂, h⟩ := Prog.bind_eq_ok h
  obtain ⟨fs₃, h₃, h⟩ := Prog.bind_eq_ok h
  obtain ⟨fs₄, h₄, h⟩ := Prog.bind_eq_ok h
  obtain ⟨fs₅, h₅, h⟩ := Prog.bind_eq_ok h
  cases h
  obtain ⟨f, hf, rfl⟩ := Files.update_eq_ok h₂
  obtain ⟨f₃, hf₃, rfl⟩ := Files.update_eq_ok h₃
  obtain ⟨f₄, hf₄, rfl⟩ := Files.update_eq_ok h₄
  obtain ⟨f₅, hf₅, rfl⟩ := Files.rename_eq_ok h₅
  rw [Files.set_self] at hf₃ hf₄ hf₅
  cases hf₃
  cases hf₄
  cases hf₅
  refine ⟨Prog.ensure_eq_ok hsource, fs₁, s, f, h₁, hloop, hf, ?_⟩
  simp only [Files.set_set]

/-- A decompressor that returns renamed its output. -/
theorem fileDecompressor_eq_ok {fs fs' : Files} {source result tmp : Str} {mtime : Int64}
    {mode n : Nat} (hne : result ≠ tmp)
    (h : fileDecompressor z sys fs source result tmp mtime mode n = some (.ok fs')) :
    ∃ f, fs' result = some (.file f) := by
  obtain ⟨-, fs₁, s, f, -, -, -, rfl⟩ := fileDecompressor_ok h
  exact ⟨_, (Files.unlink_of_ne _ hne).trans (Files.set_self ..)⟩

/-- The output took the place of the result, and nothing else changed. -/
theorem fileDecompressor_leaves {fs fs' : Files} {source result tmp : Str} {mtime : Int64}
    {mode n : Nat} (hne : result ≠ tmp)
    (h : fileDecompressor z sys fs source result tmp mtime mode n = some (.ok fs')) :
    fs' tmp = none ∧ ∀ q, q ≠ result → q ≠ tmp → fs' q = fs q := by
  obtain ⟨-, fs₁, s, f, hcreate, -, -, rfl⟩ := fileDecompressor_ok h
  obtain ⟨-, -, f₁, rfl⟩ := Files.create_eq_ok hcreate
  rw [Files.set_set]
  refine ⟨Files.unlink_eq_none ?_ tmp, fun q hq hq' => ?_⟩
  · rw [Files.set_of_ne hne.symm, Files.set_self]
  · rw [Files.unlink_of_ne _ hq', Files.set_of_ne hq, Files.set_of_ne hq']

end ExtremeS3
