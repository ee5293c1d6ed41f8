import ExtremeS3.Compressor.Calls

/-!
# Which files the decompressor accepts

A decoder takes bytes in any buffers and says, within them, that a member ends or that they cannot be
the beginning of one; otherwise it wants more. `file_decompressor` returns from a concatenation of
members with their contents (`fileDecompressor_spec`), and throws when the decoder does. It does not
ask whether the decoder wants more at the end of the file, so that it accepts a file that ends within
a member as well. `accepts_exactly_iff` says when a file is treated as it should be.
-/

namespace ExtremeS3

variable {z : Zlib} {sys : Sys}

/-! ## Members one after the other -/

namespace Zlib

/-- A part of the members that is given to the stream, and what it puts out for it. -/
theorem Inflating.inflateCalls {n : Nat} {s t : z.Inflate} {input bytes out : Bytes}
    {outs : List Bytes} (h : z.Inflating n s (input ++ bytes) out)
    (hcalls : z.InflateCalls s input outs t) :
    ∃ n' out', z.Inflating n' t bytes out' ∧ out = outs.flatten ++ out' := by
  induction hcalls generalizing n out with
  | done => exact ⟨n, out, h, rfl⟩
  | call hin hcode _ ih =>
    obtain ⟨-, n', taken, bytes', out', -, htaken, hbytes, rfl, hnext⟩ :=
      h.step hin (List.prefix_append _ _)
    rw [htaken, List.append_assoc] at hbytes
    rw [← List.append_cancel_left hbytes] at hnext
    obtain ⟨n'', out'', hinf, rfl⟩ := ih hnext
    exact ⟨n'', out'', hinf, by rw [List.flatten_cons, List.append_assoc]⟩

/-- What the calls put out for all of the members is all of their contents. -/
theorem Inflating.decompressCalls (hr : sys.Reads) {path : Str} {data out : Bytes} {n offset : Nat}
    {s t : z.Inflate} {outs : List Bytes} (h : z.Inflating n s (data.drop offset) out)
    (hcalls : DecompressCalls z sys path data offset s outs t) : out = outs.flatten := by
  induction hcalls generalizing n out with
  | @done offset s hend =>
    rw [Sys.bytesRead_eq_nil hr (by decide) hend] at h
    exact h.out_eq_nil
  | @chunk offset s buf outs t outs' u hbuf _ hcalls _ ih =>
    rw [Sys.drop_eq_bytesRead_append path data offset (1024 * 1024), ← hbuf] at h
    obtain ⟨n', out', hinf, rfl⟩ := h.inflateCalls hcalls
    rw [List.flatten_append, ih hinf]

/-- The part that is left of a stream that inflates goes on to inflate, and is never exhausted. -/
theorem inflating_feeds :
    z.Feeds (fun n s bytes => ∃ out, z.Inflating n s bytes out) False where
  step := by
    rintro n s bytes input ⟨out, h⟩ hne hpre
    obtain ⟨hcode, n', taken, bytes', out', hn', hin, hbytes, -, hnext⟩ := h.step hne hpre
    exact .inr ⟨hcode, n', taken, bytes', hn', hin, hbytes, out', hnext⟩

/-- The loops of the decompressor take all of the members, and put out their contents. -/
theorem Inflating.decompressChunk_loop (hr : sys.Reads) {fs : Files} {source : Str}
    {data content : Bytes} (hsource : fs.contents source = some data) (tmp : Str) {n : Nat}
    (h : z.Inflating n z.inflateInit data content) :
    ∃ s outs, (Prog.loop (decompressChunk z sys fs source tmp) ⟨0, z.inflateInit, [], []⟩).Evals
      (.ok s) ∧ z.Inflated sys source data outs ∧ content = outs.flatten ∧
        s.out = sys.appendAll tmp [] outs := by
  obtain ⟨s, hloop, -⟩ | ⟨-, hthrows⟩ := inflating_feeds.decompressChunk hr hsource tmp ⟨content, h⟩
  · obtain ⟨k, hk⟩ := hloop.exists_eq
    obtain ⟨outs, hcalls, hout⟩ := decompressChunk_loop_eq_ok hsource hk
    exact ⟨s, outs, hloop, ⟨_, hcalls⟩, h.decompressCalls hr hcalls, hout⟩
  · exact hthrows.elim

end Zlib

/-- From members, the decompressor puts a file with their contents, the time and the mode at the
result. -/
theorem fileDecompressor_spec (hr : sys.Reads) (hw : sys.WritesAll) {fs : Files}
    {source result tmp : Str} {data content : Bytes} (hsource : fs.contents source = some data)
    (htmp : fs tmp = none) (hne : result ≠ tmp) (hresult : fs result ≠ some .dir) {n : Nat}
    (h : z.Inflating n z.inflateInit data content) (mtime : Int64) (mode : Nat) :
    (fileDecompressor z sys fs source result tmp mtime mode).Evals
      (.ok (fs.set result (some (.file ⟨content, mtime, mode⟩)))) := by
  have hsource' := contents_create_tmp hsource htmp (some (.file ⟨[], sys.now, 0o600⟩))
  obtain ⟨s, outs, hloop, -, hcontent, hout⟩ := h.decompressChunk_loop hr hsource' tmp
  rw [(Sys.appendAll_iff tmp outs).2 (Sys.takesAll_of_writesAll hw ..), ← hcontent] at hout
  rw [← hout]
  exact fileDecompressor_of_loop hsource htmp hne hresult hloop mtime mode

/-! ## Files that are not members one after the other -/

namespace Zlib

/-- From the state, all of the bytes are taken in so many calls at most, and the stream wants more. -/
def CutIn (z : Zlib) : Nat → z.Inflate → Bytes → Prop
  | 0, _, _ => False
  | n + 1, s, bytes => ∀ input, input ≠ [] → input <+: bytes →
      let r := z.inflate s input inflateRoom
      0 ≤ r.code ∧ r.code ≠ zStreamEnd ∧ ∃ taken bytes', input = taken ++ r.rest ∧
        bytes = taken ++ bytes' ∧ (bytes' = [] ∨ z.CutIn n r.state bytes')

/-- From the state, a call fails before all of the bytes are taken. -/
def FailsIn (z : Zlib) : Nat → z.Inflate → Bytes → Prop
  | 0, _, _ => False
  | n + 1, s, bytes => ∀ input, input ≠ [] → input <+: bytes →
      let r := z.inflate s input inflateRoom
      r.code < 0 ∨
      (0 ≤ r.code ∧ r.code ≠ zStreamEnd ∧ ∃ taken bytes', input = taken ++ r.rest ∧
        bytes = taken ++ bytes' ∧ bytes' ≠ [] ∧ z.FailsIn n r.state bytes')

/-- The bytes begin with no member: they are cut off, or no member begins so. -/
def Stuck (z : Zlib) (bytes : Bytes) : Prop :=
  bytes ≠ [] ∧ ∃ n, z.CutIn n z.inflateInit bytes ∨ z.FailsIn n z.inflateInit bytes

/-- An incremental decoder: whatever the buffers are, the bytes begin with a member, or are cut off
within one, or the decoder fails. -/
def Decoder (z : Zlib) : Prop :=
  ∀ bytes, bytes ≠ [] → (∃ m x rest, bytes = m ++ rest ∧ z.Member m x) ∨ z.Stuck bytes

/-- The data is a concatenation of members, and what they hold. -/
def Contents (z : Zlib) (data x : Bytes) : Prop :=
  ∃ ms xs, List.Forall₂ z.Member ms xs ∧ data = ms.flatten ∧ x = xs.flatten

/-- The data ends within a member. -/
def EndsWithin (z : Zlib) (data : Bytes) : Prop :=
  ∃ ms xs tail n, List.Forall₂ z.Member ms xs ∧ data = ms.flatten ++ tail ∧ tail ≠ [] ∧
    z.CutIn n z.inflateInit tail

/-- The decoder fails behind the members that the data begins with. -/
def FailsWithin (z : Zlib) (data : Bytes) : Prop :=
  ∃ ms xs tail n, List.Forall₂ z.Member ms xs ∧ data = ms.flatten ++ tail ∧ tail ≠ [] ∧
    z.FailsIn n z.inflateInit tail

/-- Two rests of members that begin the same bytes are the same. -/
theorem InflatesIn.unique {n n' : Nat} {s : z.Inflate} {m x m' x' rest rest' : Bytes}
    (h : z.InflatesIn n s m x) (h' : z.InflatesIn n' s m' x') (hne : m ≠ [])
    (he : m ++ rest = m' ++ rest') : m = m' := by
  induction n generalizing n' s m x m' x' with
  | zero => exact h.elim
  | succ n ih =>
    cases n' with
    | zero => exact h'.elim
    | succ n' =>
      have hin : m ++ rest ≠ [] := List.append_ne_nil_of_left_ne_nil hne _
      have hstep := h (m ++ rest) rest hin (List.prefix_refl _)
      have hstep' := h' (m ++ rest) rest' hin (he ▸ List.prefix_refl _)
      rcases hstep with ⟨hend, hin₁, -⟩ | ⟨-, hgo, taken, m₁, x₁, hin₁, rfl, hne₁, -, hrest⟩
      · rcases hstep' with ⟨-, hin₂, -⟩ | ⟨-, hgo, -⟩
        · exact List.append_cancel_right (hin₁.symm.trans hin₂)
        · exact absurd hend hgo
      · rcases hstep' with ⟨hend, -⟩ | ⟨-, -, taken', m₂, x₂, hin₂, rfl, -, -, hrest'⟩
        · exact absurd hend hgo
        · obtain rfl : taken = taken' := List.append_cancel_right (hin₁.symm.trans hin₂)
          rw [List.append_assoc, List.append_assoc] at he
          rw [ih hrest hrest' hne₁ (List.append_cancel_left he)]

/-- What goes on from call to call, without the end of a member, is not true of bytes that begin with
the rest of one. -/
theorem InflatesIn.not_of_step {T : Nat → z.Inflate → Bytes → Prop}
    (hT : ∀ n s bytes, bytes ≠ [] → T n s bytes →
      let r := z.inflate s bytes inflateRoom
      r.code < 0 ∨ r.code ≠ zStreamEnd ∧ ∃ n' taken bytes', bytes = taken ++ r.rest ∧
        bytes = taken ++ bytes' ∧ T n' r.state bytes')
    {n n' : Nat} {s : z.Inflate} {m x rest : Bytes} (h : z.InflatesIn n s m x) (hne : m ≠ []) :
    ¬ T n' s (m ++ rest) := by
  induction n generalizing n' s m x with
  | zero => exact h.elim
  | succ n ih =>
    intro hm
    have hin : m ++ rest ≠ [] := List.append_ne_nil_of_left_ne_nil hne _
    have hstep := h (m ++ rest) rest hin (List.prefix_refl _)
    rcases hT n' s (m ++ rest) hin hm with hneg | ⟨hgo, k, taken', bytes', hin₂, hbytes, hnext⟩
    · rcases hstep with ⟨hend, -⟩ | ⟨hcode, -⟩
      · rw [hend] at hneg
        exact absurd hneg (by decide)
      · exact absurd hneg (Int.not_lt.2 hcode)
    · rcases hstep with ⟨hend, -⟩ | ⟨-, -, taken, m₁, x₁, hin₁, rfl, hne₁, -, hrest⟩
      · exact hgo hend
      · obtain rfl : taken = taken' := List.append_cancel_right (hin₁.symm.trans hin₂)
        rw [List.append_assoc] at hbytes
        obtain rfl := List.append_cancel_left hbytes
        exact ih hrest hne₁ hnext

/-- Bytes that begin with the rest of a member are not cut off. -/
theorem InflatesIn.not_cutIn {n n' : Nat} {s : z.Inflate} {m x rest : Bytes}
    (h : z.InflatesIn n s m x) (hne : m ≠ []) : ¬ z.CutIn n' s (m ++ rest) := by
  intro hcut
  refine h.not_of_step (T := fun n s bytes => bytes = [] ∨ z.CutIn n s bytes) ?_ hne (.inr hcut)
  intro n s bytes hbytes hcut
  cases n with
  | zero => exact (hcut.resolve_left hbytes).elim
  | succ n =>
    obtain ⟨-, hgo, taken, bytes', hin, hb, hnext⟩ :=
      hcut.resolve_left hbytes bytes hbytes (List.prefix_refl _)
    exact .inr ⟨hgo, n, taken, bytes', hin, hb, hnext⟩

/-- The decoder does not fail on bytes that begin with the rest of a member. -/
theorem InflatesIn.not_failsIn {n n' : Nat} {s : z.Inflate} {m x rest : Bytes}
    (h : z.InflatesIn n s m x) (hne : m ≠ []) : ¬ z.FailsIn n' s (m ++ rest) := by
  refine h.not_of_step (T := z.FailsIn) ?_ hne
  intro n s bytes hbytes hfails
  cases n with
  | zero => exact hfails.elim
  | succ n =>
    rcases hfails bytes hbytes (List.prefix_refl _) with
      hneg | ⟨-, hgo, taken, bytes', hin, hb, -, hnext⟩
    · exact .inl hneg
    · exact .inr ⟨hgo, n, taken, bytes', hin, hb, hnext⟩

/-- What begins with a member is not stuck. -/
theorem Member.not_stuck {m x rest : Bytes} (h : z.Member m x) : ¬ z.Stuck (m ++ rest) := by
  obtain ⟨hne, k, hk⟩ := h
  rintro ⟨-, n, hcut | hfails⟩
  · exact hk.not_cutIn hne hcut
  · exact hk.not_failsIn hne hfails

/-- What is stuck behind members is no concatenation of members. -/
theorem not_contents_of_stuck {ms xs : List Bytes} (h : List.Forall₂ z.Member ms xs) {tail x : Bytes}
    (htail : z.Stuck tail) : ¬ z.Contents (ms.flatten ++ tail) x := by
  rintro ⟨ms', xs', h', he, -⟩
  induction h generalizing ms' xs' with
  | nil =>
    rw [List.flatten_nil, List.nil_append] at he
    cases h' with
    | nil => exact htail.1 he
    | cons hm _ =>
      rw [he, List.flatten_cons] at htail
      exact hm.not_stuck htail
  | cons hm _ ih =>
    rw [List.flatten_cons, List.append_assoc] at he
    cases h' with
    | nil => exact hm.1 (List.append_eq_nil_iff.1 he).1
    | cons hm' hms' =>
      rw [List.flatten_cons] at he
      obtain ⟨hne, k, hk⟩ := hm
      obtain ⟨-, k', hk'⟩ := hm'
      obtain rfl := hk.unique hk' hne he
      exact ih _ _ hms' (List.append_cancel_left he)

/-- A decoder takes all of the data member by member, or it ends within one, or the decoder fails. -/
theorem Decoder.cases (hz : z.Decoder) (data : Bytes) :
    (∃ x, z.Contents data x) ∨ z.EndsWithin data ∨ z.FailsWithin data := by
  induction hn : data.length using Nat.strongRecOn generalizing data with
  | ind n ih =>
    subst hn
    by_cases hne : data = []
    · exact .inl ⟨[], [], [], .nil, hne, rfl⟩
    · rcases hz data hne with ⟨m, x, rest, rfl, hm⟩ | ⟨-, n, hcut | hfails⟩
      · have hlen : rest.length < (m ++ rest).length := by
          rw [List.length_append]
          have := List.length_pos_iff.2 hm.1
          omega
        rcases ih _ hlen rest rfl with
          ⟨y, ms, xs, hms, rfl, rfl⟩ | ⟨ms, xs, tail, n, hms, rfl, htail⟩ |
            ⟨ms, xs, tail, n, hms, rfl, htail⟩
        · exact .inl ⟨_, m :: ms, x :: xs, .cons hm hms, rfl, rfl⟩
        · exact .inr (.inl ⟨m :: ms, x :: xs, tail, n, .cons hm hms, by simp, htail⟩)
        · exact .inr (.inr ⟨m :: ms, x :: xs, tail, n, .cons hm hms, by simp, htail⟩)
      · exact .inr (.inl ⟨[], [], data, n, .nil, rfl, hne, hcut⟩)
      · exact .inr (.inr ⟨[], [], data, n, .nil, rfl, hne, hfails⟩)

/-- Data that end within a stream have no content. -/
theorem EndsWithin.not_contents {data : Bytes} (h : z.EndsWithin data) (x : Bytes) :
    ¬ z.Contents data x := by
  obtain ⟨ms, xs, tail, n, hms, rfl, hne, hcut⟩ := h
  exact not_contents_of_stuck hms ⟨hne, n, .inl hcut⟩

/-- Data that fail within a stream have no content. -/
theorem FailsWithin.not_contents {data : Bytes} (h : z.FailsWithin data) (x : Bytes) :
    ¬ z.Contents data x := by
  obtain ⟨ms, xs, tail, n, hms, rfl, hne, hfails⟩ := h
  exact not_contents_of_stuck hms ⟨hne, n, .inr hfails⟩

/-- Members are left, and what is left behind them. -/
inductive Tailed (z : Zlib) (T : Nat → z.Inflate → Bytes → Prop) : Nat → z.Inflate → Bytes → Prop
  | tail {n s bytes} : T n s bytes → Tailed z T n s bytes
  | within {n k s m x rest} : m ≠ [] → z.InflatesIn n s m x → Tailed z T k z.inflateInit rest →
    Tailed z T (n + k) s (m ++ rest)

/-- Something is left as long as something is left of the tail. -/
theorem Tailed.ne_nil {T : Nat → z.Inflate → Bytes → Prop} {n : Nat} {s : z.Inflate} {bytes : Bytes}
    (h : z.Tailed T n s bytes) (hT : ∀ {n s bytes}, T n s bytes → bytes ≠ []) : bytes ≠ [] := by
  cases h with
  | tail htail => exact hT htail
  | within hm => exact List.append_ne_nil_of_left_ne_nil hm _

/-- After streams that are whole comes what comes after them. -/
theorem exists_tailed {T : Nat → z.Inflate → Bytes → Prop} {ms xs : List Bytes}
    (h : List.Forall₂ z.Member ms xs) {n : Nat} {tail : Bytes} (htail : T n z.inflateInit tail) :
    ∃ k, z.Tailed T k z.inflateInit (ms.flatten ++ tail) := by
  induction h with
  | nil => exact ⟨n, .tail htail⟩
  | cons hm _ ih =>
    obtain ⟨hne, j, hj⟩ := hm
    obtain ⟨k, hk⟩ := ih
    refine ⟨j + k, ?_⟩
    rw [List.flatten_cons, List.append_assoc]
    exact .within hne hj hk

/-- Members in front of what is known of a tail. -/
theorem Feeds.tailed {T : Nat → z.Inflate → Bytes → Prop} {throws : Prop} (hf : z.Feeds T throws) :
    z.Feeds (z.Tailed T) throws where
  step := by
    intro n s bytes input h hne hpre
    cases h with
    | tail htail =>
      rcases hf.step htail hne hpre with hthrows | ⟨hcode, n', taken, bytes', hlt, hin, hb, hT⟩
      · exact .inl hthrows
      · exact .inr ⟨hcode, n', taken, bytes', hlt, hin, hb, .tail hT⟩
    | @within n k _ m x rest _ hn hrest =>
      obtain ⟨hcode, n', taken, m', x', hlt, hin, rfl, rfl, ⟨rfl, rfl, hnext⟩ | ⟨hm', hnext⟩⟩ :=
        hn.step hne hpre
      · refine .inr ⟨hcode, k, taken, rest, by omega, hin, by rw [List.append_nil], ?_⟩
        rwa [hnext]
      · exact .inr ⟨hcode, n' + k, taken, m' ++ rest, by omega, hin, List.append_assoc ..,
          .within hm' hnext hrest⟩

/-- The part that is left of data that are cut goes on to be cut, until it is empty. -/
theorem cutIn_feeds : z.Feeds (fun n s bytes => bytes = [] ∨ z.CutIn n s bytes) False where
  step := by
    intro n s bytes input h hne hpre
    have hcut := h.resolve_left fun hb => hne (List.prefix_nil.1 (hb ▸ hpre))
    cases n with
    | zero => exact hcut.elim
    | succ n =>
      obtain ⟨hcode, hgo, taken, bytes', hin, hb, hrest⟩ := hcut input hne hpre
      refine .inr ⟨hcode, n, taken, bytes', Nat.lt_succ_self n, hin, hb, ?_⟩
      rwa [inflateNext, if_neg hgo]

/-- The part that is left of data that fail goes on to fail, and may fail at once. -/
theorem failsIn_feeds : z.Feeds (fun n s bytes => bytes ≠ [] ∧ z.FailsIn n s bytes) True where
  step := by
    intro n s bytes input h hne hpre
    cases n with
    | zero => exact h.2.elim
    | succ n =>
      rcases h.2 input hne hpre with hneg | ⟨hcode, hgo, taken, bytes', hin, hb, hne', hrest⟩
      · exact .inl ⟨hneg, trivial⟩
      · refine .inr ⟨hcode, n, taken, bytes', Nat.lt_succ_self n, hin, hb, hne', ?_⟩
        rwa [inflateNext, if_neg hgo]

/-- The loops of the decompressor return from data that ends within a member. -/
theorem EndsWithin.decompressChunk_loop (hr : sys.Reads) {fs : Files} {source : Str} {data : Bytes}
    (hsource : fs.contents source = some data) (tmp : Str) (h : z.EndsWithin data) :
    ∃ s, (Prog.loop (decompressChunk z sys fs source tmp) ⟨0, z.inflateInit, [], []⟩).Evals
      (.ok s) := by
  obtain ⟨ms, xs, tail, n, hms, rfl, -, hcut⟩ := h
  obtain ⟨k, hk⟩ := exists_tailed (T := fun n s bytes => bytes = [] ∨ z.CutIn n s bytes) hms
    (.inr hcut)
  obtain ⟨s, hloop, -⟩ | ⟨-, hthrows⟩ := cutIn_feeds.tailed.decompressChunk hr hsource tmp hk
  · exact ⟨s, hloop⟩
  · exact hthrows.elim

/-- They throw where the decoder fails. -/
theorem FailsWithin.decompressChunk_loop (hr : sys.Reads) {fs : Files} {source : Str} {data : Bytes}
    (hsource : fs.contents source = some data) (tmp : Str) (h : z.FailsWithin data) :
    (Prog.loop (decompressChunk z sys fs source tmp) ⟨0, z.inflateInit, [], []⟩).Evals
      (.error .gz) := by
  obtain ⟨ms, xs, tail, n, hms, rfl, hne, hfails⟩ := h
  obtain ⟨k, hk⟩ := exists_tailed (T := fun n s bytes => bytes ≠ [] ∧ z.FailsIn n s bytes) hms
    ⟨hne, hfails⟩
  obtain ⟨s, -, n', hend⟩ | ⟨hgz, -⟩ := failsIn_feeds.tailed.decompressChunk hr hsource tmp hk
  · exact absurd rfl (hend.ne_nil fun h => h.1)
  · exact hgz

end Zlib

/-! ## What is accepted -/

/-- The files that `file_decompressor` leaves when it throws. From before the temporary file is
created a guard unlinks it in the end, whatever was written to it. -/
inductive DecompressorLeaves (sys : Sys) (fs : Files) (source tmp : Str) : Files → Prop
  | notOpened : fs.contents source = none → DecompressorLeaves sys fs source tmp fs
  | notCreated {e} : (fs.create sys tmp 0o600).Evals (.error e) →
    DecompressorLeaves sys fs source tmp (fs.unlink tmp)
  | unlinked {fs₁} (f : FileData) : (fs.create sys tmp 0o600).Evals (.ok fs₁) →
    DecompressorLeaves sys fs source tmp ((fs₁.set tmp (some (.file f))).unlink tmp)

/-- It leaves everything as it was, if the name of the temporary file is new. -/
theorem DecompressorLeaves.eq {fs fs' : Files} {source tmp : Str} (htmp : fs tmp = none)
    (h : DecompressorLeaves sys fs source tmp fs') : fs' = fs := by
  cases h with
  | notOpened => rfl
  | notCreated => exact Files.unlink_of_none htmp
  | unlinked f hcreate =>
    cases (Files.evals_create htmp sys 0o600).unique hcreate
    rw [Files.set_set, Files.unlink, if_neg (Files.set_file_ne_dir fs tmp f), Files.set_set,
      Files.set_eq_self htmp]

section

variable (z : Zlib) (sys : Sys) (fs : Files) (source result tmp : Str) (mtime : Int64) (mode : Nat)

/-- How `file_decompressor` ends: what it leaves, and what it throws. -/
def DecompressorEnds (fs' : Files) : Option TransferError → Prop
  | none => (fileDecompressor z sys fs source result tmp mtime mode).Evals (.ok fs')
  | some e => (fileDecompressor z sys fs source result tmp mtime mode).Evals (.error e) ∧
    DecompressorLeaves sys fs source tmp fs'

/-- `file_decompressor` ends, renames its output to the result just if the data is a concatenation
of members, and then with their contents; else it throws, and leaves the result as it was. -/
structure AcceptsExactly (data : Bytes) : Prop where
  ends : ∃ fs' e, DecompressorEnds z sys fs source result tmp mtime mode fs' e
  accepts : ∀ fs' e, DecompressorEnds z sys fs source result tmp mtime mode fs' e →
    (e = none ↔ ∃ x, z.Contents data x)
  contents : ∀ fs' e x, DecompressorEnds z sys fs source result tmp mtime mode fs' e →
    z.Contents data x → fs' result = some (.file ⟨x, mtime, mode⟩)
  unchanged : ∀ fs' e, DecompressorEnds z sys fs source result tmp mtime mode fs' e → e ≠ none →
    fs' result = fs result

end

section

variable {fs fs' : Files} {source result tmp : Str} {mtime : Int64} {mode : Nat} {data : Bytes}

/-- A decompressor ends in what it returns. -/
theorem DecompressorEnds.of_ok {fs'' : Files} {e : Option TransferError}
    (h : DecompressorEnds z sys fs source result tmp mtime mode fs' e)
    (hok : (fileDecompressor z sys fs source result tmp mtime mode).Evals (.ok fs'')) :
    e = none ∧ fs' = fs'' := by
  cases e with
  | none => cases h.unique hok; exact ⟨rfl, rfl⟩
  | some e => cases h.1.unique hok

/-- A decompressor that throws leaves what it has done so far. -/
theorem DecompressorEnds.of_error {e : Option TransferError} {e' : TransferError}
    (h : DecompressorEnds z sys fs source result tmp mtime mode fs' e)
    (herror : (fileDecompressor z sys fs source result tmp mtime mode).Evals (.error e')) :
    e = some e' ∧ DecompressorLeaves sys fs source tmp fs' := by
  cases e with
  | none => cases h.unique herror
  | some e => cases h.1.unique herror; exact ⟨rfl, h.2⟩

/-- Where it throws and the data is no concatenation of members, all is as it should be. -/
theorem AcceptsExactly.of_error {e : TransferError} (htmp : fs tmp = none)
    (herror : (fileDecompressor z sys fs source result tmp mtime mode).Evals (.error e))
    (hno : ∀ x, ¬ z.Contents data x) :
    AcceptsExactly z sys fs source result tmp mtime mode data where
  ends := ⟨_, some e, herror, .unlinked ⟨[], 0, 0⟩ (Files.evals_create htmp sys 0o600)⟩
  accepts fs' e' h := by
    obtain ⟨rfl, -⟩ := h.of_error herror
    exact iff_of_false (fun h => by cases h) fun ⟨x, hx⟩ => hno x hx
  contents fs' e' x _ hx := absurd hx (hno x)
  unchanged fs' e' h _ := by
    obtain ⟨rfl, hleaves⟩ := h.of_error herror
    rw [hleaves.eq htmp]

/-- The run on a concatenation of members. -/
theorem Zlib.Contents.decompressChunk_loop (hr : sys.Reads) (hsource : fs.contents source = some data)
    (tmp : Str) {x : Bytes} (hx : z.Contents data x) :
    ∃ s outs, (Prog.loop (decompressChunk z sys fs source tmp) ⟨0, z.inflateInit, [], []⟩).Evals
      (.ok s) ∧ z.Inflated sys source data outs ∧ x = outs.flatten ∧
        s.out = sys.appendAll tmp [] outs := by
  obtain ⟨ms, xs, hms, rfl, rfl⟩ := hx
  obtain ⟨n, hn⟩ := Zlib.inflating_flatten hms
  exact hn.decompressChunk_loop hr hsource tmp

/-- A file is treated as it should be just if it does not end within a member, unless a directory
stands at the result, and, if it is a concatenation of members, no directory does and every `write`
takes all that it is given. -/
theorem accepts_exactly_iff (hz : z.Decoder) (hr : sys.Reads)
    (hsource : fs.contents source = some data) (htmp : fs tmp = none) (hne : result ≠ tmp) :
    AcceptsExactly z sys fs source result tmp mtime mode data ↔
      (z.EndsWithin data → fs result = some .dir) ∧
        ((∃ x, z.Contents data x) → fs result ≠ some .dir ∧
          ∀ outs, z.Inflated sys source data outs → sys.TakesAll tmp 0 outs) := by
  have hsource' := contents_create_tmp hsource htmp (some (.file ⟨[], sys.now, 0o600⟩))
  constructor
  · intro h
    refine ⟨fun hends => ?_, fun ⟨x, hx⟩ => ?_⟩
    · by_contra hdir
      obtain ⟨s, hloop⟩ := hends.decompressChunk_loop hr hsource' tmp
      have hrun := fileDecompressor_of_loop hsource htmp hne hdir hloop mtime mode
      obtain ⟨x, hx⟩ := (h.accepts _ none hrun).1 rfl
      exact hends.not_contents x hx
    · obtain ⟨fs', e, hend⟩ := h.ends
      obtain rfl := (h.accepts fs' e hend).2 ⟨x, hx⟩
      obtain ⟨s, outs, hloop, hinf, hcontent, hout⟩ := hx.decompressChunk_loop hr hsource' tmp
      have hdir : fs result ≠ some .dir := fun hdir => by
        have hrun := fileDecompressor_of_loop_dir hsource htmp hne hdir hloop mtime mode
        cases hrun.unique hend
      refine ⟨hdir, fun outs' hinf' => ?_⟩
      have hrun := fileDecompressor_of_loop hsource htmp hne hdir hloop mtime mode
      have hfile := h.contents _ none x hrun hx
      rw [Files.set_self] at hfile
      injection hfile with hfile
      injection hfile with hfile
      injection hfile with hfile
      rw [hinf'.unique hinf, ← Sys.appendAll_iff, ← hout, hfile, hcontent]
  · rintro ⟨hcut, hcontents⟩
    rcases hz.cases data with ⟨x, hx⟩ | hends | hfails
    · obtain ⟨hdir, htakes⟩ := hcontents ⟨x, hx⟩
      obtain ⟨s, outs, hloop, hinf, hcontent, hout⟩ := hx.decompressChunk_loop hr hsource' tmp
      have hrun := fileDecompressor_of_loop hsource htmp hne hdir hloop mtime mode
      rw [(Sys.appendAll_iff tmp outs).2 (htakes outs hinf)] at hout
      refine ⟨⟨_, none, hrun⟩, fun fs' e h => ?_, fun fs' e y h hy => ?_, fun fs' e h he => ?_⟩
      · exact iff_of_true (h.of_ok hrun).1 ⟨x, hx⟩
      · obtain ⟨-, outs', -, hinf', rfl, -⟩ := hy.decompressChunk_loop hr hsource' tmp
        rw [(h.of_ok hrun).2, Files.set_self, hout, hinf.unique hinf']
      · exact absurd (h.of_ok hrun).1 he
    · obtain ⟨s, hloop⟩ := hends.decompressChunk_loop hr hsource' tmp
      exact .of_error htmp (fileDecompressor_of_loop_dir hsource htmp hne (hcut hends) hloop mtime
        mode) hends.not_contents
    · have hloop := hfails.decompressChunk_loop hr hsource' tmp
      exact .of_error htmp (fileDecompressor_of_loop_error hsource htmp hloop result mtime mode)
        hfails.not_contents

end

/-! ### Streams of marked bytes -/

/-- From the state, the bytes begin with the rest of a member, or are cut off. -/
def Begins (s : marking.Inflate) (bytes : Bytes) : Prop :=
  (∃ m x rest n, bytes = m ++ rest ∧ m ≠ [] ∧ marking.InflatesIn n s m x) ∨
    ∃ n, marking.CutIn n s bytes

/-- A byte that one more call takes goes before data that begin well. -/
theorem Begins.cons {s t : marking.Inflate} {b : UInt8} {out : Bytes}
    (hstep : ∀ rest, marking.inflate s (b :: rest) inflateRoom = ⟨zOk, rest, out, t⟩)
    {bytes : Bytes} (h : Begins t bytes) : Begins s (b :: bytes) := by
  have hok : 0 ≤ zOk ∧ zOk ≠ zStreamEnd := by decide
  rcases h with ⟨m, x, rest, n, rfl, hm, hn⟩ | ⟨n, hcut⟩
  · refine .inl ⟨b :: m, out ++ x, rest, n + 1, rfl, List.cons_ne_nil _ _, ?_⟩
    intro input follows hne hpre
    obtain ⟨r, rfl⟩ := eq_cons_of_prefix hne hpre
    rw [hstep]
    exact .inr ⟨hok.1, hok.2, [b], m, x, rfl, rfl, hm, rfl, hn⟩
  · refine .inr ⟨n + 1, fun input hne hpre => ?_⟩
    obtain ⟨r, rfl⟩ := eq_cons_of_prefix hne hpre
    rw [hstep]
    exact ⟨hok.1, hok.2, [b], bytes, rfl, rfl, .inr hcut⟩

/-- All bytes begin well. -/
theorem begins (bytes : Bytes) : ∀ s, Begins s bytes := by
  induction bytes with
  | nil => exact fun s => .inr ⟨1, fun input hne hpre => absurd (List.prefix_nil.1 hpre) hne⟩
  | cons b bytes ih =>
    intro s
    cases s with
    | true => exact .cons (fun rest => rfl) (ih false)
    | false =>
      by_cases hb : b = 0
      · subst hb
        exact .inl ⟨[0], [], bytes, 1, rfl, List.cons_ne_nil _ _, inflatesIn_marked []⟩
      · have hstep : ∀ rest, marking.inflate false (b :: rest) inflateRoom =
            ⟨zOk, rest, [], true⟩ := fun rest => if_neg hb
        exact .cons hstep (ih true)

/-- Marking is a decoder as `zlib` is documented. -/
theorem marking_decoder : marking.Decoder := by
  intro bytes hne
  rcases begins bytes false with ⟨m, x, rest, n, rfl, hm, hn⟩ | ⟨n, hcut⟩
  · exact .inl ⟨m, x, rest, rfl, hm, n, hn⟩
  · exact .inr ⟨hne, n, .inl hcut⟩

/-- `accepts_exactly_iff` for a member. -/
theorem accepts_exactly_iff_member : AcceptsExactly marking .full
    (onlyFile "/s".toList [1, 5, 0]) "/s".toList "/r".toList "/r-t".toList 0 0o600 [1, 5, 0] := by
  have hmember : marking.Contents [1, 5, 0] [5] :=
    ⟨[marked [5]], [[5]], .cons ⟨List.cons_ne_nil _ _, _, inflatesIn_marked [5]⟩ .nil, rfl, rfl⟩
  refine (accepts_exactly_iff marking_decoder Sys.full_reads (contents_onlyFile ..) rfl
    (by decide)).2 ⟨fun h => absurd hmember (h.not_contents _), fun _ => ⟨?_, fun outs _ => ?_⟩⟩
  · rw [onlyFile_of_ne (by decide)]
    exact fun h => by cases h
  · exact Sys.takesAll_of_writesAll Sys.full_writesAll _ _ _

/-- The beginning of a member is accepted. -/
theorem cut_member_accepted : ¬ ∀ (z : Zlib) (sys : Sys) (fs : Files) (source result tmp : Str)
    (mtime : Int64) (mode : Nat) (data : Bytes), z.Decoder → sys.Reads → sys.WritesAll →
      fs.contents source = some data → fs tmp = none → result ≠ tmp → fs result ≠ some .dir →
      AcceptsExactly z sys fs source result tmp mtime mode data := by
  intro h
  have hends : marking.EndsWithin [1] := by
    refine ⟨[], [], [1], 1, .nil, rfl, List.cons_ne_nil _ _, fun input hne hpre => ?_⟩
    obtain ⟨r, rfl⟩ := eq_cons_of_prefix hne hpre
    have hok : 0 ≤ zOk ∧ zOk ≠ zStreamEnd := by decide
    exact ⟨hok.1, hok.2, [1], [], rfl, rfl, .inl rfl⟩
  have hdir : onlyFile "/s".toList [1] "/r".toList ≠ some .dir :=
    Files.ne_dir_of_none (onlyFile_of_ne (by decide) _)
  have haccepts := h marking .full (onlyFile "/s".toList [1]) "/s".toList "/r".toList "/r-t".toList
    0 0o600 [1] marking_decoder Sys.full_reads Sys.full_writesAll (contents_onlyFile ..) rfl
    (by decide) hdir
  have hsource : (Files.set (onlyFile "/s".toList [1]) "/r-t".toList
      (some (.file ⟨[], 0, 0o600⟩))).contents "/s".toList = some [1] :=
    contents_create_tmp (contents_onlyFile "/s".toList [1]) rfl _
  obtain ⟨s, hloop⟩ := hends.decompressChunk_loop Sys.full_reads hsource "/r-t".toList
  have hrun := fileDecompressor_of_loop (contents_onlyFile "/s".toList [1]) rfl (by decide) hdir
    hloop 0 0o600
  obtain ⟨x, hx⟩ := (haccepts.accepts _ none hrun).1 rfl
  exact hends.not_contents x hx

end ExtremeS3
