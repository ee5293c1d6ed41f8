import ExtremeS3.Common
import Mathlib.Data.List.Forall2

/-!
# Compressed streams

The compressor and the decompressor drive the streams of `zlib` through buffers. `Zlib` has the
calls as functions on the state of a stream. `Zlib.Member` says that bytes are one complete `gzip`
member: inflated through any sequence of input buffers, with anything behind them, they give the
content, and the call that takes the last of them reports the end of the stream. `Zlib.Lawful` says
that the output of a deflating stream is such a member of its input; `marking` is a `Zlib` that is
lawful.
-/

namespace ExtremeS3

/-- What a call leaves: its result, what it did not take of the input, what it put out, and the
state of the stream. -/
structure ZStep (σ : Type) where
  code : Int
  rest : Bytes
  out : Bytes
  state : σ

/-- The calls of `zlib`: from a stream, with the input and the room for output, and for `deflate`
whether the flag is `Z_FINISH`. -/
structure Zlib where
  Deflate : Type
  deflateInit : Deflate
  deflate : Deflate → Bytes → Nat → Bool → ZStep Deflate
  Inflate : Type
  inflateInit : Inflate
  inflate : Inflate → Bytes → Nat → ZStep Inflate

/-- `Z_OK`. -/
def zOk : Int := 0

/-- `Z_STREAM_END`. -/
def zStreamEnd : Int := 1

/-- The size of the buffer for what `deflate` puts out. -/
def deflateRoom : Nat := 1024 * 1024

/-- The size of the buffer for what `inflate` puts out. -/
def inflateRoom : Nat := 1024 * 1024 * 2

namespace Zlib

variable {z : Zlib}

/-- The stream after a call of `inflate`, initialized again after the end of a member. -/
def inflateNext (z : Zlib) (s : z.Inflate) (input : Bytes) : z.Inflate :=
  if (z.inflate s input inflateRoom).code = zStreamEnd then z.inflateInit
  else (z.inflate s input inflateRoom).state

/-- From the state, the rest of a member inflates to the rest of its content in so many calls at
most, whatever part of it each call gets, and whatever follows. -/
def InflatesIn (z : Zlib) : Nat → z.Inflate → Bytes → Bytes → Prop
  | 0, _, _, _ => False
  | n + 1, s, m, x => ∀ input follows, input ≠ [] → input <+: m ++ follows →
      let r := z.inflate s input inflateRoom
      (r.code = zStreamEnd ∧ input = m ++ r.rest ∧ x = r.out) ∨
      (0 ≤ r.code ∧ r.code ≠ zStreamEnd ∧ ∃ taken m' x', input = taken ++ r.rest ∧
        m = taken ++ m' ∧ m' ≠ [] ∧ x = r.out ++ x' ∧ z.InflatesIn n r.state m' x')

/-- One complete `gzip` member with its content. -/
def Member (z : Zlib) (m x : Bytes) : Prop := m ≠ [] ∧ ∃ n, z.InflatesIn n z.inflateInit m x

/-- The states of a deflating stream, with all that it has taken and all that it has put out. -/
inductive Deflating (z : Zlib) : z.Deflate → Bytes → Bytes → Prop
  | init : Deflating z z.deflateInit [] []
  | step {s x y taken input} : Deflating z s x y →
      input = taken ++ (z.deflate s input deflateRoom false).rest →
      Deflating z (z.deflate s input deflateRoom false).state (x ++ taken)
        (y ++ (z.deflate s input deflateRoom false).out)

/-- What the compressor relies on: `deflate` takes its input and stops before its end only when the
buffer for its output is full, what it puts out is bounded by what it has taken, the rest of it fits
into one buffer at the end, and all of it is one member. -/
structure Lawful (z : Zlib) : Prop where
  deflate : ∀ {s x y input}, z.Deflating s x y → input ≠ [] →
    (z.deflate s input deflateRoom false).code = zOk ∧
    (z.deflate s input deflateRoom false).rest <:+ input ∧
    ((z.deflate s input deflateRoom false).rest ≠ [] →
      (z.deflate s input deflateRoom false).out.length = deflateRoom)
  bounded : ∀ n, ∃ b, ∀ {s x y}, z.Deflating s x y → x.length ≤ n → y.length ≤ b
  finish : ∀ {s x y}, z.Deflating s x y →
    (z.deflate s [] deflateRoom true).code = zStreamEnd ∧
    z.Member (y ++ (z.deflate s [] deflateRoom true).out) x

/-- What is left of a stream of members, with what is left of their contents, in so many calls at
most: the stream has just been initialized, or is within a member. -/
inductive Inflating (z : Zlib) : Nat → z.Inflate → Bytes → Bytes → Prop
  | nil : Inflating z 0 z.inflateInit [] []
  | within {n k s m x rest xs} : m ≠ [] → z.InflatesIn n s m x →
      Inflating z k z.inflateInit rest xs → Inflating z (n + k) s (m ++ rest) (x ++ xs)

/-- Members one after the other. -/
theorem inflating_flatten {ms xs : List Bytes} (h : List.Forall₂ z.Member ms xs) :
    ∃ n, z.Inflating n z.inflateInit ms.flatten xs.flatten := by
  induction h with
  | nil => exact ⟨0, .nil⟩
  | cons hm _ ih =>
    obtain ⟨hne, n, hn⟩ := hm
    obtain ⟨k, hk⟩ := ih
    exact ⟨n + k, .within hne hn hk⟩

/-- One call within a member: it takes the rest of the member, or a part of it. -/
theorem InflatesIn.step {n : Nat} {s : z.Inflate} {m x rest input : Bytes}
    (h : z.InflatesIn n s m x) (hne : input ≠ []) (hpre : input <+: m ++ rest) :
    0 ≤ (z.inflate s input inflateRoom).code ∧ ∃ n' taken m' x', n' < n ∧
      input = taken ++ (z.inflate s input inflateRoom).rest ∧ m = taken ++ m' ∧
      x = (z.inflate s input inflateRoom).out ++ x' ∧
      ((m' = [] ∧ x' = [] ∧ z.inflateNext s input = z.inflateInit) ∨
        (m' ≠ [] ∧ z.InflatesIn n' (z.inflateNext s input) m' x')) := by
  cases n with
  | zero => exact h.elim
  | succ n =>
    unfold inflateNext
    rcases h input rest hne hpre with ⟨hcode, hin, hx⟩ | ⟨hcode, hcode', taken, m', x', hin, hm,
      hm', hx, hn'⟩
    · refine ⟨by rw [hcode]; decide, n, m, [], [], Nat.lt_succ_self n, hin, (List.append_nil m).symm,
        hx.trans (List.append_nil _).symm, .inl ⟨rfl, rfl, if_pos hcode⟩⟩
    · refine ⟨hcode, n, taken, m', x', Nat.lt_succ_self n, hin, hm, hx, .inr ⟨hm', ?_⟩⟩
      rwa [if_neg hcode']

/-- One call on a part of what is left, and the initialization after the end of a member. -/
theorem Inflating.step {n : Nat} {s : z.Inflate} {bytes out input : Bytes}
    (h : z.Inflating n s bytes out) (hne : input ≠ []) (hpre : input <+: bytes) :
    0 ≤ (z.inflate s input inflateRoom).code ∧ ∃ n' taken bytes' out', n' < n ∧
      input = taken ++ (z.inflate s input inflateRoom).rest ∧ bytes = taken ++ bytes' ∧
      out = (z.inflate s input inflateRoom).out ++ out' ∧
      z.Inflating n' (z.inflateNext s input) bytes' out' := by
  cases h with
  | nil => exact absurd (List.prefix_nil.1 hpre) hne
  | @within n k _ m x rest xs _ hn hrest =>
    obtain ⟨hcode, n', taken, m', x', hlt, hin, rfl, rfl, ⟨rfl, rfl, hnext⟩ | ⟨hm', hnext⟩⟩ :=
      hn.step hne hpre
    · refine ⟨hcode, k, taken, rest, xs, by omega, hin, by rw [List.append_nil],
        by rw [List.append_nil], ?_⟩
      rwa [hnext]
    · exact ⟨hcode, n' + k, taken, m' ++ rest, x' ++ xs, by omega, hin, List.append_assoc ..,
        List.append_assoc .., .within hm' hnext hrest⟩

/-- Nothing is left of the contents when nothing is left of the members. -/
theorem Inflating.out_eq_nil {n : Nat} {s : z.Inflate} {out : Bytes} (h : z.Inflating n s [] out) :
    out = [] := by
  generalize hb : ([] : Bytes) = bytes at h
  cases h with
  | nil => rfl
  | within hm => exact absurd (List.append_eq_nil_iff.1 hb.symm).1 hm

end Zlib

/-! ## Streams of marked bytes -/

/-- A stream that marks every byte, and its end. -/
def marked (x : Bytes) : Bytes := x.flatMap (fun b => [1, b]) ++ [0]

/-- Streams of marked bytes; an inflating one knows whether it is behind a mark. -/
def marking : Zlib where
  Deflate := Bytes
  deflateInit := []
  deflate s input _ finish :=
    if finish then ⟨zStreamEnd, [], marked (s ++ input), []⟩ else ⟨zOk, [], [], s ++ input⟩
  Inflate := Bool
  inflateInit := false
  inflate behind input _ :=
    match behind, input with
    | _, [] => ⟨zOk, [], [], behind⟩
    | true, b :: rest => ⟨zOk, rest, [b], false⟩
    | false, b :: rest =>
      if b = 0 then ⟨zStreamEnd, rest, [], false⟩ else ⟨zOk, rest, [], true⟩

/-- A part of the bytes from the first one on. -/
theorem eq_cons_of_prefix {b : UInt8} {bytes input : Bytes} (hne : input ≠ [])
    (h : input <+: b :: bytes) : ∃ rest, input = b :: rest := by
  cases input with
  | nil => exact absurd rfl hne
  | cons c rest =>
    rw [List.cons_prefix_cons] at h
    exact ⟨rest, by rw [h.1]⟩

/-- Marked data inflate to what was marked. -/
theorem inflatesIn_marked (x : Bytes) :
    marking.InflatesIn (2 * x.length + 1) false (marked x) x := by
  have hok : 0 ≤ zOk ∧ zOk ≠ zStreamEnd := by decide
  induction x with
  | nil =>
    intro input follows hne h
    obtain ⟨rest, rfl⟩ := eq_cons_of_prefix hne h
    exact .inl ⟨rfl, rfl, rfl⟩
  | cons b x ih =>
    have hbyte : marking.InflatesIn (2 * x.length + 2) true (b :: marked x) (b :: x) := by
      intro input follows hne h
      obtain ⟨rest, rfl⟩ := eq_cons_of_prefix hne h
      exact .inr ⟨hok.1, hok.2, [b], marked x, x, rfl, rfl,
        List.append_ne_nil_of_right_ne_nil _ (List.cons_ne_nil _ _), rfl, ih⟩
    intro input follows hne h
    obtain ⟨rest, rfl⟩ := eq_cons_of_prefix hne h
    exact .inr ⟨hok.1, hok.2, [1], b :: marked x, b :: x, rfl, rfl, List.cons_ne_nil _ _,
      rfl, hbyte⟩

/-- What is left to deflate is what was not taken yet, and nothing comes out. -/
theorem deflating_marking {s : marking.Deflate} {x y : Bytes} (h : marking.Deflating s x y) :
    s = x ∧ y = [] := by
  induction h with
  | init => exact ⟨rfl, rfl⟩
  | @step s x y taken input _ hin ih =>
    obtain ⟨rfl, rfl⟩ := ih
    have : input = taken := by
      rw [hin]
      exact List.append_nil taken
    subst this
    exact ⟨rfl, rfl⟩

/-- Marking obeys the laws of `zlib`. -/
theorem marking_lawful : marking.Lawful where
  deflate _ _ := ⟨rfl, List.nil_suffix, fun h => absurd rfl h⟩
  bounded _ := ⟨0, fun h _ => by rw [(deflating_marking h).2]; exact Nat.le_refl 0⟩
  finish {s x y} h := by
    obtain ⟨rfl, rfl⟩ := deflating_marking h
    have hstep : marking.deflate s [] deflateRoom true = ⟨zStreamEnd, [], marked s, []⟩ := by
      show (⟨zStreamEnd, [], marked (List.append s []), []⟩ : ZStep Bytes) = _
      rw [show List.append s [] = s from List.append_nil s]
      rfl
    rw [hstep, List.nil_append]
    exact ⟨rfl, List.append_ne_nil_of_right_ne_nil _ (List.cons_ne_nil _ _), _,
      inflatesIn_marked s⟩

end ExtremeS3
