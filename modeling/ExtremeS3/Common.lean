import Mathlib.Algebra.Group.Int.Defs
import Mathlib.Algebra.GroupWithZero.Nat
import Mathlib.Data.List.TakeWhile

/-!
# Strings and numbers

`int_to_string` prints a number of 64 bits as `atoll` reads it back (`atoll_intToString`), and `trim`
takes off the white space around a word (`trim_pad`).
-/

namespace ExtremeS3

/-- Strings, as lists of characters. -/
abbrev Str := List Char

/-- What files, segments and objects hold. -/
abbrev Bytes := List UInt8

/-- `int_to_string`. -/
def intToString : Int → Str
  | .ofNat n => Nat.toDigits 10 n
  | .negSucc n => '-' :: Nat.toDigits 10 (n + 1)

/-- The `int64_t` that a `uint64_t` is converted to. -/
def toSigned (n : Nat) : Int := if n < 2 ^ 63 then n else n - 2 ^ 64

/-- `isspace`. -/
def isSpace (c : Char) : Bool :=
  c = ' ' || c = '\t' || c = '\n' || c = '\r' || c.toNat = 11 || c.toNat = 12

/-- The number that the digits at the front of the string make up. -/
def digitsValue (s : Str) : Nat := Nat.ofDigitChars 10 (s.takeWhile Char.isDigit) 0

/-- The number that the string starts with, after white space. -/
def numberValue (s : Str) : Int :=
  match s.dropWhile isSpace with
  | '-' :: digits => -(digitsValue digits : Int)
  | '+' :: digits => digitsValue digits
  | digits => digitsValue digits

/-- `atoll`, which gives the closest number of 64 bits. -/
def atoll (s : Str) : Int :=
  let value := numberValue s
  if value < -2 ^ 63 then -2 ^ 63 else if 2 ^ 63 ≤ value then 2 ^ 63 - 1 else value

/-- The white space of `trim`. -/
def isTrimmed (c : Char) : Bool := c = ' ' || c = '\n' || c = '\r' || c = '\t'

/-- What the loop of `trim` keeps. -/
structure TrimState where
  res : Str
  hitNonWs : Bool
  wsSpan : Nat

/-- The body of the loop of `trim`. -/
def trimChar (s : TrimState) (c : Char) : TrimState :=
  if isTrimmed c then { s with wsSpan := s.wsSpan + 1 }
  else
    let res := if s.wsSpan ≠ 0 ∧ s.hitNonWs then s.res ++ List.replicate s.wsSpan ' ' else s.res
    ⟨res ++ [c], true, 0⟩

/-- `trim`. -/
def trim (str : Str) : Str := (str.foldl trimChar ⟨[], false, 0⟩).res

/-- A number below `2 ^ 63` is its own `int64_t`. -/
theorem toSigned_of_lt {n : Nat} (h : n < 2 ^ 63) : toSigned n = n := if_pos h

/-- A number is printed in digits. -/
theorem isDigit_toDigits {n : Nat} {c : Char} (h : c ∈ Nat.toDigits 10 n) : c.isDigit :=
  Nat.isDigit_of_mem_toDigits (by decide) (by decide) h

/-- The digits of a number make it up. -/
theorem digitsValue_toDigits (n : Nat) : digitsValue (Nat.toDigits 10 n) = n := by
  rw [digitsValue, List.takeWhile_eq_self_iff.2 fun c hc => isDigit_toDigits hc,
    Nat.ofDigitChars_ten_toDigits]

/-- A digit is none of the other characters that a number is read with. -/
theorem not_special_of_isDigit {c : Char} (h : c.isDigit) :
    isSpace c = false ∧ isTrimmed c = false ∧ c ≠ '-' ∧ c ≠ '+' := by
  have hn : 48 ≤ c.toNat ∧ c.toNat ≤ 57 := by
    simpa [Char.isDigit, UInt32.le_iff_toNat_le] using h
  have hne : ∀ d : Char, d.toNat < 48 → c ≠ d := fun d hd he => by
    rw [he] at hn
    omega
  simp only [isSpace, isTrimmed, hne ' ' (by decide), hne '\t' (by decide), hne '\n' (by decide),
    hne '\r' (by decide), hne '-' (by decide), hne '+' (by decide), decide_false, Bool.or_false,
    Bool.false_or, Bool.or_eq_false_iff, decide_eq_false_iff_not, ne_eq, not_false_eq_true,
    and_true]
  omega

/-- A number is printed as a string that starts with it. -/
theorem numberValue_intToString (i : Int) : numberValue (intToString i) = i := by
  cases i with
  | ofNat n =>
    rw [intToString, numberValue]
    cases hd : Nat.toDigits 10 n with
    | nil => exact absurd hd Nat.toDigits_ne_nil
    | cons c ds =>
      obtain ⟨hs, -, hm, hp⟩ := not_special_of_isDigit
        (isDigit_toDigits (show c ∈ Nat.toDigits 10 n from hd ▸ List.mem_cons_self))
      rw [List.dropWhile_cons_of_neg (by simp [hs]), ← hd]
      split
      · next h => rw [hd] at h; cases h; exact absurd rfl hm
      · next h => rw [hd] at h; cases h; exact absurd rfl hp
      · rw [digitsValue_toDigits]; rfl
  | negSucc n =>
    rw [intToString, numberValue, List.dropWhile_cons_of_neg (by decide)]
    simp only [digitsValue_toDigits]
    rfl

/-- Different numbers are printed differently. -/
theorem intToString_injective : Function.Injective intToString :=
  Function.LeftInverse.injective numberValue_intToString

/-- Printing a number of 64 bits and reading it gives it back. -/
theorem atoll_intToString {i : Int} (hle : -2 ^ 63 ≤ i) (hlt : i < 2 ^ 63) :
    atoll (intToString i) = i := by
  simp only [atoll, numberValue_intToString]
  rw [if_neg (by omega), if_neg (by omega)]

example : atoll " 18446744073709551617".toList = 2 ^ 63 - 1 := by decide

/-- Every number is printed as something. -/
theorem intToString_ne_nil (i : Int) : intToString i ≠ [] := by
  cases i with
  | ofNat n => exact Nat.toDigits_ne_nil
  | negSucc n => exact List.cons_ne_nil _ _

/-- No number is printed with white space. -/
theorem isTrimmed_intToString {i : Int} {c : Char} (h : c ∈ intToString i) :
    isTrimmed c = false := by
  cases i with
  | ofNat n => exact (not_special_of_isDigit (isDigit_toDigits h)).2.1
  | negSucc n =>
    rcases List.mem_cons.1 h with rfl | h
    · decide
    · exact (not_special_of_isDigit (isDigit_toDigits h)).2.1

/-- White space only makes the span longer. -/
theorem foldl_trimChar_space {s : Str} (h : ∀ c ∈ s, isTrimmed c) (t : TrimState) :
    s.foldl trimChar t = { t with wsSpan := t.wsSpan + s.length } := by
  induction s generalizing t with
  | nil => rfl
  | cons c s ih =>
    rw [List.foldl_cons, trimChar, if_pos (h c List.mem_cons_self),
      ih fun d hd => h d (List.mem_cons_of_mem _ hd)]
    simp only [List.length_cons, TrimState.mk.injEq, true_and]
    omega

/-- A word is kept as it is. -/
theorem foldl_trimChar_word {s : Str} (h : ∀ c ∈ s, isTrimmed c = false) (res : Str)
    (hit : Bool) : (s.foldl trimChar ⟨res, hit, 0⟩).res = res ++ s := by
  induction s generalizing res hit with
  | nil => exact (List.append_nil res).symm
  | cons c s ih =>
    have hc := h c List.mem_cons_self
    have := ih (fun d hd => h d (List.mem_cons_of_mem _ hd)) (res ++ [c]) true
    rw [List.foldl_cons, trimChar, if_neg (by simp [hc])]
    simpa using this

/-- A word with white space around it. -/
theorem trim_pad {a v b : Str} (ha : ∀ c ∈ a, isTrimmed c) (hv : ∀ c ∈ v, isTrimmed c = false)
    (hb : ∀ c ∈ b, isTrimmed c) : trim (a ++ v ++ b) = v := by
  rw [trim, List.foldl_append, List.foldl_append, foldl_trimChar_space ha,
    foldl_trimChar_space hb]
  cases v with
  | nil => rfl
  | cons c v =>
    rw [List.foldl_cons, trimChar, if_neg (by simp [hv c List.mem_cons_self])]
    simp only [Bool.false_eq_true, and_false, if_false, List.nil_append]
    exact foldl_trimChar_word (fun d hd => hv d (List.mem_cons_of_mem _ hd)) [c] true

end ExtremeS3
