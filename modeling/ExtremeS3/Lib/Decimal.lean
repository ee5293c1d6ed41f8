import Mathlib.Algebra.Order.Field.Rat
import Mathlib.Data.List.TakeWhile
import Mathlib.Tactic.Linarith
import Mathlib.Tactic.Positivity
import Mathlib.Tactic.Ring

/-!
# Decimals that are printed as two numbers

A decimal is read as the number before its point and the digits behind it, each of them worth a
tenth of the one before. So a fraction that is cut to a number of places and printed as a number,
without the zeros in front of it, is read as a greater one. `printedFraction_close_iff` says for
which quotients it is read right, up to the place where it was cut, and `printedFraction_le_iff`
when two of them are read in their order.
-/

namespace ExtremeS3

/-- The number that digits denote. -/
def readDigits (s : List Char) : Option Nat :=
  if s ≠ [] ∧ s.all Char.isDigit then some (Nat.ofDigitChars 10 s 0) else none

/-- What digits denote behind the point. -/
def fractionValue (digits : List Char) : ℚ :=
  (Nat.ofDigitChars 10 digits 0 : ℚ) / 10 ^ digits.length

/-- The number that a decimal denotes. -/
def readDecimal (s : List Char) : Option ℚ :=
  match s.dropWhile (· ≠ '.') with
  | [] => (readDigits s).map fun n => (n : ℚ)
  | _ :: fraction => do
    let whole ← readDigits (s.takeWhile (· ≠ '.'))
    let _ ← readDigits fraction
    pure (whole + fractionValue fraction)

/-- What a number denotes that is printed behind the point. -/
def printedFraction (n : Nat) : ℚ := fractionValue (Nat.toDigits 10 n)

/-! ## Reading what is printed -/

/-- The digits of a number are read as the number. -/
theorem readDigits_toDigits (n : Nat) : readDigits (Nat.toDigits 10 n) = some n := by
  have hall : (Nat.toDigits 10 n).all Char.isDigit := by
    refine List.all_eq_true.2 fun c hc => ?_
    exact Nat.isDigit_of_mem_toDigits (by decide) (by decide) hc
  rw [readDigits, if_pos ⟨Nat.toDigits_ne_nil, hall⟩, Nat.ofDigitChars_ten_toDigits]

/-- No digit is the point. -/
theorem ne_point_of_mem_toDigits {n : Nat} {c : Char} (hc : c ∈ Nat.toDigits 10 n) :
    decide (c ≠ '.') = true := by
  refine decide_eq_true fun he => ?_
  have hdigit := Nat.isDigit_of_mem_toDigits (by decide) (by decide) hc
  rw [he] at hdigit
  exact absurd hdigit (by decide)

/-- A printed number is a decimal without a point. -/
theorem readDecimal_toDigits (n : Nat) : readDecimal (Nat.toDigits 10 n) = some (n : ℚ) := by
  have hdrop : (Nat.toDigits 10 n).dropWhile (· ≠ '.') = [] :=
    List.dropWhile_eq_nil_iff.2 fun c hc => ne_point_of_mem_toDigits hc
  rw [readDecimal, hdrop, readDigits_toDigits]
  rfl

/-- Two printed numbers with a point between them are a decimal. -/
theorem readDecimal_point (whole n : Nat) :
    readDecimal (Nat.toDigits 10 whole ++ ".".toList ++ Nat.toDigits 10 n) =
      some (whole + printedFraction n) := by
  have hpoint : ".".toList ++ Nat.toDigits 10 n = '.' :: Nat.toDigits 10 n := rfl
  have hall : ∀ c ∈ Nat.toDigits 10 whole, decide (c ≠ '.') = true :=
    fun c hc => ne_point_of_mem_toDigits hc
  rw [List.append_assoc, hpoint, readDecimal, List.dropWhile_append_of_pos hall,
    List.dropWhile_cons_of_neg (by decide), List.takeWhile_append_of_pos hall,
    List.takeWhile_cons_of_neg (by decide), List.append_nil]
  dsimp only
  rw [readDigits_toDigits, readDigits_toDigits]
  rfl

/-! ## The value of a printed fraction -/

/-- What is printed after the point is the number over the power of ten of its length. -/
theorem printedFraction_eq (n : Nat) :
    printedFraction n = (n : ℚ) / 10 ^ (Nat.toDigits 10 n).length := by
  rw [printedFraction, fractionValue, Nat.ofDigitChars_ten_toDigits]

/-- What is printed after the point is not negative. -/
theorem printedFraction_nonneg (n : Nat) : 0 ≤ printedFraction n := by
  rw [printedFraction_eq]
  positivity

/-- What is printed after the point is below one. -/
theorem printedFraction_lt_one (n : Nat) : printedFraction n < 1 := by
  have hlt : n < 10 ^ (Nat.toDigits 10 n).length :=
    (Nat.length_toDigits_le_iff (by decide) Nat.length_toDigits_pos).1 (Nat.le_refl _)
  rw [printedFraction_eq, div_lt_one (by positivity)]
  exact_mod_cast hlt

@[simp] theorem printedFraction_zero : printedFraction 0 = 0 := by
  rw [printedFraction_eq, Nat.cast_zero, zero_div]

/-- A quotient that is cut to so many parts of one is below the quotient, by less than one part. -/
theorem truncated_bounds {r d m : Nat} (hd : 0 < d) (hm : 0 < m) :
    ((r * m / d : Nat) : ℚ) / m ≤ (r : ℚ) / d ∧ (r : ℚ) / d < ((r * m / d : Nat) + 1 : ℚ) / m := by
  have hdq : (0 : ℚ) < d := by exact_mod_cast hd
  have hmq : (0 : ℚ) < m := by exact_mod_cast hm
  have hle : r * m / d * d ≤ r * m := Nat.div_mul_le_self _ _
  have hlt : r * m < (r * m / d + 1) * d := by
    rw [Nat.add_mul, Nat.one_mul]
    exact Nat.lt_div_mul_add hd
  rw [div_le_div_iff₀ hmq hdq, div_lt_div_iff₀ hdq hmq]
  exact ⟨by exact_mod_cast hle, by exact_mod_cast hlt⟩

/-- The digits of a number that is not zero fill so many places just if it is large enough. -/
theorem length_toDigits_eq_iff {n k : Nat} (hn : n ≠ 0) (hlt : n < 10 ^ (k + 1)) :
    (Nat.toDigits 10 n).length = k + 1 ↔ 10 ^ k ≤ n := by
  have hle : (Nat.toDigits 10 n).length ≤ k + 1 :=
    (Nat.length_toDigits_le_iff (by decide) (Nat.succ_pos k)).2 hlt
  have hpos : 0 < (Nat.toDigits 10 n).length := Nat.length_toDigits_pos
  cases k with
  | zero =>
    rw [pow_zero]
    omega
  | succ k =>
    have hshort := Nat.length_toDigits_le_iff (n := n) (k := k + 1) (b := 10) (by decide)
      (Nat.succ_pos k)
    omega

/-- A printed fraction that fills its places is read as it was cut. -/
theorem printedFraction_of_length {n k : Nat} (h : n = 0 ∨ (Nat.toDigits 10 n).length = k) :
    printedFraction n = (n : ℚ) / 10 ^ k := by
  rcases h with rfl | hlen
  · rw [printedFraction_zero, Nat.cast_zero, zero_div]
  · rw [printedFraction_eq, hlen]

/-- A printed fraction that does not is read as ten times as much, or more. -/
theorem le_printedFraction {n k : Nat} (h : (Nat.toDigits 10 n).length ≤ k) :
    (n : ℚ) * 10 / 10 ^ (k + 1) ≤ printedFraction n := by
  obtain ⟨j, rfl⟩ := Nat.exists_eq_add_of_le h
  have hone : (1 : ℚ) ≤ 10 ^ j := one_le_pow₀ (by norm_num)
  rw [printedFraction_eq, div_le_div_iff₀ (by positivity) (by positivity), pow_succ, pow_add]
  have hnonneg : (0 : ℚ) ≤ n * 10 * 10 ^ (Nat.toDigits 10 n).length := by positivity
  calc (n : ℚ) * 10 * 10 ^ (Nat.toDigits 10 n).length
      ≤ n * 10 * 10 ^ (Nat.toDigits 10 n).length * 10 ^ j := le_mul_of_one_le_right hnonneg hone
    _ = n * (10 ^ (Nat.toDigits 10 n).length * 10 ^ j * 10) := by ring

/-- A printed fraction that fills its places is right up to the last of them. -/
theorem abs_printedFraction_sub_lt {n k : Nat} {q : ℚ}
    (hfills : n = 0 ∨ (Nat.toDigits 10 n).length = k) (hle : (n : ℚ) / 10 ^ k ≤ q)
    (hlt : q < (n + 1 : ℚ) / 10 ^ k) : |printedFraction n - q| < 1 / 10 ^ k := by
  have hplace : (0 : ℚ) < 1 / 10 ^ k := by positivity
  rw [add_div] at hlt
  rw [printedFraction_of_length hfills, abs_sub_lt_iff]
  constructor
  · linarith
  · linarith

/-- One that does not is wrong by one of the last place, or more. -/
theorem le_abs_printedFraction_sub {n k : Nat} {q : ℚ} (hn : n ≠ 0)
    (hshort : (Nat.toDigits 10 n).length ≤ k) (hlt : q < (n + 1 : ℚ) / 10 ^ (k + 1)) :
    1 / 10 ^ (k + 1) ≤ |printedFraction n - q| := by
  have hread := le_printedFraction hshort
  have hone : (1 : ℚ) ≤ n := by exact_mod_cast Nat.one_le_iff_ne_zero.2 hn
  have hgap : ((n : ℚ) + 1) / 10 ^ (k + 1) + 1 / 10 ^ (k + 1) ≤ n * 10 / 10 ^ (k + 1) := by
    rw [← add_div]
    exact div_le_div_of_nonneg_right (by linarith) (by positivity)
  refine le_trans ?_ (le_abs_self _)
  linarith

/-- A part of a whole that is cut to some places and printed as a number is read right up to the last
place just if it is less than one of the last place, or at least a tenth of the whole. -/
theorem printedFraction_close_iff {r d k : Nat} (hr : r < d) :
    |printedFraction (r * 10 ^ (k + 1) / d) - (r : ℚ) / d| < 1 / 10 ^ (k + 1) ↔
      r * 10 ^ (k + 1) < d ∨ d ≤ r * 10 := by
  have hd : 0 < d := Nat.zero_lt_of_lt hr
  have hm : 0 < 10 ^ (k + 1) := Nat.pow_pos (by decide)
  obtain ⟨hle, hlt⟩ := truncated_bounds (r := r) hd hm
  have hzero : r * 10 ^ (k + 1) / d = 0 ↔ r * 10 ^ (k + 1) < d := Nat.div_eq_zero_iff_lt hd
  have hplace : 10 ^ k ≤ r * 10 ^ (k + 1) / d ↔ d ≤ r * 10 := by
    rw [Nat.le_div_iff_mul_le hd, Nat.pow_succ, Nat.mul_left_comm r]
    exact Nat.mul_le_mul_left_iff (Nat.pow_pos (by decide))
  have hbound : r * 10 ^ (k + 1) / d < 10 ^ (k + 1) := by
    rw [Nat.div_lt_iff_lt_mul hd, Nat.mul_comm]
    exact Nat.mul_lt_mul_of_pos_left hr hm
  rw [← hzero, ← hplace]
  push_cast at hle hlt
  generalize r * 10 ^ (k + 1) / d = n at *
  by_cases hn : n = 0
  · exact iff_of_true (abs_printedFraction_sub_lt (.inl hn) hle hlt) (.inl hn)
  · have hlength := length_toDigits_eq_iff hn hbound
    rw [or_iff_right hn, ← hlength]
    constructor
    · intro hclose
      by_contra hne
      have hshort := (Nat.length_toDigits_le_iff (b := 10) (by decide) (Nat.succ_pos k)).2 hbound
      have hwrong := le_abs_printedFraction_sub hn (k := k) (by omega) hlt
      exact absurd hclose (not_lt.2 hwrong)
    · intro hfills
      exact abs_printedFraction_sub_lt (.inr hfills) hle hlt

/-! ## The order of what is read -/

/-- Of two printed fractions the smaller number is read as the smaller one, unless it has fewer
digits and the other one is less than it with as many. -/
theorem printedFraction_le_iff {n m : Nat} (h : n ≤ m) :
    printedFraction n ≤ printedFraction m ↔
      n * 10 ^ ((Nat.toDigits 10 m).length - (Nat.toDigits 10 n).length) ≤ m := by
  have hlt : m < 10 ^ (Nat.toDigits 10 m).length :=
    (Nat.length_toDigits_le_iff (by decide) Nat.length_toDigits_pos).1 (Nat.le_refl _)
  have hlen : (Nat.toDigits 10 n).length ≤ (Nat.toDigits 10 m).length :=
    (Nat.length_toDigits_le_iff (by decide) Nat.length_toDigits_pos).2 (Nat.lt_of_le_of_lt h hlt)
  obtain ⟨j, hj⟩ := Nat.exists_eq_add_of_le hlen
  have hpow : 0 < 10 ^ (Nat.toDigits 10 n).length := Nat.pow_pos (by decide)
  rw [printedFraction_eq, printedFraction_eq, hj, Nat.add_sub_cancel_left,
    div_le_div_iff₀ (by positivity) (by positivity)]
  have hcast : (n : ℚ) * 10 ^ ((Nat.toDigits 10 n).length + j) ≤
      m * 10 ^ (Nat.toDigits 10 n).length ↔
      n * 10 ^ ((Nat.toDigits 10 n).length + j) ≤ m * 10 ^ (Nat.toDigits 10 n).length := by
    exact_mod_cast Iff.rfl
  rw [hcast, Nat.add_comm, Nat.pow_add, ← Nat.mul_assoc]
  exact Nat.mul_le_mul_right_iff hpow

/-- The numbers before the point decide, and where they are the same what is behind it. -/
theorem add_printedFraction_le_iff {a b n m : Nat} :
    (a : ℚ) + printedFraction n ≤ b + printedFraction m ↔
      a < b ∨ a = b ∧ printedFraction n ≤ printedFraction m := by
  have hn := printedFraction_lt_one n
  have hn' := printedFraction_nonneg n
  have hm := printedFraction_lt_one m
  have hm' := printedFraction_nonneg m
  rcases Nat.lt_trichotomy a b with hab | rfl | hab
  · have hle : (a : ℚ) + 1 ≤ b := by exact_mod_cast hab
    exact iff_of_true (by linarith) (.inl hab)
  · rw [add_le_add_iff_left]
    exact ⟨fun h => .inr ⟨rfl, h⟩, fun h => (h.resolve_left (Nat.lt_irrefl a)).2⟩
  · have hle : (b : ℚ) + 1 ≤ a := by exact_mod_cast hab
    exact iff_of_false (by linarith) (by omega)

end ExtremeS3
