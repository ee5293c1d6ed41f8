import ExtremeS3.Agenda.Basic
import ExtremeS3.Common
import ExtremeS3.Lib.Decimal

/-!
# What the agenda displays

`format_si` prints a number of bytes in units of one byte, of 1024 or of 1048576, with the hundredths
of the unit behind a point. The hundredths are printed as a number of their own, without a zero in
front; so `10292`, which is 10.05 units, is displayed as `10.5 K`. `format_si_iff` says for which
numbers the display is right up to a hundredth of the unit, and which numbers of one unit are
displayed in their order. `draw_progress_widget` displays the sizes and the speeds of the transfers
in this way (`drawTransfer_close`, `drawProgressWidget_infix`).
-/

namespace ExtremeS3

/-! ## The code -/

/-- The denominator that `format_si` divides by, and the unit that it names. -/
def siUnit (val : Nat) : Nat × Str :=
  if val < 10000 then (1, "B".toList)
  else if val < 2000000 then (1024, "K".toList)
  else (1024 * 1024, "M".toList)

/-- `agenda::format_si`. -/
def formatSi (val : Nat) (_perSec : Bool) : Str × Str :=
  let denom := (siUnit val).1
  let first := intToString (toSigned (val / denom))
  if val % denom ≠ 0 then
    (first ++ ".".toList ++ intToString (toSigned (val % denom * 100 % 2 ^ 64 / denom)),
      (siUnit val).2)
  else (first, (siUnit val).2)

/-- The speed that `draw_progress_widget` computes from the bytes and the milliseconds. -/
def transferSpeed (bytes el : Nat) : Nat := if el = 0 then 0 else bytes * 1000 % 2 ^ 64 / el

/-- What `draw_progress_widget` displays of the bytes of one direction. -/
def drawTransfer (label : Str) (bytes el : Nat) : Str :=
  if bytes ≠ 0 then
    let size := formatSi bytes false
    let speed := formatSi (transferSpeed bytes el) true
    "  ".toList ++ label ++ ": ".toList ++ size.1 ++ " ".toList ++ size.2 ++ ", speed: ".toList ++
      speed.1 ++ " ".toList ++ speed.2 ++ "/sec".toList
  else []

/-- `agenda::draw_progress_widget`, with the counters `uploaded` and `downloaded` of `cur_stats_`. -/
def drawProgressWidget (a : Agenda) (uploaded downloaded el : Nat) : Str :=
  "Tasks: [".toList ++ Nat.toDigits 10 a.numDone ++ "/".toList ++
    Nat.toDigits 10 a.numSubmitted ++ "]".toList ++
    (if a.numFailed ≠ 0 then " Failed tasks: ".toList ++ Nat.toDigits 10 a.numFailed else []) ++
    drawTransfer "Downloaded".toList downloaded el ++ drawTransfer "Uploaded".toList uploaded el ++
    "\r".toList

/-! ## What is read -/

/-- The bytes of a unit. -/
def unitBytes (unit : Str) : Option Nat :=
  if unit = "B".toList then some 1
  else if unit = "K".toList then some 1024
  else if unit = "M".toList then some 1048576
  else none

/-- The bytes that a number with its unit denotes. -/
def shownBytes (shown : Str × Str) : Option ℚ :=
  (readDecimal shown.1).bind fun x => (unitBytes shown.2).map fun unit => x * unit

/-- What is displayed is a number of bytes that differs from the one meant by less than a hundredth
of the unit. -/
def ShownClosely (val : Nat) (perSec : Bool) : Prop :=
  ∃ bytes unit, shownBytes (formatSi val perSec) = some bytes ∧
    unitBytes (formatSi val perSec).2 = some unit ∧ |bytes - val| < (unit : ℚ) / 100

/-- What is displayed are numbers of bytes, the first of them not greater than the second. -/
def ShownInOrder (val val' : Nat) (perSec : Bool) : Prop :=
  ∃ bytes bytes', shownBytes (formatSi val perSec) = some bytes ∧
    shownBytes (formatSi val' perSec) = some bytes' ∧ bytes ≤ bytes'

/-- What is left over is at least a hundredth of the unit, but less than a tenth. -/
def DropsZero (val : Nat) : Prop :=
  (siUnit val).1 ≤ val % (siUnit val).1 * 100 ∧ val % (siUnit val).1 * 10 < (siUnit val).1

instance (val : Nat) : Decidable (DropsZero val) := inferInstanceAs (Decidable (_ ∧ _))

/-- Both have as many whole units, a zero is dropped of the first one only, and the second one has
fewer hundredths than ten times those of the first. -/
def Overtakes (val val' : Nat) : Prop :=
  let unit := (siUnit val).1
  val / unit = val' / unit ∧ DropsZero val ∧ unit ≤ val' % unit * 10 ∧
    val' % unit * 100 / unit < val % unit * 100 / unit * 10

instance (val val' : Nat) : Decidable (Overtakes val val') :=
  inferInstanceAs (Decidable (_ ∧ _ ∧ _ ∧ _))

/-- The three units, and the values that are shown without one. -/
theorem siUnit_cases (val : Nat) : val < 10000 ∧ siUnit val = (1, "B".toList) ∨
    siUnit val = (1024, "K".toList) ∨ siUnit val = (1048576, "M".toList) := by
  unfold siUnit
  split
  · next h => exact .inl ⟨h, rfl⟩
  · split
    · exact .inr (.inl rfl)
    · exact .inr (.inr rfl)

/-- The unit that is printed can be read back. -/
theorem unitBytes_siUnit (val : Nat) : unitBytes (siUnit val).2 = some (siUnit val).1 := by
  rcases siUnit_cases val with ⟨-, h⟩ | h | h
  · rw [h]
    rfl
  · rw [h]
    rfl
  · rw [h]
    rfl

/-- The units are positive and no greater than a megabyte. -/
theorem siUnit_bounds (val : Nat) : 0 < (siUnit val).1 ∧ (siUnit val).1 ≤ 1048576 := by
  rcases siUnit_cases val with ⟨-, h⟩ | h | h
  · rw [h]
    decide
  · rw [h]
    decide
  · rw [h]
    decide

/-- What is printed is followed by the unit. -/
theorem formatSi_snd (val : Nat) (perSec : Bool) : (formatSi val perSec).2 = (siUnit val).2 := by
  unfold formatSi
  dsimp only
  split
  · rfl
  · rfl

/-- The whole units fit in a signed number. -/
theorem div_siUnit_lt {val : Nat} (hval : val < 2 ^ 64) : val / (siUnit val).1 < 2 ^ 63 := by
  rcases siUnit_cases val with ⟨hlt, h⟩ | h | h
  · rw [h, Nat.div_one]
    omega
  · rw [h]
    dsimp only
    omega
  · rw [h]
    dsimp only
    omega

/-- What `format_si` prints denotes the whole units, and the hundredths as they are read behind the
point. -/
theorem shownBytes_formatSi {val : Nat} (hval : val < 2 ^ 64) (perSec : Bool) :
    shownBytes (formatSi val perSec) = some (((val / (siUnit val).1 : Nat) +
      printedFraction (val % (siUnit val).1 * 100 / (siUnit val).1)) * (siUnit val).1) := by
  have hdiv := div_siUnit_lt hval
  obtain ⟨hpos, hle⟩ := siUnit_bounds val
  have hunit := unitBytes_siUnit val
  rw [← formatSi_snd val perSec] at hunit
  have hmod := Nat.mod_lt val hpos
  have hcut : val % (siUnit val).1 * 100 % 2 ^ 64 = val % (siUnit val).1 * 100 :=
    Nat.mod_eq_of_lt (by omega)
  have hhundredths : val % (siUnit val).1 * 100 / (siUnit val).1 < 2 ^ 63 :=
    Nat.lt_of_le_of_lt (Nat.div_le_self _ _) (by omega)
  have hread : readDecimal (formatSi val perSec).1 = some ((val / (siUnit val).1 : Nat) +
      printedFraction (val % (siUnit val).1 * 100 / (siUnit val).1)) := by
    unfold formatSi
    dsimp only
    rw [hcut, toSigned_of_lt hdiv, toSigned_of_lt hhundredths]
    split
    · exact readDecimal_point _ _
    · next hzero =>
      rw [not_not.1 hzero, Nat.zero_mul, Nat.zero_div, printedFraction_zero, add_zero]
      exact readDecimal_toDigits _
  rw [shownBytes, hread, hunit]
  rfl

/-! ## The distance -/

/-- How far the whole units and a fraction are from the number is decided by the fraction. -/
theorem abs_shown_sub_lt_iff {val unit : Nat} (hpos : 0 < unit) (fraction : ℚ) :
    |((val / unit : Nat) + fraction) * unit - val| < (unit : ℚ) / 100 ↔
      |fraction - (val % unit : Nat) / unit| < 1 / 100 := by
  have hposq : (0 : ℚ) < unit := by exact_mod_cast hpos
  have hval : (val : ℚ) = (val / unit : Nat) * unit + (val % unit : Nat) := by
    exact_mod_cast (Nat.div_add_mod' val unit).symm
  have hdiff : ((val / unit : Nat) + fraction) * unit - val =
      (fraction - (val % unit : Nat) / unit) * unit := by
    rw [sub_mul, div_mul_cancel₀ _ hposq.ne', hval]
    ring
  have hone : (unit : ℚ) / 100 = 1 / 100 * unit := by ring
  rw [hdiff, abs_mul, abs_of_pos hposq, hone, mul_lt_mul_iff_of_pos_right hposq]

/-- The hundredths are read right just if no zero is dropped. -/
theorem hundredths_close_iff (val : Nat) :
    |printedFraction (val % (siUnit val).1 * 100 / (siUnit val).1) -
      (val % (siUnit val).1 : Nat) / (siUnit val).1| < 1 / 100 ↔ ¬ DropsZero val := by
  have hclose := printedFraction_close_iff (k := 1) (Nat.mod_lt val (siUnit_bounds val).1)
  have hplaces : (10 : ℚ) ^ (1 + 1) = 100 := by norm_num
  rw [hplaces, show 10 ^ (1 + 1) = 100 from rfl] at hclose
  rw [hclose, DropsZero, not_and_or, Nat.not_le, Nat.not_lt]

/-- A number is displayed right up to a hundredth of the unit just if no zero is dropped. -/
theorem shownClosely_iff {val : Nat} (hval : val < 2 ^ 64) (perSec : Bool) :
    ShownClosely val perSec ↔ ¬ DropsZero val := by
  have hunit := unitBytes_siUnit val
  rw [← formatSi_snd val perSec] at hunit
  have hshown := shownBytes_formatSi hval perSec
  rw [← hundredths_close_iff, ← abs_shown_sub_lt_iff (siUnit_bounds val).1]
  constructor
  · rintro ⟨bytes, unit, hbytes, hunit', hlt⟩
    rw [hshown] at hbytes
    rw [hunit] at hunit'
    cases hbytes
    cases hunit'
    exact hlt
  · intro hlt
    exact ⟨_, _, hshown, hunit, hlt⟩

/-! ## The order -/

/-- A number below a hundred has one digit or two. -/
theorem length_toDigits_of_lt_hundred {n : Nat} (h : n < 100) :
    (Nat.toDigits 10 n).length = if n < 10 then 1 else 2 := by
  split
  · next hlt =>
    rw [Nat.toDigits_of_lt_base hlt]
    rfl
  · next hlt => exact (length_toDigits_eq_iff (k := 1) (by omega) h).2 (by omega)

/-- Hundredths are read in their order unless those of the first have one digit only, and those of
the second are less than ten times as many with two. -/
theorem hundredths_le_iff {n m : Nat} (h : n ≤ m) (hm : m < 100) :
    printedFraction n ≤ printedFraction m ↔ ¬ (1 ≤ n ∧ n < 10 ∧ 10 ≤ m ∧ m < n * 10) := by
  rw [printedFraction_le_iff h, length_toDigits_of_lt_hundred hm,
    length_toDigits_of_lt_hundred (Nat.lt_of_le_of_lt h hm)]
  by_cases hn : n < 10
  · rw [if_pos hn]
    by_cases hm' : m < 10
    · rw [if_pos hm', Nat.sub_self, Nat.pow_zero]
      omega
    · rw [if_neg hm', Nat.succ_sub_one, Nat.pow_one]
      omega
  · rw [if_neg hn, if_neg (by omega : ¬ m < 10), Nat.sub_self, Nat.pow_zero]
    omega

/-- In one unit what is displayed is ordered as the whole units and then the hundredths are. -/
theorem shownInOrder_iff_hundredths {val val' : Nat} (hval : val < 2 ^ 64) (hval' : val' < 2 ^ 64)
    (hunit : (siUnit val').1 = (siUnit val).1) (perSec : Bool) :
    ShownInOrder val val' perSec ↔ val / (siUnit val).1 < val' / (siUnit val).1 ∨
      val / (siUnit val).1 = val' / (siUnit val).1 ∧
        printedFraction (val % (siUnit val).1 * 100 / (siUnit val).1) ≤
          printedFraction (val' % (siUnit val).1 * 100 / (siUnit val).1) := by
  have hshown := shownBytes_formatSi hval perSec
  have hshown' := shownBytes_formatSi hval' perSec
  rw [hunit] at hshown'
  have hpos : (0 : ℚ) < (siUnit val).1 := by exact_mod_cast (siUnit_bounds val).1
  rw [← add_printedFraction_le_iff, ← mul_le_mul_iff_of_pos_right hpos]
  constructor
  · rintro ⟨bytes, bytes', hbytes, hbytes', hle⟩
    rw [hshown] at hbytes
    rw [hshown'] at hbytes'
    cases hbytes
    cases hbytes'
    exact hle
  · intro hle
    exact ⟨_, _, hshown, hshown', hle⟩

/-- The hundredths have two digits just when the rest is a tenth of the unit at least. -/
theorem ten_le_hundredths_iff {unit : Nat} (hpos : 0 < unit) (rest : Nat) :
    10 ≤ rest * 100 / unit ↔ unit ≤ rest * 10 := by
  rw [Nat.le_div_iff_mul_le hpos]
  omega

/-- Of two numbers in one unit the smaller one is displayed as the smaller one just if it does not
overtake the other. -/
theorem shownInOrder_iff {val val' : Nat} (hle : val ≤ val') (hval' : val' < 2 ^ 64)
    (hunit : (siUnit val').1 = (siUnit val).1) (perSec : Bool) :
    ShownInOrder val val' perSec ↔ ¬ Overtakes val val' := by
  have hval := Nat.lt_of_le_of_lt hle hval'
  rw [shownInOrder_iff_hundredths hval hval' hunit, Overtakes, DropsZero]
  have hpos := (siUnit_bounds val).1
  generalize (siUnit val).1 = unit at *
  rcases Nat.lt_or_eq_of_le (Nat.div_le_div_right (c := unit) hle) with hlt | heq
  · exact iff_of_true (.inl hlt) fun h => (Nat.ne_of_lt hlt) h.1
  · have hmod : val % unit ≤ val' % unit := by
      have h := Nat.div_add_mod val unit
      have h' := Nat.div_add_mod val' unit
      rw [heq] at h
      omega
    have hhundred : val' % unit * 100 / unit < 100 := by
      rw [Nat.div_lt_iff_lt_mul hpos, Nat.mul_comm]
      exact Nat.mul_lt_mul_of_pos_left (Nat.mod_lt _ hpos) (by decide)
    have horder := Nat.div_le_div_right (c := unit) (Nat.mul_le_mul_right 100 hmod)
    have hone : 1 ≤ val % unit * 100 / unit ↔ unit ≤ val % unit * 100 := Nat.one_le_div_iff hpos
    have hsmall : val % unit * 100 / unit < 10 ↔ val % unit * 10 < unit := by
      rw [← Nat.not_le, ten_le_hundredths_iff hpos, Nat.not_le]
    rw [heq, hundredths_le_iff horder hhundred, hone, ten_le_hundredths_iff hpos, hsmall]
    simp only [Nat.lt_irrefl, true_and, false_or, and_assoc]

/-- The texts of two units are the same only if the units are. -/
theorem siUnit_eq_of_formatSi {val val' : Nat} {perSec : Bool}
    (h : (formatSi val' perSec).2 = (formatSi val perSec).2) :
    (siUnit val').1 = (siUnit val).1 := by
  rw [formatSi_snd, formatSi_snd] at h
  have hunit := unitBytes_siUnit val'
  rw [h, unitBytes_siUnit] at hunit
  exact (Option.some.inj hunit).symm

/-! ## What is displayed right -/

/-- The number and the unit that `format_si` returns are right up to a hundredth of the unit just if
no zero is dropped, and a number that is not smaller, in the same unit, is displayed as one that is
not smaller just if it is not overtaken. -/
theorem format_si_iff {val : Nat} (hval : val < 2 ^ 64) (perSec : Bool) :
    (ShownClosely val perSec ↔ ¬ DropsZero val) ∧
      ∀ val', val ≤ val' → val' < 2 ^ 64 →
        (formatSi val' perSec).2 = (formatSi val perSec).2 →
        (ShownInOrder val val' perSec ↔ ¬ Overtakes val val') := by
  refine ⟨shownClosely_iff hval perSec, ?_⟩
  intro val' hle hval' hunit
  exact shownInOrder_iff hle hval' (siUnit_eq_of_formatSi hunit) perSec

/-- `10.19` and `10.50` units are displayed right, and in their order. -/
theorem format_si_iff_tenths :
    ShownClosely 10444 false ∧ ShownInOrder 10444 10752 false := by
  obtain ⟨hclose, horder⟩ := format_si_iff (by decide : 10444 < 2 ^ 64) false
  exact ⟨hclose.2 (by decide), (horder 10752 (by decide) (by decide) (by decide)).2 (by decide)⟩

/-- A twentieth of a unit is displayed as a half of it, and the displayed number goes down from `10.9`
to `10.10` where the bytes become one more. -/
theorem zero_dropped :
    (formatSi 10292 false = ("10.5".toList, "K".toList) ∧ ¬ ShownClosely 10292 false) ∧
      formatSi 10342 false = ("10.9".toList, "K".toList) ∧
      formatSi 10343 false = ("10.10".toList, "K".toList) ∧
      ¬ ShownInOrder 10342 10343 false := by
  refine ⟨⟨by decide, ?_⟩, by decide, by decide, ?_⟩
  · exact fun h => (shownClosely_iff (by decide) false).1 h (by decide)
  · have horder := shownInOrder_iff (by decide : 10342 ≤ 10343) (by decide) rfl false
    exact fun h => horder.1 h (by decide)

/-! ## The widget -/

/-- The speed is cut to whole bytes, where the thousandfold of the bytes fits in 64 bits. -/
theorem transferSpeed_bounds {bytes el : Nat} (hbytes : bytes * 1000 < 2 ^ 64) (hel : 0 < el) :
    (transferSpeed bytes el : ℚ) ≤ bytes * 1000 / el ∧
      (bytes * 1000 / el : ℚ) < transferSpeed bytes el + 1 := by
  have hspeed : transferSpeed bytes el = bytes * 1000 / el := by
    rw [transferSpeed, if_neg hel.ne', Nat.mod_eq_of_lt hbytes]
  obtain ⟨hle, hlt⟩ := truncated_bounds (r := bytes) (m := 1000) hel (by decide)
  have hcast : ((1000 : Nat) : ℚ) = 1000 := by norm_num
  rw [hspeed, mul_div_right_comm]
  rw [hcast, div_le_iff₀ (by norm_num)] at hle
  rw [hcast, lt_div_iff₀ (by norm_num)] at hlt
  exact ⟨hle, hlt⟩

/-- The speed is a 64-bit number, as the division of one. -/
theorem transferSpeed_lt {bytes el : Nat} : transferSpeed bytes el < 2 ^ 64 := by
  rw [transferSpeed]
  split
  · decide
  · exact Nat.lt_of_le_of_lt (Nat.div_le_self _ _) (Nat.mod_lt _ (by decide))

/-- Where no zero is dropped, the speed that is displayed differs from the speed of the transfer by
less than a hundredth of its unit and one byte per second. -/
theorem transferSpeed_close {bytes el : Nat} (hbytes : bytes * 1000 < 2 ^ 64) (hel : 0 < el)
    (hzero : ¬ DropsZero (transferSpeed bytes el)) :
    ∃ speed unit, shownBytes (formatSi (transferSpeed bytes el) true) = some speed ∧
      unitBytes (formatSi (transferSpeed bytes el) true).2 = some unit ∧
      |speed - bytes * 1000 / el| < (unit : ℚ) / 100 + 1 := by
  obtain ⟨speed, unit, hspeed, hunit, hlt⟩ := (shownClosely_iff transferSpeed_lt true).2 hzero
  obtain ⟨hle, hlt'⟩ := transferSpeed_bounds hbytes hel
  refine ⟨speed, unit, hspeed, hunit, ?_⟩
  rw [abs_sub_lt_iff] at hlt ⊢
  constructor <;> linarith [hlt.1, hlt.2]

/-- What the widget displays of a transfer are the bytes, right up to a hundredth of their unit, and
the speed, right up to a hundredth of its unit and one byte per second; provided that no zero is
dropped of either, that the clock has moved, and that the thousandfold of the bytes fits in 64
bits. -/
theorem drawTransfer_close {bytes el : Nat} (label : Str) (hpos : bytes ≠ 0)
    (hbytes : bytes * 1000 < 2 ^ 64) (hel : 0 < el) (hsize : ¬ DropsZero bytes)
    (hspeed : ¬ DropsZero (transferSpeed bytes el)) :
    ∃ size speed : Str × Str,
      drawTransfer label bytes el = "  ".toList ++ label ++ ": ".toList ++ size.1 ++ " ".toList ++
        size.2 ++ ", speed: ".toList ++ speed.1 ++ " ".toList ++ speed.2 ++ "/sec".toList ∧
      (∃ shown unit, shownBytes size = some shown ∧ unitBytes size.2 = some unit ∧
        |shown - bytes| < (unit : ℚ) / 100) ∧
      ∃ shown unit, shownBytes speed = some shown ∧ unitBytes speed.2 = some unit ∧
        |shown - bytes * 1000 / el| < (unit : ℚ) / 100 + 1 := by
  have hval : bytes < 2 ^ 64 := by omega
  refine ⟨formatSi bytes false, formatSi (transferSpeed bytes el) true, ?_, ?_, ?_⟩
  · rw [drawTransfer, if_pos hpos]
  · exact (shownClosely_iff hval false).2 hsize
  · exact transferSpeed_close hbytes hel hspeed

/-- The widget displays both directions in this way. -/
theorem drawProgressWidget_infix (a : Agenda) (uploaded downloaded el : Nat) :
    drawTransfer "Downloaded".toList downloaded el <:+:
        drawProgressWidget a uploaded downloaded el ∧
      drawTransfer "Uploaded".toList uploaded el <:+:
        drawProgressWidget a uploaded downloaded el := by
  unfold drawProgressWidget
  constructor
  · refine List.infix_append_of_infix_left (List.infix_append_of_infix_left ?_)
    exact (List.suffix_append _ _).isInfix
  · refine List.infix_append_of_infix_left ?_
    exact (List.suffix_append _ _).isInfix

end ExtremeS3
