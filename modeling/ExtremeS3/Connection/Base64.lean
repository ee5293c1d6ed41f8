import ExtremeS3.Common
import Mathlib.Data.Nat.Bitwise

/-!
# Base 64

`base64_encode` writes three bytes as four characters and pads the last group. `base64_decode` reads
groups of four characters up to the first one that is not of the alphabet, and then the group that
is not full. It reads back what was encoded, and the strings that encoding it again gives back are
just the canonical ones (`base64_round_trip_iff`).
-/

namespace ExtremeS3

/-- `base64_chars`, and the characters of `encodeLookup`. -/
def base64Chars : Str := "ABCDEFGHIJKLMNOPQRSTUVWXYZabcdefghijklmnopqrstuvwxyz0123456789+/".toList

/-- `encodeLookup`, with the zero at its end. -/
def encodeLookup (i : Nat) : Char := base64Chars.getD i '\x00'

/-- `base64Encode`. -/
def base64Encode : Bytes → Str
  | [] => []
  | [a] =>
    let temp := a.toNat <<< 16
    [encodeLookup ((temp &&& 0x00FC0000) >>> 18), encodeLookup ((temp &&& 0x0003F000) >>> 12),
      '=', '=']
  | [a, b] =>
    let temp := (a.toNat <<< 16) + (b.toNat <<< 8)
    [encodeLookup ((temp &&& 0x00FC0000) >>> 18), encodeLookup ((temp &&& 0x0003F000) >>> 12),
      encodeLookup ((temp &&& 0x00000FC0) >>> 6), '=']
  | a :: b :: c :: rest =>
    let temp := (a.toNat <<< 16) + (b.toNat <<< 8) + c.toNat
    encodeLookup ((temp &&& 0x00FC0000) >>> 18) :: encodeLookup ((temp &&& 0x0003F000) >>> 12) ::
      encodeLookup ((temp &&& 0x00000FC0) >>> 6) :: encodeLookup (temp &&& 0x0000003F) ::
      base64Encode rest

/-- `is_base64`. -/
def isBase64 (c : Char) : Bool := c.isAlphanum || c = '+' || c = '/'

/-- `base64_chars.find` as an `unsigned char`: `npos` becomes 255. -/
def findChar (c : Char) : Nat := ((base64Chars.idxOf? c).getD (2 ^ 64 - 1)) % 256

/-- The three bytes of a group of four characters. -/
def decodeGroup (charArray4 : Str) : Bytes :=
  let v i := findChar (charArray4.getD i '\x00')
  [UInt8.ofNat ((v 0 <<< 2) + ((v 1 &&& 0x30) >>> 4)),
    UInt8.ofNat (((v 1 &&& 0xf) <<< 4) + ((v 2 &&& 0x3c) >>> 2)),
    UInt8.ofNat (((v 2 &&& 0x3) <<< 6) + v 3)]

/-- The loop of `base64_decode`: the characters of the group that is not full, and the result. -/
def decodeLoop : Str → Str → Bytes → Str × Bytes
  | [], charArray4, ret => (charArray4, ret)
  | c :: s, charArray4, ret =>
    if c ≠ '=' ∧ isBase64 c then
      let charArray4 := charArray4 ++ [c]
      if charArray4.length = 4 then decodeLoop s [] (ret ++ decodeGroup charArray4)
      else decodeLoop s charArray4 ret
    else (charArray4, ret)

/-- `base64_decode`. The group that is not full is filled up with zeros. -/
def base64Decode (encodedString : Str) : Bytes :=
  let (charArray4, ret) := decodeLoop encodedString [] []
  if charArray4 ≠ [] then ret ++ (decodeGroup charArray4).take (charArray4.length - 1) else ret

/-! ## The alphabet -/

/-- A field of a number, as a mask and a shift cut it out. -/
theorem and_shiftRight (n w k : Nat) : (n &&& ((2 ^ w - 1) <<< k)) >>> k = n / 2 ^ k % 2 ^ w := by
  rw [Nat.shiftRight_and_distrib, Nat.shiftLeft_shiftRight, Nat.and_two_pow_sub_one_eq_mod,
    Nat.shiftRight_eq_div_pow]

/-- Each of the 64 digits is a character of the alphabet that is looked up as itself, and none of
them is the padding. -/
theorem encodeLookup_table : (List.range 64).all fun v =>
    findChar (encodeLookup v) = v && isBase64 (encodeLookup v) && encodeLookup v ≠ '=' := by
  decide

/-- Each character of the alphabet stands for a sextet, whose digit it is. -/
theorem base64Chars_table : base64Chars.all fun c => encodeLookup (findChar c) = c &&
    findChar c < 64 := by
  decide

/-- A value below 64 has a character of the alphabet, which is found at the value. -/
theorem find_encodeLookup {v : Nat} (h : v < 64) :
    findChar (encodeLookup v) = v ∧ isBase64 (encodeLookup v) ∧ encodeLookup v ≠ '=' := by
  have := List.all_eq_true.1 encodeLookup_table v (List.mem_range.2 h)
  simpa [and_assoc] using this

/-- The digit of a sextet is a character of the alphabet. -/
theorem encodeLookup_mem {v : Nat} (h : v < 64) : encodeLookup v ∈ base64Chars := by
  have hlen : v < base64Chars.length := h
  rw [encodeLookup, List.getD_eq_getElem _ _ hlen]
  exact List.getElem_mem hlen

/-- A character of the alphabet is the digit of the sextet it stands for. -/
theorem encodeLookup_find {c : Char} (h : c ∈ base64Chars) :
    encodeLookup (findChar c) = c ∧ findChar c < 64 := by
  simpa using List.all_eq_true.1 base64Chars_table c h

/-! ## Groups -/

/-- The values of the characters that three bytes are written with. -/
def sextets (a b c : Nat) : List Nat := [a / 4, a % 4 * 16 + b / 16, b % 16 * 4 + c / 64, c % 64]

/-- What the masks cut out of the bytes of a group. -/
theorem fields_eq {a b c : Nat} (ha : a < 256) (hb : b < 256) (hc : c < 256) :
    let temp := (a <<< 16) + (b <<< 8) + c
    [(temp &&& 0x00FC0000) >>> 18, (temp &&& 0x0003F000) >>> 12, (temp &&& 0x00000FC0) >>> 6,
      temp &&& 0x0000003F] = sextets a b c := by
  intro temp
  have htemp : temp = a * 65536 + b * 256 + c := by
    simp only [temp, Nat.shiftLeft_eq]
  have h18 : (temp &&& 0x00FC0000) >>> 18 = temp / 2 ^ 18 % 64 := and_shiftRight temp 6 18
  have h12 : (temp &&& 0x0003F000) >>> 12 = temp / 2 ^ 12 % 64 := and_shiftRight temp 6 12
  have h6 : (temp &&& 0x00000FC0) >>> 6 = temp / 2 ^ 6 % 64 := and_shiftRight temp 6 6
  have h0 : temp &&& 0x0000003F = temp % 64 := Nat.and_two_pow_sub_one_eq_mod temp 6
  rw [h18, h12, h6, h0, htemp, sextets]
  congr 1
  · omega
  congr 1
  · omega
  congr 1
  · omega
  congr 1
  omega

/-- One byte alone is two digits and two marks of padding. -/
theorem base64Encode_one (a : UInt8) :
    base64Encode [a] = ((sextets a.toNat 0 0).take 2).map encodeLookup ++ "==".toList := by
  have h := fields_eq a.toNat_lt (show 0 < 256 by decide) (show 0 < 256 by decide)
  simp only [sextets, List.cons.injEq] at h
  simp only [base64Encode, sextets, List.take_succ_cons, List.take_zero, List.map_cons, List.map_nil,
    ← h.1, ← h.2.1]
  rfl

/-- Two bytes alone are three digits and one mark of padding. -/
theorem base64Encode_two (a b : UInt8) :
    base64Encode [a, b] = ((sextets a.toNat b.toNat 0).take 3).map encodeLookup ++ "=".toList := by
  have h := fields_eq a.toNat_lt b.toNat_lt (show 0 < 256 by decide)
  simp only [sextets, List.cons.injEq] at h
  simp only [base64Encode, sextets, List.take_succ_cons, List.take_zero, List.map_cons, List.map_nil,
    ← h.1, ← h.2.1, ← h.2.2.1]
  rfl

/-- Three bytes are four digits, before the digits of the rest. -/
theorem base64Encode_cons (a b c : UInt8) (rest : Bytes) :
    base64Encode (a :: b :: c :: rest) =
      (sextets a.toNat b.toNat c.toNat).map encodeLookup ++ base64Encode rest := by
  rw [← fields_eq a.toNat_lt b.toNat_lt c.toNat_lt, base64Encode]
  rfl

/-- The four numbers three bytes are cut into have six bits each. -/
theorem sextets_lt {a b c : Nat} (ha : a < 256) (hb : b < 256) (hc : c < 256) :
    ∀ v ∈ sextets a b c, v < 64 := by
  intro v hv
  simp only [sextets, List.mem_cons, List.not_mem_nil, or_false] at hv
  omega

/-- The bytes of a group by the values of its characters. -/
theorem decodeGroup_eq (g : Str) :
    let v i := findChar (g.getD i '\x00')
    decodeGroup g = [UInt8.ofNat (v 0 * 4 + v 1 / 16 % 4), UInt8.ofNat (v 1 % 16 * 16 + v 2 / 4 % 16),
      UInt8.ofNat (v 2 % 4 * 64 + v 3)] := by
  intro v
  have h1 : (v 1 &&& 0x30) >>> 4 = v 1 / 2 ^ 4 % 4 := and_shiftRight (v 1) 2 4
  have h2 : v 1 &&& 0xf = v 1 % 16 := Nat.and_two_pow_sub_one_eq_mod (v 1) 4
  have h3 : (v 2 &&& 0x3c) >>> 2 = v 2 / 2 ^ 2 % 16 := and_shiftRight (v 2) 4 2
  have h4 : v 2 &&& 0x3 = v 2 % 4 := Nat.and_two_pow_sub_one_eq_mod (v 2) 2
  rw [decodeGroup, h1, h2, h3, h4]
  simp only [Nat.shiftLeft_eq]
  rfl

/-- The group that is written for three bytes reads as them, from as many characters as there are. -/
theorem decodeGroup_sextets (a b c : UInt8) :
    decodeGroup ((sextets a.toNat b.toNat c.toNat).map encodeLookup) = [a, b, c] ∧
      (decodeGroup (((sextets a.toNat b.toNat 0).take 3).map encodeLookup)).take 2 = [a, b] ∧
      (decodeGroup (((sextets a.toNat 0 0).take 2).map encodeLookup)).take 1 = [a] := by
  have ha := a.toNat_lt
  have hb := b.toNat_lt
  have hc := c.toNat_lt
  have hv : ∀ b' < 256, ∀ c' < 256, ∀ v ∈ sextets a.toNat b' c', findChar (encodeLookup v) = v :=
    fun b' hb' c' hc' v hv => (find_encodeLookup (sextets_lt ha hb' hc' v hv)).1
  have h3 := hv _ hb _ hc
  have h2 := hv _ hb 0 (by decide)
  have h1 := hv 0 (by decide) 0 (by decide)
  simp only [sextets, List.forall_mem_cons] at h1 h2 h3
  simp only [decodeGroup_eq, sextets, List.take_succ_cons, List.take_zero, List.map_cons,
    List.map_nil, List.getD_cons_zero, List.getD_cons_succ, h1, h2, h3]
  refine ⟨?_, ?_, ?_⟩
  · rw [show a.toNat / 4 * 4 + (a.toNat % 4 * 16 + b.toNat / 16) / 16 % 4 = a.toNat by omega,
      show (a.toNat % 4 * 16 + b.toNat / 16) % 16 * 16 + (b.toNat % 16 * 4 + c.toNat / 64) / 4 % 16 =
        b.toNat by omega,
      show (b.toNat % 16 * 4 + c.toNat / 64) % 4 * 64 + c.toNat % 64 = c.toNat by omega]
    simp only [UInt8.ofNat_toNat]
  · rw [show a.toNat / 4 * 4 + (a.toNat % 4 * 16 + b.toNat / 16) / 16 % 4 = a.toNat by omega,
      show (a.toNat % 4 * 16 + b.toNat / 16) % 16 * 16 + (b.toNat % 16 * 4 + 0 / 64) / 4 % 16 =
        b.toNat by omega]
    simp only [UInt8.ofNat_toNat]
  · rw [show a.toNat / 4 * 4 + (a.toNat % 4 * 16 + 0 / 16) / 16 % 4 = a.toNat by omega]
    simp only [UInt8.ofNat_toNat]

/-! ## The loop -/

/-- Characters that do not fill the group up are added to it. -/
theorem decodeLoop_append {cs : Str} (hcs : ∀ c ∈ cs, c ≠ '=' ∧ isBase64 c) (s : Str) {g : Str}
    (hlen : g.length + cs.length < 4) (ret : Bytes) :
    decodeLoop (cs ++ s) g ret = decodeLoop s (g ++ cs) ret := by
  induction cs generalizing g with
  | nil => rw [List.nil_append, List.append_nil]
  | cons c cs ih =>
    rw [List.length_cons] at hlen
    rw [List.cons_append, decodeLoop, if_pos (hcs c (.head _))]
    have hne : (g ++ [c]).length ≠ 4 := by
      rw [List.length_append, List.length_singleton]
      omega
    rw [if_neg hne, ih (fun d hd => hcs d (.tail _ hd)) (by simp; omega), List.append_assoc]
    rfl

/-- A group is read as a whole. -/
theorem decodeLoop_group {g : Str} (hg : ∀ c ∈ g, c ≠ '=' ∧ isBase64 c) (hlen : g.length = 4)
    (s : Str) (ret : Bytes) :
    decodeLoop (g ++ s) [] ret = decodeLoop s [] (ret ++ decodeGroup g) := by
  obtain ⟨cs, c, rfl⟩ : ∃ cs c, g = cs ++ [c] :=
    ⟨g.dropLast, g.getLast (List.length_pos_iff.1 (by omega)), (List.dropLast_concat_getLast _).symm⟩
  rw [List.length_append, List.length_singleton] at hlen
  rw [List.append_assoc, decodeLoop_append (fun d hd => hg d (by simp [hd])) _ (by simp; omega),
    List.singleton_append, decodeLoop, if_pos (hg c (by simp)), List.nil_append,
    if_pos (by simp; omega)]

/-- The characters of a group are of the alphabet. -/
theorem decodes_sextets {a b c : Nat} (ha : a < 256) (hb : b < 256) (hc : c < 256) (n : Nat) :
    ∀ d ∈ ((sextets a b c).take n).map encodeLookup, d ≠ '=' ∧ isBase64 d := by
  intro d hd
  obtain ⟨v, hv, rfl⟩ := List.mem_map.1 hd
  have := find_encodeLookup (sextets_lt ha hb hc v (List.mem_of_mem_take hv))
  exact ⟨this.2.2, this.2.1⟩

/-- What `base64_decode` returns after its loop. -/
def decodeRest (r : Str × Bytes) : Bytes :=
  if r.1 ≠ [] then r.2 ++ (decodeGroup r.1).take (r.1.length - 1) else r.2

/-- The padding ends the loop with the group before it. -/
theorem decodeLoop_padding {g : Str} (hg : ∀ c ∈ g, c ≠ '=' ∧ isBase64 c) (hlen : g.length < 4)
    (s : Str) (ret : Bytes) : decodeLoop (g ++ '=' :: s) [] ret = (g, ret) := by
  rw [decodeLoop_append hg _ (by simpa using hlen), decodeLoop, if_neg (by simp), List.nil_append]

/-- Decoding what bytes are encoded as gives these bytes, behind those decoded before. -/
theorem decodeRest_encode (bs : Bytes) (ret : Bytes) :
    decodeRest (decodeLoop (base64Encode bs) [] ret) = ret ++ bs := by
  induction bs using base64Encode.induct generalizing ret with
  | case1 => simp [base64Encode, decodeLoop, decodeRest]
  | case2 a =>
    have hloop := decodeLoop_padding
      (decodes_sextets a.toNat_lt (show 0 < 256 by decide) (show 0 < 256 by decide) 2)
      (by simp [sextets]) ['='] ret
    have hlen : (((sextets a.toNat 0 0).take 2).map encodeLookup).length - 1 = 1 := by simp [sextets]
    rw [base64Encode_one]
    refine (congrArg decodeRest hloop).trans ?_
    rw [decodeRest, if_pos (by simp [sextets]), hlen, (decodeGroup_sextets a 0 0).2.2]
  | case3 a b =>
    have hloop := decodeLoop_padding
      (decodes_sextets a.toNat_lt b.toNat_lt (show 0 < 256 by decide) 3)
      (by simp [sextets]) [] ret
    have hlen : (((sextets a.toNat b.toNat 0).take 3).map encodeLookup).length - 1 = 2 := by
      simp [sextets]
    rw [base64Encode_two]
    refine (congrArg decodeRest hloop).trans ?_
    rw [decodeRest, if_pos (by simp [sextets]), hlen, (decodeGroup_sextets a b 0).2.1]
  | case4 a b c rest ih =>
    have hgroup : ∀ d ∈ (sextets a.toNat b.toNat c.toNat).map encodeLookup,
        d ≠ '=' ∧ isBase64 d := decodes_sextets a.toNat_lt b.toNat_lt c.toNat_lt 4
    rw [base64Encode_cons, decodeLoop_group hgroup (by simp [sextets]), ih,
      (decodeGroup_sextets a b c).1, List.append_assoc]
    rfl

/-- Decoding reads back what was encoded. -/
theorem base64Decode_base64Encode (bs : Bytes) : base64Decode (base64Encode bs) = bs := by
  have h := decodeRest_encode bs []
  rw [List.nil_append] at h
  exact h

/-! ## Canonical strings -/

/-- The strings that are groups of four characters of the alphabet, where the last one may be padded
and then has no bits that are not read. -/
def IsCanonical : Str → Prop
  | [] => True
  | c₀ :: c₁ :: c₂ :: c₃ :: s =>
    c₀ ∈ base64Chars ∧ c₁ ∈ base64Chars ∧
      (c₂ ∈ base64Chars ∧ c₃ ∈ base64Chars ∧ IsCanonical s ∨
        c₂ ∈ base64Chars ∧ findChar c₂ % 4 = 0 ∧ c₃ = '=' ∧ s = [] ∨
        findChar c₁ % 16 = 0 ∧ c₂ = '=' ∧ c₃ = '=' ∧ s = [])
  | _ => False

/-- What bytes are encoded as has digits of the alphabet, its padding at the end, and no stray bits.
-/
theorem isCanonical_base64Encode (bs : Bytes) : IsCanonical (base64Encode bs) := by
  have hmem : ∀ {a b c : Nat}, a < 256 → b < 256 → c < 256 → ∀ v ∈ sextets a b c,
      encodeLookup v ∈ base64Chars ∧ findChar (encodeLookup v) = v := fun ha hb hc v hv =>
    ⟨encodeLookup_mem (sextets_lt ha hb hc v hv), (find_encodeLookup (sextets_lt ha hb hc v hv)).1⟩
  simp only [sextets, List.forall_mem_cons] at hmem
  induction bs using base64Encode.induct with
  | case1 => trivial
  | case2 a =>
    have h := hmem a.toNat_lt (show 0 < 256 by decide) (show 0 < 256 by decide)
    rw [base64Encode_one]
    refine ⟨h.1.1, h.2.1.1, .inr (.inr ⟨?_, rfl, rfl, rfl⟩)⟩
    rw [h.2.1.2]
    omega
  | case3 a b =>
    have h := hmem a.toNat_lt b.toNat_lt (show 0 < 256 by decide)
    rw [base64Encode_two]
    refine ⟨h.1.1, h.2.1.1, .inr (.inl ⟨h.2.2.1.1, ?_, rfl, rfl⟩)⟩
    rw [h.2.2.1.2]
    omega
  | case4 a b c rest ih =>
    have h := hmem a.toNat_lt b.toNat_lt c.toNat_lt
    rw [base64Encode_cons]
    exact ⟨h.1.1, h.2.1.1, .inl ⟨h.2.2.1.1, h.2.2.2.1.1, ih⟩⟩

/-- The bytes that four values make up. -/
theorem exists_sextets {v₀ v₁ v₂ v₃ : Nat} (h₀ : v₀ < 64) (h₁ : v₁ < 64) (h₂ : v₂ < 64)
    (h₃ : v₃ < 64) :
    ∃ a b c : UInt8, sextets a.toNat b.toNat c.toNat = [v₀, v₁, v₂, v₃] ∧
      (v₂ % 4 = 0 → v₃ = 0 → c = 0) ∧ (v₁ % 16 = 0 → v₂ = 0 → b = 0) := by
  refine ⟨UInt8.ofNat (v₀ * 4 + v₁ / 16), UInt8.ofNat (v₁ % 16 * 16 + v₂ / 4),
    UInt8.ofNat (v₂ % 4 * 64 + v₃), ?_, ?_, ?_⟩
  · simp only [UInt8.toNat_ofNat', sextets, List.cons.injEq, and_true]
    omega
  · rintro h rfl
    rw [h]
    rfl
  · rintro h rfl
    rw [h]
    rfl

/-- Every canonical string is what some bytes are encoded as. -/
theorem IsCanonical.exists_encode : ∀ {s : Str}, IsCanonical s → ∃ bs, base64Encode bs = s
  | [], _ => ⟨[], rfl⟩
  | c₀ :: c₁ :: c₂ :: c₃ :: s, h => by
    obtain ⟨h₀, h₁, h⟩ := h
    obtain ⟨e₀, l₀⟩ := encodeLookup_find h₀
    obtain ⟨e₁, l₁⟩ := encodeLookup_find h₁
    rcases h with ⟨h₂, h₃, hs⟩ | ⟨h₂, hbits, rfl, rfl⟩ | ⟨hbits, rfl, rfl, rfl⟩
    · obtain ⟨e₂, l₂⟩ := encodeLookup_find h₂
      obtain ⟨e₃, l₃⟩ := encodeLookup_find h₃
      obtain ⟨rest, rfl⟩ := hs.exists_encode
      obtain ⟨a, b, c, hv, -⟩ := exists_sextets l₀ l₁ l₂ l₃
      refine ⟨a :: b :: c :: rest, ?_⟩
      rw [base64Encode_cons, hv]
      simp only [List.map_cons, List.map_nil, e₀, e₁, e₂, e₃]
      rfl
    · obtain ⟨e₂, l₂⟩ := encodeLookup_find h₂
      obtain ⟨a, b, c, hv, hc, -⟩ := exists_sextets l₀ l₁ l₂ (show 0 < 64 by decide)
      obtain rfl := hc hbits rfl
      refine ⟨[a, b], ?_⟩
      have hv : sextets a.toNat b.toNat 0 = _ := hv
      rw [base64Encode_two, hv]
      simp only [List.take_succ_cons, List.take_zero, List.map_cons, List.map_nil, e₀, e₁, e₂]
      rfl
    · obtain ⟨a, b, c, hv, hc, hb⟩ := exists_sextets l₀ l₁ (show 0 < 64 by decide)
        (show 0 < 64 by decide)
      obtain rfl := hc rfl rfl
      obtain rfl := hb hbits rfl
      refine ⟨[a], ?_⟩
      have hv : sextets a.toNat 0 0 = _ := hv
      rw [base64Encode_one, hv]
      simp only [List.take_succ_cons, List.take_zero, List.map_cons, List.map_nil, e₀, e₁]
      rfl

/-- Decoding reads back any bytes that were encoded, and encoding what was read from a string gives
the string again exactly when it is canonical. -/
theorem base64_round_trip_iff :
    (∀ bs, base64Decode (base64Encode bs) = bs) ∧
      ∀ s, base64Encode (base64Decode s) = s ↔ IsCanonical s := by
  refine ⟨base64Decode_base64Encode, fun s => ⟨fun h => ?_, fun h => ?_⟩⟩
  · rw [← h]
    exact isCanonical_base64Encode _
  · obtain ⟨bs, rfl⟩ := h.exists_encode
    rw [base64Decode_base64Encode]

end ExtremeS3
