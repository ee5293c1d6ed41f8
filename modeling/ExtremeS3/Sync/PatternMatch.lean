import ExtremeS3.Lib.Wildcard
import ExtremeS3.Sync.Basic
import Mathlib.Data.List.Infix

/-!
# The patterns of the filter

`pattern_match` matches a name against a pattern of wildcards by backtracking, and throws where a
pattern breaks off. `Reads` is the grammar of patterns: it says what pieces a pattern is read as and
what error cuts it off, if one does, and every pattern is read in some way (`exists_reads`). The
matcher searches for just these pieces (`Reads.patternMatchImpl_eq`), so it accepts the words that
the pieces stand for, and throws on the names of which they match a front.
-/

namespace ExtremeS3

/-- What `pattern_match` throws: `std::runtime_error` with one of two texts, or the
`std::out_of_range` of `std::bitset::set`. -/
inductive PatternError where
  | classNotEnd
  | escapeNotEnd
  | outOfRange
  deriving DecidableEq, Repr

/-! ## Classes of characters -/

/-- A character as an `unsigned char`. -/
def unsignedChar (c : Char) : Nat := c.toNat % 256

/-- The loop of `make_char_class` over a range, which does not set its last character. -/
def setRange (i last : Nat) (res : BitVec 256) : Except PatternError (BitVec 256) :=
  if i = last then .ok res
  else if i < 256 then setRange (i + 1) last (res ||| BitVec.twoPow 256 i)
  else .error .outOfRange
termination_by 256 - i

/-- The loop of `make_char_class` over the characters of the class. -/
def charClassLoop : Str → BitVec 256 → Except PatternError (BitVec 256)
  | [], res => .ok res
  | [_, '-'], _ => .error .classNotEnd
  | c :: '-' :: last :: rest, res => do
    charClassLoop rest (← setRange (unsignedChar c) (unsignedChar last) res)
  | c :: rest, res => charClassLoop rest (res ||| BitVec.twoPow 256 (unsignedChar c))

/-- `make_char_class`. -/
def makeCharClass (ptn : Str) : Except PatternError (BitVec 256) :=
  if ptn.head? = some '^' then do return ~~~ (← charClassLoop ptn.tail 0)
  else charClassLoop ptn 0

/-- The characters of a class and the pattern after it, from the pattern after its bracket. The
first character may be a closing bracket. -/
def splitClass (ptn : Str) : Option (Str × Str) :=
  let skip := if ptn.head? = some ']' then 1 else 0
  let next := skip + (ptn.drop skip).idxOf ']'
  if next < ptn.length then some (ptn.take next, ptn.drop (next + 1)) else none

/-- Where the search for the closing bracket ends, past the first character. -/
theorem splitClass_cons (c : Char) (t : Str) :
    splitClass (c :: t) =
      if ']' ∈ t then some (c :: t.take (t.idxOf ']'), t.drop (t.idxOf ']' + 1)) else none := by
  have hnext : (if (c :: t).head? = some ']' then 1 else 0) +
      ((c :: t).drop (if (c :: t).head? = some ']' then 1 else 0)).idxOf ']' = t.idxOf ']' + 1 := by
    by_cases hc : c = ']'
    · subst hc
      simp [Nat.add_comm]
    · rw [List.head?_cons, if_neg (by simpa using hc), List.drop_zero, List.idxOf_cons_ne t hc,
        Nat.zero_add]
  unfold splitClass
  dsimp only
  rw [hnext]
  simp [List.idxOf_lt_length_iff]

/-- The class ends at the first closing bracket past its first character. -/
theorem splitClass_append {c : Char} {cls rest : Str} (h : ']' ∉ cls) :
    splitClass (c :: cls ++ ']' :: rest) = some (c :: cls, rest) := by
  rw [List.cons_append, splitClass_cons, if_pos (by simp), List.idxOf_append_of_notMem h,
    List.idxOf_cons_self]
  simp [← List.drop_drop]

/-- Without such a bracket the class does not end. -/
theorem splitClass_eq_none {ptn : Str} (h : ']' ∉ ptn.tail) : splitClass ptn = none := by
  cases ptn with
  | nil => rfl
  | cons c t => rw [splitClass_cons, if_neg (by simpa using h)]

/-- A pattern has such a bracket or has none. -/
theorem splitClass_cases (ptn : Str) :
    ']' ∉ ptn.tail ∨ ∃ c cls rest, ptn = c :: cls ++ ']' :: rest ∧ ']' ∉ cls := by
  cases ptn with
  | nil => exact .inl (by simp)
  | cons c t =>
    by_cases hm : ']' ∈ t
    · obtain ⟨cls, rest, rfl, hno⟩ := List.eq_append_cons_of_mem hm
      exact .inr ⟨c, cls, rest, rfl, hno⟩
    · exact .inl hm

/-- What is left after a class is shorter than the pattern. -/
theorem length_of_splitClass {ptn cls rest : Str} (h : splitClass ptn = some (cls, rest)) :
    rest.length < ptn.length := by
  rcases splitClass_cases ptn with hno | ⟨c, cls', rest', rfl, hno⟩
  · rw [splitClass_eq_none hno] at h
    cases h
  · rw [splitClass_append hno] at h
    cases h
    simp only [List.cons_append, List.length_cons, List.length_append]
    omega

/-! ## The matcher -/

/-- `pattern_match_impl`. -/
def patternMatchImpl (ptn str : Str) : Except PatternError Bool :=
  match ptn, str with
  | [], str => .ok str.isEmpty
  | '*' :: rest, str => do
    if ← tryEach (fun next => patternMatchImpl rest next) (endings str) then return true
    patternMatchImpl rest str
  | _ :: _, [] => .ok false
  | '[' :: rest, s :: str =>
    if rest = [] then .error .classNotEnd
    else
      match h : splitClass rest with
      | none => .error .classNotEnd
      | some (cls, rest') => do
        have := length_of_splitClass h
        let mask ← makeCharClass cls
        if mask.getLsbD (unsignedChar s) then patternMatchImpl rest' str else return false
  | '\\' :: rest, s :: str =>
    match rest with
    | [] => .error .escapeNotEnd
    | c :: rest => if c = s then patternMatchImpl rest str else .ok false
  | c :: rest, s :: str =>
    if c ≠ '?' ∧ c ≠ s then .ok false else patternMatchImpl rest str
termination_by ptn.length
decreasing_by all_goals simp only [List.length_cons]; omega

/-- `pattern_match::operator()`. -/
def patternMatch (pattern s : Str) : Except PatternError Bool := patternMatchImpl pattern s

/-! ## What a class stands for -/

/-- An item of a class. -/
inductive ClassItem where
  | single (c : Char)
  | range (first last : Char)
  deriving DecidableEq, Repr

/-- The bytes of an item: a range is without its last character. -/
def ClassItem.has (b : Nat) : ClassItem → Bool
  | .single c => b = unsignedChar c
  | .range first last => unsignedChar first ≤ b ∧ b < unsignedChar last

/-- The items that the characters of a class are read as, and the error that cuts them off. -/
inductive ReadsItems : Str → List ClassItem → Option PatternError → Prop
  | nil : ReadsItems [] [] none
  | dash (c : Char) : ReadsItems [c, '-'] [] (some .classNotEnd)
  | backwards {first last : Char} (rest : Str) : unsignedChar last < unsignedChar first →
    ReadsItems (first :: '-' :: last :: rest) [] (some .outOfRange)
  | range {first last : Char} {rest : Str} {items : List ClassItem} {e : Option PatternError} :
    unsignedChar first ≤ unsignedChar last → ReadsItems rest items e →
    ReadsItems (first :: '-' :: last :: rest) (.range first last :: items) e
  | single (c : Char) {rest : Str} {items : List ClassItem} {e : Option PatternError} :
    rest.head? ≠ some '-' → ReadsItems rest items e → ReadsItems (c :: rest) (.single c :: items) e

/-- The items of a class, after the sign that makes it stand for all other characters. -/
inductive ReadsClass : Str → Bool → List ClassItem → Option PatternError → Prop
  | flipped {s : Str} {items : List ClassItem} {e : Option PatternError} :
    ReadsItems s items e → ReadsClass ('^' :: s) true items e
  | plain {s : Str} {items : List ClassItem} {e : Option PatternError} :
    s.head? ≠ some '^' → ReadsItems s items e → ReadsClass s false items e

/-- The characters of a class are read in some way. -/
theorem exists_readsItems : ∀ s, ∃ items e, ReadsItems s items e
  | [] => ⟨[], none, .nil⟩
  | [c] => ⟨_, none, .single c (by simp) .nil⟩
  | [c, d] => by
    by_cases hd : d = '-'
    · subst hd
      exact ⟨[], _, .dash c⟩
    · exact ⟨_, none, .single c (by simpa using hd) (.single d (by simp) .nil)⟩
  | c :: d :: last :: rest => by
    by_cases hd : d = '-'
    · subst hd
      rcases Nat.lt_or_ge (unsignedChar last) (unsignedChar c) with hlt | hle
      · exact ⟨[], _, .backwards rest hlt⟩
      · obtain ⟨items, e, h⟩ := exists_readsItems rest
        exact ⟨_, e, .range hle h⟩
    · obtain ⟨items, e, h⟩ := exists_readsItems (d :: last :: rest)
      exact ⟨_, e, .single c (by simpa using hd) h⟩

/-- Every text is read as a class, to its end or to an error. -/
theorem exists_readsClass (s : Str) : ∃ flip items e, ReadsClass s flip items e := by
  by_cases hs : s.head? = some '^'
  · obtain ⟨t, rfl⟩ : ∃ t, s = '^' :: t := by
      cases s with
      | nil => cases hs
      | cons c t => exact ⟨t, by rw [Option.some.inj hs]⟩
    obtain ⟨items, e, h⟩ := exists_readsItems t
    exact ⟨true, items, e, .flipped h⟩
  · obtain ⟨items, e, h⟩ := exists_readsItems s
    exact ⟨false, items, e, .plain hs h⟩

/-- Setting a bit sets that bit, and no other. -/
theorem getLsbD_or_twoPow (res : BitVec 256) (i : Nat) {b : Nat} (hb : b < 256) :
    (res ||| BitVec.twoPow 256 i).getLsbD b = (res.getLsbD b || decide (b = i)) := by
  rw [BitVec.getLsbD_or, BitVec.getLsbD_twoPow, ← Bool.decide_and]
  exact congrArg _ (decide_eq_decide.2 (by omega))

/-- A range that does not go backwards sets its characters but the last. -/
theorem setRange_of_le {i last : Nat} (h : i ≤ last) (hlast : last < 256) (res : BitVec 256) :
    ∃ m, setRange i last res = .ok m ∧
      ∀ b < 256, m.getLsbD b = (res.getLsbD b || decide (i ≤ b ∧ b < last)) := by
  induction hn : last - i generalizing i res with
  | zero =>
    have hi : i = last := by omega
    refine ⟨res, by rw [setRange, if_pos hi], fun b hb => ?_⟩
    rw [decide_eq_false (by omega), Bool.or_false]
  | succ n ih =>
    obtain ⟨m, hm, hbits⟩ := ih (i := i + 1) (by omega) (res ||| BitVec.twoPow 256 i) (by omega)
    refine ⟨m, by rw [setRange, if_neg (by omega), if_pos (by omega), hm], fun b hb => ?_⟩
    rw [hbits b hb, getLsbD_or_twoPow _ _ hb, Bool.or_assoc, ← Bool.decide_or]
    congr 2
    apply propext
    omega

/-- One that goes backwards runs past the end of the set. -/
theorem setRange_of_lt {i last : Nat} (h : last < i) (res : BitVec 256) :
    setRange i last res = .error .outOfRange := by
  induction hn : 256 - i generalizing i res with
  | zero => rw [setRange, if_neg (by omega), if_neg (by omega)]
  | succ n ih =>
    rw [setRange, if_neg (by omega), if_pos (by omega), ih (by omega) _ (by omega)]

/-- A character is one of 256. -/
theorem unsignedChar_lt (c : Char) : unsignedChar c < 256 := Nat.mod_lt _ (by decide)

/-- The loop adds the bytes of the items, or throws the error that cuts them off. -/
theorem ReadsItems.charClassLoop_eq {s : Str} {items : List ClassItem} {e : Option PatternError}
    (h : ReadsItems s items e) (res : BitVec 256) :
    (∀ err, e = some err → charClassLoop s res = .error err) ∧
      (e = none → ∃ m, charClassLoop s res = .ok m ∧
        ∀ b < 256, m.getLsbD b = (res.getLsbD b || items.any (·.has b))) := by
  induction h generalizing res with
  | nil => exact ⟨nofun, fun _ => ⟨res, rfl, by simp⟩⟩
  | dash c => exact ⟨fun err he => by cases he; rfl, nofun⟩
  | @backwards first last rest hlt =>
    refine ⟨fun err he => ?_, nofun⟩
    cases he
    rw [charClassLoop, setRange_of_lt hlt]
    rfl
  | @range first last rest items e hle hrest ih =>
    obtain ⟨m, hm, hbits⟩ := setRange_of_le hle (unsignedChar_lt last) res
    have hloop : charClassLoop (first :: '-' :: last :: rest) res = charClassLoop rest m := by
      rw [charClassLoop, hm]
      rfl
    rw [hloop]
    refine ⟨(ih m).1, fun he => ?_⟩
    obtain ⟨m', hm', hbits'⟩ := (ih m).2 he
    refine ⟨m', hm', fun b hb => ?_⟩
    rw [hbits' b hb, hbits b hb, List.any_cons, ClassItem.has, Bool.or_assoc]
  | @single c rest items e hne hrest ih =>
    have hloop : charClassLoop (c :: rest) res =
        charClassLoop rest (res ||| BitVec.twoPow 256 (unsignedChar c)) := by
      rw [charClassLoop]
      · rintro rfl
        simp at hne
      · rintro last rest' rfl
        simp at hne
    rw [hloop]
    refine ⟨(ih _).1, fun he => ?_⟩
    obtain ⟨m, hm, hbits⟩ := (ih _).2 he
    refine ⟨m, hm, fun b hb => ?_⟩
    rw [hbits b hb, getLsbD_or_twoPow _ _ hb, List.any_cons, ClassItem.has, Bool.or_assoc]

/-- A class stands for the bytes of its items or for all others, or throws. -/
theorem ReadsClass.makeCharClass_eq {s : Str} {flip : Bool} {items : List ClassItem}
    {e : Option PatternError} (h : ReadsClass s flip items e) :
    (∀ err, e = some err → makeCharClass s = .error err) ∧
      (e = none → ∃ m, makeCharClass s = .ok m ∧
        ∀ b < 256, m.getLsbD b = (flip ^^ items.any (·.has b))) := by
  cases h with
  | @flipped t items e h =>
    have hclass : makeCharClass ('^' :: t) = (do return ~~~ (← charClassLoop t 0)) := if_pos rfl
    rw [hclass]
    refine ⟨fun err he => by rw [(h.charClassLoop_eq 0).1 err he]; rfl, fun he => ?_⟩
    obtain ⟨m, hm, hbits⟩ := (h.charClassLoop_eq 0).2 he
    refine ⟨~~~ m, by rw [hm]; rfl, fun b hb => ?_⟩
    rw [BitVec.getLsbD_not, hbits b hb]
    simp [hb]
  | plain hne h =>
    have hclass : makeCharClass s = charClassLoop s 0 := if_neg hne
    rw [hclass]
    refine ⟨(h.charClassLoop_eq 0).1, fun he => ?_⟩
    obtain ⟨m, hm, hbits⟩ := (h.charClassLoop_eq 0).2 he
    exact ⟨m, hm, fun b hb => by rw [hbits b hb]; simp⟩

/-! ## What a pattern stands for -/

/-- A piece of a pattern. -/
inductive Piece where
  | star
  | any
  | exactly (c : Char)
  | oneOf (flip : Bool) (items : List ClassItem)
  deriving DecidableEq, Repr

/-- What a piece stands for. -/
def Piece.token : Piece → Token Char
  | .star => .star
  | .any => .one fun _ => true
  | .exactly c => .one (c = ·)
  | .oneOf flip items => .one fun c => flip ^^ items.any (·.has (unsignedChar c))

/-- The pieces that a pattern is read as, and the error that cuts it off. -/
inductive Reads : Str → List Piece → Option PatternError → Prop
  | nil : Reads [] [] none
  | star {rest : Str} {ps : List Piece} {e : Option PatternError} :
    Reads rest ps e → Reads ('*' :: rest) (.star :: ps) e
  | any {rest : Str} {ps : List Piece} {e : Option PatternError} :
    Reads rest ps e → Reads ('?' :: rest) (.any :: ps) e
  | literal {c : Char} {rest : Str} {ps : List Piece} {e : Option PatternError} :
    c ∉ ['*', '?', '[', '\\'] → Reads rest ps e → Reads (c :: rest) (.exactly c :: ps) e
  | escaped (c : Char) {rest : Str} {ps : List Piece} {e : Option PatternError} :
    Reads rest ps e → Reads ('\\' :: c :: rest) (.exactly c :: ps) e
  | oneOf {c : Char} {cls rest : Str} {flip : Bool} {items : List ClassItem} {ps : List Piece}
      {e : Option PatternError} :
    ']' ∉ cls → ReadsClass (c :: cls) flip items none → Reads rest ps e →
    Reads ('[' :: (c :: cls ++ ']' :: rest)) (.oneOf flip items :: ps) e
  | escapeNotEnd : Reads ['\\'] [] (some .escapeNotEnd)
  | classNotEnd {rest : Str} : ']' ∉ rest.tail → Reads ('[' :: rest) [] (some .classNotEnd)
  | badClass {c : Char} {cls rest : Str} {flip : Bool} {items : List ClassItem} {e : PatternError} :
    ']' ∉ cls → ReadsClass (c :: cls) flip items (some e) →
    Reads ('[' :: (c :: cls ++ ']' :: rest)) [] (some e)

/-- A pattern is read in some way. -/
theorem exists_reads (ptn : Str) : ∃ ps e, Reads ptn ps e := by
  induction hn : ptn.length using Nat.strong_induction_on generalizing ptn with
  | _ n ih =>
    have next : ∀ rest : Str, rest.length < ptn.length → ∃ ps e, Reads rest ps e :=
      fun rest hrest => ih _ (hn ▸ hrest) rest rfl
    cases ptn with
    | nil => exact ⟨[], none, .nil⟩
    | cons c rest =>
      obtain ⟨ps, e, h⟩ := next rest (by simp)
      by_cases hc : c ∈ ['*', '?', '[', '\\']
      · simp only [List.mem_cons, List.not_mem_nil, or_false] at hc
        rcases hc with rfl | rfl | rfl | rfl
        · exact ⟨_, e, .star h⟩
        · exact ⟨_, e, .any h⟩
        · rcases splitClass_cases rest with hno | ⟨c, cls, rest, rfl, hno⟩
          · exact ⟨[], _, .classNotEnd hno⟩
          · obtain ⟨flip, items, err, hcls⟩ := exists_readsClass (c :: cls)
            cases err with
            | some err => exact ⟨[], _, .badClass hno hcls⟩
            | none =>
              have hlt : rest.length < ('[' :: (c :: cls ++ ']' :: rest)).length := by
                simp only [List.length_cons, List.length_append]
                omega
              obtain ⟨ps, e, h⟩ := next rest hlt
              exact ⟨_, e, .oneOf hno hcls h⟩
        · cases rest with
          | nil => exact ⟨[], _, .escapeNotEnd⟩
          | cons c rest =>
            obtain ⟨ps, e, h⟩ := next rest (by simp only [List.length_cons]; omega)
            exact ⟨_, e, .escaped c h⟩
      · exact ⟨_, e, .literal hc h⟩

/-- At the end of the name the matcher goes on only over a star. -/
theorem patternMatchImpl_end {c : Char} (hc : c ≠ '*') (rest : Str) :
    patternMatchImpl (c :: rest) [] = .ok false := by
  rw [patternMatchImpl]
  exact hc

/-- The matcher at a character that stands for itself, or for any character. -/
theorem patternMatchImpl_literal {c : Char} (hc : c ∉ ['*', '[', '\\']) (rest : Str) (s : Char)
    (str : Str) :
    patternMatchImpl (c :: rest) (s :: str) =
      if c ≠ '?' ∧ c ≠ s then .ok false else patternMatchImpl rest str := by
  simp only [List.mem_cons, List.not_mem_nil, or_false, not_or] at hc
  rw [patternMatchImpl]
  · exact hc.1
  · exact hc.2.1
  · exact hc.2.2

/-- The matcher at a class that ends. -/
theorem patternMatchImpl_class {c s : Char} {cls rest str : Str} (hno : ']' ∉ cls) :
    patternMatchImpl ('[' :: (c :: cls ++ ']' :: rest)) (s :: str) =
      (do
        let mask ← makeCharClass (c :: cls)
        if mask.getLsbD (unsignedChar s) then patternMatchImpl rest str else return false) := by
  rw [patternMatchImpl, if_neg (by simp)]
  split
  · next h =>
    rw [splitClass_append hno] at h
    cases h
  · next h =>
    rw [splitClass_append hno] at h
    cases h
    rfl

/-- At a class that does not end. -/
theorem patternMatchImpl_classNotEnd {rest str : Str} {s : Char} (hno : ']' ∉ rest.tail) :
    patternMatchImpl ('[' :: rest) (s :: str) = .error .classNotEnd := by
  rw [patternMatchImpl]
  split
  · rfl
  · split
    · rfl
    · next h =>
      rw [splitClass_eq_none hno] at h
      cases h

/-- The matcher searches for the pieces that the pattern is read as. -/
theorem Reads.patternMatchImpl_eq {ptn : Str} {ps : List Piece} {e : Option PatternError}
    (h : Reads ptn ps e) (s : Str) :
    patternMatchImpl ptn s = Token.search e (ps.map Piece.token) s := by
  induction h generalizing s with
  | nil => cases s <;> rw [patternMatchImpl] <;> rfl
  | @star rest ps e _ ih =>
    have hf : patternMatchImpl rest = Token.search e (ps.map Piece.token) := funext ih
    rw [patternMatchImpl, List.map_cons, Piece.token, Token.search, tryEach_concat, hf]
  | any _ ih =>
    cases s with
    | nil => exact patternMatchImpl_end (by decide) _
    | cons c s =>
      rw [patternMatchImpl_literal (by decide), if_neg (by simp), ih]
      rfl
  | @literal c rest ps e hc _ ih =>
    simp only [List.mem_cons, List.not_mem_nil, or_false, not_or] at hc
    cases s with
    | nil => exact patternMatchImpl_end hc.1 _
    | cons d s =>
      rw [patternMatchImpl_literal (by simp [hc]), ih, List.map_cons, Piece.token, Token.search]
      by_cases hd : c = d
      · simp [hd]
      · simp [hd, hc]
  | escaped c _ ih =>
    cases s with
    | nil => exact patternMatchImpl_end (by decide) _
    | cons d s =>
      rw [patternMatchImpl, ih, List.map_cons, Piece.token, Token.search]
      simp only [decide_eq_true_eq]
  | @oneOf c cls rest flip items ps e hno hcls _ ih =>
    cases s with
    | nil => exact patternMatchImpl_end (by decide) _
    | cons d s =>
      obtain ⟨m, hm, hbits⟩ := hcls.makeCharClass_eq.2 rfl
      rw [patternMatchImpl_class hno, hm, List.map_cons, Piece.token, Token.search, ← ih,
        ← hbits _ (unsignedChar_lt d)]
      rfl
  | escapeNotEnd =>
    cases s with
    | nil => exact patternMatchImpl_end (by decide) _
    | cons d s => rw [patternMatchImpl]; rfl
  | classNotEnd hno =>
    cases s with
    | nil => exact patternMatchImpl_end (by decide) _
    | cons d s => exact patternMatchImpl_classNotEnd hno
  | badClass hno hcls =>
    cases s with
    | nil => exact patternMatchImpl_end (by decide) _
    | cons d s =>
      rw [patternMatchImpl_class hno, hcls.makeCharClass_eq.1 _ rfl]
      rfl

/-! ## What the matcher accepts -/

/-- The pattern can be read to its end, and the name is one that its pieces stand for. -/
def PatternAccepts (ptn s : Str) : Prop :=
  ∃ ps, Reads ptn ps none ∧ Token.Matches (ps.map Piece.token) s

/-- The pattern is cut off by the error, and the pieces before match a front of the name that is
not all of it. -/
def PatternBreaks (ptn s : Str) (e : PatternError) : Prop :=
  ∃ ps, Reads ptn ps (some e) ∧ Token.Reaches (ps.map Piece.token) s

/-- The matcher returns that a name matches if the pattern accepts it. -/
theorem patternMatch_true_iff {ptn s : Str} : patternMatch ptn s = .ok true ↔ PatternAccepts ptn s := by
  unfold patternMatch PatternAccepts
  constructor
  · intro h
    obtain ⟨ps, e, hr⟩ := exists_reads ptn
    rw [hr.patternMatchImpl_eq] at h
    cases e with
    | none => exact ⟨ps, hr, (Token.search_none_iff _ _).1.1 h⟩
    | some e =>
      rcases (Token.search_some_iff e (ps.map Piece.token) s).2 with h' | h' <;> rw [h'] at h <;>
        cases h
  · rintro ⟨ps, hr, h⟩
    rw [hr.patternMatchImpl_eq]
    exact (Token.search_none_iff _ _).1.2 h

/-- The matcher throws if the pattern breaks at the name. -/
theorem patternMatch_error_iff {ptn s : Str} {e : PatternError} :
    patternMatch ptn s = .error e ↔ PatternBreaks ptn s e := by
  unfold patternMatch PatternBreaks
  constructor
  · intro h
    obtain ⟨ps, e', hr⟩ := exists_reads ptn
    rw [hr.patternMatchImpl_eq] at h
    cases e' with
    | none => exact absurd h ((Token.search_none_iff _ _).2 e)
    | some e' =>
      have he : e' = e := by
        rcases (Token.search_some_iff e' (ps.map Piece.token) s).2 with h' | h' <;> rw [h'] at h <;>
          cases h
        rfl
      subst he
      exact ⟨ps, hr, (Token.search_some_iff e' _ _).1.1 h⟩
  · rintro ⟨ps, hr, h⟩
    rw [hr.patternMatchImpl_eq]
    exact (Token.search_some_iff e _ _).1.2 h

/-- The matcher accepts exactly the names that the pieces of its pattern stand for, and throws
exactly where a pattern breaks off with some of the name left. -/
theorem pattern_match_exact (ptn s : Str) :
    (patternMatch ptn s = .ok true ↔
      ∃ ps, Reads ptn ps none ∧ Token.Matches (ps.map Piece.token) s) ∧
    ∀ e, patternMatch ptn s = .error e ↔
      ∃ ps, Reads ptn ps (some e) ∧ Token.Reaches (ps.map Piece.token) s :=
  ⟨patternMatch_true_iff, fun _ => patternMatch_error_iff⟩

/-! ## The filter -/

/-- `check_included`, with what its patterns throw. -/
def checkIncluded (name : Str) (included excluded : List Str) : Except PatternError Bool :=
  if ' ' ∈ name then .ok false -- skip filenames with spaces
  else do
    if ← tryEach (fun f => patternMatch f name) excluded then return false
    if included ≠ [] then tryEach (fun f => patternMatch f name) included else return true

/-- A `synchronizer` whose filters are matched as the code matches them. -/
def Sync.ofFilters (deleteMissing checkMode : Bool) (included excluded : List Str) : Sync where
  deleteMissing := deleteMissing
  checkMode := checkMode
  included := included
  excluded := excluded
  patternMatch f name := (ExtremeS3.patternMatch f name).toOption = some true

/-- The pattern says no of the name. -/
def PatternRejects (ptn s : Str) : Prop := ¬ PatternAccepts ptn s ∧ ∀ e, ¬ PatternBreaks ptn s e

/-- The matcher returns that a name does not match if the pattern rejects it. -/
theorem patternMatch_false_iff {ptn s : Str} :
    patternMatch ptn s = .ok false ↔ PatternRejects ptn s := by
  unfold PatternRejects
  simp only [← patternMatch_true_iff, ← patternMatch_error_iff]
  cases patternMatch ptn s with
  | error e => simp
  | ok r => cases r <;> simp

/-- One of the patterns breaks off at the name, and the ones before it reject it. -/
def FirstBreaks (ptns : List Str) (name : Str) (e : PatternError) : Prop :=
  ∃ pre ptn post, ptns = pre ++ ptn :: post ∧ PatternBreaks ptn name e ∧
    ∀ p ∈ pre, PatternRejects p name

/-- One of the patterns accepts the name, and the ones before it reject it. -/
def FirstAccepts (ptns : List Str) (name : Str) : Prop :=
  ∃ pre ptn post, ptns = pre ++ ptn :: post ∧ PatternAccepts ptn name ∧
    ∀ p ∈ pre, PatternRejects p name

section
variable (ptns : List Str) (name : Str)

/-- The patterns give true if the first that does not reject the name accepts it. -/
theorem tryEach_patterns_true_iff :
    tryEach (fun f => patternMatch f name) ptns = .ok true ↔ FirstAccepts ptns name := by
  rw [tryEach_eq_iff (by simp)]
  simp only [FirstAccepts, patternMatch_true_iff, patternMatch_false_iff]

/-- The patterns throw if the first that does not reject the name breaks at it. -/
theorem tryEach_patterns_error_iff (e : PatternError) :
    tryEach (fun f => patternMatch f name) ptns = .error e ↔ FirstBreaks ptns name e := by
  rw [tryEach_eq_iff (by simp)]
  simp only [FirstBreaks, patternMatch_error_iff, patternMatch_false_iff]

/-- The patterns give false if all of them reject the name. -/
theorem tryEach_patterns_false_iff :
    tryEach (fun f => patternMatch f name) ptns = .ok false ↔ ∀ p ∈ ptns, PatternRejects p name := by
  rw [tryEach_eq_false]
  simp only [patternMatch_false_iff]

end

/-- The filter includes a name without a blank that every excluded pattern rejects and that, if there
are included patterns, one of them accepts before one breaks off; it throws where a pattern breaks
off before the matter is decided; and when it does not throw, the planner goes by what it says. -/
theorem check_included_exact (name : Str) (included excluded : List Str)
    (deleteMissing checkMode : Bool) :
    (checkIncluded name included excluded = .ok true ↔
      ' ' ∉ name ∧ (∀ p ∈ excluded, PatternRejects p name) ∧
        (included = [] ∨ FirstAccepts included name)) ∧
    (∀ e, checkIncluded name included excluded = .error e ↔
      ' ' ∉ name ∧ (FirstBreaks excluded name e ∨
        (∀ p ∈ excluded, PatternRejects p name) ∧ FirstBreaks included name e)) ∧
    ∀ b, checkIncluded name included excluded = .ok b →
      (Sync.ofFilters deleteMissing checkMode included excluded).checkIncluded name = b := by
  unfold checkIncluded Sync.checkIncluded Sync.ofFilters
  by_cases hsp : ' ' ∈ name
  · simp [hsp]
  · simp only [hsp, if_false, not_false_eq_true, true_and, ← tryEach_patterns_true_iff,
      ← tryEach_patterns_false_iff, ← tryEach_patterns_error_iff]
    cases hex : tryEach (fun f => patternMatch f name) excluded with
    | error e => simp [bind, Except.bind]
    | ok r =>
      rw [any_of_tryEach hex]
      cases r with
      | true => simp [bind, Except.bind, pure, Except.pure]
      | false =>
        by_cases hin : included = []
        · subst hin
          simp [bind, Except.bind, pure, Except.pure, tryEach]
        · simp only [bind, Except.bind, if_true, hin, ne_eq, not_false_eq_true, false_or,
            Bool.false_eq_true, if_false, true_and, reduceCtorEq, implies_true]
          exact fun b hb => any_of_tryEach hb

end ExtremeS3
