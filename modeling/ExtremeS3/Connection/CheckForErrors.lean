import ExtremeS3.Common
import ExtremeS3.Errors
import Mathlib.Data.List.Infix

/-!
# Answers that report an error

`check_for_errors` throws for every answer with a code of 400 or more, at the level of the code, or
with a lower one for an idle connection. What it tells about the error it takes from the body, as
the XML parser reads it: a handle of a node that is not there gives no node, and of the two texts
that it looks for it calls `Value` before it tests that they are there. An answer that is parsed and
lacks one of them has no defined outcome (`http_error_raised_iff`).
-/

namespace ExtremeS3

/-- A node of a parsed document. The name of an element is its value; comments, declarations and
what the parser does not know have no children. -/
inductive XmlNode where
  | element (name : Str) (children : List XmlNode)
  | text (value : Str)
  | other (value : Str)

namespace XmlNode

/-- `TiXmlNode::Value`. -/
def value : XmlNode → Str
  | element name _ => name
  | text value | other value => value

/-- The children of a node. -/
def children : XmlNode → List XmlNode
  | element _ children => children
  | text _ | other _ => []

end XmlNode

/-- `TiXmlHandle::FirstChild` of nodes with a value. -/
def firstChildNamed (nodes : List XmlNode) (name : Str) : Option XmlNode :=
  nodes.find? (·.value = name)

/-- `TiXmlHandle::ToText`, and the value of the text. -/
def toText : Option XmlNode → Option Str
  | some (.text value) => some value
  | some (.element ..) | some (.other _) | none => none

/-- The handle chain of `check_for_errors` to the text of a part of the error. -/
def errorText (doc : List XmlNode) (part : Str) : Option Str :=
  match firstChildNamed doc "Error".toList with
  | none => none
  | some error =>
    match firstChildNamed error.children part with
    | none => none
    | some node => toText node.children.head?

/-- What calling a function comes to: it returns, it throws an `es3_exception` with its description,
or it dereferences a node that is not there. -/
inductive CheckResult where
  | returned
  | threw (code : Code) (desc : Str)
  | undefined
  deriving DecidableEq, Repr

/-- The text that tells of a connection that was idle. -/
def idleText : Str := "Idle connections will be closed".toList

/-- What the XML parser makes of the body of an answer, which `c_str` ends at a zero character: the
nodes of the document, unless there is an error. -/
def parsedBody (parse : Str → Option (List XmlNode)) (curlRes : Str) : Option (List XmlNode) :=
  parse (curlRes.takeWhile (· ≠ '\x00'))

/-- `s3_connection::check_for_errors`, from the code and the body of an answer. -/
def checkForErrors (parse : Str → Option (List XmlNode)) (code : Nat) (curlRes : Str) :
    CheckResult :=
  if code < 400 then .returned
  else
    let errLevel : Code := if 500 ≤ code then .errWarn else .errFatal
    let defError := "HTTP code ".toList ++ intToString code ++ " received.".toList
    match parsedBody parse curlRes with
    | none => .threw errLevel defError
    | some doc =>
      let s3ErrCode := errorText doc "Code".toList
      let message := errorText doc "Message".toList
      match message, s3ErrCode with
      | some msgVal, some errCode =>
        let errLevel := if idleText <:+: msgVal then .errWarn else errLevel
        .threw errLevel (errCode ++ " - ".toList ++ msgVal)
      | some _, none | none, _ => .undefined

/-- The parsed message is about an idle connection. -/
def SaysIdle (doc : Option (List XmlNode)) : Prop :=
  ∃ nodes msgVal, doc = some nodes ∧ errorText nodes "Message".toList = some msgVal ∧
    idleText <:+: msgVal

/-- An error is raised for the code, at its level, and nothing else is. -/
structure HttpErrorRaised (parse : Str → Option (List XmlNode)) (code : Nat) (curlRes : Str) :
    Prop where
  raised : 400 ≤ code → ∃ level desc, checkForErrors parse code curlRes = .threw level desc ∧
    (level = .errWarn ↔ 500 ≤ code ∨ SaysIdle (parsedBody parse curlRes)) ∧
    (level = .errFatal ↔ ¬ (500 ≤ code ∨ SaysIdle (parsedBody parse curlRes)))
  quiet : code < 400 → checkForErrors parse code curlRes = .returned

/-- The document has both texts that `check_for_errors` looks for. -/
def HasErrorTexts (doc : List XmlNode) : Prop :=
  (errorText doc "Code".toList).isSome ∧ (errorText doc "Message".toList).isSome

section

variable {parse : Str → Option (List XmlNode)} {code : Nat} {curlRes : Str} {doc : List XmlNode}

/-- An answer below 400 is no error. -/
theorem checkForErrors_of_lt (h : code < 400) : checkForErrors parse code curlRes = .returned :=
  if_pos h

/-- The level of the code when the body is not parsed. -/
theorem checkForErrors_of_unparsed (h : 400 ≤ code) (hdoc : parsedBody parse curlRes = none) :
    checkForErrors parse code curlRes = .threw (if 500 ≤ code then .errWarn else .errFatal)
      ("HTTP code ".toList ++ intToString code ++ " received.".toList) := by
  rw [checkForErrors, if_neg (Nat.not_lt.2 h), hdoc]

/-- The level of the code, or of an idle connection, when the body has both texts. -/
theorem checkForErrors_of_texts (h : 400 ≤ code) (hdoc : parsedBody parse curlRes = some doc)
    {errCode msgVal : Str} (hcode : errorText doc "Code".toList = some errCode)
    (hmsg : errorText doc "Message".toList = some msgVal) :
    checkForErrors parse code curlRes =
      .threw (if idleText <:+: msgVal then .errWarn else if 500 ≤ code then .errWarn else .errFatal)
        (errCode ++ " - ".toList ++ msgVal) := by
  rw [checkForErrors, if_neg (Nat.not_lt.2 h), hdoc]
  dsimp only
  rw [hcode, hmsg]

/-- Without one of the texts a node is dereferenced that is not there. -/
theorem checkForErrors_of_missing (h : 400 ≤ code) (hdoc : parsedBody parse curlRes = some doc)
    (hmissing : ¬ HasErrorTexts doc) : checkForErrors parse code curlRes = .undefined := by
  rw [checkForErrors, if_neg (Nat.not_lt.2 h), hdoc]
  dsimp only
  cases hmsg : errorText doc "Message".toList with
  | none => rfl
  | some msgVal =>
    cases hcode : errorText doc "Code".toList with
    | none => rfl
    | some errCode => exact absurd ⟨by rw [hcode]; rfl, by rw [hmsg]; rfl⟩ hmissing

/-- The two levels. -/
theorem level_iff {c : Prop} [Decidable c] {level : Code}
    (h : level = if c then .errWarn else .errFatal) :
    (level = .errWarn ↔ c) ∧ (level = .errFatal ↔ ¬ c) := by
  subst h
  split
  · next hc => simp [hc]
  · next hc => simp [hc]

/-- An HTTP error is raised just when the body is not parsed, or has both texts. -/
theorem http_error_raised_iff (parse : Str → Option (List XmlNode)) (code : Nat) (curlRes : Str) :
    HttpErrorRaised parse code curlRes ↔
      code < 400 ∨ ∀ doc, parsedBody parse curlRes = some doc → HasErrorTexts doc := by
  constructor
  · intro h
    by_cases hcode : code < 400
    · exact .inl hcode
    · refine .inr fun doc hdoc => ?_
      by_contra hmissing
      obtain ⟨level, desc, hthrew, -⟩ := h.raised (Nat.le_of_not_lt hcode)
      rw [checkForErrors_of_missing (Nat.le_of_not_lt hcode) hdoc hmissing] at hthrew
      cases hthrew
  · intro h
    refine ⟨fun hcode => ?_, checkForErrors_of_lt⟩
    have h := h.resolve_left (Nat.not_lt.2 hcode)
    cases hdoc : parsedBody parse curlRes with
    | none =>
      refine ⟨_, _, checkForErrors_of_unparsed hcode hdoc, ?_⟩
      have hidle : ¬ SaysIdle none := by
        rintro ⟨nodes, msgVal, hnone, -⟩
        cases hnone
      have := level_iff (c := 500 ≤ code) rfl
      simpa only [hidle, or_false] using this
    | some doc =>
      obtain ⟨hc, hm⟩ := h doc hdoc
      obtain ⟨errCode, hc⟩ := Option.isSome_iff_exists.1 hc
      obtain ⟨msgVal, hm⟩ := Option.isSome_iff_exists.1 hm
      refine ⟨_, _, checkForErrors_of_texts hcode hdoc hc hm, ?_⟩
      have hidle : SaysIdle (some doc) ↔ idleText <:+: msgVal := by
        constructor
        · rintro ⟨nodes, msgVal', hnodes, hm', hpart⟩
          cases hnodes
          cases hm.symm.trans hm'
          exact hpart
        · exact fun hpart => ⟨doc, msgVal, rfl, hm, hpart⟩
      rw [hidle]
      refine level_iff ?_
      split
      · next hpart => rw [if_pos (.inr hpart)]
      · next hpart => simp only [hpart, or_false]

end

/-- An error page that is well-formed XML and no error of the service raises nothing. -/
theorem http_error_undefined :
    ¬ ∀ parse code curlRes, HttpErrorRaised parse code curlRes := by
  intro hall
  obtain ⟨level, desc, hthrew, -⟩ :=
    (hall (fun _ => some [.element "html".toList []]) 502 "<html/>".toList).raised (by decide)
  rw [checkForErrors_of_missing (by decide) rfl] at hthrew
  · cases hthrew
  · rintro ⟨hcode, -⟩
    cases hcode

end ExtremeS3
