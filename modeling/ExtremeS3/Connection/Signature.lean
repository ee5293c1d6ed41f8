import ExtremeS3.Connection.Headers
import ExtremeS3.Lib.SortedMap
import ExtremeS3.Sync.Paths
import Mathlib

/-!
# The signature of a request

A `header_map_t` is ordered by its names without regard to their case, so its entries with the names
in lower case are a sorted map (`HeaderMap.folded_set`, `HeaderMap.sorted_ofList`). `prepare` sends
the headers that it is called with, and `authenticate_req` builds a map of its own to sign. They
agree on the headers of the service (`signature_covers_sent`). What is signed depends on the map
with the names in lower case only (`stringToSign_of_folded`), so neither the case nor the order of
the headers changes the signature.
-/

namespace ExtremeS3

/-! ## The order of header names -/

/-- A header with its name in lower case. -/
def lowerName (h : Str × Str) : Str × Str := (h.1.map Char.toLower, h.2)

/-- The headers with their names in lower case. -/
def HeaderMap.folded (m : HeaderMap) : List (Str × Str) := m.map lowerName

/-- The map that insertions make, in their order. -/
def HeaderMap.ofList (es : List (Str × Str)) : HeaderMap :=
  es.foldl (fun m e => HeaderMap.set e.1 e.2 m) []

/-- `find`. -/
def HeaderMap.find (key : Str) : HeaderMap → Option Str
  | [] => none
  | (k, v) :: m =>
    if !ciStringLess key k && !ciStringLess k key then some v else HeaderMap.find key m

/-- `try_get`. -/
def HeaderMap.tryGet (m : HeaderMap) (key : Str) : Str := (m.find key).getD []

/-- `ci_string_less` orders the names in lower case. -/
theorem ciStringLess_iff {a b : Str} :
    ciStringLess a b ↔ a.map Char.toLower < b.map Char.toLower := by
  induction a generalizing b with
  | nil =>
    cases b with
    | nil => simp [ciStringLess]
    | cons d b => simp [ciStringLess]
  | cons c a ih =>
    cases b with
    | nil => simp [ciStringLess]
    | cons d b =>
      rw [ciStringLess, List.map_cons, List.map_cons, List.cons_lt_cons_iff, ← ih]
      have hlt : c.toLower.toNat < d.toLower.toNat ↔ c.toLower < d.toLower := Iff.rfl
      have heq : c.toLower.toNat = d.toLower.toNat ↔ c.toLower = d.toLower := Char.toNat_inj
      simp only [Bool.or_eq_true, Bool.and_eq_true, decide_eq_true_eq, hlt, heq]

/-- A name is not below another if the other, in lower case, does not come after it. -/
theorem ciStringLess_eq_false {a b : Str} :
    ciStringLess a b = false ↔ b.map Char.toLower ≤ a.map Char.toLower := by
  rw [← not_lt, ← ciStringLess_iff, Bool.not_eq_true]

/-- Two names are the same for the order when they are in lower case. -/
theorem ciStringLess_equiv {a b : Str} : (!ciStringLess a b && !ciStringLess b a) = true ↔
    a.map Char.toLower = b.map Char.toLower := by
  rw [Bool.and_eq_true, Bool.not_eq_true', Bool.not_eq_true', ciStringLess_eq_false,
    ciStringLess_eq_false]
  exact ⟨fun h => le_antisymm h.2 h.1, fun h => ⟨h.ge, h.le⟩⟩

/-- Folding a map puts the names in lower case, one by one. -/
theorem HeaderMap.folded_cons (k v : Str) (m : HeaderMap) :
    HeaderMap.folded ((k, v) :: m) = (k.map Char.toLower, v) :: m.folded := rfl

/-- Setting a header is setting it in the folded map. -/
theorem HeaderMap.folded_set (key value : Str) (m : HeaderMap) :
    (HeaderMap.set key value m).folded =
      upsert (key.map Char.toLower) (fun _ => value) m.folded := by
  induction m with
  | nil => rfl
  | cons e m ih =>
    obtain ⟨k, v⟩ := e
    rw [folded_cons, HeaderMap.set, upsert]
    by_cases hlt : ciStringLess key k
    · rw [if_pos hlt, if_pos (ciStringLess_iff.1 hlt)]
      rfl
    · rw [if_neg hlt, if_neg (fun h => hlt (ciStringLess_iff.2 h))]
      by_cases hgt : ciStringLess k key
      · rw [if_pos hgt, if_neg (ciStringLess_iff.1 hgt).ne']
        rw [folded_cons, ih]
      · have heq : key.map Char.toLower = k.map Char.toLower :=
          ciStringLess_equiv.1 (by simp [hlt, hgt])
        rw [if_neg hgt, if_pos heq, heq]
        rfl

/-- Looking up a header is looking it up in the folded map. -/
theorem HeaderMap.find_eq_findKey (key : Str) (m : HeaderMap) :
    m.find key = findKey (key.map Char.toLower) m.folded := by
  induction m with
  | nil => rfl
  | cons e m ih =>
    obtain ⟨k, v⟩ := e
    rw [folded_cons, find, findKey_cons, ih]
    by_cases hk : key.map Char.toLower = k.map Char.toLower
    · rw [if_pos (ciStringLess_equiv.2 hk), if_pos hk]
    · rw [if_neg (fun h => hk (ciStringLess_equiv.1 h)), if_neg hk]

/-- The insertions make the same map of names in lower case. -/
theorem HeaderMap.folded_ofList (es : List (Str × Str)) :
    (HeaderMap.ofList es).folded = insertAll (es.map lowerName) [] := by
  have hrun : ∀ (es : List (Str × Str)) (m : HeaderMap),
      (es.foldl (fun m e => HeaderMap.set e.1 e.2 m) m).folded =
        insertAll (es.map lowerName) m.folded := by
    intro es
    induction es with
    | nil => exact fun _ => rfl
    | cons e es ih =>
      intro m
      rw [List.foldl_cons, ih, folded_set]
      rfl
  exact hrun es []

/-- The folded map of a list of headers is sorted. -/
theorem HeaderMap.sorted_ofList (es : List (Str × Str)) : Sorted (HeaderMap.ofList es).folded := by
  rw [folded_ofList]
  exact sorted_nil.insertAll _

/-! ## The request -/

/-- What requests are signed with: the name of the key, and `sign` with its secret, which throws if
a string is too long. -/
structure Credentials where
  apiKey : Str
  sign : Str → Option Str

/-- The `amz_headers` of a map. -/
def amzHeaders (myOpts : HeaderMap) : Str :=
  myOpts.flatMap fun h =>
    let lowerHdr := h.1.map Char.toLower
    if "x-amz".toList.isPrefixOf lowerHdr then lowerHdr ++ ":".toList ++ h.2 ++ "\n".toList else []

/-- The string that `authenticate_req` signs. -/
def stringToSign (verb : Str) (path : S3Path) (opts : HeaderMap) (dateHeader : Str) : Str :=
  let myOpts := HeaderMap.set "x-amz-date".toList dateHeader opts
  let canonicalizedResource := "/".toList ++ path.bucket ++ path.path
  verb ++ "\n".toList ++
    opts.tryGet "content-md5".toList ++ "\n".toList ++
    opts.tryGet "content-type".toList ++ "\n".toList ++
    "\n".toList ++
    amzHeaders myOpts ++
    canonicalizedResource

/-- `s3_connection::authenticate_req`. -/
def authenticateReq (cred : Credentials) (headerList : List Str) (verb : Str) (path : S3Path)
    (opts : HeaderMap) (dateHeader : Str) : Option (List Str) := do
  let headerList := headerList ++ ["x-amz-date: ".toList ++ dateHeader]
  let signRes ← cred.sign (stringToSign verb path opts dateHeader)
  let auth := "Authorization: AWS ".toList ++ cred.apiKey ++ ":".toList ++ signRes
  pure (headerList ++ [auth])

/-- The path of a request. -/
def S3Path.rooted (path : S3Path) : S3Path :=
  if path.path = [] then { path with path := "/".toList } else path

/-- A header as it is put in a request. -/
def headerLine (h : Str × Str) : Str := h.1 ++ ": ".toList ++ h.2

/-- The headers of a request that `s3_connection::prepare` sets up. -/
def prepare (cred : Credentials) (verb : Str) (path : S3Path) (opts : HeaderMap)
    (dateHeader : Str) : Option (List Str) :=
  let curPath := path.rooted
  let headerList := opts.map headerLine
  authenticateReq cred headerList verb curPath opts dateHeader

/-! ## What is signed -/

/-- A header of the service. -/
def isAmz (h : Str × Str) : Bool := "x-amz".toList.isPrefixOf (h.1.map Char.toLower)

/-- A header as it is signed. -/
def signedLine (h : Str × Str) : Str := h.1 ++ ":".toList ++ h.2 ++ "\n".toList

/-- The headers of a request with its signature. -/
def sentHeaders (cred : Credentials) (opts : HeaderMap) (dateHeader signRes : Str) :
    List (Str × Str) :=
  opts ++ [("x-amz-date".toList, dateHeader),
    ("Authorization".toList, "AWS ".toList ++ cred.apiKey ++ ":".toList ++ signRes)]

/-- The headers that are signed are those of the service among the ones sent, with their names in
lower case and in increasing order. -/
structure SignsSent (signed sent : List (Str × Str)) : Prop where
  exact : signed.Perm ((sent.filter isAmz).map lowerName)
  lower : ∀ h ∈ signed, h.1.map Char.toLower = h.1
  increasing : (signed.map Prod.fst).Pairwise (· < ·)

/-- A name that is put in lower case stays as it is when put in lower case again. -/
theorem lowerName_lower (h : Str × Str) : (lowerName h).1.map Char.toLower = (lowerName h).1 := by
  simp [lowerName, Char.toLower_toLower_eq_toLower]

/-- What is signed depends on the entries with their names in lower case. -/
theorem amzHeaders_eq (m : HeaderMap) :
    amzHeaders m = (m.folded.filter fun h => "x-amz".toList.isPrefixOf h.1).flatMap signedLine := by
  unfold amzHeaders
  induction m with
  | nil => rfl
  | cons e m ih =>
    rw [List.flatMap_cons, ih, HeaderMap.folded_cons, List.filter_cons]
    dsimp only
    split
    · rfl
    · rfl

/-- The string to sign depends on the headers only through the folded map. -/
theorem stringToSign_of_folded {verb : Str} {path : S3Path} {m m' : HeaderMap} {dateHeader : Str}
    (h : m.folded = m'.folded) :
    stringToSign verb path m dateHeader = stringToSign verb path m' dateHeader := by
  unfold stringToSign HeaderMap.tryGet
  simp only [amzHeaders_eq, HeaderMap.folded_set, HeaderMap.find_eq_findKey, h]

/-- Maps that find the same values have the same entries. -/
theorem HeaderMap.folded_eq_of_find {es es' : List (Str × Str)}
    (h : ∀ name, (ofList es).find name = (ofList es').find name) :
    (ofList es).folded = (ofList es').folded := by
  have hlower : ∀ (es : List (Str × Str)) (e : Str × Str), e ∈ (ofList es).folded →
      e.1.map Char.toLower = e.1 := by
    intro es e he
    obtain ⟨e, -, rfl⟩ := List.mem_map.1 he
    exact lowerName_lower e
  have hsub : ∀ es es' : List (Str × Str),
      (∀ name, (ofList es).find name = (ofList es').find name) →
      ∀ e ∈ (ofList es).folded, e ∈ (ofList es').folded := by
    intro es es' h e he
    have hfind := h e.1
    rw [find_eq_findKey, find_eq_findKey, hlower es e he,
      (sorted_ofList es).findKey_eq_some.2 he] at hfind
    exact (sorted_ofList es').findKey_eq_some.1 hfind.symm
  exact (sorted_ofList es).ext (sorted_ofList es') fun e =>
    ⟨hsub es es' h e, hsub es' es (fun name => (h name).symm) e⟩

/-- The headers that are signed are those that are sent. -/
theorem signsSent (cred : Credentials) {es : List (Str × Str)} (dateHeader signRes : Str)
    (hdate : ∀ e ∈ es, e.1.map Char.toLower ≠ "x-amz-date".toList) :
    SignsSent (((HeaderMap.set "x-amz-date".toList dateHeader (HeaderMap.ofList es)).folded).filter
      fun h => "x-amz".toList.isPrefixOf h.1)
      (sentHeaders cred (HeaderMap.ofList es) dateHeader signRes) := by
  have hsorted := HeaderMap.sorted_ofList es
  have hnew : findKey "x-amz-date".toList (HeaderMap.ofList es).folded = none := by
    rw [findKey_eq_none, HeaderMap.folded_ofList, mem_keys_insertAll]
    rintro (hm | hm)
    · cases hm
    · simp only [List.mem_map] at hm
      obtain ⟨-, ⟨e, he, rfl⟩, hname⟩ := hm
      exact hdate e he hname
  have hset : (HeaderMap.set "x-amz-date".toList dateHeader (HeaderMap.ofList es)).folded.Perm
      (("x-amz-date".toList, dateHeader) :: (HeaderMap.ofList es).folded) := by
    rw [HeaderMap.folded_set]
    exact hsorted.upsert_new hnew _
  have hsent : (sentHeaders cred (HeaderMap.ofList es) dateHeader signRes).filter isAmz =
      (HeaderMap.ofList es).filter isAmz ++ [("x-amz-date".toList, dateHeader)] := by
    rw [sentHeaders, List.filter_append]
    rfl
  have hfolded : (HeaderMap.ofList es).folded.filter (fun h => "x-amz".toList.isPrefixOf h.1) =
      ((HeaderMap.ofList es).filter isAmz).map lowerName := by
    rw [HeaderMap.folded, List.filter_map]
    rfl
  constructor
  case exact =>
    rw [hsent, List.map_append, ← hfolded]
    refine (hset.filter _).trans ?_
    exact (List.perm_append_singleton _ _).symm
  case lower =>
    intro h hh
    obtain ⟨e, -, rfl⟩ := List.mem_map.1 (List.mem_of_mem_filter hh)
    exact lowerName_lower e
  case increasing =>
    rw [HeaderMap.folded_set]
    exact (hsorted.upsert _ _).filter _

/-- The string that is signed has a line for each header of the service that the request has, the
date among them, and for no other, with the names in lower case and in increasing order. The case of
the names and the order of insertions do not matter. -/
theorem signature_covers_sent (cred : Credentials) (verb : Str) (path : S3Path)
    (dateHeader : Str) {es : List (Str × Str)}
    (hdate : ∀ e ∈ es, e.1.map Char.toLower ≠ "x-amz-date".toList) :
    prepare cred verb path (HeaderMap.ofList es) dateHeader =
        (cred.sign (stringToSign verb path.rooted (HeaderMap.ofList es) dateHeader)).map
          (fun signRes =>
            (sentHeaders cred (HeaderMap.ofList es) dateHeader signRes).map headerLine) ∧
      (∃ signed,
        stringToSign verb path.rooted (HeaderMap.ofList es) dateHeader =
          verb ++ "\n".toList ++ (HeaderMap.ofList es).tryGet "content-md5".toList ++ "\n".toList ++
            (HeaderMap.ofList es).tryGet "content-type".toList ++ "\n".toList ++ "\n".toList ++
            signed.flatMap signedLine ++ ("/".toList ++ path.rooted.bucket ++ path.rooted.path) ∧
        ∀ signRes, SignsSent signed
          (sentHeaders cred (HeaderMap.ofList es) dateHeader signRes)) ∧
      (∀ es', (∀ name, (HeaderMap.ofList es').find name = (HeaderMap.ofList es).find name) →
        stringToSign verb path.rooted (HeaderMap.ofList es') dateHeader =
          stringToSign verb path.rooted (HeaderMap.ofList es) dateHeader) ∧
      ∀ es', (es.map fun e => e.1.map Char.toLower).Nodup →
        (es'.map lowerName).Perm (es.map lowerName) →
        stringToSign verb path.rooted (HeaderMap.ofList es') dateHeader =
          stringToSign verb path.rooted (HeaderMap.ofList es) dateHeader := by
  refine ⟨?_, ⟨_, ?_, fun signRes => signsSent cred dateHeader signRes hdate⟩, ?_, ?_⟩
  · unfold prepare authenticateReq
    simp only [sentHeaders, List.map_append, List.map_cons, List.map_nil, List.append_assoc]
    cases cred.sign (stringToSign verb path.rooted (HeaderMap.ofList es) dateHeader) <;> rfl
  · rw [stringToSign, amzHeaders_eq]
  · intro es' h
    exact stringToSign_of_folded (HeaderMap.folded_eq_of_find h)
  · intro es' hnodup hperm
    refine stringToSign_of_folded ?_
    rw [HeaderMap.folded_ofList, HeaderMap.folded_ofList]
    have hnodup' : ((es.map lowerName).map Prod.fst).Nodup := by
      rw [List.map_map]
      exact hnodup
    exact (insertAll_eq_of_perm hperm ((hperm.map Prod.fst).nodup_iff.2 hnodup'))

/-- The headers of a small upload. -/
def smallHeaders : List (Str × Str) :=
  [("X-Amz-Meta-Size".toList, "3".toList), ("Content-Type".toList, "text/plain".toList),
    ("x-amz-acl".toList, "private".toList)]

/-- `signature_covers_sent` for a small upload, whose headers another one has in another case and
order. -/
theorem signature_covers_sent_small :
    stringToSign "PUT".toList ⟨[], "b".toList, "/f".toList⟩ (HeaderMap.ofList smallHeaders)
        "now".toList =
      "PUT\n\ntext/plain\n\nx-amz-acl:private\nx-amz-date:now\nx-amz-meta-size:3\n/b/f".toList ∧
    stringToSign "PUT".toList ⟨[], "b".toList, "/f".toList⟩
        (HeaderMap.ofList [("X-AMZ-ACL".toList, "private".toList),
          ("x-amz-meta-size".toList, "3".toList), ("content-type".toList, "text/plain".toList)])
        "now".toList =
      stringToSign "PUT".toList ⟨[], "b".toList, "/f".toList⟩ (HeaderMap.ofList smallHeaders)
        "now".toList := by
  have hdate : ∀ e ∈ smallHeaders, e.1.map Char.toLower ≠ "x-amz-date".toList := by decide
  have hcovers := signature_covers_sent ⟨[], some⟩ "PUT".toList ⟨[], "b".toList, "/f".toList⟩
    "now".toList hdate
  exact ⟨by decide, hcovers.2.2.2 _ (by decide) (by decide)⟩

end ExtremeS3
