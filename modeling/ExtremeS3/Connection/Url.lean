import ExtremeS3.Sync.Basic

/-!
# The URL of a request, and how it is read

`set_url` puts the path of an object into the URL as it is, and the requests about a part of an
object append their query to the path. A server takes the path up to the first `?` or `#` and decodes
its escapes, and takes the query after the first `?`. It reads what was meant unless the path has one
of these characters or an escape (`addresses_iff`).
-/

namespace ExtremeS3

/-! ## The requests -/

/-- The host that `set_url` names. -/
def S3Path.host (path : S3Path) : Str :=
  path.bucket ++ ".".toList ++ path.zone ++ ".amazonaws.com".toList

/-- `set_url`. -/
def setUrl (useSsl : Bool) (path : S3Path) (args : Str) : Str :=
  let curPath := if path.path = [] then "/".toList else path.path
  (if useSsl then "https://" else "http://").toList ++ path.host ++ curPath ++ args

/-- A path with a query appended to it. -/
def S3Path.withQuery (path : S3Path) (query : Str) : S3Path :=
  { path with path := path.path ++ '?' :: query }

/-- The query of `initiate_multipart`. -/
def initiateQuery : Str := "uploads".toList

/-- The query of a `part_upload_task`. -/
def partQuery (num : Nat) (uploadId : Str) : Str :=
  "partNumber=".toList ++ intToString (num + 1) ++ "&uploadId=".toList ++ uploadId

/-- The query of `complete_multipart`. -/
def completeQuery (uploadId : Str) : Str := "uploadId=".toList ++ uploadId

/-- The queries of requests about an object: none, or one of its sub-resources. -/
inductive ObjectQuery : Option Str → Prop
  | object : ObjectQuery none
  | initiate : ObjectQuery (some initiateQuery)
  | part (num uploadId) : ObjectQuery (some (partQuery num uploadId))
  | complete (uploadId) : ObjectQuery (some (completeQuery uploadId))

/-- The URL of a request about an object. -/
def requestUrl (useSsl : Bool) (path : S3Path) : Option Str → Str
  | none => setUrl useSsl path []
  | some query => setUrl useSsl (path.withQuery query) []

/-! ## The server -/

/-- What a request is about. -/
structure Address where
  host : Str
  path : Str
  query : Str
  deriving DecidableEq, Repr

/-- The value of a hexadecimal digit. -/
def hexValue (c : Char) : Option Nat :=
  if '0' ≤ c ∧ c ≤ '9' then some (c.toNat - '0'.toNat)
  else if 'a' ≤ c ∧ c ≤ 'f' then some (c.toNat - 'a'.toNat + 10)
  else if 'A' ≤ c ∧ c ≤ 'F' then some (c.toNat - 'A'.toNat + 10)
  else none

/-- Decode the escapes, each a `%` with two digits. -/
def percentDecode : Str → Str
  | '%' :: a :: b :: s =>
    match hexValue a, hexValue b with
    | some x, some y => Char.ofNat (16 * x + y) :: percentDecode s
    | _, _ => '%' :: percentDecode (a :: b :: s)
  | c :: s => c :: percentDecode s
  | [] => []

/-- Whether there is an escape. -/
def escaped : Str → Bool
  | '%' :: a :: b :: s => (hexValue a).isSome && (hexValue b).isSome || escaped (a :: b :: s)
  | _ :: s => escaped s
  | [] => false

/-- How a server reads the URL of a request. -/
def readUrl (url : Str) : Address :=
  let rest := (url.dropWhile (· ≠ '/')).drop 2
  let target := rest.dropWhile fun c => c ≠ '/' ∧ c ≠ '?' ∧ c ≠ '#'
  { host := rest.takeWhile fun c => c ≠ '/' ∧ c ≠ '?' ∧ c ≠ '#'
    path := percentDecode (target.takeWhile fun c => c ≠ '?' ∧ c ≠ '#')
    query := (target.dropWhile (· ≠ '?')).drop 1 }

/-- Every request about the object is read as such. -/
def Addresses (useSsl : Bool) (path : S3Path) : Prop :=
  ∀ query, ObjectQuery query →
    readUrl (requestUrl useSsl path query) = ⟨path.host, path.path, query.getD []⟩

/-- A path that is read as it is. -/
structure PathClean (path : Str) : Prop where
  question : '?' ∉ path
  hash : '#' ∉ path
  escaped : escaped path = false

/-- A host that is read as it is. -/
def HostClean (host : Str) : Prop := ∀ c ∈ host, c ≠ '/' ∧ c ≠ '?' ∧ c ≠ '#'

instance (host : Str) : Decidable (HostClean host) :=
  List.decidableBAll (fun c => c ≠ '/' ∧ c ≠ '?' ∧ c ≠ '#') host

/-- Decoding makes no text longer. -/
theorem length_percentDecode_le (s : Str) : (percentDecode s).length ≤ s.length := by
  fun_induction percentDecode s with
  | case1 a b s x y hx hy ih => simp only [List.length_cons]; omega
  | case2 a b s _ ih => simp only [List.length_cons] at ih ⊢; omega
  | case3 c s _ ih => simp only [List.length_cons]; omega
  | case4 => exact Nat.le_refl _

/-- Decoding leaves a text as it is if there is no escape in it. -/
theorem percentDecode_eq_self_iff (s : Str) : percentDecode s = s ↔ escaped s = false := by
  fun_induction percentDecode s with
  | case1 a b s x y hx hy ih =>
    have := length_percentDecode_le s
    constructor
    · intro h
      have := congrArg List.length h
      simp only [List.length_cons] at this
      omega
    · intro h
      simp [escaped, hx, hy] at h
  | case2 a b s hno ih =>
    have hnone : ((hexValue a).isSome && (hexValue b).isSome) = false := by
      cases hx : hexValue a with
      | none => rfl
      | some x =>
        cases hy : hexValue b with
        | none => rfl
        | some y => exact absurd hy (hno x y hx)
    rw [escaped, hnone, Bool.false_or, List.cons.injEq, ih, eq_self, true_and]
  | case3 c s hno ih =>
    have : escaped (c :: s) = escaped s := by
      rw [escaped]
      exact hno
    rw [this, List.cons.injEq, ih, eq_self, true_and]
  | case4 => simp [escaped]

/-- What follows the scheme. -/
theorem drop_scheme (useSsl : Bool) (s : Str) :
    (((if useSsl then "https://" else "http://").toList ++ s).dropWhile (· ≠ '/')).drop 2 = s := by
  cases useSsl <;> simp

/-- A URL, read up to its path. -/
theorem readUrl_eq (useSsl : Bool) {host path rest : Str} (hpath : path.head? = some '/')
    (hhost : HostClean host) :
    readUrl ((if useSsl then "https://" else "http://").toList ++ (host ++ (path ++ rest))) =
      { host := host
        path := percentDecode ((path ++ rest).takeWhile fun c => c ≠ '?' ∧ c ≠ '#')
        query := ((path ++ rest).dropWhile (· ≠ '?')).drop 1 } := by
  have hclean : ∀ c ∈ host, decide (c ≠ '/' ∧ c ≠ '?' ∧ c ≠ '#') = true := fun c hc =>
    decide_eq_true (hhost c hc)
  obtain ⟨p, rfl⟩ : ∃ p, path = '/' :: p := by
    cases path with
    | nil => cases hpath
    | cons c p => cases hpath; exact ⟨p, rfl⟩
  have hslash : decide ('/' ≠ '/' ∧ '/' ≠ '?' ∧ '/' ≠ '#') = false := by decide
  rw [readUrl, drop_scheme, List.takeWhile_append_of_pos hclean, List.dropWhile_append_of_pos hclean,
    List.cons_append, List.takeWhile_cons_of_neg (by rw [hslash]; exact Bool.false_ne_true),
    List.dropWhile_cons_of_neg (by rw [hslash]; exact Bool.false_ne_true), List.append_nil]

/-- What a request appends to the path. -/
def queryText : Option Str → Str
  | none => []
  | some query => '?' :: query

/-- The URL of a request, as the host, the path and the query. -/
theorem requestUrl_eq (useSsl : Bool) {path : S3Path} (hpath : path.path.head? = some '/')
    (query : Option Str) :
    requestUrl useSsl path query =
      (if useSsl then "https://" else "http://").toList ++
        (path.host ++ (path.path ++ queryText query)) := by
  have hne : path.path ≠ [] := by
    intro h
    rw [h] at hpath
    cases hpath
  cases query with
  | none => simp only [requestUrl, setUrl, if_neg hne, queryText, List.append_assoc]
  | some query =>
    have hne' : (path.withQuery query).path ≠ [] := List.append_ne_nil_of_left_ne_nil hne _
    simp only [requestUrl, setUrl, if_neg hne', queryText, List.append_assoc, List.append_nil]
    rfl

/-- A request about a clean path is read as it was meant. -/
theorem readUrl_requestUrl (useSsl : Bool) {path : S3Path} (hpath : path.path.head? = some '/')
    (hhost : HostClean path.host) (hclean : PathClean path.path) (query : Option Str) :
    readUrl (requestUrl useSsl path query) = ⟨path.host, path.path, query.getD []⟩ := by
  have hpos : ∀ c ∈ path.path, decide (c ≠ '?' ∧ c ≠ '#') = true := fun c hc =>
    decide_eq_true ⟨fun h => hclean.question (h ▸ hc), fun h => hclean.hash (h ▸ hc)⟩
  have hpos' : ∀ c ∈ path.path, decide (c ≠ '?') = true := fun c hc =>
    decide_eq_true fun h => hclean.question (h ▸ hc)
  rw [requestUrl_eq useSsl hpath, readUrl_eq useSsl hpath hhost, List.takeWhile_append_of_pos hpos,
    List.dropWhile_append_of_pos hpos']
  have hdecode : percentDecode path.path = path.path := (percentDecode_eq_self_iff _).2 hclean.escaped
  cases query with
  | none => simp [queryText, hdecode]
  | some query => simp [queryText, hdecode]

/-- A host that a request is read with is clean. -/
theorem hostClean_of_readUrl {useSsl : Bool} {path : S3Path} (hpath : path.path.head? = some '/')
    {query : Option Str} (h : (readUrl (requestUrl useSsl path query)).host = path.host) :
    HostClean path.host := by
  rw [requestUrl_eq useSsl hpath, readUrl, drop_scheme] at h
  dsimp only at h
  intro c hc
  rw [← h] at hc
  have hp := List.mem_takeWhile_imp (p := fun c => decide (c ≠ '/' ∧ c ≠ '?' ∧ c ≠ '#')) hc
  exact of_decide_eq_true hp

/-- A path that a request about the object itself is read with is clean. -/
theorem clean_of_readUrl {useSsl : Bool} {path : S3Path} (hpath : path.path.head? = some '/')
    (h : readUrl (requestUrl useSsl path none) = ⟨path.host, path.path, []⟩) :
    HostClean path.host ∧ PathClean path.path := by
  have hhost := hostClean_of_readUrl hpath (congrArg Address.host h)
  rw [requestUrl_eq useSsl hpath] at h
  rw [readUrl_eq useSsl hpath hhost, queryText, List.append_nil] at h
  have hdecode := congrArg Address.path h
  dsimp only at hdecode
  -- decoding makes nothing longer, so nothing was cut off
  have hle := length_percentDecode_le (path.path.takeWhile fun c => c ≠ '?' ∧ c ≠ '#')
  rw [hdecode] at hle
  have hwhole : (path.path.takeWhile fun c => c ≠ '?' ∧ c ≠ '#') = path.path :=
    (List.takeWhile_prefix _).eq_of_length_le hle
  rw [hwhole, percentDecode_eq_self_iff] at hdecode
  have hall := List.takeWhile_eq_self_iff.1 hwhole
  exact ⟨hhost, fun hm => (of_decide_eq_true (hall _ hm)).1 rfl,
    fun hm => (of_decide_eq_true (hall _ hm)).2 rfl, hdecode⟩

/-- The requests about a file below a destination are read as such exactly when no character of the
path, and no escape, has a meaning of its own; and then the requests about different files are about
different objects. -/
theorem addresses_iff {remote : S3Path} (hremote : remote.path.head? = some '/') (useSsl : Bool)
    (name : Str) :
    (Addresses useSsl (derive remote name) ↔
      HostClean remote.host ∧ PathClean (derive remote name).path) ∧
    ∀ name', NameOk name → NameOk name' → name ≠ name' → Addresses useSsl (derive remote name) →
      Addresses useSsl (derive remote name') → ∀ query query', ObjectQuery query →
        ObjectQuery query' → (readUrl (requestUrl useSsl (derive remote name) query)).path ≠
          (readUrl (requestUrl useSsl (derive remote name') query')).path := by
  have hhead : ∀ name, (derive remote name).path.head? = some '/' := head?_joinPath hremote
  refine ⟨⟨fun h => clean_of_readUrl (hhead name) (h none .object), fun h query _ =>
    readUrl_requestUrl useSsl (hhead name) h.1 h.2 query⟩, ?_⟩
  intro name' hn hn' hne h h' query query' hq hq'
  rw [h query hq, h' query' hq']
  intro he
  have := congrArg components he
  simp only [derive] at this
  rw [components_joinPath _ hn.ne_nil hn.slash, components_joinPath _ hn'.ne_nil hn'.slash] at this
  exact hne (List.singleton_injective (List.append_cancel_left this))

/-- A directory of a bucket. -/
def someDirectory : S3Path := ⟨"s3".toList, "b".toList, "/d/".toList⟩

/-- `addresses_iff` at a file with a plain name. -/
theorem addresses_iff_plain : Addresses false (derive someDirectory "f".toList) :=
  (addresses_iff (by decide) false "f".toList).1.2 ⟨by decide, by decide, by decide, by decide⟩

/-- A file whose name passes the filter, and whose plain request has the path and the query of the one
that starts an upload of another file. -/
theorem name_starts_upload :
    mirroring.checkIncluded "/l/a?uploads".toList = true ∧
      readUrl (requestUrl false (derive someDirectory "a?uploads".toList) none) =
        readUrl (requestUrl false (derive someDirectory "a".toList) (some initiateQuery)) ∧
      ¬ Addresses false (derive someDirectory "a?uploads".toList) :=
  ⟨by decide, by decide, fun h => absurd (h none .object) (by decide)⟩

end ExtremeS3
