import ExtremeS3.Connection.Base64
import ExtremeS3.Connection.Signature

/-!
# What a signature commits to

`sign` writes the keyed hash of a string in base 64, and `authenticate_req` puts it in the last
header of a request. The string that is signed is made of parts one after the other: the method, two
headers, the lines of the headers of the service, and the resource. Each of them ends where the next
one begins (`stringToSign_inj`), so that requests with the same signature have the same parts, but
for a collision of the hash (`authorization_commits`).
-/

namespace ExtremeS3

/-- `s3_connection::sign`, with the keyed hash. -/
def sign (hmac : Str → Bytes) (str : Str) : Option Str :=
  if 2 ^ 31 - 1 ≤ str.length then none else some (base64Encode (hmac str))

/-- The credentials of a `conn_context`. -/
def Credentials.ofHmac (apiKey : Str) (hmac : Str → Bytes) : Credentials := ⟨apiKey, ExtremeS3.sign hmac⟩

/-- The parts of a request that are signed. -/
structure SignedParts where
  verb : Str
  contentMd5 : Str
  contentType : Str
  amz : List (Str × Str)
  bucket : Str
  path : Str
  deriving DecidableEq

/-- The headers of the service that are signed. -/
def amzSigned (opts : HeaderMap) (dateHeader : Str) : List (Str × Str) :=
  (HeaderMap.set "x-amz-date".toList dateHeader opts).folded.filter fun h =>
    "x-amz".toList.isPrefixOf h.1

/-- The parts of a request. -/
def signedParts (verb : Str) (path : S3Path) (opts : HeaderMap) (dateHeader : Str) : SignedParts where
  verb := verb
  contentMd5 := opts.tryGet "content-md5".toList
  contentType := opts.tryGet "content-type".toList
  amz := amzSigned opts dateHeader
  bucket := path.bucket
  path := path.path

/-- A request whose method and headers are lines, with a bucket and a path in it. -/
structure Signable (verb : Str) (path : S3Path) (opts : HeaderMap) (dateHeader : Str) : Prop where
  verb : '\n' ∉ verb
  names : ∀ h ∈ opts, ':' ∉ h.1
  values : ∀ h ∈ opts, '\n' ∉ h.2
  date : '\n' ∉ dateHeader
  bucket : '/' ∉ path.bucket
  path : path.path = [] ∨ path.path.head? = some '/'

/-! ## Lines -/

/-- Where a part ends at the first separator, the parts and what follows them are the same. -/
theorem cut_unique {α : Type u} {c : α} {a b s t : List α} (ha : c ∉ a) (hb : c ∉ b) :
    a ++ c :: s = b ++ c :: t ↔ a = b ∧ s = t := by
  constructor
  · intro h
    induction a generalizing b with
    | nil =>
      cases b with
      | nil => exact ⟨rfl, (List.cons.inj h).2⟩
      | cons d b => exact absurd (.head _) ((List.cons.inj h).1 ▸ hb)
    | cons d a ih =>
      cases b with
      | nil => exact absurd (.head _) ((List.cons.inj h).1 ▸ ha)
      | cons d' b =>
        obtain ⟨rfl, htail⟩ := List.cons.inj h
        obtain ⟨rfl, hst⟩ := ih (fun hc => ha (.tail _ hc)) (fun hc => hb (.tail _ hc)) htail
        exact ⟨rfl, hst⟩
  · rintro ⟨rfl, rfl⟩
    rfl

/-- A header that makes up a line, which does not begin as the resource does. -/
structure LineOk (h : Str × Str) : Prop where
  head : ∃ s, h.1 = 'x' :: s
  name : ':' ∉ h.1
  value : '\n' ∉ h.2

/-- A signed line is what is before the colon, and what is after it. -/
theorem signedLine_append (h : Str × Str) (s : Str) :
    signedLine h ++ s = h.1 ++ ':' :: (h.2 ++ '\n' :: s) := by
  simp [signedLine]

/-- Lines that are followed by the resource are the same lines. -/
theorem lines_unique {l l' : List (Str × Str)} (hl : ∀ h ∈ l, LineOk h) (hl' : ∀ h ∈ l', LineOk h)
    {s t : Str} :
    l.flatMap signedLine ++ '/' :: s = l'.flatMap signedLine ++ '/' :: t ↔ l = l' ∧ s = t := by
  constructor
  · intro h
    induction l generalizing l' with
    | nil =>
      cases l' with
      | nil => exact ⟨rfl, (List.cons.inj h).2⟩
      | cons e l' =>
        obtain ⟨r, hr⟩ := (hl' e (.head _)).head
        rw [List.flatMap_cons, List.append_assoc, signedLine_append, hr] at h
        cases (List.cons.inj h).1
    | cons e l ih =>
      have he := hl e (.head _)
      cases l' with
      | nil =>
        obtain ⟨r, hr⟩ := he.head
        rw [List.flatMap_cons, List.append_assoc, signedLine_append, hr] at h
        cases (List.cons.inj h).1
      | cons e' l' =>
        have he' := hl' e' (.head _)
        rw [List.flatMap_cons, List.append_assoc, signedLine_append, List.flatMap_cons,
          List.append_assoc, signedLine_append, cut_unique he.name he'.name,
          cut_unique he.value he'.value] at h
        obtain ⟨hname, hvalue, hrest⟩ := h
        obtain ⟨rfl, rfl⟩ := ih (fun x hx => hl x (.tail _ hx)) (fun x hx => hl' x (.tail _ hx)) hrest
        exact ⟨congrArg (· :: l) (Prod.ext hname hvalue), rfl⟩
  · rintro ⟨rfl, rfl⟩
    rfl

/-! ## Parts -/

/-- An entry of a map after a value was set. -/
theorem HeaderMap.mem_set {key value : Str} {m : HeaderMap} {e : Str × Str}
    (h : e ∈ HeaderMap.set key value m) :
    e ∈ m ∨ e.2 = value ∧ (e.1 = key ∨ ∃ v, (e.1, v) ∈ m) := by
  induction m with
  | nil =>
    obtain rfl := List.mem_singleton.1 h
    exact .inr ⟨rfl, .inl rfl⟩
  | cons kv m ih =>
    obtain ⟨k, v⟩ := kv
    rw [HeaderMap.set] at h
    split at h
    · rcases List.mem_cons.1 h with rfl | h
      · exact .inr ⟨rfl, .inl rfl⟩
      · exact .inl h
    · split at h
      · rcases List.mem_cons.1 h with rfl | h
        · exact .inl (.head _)
        · rcases ih h with h | ⟨hv, hk | ⟨w, hk⟩⟩
          · exact .inl (.tail _ h)
          · exact .inr ⟨hv, .inl hk⟩
          · exact .inr ⟨hv, .inr ⟨w, .tail _ hk⟩⟩
      · rcases List.mem_cons.1 h with rfl | h
        · exact .inr ⟨rfl, .inr ⟨v, .head _⟩⟩
        · exact .inl (.tail _ h)

/-- A header that is found is one of the map. -/
theorem HeaderMap.tryGet_mem {key : Str} {m : HeaderMap} (h : m.tryGet key ≠ []) :
    ∃ k, (k, m.tryGet key) ∈ m := by
  unfold tryGet at *
  induction m with
  | nil => exact absurd rfl h
  | cons kv m ih =>
    rw [HeaderMap.find] at *
    split
    · exact ⟨kv.1, .head _⟩
    · next hne =>
      rw [if_neg hne] at h
      obtain ⟨k, hk⟩ := ih h
      exact ⟨k, .tail _ hk⟩

section
variable {verb : Str} {path : S3Path} {opts : HeaderMap} {dateHeader : Str}

/-- No header of a signable request has a line break. -/
theorem Signable.tryGet (h : Signable verb path opts dateHeader) (key : Str) :
    '\n' ∉ opts.tryGet key := by
  by_cases hnil : opts.tryGet key = []
  · simp [hnil]
  · obtain ⟨k, hk⟩ := HeaderMap.tryGet_mem hnil
    exact h.values _ hk

/-- Every signed line of a signable request is a line of its own, with its colon after the name. -/
theorem Signable.amzSigned (h : Signable verb path opts dateHeader) :
    ∀ e ∈ amzSigned opts dateHeader, LineOk e := by
  intro e he
  obtain ⟨hfolded, hamz⟩ := List.mem_filter.1 he
  obtain ⟨e, hset, rfl⟩ := List.mem_map.1 hfolded
  have hname : ':' ∉ e.1 ∧ '\n' ∉ e.2 := by
    rcases HeaderMap.mem_set hset with hopts | ⟨hv, hk | ⟨v, hk⟩⟩
    · exact ⟨h.names e hopts, h.values e hopts⟩
    · rw [hk, hv]
      exact ⟨by decide, h.date⟩
    · rw [hv]
      exact ⟨h.names (e.1, v) hk, h.date⟩
  refine ⟨?_, ?_, hname.2⟩
  · obtain ⟨t, ht⟩ := List.isPrefixOf_iff_prefix.1 hamz
    exact ⟨"-amz".toList ++ t, ht.symm⟩
  · intro hc
    obtain ⟨c, hmem, hc⟩ := List.mem_map.1 hc
    exact toLower_ne_colon (fun heq => hname.1 (heq ▸ hmem)) hc

/-- The string that is signed, with its parts one after the other. -/
theorem stringToSign_eq (verb : Str) (path : S3Path) (opts : HeaderMap) (dateHeader : Str) :
    stringToSign verb path opts dateHeader =
      verb ++ '\n' :: (opts.tryGet "content-md5".toList ++ '\n' ::
        (opts.tryGet "content-type".toList ++ '\n' :: '\n' ::
          ((amzSigned opts dateHeader).flatMap signedLine ++ '/' :: (path.bucket ++ path.path)))) := by
  rw [stringToSign, amzHeaders_eq]
  simp [amzSigned]

end

/-- The path of a request begins with a separator. -/
theorem rooted_path {path : S3Path} (h : path.path = [] ∨ path.path.head? = some '/') :
    ∃ s, path.rooted.path = '/' :: s := by
  unfold S3Path.rooted
  split
  · exact ⟨[], rfl⟩
  · next hne =>
    obtain ⟨c, s, hs⟩ := List.exists_cons_of_ne_nil hne
    refine ⟨s, ?_⟩
    rw [hs] at h ⊢
    simpa using h

/-- Rooting a path leaves its bucket as it is. -/
theorem rooted_bucket (path : S3Path) : path.rooted.bucket = path.bucket := by
  unfold S3Path.rooted
  split <;> rfl

/-- Strings to sign are the same exactly when all their parts are. -/
theorem stringToSign_inj {verb verb' : Str} {path path' : S3Path} {opts opts' : HeaderMap}
    {date date' : Str} (h : Signable verb path opts date) (h' : Signable verb' path' opts' date') :
    stringToSign verb path.rooted opts date = stringToSign verb' path'.rooted opts' date' ↔
      signedParts verb path.rooted opts date = signedParts verb' path'.rooted opts' date' := by
  obtain ⟨s, hs⟩ := rooted_path h.path
  obtain ⟨s', hs'⟩ := rooted_path h'.path
  rw [stringToSign_eq, stringToSign_eq, cut_unique h.verb h'.verb,
    cut_unique (h.tryGet _) (h'.tryGet _), cut_unique (h.tryGet _) (h'.tryGet _),
    List.cons.injEq, lines_unique h.amzSigned h'.amzSigned, hs, hs', rooted_bucket, rooted_bucket,
    cut_unique h.bucket h'.bucket]
  simp only [signedParts, SignedParts.mk.injEq, rooted_bucket, hs, hs', List.cons.injEq, true_and]

/-! ## The last header -/

/-- The last header of a request carries the hash of the string that is signed. -/
theorem getLast?_prepare {apiKey : Str} {hmac : Str → Bytes} {verb : Str} {path : S3Path}
    {opts : HeaderMap} {date : Str} {headers : List Str}
    (h : prepare (.ofHmac apiKey hmac) verb path opts date = some headers) :
    headers.getLast? = some ("Authorization: AWS ".toList ++ apiKey ++ ":".toList ++
      base64Encode (hmac (stringToSign verb path.rooted opts date))) := by
  unfold prepare authenticateReq Credentials.ofHmac sign at h
  dsimp only at h
  split at h
  · cases h
  · cases h
    rw [List.getLast?_append]
    rfl

/-- Two requests of one user have the same signature exactly when the keyed hash of the strings to
sign is the same, and the strings are the same exactly when the methods, the signed headers, the
buckets and the paths are. -/
theorem authorization_commits (apiKey : Str) (hmac : Str → Bytes) {verb verb' : Str}
    {path path' : S3Path} {opts opts' : HeaderMap} {date date' : Str}
    (h : Signable verb path opts date) (h' : Signable verb' path' opts' date')
    {headers headers' : List Str}
    (hp : prepare (.ofHmac apiKey hmac) verb path opts date = some headers)
    (hp' : prepare (.ofHmac apiKey hmac) verb' path' opts' date' = some headers') :
    (headers.getLast? = headers'.getLast? ↔
      hmac (stringToSign verb path.rooted opts date) =
        hmac (stringToSign verb' path'.rooted opts' date')) ∧
    (stringToSign verb path.rooted opts date = stringToSign verb' path'.rooted opts' date' ↔
      signedParts verb path.rooted opts date = signedParts verb' path'.rooted opts' date') := by
  refine ⟨?_, stringToSign_inj h h'⟩
  rw [getLast?_prepare hp, getLast?_prepare hp', Option.some_inj, List.append_cancel_left_eq]
  constructor
  · intro heq
    have := congrArg base64Decode heq
    rwa [base64Decode_base64Encode, base64Decode_base64Encode] at this
  · intro heq
    rw [heq]

/-- The hashes of two strings with the key `secret`. -/
def smallHmac (s : Str) : Bytes :=
  if s = "PUT\n\n\n\nx-amz-date:now\n/b/f".toList then
    [119, 111, 216, 149, 76, 235, 105, 234, 155, 154, 22, 150, 135, 214, 156, 163, 253, 212, 71, 80]
  else [164, 51, 70, 68, 16, 164, 196, 250, 30, 54, 79, 185, 251, 61, 236, 183, 102, 150, 82, 157]

/-- `authorization_commits` for two requests that differ in their methods. -/
theorem authorization_commits_small :
    ∃ headers headers' : List Str,
      prepare (.ofHmac "key".toList smallHmac) "PUT".toList ⟨[], "b".toList, "/f".toList⟩ []
        "now".toList = some headers ∧
      prepare (.ofHmac "key".toList smallHmac) "GET".toList ⟨[], "b".toList, "/f".toList⟩ []
        "now".toList = some headers' ∧
      headers.getLast? = some "Authorization: AWS key:d2/YlUzraeqbmhaWh9aco/3UR1A=".toList ∧
      headers.getLast? ≠ headers'.getLast? := by
  have hs : ∀ verb, '\n' ∉ verb → Signable verb ⟨[], "b".toList, "/f".toList⟩ [] "now".toList :=
    fun verb hverb => ⟨hverb, by decide, by decide, by decide, by decide, by decide⟩
  refine ⟨_, _, rfl, rfl, by decide, ?_⟩
  intro heq
  have := (authorization_commits "key".toList smallHmac (hs "PUT".toList (by decide))
    (hs "GET".toList (by decide)) rfl rfl).1.1 heq
  revert this
  decide

end ExtremeS3
