import ExtremeS3.Sync.Paths
import Mathlib.Data.List.Infix

/-!
# Paths on the command line

`parse_path` splits a URL into the bucket and the path of an object or a directory. What it accepts
begins with one separator and has no two of them in a row (`ParsedPath.head`,
`ParsedPath.slashes`). It reads just the URLs with the name of a bucket (`UrlOf`), and loses nothing
of them, but for one URL that it accepts without one (`parse_path_exact_iff`).
-/

namespace ExtremeS3

/-- What `parse_path` throws: `std::bad_exception`, or an `es3_exception` that is fatal. -/
inductive UrlError where
  | badException
  | fatal (what : Str)
  deriving DecidableEq, Repr

/-- `parse_path`. -/
def parsePath (url : Str) : Except UrlError S3Path :=
  if ¬ "s3://".toList <+: url then .error .badException
  else
    let bucketAndPath := url.drop 5
    let bucket := bucketAndPath.takeWhile (· ≠ '/')
    let path := bucketAndPath.dropWhile (· ≠ '/')
    if path ≠ [] ∧ bucket = [] then
      .error (.fatal ("Malformed S3 URL - no bucket name: ".toList ++ url))
    else
      let res : S3Path := ⟨[], bucket, if path = [] then "/".toList else path⟩
      if "//".toList <:+: res.path then
        .error (.fatal ("Malformed S3 URL - invalid '//' combination: ".toList ++ url))
      else .ok res

/-- A path that `parse_path` accepted, with any zone: the commands ask for the zone of the bucket. -/
def ParsedPath (path : S3Path) : Prop :=
  ∃ url zone, parsePath url = .ok { path with zone := zone }

/-- `operator<<` of an `s3_path`. -/
def S3Path.print (p : S3Path) : Str := "s3://".toList ++ p.bucket ++ p.path

/-- The path of a URL that is read starts with a slash, and has no two slashes next to each other.
-/
theorem path_of_parsePath {url : Str} {path : S3Path} (h : parsePath url = .ok path) :
    path.path.head? = some '/' ∧ ¬ "//".toList <:+: path.path := by
  rw [parsePath] at h
  split at h
  · cases h
  · dsimp only at h
    split at h
    · cases h
    · generalize hp : (if (url.drop 5).dropWhile (· ≠ '/') = [] then "/".toList
        else (url.drop 5).dropWhile (· ≠ '/')) = p at h
      split at h
      · cases h
      · next hslashes =>
        cases h
        refine ⟨?_, hslashes⟩
        subst hp
        split
        · rfl
        · next hne =>
          have := List.head_dropWhile_not (· ≠ '/') hne
          rw [List.head?_eq_some_head hne]
          simpa using this

/-- What is accepted begins with the scheme. -/
theorem scheme_of_parsePath {url : Str} {r : S3Path} (h : parsePath url = .ok r) :
    "s3://".toList <+: url := by
  by_contra hno
  rw [parsePath, if_pos hno] at h
  cases h

/-- A path that was read starts with a slash. -/
theorem ParsedPath.head {path : S3Path} (h : ParsedPath path) : path.path.head? = some '/' := by
  obtain ⟨url, zone, hurl⟩ := h
  exact (path_of_parsePath hurl).1

/-- A path that was read has no two slashes next to each other. -/
theorem ParsedPath.slashes {path : S3Path} (h : ParsedPath path) :
    ¬ "//".toList <:+: path.path := by
  obtain ⟨url, zone, hurl⟩ := h
  exact (path_of_parsePath hurl).2

/-! ## The URLs that are accepted -/

/-- The URL of a path in a bucket, or of a bucket alone. -/
structure UrlOf (url bucket path : Str) : Prop where
  eq : url = "s3://".toList ++ bucket ++ path
  bucket_ne_nil : bucket ≠ []
  bucket_slash : '/' ∉ bucket
  head : path = [] ∨ path.head? = some '/'
  slashes : ¬ "//".toList <:+: path

/-- `parse_path` accepts just the URLs of that form, and what it returns prints as the URL, with the
path of the root where there was none. -/
structure ParsesExactly (url : Str) : Prop where
  accepts : (∃ r, parsePath url = .ok r) ↔ ∃ bucket path, UrlOf url bucket path
  prints : ∀ bucket path r, UrlOf url bucket path → parsePath url = .ok r →
    r.print = if path = [] then url ++ "/".toList else url

/-- A bucket and the rest of a URL are split at the first separator. -/
theorem UrlOf.split {url bucket path : Str} (h : UrlOf url bucket path) :
    (url.drop 5).takeWhile (· ≠ '/') = bucket ∧ (url.drop 5).dropWhile (· ≠ '/') = path := by
  have hall : ∀ c ∈ bucket, decide (c ≠ '/') = true := fun c hc =>
    decide_eq_true fun he => h.bucket_slash (he ▸ hc)
  have hdrop : url.drop 5 = bucket ++ path := by rw [h.eq]; rfl
  rw [hdrop, List.takeWhile_append_of_pos hall, List.dropWhile_append_of_pos hall]
  rcases h.head with rfl | hhead
  · simp
  · obtain ⟨s, rfl⟩ := List.head?_eq_some_iff.1 hhead
    simp

/-- A URL of that form is accepted, and split as it was put together. -/
theorem UrlOf.parsePath {url bucket path : Str} (h : UrlOf url bucket path) :
    parsePath url = .ok ⟨[], bucket, if path = [] then "/".toList else path⟩ := by
  obtain ⟨htake, hdrop⟩ := h.split
  have hprefix : "s3://".toList <+: url := ⟨bucket ++ path, by rw [h.eq, List.append_assoc]⟩
  have hslashes : ¬ "//".toList <:+: (if path = [] then "/".toList else path) := by
    split
    · decide
    · exact h.slashes
  rw [ExtremeS3.parsePath, if_neg (not_not.2 hprefix)]
  dsimp only
  rw [htake, hdrop, if_neg fun hno => h.bucket_ne_nil hno.2, if_neg hslashes]

/-- Any such path in a bucket with a name is accepted. -/
theorem parsedPath_of {path : S3Path} (hbucket : path.bucket ≠ []) (hslash : '/' ∉ path.bucket)
    (hhead : path.path.head? = some '/') (hslashes : ¬ "//".toList <:+: path.path) :
    ParsedPath path := by
  have hne : path.path ≠ [] := fun h => by rw [h] at hhead; cases hhead
  have hurl : UrlOf path.print path.bucket path.path :=
    ⟨rfl, hbucket, hslash, .inr hhead, hslashes⟩
  have hparse := hurl.parsePath
  rw [if_neg hne] at hparse
  exact ⟨_, _, hparse⟩

/-- What is accepted is of that form, but for the URL of no bucket. -/
theorem urlOf_of_parsePath {url : Str} {r : S3Path} (h : parsePath url = .ok r) :
    url = "s3://".toList ∨ ∃ bucket path, UrlOf url bucket path := by
  rw [parsePath] at h
  split at h
  · cases h
  · next hprefix =>
    obtain ⟨s, rfl⟩ := not_not.1 hprefix
    have hdrop : ("s3://".toList ++ s).drop 5 = s := rfl
    dsimp only at h
    rw [hdrop] at h
    split at h
    · cases h
    · next hbucket =>
      by_cases hs : s = []
      · exact .inl (by rw [hs]; rfl)
      · refine .inr ⟨s.takeWhile (· ≠ '/'), s.dropWhile (· ≠ '/'), ?_, ?_, ?_, ?_, ?_⟩
        · rw [List.append_assoc, List.takeWhile_append_dropWhile]
        · intro hnil
          refine hbucket ⟨fun hpath => hs ?_, hnil⟩
          rw [← List.takeWhile_append_dropWhile (p := (· ≠ '/')) (l := s), hnil, hpath]
          rfl
        · intro hm
          have hne := List.mem_takeWhile_imp hm
          simp at hne
        · by_cases hpath : s.dropWhile (· ≠ '/') = []
          · exact .inl hpath
          · refine .inr ?_
            have hhead := List.head_dropWhile_not (· ≠ '/') hpath
            rw [List.head?_eq_some_head hpath]
            simpa using hhead
        · by_cases hpath : s.dropWhile (· ≠ '/') = []
          · rw [hpath]
            decide
          · rw [if_neg hpath] at h
            intro hslashes
            rw [if_pos hslashes] at h
            cases h

/-- The URL of no bucket is not of that form. -/
theorem UrlOf.ne_scheme {url bucket path : Str} (h : UrlOf url bucket path) :
    url ≠ "s3://".toList := by
  intro he
  have hnil := List.self_eq_append_right.1 (he.symm.trans (h.eq.trans (List.append_assoc ..)))
  exact h.bucket_ne_nil (List.append_eq_nil_iff.1 hnil).1

/-- `parse_path` is exact on every URL but one. -/
theorem parse_path_exact_iff (url : Str) : ParsesExactly url ↔ url ≠ "s3://".toList := by
  constructor
  · rintro h rfl
    obtain ⟨bucket, path, hurl⟩ := h.accepts.1 ⟨_, rfl⟩
    exact hurl.ne_scheme rfl
  · intro hne
    constructor
    case accepts =>
      constructor
      · rintro ⟨r, hr⟩
        exact (urlOf_of_parsePath hr).resolve_left hne
      · rintro ⟨bucket, path, hurl⟩
        exact ⟨_, hurl.parsePath⟩
    case prints =>
      intro bucket path r hurl hr
      have hprint : r.print =
          "s3://".toList ++ bucket ++ (if path = [] then "/".toList else path) := by
        rw [hurl.parsePath] at hr
        cases hr
        rfl
      by_cases hnil : path = []
      · rw [hprint, if_pos hnil, if_pos hnil, hurl.eq, hnil, List.append_nil]
      · rw [hprint, if_neg hnil, if_neg hnil, hurl.eq]

/-- The URL of no bucket is accepted. -/
theorem no_bucket_accepted : parsePath "s3://".toList = .ok ⟨[], [], "/".toList⟩ ∧
    ¬ ∃ bucket path, UrlOf "s3://".toList bucket path := by
  refine ⟨rfl, ?_⟩
  rintro ⟨bucket, path, hurl⟩
  exact hurl.ne_scheme rfl

end ExtremeS3
