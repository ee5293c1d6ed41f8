import ExtremeS3.Common
import ExtremeS3.Lib.Lists

/-!
# The headers of an object

`file_uploader` stores what a download needs in headers of the object, and `find_mtime` reads them
from the lines of the answer to a `HEAD` request, each by its name in lower case. From any lines
that give the headers of an upload, in any order and among any others, `find_mtime_and_size` reads
what the upload was of (`findMtimeAndSize_of_gives`).
-/

namespace ExtremeS3

/-- `file_desc`. -/
structure FileDesc where
  mtime : Int64
  rawSize : Nat
  remoteSize : Nat
  mode : Nat
  compressed : Bool
  found : Bool
  deriving DecidableEq, Repr

/-- `ci_string_less`. -/
def ciStringLess : Str → Str → Bool
  | _, [] => false
  | [], _ :: _ => true
  | a :: s, b :: t =>
    a.toLower.toNat < b.toLower.toNat ||
      a.toLower.toNat = b.toLower.toNat && ciStringLess s t

/-- `header_map_t`, in the order of its keys. -/
abbrev HeaderMap := List (Str × Str)

/-- Set the value of a header; a key that is there stays as it is spelled. -/
def HeaderMap.set (key value : Str) : HeaderMap → HeaderMap
  | [] => [(key, value)]
  | (k, v) :: m =>
    if ciStringLess key k then (key, value) :: (k, v) :: m
    else if ciStringLess k key then (k, v) :: HeaderMap.set key value m
    else (k, value) :: m

/-- The headers that `file_uploader` sends with the first request of an upload. -/
def uploadHeaders (doCompress : Bool) (mime : Str) (mtime : Int64) (fileSz mode : Int) : HeaderMap :=
  let hmap : HeaderMap :=
    HeaderMap.set "x-amz-meta-compressed".toList
      (if doCompress then "true".toList else "false".toList) []
  let hmap := HeaderMap.set "Content-Type".toList mime hmap
  let hmap :=
    if doCompress then HeaderMap.set "Content-Encoding".toList "gzip".toList hmap else hmap
  let hmap := HeaderMap.set "x-amz-meta-last-modified".toList (intToString mtime.toInt) hmap
  let hmap := HeaderMap.set "x-amz-meta-size".toList (intToString fileSz) hmap
  HeaderMap.set "x-amz-meta-file-mode".toList (intToString mode) hmap

/-- A number in an unsigned type of so many bits. -/
def toUnsigned (bits : Nat) (i : Int) : Nat := (i % 2 ^ bits).toNat

/-- `find_header`. -/
def findHeader (lineRaw headerName : Str) : Str :=
  let line := lineRaw.map Char.toLower
  match line.idxOf? ':' with
  | some pos =>
    let name := trim (line.take pos)
    let val := trim (lineRaw.drop (pos + 1))
    if name = headerName then val else []
  | none => []

/-- `find_mtime`. -/
def findMtime (info : FileDesc) (line : Str) : FileDesc :=
  let mtime := findHeader line "x-amz-meta-last-modified".toList
  let ln := findHeader line "x-amz-meta-size".toList
  let ln2 := findHeader line "content-length".toList
  let cmpr := findHeader line "x-amz-meta-compressed".toList
  let md := findHeader line "x-amz-meta-file-mode".toList
  { mtime := if mtime ≠ [] then Int64.ofInt (atoll mtime) else info.mtime
    rawSize := if ln ≠ [] then toUnsigned 64 (atoll ln) else info.rawSize
    remoteSize := if ln2 ≠ [] then toUnsigned 64 (atoll ln2) else info.remoteSize
    compressed := if cmpr = "true".toList then true else info.compressed
    mode := if md ≠ [] then toUnsigned 32 (atoll md) else info.mode
    found := info.found }

/-- `find_mtime_and_size`, from the answer to its request. -/
def findMtimeAndSize (code : Nat) (lines : List Str) : FileDesc :=
  let result := lines.foldl findMtime ⟨0, 0, 0, 0o664, false, false⟩
  let result := { result with found := code ≠ 404 }
  if result.rawSize = 0 then { result with rawSize := result.remoteSize } else result

/-! ## Lines that give headers -/

/-- The line gives a header, with a name in any case and any white space around the value. -/
def GivesHeader (key value line : Str) : Prop :=
  ∃ name a b, line = name ++ ':' :: (a ++ value ++ b) ∧ ':' ∉ name ∧
    trim (name.map Char.toLower) = key.map Char.toLower ∧
    (∀ c ∈ a, isTrimmed c) ∧ ∀ c ∈ b, isTrimmed c

/-- The names that `find_mtime` looks for. -/
def readHeaders : List Str :=
  ["x-amz-meta-last-modified".toList, "x-amz-meta-size".toList, "content-length".toList,
    "x-amz-meta-compressed".toList, "x-amz-meta-file-mode".toList]

/-- The lines give the headers that `find_mtime` looks for, each at least once, and no others with
their names. -/
structure GivesHeaders (headers : HeaderMap) (lines : List Str) : Prop where
  given : ∀ key value, (key, value) ∈ headers → key.map Char.toLower ∈ readHeaders →
    ∃ line ∈ lines, GivesHeader key value line
  only : ∀ line ∈ lines, ∀ name ∈ readHeaders, findHeader line name ≠ [] →
    ∃ key value, (key, value) ∈ headers ∧ key.map Char.toLower = name ∧ GivesHeader key value line

/-- Lower case makes no colon of another character. -/
theorem toLower_ne_colon {c : Char} (hc : c ≠ ':') : c.toLower ≠ ':' := by
  intro h
  delta Char.toLower at h
  split at h
  · next hu =>
    have hval : c.val + 32 = 58 := congrArg Char.val h
    have h₁ : 65 ≤ c.val.toNat := UInt32.le_iff_toNat_le.1 hu.1
    have h₂ : c.val.toNat ≤ 90 := UInt32.le_iff_toNat_le.1 hu.2
    have := congrArg UInt32.toNat hval
    rw [UInt32.toNat_add] at this
    simp only [UInt32.reduceToNat] at this
    omega
  · exact hc h

/-- The first colon is the one behind a name without one. -/
theorem idxOf?_append_cons {n : Str} {c : Char} (hn : c ∉ n) (s : Str) :
    (n ++ c :: s).idxOf? c = some n.length := by
  induction n with
  | nil => simp [List.idxOf?_cons]
  | cons d n ih =>
    rw [List.mem_cons, not_or] at hn
    obtain ⟨hd, hn⟩ := hn
    rw [List.cons_append, List.idxOf?_cons, if_neg (by simpa using Ne.symm hd), ih hn]
    rfl

/-- A line that gives a header answers its name, in any case, with its value, and any other name
with nothing. -/
theorem findHeader_of_gives {key value line : Str} (h : GivesHeader key value line)
    (hv : ∀ c ∈ value, isTrimmed c = false) (name : Str) :
    findHeader line name = if key.map Char.toLower = name then value else [] := by
  obtain ⟨n, a, b, rfl, hn, hname, ha, hb⟩ := h
  have hlower : ':' ∉ n.map Char.toLower := fun hm => by
    obtain ⟨c, hc, he⟩ := List.mem_map.1 hm
    exact toLower_ne_colon (fun hcc => hn (hcc ▸ hc)) he
  have hpos : ((n ++ ':' :: (a ++ value ++ b)).map Char.toLower).idxOf? ':' = some n.length := by
    rw [List.map_append, List.map_cons, show Char.toLower ':' = ':' from rfl,
      idxOf?_append_cons hlower, List.length_map]
  rw [findHeader]
  simp only [hpos]
  rw [List.map_append, List.take_left' (List.length_map _), hname, List.drop_append,
    List.drop_of_length_le (Nat.le_succ _), List.nil_append, Nat.add_sub_cancel_left,
    List.drop_one, List.tail_cons, trim_pad ha hv hb]

/-- The values of the headers with a name in lower case. -/
def HeaderMap.values (headers : HeaderMap) (name : Str) : List Str :=
  (headers.filter fun e => e.1.map Char.toLower = name).map Prod.snd

/-- Lines that give headers give a name the one value that the headers have for it. -/
theorem GivesHeaders.findHeader {headers : HeaderMap} {lines : List Str}
    (h : GivesHeaders headers lines) {name value : Str} (hname : name ∈ readHeaders)
    (hval : headers.values name = [value]) (hv : ∀ c ∈ value, isTrimmed c = false) :
    (∀ line ∈ lines, ExtremeS3.findHeader line name = [] ∨
      ExtremeS3.findHeader line name = value) ∧
      ∃ line ∈ lines, ExtremeS3.findHeader line name = value := by
  have hmem : ∀ key v, (key, v) ∈ headers → key.map Char.toLower = name → v = value := by
    intro key v hkv hkey
    have : v ∈ headers.values name :=
      List.mem_map.2 ⟨(key, v), List.mem_filter.2 ⟨hkv, decide_eq_true hkey⟩, rfl⟩
    rw [hval] at this
    exact List.mem_singleton.1 this
  constructor
  · intro line hline
    by_cases hnil : ExtremeS3.findHeader line name = []
    · exact .inl hnil
    · obtain ⟨key, v, hkv, hkey, hgives⟩ := h.only line hline name hname hnil
      cases hmem key v hkv hkey
      rw [findHeader_of_gives hgives hv, if_pos hkey]
      exact .inr rfl
  · have : value ∈ headers.values name := by rw [hval]; exact List.mem_singleton_self _
    obtain ⟨⟨key, v⟩, he, rfl⟩ := List.mem_map.1 this
    obtain ⟨hkv, hkey⟩ := List.mem_filter.1 he
    have hkey := of_decide_eq_true hkey
    obtain ⟨line, hline, hgives⟩ := h.given key v hkv (hkey ▸ hname)
    exact ⟨line, hline, by rw [findHeader_of_gives hgives hv, if_pos hkey]⟩

/-- A field that `find_mtime` sets from a header with a value that is not empty. -/
theorem GivesHeaders.foldl_findMtime {headers : HeaderMap} {lines : List Str}
    (h : GivesHeaders headers lines) (get : FileDesc → β) (f : Str → β) {name value : Str}
    (hname : name ∈ readHeaders) (hval : headers.values name = [value])
    (hv : ∀ c ∈ value, isTrimmed c = false) (hne : value ≠ [])
    (hget : ∀ info line, get (findMtime info line) =
      if ExtremeS3.findHeader line name ≠ [] then f (ExtremeS3.findHeader line name)
      else get info) (info : FileDesc) : get (lines.foldl findMtime info) = f value := by
  obtain ⟨hall, line, hline, hex⟩ := h.findHeader hname hval hv
  refine foldl_eq_of_set get (fun line hline => ?_) ⟨line, hline, fun s => ?_⟩ info
  · rcases hall line hline with he | he
    · exact .inl fun s => by rw [hget, if_neg (not_not_intro he)]
    · exact .inr fun s => by rw [hget, he, if_pos hne]
  · rw [hget, hex, if_pos hne]

/-- The headers of an upload with the length of what is stored, as an answer gives them. -/
def storedHeaders (doCompress : Bool) (mime : Str) (mtime : Int64) (fileSz mode : Int) (length : Nat) :
    HeaderMap :=
  ("Content-Length".toList, intToString length) ::
    uploadHeaders doCompress mime mtime fileSz mode

/-- A number that fits is read as it is. -/
theorem toUnsigned_natCast {bits n : Nat} (h : n < 2 ^ bits) : toUnsigned bits n = n := by
  rw [toUnsigned, Int.emod_eq_of_lt (Int.natCast_nonneg n) (by exact_mod_cast h), Int.toNat_natCast]

/-- The headers of an upload, in their order. -/
theorem uploadHeaders_eq (doCompress : Bool) (mime : Str) (mtime : Int64) (fileSz mode : Int) :
    uploadHeaders doCompress mime mtime fileSz mode =
      (if doCompress then [("Content-Encoding".toList, "gzip".toList)] else []) ++
      [("Content-Type".toList, mime),
        ("x-amz-meta-compressed".toList,
          if doCompress then "true".toList else "false".toList),
        ("x-amz-meta-file-mode".toList, intToString mode),
        ("x-amz-meta-last-modified".toList, intToString mtime.toInt),
        ("x-amz-meta-size".toList, intToString fileSz)] := by
  cases doCompress <;> rfl

/-- The two values of the flag have no white space. -/
theorem isTrimmed_flag (c : Bool) :
    ∀ d ∈ (if c then "true".toList else "false".toList), isTrimmed d = false := by
  have hall : (if c then "true".toList else "false".toList).all (fun d => !isTrimmed d) := by
    cases c <;> decide
  intro d hd
  have hnot := List.all_eq_true.1 hall d hd
  rwa [Bool.not_eq_true'] at hnot

/-- The flag that `find_mtime` sets. -/
theorem GivesHeaders.foldl_findMtime_compressed {headers : HeaderMap} {lines : List Str}
    (h : GivesHeaders headers lines) {c : Bool}
    (hval : headers.values "x-amz-meta-compressed".toList =
      [if c then "true".toList else "false".toList]) {info : FileDesc}
    (hinfo : info.compressed = false) : (lines.foldl findMtime info).compressed = c := by
  obtain ⟨hall, line, hline, hex⟩ := h.findHeader (by decide) hval (isTrimmed_flag c)
  have hget : ∀ info line, (findMtime info line).compressed =
      if ExtremeS3.findHeader line "x-amz-meta-compressed".toList = "true".toList then true
      else info.compressed := fun _ _ => rfl
  cases c with
  | true =>
    refine foldl_eq_of_set _ (fun line hline => ?_) ⟨line, hline, fun s => ?_⟩ info
    · rcases hall line hline with he | he
      · exact .inl fun s => by rw [hget, he]; rfl
      · exact .inr fun s => by rw [hget, he]; rfl
    · rw [hget, hex]; rfl
  | false =>
    refine foldl_eq_of_keep _ (fun line hline => .inl fun s => ?_) hinfo
    rcases hall line hline with he | he <;> rw [hget, he] <;> rfl

/-! ## The lines of an answer -/

/-- The line is of a header with the name, in any case. -/
def NamesHeader (key line : Str) : Prop :=
  ∃ name rest, line = name ++ ':' :: rest ∧ ':' ∉ name ∧
    trim (name.map Char.toLower) = key.map Char.toLower

/-- The lines are one for each of the headers, and lines with other names, in any order. -/
def AnswerLines (headers : HeaderMap) (lines : List Str) : Prop :=
  ∃ given others, lines.Perm (given ++ others) ∧
    List.Forall₂ (fun h line => GivesHeader h.1 h.2 line) headers given ∧
    ∀ line ∈ others, ∀ h ∈ headers, ¬ NamesHeader h.1 line

/-- `find_header` finds something only in a line of that name. -/
theorem namesHeader_of_findHeader {line name : Str} (h : findHeader line name ≠ [])
    {key : Str} (hkey : key.map Char.toLower = name) : NamesHeader key line := by
  rw [findHeader] at h
  dsimp only at h
  split at h
  · next pos hpos =>
    split at h
    · next hname =>
      obtain ⟨hlt, hcolon, hfirst⟩ := List.idxOf?_eq_some_iff.1 hpos
      rw [List.length_map] at hlt
      rw [List.getElem_map] at hcolon
      have hline : line = line.take pos ++ ':' :: line.drop (pos + 1) := by
        have hget : line.get ⟨pos, hlt⟩ = ':' := by
          by_contra hne
          exact toLower_ne_colon hne (by simpa using hcolon)
        rw [← hget, List.get_eq_getElem, ← List.drop_eq_getElem_cons hlt, List.take_append_drop]
      refine ⟨_, _, hline, fun hm => ?_, ?_⟩
      · obtain ⟨j, hj, hget⟩ := List.getElem_of_mem hm
        rw [List.length_take] at hj
        rw [List.getElem_take] at hget
        have hno := hfirst j (by omega)
        rw [List.getElem_map, hget] at hno
        exact absurd hno (by decide)
      · rw [List.map_take, hname, hkey]
    · exact absurd rfl h
  · exact absurd rfl h

/-- Such lines give the headers, if the values are words. -/
theorem AnswerLines.gives {headers : HeaderMap} {lines : List Str} (h : AnswerLines headers lines)
    (hread : ∀ name ∈ readHeaders, ∃ e ∈ headers, e.1.map Char.toLower = name)
    (hvalues : ∀ e ∈ headers, ∀ c ∈ e.2, isTrimmed c = false) : GivesHeaders headers lines := by
  obtain ⟨given, others, hperm, hgiven, hothers⟩ := h
  constructor
  case given =>
    intro key value hmem _
    obtain ⟨line, hline, hgives⟩ := exists_of_forall₂ hgiven hmem
    exact ⟨line, hperm.mem_iff.2 (List.mem_append_left _ hline), hgives⟩
  case only =>
    intro line hline name hname hne
    rcases List.mem_append.1 (hperm.mem_iff.1 hline) with hline | hline
    · obtain ⟨⟨key, value⟩, hmem, hgives⟩ := exists_of_forall₂ hgiven.flip hline
      have hfind := findHeader_of_gives hgives (hvalues _ hmem) name
      refine ⟨key, value, hmem, ?_, hgives⟩
      by_contra hkey
      rw [if_neg hkey] at hfind
      exact hne hfind
    · obtain ⟨e, hmem, hkey⟩ := hread name hname
      exact absurd (namesHeader_of_findHeader hne hkey) (hothers line hline e hmem)

/-- Which headers `find_mtime` reads depends on the names that it looks for. -/
theorem GivesHeaders.of_subset {headers headers' : HeaderMap} {lines : List Str}
    (h : GivesHeaders headers lines) (hsubset : headers ⊆ headers')
    (hread : ∀ e ∈ headers', e.1.map Char.toLower ∈ readHeaders → e ∈ headers) :
    GivesHeaders headers' lines where
  given key value hmem hkey := h.given key value (hread (key, value) hmem hkey) hkey
  only line hline name hname hne := by
    obtain ⟨key, value, hmem, hgives⟩ := h.only line hline name hname hne
    exact ⟨key, value, hsubset hmem, hgives⟩

/-! ## What is read -/

/-- What the lines that give the headers of an upload set. -/
theorem foldl_findMtime_of_gives {doCompress : Bool} {mime : Str} {mtime : Int64}
    {fileSz mode length : Nat} {lines : List Str}
    (h : GivesHeaders (storedHeaders doCompress mime mtime fileSz mode length) lines)
    (hsize : fileSz < 2 ^ 63) (hmode : mode < 2 ^ 32) (hlength : length < 2 ^ 63) :
    lines.foldl findMtime ⟨0, 0, 0, 0o664, false, false⟩ =
      ⟨mtime, fileSz, length, mode, doCompress, false⟩ := by
  have hnumber : ∀ {β : Type} (get : FileDesc → β) (f : Str → β) (i : Int) {name : Str},
      name ∈ readHeaders →
      (storedHeaders doCompress mime mtime fileSz mode length).values name = [intToString i] →
      (∀ info line, get (findMtime info line) =
        if findHeader line name ≠ [] then f (findHeader line name) else get info) →
      get (lines.foldl findMtime ⟨0, 0, 0, 0o664, false, false⟩) = f (intToString i) := by
    intro β get f i name hname hval hget
    exact h.foldl_findMtime get f hname hval (fun c hc => isTrimmed_intToString hc)
      (intToString_ne_nil _) hget _
  have hmtime := hnumber FileDesc.mtime (fun s => Int64.ofInt (atoll s)) mtime.toInt (by decide)
    (by cases doCompress <;> rfl) fun _ _ => rfl
  have hraw := hnumber FileDesc.rawSize (fun s => toUnsigned 64 (atoll s)) fileSz (by decide)
    (by cases doCompress <;> rfl) fun _ _ => rfl
  have hremote := hnumber FileDesc.remoteSize (fun s => toUnsigned 64 (atoll s)) length (by decide)
    (by cases doCompress <;> rfl) fun _ _ => rfl
  have hmd := hnumber FileDesc.mode (fun s => toUnsigned 32 (atoll s)) mode (by decide)
    (by cases doCompress <;> rfl) fun _ _ => rfl
  have hcompressed : (lines.foldl findMtime ⟨0, 0, 0, 0o664, false, false⟩).compressed =
      doCompress :=
    h.foldl_findMtime_compressed (by cases doCompress <;> rfl) rfl
  have hfound : (lines.foldl findMtime ⟨0, 0, 0, 0o664, false, false⟩).found = false :=
    foldl_eq_of_keep (f := findMtime) FileDesc.found (fun _ _ => .inl fun _ => rfl) rfl
  -- each of the numbers has 64 bits
  rw [atoll_intToString mtime.le_toInt mtime.toInt_lt, Int64.ofInt_toInt] at hmtime
  rw [atoll_intToString (by omega) (by omega), toUnsigned_natCast (by omega)] at hraw hremote hmd
  generalize lines.foldl findMtime ⟨0, 0, 0, 0o664, false, false⟩ = info at *
  rw [← hmtime, ← hraw, ← hremote, ← hmd, ← hcompressed, ← hfound]

/-- What a download learns of an object is what the upload was of. -/
theorem findMtimeAndSize_of_gives {doCompress : Bool} {mime : Str} {mtime : Int64}
    {fileSz mode length code : Nat} {lines : List Str}
    (h : GivesHeaders (storedHeaders doCompress mime mtime fileSz mode length) lines)
    (hcode : code ≠ 404) (hsize : fileSz < 2 ^ 63) (hmode : mode < 2 ^ 32)
    (hlength : length < 2 ^ 63) :
    findMtimeAndSize code lines =
      { mtime := mtime
        rawSize := if fileSz = 0 then length else fileSz
        remoteSize := length
        mode := mode
        compressed := doCompress
        found := true } := by
  rw [findMtimeAndSize, foldl_findMtime_of_gives h hsize hmode hlength]
  by_cases h0 : fileSz = 0 <;> simp [h0, hcode]

end ExtremeS3
