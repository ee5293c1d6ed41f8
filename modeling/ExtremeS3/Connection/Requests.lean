import ExtremeS3.Connection.CheckForErrors
import ExtremeS3.Connection.ParsePath
import ExtremeS3.Connection.Service
import ExtremeS3.Connection.Transfer
import ExtremeS3.Uploader.PartOrder

/-!
# The requests, piece by piece

A request is an exchange with `curl`, which asks the adapters for the bytes that are sent, in any
sizes, and hands them the lines and the bytes of the answer, in any pieces. What a request comes to
depends on the code and the bytes of the answer only, not on the pieces: `downloadData_eq` says so of
`download_data`, and `uploadData_eq` of `upload_data`, whose checksum is that of the whole buffer once
all of it was asked for.

So `download_data` does what the model of the service has it do (`download_data_exact`), and
`upload_data` returns just where the service has stored what was sent, as far as the checksum
tells (`upload_data_exact`).
-/

namespace ExtremeS3

/-! ## An exchange -/

/-- What happens in `curl_easy_perform`: the sizes that the read function is asked for, the lines that
the header function is called with, the pieces of the body that the write function is called with, the
error if there is one, and what a write function that takes too little makes the error. `code` is the
code of the answer. -/
structure Exchange where
  asked : List Nat
  lines : List Str
  pieces : List Bytes
  curlError : Option Str
  writeError : Str
  code : Nat

/-- What a request comes to: it returns, it throws an `es3_exception` with its description, it calls
`abort`, or it dereferences a node that is not there or leaves a buffer. -/
inductive Requested (α : Type) where
  | returned (value : α)
  | threw (code : Code) (desc : Str)
  | aborted
  | undefined
  deriving DecidableEq, Repr

/-- A string of bytes. -/
def fromBytes (data : Bytes) : Str := data.map fun b => Char.ofNat b.toNat

/-- The bytes of a string. -/
def toBytes (str : Str) : Bytes := str.map fun c => UInt8.ofNat c.toNat

/-- `string_appender`. -/
def stringAppender (str : Str) (piece : Bytes) : Str := str ++ fromBytes piece

/-- The text of a transfer that `checked` throws. -/
def curlFailed (text : Str) : Requested α := .threw .errWarn ("curl error: ".toList ++ text)

/-- `checked` of the transfer, and `check_for_errors`, before the rest of a request. -/
def Exchange.finish (x : Exchange) (parse : Str → Option (List XmlNode)) (curlRes : Str)
    (rest : Requested α) : Requested α :=
  match x.curlError with
  | some text => curlFailed text
  | none =>
    match checkForErrors parse x.code curlRes with
    | .returned => rest
    | .threw code desc => .threw code desc
    | .undefined => .undefined

/-- `find_etag`. -/
def findEtag (etag line : Str) : Str :=
  let found := findHeader line "etag".toList
  if found ≠ [] then found else etag

/-- The etag that `find_etag` leaves. -/
def Exchange.etag (x : Exchange) : Str := x.lines.foldl findEtag []

/-! ## Requests with a text as answer -/

/-- `s3_connection::read_fully`. -/
def readFully (parse : Str → Option (List XmlNode)) (x : Exchange) : Requested Str :=
  let res := x.pieces.foldl stringAppender []
  x.finish parse res (.returned res)

/-- The text of a part of the document's root. -/
def partText (doc : List XmlNode) (root part : Str) : Option Str :=
  match firstChildNamed doc root with
  | none => none
  | some node =>
    match firstChildNamed node.children part with
    | none => none
    | some child => toText child.children.head?

/-- `s3_connection::initiate_multipart`. -/
def initiateMultipart (parse : Str → Option (List XmlNode)) (path : S3Path) (x : Exchange) :
    Requested Str :=
  match readFully parse x with
  | .returned list =>
    match parsedBody parse list with
    | none => .threw .errWarn ("Failed to initiate multipart to ".toList ++ path.print)
    | some doc =>
      match partText doc "InitiateMultipartUploadResult".toList "UploadId".toList with
      | none => .threw .errWarn "Incorrect document format - no upload ID".toList
      | some uploadId => .returned uploadId
  | r => r

/-- `s3_connection::find_region`; `errorDesc` is what the parser says of a document. -/
def findRegion (parse : Str → Option (List XmlNode)) (errorDesc : Str → Str) (x : Exchange) :
    Requested Str :=
  match readFully parse x with
  | .returned regData =>
    match parsedBody parse regData with
    | none => .threw .errWarn
        ("Can't find region, bad document received. ".toList ++ errorDesc regData)
    | some doc =>
      match firstChildNamed doc "LocationConstraint".toList with
      | none => .threw .errWarn "Incorrect document format - no location id".toList
      | some node =>
        match toText node.children.head? with
        | none => .returned "s3".toList -- the default location
        | some value => .returned ("s3-".toList ++ value)
  | r => r

/-! ## Requests that send a buffer -/

/-- The digit of `tobinhex`. -/
def hexDigit (n : Nat) : Char := "0123456789abcdef".toList.getD n '\x00'

/-- `tobinhex`. -/
def tobinhex (data : Bytes) : Str :=
  data.flatMap fun b => [hexDigit (b.toNat / 16), hexDigit (b.toNat % 16)]

/-- Whether `strcasecmp` finds no difference; a zero character ends a string. -/
def strcasecmpEq (a b : Str) : Bool :=
  (a.map Char.toLower).takeWhile (· ≠ '\x00') = (b.map Char.toLower).takeWhile (· ≠ '\x00')

/-- A text in quotes. -/
def quoted (text : Str) : Str := '"' :: text ++ ['"']

section

variable {Ctx : Type} (md5 : Md5 Ctx) (final : Ctx → Bytes)

/-- `s3_connection::upload_data`; `final` is `MD5_Final`. -/
def uploadData (parse : Str → Option (List XmlNode)) (data : Bytes) (x : Exchange) :
    Requested Str :=
  match (BufData.new md5 data).reads md5 x.asked with
  | none => .undefined
  | some (_, readData) =>
    x.finish parse (x.pieces.foldl stringAppender [])
      (if x.etag ≠ [] ∧ ¬ strcasecmpEq x.etag (quoted (tobinhex (final readData.md5Ctx))) then
        .aborted
      else .returned x.etag)

/-- `s3_connection::complete_multipart`: the pieces that are sent, and what it comes to. -/
def completeMultipart (parse : Str → Option (List XmlNode)) (etags : List String) (x : Exchange) :
    List Bytes × Requested Str :=
  match (BufData.new md5 (toBytes (completeBody etags))).reads md5 x.asked with
  | none => ([], .undefined)
  | some (sent, _) =>
    let readData := x.pieces.foldl stringAppender []
    (sent, x.finish parse readData (.returned readData))

/-- The checksum of some bytes. -/
def Md5.digest (data : Bytes) : Bytes := final (md5.feed [data])

/-- It makes no difference to the checksum in how many pieces it is fed the bytes. -/
def Md5.Splits : Prop := ∀ c a b, md5.update (md5.update c a) b = md5.update c (a ++ b)

end

/-! ## Requests that fill a buffer -/

/-- The calls of `simple_write` in a transfer, which ends at the first one that takes too little. -/
def WriteData.receive (s : WriteData) : List Bytes → Option (Bool × WriteData)
  | [] => some (true, s)
  | piece :: pieces => do
    let (taken, s) ← s.simpleWrite piece
    if taken = piece.length then s.receive pieces else some (false, s)

/-- `s3_connection::download_data`, with what the buffer holds in the end. -/
def downloadData (parse : Str → Option (List XmlNode)) (path : S3Path) (offset : Nat) (data : Bytes)
    (x : Exchange) : Requested Bytes :=
  match (WriteData.new data).receive x.pieces with
  | none => .undefined
  | some (false, _) => curlFailed x.writeError
  | some (true, wd) =>
    x.finish parse (fromBytes (wd.buf.take (min wd.written 1024)))
      (if wd.written ≠ data.length then
        .threw .errWarn ("Size of a segment at offset ".toList ++ intToString offset ++
          " of ".toList ++ path.print ++ " is incorrect.".toList)
      else .returned wd.buf)

/-! ## Answers in pieces -/

section

variable {parse : Str → Option (List XmlNode)} {x : Exchange}

/-- The answer in one string, whatever its pieces. -/
theorem foldl_stringAppender (str : Str) (pieces : List Bytes) :
    pieces.foldl stringAppender str = str ++ fromBytes pieces.flatten := by
  induction pieces generalizing str with
  | nil => simp [fromBytes]
  | cons piece pieces ih =>
    rw [List.foldl_cons, ih]
    simp [stringAppender, fromBytes]

/-- An answer with an error code is never passed over. -/
theorem checkForErrors_ne_returned {code : Nat} (h : ¬ code < 400) (curlRes : Str) :
    checkForErrors parse code curlRes ≠ .returned := by
  unfold checkForErrors
  rw [if_neg h]
  dsimp only
  split
  · nofun
  · split <;> nofun

/-- What a request returns was returned after a transfer without errors. -/
theorem Exchange.finish_eq_returned {curlRes : Str} {rest : Requested α} {a : α} :
    x.finish parse curlRes rest = .returned a ↔
      x.curlError = none ∧ x.code < 400 ∧ rest = .returned a := by
  unfold Exchange.finish
  cases hc : x.curlError with
  | some text => simp [curlFailed]
  | none =>
    by_cases hcode : x.code < 400
    · simp [checkForErrors_of_lt hcode, hcode]
    · have hne : checkForErrors parse x.code curlRes ≠ .returned :=
        checkForErrors_ne_returned hcode curlRes
      cases hr : checkForErrors parse x.code curlRes with
      | returned => exact absurd hr hne
      | threw | undefined => simp [hcode]

/-- A request is answered in full if nothing fails and the status is below 400, and its result is
what has come. -/
theorem readFully_eq_returned {res : Str} : readFully parse x = .returned res ↔
    x.curlError = none ∧ x.code < 400 ∧ res = fromBytes x.pieces.flatten := by
  unfold readFully
  rw [Exchange.finish_eq_returned, foldl_stringAppender, List.nil_append, Requested.returned.injEq,
    eq_comm (a := res)]

/-- The id of an upload is the text of its node, in an answer without an error. -/
theorem initiateMultipart_eq_returned {path : S3Path} {uploadId : Str} :
    initiateMultipart parse path x = .returned uploadId ↔
      x.curlError = none ∧ x.code < 400 ∧
        ∃ doc, parsedBody parse (fromBytes x.pieces.flatten) = some doc ∧
          partText doc "InitiateMultipartUploadResult".toList "UploadId".toList =
            some uploadId := by
  unfold initiateMultipart
  constructor
  · intro h
    cases hr : readFully parse x with
    | returned list =>
      obtain ⟨herror, hcode, rfl⟩ := readFully_eq_returned.1 hr
      rw [hr] at h
      dsimp only at h
      split at h
      · cases h
      · next doc hdoc =>
        split at h
        · cases h
        · next value hvalue =>
          cases h
          exact ⟨herror, hcode, doc, hdoc, hvalue⟩
    | threw | aborted | undefined => rw [hr] at h; cases h
  · rintro ⟨herror, hcode, doc, hdoc, hvalue⟩
    rw [readFully_eq_returned.2 ⟨herror, hcode, rfl⟩]
    simp only [hdoc, hvalue]

/-- The region of a bucket is the text of the root, or the default where it has none. -/
theorem findRegion_eq_returned {errorDesc : Str → Str} {region : Str} :
    findRegion parse errorDesc x = .returned region ↔
      x.curlError = none ∧ x.code < 400 ∧
        ∃ doc node, parsedBody parse (fromBytes x.pieces.flatten) = some doc ∧
          firstChildNamed doc "LocationConstraint".toList = some node ∧
          region = ((toText node.children.head?).map ("s3-".toList ++ ·)).getD "s3".toList := by
  unfold findRegion
  constructor
  · intro h
    cases hr : readFully parse x with
    | returned regData =>
      obtain ⟨herror, hcode, rfl⟩ := readFully_eq_returned.1 hr
      rw [hr] at h
      dsimp only at h
      split at h
      · cases h
      · next doc hdoc =>
        split at h
        · cases h
        · next node hnode =>
          refine ⟨herror, hcode, doc, node, hdoc, hnode, ?_⟩
          split at h
          · next htext => cases h; rw [htext]; rfl
          · next htext => cases h; rw [htext]; rfl
    | threw | aborted | undefined => rw [hr] at h; cases h
  · rintro ⟨herror, hcode, doc, node, hdoc, hnode, rfl⟩
    rw [readFully_eq_returned.2 ⟨herror, hcode, rfl⟩]
    simp only [hdoc, hnode]
    cases toText node.children.head? <;> rfl

/-! ## Filling a buffer -/

/-- A transfer into a buffer goes through just when the answer fits. -/
theorem WriteData.Received.receive {s : WriteData} {buf delivered : Bytes}
    (h : s.Received buf delivered) (hle : delivered.length ≤ buf.length)
    (hbuf : buf.length < 2 ^ 64) (pieces : List Bytes) :
    ∃ t, s.receive pieces =
        some (decide (delivered.length + pieces.flatten.length ≤ buf.length), t) ∧
      (delivered.length + pieces.flatten.length ≤ buf.length →
        t.Received buf (delivered ++ pieces.flatten)) := by
  induction pieces generalizing s delivered with
  | nil => exact ⟨s, by simp [WriteData.receive, hle], fun _ => by simpa using h⟩
  | cons piece pieces ih =>
    obtain ⟨t, hwrite, hreceived⟩ := h.simpleWrite hbuf piece
    have hlen : (piece :: pieces).flatten.length = piece.length + pieces.flatten.length := by
      simp
    rw [WriteData.receive, hwrite]
    simp only [Option.bind_eq_bind, Option.bind_some]
    split
    · next hall =>
      have hroom : (delivered ++ piece).length ≤ buf.length := by
        rw [List.length_append]
        omega
      obtain ⟨u, hreceive, hu⟩ := ih hreceived hroom
      rw [List.length_append, Nat.add_assoc, ← hlen] at hreceive hu
      refine ⟨u, hreceive, fun hfits => ?_⟩
      rw [List.flatten_cons, ← List.append_assoc]
      exact hu hfits
    · next hshort =>
      have hover : ¬ delivered.length + (piece :: pieces).flatten.length ≤ buf.length := by
        omega
      exact ⟨t, by rw [decide_eq_false hover], fun hfits => absurd hfits hover⟩

/-- What `download_data` comes to depends on the bytes of the answer only. -/
theorem downloadData_eq (path : S3Path) (offset : Nat) {data : Bytes} (hdata : data.length < 2 ^ 64) :
    downloadData parse path offset data x =
      if x.pieces.flatten.length ≤ data.length then
        x.finish parse (fromBytes (x.pieces.flatten.take 1024))
          (if x.pieces.flatten.length = data.length then .returned x.pieces.flatten
          else .threw .errWarn ("Size of a segment at offset ".toList ++ intToString offset ++
            " of ".toList ++ path.print ++ " is incorrect.".toList))
      else curlFailed x.writeError := by
  obtain ⟨wd, hreceive, hwd⟩ := (WriteData.received_new data).receive (Nat.zero_le _) hdata x.pieces
  simp only [List.length_nil, Nat.zero_add, List.nil_append] at hreceive hwd
  rw [downloadData, hreceive]
  by_cases hfits : x.pieces.flatten.length ≤ data.length
  · have hwd := hwd hfits
    have hwritten : wd.written = x.pieces.flatten.length := hwd.written.trans (Nat.min_eq_right hfits)
    have hbuf : wd.buf = x.pieces.flatten ++ data.drop x.pieces.flatten.length := by
      rw [hwd.stored, List.take_of_length_le hfits]
    have hfront : wd.buf.take (min wd.written 1024) = x.pieces.flatten.take 1024 := by
      rw [hbuf, hwritten, Nat.min_comm, ← List.take_take, List.take_left]
    rw [decide_eq_true hfits, if_pos hfits]
    dsimp only
    rw [hfront, hwritten]
    congr 1
    by_cases hfull : x.pieces.flatten.length = data.length
    · rw [if_neg (not_not.2 hfull), if_pos hfull, hbuf, hfull, List.drop_length, List.append_nil]
    · rw [if_pos hfull, if_neg hfull]
  · rw [decide_eq_false hfits, if_neg hfits]

/-- What `download_data` of the model of the service comes to. -/
def Service.segment (service : Service) (remote : S3Path) (offset size : Nat) :
    Except TransferError Bytes :=
  match service.objects remote with
  | none => .error .notFound
  | some object =>
    if (object.range offset size).length = size then .ok (object.range offset size)
    else .error (.segmentSize offset)

/-- The service can answer the request for a segment. -/
theorem Service.evals_segment (service : Service) (remote : S3Path) (offset size : Nat) :
    (service.downloadData remote offset size).Evals (service.segment remote offset size) := by
  unfold Service.downloadData Service.segment
  cases ho : service.objects remote with
  | none => exact Prog.Evals.bind_error (Prog.evals_throw _)
  | some object =>
    refine (Prog.evals_pure object).bind ?_
    dsimp only
    by_cases hlen : (object.range offset size).length = size
    · rw [if_pos hlen]
      refine (Prog.evals_ensure (decide_eq_true hlen.le) _).bind ?_
      exact (Prog.evals_ensure (decide_eq_true hlen) _).bind (Prog.evals_pure _)
    · rw [if_neg hlen]
      by_cases hle : (object.range offset size).length ≤ size
      · refine (Prog.evals_ensure (decide_eq_true hle) _).bind ?_
        exact Prog.Evals.bind_error (Prog.evals_ensure_not (mt of_decide_eq_true hlen) _)
      · exact Prog.Evals.bind_error (Prog.evals_ensure_not (mt of_decide_eq_true hle) _)

/-- The exchange is one with a service that answers a request for a range. -/
def Service.AnswersGet (service : Service) (remote : S3Path) (offset size : Nat) (x : Exchange) :
    Prop :=
  x.curlError = none ∧
    match service.objects remote with
    | some object => x.code < 400 ∧ x.pieces.flatten = object.range offset size
    | none => x.code = 404

/-- A request comes to what the model of the service has it come to. -/
inductive Requested.Refines : Requested Bytes → Except TransferError Bytes → Prop
  | returned {data} : Refines (.returned data) (.ok data)
  | segmentSize {desc offset} : Refines (.threw .errWarn desc) (.error (.segmentSize offset))
  | notFound {r} : (∀ data, r ≠ .returned data) → Refines r (.error .notFound)

/-- A buffer that is filled with the answer to a request holds the segment of the object. -/
theorem downloadData_refines {service : Service} {remote : S3Path} {offset : Nat} {data : Bytes}
    (hdata : data.length < 2 ^ 64) (hx : service.AnswersGet remote offset data.length x) :
    (downloadData parse remote offset data x).Refines
      (service.segment remote offset data.length) := by
  obtain ⟨herror, hx⟩ := hx
  rw [downloadData_eq remote offset hdata, Service.segment]
  cases ho : service.objects remote with
  | none =>
    rw [ho] at hx
    refine .notFound fun b => ?_
    split
    · intro h
      have hcode := (Exchange.finish_eq_returned.1 h).2.1
      rw [show x.code = 404 from hx] at hcode
      exact absurd hcode (by decide)
    · nofun
  | some object =>
    rw [ho] at hx
    obtain ⟨hcode, hanswer⟩ := hx
    have hfinish : ∀ {rest : Requested Bytes} {res : Str}, x.finish parse res rest = rest := by
      intro rest res
      simp only [Exchange.finish, herror, checkForErrors_of_lt hcode]
    rw [hfinish, hanswer]
    dsimp only
    by_cases hlen : (object.range offset data.length).length = data.length
    · rw [if_pos hlen.le, if_pos hlen, if_pos hlen]
      exact .returned
    · rw [if_neg hlen, if_neg hlen]
      split <;> exact .segmentSize

/-- However the answer is cut into pieces, `download_data` returns just where there is no error of
the transfer or of the service and the answer is as long as the buffer, and then the buffer holds it;
and whatever a service holds, `download_data` comes to what its model does. -/
theorem download_data_exact (parse : Str → Option (List XmlNode)) (remote : S3Path) (offset : Nat)
    {data : Bytes} (hdata : data.length < 2 ^ 64) (x : Exchange) :
    (∀ b, downloadData parse remote offset data x = .returned b ↔
      x.curlError = none ∧ x.code < 400 ∧ x.pieces.flatten = b ∧ b.length = data.length) ∧
    ∀ service : Service, service.AnswersGet remote offset data.length x →
      ∀ r, (service.downloadData remote offset data.length).Evals r →
        (downloadData parse remote offset data x).Refines r := by
  refine ⟨fun b => ?_, fun service hx r hr => ?_⟩
  · rw [downloadData_eq remote offset hdata]
    constructor
    · intro h
      split at h
      · obtain ⟨herror, hcode, hrest⟩ := Exchange.finish_eq_returned.1 h
        split at hrest
        · next hlen =>
          cases hrest
          exact ⟨herror, hcode, rfl, hlen⟩
        · cases hrest
      · cases h
    · rintro ⟨herror, hcode, rfl, hlen⟩
      rw [if_pos hlen.le, if_pos hlen]
      exact Exchange.finish_eq_returned.2 ⟨herror, hcode, rfl⟩
  · rw [hr.unique (service.evals_segment remote offset data.length)]
    exact downloadData_refines hdata hx

end

/-- An answer of three bytes in two pieces. -/
def threeBytes : Exchange := ⟨[], [], [[1, 2], [3]], none, [], 206⟩

/-- `download_data_exact` for a buffer that the answer fills. -/
theorem download_data_exact_three :
    downloadData (fun _ => none) someDirectory 0 [0, 0, 0] threeBytes = .returned [1, 2, 3] :=
  have hdata : ([0, 0, 0] : Bytes).length < 2 ^ 64 := by decide
  ((download_data_exact (fun _ => none) someDirectory 0 hdata threeBytes).1 [1, 2, 3]).2
    ⟨rfl, by decide, rfl, rfl⟩

/-! ## Sending a buffer -/

section

variable {parse : Str → Option (List XmlNode)} {x : Exchange} {Ctx : Type} {md5 : Md5 Ctx}
  {final : Ctx → Bytes}

/-- What the context was fed, in one piece. -/
theorem Md5.Splits.feed_eq (h : md5.Splits) (chunks : List Bytes) :
    md5.feed chunks = md5.feed [chunks.flatten] := by
  have hupdate : ∀ (c : Ctx) (a : Bytes) (more : List Bytes),
      (more.filter (· ≠ [])).foldl md5.update (md5.update c a) =
        md5.update c (a ++ more.flatten) := by
    intro c a more
    induction more generalizing a with
    | nil => simp
    | cons b more ih =>
      by_cases hb : b = []
      · subst hb
        simpa using ih a
      · rw [List.filter_cons_of_pos (by simpa using hb), List.foldl_cons, h, ih]
        simp
  unfold Md5.feed
  induction chunks with
  | nil => rfl
  | cons a chunks ih =>
    by_cases ha : a = []
    · subst ha
      simpa using ih
    · have hone : [(a :: chunks).flatten].filter (· ≠ []) = [(a :: chunks).flatten] := by simp [ha]
      rw [List.filter_cons_of_pos (by simpa using ha), List.foldl_cons, hupdate, hone]
      rfl

/-- What `upload_data` comes to once all of the buffer was asked for. -/
theorem uploadData_eq (hmd5 : md5.Splits) {data : Bytes} (hdata : data.length < 2 ^ 64)
    (hasked : data.length ≤ x.asked.sum) :
    uploadData md5 final parse data x =
      x.finish parse (fromBytes x.pieces.flatten)
        (if x.etag ≠ [] ∧ ¬ strcasecmpEq x.etag (quoted (tobinhex (md5.digest final data))) then
          .aborted
        else .returned x.etag) := by
  have hnew : (BufData.new md5 data).Sent md5 data [] := BufData.sent_new data
  obtain ⟨chunks, readData, hreads, hsent, hwritten, -⟩ := hnew.reads hdata x.asked
  rw [List.nil_append] at hsent
  have hall : chunks.flatten = data := by
    rw [hsent.sent, List.take_of_length_le]
    simp only [BufData.new, Nat.zero_add] at hwritten
    omega
  have hctx : readData.md5Ctx = md5.feed [data] := by
    rw [hsent.md5Ctx, hmd5.feed_eq, hall]
  rw [uploadData, hreads]
  dsimp only
  rw [hctx, foldl_stringAppender, List.nil_append]
  rfl

/-- `complete_multipart` sends all of its list once as much was asked for. -/
theorem completeMultipart_sent {etags : List String}
    (hdata : (toBytes (completeBody etags)).length < 2 ^ 64)
    (hasked : (toBytes (completeBody etags)).length ≤ x.asked.sum) :
    (completeMultipart md5 parse etags x).1.flatten = toBytes (completeBody etags) ∧
      (completeMultipart md5 parse etags x).2 = readFully parse x := by
  have hnew : BufData.Sent md5 (toBytes (completeBody etags))
      (BufData.new md5 (toBytes (completeBody etags))) [] := BufData.sent_new _
  obtain ⟨chunks, readData, hreads, hsent, hwritten, -⟩ := hnew.reads hdata x.asked
  rw [List.nil_append] at hsent
  unfold completeMultipart readFully
  rw [hreads]
  refine ⟨?_, rfl⟩
  rw [hsent.sent, List.take_of_length_le]
  simp only [BufData.new, Nat.zero_add] at hwritten
  omega

/-! ## Checksums as text -/

/-- A hexadecimal digit is in lower case, and not the zero character. -/
theorem hexDigit_lt {n : Nat} (h : n < 16) :
    (hexDigit n).toLower = hexDigit n ∧ hexDigit n ≠ '\x00' := by
  have hall : ∀ m : Fin 16, (hexDigit m).toLower = hexDigit m ∧ hexDigit m ≠ '\x00' := by decide
  exact hall ⟨n, h⟩

/-- Different numbers have different hexadecimal digits. -/
theorem hexDigit_injective {n m : Nat} (hn : n < 16) (hm : m < 16) (h : hexDigit n = hexDigit m) :
    n = m := by
  have hall : ∀ a b : Fin 16, hexDigit a = hexDigit b → a = b := by decide
  exact congrArg Fin.val (hall ⟨n, hn⟩ ⟨m, hm⟩ h)

/-- The digits of a byte are those of its two halves. -/
theorem tobinhex_cons (b : UInt8) (data : Bytes) :
    tobinhex (b :: data) = hexDigit (b.toNat / 16) :: hexDigit (b.toNat % 16) :: tobinhex data :=
  rfl

/-- Different bytes have different texts. -/
theorem tobinhex_injective {a b : Bytes} (h : tobinhex a = tobinhex b) : a = b := by
  induction a generalizing b with
  | nil =>
    cases b with
    | nil => rfl
    | cons d b => cases h
  | cons c a ih =>
    cases b with
    | nil => cases h
    | cons d b =>
      simp only [tobinhex_cons, List.cons.injEq] at h
      obtain ⟨hhigh, hlow, hrest⟩ := h
      have hc := c.toNat_lt
      have hd := d.toNat_lt
      have hdiv := hexDigit_injective (by omega) (by omega) hhigh
      have hmod := hexDigit_injective (by omega) (by omega) hlow
      have hcd : c = d := UInt8.toNat_inj.1 (by omega)
      rw [hcd, ih hrest]

/-- What bytes are written as has hexadecimal digits only. -/
theorem mem_tobinhex {data : Bytes} {c : Char} (h : c ∈ tobinhex data) :
    c.toLower = c ∧ c ≠ '\x00' := by
  obtain ⟨b, -, hc⟩ := List.mem_flatMap.1 h
  have hb := b.toNat_lt
  simp only [List.mem_cons, List.not_mem_nil, or_false] at hc
  rcases hc with rfl | rfl
  · exact hexDigit_lt (by omega)
  · exact hexDigit_lt (by omega)

/-- A quoted etag is in lower case, and has no zero character. -/
theorem mem_quoted_tobinhex {data : Bytes} {c : Char} (h : c ∈ quoted (tobinhex data)) :
    c.toLower = c ∧ c ≠ '\x00' := by
  simp only [quoted, List.cons_append, List.mem_cons, List.mem_append, List.not_mem_nil,
    or_false] at h
  rcases h with rfl | h | rfl
  · decide
  · exact mem_tobinhex h
  · decide

/-- An etag that is a checksum's text in any case is taken for that checksum only. -/
theorem strcasecmpEq_quoted_iff {etag : Str} {stored data : Bytes}
    (h : etag.map Char.toLower = quoted (tobinhex stored)) :
    strcasecmpEq etag (quoted (tobinhex data)) = true ↔ stored = data := by
  have hlower : ∀ b : Bytes, (quoted (tobinhex b)).map Char.toLower = quoted (tobinhex b) :=
    fun b => (List.map_congr_left fun c hc => (mem_quoted_tobinhex hc).1).trans (List.map_id _)
  have hwhole : ∀ b : Bytes, (quoted (tobinhex b)).takeWhile (· ≠ '\x00') = quoted (tobinhex b) :=
    fun b => List.takeWhile_eq_self_iff.2 fun c hc => by simpa using (mem_quoted_tobinhex hc).2
  rw [strcasecmpEq, h, hlower, hwhole, hwhole, decide_eq_true_eq]
  constructor
  · intro he
    simp only [quoted, List.cons_append, List.cons.injEq, true_and] at he
    exact tobinhex_injective (List.append_inj_left' he rfl)
  · exact fun he => congrArg (fun b => quoted (tobinhex b)) he

/-- In whatever sizes the buffer is asked for, `upload_data` returns just where there is no error of
the transfer or of the service and the etag, if there is one, is the checksum of the buffer; and
where the etag is the checksum of what the service has stored, it returns just if that is the
checksum of what was to be sent, and aborts otherwise. -/
theorem upload_data_exact (hmd5 : md5.Splits) (final : Ctx → Bytes)
    (parse : Str → Option (List XmlNode)) {data : Bytes}
    (hdata : data.length < 2 ^ 64) (x : Exchange) (hasked : data.length ≤ x.asked.sum) :
    (∀ etag, uploadData md5 final parse data x = .returned etag ↔
      x.curlError = none ∧ x.code < 400 ∧ x.etag = etag ∧
        (etag = [] ∨ strcasecmpEq etag (quoted (tobinhex (md5.digest final data))))) ∧
    ∀ stored, x.curlError = none → x.code < 400 →
      x.etag.map Char.toLower = quoted (tobinhex (md5.digest final stored)) →
        uploadData md5 final parse data x =
          if md5.digest final stored = md5.digest final data then .returned x.etag
          else .aborted := by
  rw [uploadData_eq hmd5 hdata hasked]
  refine ⟨fun etag => ?_, fun stored herror hcode hetag => ?_⟩
  · rw [Exchange.finish_eq_returned]
    refine and_congr_right fun _ => and_congr_right fun _ => ?_
    constructor
    · intro h
      split at h
      · cases h
      · next hok =>
        cases h
        exact ⟨rfl, or_iff_not_imp_left.2 fun hne => not_not.1 fun hno => hok ⟨hne, hno⟩⟩
    · rintro ⟨rfl, hok⟩
      rw [if_neg]
      rintro ⟨hne, hno⟩
      exact hno (hok.resolve_left hne)
  · have hne : x.etag ≠ [] := by
      intro hnil
      rw [hnil] at hetag
      cases hetag
    have hsame : strcasecmpEq x.etag (quoted (tobinhex (md5.digest final data))) = true ↔
        md5.digest final stored = md5.digest final data := strcasecmpEq_quoted_iff hetag
    simp only [Exchange.finish, herror, checkForErrors_of_lt hcode]
    by_cases heq : md5.digest final stored = md5.digest final data
    · rw [if_pos heq, if_neg fun h => h.2 (hsame.2 heq)]
    · rw [if_neg heq, if_pos ⟨hne, fun h => heq (hsame.1 h)⟩]

end

/-- A checksum that keeps all bytes. -/
def wholeMd5 : Md5 Bytes := ⟨[], (· ++ ·)⟩

/-- An exchange in which a byte is sent, and the answer has its checksum. -/
def oneByteSent : Exchange :=
  ⟨[4, 4], ["ETag: \"0A\"".toList], [], none, [], 200⟩

/-- `upload_data_exact` for that exchange. -/
theorem upload_data_exact_one :
    uploadData wholeMd5 id (fun _ => none) [10] oneByteSent = .returned "\"0A\"".toList :=
  have hmd5 : wholeMd5.Splits := fun c a b => List.append_assoc c a b
  have hdata : ([10] : Bytes).length < 2 ^ 64 := by decide
  ((upload_data_exact hmd5 id (fun _ => none) hdata oneByteSent (by decide)).1 _).2
    ⟨rfl, by decide, by decide, .inr (by decide)⟩

end ExtremeS3
