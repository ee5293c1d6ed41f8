import ExtremeS3.Connection.Headers
import ExtremeS3.Files
import ExtremeS3.Sync.Paths

/-!
# The requests of a transfer

A multipart upload is a sequence of requests: the first one creates it, each part is sent with its
number, and the last one lists the numbers with the etags and makes an object of the parts, one
after the other in the order of their numbers. A download asks for ranges of the object. Where an
upload is open its requests are answered (`Service.evals_uploadData`,
`Service.evals_completeMultipart`), and so is a request for a range of an object that is there
(`Service.evals_downloadData`).
-/

namespace ExtremeS3

/-- An object, with the headers that it was uploaded with. -/
structure Object where
  headers : HeaderMap
  data : Bytes
  deriving DecidableEq, Repr

/-- A part of an upload that is not complete. -/
structure StoredPart where
  etag : String
  data : Bytes
  deriving DecidableEq, Repr

/-- An upload that is not complete: its parts, by their numbers. -/
structure Multipart where
  remote : S3Path
  headers : HeaderMap
  parts : Nat → Option StoredPart

/-- What the service holds. -/
structure Service where
  objects : S3Path → Option Object
  uploads : String → Option Multipart

/-- The headers of an object in the answer to a request. -/
def Object.answered (object : Object) : HeaderMap :=
  ("Content-Length".toList, intToString object.data.length) :: object.headers

/-- A code and lines that answer a `HEAD` request. -/
def Service.AnswersHead (service : Service) (remote : S3Path) (code : Nat) (lines : List Str) :
    Prop :=
  match service.objects remote with
  | some object => code ≠ 404 ∧ GivesHeaders object.answered lines
  | none => code = 404 ∧
    ∀ line ∈ lines, findHeader line "x-amz-meta-last-modified".toList = []

/-- `initiate_multipart`, which is answered with an id. -/
def Service.initiateMultipart (service : Service) (remote : S3Path) (hmap : HeaderMap)
    (uploadId : String) : Service :=
  { service with
    uploads := fun id =>
      if id = uploadId then some ⟨remote, hmap, fun _ => none⟩ else service.uploads id }

/-- `upload_data` of a part, which is answered with an etag. -/
def Service.uploadData (service : Service) (remote : S3Path) (partNumber : Nat) (uploadId : String)
    (data : Bytes) (etag : String) : Prog TransferError Service := do
  let upload ← .ofOption .noUpload ((service.uploads uploadId).filter (·.remote = remote))
  let upload : Multipart :=
    { upload with
      parts := fun n => if n = partNumber then some ⟨etag, data⟩ else upload.parts n }
  pure { service with
    uploads := fun id => if id = uploadId then some upload else service.uploads id }

/-- The data of the parts with their numbers and etags, one after the other. -/
def Multipart.assemble (upload : Multipart) : Nat → List String → Option Bytes
  | _, [] => some []
  | n, etag :: etags =>
    match (upload.parts n).filter (·.etag = etag), upload.assemble (n + 1) etags with
    | some part, some rest => some (part.data ++ rest)
    | _, _ => none

/-- `complete_multipart`: the part with the etag at `f` has the number `f + 1`. -/
def Service.completeMultipart (service : Service) (remote : S3Path) (uploadId : String)
    (etags : List String) : Prog TransferError Service := do
  let upload ← .ofOption .noUpload ((service.uploads uploadId).filter (·.remote = remote))
  let data ← .ofOption .noUpload (upload.assemble 1 etags)
  pure { service with
    objects := fun path => if path = remote then some ⟨upload.headers, data⟩
      else service.objects path }

/-- The bytes that answer a request for the range `offset-(offset+size-1)`. The range of an empty
segment is not one, and the answer is the whole object. -/
def Object.range (object : Object) (offset size : Nat) : Bytes :=
  if size = 0 then object.data else (object.data.drop offset).take size

/-- `download_data`: what its buffer of the given size holds in the end. -/
def Service.downloadData (service : Service) (remote : S3Path) (offset size : Nat) :
    Prog TransferError Bytes := do
  let object ← .ofOption .notFound (service.objects remote)
  let answer := object.range offset size
  -- `simple_write` takes as much as there is room for
  .ensure (answer.length ≤ size) (.segmentSize offset)
  .ensure (answer.length = size) (.segmentSize offset)
  pure answer

/-- An upload whose listed etags are those of its parts is put together from the data of these
parts. -/
theorem Multipart.assemble_eq_some {upload : Multipart} (data : Nat → Bytes)
    {etags : List String} {n : Nat} (h : ∀ i etag, etags[i]? = some etag →
      upload.parts (n + i) = some ⟨etag, data (n + i)⟩) :
    upload.assemble n etags = some ((List.range' n etags.length).map data).flatten := by
  induction etags generalizing n with
  | nil => rfl
  | cons etag etags ih =>
    have hpart := h 0 etag rfl
    have hrest := ih (n := n + 1) fun i e he => by
      rw [show n + 1 + i = n + (i + 1) by omega]
      exact h (i + 1) e he
    rw [Nat.add_zero] at hpart
    rw [Multipart.assemble, hpart, hrest, Option.filter_some, if_pos (decide_eq_true rfl),
      List.length_cons, List.range'_succ, List.map_cons, List.flatten_cons]

/-- The service can store a part of an upload that is open. -/
theorem Service.evals_uploadData {service : Service} {uploadId : String} {upload : Multipart}
    (h : service.uploads uploadId = some upload) (n : Nat) (data : Bytes) (etag : String) :
    (service.uploadData upload.remote n uploadId data etag).Evals (.ok { service with
      uploads := fun id => if id = uploadId then
          some { upload with
            parts := fun k => if k = n then some ⟨etag, data⟩ else upload.parts k }
        else service.uploads id }) := by
  refine (Prog.evals_ofOption (a := upload) ?_ _).bind ?_
  · rw [h, Option.filter_some, if_pos (decide_eq_true rfl)]
  · exact Prog.evals_pure _

/-- The service can complete an open upload whose listed etags are those of its parts. -/
theorem Service.evals_completeMultipart {service : Service} {uploadId : String} {upload : Multipart}
    (h : service.uploads uploadId = some upload) {etags : List String} {data : Bytes}
    (hdata : upload.assemble 1 etags = some data) :
    (service.completeMultipart upload.remote uploadId etags).Evals (.ok { service with
      objects := fun path => if path = upload.remote then some ⟨upload.headers, data⟩
        else service.objects path }) := by
  refine (Prog.evals_ofOption (a := upload) ?_ _).bind ?_
  · rw [h, Option.filter_some, if_pos (decide_eq_true rfl)]
  · exact (Prog.evals_ofOption hdata _).bind (Prog.evals_pure _)

/-- What a download returns is as long as it should be, and stands at the offset. -/
theorem Service.downloadData_eq_ok {service : Service} {remote : S3Path} {offset size n : Nat}
    {data : Bytes} (h : service.downloadData remote offset size n = some (.ok data)) :
    ∃ object, service.objects remote = some object ∧ data.length = size ∧
      data <+: object.data.drop offset := by
  obtain ⟨object, hobject, h⟩ := Prog.bind_eq_ok h
  dsimp only at h
  obtain ⟨_, -, h⟩ := Prog.bind_eq_ok h
  obtain ⟨_, hlen, h⟩ := Prog.bind_eq_ok h
  rw [Prog.pure_apply] at h
  cases h
  have hsize := of_decide_eq_true (Prog.ensure_eq_ok hlen)
  refine ⟨object, ?_, hsize, ?_⟩
  · cases ho : service.objects remote with
    | none => rw [ho] at hobject; cases hobject
    | some o => rw [ho] at hobject; cases hobject; rfl
  · rw [Object.range] at hsize ⊢
    split
    · next h0 =>
      rw [if_pos h0, h0] at hsize
      rw [List.length_eq_zero_iff.1 hsize]
      exact List.nil_prefix
    · exact List.take_prefix _ _

/-- A segment of an object that there is. -/
theorem Service.evals_downloadData {service : Service} {remote : S3Path} {object : Object}
    (h : service.objects remote = some object) (offset size : Nat)
    (hsize : offset + size ≤ object.data.length) (hzero : size = 0 → object.data = []) :
    (service.downloadData remote offset size).Evals
      (.ok ((object.data.drop offset).take size)) := by
  have hrange : object.range offset size = (object.data.drop offset).take size := by
    rw [Object.range]
    split
    · next h0 => rw [hzero h0, List.drop_nil, List.take_nil]
    · rfl
  have hlen : ((object.data.drop offset).take size).length = size := by
    rw [List.length_take, List.length_drop]
    omega
  refine (Prog.evals_ofOption h _).bind ?_
  rw [hrange]
  refine (Prog.evals_ensure (decide_eq_true (by omega)) _).bind ?_
  refine (Prog.evals_ensure (decide_eq_true hlen) _).bind (Prog.evals_pure _)

end ExtremeS3
