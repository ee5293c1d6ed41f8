import ExtremeS3.Uploader.Upload
import Mathlib.Algebra.Order.BigOperators.Group.List

/-!
# An upload completes

An upload passes through phases: the tasks of the blocks compress the file (`Compressing`), and the
tasks of the parts upload what it is stored as (`Uploading.Parts`). In the second phase every part
belongs to just one task that is left, or is done. Each task keeps its phase or begins the next one,
so in whatever order the tasks run, in the end the object has the headers of the file and holds what
the file is stored as (`upload_completes`).
-/

namespace ExtremeS3

/-- The parts that a task uploads, or schedules the upload of. -/
def UploadTask.parts : UploadTask → List Nat
  | .filePump _ cur num => List.range' cur num
  | .partUpload num _ => [num]
  | .fileUploader | .fileCompressor | .compressTask _ => []

/-- The number of tasks that may come of a task, with itself; there are so many blocks. -/
def UploadTask.weight (blocks : Nat) : UploadTask → Nat
  | .partUpload .. => 1
  | .filePump _ _ num => num + 1
  | .compressTask _ => 2 * maxPartNum + 1
  | .fileCompressor => blocks * (2 * maxPartNum + 1) + 1
  | .fileUploader => blocks * (2 * maxPartNum + 1) + 2 * maxPartNum + 2

/-- The number of tasks that may come of the tasks that are left. -/
def uploadWeight (blocks : Nat) (ts : List UploadTask) : Nat :=
  (ts.map (UploadTask.weight blocks)).sum

@[simp] theorem uploadWeight_cons (blocks : Nat) (t : UploadTask) (ts : List UploadTask) :
    uploadWeight blocks (t :: ts) = t.weight blocks + uploadWeight blocks ts := by
  simp [uploadWeight]

@[simp] theorem uploadWeight_nil (blocks : Nat) : uploadWeight blocks [] = 0 := rfl

section

variable (J : UploadJob) (f : FileData)

/-- The upload with its parts. -/
def Uploading.upload (s : Uploading) (parts : Nat → Option StoredPart) : Prop :=
  s.service.uploads s.uploadId = some ⟨J.remote, J.headers f, parts⟩

/-- The tasks of the blocks in `left` are left. -/
structure Uploading.Compressing (s : Uploading) (blocks left : List Block) : Prop where
  file : s.fs J.path = some (.file f)
  upload : ∃ parts, s.upload J f parts
  content : s.content = ⟨0, 0, []⟩
  compresses : J.compresses f
  evals : (fileCompressor (J.lim.getCapability .cpuBound) f.data.length).Evals (.ok blocks)
  mem : ∀ b ∈ left, blocks[b.blockNum]? = some b
  nodup : (left.map Block.blockNum).Nodup
  pending : s.compressor.numPending = left.length
  tasks : ∀ b ∈ left, s.compressor.tasks[b.blockNum]? = some .compressing
  files : s.compressor.files.length = blocks.length
  sizes : s.compressor.sizes.length = blocks.length
  done : ∀ (k : Nat) b, blocks[k]? = some b → b ∉ left → ∃ name m,
    s.compressor.files[k]? = some name ∧ s.compressor.sizes[k]? = some m.length ∧
    s.fs.contents name = some m ∧ J.CompressesTo f.data b m

/-- A task of the second phase, for the pieces in some files. -/
def UploadTask.Part (segmentSize : Nat) (files : ScatteredFiles) (stored : Bytes) :
    UploadTask → Prop
  | .filePump files' _ num => files' = files ∧ 0 < num
  | .partUpload num data => data = slice segmentSize num stored
  | .fileUploader | .fileCompressor | .compressTask _ => False

/-- The tasks `ts` are left to upload parts; the parts in `done` are uploaded. -/
structure Uploading.Parts (s : Uploading) (files : ScatteredFiles) (pieces : List Bytes)
    (done : List Nat) (ts : List UploadTask) : Prop where
  stored : J.StoredAs f pieces.flatten
  hold : files.Hold s.fs pieces
  ne_nil : pieces ≠ []
  upload : ∃ parts, s.upload J f parts ∧ ∀ k ∈ done,
    parts (k + 1) = some ⟨J.etag (slice J.segmentSize k pieces.flatten),
      slice J.segmentSize k pieces.flatten⟩
  numParts : s.content.numParts = partCount J.segmentSize pieces.flatten.length
  numCompleted : s.content.numCompleted = done.length
  length : s.content.etags.length = partCount J.segmentSize pieces.flatten.length
  etags : ∀ k ∈ done,
    s.content.etags[k]? = some (J.etag (slice J.segmentSize k pieces.flatten))
  cover : (ts.flatMap UploadTask.parts ++ done).Perm
    (List.range (partCount J.segmentSize pieces.flatten.length))
  tasks : ∀ t ∈ ts, t.Part J.segmentSize files pieces.flatten

/-- The object is there. -/
def Uploading.Stored (s : Uploading) : Prop :=
  ∃ stored, J.StoredAs f stored ∧ s.service.objects J.remote = some ⟨J.headers f, stored⟩

/-- Where an upload stands. -/
inductive Uploading.Phase : Uploading → List UploadTask → Prop
  | start {s} : s.fs J.path = some (.file f) →
      (∀ code lines, s.service.AnswersHead J.remote code lines →
        UploadJob.unchanged f (findMtimeAndSize code lines) = false) →
      Phase s [.fileUploader]
  | compressor {s parts} : s.fs J.path = some (.file f) → s.upload J f parts →
      s.content = ⟨0, 0, []⟩ → J.compresses f → Phase s [.fileCompressor]
  | compressing {s blocks left} : s.Compressing J f blocks left → left ≠ [] →
      s.compressor.finishes = [] → Phase s (left.map .compressTask)
  | parts {s ts} (files pieces done) : s.Parts J f files pieces done ts → ts ≠ [] → Phase s ts
  | stored {s} : s.Stored J f → Phase s []

end

variable {J : UploadJob} {f : FileData}

/-! ## The parts -/

/-- A task of a part has parts to send. -/
theorem UploadTask.Part.parts_ne_nil {segmentSize : Nat} {files : ScatteredFiles} {stored : Bytes}
    {t : UploadTask} (h : t.Part segmentSize files stored) : t.parts ≠ [] := by
  cases t with
  | filePump files' cur num =>
    have := h.2
    simp only [UploadTask.parts, ne_eq, List.range'_eq_nil_iff]
    omega
  | partUpload num data => exact List.cons_ne_nil _ _
  | fileUploader | fileCompressor | compressTask => exact h.elim

/-- The parts of the pumps are the segments they were cut from. -/
theorem flatMap_parts_pumps (files : ScatteredFiles) (pumps : List (Nat × Nat)) :
    (pumps.map fun p => UploadTask.filePump files p.1 p.2).flatMap UploadTask.parts =
      pumpSegments pumps := by
  rw [List.flatMap_map]
  rfl

/-- The pumps weigh at most twice as much as their segments. -/
theorem uploadWeight_pumps_le (blocks : Nat) (files : ScatteredFiles) {pumps : List (Nat × Nat)}
    (h : ∀ p ∈ pumps, 0 < p.2) :
    uploadWeight blocks (pumps.map fun p => .filePump files p.1 p.2) ≤
      2 * (pumpSegments pumps).length := by
  induction pumps with
  | nil => exact Nat.zero_le _
  | cons p pumps ih =>
    have := ih fun q hq => h q (List.mem_cons_of_mem _ hq)
    have := h p List.mem_cons_self
    rw [pumpSegments] at *
    rw [List.map_cons, uploadWeight_cons, UploadTask.weight, List.flatMap_cons, List.length_append,
      List.length_range']
    omega

/-- The phase of the parts begins with the pumps. -/
theorem startTasks_spec (hJ : J.Ok f) {s : Uploading} {files : ScatteredFiles}
    {pieces : List Bytes} {parts : Nat → Option StoredPart} (hupload : s.upload J f parts)
    (hcontent : s.content = ⟨0, 0, []⟩) (hstored : J.StoredAs f pieces.flatten)
    (hold : files.Hold s.fs pieces) (hne : pieces ≠ []) (blocks : Nat) :
    ∃ s' ts, (J.startTasks s files).Evals (.ok (s', ts)) ∧ s'.Phase J f ts ∧
      uploadWeight blocks ts ≤ 2 * maxPartNum := by
  have htotal : files.sizes.sum = pieces.flatten.length := by
    rw [hold.sizes, List.length_flatten]
  have hfits := hJ.fits _ hstored
  obtain ⟨pumps, hstart, hcover, hpumps⟩ := startUpload_spec files hJ.maxInFlight
    hJ.segmentSize_pos (by rw [htotal]; exact hfits)
  rw [htotal] at hstart hcover
  have hmax := partCount_le (by decide) hJ.segmentSize_pos hfits
  have hlen := congrArg List.length hcover
  rw [List.length_range] at hlen
  have hpos := partCount_pos J.segmentSize pieces.flatten.length
  have hpumps' : pumps ≠ [] := by
    rintro rfl
    simp only [pumpSegments, List.flatMap_nil, List.length_nil] at hlen
    omega
  have hweight := uploadWeight_pumps_le blocks files fun p hp => (hpumps p hp).1
  refine ⟨_, _, hstart.bind (Prog.evals_pure _), .parts files pieces [] ?_ (by simpa using hpumps'),
    by omega⟩
  exact {
    stored := hstored
    hold := hold
    ne_nil := hne
    upload := ⟨parts, hupload, by simp⟩
    numParts := rfl
    numCompleted := by simp [hcontent]
    length := by simp [hcontent]
    etags := by simp
    cover := by rw [flatMap_parts_pumps, hcover, List.append_nil]
    tasks := fun t ht => by
      obtain ⟨p, hp, rfl⟩ := List.mem_map.1 ht
      exact ⟨rfl, (hpumps p hp).1⟩ }

/-- A pump leaves the uploads of its parts. -/
theorem Uploading.Parts.filePump (hJ : J.Ok f) {s : Uploading} {files files' : ScatteredFiles}
    {pieces : List Bytes} {done : List Nat} {before after : List UploadTask} {cur num : Nat}
    (h : s.Parts J f files pieces done (before ++ .filePump files' cur num :: after)) :
    ∃ new, (J.runFilePump s files' cur num).Evals (.ok (s, new)) ∧ new ≠ [] ∧
      s.Parts J f files pieces done (before ++ after ++ new) ∧ ∀ blocks,
      uploadWeight blocks new < UploadTask.weight blocks (.filePump files' cur num) := by
  obtain ⟨rfl, hnum⟩ := h.tasks (.filePump files' cur num) (by simp)
  have hmem : ∀ k ∈ List.range' cur num,
      k < partCount J.segmentSize pieces.flatten.length := fun k hk => by
    rw [← List.mem_range, ← h.cover.mem_iff]
    simp only [List.flatMap_append, List.flatMap_cons, List.mem_append]
    exact .inl (.inr (.inl hk))
  have hlt : ∀ k, cur ≤ k → k < cur + num → k = 0 ∨
      k * J.segmentSize < pieces.flatten.length := fun k h₁ h₂ =>
    (lt_partCount_iff hJ.segmentSize_pos).1 (hmem k (List.mem_range'_1.2 ⟨h₁, h₂⟩))
  have hpump := filePump_spec hJ.reads h.hold h.ne_nil cur num (hlt cur (by omega) (by omega))
    fun k h₁ h₂ => (hlt k (by omega) h₂).resolve_left (by omega)
  set new := (List.range' cur num).map fun k =>
    UploadTask.partUpload k (slice J.segmentSize k pieces.flatten) with hnew
  have hparts : new.flatMap UploadTask.parts = List.range' cur num := by
    rw [hnew, List.flatMap_map]
    exact List.flatMap_singleton' _
  refine ⟨new, ?_, ?_, ?_, fun blocks => ?_⟩
  · refine hpump.bind ?_
    rw [List.map_map]
    exact Prog.evals_pure _
  · simp only [hnew, ne_eq, List.map_eq_nil_iff, List.range'_eq_nil_iff]
    omega
  · refine { h with cover := ?_, tasks := fun t ht => ?_ }
    · refine List.Perm.trans (List.Perm.append_right _ ?_) h.cover
      simp only [List.flatMap_append, List.flatMap_cons, hparts, UploadTask.parts,
        List.append_assoc]
      exact List.Perm.append_left _ List.perm_append_comm
    · rcases List.mem_append.1 ht with ht | ht
      · exact h.tasks t (mem_of_mem_without ht)
      · obtain ⟨k, -, rfl⟩ := List.mem_map.1 ht
        exact rfl
  · have : uploadWeight blocks new = num := by
      simp [uploadWeight, hnew, Function.comp_def, UploadTask.weight]
    rw [this, UploadTask.weight]
    omega

/-- What is left of the parts when one more is uploaded. -/
theorem Uploading.Parts.cover_upload {s : Uploading} {files : ScatteredFiles}
    {pieces : List Bytes} {done : List Nat} {before after : List UploadTask} {num : Nat}
    {data : Bytes} (h : s.Parts J f files pieces done (before ++ .partUpload num data :: after)) :
    ((before ++ after).flatMap UploadTask.parts ++ num :: done).Perm
      (List.range (partCount J.segmentSize pieces.flatten.length)) := by
  refine List.Perm.trans ?_ h.cover
  simp only [List.flatMap_append, List.flatMap_cons, UploadTask.parts, List.append_assoc]
  exact List.Perm.append_left _ List.perm_middle

/-- A part that is left is not done. -/
theorem Uploading.Parts.notMem_done {s : Uploading} {files : ScatteredFiles}
    {pieces : List Bytes} {done : List Nat} {before after : List UploadTask} {num : Nat}
    {data : Bytes} (h : s.Parts J f files pieces done (before ++ .partUpload num data :: after)) :
    num ∉ done := by
  intro hm
  have hnodup := h.cover_upload.nodup_iff.2 List.nodup_range
  rw [List.nodup_append, List.nodup_cons] at hnodup
  exact hnodup.2.1.1 hm

/-- The service has the part, with the parts that are done. -/
theorem Uploading.Parts.uploadData {s : Uploading} {files : ScatteredFiles}
    {pieces : List Bytes} {done : List Nat} {before after : List UploadTask} {num : Nat}
    {data : Bytes} (h : s.Parts J f files pieces done (before ++ .partUpload num data :: after)) :
    ∃ service parts, (s.service.uploadData J.remote (num + 1) s.uploadId data
        (J.etag data)).Evals (.ok service) ∧
      service.uploads s.uploadId = some ⟨J.remote, J.headers f, parts⟩ ∧
      ∀ k ∈ num :: done, parts (k + 1) =
        some ⟨J.etag (slice J.segmentSize k pieces.flatten),
          slice J.segmentSize k pieces.flatten⟩ := by
  obtain rfl : data = _ := h.tasks (.partUpload num data) (by simp)
  obtain ⟨parts, hupload, hdone⟩ := h.upload
  refine ⟨_, _, Service.evals_uploadData hupload (num + 1) _ _, if_pos rfl, ?_⟩
  intro k hk
  rcases List.mem_cons.1 hk with rfl | hk
  · exact if_pos rfl
  · have hne : k + 1 ≠ num + 1 := fun he => h.notMem_done (Nat.succ_injective he ▸ hk)
    simp only [if_neg hne]
    exact hdone k hk

/-- The content has the ETag of the part, with those of the parts that are done. -/
theorem Uploading.Parts.etags_bump {s : Uploading} {files : ScatteredFiles}
    {pieces : List Bytes} {done : List Nat} {before after : List UploadTask} {num : Nat}
    {data : Bytes} (h : s.Parts J f files pieces done (before ++ .partUpload num data :: after))
    (hnum : num < s.content.etags.length) :
    ∀ k ∈ num :: done, (s.content.bump num (J.etag data)).etags[k]? =
      some (J.etag (slice J.segmentSize k pieces.flatten)) := by
  obtain rfl : data = _ := h.tasks (.partUpload num data) (by simp)
  intro k hk
  simp only [UploadContent.bump, List.getElem?_set, hnum, if_true]
  rcases List.mem_cons.1 hk with rfl | hk
  · rw [if_pos rfl]
  · have hne : num ≠ k := fun he => h.notMem_done (he ▸ hk)
    rw [if_neg hne]
    exact h.etags k hk

/-- The service puts the parts together. -/
theorem assemble_parts (hJ : J.Ok f) {stored : Bytes} {etags : List String}
    {parts : Nat → Option StoredPart}
    (hlength : etags.length = partCount J.segmentSize stored.length)
    (hparts : ∀ k < partCount J.segmentSize stored.length, parts (k + 1) =
      some ⟨J.etag (slice J.segmentSize k stored), slice J.segmentSize k stored⟩)
    (hetags : ∀ k < partCount J.segmentSize stored.length,
      etags[k]? = some (J.etag (slice J.segmentSize k stored))) :
    (Multipart.mk J.remote (J.headers f) parts).assemble 1 etags = some stored := by
  rw [Multipart.assemble_eq_some (fun k => slice J.segmentSize (k - 1) stored) fun i etag hi => ?_]
  · rw [hlength, List.range'_eq_map_range, List.map_map]
    refine congrArg some ?_
    have hflat := flatten_slices (le_partCount_mul hJ.segmentSize_pos (n := stored.length))
    simpa only [Function.comp_def, Nat.add_sub_cancel_left] using hflat
  · have hlt : i < partCount J.segmentSize stored.length :=
      hlength ▸ (List.getElem?_eq_some_iff.1 hi).1
    rw [hetags i hlt] at hi
    cases hi
    rw [Nat.add_comm 1 i, Nat.add_sub_cancel]
    exact hparts i hlt

/-- The upload of a part leaves it done, and the object complete if it was the last one. -/
theorem Uploading.Parts.partUpload (hJ : J.Ok f) {s : Uploading} {files : ScatteredFiles}
    {pieces : List Bytes} {done : List Nat} {before after : List UploadTask} {num : Nat}
    {data : Bytes}
    (h : s.Parts J f files pieces done (before ++ .partUpload num data :: after)) :
    ∃ s', (J.runPartUpload s num data).Evals (.ok (s', [])) ∧
      (before ++ after = [] ∧ s'.Stored J f ∨
        before ++ after ≠ [] ∧ s'.Parts J f files pieces (num :: done) (before ++ after)) := by
  have hcover := h.cover_upload
  have hlen := hcover.length_eq
  rw [List.length_append, List.length_cons, List.length_range] at hlen
  have hnum : num < s.content.etags.length := by
    rw [h.length, ← List.mem_range, ← hcover.mem_iff]
    simp
  have hetags := h.etags_bump hnum
  have hlength : (s.content.bump num (J.etag data)).etags.length =
      partCount J.segmentSize pieces.flatten.length := List.length_set.trans h.length
  have hcompleted : (s.content.bump num (J.etag data)).numCompleted = done.length + 1 :=
    congrArg (· + 1) h.numCompleted
  obtain ⟨service, parts, hsend, hupload, hparts⟩ := h.uploadData
  have hbump := Prog.evals_ensure (ε := TransferError) (decide_eq_true hnum)
  by_cases hlast : before ++ after = []
  · -- the last of the parts
    rw [hlast, List.flatMap_nil, List.length_nil, Nat.zero_add] at hlen
    have hall : ∀ k < partCount J.segmentSize pieces.flatten.length, k ∈ num :: done :=
      fun k hk => by
        have := hcover.mem_iff.2 (List.mem_range.2 hk)
        rwa [hlast] at this
    have hcomplete := Service.evals_completeMultipart hupload (assemble_parts hJ hlength
      (fun k hk => hparts k (hall k hk)) fun k hk => hetags k (hall k hk))
    have hfull : (s.content.bump num (J.etag data)).numCompleted = s.content.numParts := by
      rw [hcompleted, h.numParts]
      exact hlen
    exact ⟨_, hsend.bind ((hbump _).bind (Prog.evals_if_pos hfull
      (hcomplete.bind (Prog.evals_pure _)))), .inl ⟨hlast, pieces.flatten, h.stored, if_pos rfl⟩⟩
  · have htasks : ∀ t ∈ before ++ after, t.Part J.segmentSize files pieces.flatten :=
      fun t ht => h.tasks t (mem_of_mem_without ht)
    obtain ⟨t, ht⟩ := List.exists_mem_of_ne_nil _ hlast
    have hpos : 0 < ((before ++ after).flatMap UploadTask.parts).length :=
      List.length_pos_iff.2 fun hnil =>
        (htasks t ht).parts_ne_nil (List.flatMap_eq_nil_iff.1 hnil t ht)
    have hfull : ¬ (s.content.bump num (J.etag data)).numCompleted = s.content.numParts := by
      rw [hcompleted, h.numParts]
      omega
    refine ⟨_, hsend.bind ((hbump _).bind (Prog.evals_if_neg hfull (Prog.evals_pure _))),
      .inr ⟨hlast, ?_⟩⟩
    exact {
      stored := h.stored
      hold := h.hold
      ne_nil := h.ne_nil
      upload := ⟨parts, hupload, hparts⟩
      numParts := h.numParts
      numCompleted := hcompleted
      length := hlength
      etags := hetags
      cover := hcover
      tasks := htasks }

/-! ## The blocks -/

/-- The blocks of a file that is compressed are parts of it, with their numbers in order. -/
theorem getElem?_blocks (hc : J.compresses f) {blocks : List Block}
    (hblocks : (fileCompressor (J.lim.getCapability .cpuBound) f.data.length).Evals (.ok blocks)) :
    blocks ≠ [] ∧ ∀ (k : Nat) b, blocks[k]? = some b →
      b.blockNum = k ∧ b.offset + b.size ≤ f.data.length := by
  obtain ⟨blockSz, hpos, hblocks'⟩ := J.exists_blocks hc
  cases hblocks.unique hblocks'
  constructor
  · have hlen := UploadJob.minimalBlock_le hc
    have hpos' : 0 < sliceCount blockSz f.data.length := by
      rw [lt_sliceCount_iff hpos]
      simp only [minimalBlock] at hlen
      omega
    simp only [ne_eq, List.map_eq_nil_iff, List.range_eq_nil]
    omega
  · intro k b hb
    rw [List.getElem?_map, Option.map_eq_some_iff] at hb
    obtain ⟨k', hk', rfl⟩ := hb
    obtain ⟨hlt, rfl⟩ := List.getElem?_eq_some_iff.1 hk'
    rw [List.length_range] at hlt
    have := (lt_sliceCount_iff hpos).1 hlt
    rw [Nat.mul_comm] at this
    rw [List.getElem_range]
    exact ⟨rfl, by dsimp only; omega⟩

/-- When all blocks are compressed, the temporary files hold what the file is stored as. -/
theorem Uploading.Compressing.hold {s : Uploading} {blocks : List Block}
    (h : s.Compressing J f blocks []) : ∃ pieces,
      ScatteredFiles.Hold ⟨s.compressor.files, s.compressor.sizes⟩ s.fs pieces ∧
      List.Forall₂ (J.CompressesTo f.data) blocks pieces := by
  have hdone : ∀ k (hk : k < blocks.length), ∃ name m,
      s.compressor.files[k]? = some name ∧ s.compressor.sizes[k]? = some m.length ∧
      s.fs.contents name = some m ∧ J.CompressesTo f.data blocks[k] m := fun k hk =>
    h.done k _ (List.getElem?_eq_getElem hk) List.not_mem_nil
  set pieces := s.compressor.files.map fun name => (s.fs.contents name).getD [] with hpieces
  have hlength : pieces.length = blocks.length := List.length_map _ |>.trans h.files
  have hget : ∀ (k : Nat) name, s.compressor.files[k]? = some name →
      s.fs.contents name = pieces[k]? ∧ s.compressor.sizes[k]? = pieces[k]?.map List.length ∧
      ∀ (hk : k < blocks.length) m, pieces[k]? = some m → J.CompressesTo f.data blocks[k] m := by
    intro k name hname
    have hk : k < blocks.length := h.files ▸ (List.getElem?_eq_some_iff.1 hname).1
    obtain ⟨name', m, hname', hsize, hm, hto⟩ := hdone k hk
    cases hname.symm.trans hname'
    have hpiece : pieces[k]? = some m := by
      rw [hpieces, List.getElem?_map, hname, Option.map_some, hm, Option.getD_some]
    refine ⟨hm.trans hpiece.symm, by rw [hsize, hpiece, Option.map_some], fun _ m' hm' => ?_⟩
    cases hpiece.symm.trans hm'
    exact hto
  refine ⟨pieces, ⟨(List.length_map _).symm, List.ext_getElem? fun k => ?_, fun k name hname =>
    (hget k name hname).1⟩, List.forall₂_iff_get.2 ⟨hlength.symm, fun k hk hk' => ?_⟩⟩
  · rw [List.getElem?_map]
    rcases hname : s.compressor.files[k]? with _ | name
    · have hk : blocks.length ≤ k := h.files ▸ List.getElem?_eq_none_iff.1 hname
      rw [List.getElem?_eq_none (by rw [h.sizes]; exact hk),
        List.getElem?_eq_none (by rw [hlength]; exact hk), Option.map_none]
    · exact (hget k name hname).2.1
  · have hname := List.getElem?_eq_getElem (h.files ▸ hk : k < s.compressor.files.length)
    exact (hget k _ hname).2.2 hk _ (List.getElem?_eq_getElem hk')

/-- A block is compressed to a file of its own; the last one finishes the compression. -/
theorem Uploading.Compressing.compressTask (hJ : J.Ok f) {s : Uploading} {blocks lb la : List Block}
    {b : Block} (h : s.Compressing J f blocks (lb ++ b :: la)) {tmp : Str} (htmp : s.fs tmp = none) :
    ∃ fs m compressor,
      (ExtremeS3.doCompress J.zlib J.sys s.fs J.path tmp b.offset b.size).Evals
        (.ok (fs, m)) ∧
      s.compressor.onComplete b.blockNum tmp m = some compressor ∧
      Uploading.Compressing J f { s with fs := fs, compressor := compressor } blocks (lb ++ la) ∧
      compressor.finishes = if lb ++ la = []
        then s.compressor.finishes ++ [(compressor.files, compressor.sizes)]
        else s.compressor.finishes := by
  have hblock : blocks[b.blockNum]? = some b := h.mem b (by simp)
  have hlt := (List.getElem?_eq_some_iff.1 hblock).1
  have hpath : s.fs.contents J.path = some f.data := by rw [Files.contents, h.file]
  obtain ⟨m, hto, hm⟩ := hJ.doCompress hpath htmp
    ((getElem?_blocks h.compresses h.evals).2 _ b hblock).2
  have hne : ∀ {name}, s.fs.contents name ≠ none → name ≠ tmp := by
    rintro name hname rfl
    rw [Files.contents, htmp] at hname
    exact hname rfl
  have hnodup : b.blockNum ∉ (lb ++ la).map Block.blockNum ∧
      ((lb ++ la).map Block.blockNum).Nodup := by
    have := h.nodup
    rw [List.map_append, List.map_cons, List.nodup_middle, List.nodup_cons] at this
    rwa [List.map_append]
  have hmem : ∀ b' ∈ lb ++ la, b' ∈ lb ++ b :: la := fun b' hb' => mem_of_mem_without hb'
  have hpending : s.compressor.numPending - 1 = (lb ++ la).length := by
    have := h.pending
    simp only [List.length_append, List.length_cons] at this ⊢
    omega
  refine ⟨_, _, _, hm, FileCompressor.onComplete_eq _ _ (h.tasks b (by simp)), ?_, ?_⟩
  · exact {
      file := (Files.set_of_ne (hne (hpath ▸ Option.some_ne_none _))).trans h.file
      upload := h.upload
      content := h.content
      compresses := h.compresses
      evals := h.evals
      mem := fun b' hb' => h.mem b' (hmem b' hb')
      nodup := hnodup.2
      pending := hpending
      tasks := fun b' hb' => by
        have hne' : b.blockNum ≠ b'.blockNum := fun he =>
          hnodup.1 (he ▸ List.mem_map_of_mem hb')
        rw [List.getElem?_set_ne hne']
        exact h.tasks b' (hmem b' hb')
      files := List.length_set.trans h.files
      sizes := List.length_set.trans h.sizes
      done := fun k b' hb' hnot => by
        by_cases hk : k = b.blockNum
        · subst hk
          cases hblock.symm.trans hb'
          exact ⟨tmp, m, List.getElem?_set_self (by rw [h.files]; exact hlt),
            List.getElem?_set_self (by rw [h.sizes]; exact hlt), Files.contents_set_self .., hto⟩
        · have hnum := ((getElem?_blocks h.compresses h.evals).2 _ b' hb').1
          have hnot' : b' ∉ lb ++ b :: la := fun hm => by
            rcases List.mem_append.1 hm with hm | hm
            · exact hnot (List.mem_append_left _ hm)
            · rcases List.mem_cons.1 hm with rfl | hm
              · exact hk hnum.symm
              · exact hnot (List.mem_append_right _ hm)
          obtain ⟨name, m', hname, hsize, hm', hto'⟩ := h.done k b' hb' hnot'
          exact ⟨name, m', (List.getElem?_set_ne (Ne.symm hk)).trans hname,
            (List.getElem?_set_ne (Ne.symm hk)).trans hsize,
            (Files.contents_set_of_ne (hne (hm' ▸ Option.some_ne_none _))).trans hm', hto'⟩ }
  · simp only [hpending, List.length_eq_zero_iff]

/-! ## The upload -/

/-- The compression begins with all blocks. -/
theorem Uploading.start_compressing {s : Uploading} (hfile : s.fs J.path = some (.file f))
    {parts : Nat → Option StoredPart} (hupload : s.upload J f parts)
    (hcontent : s.content = ⟨0, 0, []⟩) (hc : J.compresses f) {blocks : List Block}
    (hblocks : (fileCompressor (J.lim.getCapability .cpuBound) f.data.length).Evals (.ok blocks)) :
    Uploading.Compressing J f { s with compressor := .start blocks.length } blocks blocks := by
  have hnum := (getElem?_blocks hc hblocks).2
  have hmem : ∀ b ∈ blocks, blocks[b.blockNum]? = some b := fun b hb => by
    obtain ⟨k, hk⟩ := List.mem_iff_getElem?.1 hb
    rw [(hnum k b hk).1, hk]
  have hlt : ∀ b ∈ blocks, b.blockNum < blocks.length := fun b hb =>
    (List.getElem?_eq_some_iff.1 (hmem b hb)).1
  have hmap : blocks.map Block.blockNum = List.range blocks.length := by
    refine List.ext_getElem (by rw [List.length_map, List.length_range]) fun k hk _ => ?_
    rw [List.length_map] at hk
    rw [List.getElem_map, List.getElem_range]
    exact (hnum k _ (List.getElem?_eq_getElem hk)).1
  exact {
    file := hfile
    upload := ⟨parts, hupload⟩
    content := hcontent
    compresses := hc
    evals := hblocks
    mem := hmem
    nodup := by rw [hmap]; exact List.nodup_range
    pending := rfl
    tasks := fun b hb => List.getElem?_replicate_of_lt (hlt b hb)
    files := List.length_replicate
    sizes := List.length_replicate
    done := fun k b hb hnot => absurd (List.mem_of_getElem? hb) hnot }

/-- The first task. -/
theorem Uploading.runFileUploader_spec (hJ : J.Ok f) (nblocks : Nat) {s : Uploading}
    {o : UploadAnswer} (hfile : s.fs J.path = some (.file f))
    (hchanged : UploadJob.unchanged f (findMtimeAndSize o.code o.lines) = false) :
    ∃ s' new, (J.runFileUploader s o).Evals (.ok (s', new)) ∧ s'.Phase J f new ∧
      uploadWeight nblocks new < UploadTask.weight nblocks .fileUploader := by
  simp only [UploadJob.runFileUploader, hfile, hchanged, Bool.false_eq_true, if_false,
    UploadTask.weight]
  split
  · next hc =>
    refine ⟨_, _, Prog.evals_pure _, .compressor hfile (if_pos rfl) rfl hc, ?_⟩
    rw [uploadWeight_cons, uploadWeight_nil, UploadTask.weight]
    omega
  · next hc =>
    have hstored : J.StoredAs f [f.data].flatten := by
      rw [UploadJob.StoredAs, if_neg hc]
      exact List.append_nil _
    have hhold : ScatteredFiles.Hold ⟨[J.path], [f.data.length]⟩ s.fs [f.data] := by
      refine ⟨rfl, rfl, fun i path hi => ?_⟩
      cases i with
      | zero =>
        cases hi
        rw [Files.contents, hfile, List.getElem?_cons_zero]
      | succ i => simp at hi
    obtain ⟨s', ts, hrun, hphase, hweight⟩ := startTasks_spec hJ
      (s := { s with
        service := s.service.initiateMultipart J.remote (J.headers f) o.uploadId
        uploadId := o.uploadId
        content := ⟨0, 0, []⟩ }) (if_pos rfl) rfl hstored hhold (List.cons_ne_nil _ _) nblocks
    exact ⟨s', ts, hrun, hphase, by omega⟩

/-- A block, before the others in `lb` and `la`. -/
theorem Uploading.Compressing.runCompressTask_spec (hJ : J.Ok f) (nblocks : Nat) {s : Uploading}
    {blocks lb la : List Block} {b : Block} (h : s.Compressing J f blocks (lb ++ b :: la))
    (hfinishes : s.compressor.finishes = []) {o : UploadAnswer}
    (htmp : s.fs (J.scratchName o.random) = none) :
    ∃ s' new, (J.runCompressTask s b o).Evals (.ok (s', new)) ∧
      s'.Phase J f ((lb ++ la).map .compressTask ++ new) ∧
      uploadWeight nblocks new < UploadTask.weight nblocks (.compressTask b) := by
  obtain ⟨fs, m, compressor, hm, hcomplete, h', hfinishes'⟩ := h.compressTask hJ htmp
  rw [hfinishes, List.nil_append] at hfinishes'
  by_cases hlast : lb ++ la = []
  · rw [if_pos hlast] at hfinishes'
    rw [hlast] at h' ⊢
    obtain ⟨pieces, hhold, hpieces⟩ := h'.hold
    have hne : pieces ≠ [] := by
      rintro rfl
      exact (getElem?_blocks h.compresses h.evals).1 (List.forall₂_nil_right_iff.1 hpieces)
    have hstored : J.StoredAs f pieces.flatten := by
      rw [UploadJob.StoredAs, if_pos h.compresses]
      exact ⟨blocks, pieces, h.evals, hpieces, rfl⟩
    obtain ⟨parts, hupload⟩ := h'.upload
    obtain ⟨s', ts, hstart, hphase, hweight⟩ := startTasks_spec hJ hupload h'.content hstored hhold
      hne nblocks
    refine ⟨s', ts, hm.bind ((Prog.evals_ofOption hcomplete _).bind ?_), hphase, ?_⟩
    · rw [hfinishes', hfinishes]
      exact hstart
    · rw [UploadTask.weight]
      omega
  · rw [if_neg hlast] at hfinishes'
    refine ⟨{ s with fs := fs, compressor := compressor }, [],
      hm.bind ((Prog.evals_ofOption hcomplete _).bind ?_), ?_, Nat.succ_pos _⟩
    · rw [hfinishes', hfinishes]
      exact Prog.evals_pure _
    · rw [List.append_nil]
      exact .compressing h' hlast hfinishes'

/-- Every task keeps its phase or begins the next one. -/
theorem Uploading.Phase.step (hJ : J.Ok f) {nblocks : Nat}
    (hnblocks : ∀ blocks, (fileCompressor (J.lim.getCapability .cpuBound) f.data.length).Evals
      (.ok blocks) → blocks.length = nblocks) {s : Uploading} {before after : List UploadTask}
    {t : UploadTask} {o : UploadAnswer} (h : s.Phase J f (before ++ t :: after))
    (ho : J.tasks.answers s t o) :
    ∃ s' new, (J.tasks.run s t o).Evals (.ok (s', new)) ∧
      s'.Phase J f (before ++ after ++ new) ∧ uploadWeight nblocks new < t.weight nblocks := by
  generalize hts : before ++ t :: after = ts at h
  cases h with
  | start hfile hchanged =>
    obtain ⟨rfl, rfl, rfl⟩ : before = [] ∧ t = .fileUploader ∧ after = [] := by
      simpa [List.append_eq_singleton_iff] using hts
    exact Uploading.runFileUploader_spec hJ nblocks hfile (hchanged _ _ ho)
  | compressor hfile hupload hcontent hc =>
    obtain ⟨rfl, rfl, rfl⟩ : before = [] ∧ t = .fileCompressor ∧ after = [] := by
      simpa [List.append_eq_singleton_iff] using hts
    obtain ⟨blockSz, hpos, hblocks⟩ := J.exists_blocks hc
    have hcontents : s.fs.contents J.path = some f.data := by rw [Files.contents, hfile]
    refine ⟨_, _, (Prog.evals_ofOption hcontents _).bind (hblocks.bind (Prog.evals_pure _)),
      .compressing (Uploading.start_compressing hfile hupload hcontent hc hblocks)
        (getElem?_blocks hc hblocks).1 rfl, ?_⟩
    rw [← hnblocks _ hblocks, UploadTask.weight]
    simp only [uploadWeight, List.map_map, Function.comp_def, UploadTask.weight, List.map_const',
      List.sum_replicate_nat, List.length_map]
    omega
  | compressing h hne hfinishes =>
    obtain ⟨lb, rest, rfl, rfl, hrest⟩ := List.map_eq_append_iff.1 hts.symm
    obtain ⟨b, la, rfl, rfl, rfl⟩ := List.map_eq_cons_iff.1 hrest
    rw [← List.map_append]
    exact h.runCompressTask_spec hJ nblocks hfinishes ho
  | parts files pieces done h =>
    subst hts
    have ht := h.tasks t (by simp)
    cases t with
    | filePump files' cur num =>
      obtain ⟨new, hrun, hne, h', hweight⟩ := h.filePump hJ
      exact ⟨s, new, hrun, .parts files pieces done h' (List.append_ne_nil_of_right_ne_nil _ hne),
        hweight nblocks⟩
    | partUpload num data =>
      obtain ⟨s', hrun, h'⟩ := h.partUpload hJ
      refine ⟨s', [], hrun, ?_, Nat.zero_lt_one⟩
      rw [List.append_nil]
      rcases h' with ⟨hnil, h'⟩ | ⟨hne, h'⟩
      · rw [hnil]
        exact .stored h'
      · exact .parts files pieces (num :: done) h' hne
    | fileUploader | fileCompressor | compressTask => exact ht.elim
  | stored h => simp at hts

/-- In whatever order its tasks run, the upload of a file that is not taken to be unchanged completes,
and the object has the headers of the file and holds what it is stored as. -/
theorem upload_completes (hJ : J.Ok f) {s : Uploading} (hfile : s.fs J.path = some (.file f))
    (hchanged : ∀ code lines, s.service.AnswersHead J.remote code lines →
      UploadJob.unchanged f (findMtimeAndSize code lines) = false) :
    J.tasks.Completes (s, [.fileUploader]) fun s' => ∃ stored, J.StoredAs f stored ∧
      s'.service.objects J.remote = some ⟨J.headers f, stored⟩ := by
  obtain ⟨nblocks, hnblocks⟩ : ∃ n, ∀ blocks,
      (fileCompressor (J.lim.getCapability .cpuBound) f.data.length).Evals (.ok blocks) →
      blocks.length = n := by
    by_cases h : ∃ blocks, (fileCompressor (J.lim.getCapability .cpuBound) f.data.length).Evals
      (.ok blocks)
    · obtain ⟨blocks, h⟩ := h
      exact ⟨blocks.length, fun blocks' h' => by cases h.unique h'; rfl⟩
    · exact ⟨0, fun blocks h' => absurd ⟨blocks, h'⟩ h⟩
  refine TaskSystem.completes_of_invariant (Uploading.Phase J f) (UploadTask.weight nblocks)
    (.start hfile hchanged) (fun s before t after o h ho => h.step hJ hnblocks ho) fun s h => ?_
  generalize hts : ([] : List UploadTask) = ts at h
  cases h with
  | stored h => exact h
  | parts files pieces done h hne => exact absurd hts.symm hne
  | compressing h hne hfinishes => simp [hne] at hts
  | start hfile hchanged => cases hts
  | compressor hfile hupload hcontent hc => cases hts

end ExtremeS3
