import ExtremeS3.Downloader.Segments
import Mathlib.Data.List.Infix

/-!
# A download replaces its target once, or not at all

A run of a download is before its content is made (`Waiting`), then writes and counts segments
(`Assembling`), and then has finished (`Finished`). While it is assembled, the temporary file has
the bytes of the object wherever a segment was written (`SegmentOk`), and no segment is counted
twice; so when the count is full every segment is written, and the file holds the object
(`Assembling.complete`). From then on no segment has a step, so that nothing finishes again.
`download_exactly_once` says what this means for every run.
-/

namespace ExtremeS3

/-- The data of the object, or nothing if there is no object. -/
def Service.bytes (service : Service) (remote : S3Path) : Bytes :=
  match service.objects remote with
  | some object => object.data
  | none => []

/-- The data that a task brings with it. -/
def SegmentTask.data? : SegmentTask → Option Bytes
  | .download _ => none
  | .write _ data | .writing _ data _ => some data

/-- What of its data a task has written, as far as that is known. -/
def SegmentTask.written? : SegmentTask → Option Bytes
  | .download _ | .write (.next _) _ => some []
  | .writing _ data offset => some (data.take offset)
  | .write (.ended fail) data => if fail then none else some data

namespace DownloadJob

variable (J : DownloadJob) (service : Service)

/-- The data are the range of the segment `num` of an object of the size that was answered. -/
structure HasRange (remoteSize num : Nat) (data : Bytes) : Prop where
  object : (service.objects J.remote).isSome
  length : data.length = min J.segmentSize (remoteSize - num * J.segmentSize)
  range : data <+: (service.bytes J.remote).drop (J.segmentSize * num)

/-- What is known of the segment `num` when its task stands at `t` and the temporary file holds
`held`. -/
structure SegmentOk (remoteSize : Nat) (ls : List AssemblyLabel) (held : Bytes) (num : Nat)
    (t : SegmentTask) : Prop where
  range : ∀ data, t.data? = some data → J.HasRange service remoteSize num data
  offset : ∀ f data offset, t = .writing f data offset → offset ≤ data.length
  written : ∀ bytes, t.written? = some bytes → segmentBytes num ls = bytes ∧
    ∀ i < bytes.length, SameAt held (service.bytes J.remote) (J.segmentSize * num + i)

/-- Before there is a content. -/
structure Waiting (fs₀ : Files) (ls : List AssemblyLabel) (s : Assembly) : Prop where
  made : s.content = none
  tasks : s.tasks = []
  decompressors : s.decompressors = []
  destroyed : s.destroyed = false
  target : s.fs J.path = fs₀ J.path
  counted : countedSegments ls = []
  finishes : finishes ls = []
  renames : renames ls = []
  bytes : ∀ num, segmentBytes num ls = []
  inOrder : WritesInOrder J.segmentSize ls

/-- While the segments are downloaded and written. -/
structure Assembling (fs₀ : Files) (ls : List AssemblyLabel) (s : Assembly)
    (content : DownloadContent) (held : Bytes) : Prop where
  segmentSize_pos : 0 < J.segmentSize
  made : s.content = some content
  downloader : s.downloader = .ended false
  targetFile : content.targetFile = J.path
  localFile : content.localFile ≠ J.path
  numSegments : content.numSegments = partCount J.segmentSize content.remoteSize
  length : s.tasks.length ≤ content.numSegments
  decompressors : s.decompressors = []
  target : s.fs J.path = fs₀ J.path
  finishes : finishes ls = []
  renames : renames ls = []
  inOrder : WritesInOrder J.segmentSize ls
  nodup : (countedSegments ls).Nodup
  count : content.segmentsRead = (countedSegments ls).length
  counted : ∀ num ∈ countedSegments ls, ∃ fail data,
    s.tasks[num]? = some (.write (.ended fail) data) ∧ (fail = true → content.Full)
  heldLength : held.length ≤ content.remoteSize
  holds : s.destroyed = false → s.fs.contents content.localFile = some held
  segments : ∀ num t, s.tasks[num]? = some t →
    J.SegmentOk service content.remoteSize ls held num t
  unscheduled : ∀ num, s.tasks.length ≤ num → segmentBytes num ls = []
  gone : s.destroyed = true → s.tasks.length = content.numSegments ∧ ∀ t ∈ s.tasks, t.Over

/-- How far a download is that has finished: the file was renamed, or a `file_decompressor` is to
read it, or has ended. -/
inductive Stage (fs₀ : Files) (ls : List AssemblyLabel) (s : Assembly) (content : DownloadContent)
    (held : Bytes) : Prop
  | replaced : content.compressed = false → s.decompressors = [] →
    renames ls = [some (.file ⟨held, content.mtime, content.mode⟩)] →
    s.fs J.path = some (.file ⟨held, content.mtime, content.mode⟩) →
    Stage fs₀ ls s content held
  | handed (f : Nat) : content.compressed = true → content.deleteTempFile = false →
    s.decompressors = [.run (.next f)] → renames ls = [] → s.fs J.path = fs₀ J.path →
    s.fs.contents content.localFile = some held → Stage fs₀ ls s content held
  | ended (d : DecompressTask) : content.compressed = true → s.decompressors = [d] →
    (∀ f, d ≠ .run (.next f)) →
    (renames ls = [] ∧ s.fs J.path = fs₀ J.path ∨
      ∃ f, renames ls = [some (.file f)] ∧ s.fs J.path = some (.file f)) →
    Stage fs₀ ls s content held

/-- After the last segment was counted. -/
structure Finished (fs₀ : Files) (ls : List AssemblyLabel) (s : Assembly)
    (content : DownloadContent) (object : Object) (held : Bytes) : Prop where
  made : s.content = some content
  downloader : s.downloader = .ended false
  targetFile : content.targetFile = J.path
  localFile : content.localFile ≠ J.path
  numSegments : content.numSegments = partCount J.segmentSize content.remoteSize
  length : s.tasks.length = content.numSegments
  tasks : ∀ t ∈ s.tasks, ∃ data, t = .write (.ended false) data
  stored : service.objects J.remote = some object
  whole : held = object.data.take content.remoteSize
  heldLength : held.length = content.remoteSize
  inOrder : WritesInOrder J.segmentSize ls
  written : ∀ num < content.numSegments, num ∈ countedSegments ls ∧ segmentBytes num ls =
    (object.data.drop (J.segmentSize * num)).take (content.size J.segmentSize num)
  finishes : finishes ls = [some held]
  stage : J.Stage fs₀ ls s content held

/-- Where a run that began with the files `fs₀` may have come to. -/
inductive Progress (fs₀ : Files) (ls : List AssemblyLabel) (s : Assembly) : Prop
  | waiting : J.Waiting fs₀ ls s → Progress fs₀ ls s
  | assembling (content : DownloadContent) (held : Bytes) :
    J.Assembling service fs₀ ls s content held → Progress fs₀ ls s
  | finished (content : DownloadContent) (object : Object) (held : Bytes) :
    J.Finished service fs₀ ls s content object held → Progress fs₀ ls s

/-- What a run that began with the files `fs₀` has done. -/
structure ExactlyOnce (fs₀ : Files) (ls : List AssemblyLabel) (s : Assembly) : Prop where
  /-- The target is left, or one rename replaced it. -/
  target : renames ls = [] ∧ s.fs J.path = fs₀ J.path ∨
    ∃ f, renames ls = [some (.file f)] ∧ s.fs J.path = some (.file f)
  /-- Nothing is renamed that has not finished. -/
  renamed : renames ls ≠ [] → finishes ls ≠ []
  /-- The download finished at most once, when the range of every segment was written and the
  temporary file held the object: as the target, or for the `file_decompressor`. -/
  finished : finishes ls = [] ∨ ∃ content object held,
    s.content = some content ∧ service.objects J.remote = some object ∧
    content.numSegments = partCount J.segmentSize content.remoteSize ∧
    (∀ num < content.numSegments, num ∈ countedSegments ls ∧ segmentBytes num ls =
      (object.data.drop (J.segmentSize * num)).take (content.size J.segmentSize num)) ∧
    finishes ls = [some held] ∧ held = object.data.take content.remoteSize ∧
    held.length = content.remoteSize ∧
    (content.compressed = false →
      s.fs J.path = some (.file ⟨held, content.mtime, content.mode⟩)) ∧
    ∀ (num f : Nat), s.decompressors[num]? = some (.run (.next f)) →
      s.fs.contents content.localFile = some held
  /-- Every segment is written from its own offset on. -/
  inOrder : WritesInOrder J.segmentSize ls
  /-- With a segment that was given up, nothing ever finishes. -/
  failed : s.Failed → ∀ (ms : List AssemblyLabel) (u : Assembly),
    (J.assemblyMachine service).Run s ms u → finishes (ls ++ ms) = [] ∧ renames (ls ++ ms) = []

variable {J service} {fs₀ : Files} {ls : List AssemblyLabel} {s : Assembly}
  {content : DownloadContent} {held : Bytes}

/-- A task keeps its segment over a step that writes no bytes and loses none of those held. -/
theorem SegmentOk.mono {remoteSize num : Nat} {t : SegmentTask} {a : AssemblyLabel} {held' : Bytes}
    (h : J.SegmentOk service remoteSize ls held num t) (ha : a.bytes num = [])
    (hsame : ∀ i, SameAt held (service.bytes J.remote) i →
      SameAt held' (service.bytes J.remote) i) :
    J.SegmentOk service remoteSize (ls ++ [a]) held' num t where
  range := h.range
  offset := h.offset
  written bytes hb := by
    obtain ⟨hbytes, hheld⟩ := h.written bytes hb
    rw [segmentBytes_append_of_nil ha]
    exact ⟨hbytes, fun i hi => hsame _ (hheld i hi)⟩

/-- What is not retried gives the segment up. -/
theorem SegmentOk.given_up {remoteSize num : Nat} {data : Bytes}
    (h : J.HasRange service remoteSize num data) {e : Thrown} (he : e.retried = false) (f : Nat) :
    J.SegmentOk service remoteSize ls held num (.write (afterAttempt f (some e)) data) := by
  rw [afterAttempt_of_not_retried he]
  refine ⟨fun data' hd => ?_, (fun _ _ _ ht => by cases ht), (fun _ hb => by cases hb)⟩
  cases hd
  exact h

/-- A segment whose task has a step is not counted, and not all segments are. -/
theorem Assembling.not_counted (h : J.Assembling service fs₀ ls s content held) {num : Nat}
    {t : SegmentTask} (ht : s.tasks[num]? = some t) (hover : ¬ t.Over) :
    num < s.tasks.length ∧ num ∉ countedSegments ls ∧
      content.segmentsRead < content.numSegments ∧ s.destroyed = false := by
  have hlt : num < s.tasks.length := (List.getElem?_eq_some_iff.1 ht).1
  have hnot : num ∉ countedSegments ls := by
    intro hnum
    obtain ⟨fail, data, hdone, -⟩ := h.counted num hnum
    cases ht.symm.trans hdone
    exact hover trivial
  have hall : ∀ k ∈ num :: countedSegments ls, k < content.numSegments := by
    intro k hk
    have hlen := h.length
    rcases List.mem_cons.1 hk with rfl | hk
    · omega
    · obtain ⟨fail, data, hdone, -⟩ := h.counted k hk
      have := (List.getElem?_eq_some_iff.1 hdone).1
      omega
  have hcount := length_le_of_nodup_lt (List.nodup_cons.2 ⟨hnot, h.nodup⟩) hall
  rw [List.length_cons, ← h.count] at hcount
  refine ⟨hlt, hnot, hcount, Bool.eq_false_iff.2 fun hd => hover ?_⟩
  exact (h.gone hd).2 t (List.mem_of_getElem? ht)

/-- What a step of a segment has to keep for the download to go on. -/
theorem Assembling.update (h : J.Assembling service fs₀ ls s content held) {num : Nat}
    {t : SegmentTask} (ht : s.tasks[num]? = some t) (hover : ¬ t.Over) {v : Segment}
    {a : AssemblyLabel} {held' : Bytes} (hds : v.decompressors = s.decompressors)
    (hcount : v.content = content ∧ a.counts = none ∨
      v.content = content.count ∧ a.counts = some num ∧
        ∃ fail data, v.task = .write (.ended fail) data ∧ (fail = true → v.content.Full))
    (htarget : v.fs J.path = s.fs J.path) (hholds : v.fs.contents content.localFile = some held')
    (hlen : held'.length ≤ content.remoteSize)
    (hsame : ∀ i, SameAt held (service.bytes J.remote) i →
      SameAt held' (service.bytes J.remote) i)
    (hquiet : a.finishes = none ∧ a.renames = none)
    (hbytes : ∀ k, k ≠ num → a.bytes k = [])
    (horder : ∀ k offset bytes, a = .wrote k offset bytes →
      offset = J.segmentSize * k + (segmentBytes k ls).length)
    (hok : J.SegmentOk service content.remoteSize (ls ++ [a]) held' num v.task) :
    J.Assembling service fs₀ (ls ++ [a]) (withSegment s num v) v.content held' := by
  obtain ⟨hlt, hnot, hless, hdestroyed⟩ := h.not_counted ht hover
  have hset := getElem?_set_of_getElem? ht v.task
  have hfields : v.content.targetFile = content.targetFile ∧
      v.content.localFile = content.localFile ∧ v.content.numSegments = content.numSegments ∧
      v.content.remoteSize = content.remoteSize := by
    rcases hcount with ⟨hc, -⟩ | ⟨hc, -⟩ <;> rw [hc] <;> exact ⟨rfl, rfl, rfl, rfl⟩
  obtain ⟨hfile, hlocal, hnum, hsize⟩ := hfields
  exact {
    segmentSize_pos := h.segmentSize_pos
    made := rfl
    downloader := h.downloader
    targetFile := hfile.trans h.targetFile
    localFile := hlocal ▸ h.localFile
    numSegments := by rw [hnum, hsize, h.numSegments]
    length := by
      rw [hnum]
      exact (List.length_set ..).trans_le h.length
    decompressors := hds.trans h.decompressors
    target := htarget.trans h.target
    finishes := (finishes_append_of_none hquiet.1).trans h.finishes
    renames := (renames_append_of_none hquiet.2).trans h.renames
    inOrder := h.inOrder.append horder
    nodup := by
      rcases hcount with ⟨-, ha⟩ | ⟨-, ha, -⟩
      · rw [countedSegments_append_of_none ha]
        exact h.nodup
      · rw [countedSegments_append, ha]
        exact List.nodup_append_comm.1 (List.nodup_cons.2 ⟨hnot, h.nodup⟩)
    count := by
      rcases hcount with ⟨hc, ha⟩ | ⟨hc, ha, -⟩
      · rw [countedSegments_append_of_none ha, hc, h.count]
      · rw [countedSegments_append, ha, List.length_append, hc, ← h.count]
        rfl
    counted := fun k hk => by
      have hold : k ∈ countedSegments ls → ∃ fail data,
          (s.tasks.set num v.task)[k]? = some (.write (.ended fail) data) ∧
            (fail = true → v.content.Full) := fun hk => by
        obtain ⟨fail, data, hdone, hfull⟩ := h.counted k hk
        refine ⟨fail, data, ?_, fun hf => absurd (hfull hf) (Nat.ne_of_lt hless)⟩
        rw [hset, if_neg, hdone]
        rintro rfl
        exact hnot hk
      rcases hcount with ⟨-, ha⟩ | ⟨-, ha, hend⟩
      · exact hold (countedSegments_append_of_none ha ▸ hk)
      · rw [countedSegments_append, ha] at hk
        rcases List.mem_append.1 hk with hk | hk
        · exact hold hk
        · obtain rfl := List.mem_singleton.1 hk
          obtain ⟨fail, data, hv, hfull⟩ := hend
          refine ⟨fail, data, ?_, hfull⟩
          show (s.tasks.set k v.task)[k]? = _
          rw [hset, if_pos rfl, hv]
    heldLength := hsize ▸ hlen
    holds := fun _ => hlocal ▸ hholds
    segments := fun k t' hk => by
      have hk : (s.tasks.set num v.task)[k]? = some t' := hk
      rw [hsize]
      rw [hset] at hk
      split at hk
      · next he =>
        cases hk
        exact he ▸ hok
      · next he => exact (h.segments k t' hk).mono (hbytes k fun hk => he hk.symm) hsame
    unscheduled := fun k hk => by
      have hk : (s.tasks.set num v.task).length ≤ k := hk
      rw [List.length_set] at hk
      rw [segmentBytes_append_of_nil (hbytes k (by omega)), h.unscheduled k hk]
    gone := fun hd => by
      have : s.destroyed = true := hd
      rw [hdestroyed] at this
      cases this }

/-- The bytes of a range are those of the object, where there is one. -/
theorem HasRange.eq_take {remoteSize num : Nat} {data : Bytes} {object : Object}
    (h : J.HasRange service remoteSize num data)
    (hobject : service.objects J.remote = some object) :
    data = (object.data.drop (J.segmentSize * num)).take
      (min J.segmentSize (remoteSize - num * J.segmentSize)) := by
  have hrange := h.range
  rw [Service.bytes, hobject] at hrange
  rw [← h.length]
  exact List.prefix_iff_eq_take.1 hrange

/-- When the task of the segment `num` is about to count the last segment, every segment is
written, and the temporary file holds the object. -/
theorem Assembling.complete (h : J.Assembling service fs₀ ls s content held)
    {num f offset : Nat} {data : Bytes}
    (ht : s.tasks[num]? = some (.writing f data offset)) (hend : data.length ≤ offset)
    (hfull : content.count.Full) :
    s.tasks.length = content.numSegments ∧
      (∀ k t, s.tasks[k]? = some t → k = num ∨ ∃ data, t = .write (.ended false) data) ∧
      (∀ k < content.numSegments, k = num ∨ k ∈ countedSegments ls) ∧
      ∃ object, service.objects J.remote = some object ∧
        held = object.data.take content.remoteSize ∧ held.length = content.remoteSize ∧
        ∀ k < content.numSegments, segmentBytes k ls =
          (object.data.drop (J.segmentSize * k)).take (content.size J.segmentSize k) := by
  obtain ⟨hlt, hnot, hless, -⟩ := h.not_counted ht (fun ho => ho)
  have hsegment := h.segmentSize_pos
  have hlast : content.segmentsRead + 1 = content.numSegments := hfull
  have hdone : ∀ k ∈ countedSegments ls, ∃ data,
      s.tasks[k]? = some (.write (.ended false) data) := fun k hk => by
    obtain ⟨fail, data, hdone, hf⟩ := h.counted k hk
    cases fail with
    | false => exact ⟨data, hdone⟩
    | true => exact absurd (hf rfl) (Nat.ne_of_lt hless)
  have hlength := h.length
  have hcover : ∀ k < content.numSegments, k = num ∨ k ∈ countedSegments ls := fun k hk => by
    refine List.mem_cons.1 (mem_of_nodup_lt (n := content.numSegments)
      (List.nodup_cons.2 ⟨hnot, h.nodup⟩) (fun j hj => ?_) ?_ hk)
    · rcases List.mem_cons.1 hj with rfl | hj
      · omega
      · obtain ⟨data, hj⟩ := hdone j hj
        have := (List.getElem?_eq_some_iff.1 hj).1
        omega
    · rw [List.length_cons, ← h.count]
      omega
  have hdata : ∀ k < content.numSegments, ∃ data, J.HasRange service content.remoteSize k data ∧
      segmentBytes k ls = data ∧
        ∀ i < data.length, SameAt held (service.bytes J.remote) (J.segmentSize * k + i) := by
    intro k hk
    rcases hcover k hk with rfl | hk
    · have hok := h.segments k _ ht
      refine ⟨data, hok.range data rfl, hok.written data ?_⟩
      rw [SegmentTask.written?, List.take_of_length_le hend]
    · obtain ⟨data, hk⟩ := hdone k hk
      have hok := h.segments k _ hk
      exact ⟨data, hok.range data rfl, hok.written data rfl⟩
  obtain ⟨_, hrange, -, -⟩ := hdata num (by omega)
  obtain ⟨object, hobject⟩ := Option.isSome_iff_exists.1 hrange.object
  have hbytes : service.bytes J.remote = object.data := by rw [Service.bytes, hobject]
  have hheld : held = object.data.take content.remoteSize ∧ held.length = content.remoteSize := by
    refine eq_take_of_sameAt h.heldLength fun i hi => ?_
    have hdiv := Nat.div_add_mod i J.segmentSize
    have hmod := Nat.mod_lt i hsegment
    have hk : i / J.segmentSize < content.numSegments := by
      rw [h.numSegments, lt_partCount_iff hsegment, Nat.mul_comm]
      omega
    obtain ⟨data, hrange, -, hsame⟩ := hdata _ hk
    have := hsame (i % J.segmentSize) (by
      rw [hrange.length, Nat.mul_comm (i / J.segmentSize)]
      omega)
    rwa [hdiv, hbytes] at this
  refine ⟨?_, fun k t hk => ?_, hcover, object, hobject, hheld.1, hheld.2, fun k hk => ?_⟩
  · by_contra hne
    rcases hcover s.tasks.length (by omega) with he | hk
    · omega
    · obtain ⟨data, hk⟩ := hdone _ hk
      exact absurd (List.getElem?_eq_some_iff.1 hk).1 (Nat.lt_irrefl _)
  · have := (List.getElem?_eq_some_iff.1 hk).1
    refine (hcover k (by omega)).imp_right fun hmem => ?_
    obtain ⟨data, hd⟩ := hdone k hmem
    exact ⟨data, Option.some.inj (hk.symm.trans hd)⟩
  · obtain ⟨data, hrange, hwritten, -⟩ := hdata k hk
    rw [hwritten, DownloadContent.size_eq]
    exact hrange.eq_take hobject

/-- A step of a segment that leaves the files and the count. -/
theorem Assembling.keep (h : J.Assembling service fs₀ ls s content held) {num : Nat}
    {t t' : SegmentTask} (ht : s.tasks[num]? = some t) (hover : ¬ t.Over) {a : AssemblyLabel}
    (hcounts : a.counts = none) (hquiet : a.finishes = none ∧ a.renames = none)
    (hbytes : ∀ k, a.bytes k = []) (hwrote : ∀ k offset bytes, a ≠ .wrote k offset bytes)
    (hok : J.SegmentOk service content.remoteSize ls held num t') :
    J.Assembling service fs₀ (ls ++ [a])
      (withSegment s num { segment s content t with task := t' }) content held := by
  obtain ⟨-, -, -, hdestroyed⟩ := h.not_counted ht hover
  exact h.update ht hover (v := { segment s content t with task := t' }) rfl (.inl ⟨rfl, hcounts⟩)
    rfl (h.holds hdestroyed) h.heldLength (fun _ hi => hi) hquiet (fun k _ => hbytes k)
    (fun k offset bytes ha => absurd ha (hwrote k offset bytes))
    (hok.mono (hbytes num) fun _ hi => hi)

/-- The step that counts the last segment. -/
theorem Assembling.finish (h : J.Assembling service fs₀ ls s content held)
    {num f offset : Nat} {data : Bytes}
    (ht : s.tasks[num]? = some (.writing f data offset)) (hend : data.length ≤ offset)
    (hfull : content.count.Full) {v : Segment} {a : AssemblyLabel} {deleteTempFile : Bool}
    (hcontent : v.content = { content.count with deleteTempFile := deleteTempFile })
    (htask : v.task = .write (.ended false) data) (hcounts : a.counts = some num)
    (hfinishes : a.finishes = some (some held)) (hbytes : ∀ k, a.bytes k = [])
    (hwrote : ∀ k offset bytes, a ≠ .wrote k offset bytes)
    (hstage : J.Stage fs₀ (ls ++ [a]) (withSegment s num v) v.content held) :
    ∃ object, J.Finished service fs₀ (ls ++ [a]) (withSegment s num v) v.content object held := by
  obtain ⟨hlength, htasks, hcover, object, hobject, hheld, hlen, hwritten⟩ :=
    h.complete ht hend hfull
  refine ⟨object, {
    made := rfl
    downloader := h.downloader
    targetFile := by rw [hcontent]; exact h.targetFile
    localFile := by rw [hcontent]; exact h.localFile
    numSegments := by rw [hcontent]; exact h.numSegments
    length := by rw [hcontent]; exact (List.length_set ..).trans hlength
    tasks := fun t' ht' => ?_
    stored := hobject
    whole := by rw [hcontent]; exact hheld
    heldLength := by rw [hcontent]; exact hlen
    inOrder := h.inOrder.append fun k offset bytes ha => absurd ha (hwrote k offset bytes)
    written := fun k hk => ?_
    finishes := by rw [finishes_append, h.finishes, hfinishes]; rfl
    stage := hstage }⟩
  · obtain ⟨k, hk⟩ := List.mem_iff_getElem?.1 ht'
    have hk : (s.tasks.set num v.task)[k]? = some t' := hk
    rw [getElem?_set_of_getElem? ht] at hk
    split at hk
    · cases hk
      exact ⟨data, htask⟩
    · next hne => exact (htasks k t' hk).resolve_left fun he => hne he.symm
  · rw [hcontent] at hk ⊢
    rw [countedSegments_append, hcounts, segmentBytes_append_of_nil (hbytes k)]
    refine ⟨?_, hwritten k hk⟩
    rcases hcover k hk with rfl | hk
    · exact List.mem_append_right _ (List.mem_singleton.2 rfl)
    · exact List.mem_append_left _ hk

/-- What is written of a segment goes to its place in the temporary file. -/
theorem Assembling.wrote (h : J.Assembling service fs₀ ls s content held) {num f offset : Nat}
    {offset' : Nat} {data : Bytes} {fs : Files} {sys : Sys}
    (ht : s.tasks[num]? = some (.writing f data offset))
    (hchunk : (writeChunk sys content.localFile (J.segmentSize * num) data (s.fs, offset)).Evals
      (.ok (.inl (fs, offset')))) (hlt : offset < offset') :
    ∃ held', J.Assembling service fs₀
      (ls ++ [.wrote num (J.segmentSize * num + offset)
        ((data.drop offset).take (offset' - offset))])
      (withSegment s num { segment s content (.writing f data offset) with
        fs := fs, task := .writing f data offset' }) content held' := by
  obtain ⟨-, -, -, hdestroyed⟩ := h.not_counted ht (fun ho => ho)
  obtain ⟨n, hn⟩ := hchunk.exists_eq
  obtain ⟨-, -, hle, d, mtime, hfile, rfl⟩ := writeChunk_eq_ok hn
  have hholds := h.holds hdestroyed
  rw [Files.contents, hfile] at hholds
  obtain rfl : d.data = held := Option.some.inj hholds
  have hok := h.segments num _ ht
  have hrange := hok.range data rfl
  obtain ⟨hbytes, hsame⟩ := hok.written _ rfl
  set part := (data.drop offset).take (offset' - offset) with hpart
  have hlen : part.length = offset' - offset := by
    rw [hpart, List.length_take, List.length_drop]
    omega
  have hpre : part <+: (service.bytes J.remote).drop (J.segmentSize * num + offset) := by
    rw [← List.drop_drop]
    exact (List.take_prefix _ _).trans (hrange.range.drop offset)
  have htaken : (data.take offset).length = offset := by
    rw [List.length_take]
    omega
  refine ⟨_, h.update ht (fun ho => ho) rfl (.inl ⟨rfl, rfl⟩) (Files.set_of_ne h.localFile.symm)
    (Files.contents_set_self ..) ?_ (fun i hi => hi.overwrite hpre) ⟨rfl, rfl⟩ (fun k hk => ?_)
    (fun k offset bytes ha => ?_) ⟨hok.range, fun f data offset ht => ?_, fun bytes hb => ?_⟩⟩
  · refine (length_overwrite_le _ _ _).trans (Nat.max_le.2 ⟨h.heldLength, ?_⟩)
    have := hrange.length
    rw [Nat.mul_comm num] at this
    omega
  · exact if_neg hk.symm
  · cases ha
    rw [hbytes, htaken]
  · cases ht
    exact hle
  · cases hb
    have htake : data.take offset' = data.take offset ++ part := by
      rw [hpart, ← List.take_add, Nat.add_sub_cancel' (Nat.le_of_lt hlt)]
    refine ⟨?_, fun i hi => ?_⟩
    · rw [segmentBytes_append, hbytes, htake, AssemblyLabel.bytes, if_pos rfl]
    · rw [List.length_take] at hi
      by_cases hi' : i < offset
      · exact (hsame i (by omega)).overwrite hpre
      · exact sameAt_overwrite_self _ hpre (by omega) (by omega)

/-- A step of a segment goes on with the download, or ends it. -/
theorem Assembling.segmentStep (h : J.Assembling service fs₀ ls s content held) {num : Nat}
    {t : SegmentTask}
    (ht : s.tasks[num]? = some t) {a : AssemblyLabel} {v : Segment}
    (hs : J.SegmentStep service num (segment s content t) a v) :
    (∃ held', J.Assembling service fs₀ (ls ++ [a]) (withSegment s num v) v.content held') ∨
      ∃ object held', J.Finished service fs₀ (ls ++ [a]) (withSegment s num v) v.content object
        held' := by
  have hok := h.segments num t ht
  cases hs with
  | @downloaded f data hv hdata =>
    obtain rfl : t = .download (.next f) := hv
    obtain ⟨n, hn⟩ := hdata.exists_eq
    obtain ⟨object, hobject, hlen, hrange⟩ := Service.downloadData_eq_ok hn
    refine .inl ⟨held, h.keep ht (fun ho => ho) rfl ⟨rfl, rfl⟩ (fun _ => rfl)
      (fun _ _ _ ha => by cases ha) ⟨fun data' hd => ?_, (fun _ _ _ ht => by cases ht),
      fun bytes hb => hok.written bytes hb⟩⟩
    cases hd
    exact ⟨Option.isSome_iff_exists.2 ⟨object, hobject⟩, hlen.trans (content.size_eq ..),
      by rwa [Service.bytes, hobject]⟩
  | @notDownloaded f e hv =>
    obtain rfl : t = .download (.next f) := hv
    exact .inl ⟨held, h.keep ht (fun ho => ho) rfl ⟨rfl, rfl⟩ (fun _ => rfl)
      (fun _ _ _ ha => by cases ha) ⟨(fun _ hd => by cases hd), (fun _ _ _ ht => by cases ht),
      fun bytes hb => hok.written bytes hb⟩⟩
  | @opened f data hv =>
    obtain rfl : t = .write (.next f) data := hv
    refine .inl ⟨held, h.keep ht (fun ho => ho) rfl ⟨rfl, rfl⟩ (fun _ => rfl)
      (fun _ _ _ ha => by cases ha) ⟨hok.range, fun _ _ _ ht => ?_,
      fun bytes hb => hok.written bytes hb⟩⟩
    cases ht
    exact Nat.zero_le _
  | @wrote f offset offset' data fs sys hv hchunk hlt =>
    obtain rfl : t = .writing f data offset := hv
    exact .inl (h.wrote ht hchunk hlt)
  | @notOpened f data e hv he =>
    obtain rfl : t = .write (.next f) data := hv
    refine .inl ⟨held, h.keep ht (fun ho => ho) rfl ⟨rfl, rfl⟩ (fun _ => rfl)
      (fun _ _ _ ha => by cases ha) (SegmentOk.given_up (hok.range data rfl) he f)⟩
  | @notWritten f offset data e hv he =>
    obtain rfl : t = .writing f data offset := hv
    exact .inl ⟨held, h.keep ht (fun ho => ho) rfl ⟨rfl, rfl⟩ (fun _ => rfl)
      (fun _ _ _ ha => by cases ha) (SegmentOk.given_up (hok.range data rfl) he f)⟩
  | @counted f offset data hv hend hfull =>
    obtain rfl : t = .writing f data offset := hv
    obtain ⟨-, -, -, hdestroyed⟩ := h.not_counted ht (fun ho => ho)
    refine .inl ⟨held, h.update ht (fun ho => ho) rfl
      (.inr ⟨rfl, rfl, false, data, rfl, fun hf => by cases hf⟩) rfl (h.holds hdestroyed)
      h.heldLength (fun _ hi => hi) ⟨rfl, rfl⟩ (fun _ _ => rfl) (fun _ _ _ ha => by cases ha)
      (SegmentOk.mono ⟨hok.range, (fun _ _ _ ht => by cases ht), fun bytes hb => ?_⟩ rfl
        fun _ hi => hi)⟩
    refine hok.written bytes ?_
    rwa [SegmentTask.written?, List.take_of_length_le hend]
  | @handed f offset data hv hend hfull hcompressed =>
    obtain rfl : t = .writing f data offset := hv
    obtain ⟨-, -, -, hdestroyed⟩ := h.not_counted ht (fun ho => ho)
    have hholds := h.holds hdestroyed
    obtain ⟨object, hfinished⟩ := h.finish ht hend hfull
      (v := { segment s content (.writing f data offset) with
        content := { content.count with deleteTempFile := false },
        task := .write (afterAttempt f none) data,
        decompressors := s.decompressors ++ [.run (.next 0)] })
      (a := .handed num (s.fs.contents content.localFile)) rfl rfl rfl
      (congrArg some hholds) (fun _ => rfl) (fun _ _ _ ha => by cases ha)
      (.handed 0 hcompressed rfl
        (show s.decompressors ++ [.run (.next 0)] = _ by rw [h.decompressors]; rfl)
        ((renames_append_of_none rfl).trans h.renames) h.target hholds)
    exact .inr ⟨object, held, hfinished⟩
  | @replaced f offset data fs hv hend hfull hcompressed hreplace =>
    obtain rfl : t = .writing f data offset := hv
    obtain ⟨-, -, -, hdestroyed⟩ := h.not_counted ht (fun ho => ho)
    have hholds := h.holds hdestroyed
    obtain ⟨n, hn⟩ := hreplace.exists_eq
    obtain ⟨d, hfile, hfs⟩ := DownloadContent.replaceTarget_eq_ok hn
    have htarget : fs content.count.targetFile =
        some (.file ⟨d.data, content.count.mtime, content.count.mode⟩) := by
      rw [hfs]
      exact Files.set_self ..
    have hheld := hholds
    rw [Files.contents, show s.fs content.localFile = some (.file d) from hfile] at hheld
    obtain rfl : d.data = held := Option.some.inj hheld
    obtain ⟨object, hfinished⟩ := h.finish ht hend hfull
      (v := { segment s content (.writing f data offset) with
        fs := fs, content := content.count, task := .write (afterAttempt f none) data })
      (a := .replaced num (s.fs.contents content.localFile) (fs content.targetFile)) rfl rfl rfl
      (congrArg some hholds) (fun _ => rfl) (fun _ _ _ ha => by cases ha)
      (.replaced hcompressed h.decompressors
        (by rw [renames_append, h.renames]; exact congrArg (fun x => [x]) htarget)
        (h.targetFile ▸ htarget))
    exact .inr ⟨object, d.data, hfinished⟩
  | @notReplaced f offset data fs e mtime mode hv hend hfull hcompressed he hfs =>
    obtain rfl : t = .writing f data offset := hv
    obtain ⟨-, -, -, hdestroyed⟩ := h.not_counted ht (fun ho => ho)
    have hkeep : fs J.path = s.fs J.path ∧ fs.contents content.localFile = some held := by
      rcases hfs with rfl | rfl
      · exact ⟨rfl, h.holds hdestroyed⟩
      · exact ⟨Files.touch_of_ne h.localFile.symm _ _,
          (Files.contents_touch ..).trans (h.holds hdestroyed)⟩
    exact .inl ⟨held, h.update ht (fun ho => ho) rfl
      (.inr ⟨rfl, rfl, true, data, congrArg (SegmentTask.write · data)
        (afterAttempt_of_not_retried he f), fun _ => hfull⟩)
      hkeep.1 hkeep.2 h.heldLength (fun _ hi => hi) ⟨rfl, rfl⟩ (fun _ _ => rfl)
      (fun _ _ _ ha => by cases ha)
      ((SegmentOk.given_up (hok.range data rfl) he f).mono rfl fun _ hi => hi)⟩

/-! ## The steps of a run -/

/-- Only a task that the executor is not done with has a step. -/
theorem SegmentStep.not_over {num : Nat} {v w : Segment} {a : AssemblyLabel}
    (h : J.SegmentStep service num v a w) : ¬ v.task.Over := by
  cases h with
  | downloaded hv | notDownloaded _ hv | opened hv | wrote _ hv | notOpened _ hv
  | notWritten _ hv | counted hv | handed hv | replaced hv | notReplaced _ _ _ hv =>
    rw [hv]
    exact fun ho => ho

/-- Where nothing is at the target, or `delete_dir_` is not set, clearing it changes nothing there. -/
theorem clear_path {fs : Files} (h : J.deleteDir = false ∨ fs J.path = none) :
    J.clear fs J.path = fs J.path := by
  rcases h with hd | hnone
  · rw [clear, hd]
    rfl
  · rw [hnone, clear_of_none hnone]

/-- A job that waits still waits after a step, or has created its temporary file. -/
theorem Waiting.step (hdelete : J.deleteDir = false ∨ fs₀ J.path = none)
    (h : J.Waiting fs₀ ls s) {a : AssemblyLabel} {u : Assembly} (hs : J.Step service s a u) :
    J.Waiting fs₀ (ls ++ [a]) u ∨
      ∃ content held, J.Assembling service fs₀ (ls ++ [a]) u content held := by
  have hclear : J.clear s.fs J.path = s.fs J.path := clear_path (by rwa [h.target])
  have hchecked : ∀ r fs downloader, fs J.path = s.fs J.path →
      J.Waiting fs₀ (ls ++ [.checked r]) { s with fs := fs, downloader := downloader } :=
    fun r fs downloader hfs =>
    { made := h.made
      tasks := h.tasks
      decompressors := h.decompressors
      destroyed := h.destroyed
      target := hfs.trans h.target
      counted := (countedSegments_append_of_none rfl).trans h.counted
      finishes := (finishes_append_of_none rfl).trans h.finishes
      renames := (renames_append_of_none rfl).trans h.renames
      bytes := fun num => (segmentBytes_append_of_nil rfl).trans (h.bytes num)
      inOrder := h.inOrder.append fun _ _ _ ha => by cases ha }
  cases hs with
  | unchanged => exact .inl (hchecked _ _ _ hclear)
  | threw => exact .inl (hchecked _ _ _ hclear)
  | notCreated _ _ hne =>
    exact .inl (hchecked _ _ _ ((Files.unlink_of_ne _ hne.symm).trans hclear))
  | @created f mod segNum size random localFile fs fs' sys _ _ _ hseg _ hne hcreate hsize hupdate =>
    obtain ⟨n, hn⟩ := hseg.exists_eq
    obtain ⟨n', hn'⟩ := hcreate.exists_eq
    obtain ⟨n'', hn''⟩ := hupdate.exists_eq
    obtain ⟨d, hd, rfl⟩ := Files.unlink_create_eq_ok hn'
    obtain ⟨d', hd', rfl⟩ := Files.update_eq_ok hn''
    rw [Files.set_self] at hd'
    cases hd'
    refine .inr ⟨_, (d.allocate size).data, {
      segmentSize_pos := (segmentNumber_eq_ok hn).1
      made := rfl
      downloader := rfl
      targetFile := rfl
      localFile := hne
      numSegments := (segmentNumber_eq_ok hn).2
      length := by rw [h.tasks]; exact Nat.zero_le _
      decompressors := h.decompressors
      target := by
        rw [Files.set_set]
        exact (Files.set_of_ne hne.symm).trans (hclear.trans h.target)
      finishes := (finishes_append_of_none rfl).trans h.finishes
      renames := (renames_append_of_none rfl).trans h.renames
      inOrder := h.inOrder.append fun _ _ _ ha => by cases ha
      nodup := by rw [countedSegments_append_of_none rfl, h.counted]; exact List.nodup_nil
      count := by rw [countedSegments_append_of_none rfl, h.counted]; rfl
      counted := fun num hnum => by
        rw [countedSegments_append_of_none rfl, h.counted] at hnum
        cases hnum
      heldLength := by
        rw [FileData.allocate, hd, List.nil_append, List.length_replicate]
        exact hsize
      holds := fun _ => Files.contents_set_self ..
      segments := fun num t ht => by rw [h.tasks] at ht; cases ht
      unscheduled := fun num _ => (segmentBytes_append_of_nil rfl).trans (h.bytes num)
      gone := fun hd => by
        have : s.destroyed = true := hd
        rw [h.destroyed] at this
        cases this }⟩
  | scheduled hmade | segment hmade | destroyed hmade | decompressed _ hmade | released hmade =>
    rw [h.made] at hmade
    cases hmade
  | notDecompressed _ hd =>
    rw [h.decompressors] at hd
    cases hd

/-- A segment is scheduled. -/
theorem Assembling.scheduled (h : J.Assembling service fs₀ ls s content held)
    (hlt : s.tasks.length < content.numSegments) :
    J.Assembling service fs₀ (ls ++ [.scheduled])
      { s with tasks := s.tasks ++ [.download (.next 0)] } content held where
  segmentSize_pos := h.segmentSize_pos
  made := h.made
  downloader := h.downloader
  targetFile := h.targetFile
  localFile := h.localFile
  numSegments := h.numSegments
  length := by
    rw [List.length_append]
    exact hlt
  decompressors := h.decompressors
  target := h.target
  finishes := (finishes_append_of_none rfl).trans h.finishes
  renames := (renames_append_of_none rfl).trans h.renames
  inOrder := h.inOrder.append fun _ _ _ ha => by cases ha
  nodup := by rw [countedSegments_append_of_none rfl]; exact h.nodup
  count := by rw [countedSegments_append_of_none rfl]; exact h.count
  counted num hnum := by
    rw [countedSegments_append_of_none rfl] at hnum
    obtain ⟨fail, data, hdone, hf⟩ := h.counted num hnum
    refine ⟨fail, data, ?_, hf⟩
    rwa [List.getElem?_append_left (List.getElem?_eq_some_iff.1 hdone).1]
  heldLength := h.heldLength
  holds := h.holds
  segments num t ht := by
    rw [List.getElem?_append] at ht
    split at ht
    · exact (h.segments num t ht).mono rfl fun _ hi => hi
    · next hge =>
      obtain ⟨-, rfl⟩ := eq_of_getElem?_singleton ht
      refine ⟨(fun _ hd => by cases hd), (fun _ _ _ ht => by cases ht), fun bytes hb => ?_⟩
      cases hb
      rw [segmentBytes_append_of_nil rfl, h.unscheduled num (by omega)]
      exact ⟨rfl, fun i hi => absurd hi (Nat.not_lt_zero i)⟩
  unscheduled num hnum := by
    rw [List.length_append] at hnum
    rw [segmentBytes_append_of_nil rfl, h.unscheduled num (Nat.le_of_succ_le hnum)]
  gone hd := absurd (h.gone hd).1 (Nat.ne_of_lt hlt)

/-- The content is destroyed before the download has finished. -/
theorem Assembling.destroy (h : J.Assembling service fs₀ ls s content held)
    (hlength : s.tasks.length = content.numSegments) (hover : ∀ t ∈ s.tasks, t.Over) :
    J.Assembling service fs₀ (ls ++ [.destroyed])
      { s with fs := content.destroy s.fs, destroyed := true } content held where
  segmentSize_pos := h.segmentSize_pos
  made := h.made
  downloader := h.downloader
  targetFile := h.targetFile
  localFile := h.localFile
  numSegments := h.numSegments
  length := h.length
  decompressors := h.decompressors
  target := (content.destroy_of_ne s.fs h.localFile.symm).trans h.target
  finishes := (finishes_append_of_none rfl).trans h.finishes
  renames := (renames_append_of_none rfl).trans h.renames
  inOrder := h.inOrder.append fun _ _ _ ha => by cases ha
  nodup := by rw [countedSegments_append_of_none rfl]; exact h.nodup
  count := by rw [countedSegments_append_of_none rfl]; exact h.count
  counted num hnum := by
    rw [countedSegments_append_of_none rfl] at hnum
    exact h.counted num hnum
  heldLength := h.heldLength
  holds hd := by cases hd
  segments num t ht := (h.segments num t ht).mono rfl fun _ hi => hi
  unscheduled num hnum := (segmentBytes_append_of_nil rfl).trans (h.unscheduled num hnum)
  gone _ := ⟨hlength, hover⟩

/-- A job that puts its file together still does so after a step, or has just finished it. -/
theorem Assembling.step (h : J.Assembling service fs₀ ls s content held) {a : AssemblyLabel}
    {u : Assembly}
    (hs : J.Step service s a u) :
    (∃ content held, J.Assembling service fs₀ (ls ++ [a]) u content held) ∨
      ∃ content object held, J.Finished service fs₀ (ls ++ [a]) u content object held := by
  cases hs with
  | unchanged hd | threw _ hd | notCreated _ hd | created _ hd =>
    rw [h.downloader] at hd
    cases hd
  | scheduled hmade hlt =>
    cases h.made.symm.trans hmade
    exact .inl ⟨content, held, h.scheduled hlt⟩
  | segment hmade ht hstep =>
    cases h.made.symm.trans hmade
    rcases h.segmentStep ht hstep with ⟨held', h'⟩ | ⟨object, held', h'⟩
    · exact .inl ⟨_, held', h'⟩
    · exact .inr ⟨_, object, held', h'⟩
  | destroyed hmade hlength hover =>
    cases h.made.symm.trans hmade
    exact .inl ⟨content, held, h.destroy hlength hover⟩
  | decompressed _ _ hd | notDecompressed _ hd | released _ hd =>
    rw [h.decompressors] at hd
    cases hd

/-- A step that leaves the segments of a download that has finished. -/
theorem Finished.keep {object : Object} (h : J.Finished service fs₀ ls s content object held)
    {a : AssemblyLabel} {u : Assembly} (hmade : u.content = s.content)
    (hdownloader : u.downloader = s.downloader) (htasks : u.tasks = s.tasks)
    (hcounts : a.counts = none) (hfinishes : a.finishes = none) (hbytes : ∀ k, a.bytes k = [])
    (hwrote : ∀ k offset bytes, a ≠ .wrote k offset bytes)
    (hstage : J.Stage fs₀ (ls ++ [a]) u content held) :
    J.Finished service fs₀ (ls ++ [a]) u content object held where
  made := hmade.trans h.made
  downloader := hdownloader.trans h.downloader
  targetFile := h.targetFile
  localFile := h.localFile
  numSegments := h.numSegments
  length := htasks ▸ h.length
  tasks := htasks ▸ h.tasks
  stored := h.stored
  whole := h.whole
  heldLength := h.heldLength
  inOrder := h.inOrder.append fun k offset bytes ha => absurd ha (hwrote k offset bytes)
  written num hnum := by
    rw [countedSegments_append_of_none hcounts, segmentBytes_append_of_nil (hbytes num)]
    exact h.written num hnum
  finishes := (finishes_append_of_none hfinishes).trans h.finishes
  stage := hstage

/-- A job that has finished its file has done so once, and no step finishes it again. -/
theorem Finished.step {object : Object} (h : J.Finished service fs₀ ls s content object held)
    {a : AssemblyLabel} {u : Assembly} (hs : J.Step service s a u) :
    J.Finished service fs₀ (ls ++ [a]) u content object held := by
  cases hs with
  | unchanged hd | threw _ hd | notCreated _ hd | created _ hd =>
    rw [h.downloader] at hd
    cases hd
  | scheduled hmade hlt =>
    cases h.made.symm.trans hmade
    rw [h.length] at hlt
    exact absurd hlt (Nat.lt_irrefl _)
  | segment hmade ht hstep =>
    obtain ⟨data, rfl⟩ := h.tasks _ (List.mem_of_getElem? ht)
    exact absurd trivial hstep.not_over
  | destroyed hmade =>
    cases h.made.symm.trans hmade
    refine h.keep rfl rfl rfl rfl rfl (fun _ => rfl) (fun _ _ _ ha => by cases ha) ?_
    have htarget := content.destroy_of_ne s.fs h.localFile.symm
    have hren : renames (ls ++ [.destroyed]) = renames ls := renames_append_of_none rfl
    cases h.stage with
    | replaced hcompressed hds hrenames hfile =>
      exact .replaced hcompressed hds (hren.trans hrenames) (htarget.trans hfile)
    | handed f hcompressed hdelete hds hrenames hfile hholds =>
      refine .handed f hcompressed hdelete hds (hren.trans hrenames) (htarget.trans hfile) ?_
      show (content.destroy s.fs).contents content.localFile = _
      rw [content.destroy_of_not_deleted hdelete, hholds]
    | ended d hcompressed hds hd hfile =>
      rw [← hren, ← htarget] at hfile
      exact .ended d hcompressed hds hd hfile
  | @decompressed content' num f random fs sys hmade hd hfree hdecompress =>
    cases h.made.symm.trans hmade
    refine h.keep rfl rfl rfl rfl rfl (fun _ => rfl) (fun _ _ _ ha => by cases ha) ?_
    have hne : content.targetFile ≠ content.targetFile ++ '-' :: random := fun he =>
      absurd (List.self_eq_append_right.1 he) (List.cons_ne_nil _ _)
    obtain ⟨n, hn⟩ := hdecompress.exists_eq
    obtain ⟨d, hfile⟩ := fileDecompressor_eq_ok hne hn
    cases h.stage with
    | replaced _ hds => rw [hds] at hd; cases hd
    | handed g hcompressed _ hds hrenames =>
      rw [hds] at hd
      obtain ⟨rfl, -⟩ := eq_of_getElem?_singleton hd
      refine .ended (.run (.ended false)) hcompressed (by dsimp only; rw [hds]; rfl)
        (fun _ he => by cases he) (.inr ⟨d, ?_, h.targetFile ▸ hfile⟩)
      rw [renames_append, hrenames, hfile]
      rfl
    | ended e _ hds he =>
      rw [hds] at hd
      obtain ⟨-, rfl⟩ := eq_of_getElem?_singleton hd
      exact absurd rfl (he f)
  | @notDecompressed num f e hd hretried =>
    refine h.keep rfl rfl rfl rfl rfl (fun _ => rfl) (fun _ _ _ ha => by cases ha) ?_
    cases h.stage with
    | replaced _ hds => rw [hds] at hd; cases hd
    | handed g hcompressed _ hds hrenames hfile =>
      rw [hds] at hd
      obtain ⟨rfl, -⟩ := eq_of_getElem?_singleton hd
      refine .ended (.run (.ended true)) hcompressed ?_ (fun _ he => by cases he)
        (.inl ⟨(renames_append_of_none rfl).trans hrenames, hfile⟩)
      dsimp only
      rw [hds, afterAttempt_of_not_retried hretried]
      rfl
    | ended e _ hds he =>
      rw [hds] at hd
      obtain ⟨-, rfl⟩ := eq_of_getElem?_singleton hd
      exact absurd rfl (he f)
  | @released content' num fail hmade hd =>
    cases h.made.symm.trans hmade
    refine h.keep rfl rfl rfl rfl rfl (fun _ => rfl) (fun _ _ _ ha => by cases ha) ?_
    have htarget := Files.unlink_of_ne s.fs h.localFile.symm
    have hren : renames (ls ++ [.released]) = renames ls := renames_append_of_none rfl
    cases h.stage with
    | replaced _ hds => rw [hds] at hd; cases hd
    | handed _ _ _ hds =>
      rw [hds] at hd
      obtain ⟨-, he⟩ := eq_of_getElem?_singleton hd
      cases he
    | ended d hcompressed hds _ hfile =>
      rw [hds] at hd
      obtain ⟨rfl, -⟩ := eq_of_getElem?_singleton hd
      rw [← hren, ← htarget] at hfile
      exact .ended .deleted hcompressed (by dsimp only; rw [hds]; rfl) (fun _ he => by cases he)
        hfile

/-! ## Every run -/

/-- Every run of a job is in one of the three phases. -/
theorem Progress.of_run (hdelete : J.deleteDir = false ∨ fs₀ J.path = none)
    (h : (J.assemblyMachine service).Run (startAssembly fs₀) ls s) :
    J.Progress service fs₀ ls s := by
  refine h.invariant (.waiting ⟨rfl, rfl, rfl, rfl, rfl, rfl, rfl, rfl, fun _ => rfl, ?_⟩)
    fun ls t a u hprogress hs => ?_
  · intro ks num offset bytes ms he
    simp at he
  · cases hprogress with
    | waiting hw =>
      rcases hw.step hdelete hs with h' | ⟨content, held, h'⟩
      · exact .waiting h'
      · exact .assembling content held h'
    | assembling content held ha =>
      rcases ha.step hs with ⟨content', held', h'⟩ | ⟨content', object, held', h'⟩
      · exact .assembling content' held' h'
      · exact .finished content' object held' h'
    | finished content object held hf => exact .finished content object held (hf.step hs)

/-- A segment that was given up stays so. -/
theorem failed_step (hfailed : s.Failed) {a : AssemblyLabel} {u : Assembly}
    (hs : J.Step service s a u) : u.Failed := by
  obtain ⟨t, ht, hf⟩ := hfailed
  cases hs with
  | unchanged | threw | notCreated | created | destroyed | decompressed | notDecompressed
  | released => exact ⟨t, ht, hf⟩
  | scheduled => exact ⟨t, List.mem_append_left _ ht, hf⟩
  | segment _ hnum hstep =>
    refine ⟨t, mem_set_of_mem_ne hnum ht ?_, hf⟩
    rintro rfl
    exact hstep.not_over hf.over

/-- A job that has failed has finished no file, and renamed none. -/
theorem Progress.of_failed (h : J.Progress service fs₀ ls s) (hfailed : s.Failed) :
    finishes ls = [] ∧ renames ls = [] := by
  cases h with
  | waiting hw => exact ⟨hw.finishes, hw.renames⟩
  | assembling content held ha => exact ⟨ha.finishes, ha.renames⟩
  | finished content object held hf =>
    obtain ⟨t, ht, hft⟩ := hfailed
    obtain ⟨data, rfl⟩ := hf.tasks t ht
    cases hft

/-- Whatever the order of the tasks and whatever fails, a download without `delete_dir_` leaves the
target or replaces it by one rename, and finishes at most once, when every segment is written at its
place; if a segment is given up it never does. -/
theorem download_exactly_once (hdelete : J.deleteDir = false)
    (h : (J.assemblyMachine service).Run (startAssembly fs₀) ls s) :
    J.ExactlyOnce service fs₀ ls s := by
  have hfailed : s.Failed → ∀ (ms : List AssemblyLabel) (u : Assembly),
      (J.assemblyMachine service).Run s ms u →
        finishes (ls ++ ms) = [] ∧ renames (ls ++ ms) = [] := fun hf ms u hr =>
    (Progress.of_run (.inl hdelete) (h.append hr)).of_failed
      (hr.invariant (I := fun _ t => t.Failed) hf fun _ _ _ _ ht hs => failed_step ht hs)
  cases Progress.of_run (.inl hdelete) h with
  | waiting hw =>
    exact ⟨.inl ⟨hw.renames, hw.target⟩, fun hne => absurd hw.renames hne, .inl hw.finishes,
      hw.inOrder, hfailed⟩
  | assembling content held ha =>
    exact ⟨.inl ⟨ha.renames, ha.target⟩, fun hne => absurd ha.renames hne, .inl ha.finishes,
      ha.inOrder, hfailed⟩
  | finished content object held hf =>
    have hfinished := hf.finishes
    refine ⟨?_, fun _ hnil => ?_, .inr ⟨content, object, held, hf.made, hf.stored, hf.numSegments,
      hf.written, hf.finishes, hf.whole, hf.heldLength, fun hcompressed => ?_, fun num f hd => ?_⟩,
      hf.inOrder, hfailed⟩
    · cases hf.stage with
      | replaced _ _ hrenames hfile => exact .inr ⟨_, hrenames, hfile⟩
      | handed _ _ _ _ hrenames hfile => exact .inl ⟨hrenames, hfile⟩
      | ended _ _ _ _ hfile => exact hfile
    · rw [hnil] at hfinished
      cases hfinished
    · cases hf.stage with
      | replaced _ _ _ hfile => exact hfile
      | handed _ hc | ended _ hc => rw [hcompressed] at hc; cases hc
    · cases hf.stage with
      | replaced _ hds => rw [hds] at hd; cases hd
      | handed _ _ _ _ _ _ hholds => exact hholds
      | ended d _ hds hne =>
        rw [hds] at hd
        obtain ⟨-, rfl⟩ := eq_of_getElem?_singleton hd
        exact absurd rfl (hne f)

/-! ## A download of one byte -/

/-- A download with segments of one byte. -/
def oneByte : DownloadJob where
  segmentSize := 1
  sys := ⟨fun _ _ size => size, fun _ _ size => size, 0⟩
  zlib := ⟨Unit, (), fun _ _ _ _ => ⟨zOk, [], [], ()⟩, Unit, (), fun _ _ _ => ⟨zOk, [], [], ()⟩⟩
  scratchDir := "/tmp".toList
  path := "f".toList
  remote := ⟨"s3".toList, "b".toList, "/f".toList⟩
  deleteDir := false

/-- A service with an object of one byte. -/
def oneByteService : Service :=
  ⟨fun path => if path = oneByte.remote then some ⟨[], [7]⟩ else none, fun _ => none⟩

/-- The name of the temporary file. -/
def oneByteFile : Str := temporaryName oneByte.scratchDir oneByte.path false []

/-- The content that the headers of the object give. -/
def oneByteContent : DownloadContent :=
  FileDesc.content ⟨5, 1, 1, 0o644, false, true⟩ 1 oneByteFile oneByte.path

/-- No files. -/
def noFiles : Files := fun _ => none

/-- The temporary file alone. -/
def oneByteFiles (data : Bytes) : Files :=
  noFiles.set oneByteFile (some (.file ⟨data, 0, 0o600⟩))

/-- The download with the tasks of its segments. -/
def oneByteAssembly (fs : Files) (tasks : List SegmentTask) : Assembly :=
  ⟨fs, .ended false, some oneByteContent, tasks, [], false⟩

/-- Writing the file of one byte changes that file only. -/
theorem oneByteFiles_update (data data' : Bytes) (f : FileData → FileData)
    (hf : f ⟨data, 0, 0o600⟩ = ⟨data', 0, 0o600⟩) :
    ((oneByteFiles data).update oneByteFile f).Evals (.ok (oneByteFiles data')) := by
  have := Files.evals_update (Files.set_self noFiles oneByteFile (some (.file ⟨data, 0, 0o600⟩))) f
  rwa [Files.set_set, hf] at this

/-- The file of one byte is created. -/
theorem oneByte_created (deleteDir : Bool) : ({ oneByte with deleteDir := deleteDir }).Step
    oneByteService (startAssembly noFiles) .created (oneByteAssembly (oneByteFiles [0]) []) := by
  have hclear : ({ oneByte with deleteDir := deleteDir } : DownloadJob).clear noFiles = noFiles := by
    unfold clear
    split
    · funext q
      rw [Files.removeAll]
      split <;> rfl
    · rfl
  have hchanged : ¬ oneByte.Unchanged noFiles ⟨5, 1, 1, 0o644, false, true⟩ :=
    fun h => absurd h.2.1 (by decide)
  have hsegment : (segmentNumber 1 1).Evals (.ok 1) := segmentNumber_spec (by decide) (by decide)
  have hne : oneByteFile ≠ oneByte.path := by decide
  refine @Step.created { oneByte with deleteDir := deleteDir } oneByteService
    (startAssembly noFiles) 0 ⟨5, 1, 1, 0o644, false, true⟩ 1 1 [] oneByteFile (oneByteFiles []) _
    oneByte.sys rfl rfl (fun h => ?_) hsegment rfl hne ?_ (Nat.le_refl 1)
    (oneByteFiles_update [] [0] (FileData.allocate 1) rfl)
  · rw [startAssembly, hclear] at h
    exact hchanged h
  · show ((({ oneByte with deleteDir := deleteDir } : DownloadJob).clear noFiles |>.unlink
      oneByteFile).create oneByte.sys oneByteFile 0o600).Evals _
    rw [hclear, Files.unlink_of_none rfl]
    exact Files.evals_create rfl _ _

/-- The segment of one byte is fetched. -/
theorem oneByte_downloaded (deleteDir : Bool) :
    ({ oneByte with deleteDir := deleteDir }).SegmentStep oneByteService 0
    (segment (oneByteAssembly (oneByteFiles [0]) [.download (.next 0)]) oneByteContent
      (.download (.next 0))) (.downloaded 0 none)
    ⟨oneByteFiles [0], oneByteContent, .write (.next 0) [7], []⟩ :=
  @SegmentStep.downloaded { oneByte with deleteDir := deleteDir } oneByteService 0
    (segment (oneByteAssembly (oneByteFiles [0]) [.download (.next 0)]) oneByteContent
      (.download (.next 0))) 0 [7] rfl
    (Service.evals_downloadData
      (show oneByteService.objects oneByte.remote = some ⟨[], [7]⟩ from rfl) 0 1 (by decide)
      (fun h => by cases h))

/-- The segment of one byte is written. -/
theorem oneByte_wrote (deleteDir : Bool) :
    ({ oneByte with deleteDir := deleteDir }).SegmentStep oneByteService 0
    (segment (oneByteAssembly (oneByteFiles [0]) [.writing 0 [7] 0]) oneByteContent
      (.writing 0 [7] 0)) (.wrote 0 0 [7])
    ⟨oneByteFiles [7], oneByteContent, .writing 0 [7] 1, []⟩ :=
  @SegmentStep.wrote { oneByte with deleteDir := deleteDir } oneByteService 0
    (segment (oneByteAssembly (oneByteFiles [0]) [.writing 0 [7] 0]) oneByteContent
      (.writing 0 [7] 0)) 0 0 1 [7] (oneByteFiles [7]) oneByte.sys rfl
    ((oneByteFiles_update [0] [7] _ rfl).bind (Prog.evals_pure _)) Nat.zero_lt_one

/-- The file of one byte is renamed to its target. -/
theorem oneByte_replaced (deleteDir : Bool) :
    ({ oneByte with deleteDir := deleteDir }).SegmentStep oneByteService 0
    (segment (oneByteAssembly (oneByteFiles [7]) [.writing 0 [7] 1]) oneByteContent
      (.writing 0 [7] 1)) (.replaced 0 (some [7]) (some (.file ⟨[7], 5, 0o644⟩)))
    ⟨((oneByteFiles [7]).set oneByteFile none).set oneByte.path (some (.file ⟨[7], 5, 0o644⟩)),
      oneByteContent.count, .write (.ended false) [7], []⟩ :=
  @SegmentStep.replaced { oneByte with deleteDir := deleteDir } oneByteService 0
    (segment (oneByteAssembly (oneByteFiles [7]) [.writing 0 [7] 1]) oneByteContent
      (.writing 0 [7] 1)) 0 1 [7] _ rfl (Nat.le_refl 1) rfl rfl
    (DownloadContent.evals_replaceTarget oneByteContent.count (oneByteFiles [7])
      (Files.set_self ..) (by decide) (by decide))

/-- `download_exactly_once` for the run that downloads the byte. -/
theorem download_exactly_once_one : ∃ ls s,
    (oneByte.assemblyMachine oneByteService).Run (startAssembly noFiles) ls s ∧
      finishes ls = [some [7]] ∧ oneByte.ExactlyOnce oneByteService noFiles ls s := by
  have hrun : (oneByte.assemblyMachine oneByteService).Run (startAssembly noFiles)
      [.created, .scheduled, .downloaded 0 none, .opened 0, .wrote 0 0 [7],
        .replaced 0 (some [7]) (some (.file ⟨[7], 5, 0o644⟩))] _ :=
    .cons (oneByte_created false) <|
    .cons (Step.scheduled rfl Nat.zero_lt_one) <|
    .cons (Step.segment rfl rfl (oneByte_downloaded false)) <|
    .cons (Step.segment rfl rfl (SegmentStep.opened rfl rfl)) <|
    .cons (Step.segment rfl rfl (oneByte_wrote false)) <|
    .single (Step.segment rfl rfl (oneByte_replaced false))
  exact ⟨_, _, hrun, rfl, download_exactly_once rfl hrun⟩

end DownloadJob

end ExtremeS3
