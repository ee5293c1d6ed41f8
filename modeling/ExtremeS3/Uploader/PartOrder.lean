import ExtremeS3.Connection.Url
import ExtremeS3.Uploader.PartUpload

/-!
# The parts that a multipart upload is assembled from

`complete_multipart` lists the parts of an upload by their numbers, each with its etag. When a
`part_upload_task` calls it, every part has been uploaded under the id of the upload, the body lists
the numbers from `1` to the number of parts in order, and each with the etag that the latest upload
of the part was answered with (`complete_lists_parts`). The counter reaches the number of parts only
once, and before that no part is counted twice, so all of them are counted by then.
-/

namespace ExtremeS3

/-- The `Part` element in the body of `complete_multipart`. -/
def partElement (partNumber : Nat) (etag : String) : Str :=
  "<Part>\n".toList ++ "  <PartNumber>".toList ++ intToString partNumber ++
    "</PartNumber>\n".toList ++ "  <ETag>".toList ++ etag.toList ++ "</ETag>\n".toList ++
    "</Part>\n".toList

/-- The body of the request of `complete_multipart`. -/
def completeBody (etags : List String) : Str :=
  (etags.zipIdx.foldl (fun data e => data ++ partElement (e.2 + 1) e.1)
    "<CompleteMultipartUpload>".toList) ++ "</CompleteMultipartUpload>".toList

/-- The last value that is listed for a key. -/
def latest [DecidableEq κ] (k : κ) (l : List (κ × β)) : Option β :=
  l.foldl (fun r e => if e.1 = k then some e.2 else r) none

/-- The paths of the `upload_data` calls that returned, with the etags that they returned. -/
def PartUploads.uploads (s : PartUploads) (remote : S3Path) (uploadId : Str) :
    List (Str × String) :=
  s.stored.map fun e => ((remote.withQuery (partQuery e.1 uploadId)).path, e.2)

/-- The body lists the parts of an upload of `n` parts in order, each with the etag that the latest
upload of it under the id was answered with. -/
def ListsParts (n : Nat) (remote : S3Path) (uploadId : Str) (uploads : List (Str × String))
    (body : Str) : Prop :=
  ∃ etag : Nat → String,
    body = "<CompleteMultipartUpload>".toList ++
      (List.range n).flatMap (fun i => partElement (i + 1) (etag i)) ++
      "</CompleteMultipartUpload>".toList ∧
    ∀ i < n, latest (remote.withQuery (partQuery i uploadId)).path uploads = some (etag i)

/-- The last entry is the latest of its key. -/
theorem latest_concat [DecidableEq κ] (k j : κ) (b : β) (l : List (κ × β)) :
    latest k (l ++ [(j, b)]) = if j = k then some b else latest k l := by
  unfold latest
  rw [List.foldl_append]
  rfl

/-- The latest entry stays so if the keys are renamed. -/
theorem latest_map [DecidableEq κ] [DecidableEq κ'] {g : κ → κ'} (hg : Function.Injective g) (k : κ)
    (l : List (κ × β)) : latest (g k) (l.map fun e => (g e.1, e.2)) = latest k l := by
  unfold latest
  rw [List.foldl_map]
  simp only [hg.eq_iff]

/-- The etags are numbered from zero. -/
theorem zipIdx_eq_map_range (etags : List String) :
    etags.zipIdx = (List.range etags.length).map fun i => (etags.getD i "", i) := by
  refine List.ext_getElem (by simp) fun i h₁ h₂ => ?_
  simp only [List.length_zipIdx] at h₁
  simp [List.getElem?_eq_getElem h₁]

/-- The body lists the parts from one on, in their order. -/
theorem completeBody_eq (etags : List String) :
    completeBody etags = "<CompleteMultipartUpload>".toList ++
      (List.range etags.length).flatMap (fun i => partElement (i + 1) (etags.getD i "")) ++
      "</CompleteMultipartUpload>".toList := by
  unfold completeBody
  rw [List.foldl_append_eq_append, ← List.flatMap_def, zipIdx_eq_map_range, List.flatMap_map]

/-- Different parts are uploaded to different paths. -/
theorem partQuery_injective (remote : S3Path) (uploadId : Str) :
    Function.Injective fun num => (remote.withQuery (partQuery num uploadId)).path := by
  intro num num' h
  have hquery : '?' :: partQuery num uploadId = '?' :: partQuery num' uploadId :=
    List.append_cancel_left h
  have hnumber : intToString (num + 1) = intToString (num' + 1) :=
    List.append_cancel_left (List.append_cancel_right (List.append_cancel_right
      (List.cons.inj hquery).2))
  have := intToString_injective hnumber
  omega

/-! ## The etags -/

/-- The etag of a task between its call and its locked section, and that of a task that returned,
is the latest one of its part; the latter is recorded. -/
structure EtagInv (n : Nat) (s : PartUploads) : Prop where
  length : s.content.etags.length = n
  tasks : s.tasks.length = n
  uploaded : ∀ k f etag, s.tasks[k]? = some (.uploaded f etag) → latest k s.stored = some etag
  ended : ∀ k, s.tasks[k]? = some (.loop (.ended false)) →
    ∃ etag, s.content.etags[k]? = some etag ∧ latest k s.stored = some etag

/-- At the start no etag is known. -/
theorem EtagInv.start (n : Nat) : EtagInv n (.start n) where
  length := List.length_replicate
  tasks := List.length_replicate
  uploaded k f etag h := by simp [PartUploads.start, List.getElem?_replicate] at h
  ended k h := by simp [PartUploads.start, List.getElem?_replicate] at h

/-- A locked section records the latest etag of its part. -/
theorem EtagInv.bump {n : Nat} {s : PartUploads} (h : EtagInv n s) {num f : Nat} {etag : String}
    (ht : s.tasks[num]? = some (.uploaded f etag)) (a : Attempts)
    (calls : List (List String × Option Thrown)) :
    EtagInv n { s with
      content := s.content.bump num etag
      tasks := s.tasks.set num (.loop a)
      calls := calls } where
  length := List.length_set.trans h.length
  tasks := List.length_set.trans h.tasks
  uploaded k g e hk := by
    dsimp only at hk
    rw [getElem?_set_of_getElem? ht] at hk
    split at hk
    · cases hk
    · exact h.uploaded k g e hk
  ended k hk := by
    have hlt : num < s.content.etags.length := by
      rw [h.length, ← h.tasks]
      exact (List.getElem?_eq_some_iff.1 ht).1
    dsimp only at hk
    rw [getElem?_set_of_getElem? ht] at hk
    split at hk
    · next hnum =>
      subst hnum
      exact ⟨etag, List.getElem?_set_self hlt, h.uploaded num f etag ht⟩
    · next hnum =>
      simp only [UploadContent.bump, List.getElem?_set_ne hnum]
      exact h.ended k hk

/-- Every step keeps each etag the latest of its part. -/
theorem EtagInv.step {n : Nat} {s t : PartUploads} {a : PartLabel} (h : EtagInv n s)
    (hs : s.step a = some t) : EtagInv n t := by
  obtain ⟨num, f, etag, rfl, ht, rfl⟩ | ⟨num, f, e, rfl, ht, rfl⟩ |
    ⟨num, f, etag, rfl, ht, hne, rfl⟩ | ⟨num, f, etag, r, rfl, ht, he, rfl⟩ :=
    PartUploads.step_cases hs
  · refine ⟨h.length, List.length_set.trans h.tasks, fun k g e hk => ?_, fun k hk => ?_⟩
    · dsimp only at hk ⊢
      rw [getElem?_set_of_getElem? ht] at hk
      rw [latest_concat]
      split at hk
      · next hnum =>
        cases hk
        rw [if_pos hnum]
      · next hnum =>
        rw [if_neg hnum]
        exact h.uploaded k g e hk
    · dsimp only at hk ⊢
      rw [getElem?_set_of_getElem? ht] at hk
      rw [latest_concat]
      split at hk
      · cases hk
      · next hnum =>
        rw [if_neg hnum]
        exact h.ended k hk
  · refine ⟨h.length, List.length_set.trans h.tasks, fun k g e' hk => ?_, fun k hk => ?_⟩
    · dsimp only at hk
      rw [getElem?_set_of_getElem? ht] at hk
      split at hk
      · cases hk
      · exact h.uploaded k g e' hk
    · dsimp only at hk
      rw [returned_set ht (by simp) (by simp)] at hk
      exact h.ended k hk
  · exact h.bump ht _ _
  · exact h.bump ht _ _

/-- In every run each etag is the latest of its part. -/
theorem EtagInv.of_run {n : Nat} {ls : List PartLabel} {s : PartUploads}
    (h : (partMachine n).Run (.start n) ls s) : EtagInv n s :=
  h.invariant (I := fun _ s => EtagInv n s) (EtagInv.start n) fun _ _ _ _ hi hs => hi.step hs

/-! ## The call -/

/-- Before the call every other part has been counted. -/
theorem returned_of_completed {n : Nat} {ls : List PartLabel} {s t : PartUploads} {num : Nat}
    {r : Option Thrown} (h : (partMachine n).Run (.start n) ls s)
    (hs : s.step (.completed num r) = some t) {k : Nat} (hk : k < n) (hne : k ≠ num) :
    s.tasks[k]? = some (.loop (.ended false)) := by
  have hi := CountInv.of_run h
  have hrun : (partMachine n).Run (.start n) (ls ++ [.completed num r]) t := h.append (.single hs)
  have hit := CountInv.of_run hrun
  have hcount : s.content.numCompleted + 1 = n := by
    obtain ⟨f, etag, -, hreached, -⟩ := PartUploads.step_completed hs
    rw [hreached, hi.parts]
  have hnone : ∀ num' r', .completed num' r' ∉ ls := by
    intro num' r' hm
    have := hi.called num' r' hm
    omega
  have hrec : ¬ Recounted (ls ++ [.completed num r]) := by
    rintro ⟨ks, ms, num', e, heq, hm⟩
    rcases List.eq_nil_or_concat' ms with rfl | ⟨ms', b, rfl⟩
    · cases hm
    · rw [← List.cons_append, ← List.append_assoc] at heq
      have := (List.append_inj' heq rfl).1
      exact hnone num' (some e) (by rw [this]; simp)
  have hmem := mem_of_nodup_lt (counted_nodup hrun hrec) hit.lt (by
    rw [counted_append, List.length_append, ← hi.count, counted_completed, List.length_singleton]
    omega) hk
  rw [counted_append, List.mem_append, counted_completed, List.mem_singleton] at hmem
  rcases mem_counted.1 (hmem.resolve_right hne) with hb | ⟨r', hc⟩
  · exact (hi.returned k).2 (.inl hb)
  · exact absurd hc (hnone k r')

/-- The etags of a call are the latest ones. -/
theorem latest_of_completed {n : Nat} {ls : List PartLabel} {s t : PartUploads} {num : Nat}
    {r : Option Thrown} (h : (partMachine n).Run (.start n) ls s)
    (hs : s.step (.completed num r) = some t) :
    ∃ etags, t.calls = s.calls ++ [(etags, r)] ∧ t.stored = s.stored ∧ etags.length = n ∧
      ∀ k < n, latest k s.stored = some (etags.getD k "") := by
  have hi := EtagInv.of_run h
  have hit : EtagInv n t := hi.step hs
  have hret : ∀ k < n, k ≠ num → s.tasks[k]? = some (.loop (.ended false)) := fun k hk hne =>
    returned_of_completed h hs hk hne
  obtain ⟨f, etag, ht, -, rfl⟩ := PartUploads.step_completed hs
  refine ⟨_, rfl, rfl, hit.length, fun k hk => ?_⟩
  simp only [UploadContent.bump]
  rcases eq_or_ne k num with rfl | hne
  · rw [hi.uploaded k f etag ht, List.getD_eq_getElem?_getD,
      List.getElem?_set_self (by rw [hi.length]; exact hk), Option.getD_some]
  · obtain ⟨e, he, hlatest⟩ := hi.ended k (hret k hk hne)
    rw [hlatest, List.getD_eq_getElem?_getD, List.getElem?_set_ne hne.symm, he, Option.getD_some]

/-- Once there was a call, all parts are uploaded. -/
theorem latest_of_calls {n : Nat} {ls : List PartLabel} {s : PartUploads}
    (h : (partMachine n).Run (.start n) ls s) (hc : s.calls ≠ []) :
    ∀ k < n, (latest k s.stored).isSome := by
  induction h with
  | nil => exact absurd rfl hc
  | @snoc ls s a t hrun hs ih =>
    obtain ⟨num, f, etag, rfl, ht, rfl⟩ | ⟨num, f, e, rfl, ht, rfl⟩ |
      ⟨num, f, etag, rfl, ht, hne, rfl⟩ | ⟨num, f, etag, r, rfl, ht, he, rfl⟩ :=
      PartUploads.step_cases hs
    · intro k hk
      dsimp only
      rw [latest_concat]
      split
      · rfl
      · exact ih hc k hk
    · exact ih hc
    · exact ih hc
    · obtain ⟨etags, -, -, -, hlatest⟩ := latest_of_completed hrun hs
      intro k hk
      rw [hlatest k hk]
      rfl

/-- A key that is not there has no latest entry. -/
theorem latest_eq_none [DecidableEq κ] {k : κ} {l : List (κ × β)} (h : k ∉ l.map Prod.fst) :
    latest k l = none := by
  induction l using List.reverseRecOn with
  | nil => rfl
  | append_singleton l e ih =>
    rw [List.map_append, List.mem_append, not_or, List.map_singleton, List.mem_singleton] at h
    rw [latest_concat, if_neg (Ne.symm h.2)]
    exact ih h.1

/-- A task that has given up stays as it is, and its part is not uploaded any more. -/
theorem gaveUp_of_run {n : Nat} {ls : List PartLabel} {s t : PartUploads} {k : Nat}
    (h : (partMachine n).Run s ls t) (hk : s.tasks[k]? = some (.loop (.ended true)))
    (hnot : k ∉ s.stored.map Prod.fst) :
    t.tasks[k]? = some (.loop (.ended true)) ∧ k ∉ t.stored.map Prod.fst := by
  refine h.invariant (I := fun _ t => t.tasks[k]? = some (.loop (.ended true)) ∧
    k ∉ t.stored.map Prod.fst) ⟨hk, hnot⟩ fun _ s a t hi hs => ?_
  obtain ⟨hk, hnot⟩ := hi
  have hset : ∀ {num x}, s.tasks[num]? = some x → x ≠ .loop (.ended true) → num ≠ k := by
    rintro num x hx hne rfl
    exact hne (Option.some.inj (hx.symm.trans hk))
  obtain ⟨num, f, etag, rfl, ht, rfl⟩ | ⟨num, f, e, rfl, ht, rfl⟩ |
    ⟨num, f, etag, rfl, ht, hne, rfl⟩ | ⟨num, f, etag, r, rfl, ht, he, rfl⟩ :=
    PartUploads.step_cases hs
  all_goals have hnum := hset ht (by simp)
  · refine ⟨(List.getElem?_set_ne hnum).trans hk, ?_⟩
    rw [List.map_append, List.mem_append, not_or]
    exact ⟨hnot, fun hm => hnum (List.mem_singleton.1 hm).symm⟩
  all_goals exact ⟨(List.getElem?_set_ne hnum).trans hk, hnot⟩

/-- In every run of the tasks of an upload of `n` parts, a call of `complete_multipart` lists all
parts in order, each with the etag of its latest upload under the id of the call, and there never is
a call if a task has given up before its part was uploaded. -/
theorem complete_lists_parts {n : Nat} {ls : List PartLabel} {s : PartUploads}
    (h : (partMachine n).Run (.start n) ls s) (remote : S3Path) (uploadId : Str) :
    (∀ num r t, s.step (.completed num r) = some t → ∃ etags,
      t.calls = s.calls ++ [(etags, r)] ∧
      ListsParts n remote uploadId (s.uploads remote uploadId) (completeBody etags)) ∧
    ∀ k, s.tasks[k]? = some (.loop (.ended true)) → k ∉ s.stored.map Prod.fst →
      ∀ ms t, (partMachine n).Run s ms t → t.calls = [] := by
  constructor
  · intro num r t hs
    obtain ⟨etags, hcalls, -, hlen, hlatest⟩ := latest_of_completed h hs
    refine ⟨etags, hcalls, fun i => etags.getD i "", ?_, fun i hi => ?_⟩
    · rw [completeBody_eq, hlen]
    · rw [← hlatest i hi]
      exact latest_map (partQuery_injective remote uploadId) i s.stored
  · intro k hk hnot ms t ht
    by_contra hc
    have hlt : k < n := by
      rw [← (EtagInv.of_run h).tasks]
      exact (List.getElem?_eq_some_iff.1 hk).1
    have := latest_of_calls (h.append ht) hc k hlt
    rw [latest_eq_none (gaveUp_of_run ht hk hnot).2] at this
    cases this

/-- A state of an upload of two parts: the first one counted, and the second one uploaded in its
second attempt. -/
def twoUploaded : PartUploads where
  content := ⟨2, 1, ["e0", ""]⟩
  tasks := [.loop (.ended false), .uploaded 1 "e1"]
  stored := [(0, "e0"), (1, "e1")]
  calls := []

/-- `complete_lists_parts` at the call for two parts. -/
theorem complete_lists_parts_two : ∃ etags,
    (twoUploaded.step (.completed 1 none)).map PartUploads.calls = some [(etags, none)] ∧
    ListsParts 2 someDirectory "u".toList (twoUploaded.uploads someDirectory "u".toList)
      (completeBody etags) := by
  have hrun : (partMachine 2).Run (.start 2) [.uploadData 1 (.error (.es3 .errWarn)),
      .uploadData 0 (.ok "e0"), .bumped 0, .uploadData 1 (.ok "e1")] twoUploaded :=
    .cons rfl (.cons rfl (.cons rfl (.single rfl)))
  obtain ⟨etags, hcalls, h⟩ :=
    (complete_lists_parts hrun someDirectory "u".toList).1 1 none _ rfl
  exact ⟨etags, congrArg some hcalls, h⟩

end ExtremeS3
