import ExtremeS3.Errors
import ExtremeS3.Lib.Lists
import ExtremeS3.Lib.Machine

/-!
# The part uploads of one multipart upload

`file_uploader::start_upload` numbers the parts of an upload from `0` and its pumps schedule one
`part_upload_task` for each. The tasks share the `upload_content`: each uploads its segment without
the lock and then, in one section under `lock_`, bumps `num_completed_`, records its etag and, if
the counter has reached `num_parts_`, calls `complete_multipart` while it still holds the lock. So
a run of the tasks is an interleaving of two kinds of atomic step: the answer to an `upload_data`
call, and a locked section with the answer to the call it makes, if it makes one. An exception of
either call goes to the executor's retry loop (`afterAttempt`), and a retried attempt starts from
`upload_data` again.

The counter is bumped before the call is answered, so an attempt whose `complete_multipart` fails
has been counted already. `part_uploads_assembled_iff` says when this matters: a run meets its
purpose exactly when no task enters its locked section again after its own call failed.
-/

namespace ExtremeS3

/-- The fields of `upload_content` that the tasks change or test. -/
structure UploadContent where
  numParts : Nat
  numCompleted : Nat
  etags : List String
  deriving DecidableEq, Repr

/-- Where the run of one `part_upload_task` stands: in the executor's loop, or between the answer
of `upload_data` in attempt `f` and the locked section. -/
inductive PartTask where
  | loop (a : Attempts)
  | uploaded (f : Nat) (etag : String)
  deriving DecidableEq, Repr

/-- The upload with the tasks of its parts. `stored` lists the `upload_data` calls that returned,
as segment numbers with etags, and `calls` the `complete_multipart` calls, as the etags sent with
what the call threw. -/
structure PartUploads where
  content : UploadContent
  tasks : List PartTask
  stored : List (Nat × String)
  calls : List (List String × Option Thrown)
  deriving DecidableEq, Repr

/-- The atomic steps. `uploadData` is an answer to the task's `upload_data` call, `bumped` a locked
section that only counts the part, `completed` one that reaches the number of parts, with the
answer to its `complete_multipart` call. -/
inductive PartLabel where
  | uploadData (num : Nat) (answer : Except Thrown String)
  | bumped (num : Nat)
  | completed (num : Nat) (answer : Option Thrown)
  deriving Repr

/-- The content after `content_->num_completed_++` and `content_->etags_.at(num_) = etag`. The
segment numbers are below `num_parts_`, so `at` does not throw. -/
def UploadContent.bump (c : UploadContent) (num : Nat) (etag : String) : UploadContent :=
  { c with numCompleted := c.numCompleted + 1, etags := c.etags.set num etag }

/-- One atomic step, if the task it belongs to is where the step starts. -/
def PartUploads.step (s : PartUploads) : PartLabel → Option PartUploads
  | .uploadData num answer =>
    match s.tasks[num]?, answer with
    | some (.loop (.next f)), .ok etag =>
      some { s with
        tasks := s.tasks.set num (.uploaded f etag), stored := s.stored ++ [(num, etag)] }
    | some (.loop (.next f)), .error e =>
      some { s with tasks := s.tasks.set num (.loop (afterAttempt f (some e))) }
    | _, _ => none
  | .bumped num =>
    match s.tasks[num]? with
    | some (.uploaded f etag) =>
      let c := s.content.bump num etag
      if c.numCompleted = c.numParts then none
      else some { s with content := c, tasks := s.tasks.set num (.loop (afterAttempt f none)) }
    | _ => none
  | .completed num answer =>
    match s.tasks[num]? with
    | some (.uploaded f etag) =>
      let c := s.content.bump num etag
      if c.numCompleted = c.numParts then
        some { s with
          content := c, tasks := s.tasks.set num (.loop (afterAttempt f answer)),
          calls := s.calls ++ [(c.etags, answer)] }
      else none
    | _ => none

/-- What `start_upload` and the pumps leave for `n` parts: no part counted, `n` empty etags, and a
task for each part before its first attempt. -/
def PartUploads.start (n : Nat) : PartUploads where
  content := ⟨n, 0, List.replicate n ""⟩
  tasks := List.replicate n (.loop (.next 0))
  stored := []
  calls := []

/-- The interleavings of the `n` tasks. -/
def partMachine (n : Nat) : Machine PartUploads PartLabel where
  init s := s = .start n
  step s a t := s.step a = some t

/-- Every task has ended with `fail=false`. -/
def PartUploads.allReturned (s : PartUploads) : Prop :=
  ∀ t ∈ s.tasks, t = .loop (.ended false)

/-- Some call to `complete_multipart` has returned normally. -/
def PartUploads.assembled (s : PartUploads) : Prop :=
  ∃ etags, (etags, none) ∈ s.calls

/-! ## What one step can do -/

/-- The step of a task: what it leaves of each field, and where the task stands before and after
it. -/
theorem PartUploads.step_cases {s t : PartUploads} {a : PartLabel} (h : s.step a = some t) :
    (∃ num f etag, a = .uploadData num (.ok etag) ∧ s.tasks[num]? = some (.loop (.next f)) ∧
      t = { s with
        tasks := s.tasks.set num (.uploaded f etag), stored := s.stored ++ [(num, etag)] }) ∨
    (∃ num f e, a = .uploadData num (.error e) ∧ s.tasks[num]? = some (.loop (.next f)) ∧
      t = { s with tasks := s.tasks.set num (.loop (afterAttempt f (some e))) }) ∨
    (∃ num f etag, a = .bumped num ∧ s.tasks[num]? = some (.uploaded f etag) ∧
      s.content.numCompleted + 1 ≠ s.content.numParts ∧
      t = { s with
        content := s.content.bump num etag,
        tasks := s.tasks.set num (.loop (.ended false)) }) ∨
    (∃ num f etag r, a = .completed num r ∧ s.tasks[num]? = some (.uploaded f etag) ∧
      s.content.numCompleted + 1 = s.content.numParts ∧
      t = { s with
        content := s.content.bump num etag,
        tasks := s.tasks.set num (.loop (afterAttempt f r)),
        calls := s.calls ++ [((s.content.bump num etag).etags, r)] }) := by
  cases a with
  | uploadData num answer =>
    simp only [step] at h
    split at h
    · next f etag ht => exact .inl ⟨num, f, etag, rfl, ht, (Option.some.inj h).symm⟩
    · next f e ht => exact .inr (.inl ⟨num, f, e, rfl, ht, (Option.some.inj h).symm⟩)
    · cases h
  | bumped num =>
    simp only [step] at h
    split at h
    · next f etag ht =>
      split at h
      · cases h
      · next hne => exact .inr (.inr (.inl ⟨num, f, etag, rfl, ht, hne, (Option.some.inj h).symm⟩))
    · cases h
  | completed num r =>
    simp only [step] at h
    split at h
    · next f etag ht =>
      split at h
      · next he =>
        exact .inr (.inr (.inr ⟨num, f, etag, r, rfl, ht, he, (Option.some.inj h).symm⟩))
      · cases h
    · cases h

/-- The locked section that makes the call. -/
theorem PartUploads.step_completed {s t : PartUploads} {num : Nat} {r : Option Thrown}
    (h : s.step (.completed num r) = some t) :
    ∃ f etag, s.tasks[num]? = some (.uploaded f etag) ∧
      s.content.numCompleted + 1 = s.content.numParts ∧
      t = { s with
        content := s.content.bump num etag,
        tasks := s.tasks.set num (.loop (afterAttempt f r)),
        calls := s.calls ++ [((s.content.bump num etag).etags, r)] } := by
  obtain ⟨_, _, _, ha, -⟩ | ⟨_, _, _, ha, -⟩ | ⟨_, _, _, ha, -⟩ |
    ⟨num', f, etag, r', ha, ht, he, rfl⟩ := PartUploads.step_cases h
  · cases ha
  · cases ha
  · cases ha
  · cases ha
    exact ⟨f, etag, ht, he, rfl⟩

/-! ## The counter, and the tasks that returned -/

/-- The segment a locked section counts. -/
def PartLabel.counts : PartLabel → Option Nat
  | .uploadData .. => none
  | .bumped num | .completed num _ => some num

/-- The segments counted by the labels, in order. -/
def counted (ls : List PartLabel) : List Nat := ls.filterMap PartLabel.counts

@[simp] theorem counted_append (ks ls : List PartLabel) :
    counted (ks ++ ls) = counted ks ++ counted ls := List.filterMap_append

@[simp] theorem counted_uploadData (num : Nat) (r : Except Thrown String) :
    counted [.uploadData num r] = [] := rfl

@[simp] theorem counted_bumped (num : Nat) : counted [.bumped num] = [num] := rfl

@[simp] theorem counted_completed (num : Nat) (r : Option Thrown) :
    counted [.completed num r] = [num] := rfl

/-- What the labels of a run say about its last state, for an upload of `n` parts: the counter
counts the locked sections, a task has returned exactly when its last locked section ended
normally, and a call is made exactly when the counter reaches `n`. -/
structure CountInv (n : Nat) (ls : List PartLabel) (s : PartUploads) : Prop where
  parts : s.content.numParts = n
  length : s.tasks.length = n
  count : s.content.numCompleted = (counted ls).length
  lt : ∀ num ∈ counted ls, num < n
  returned : ∀ num, s.tasks[num]? = some (.loop (.ended false)) ↔
    .bumped num ∈ ls ∨ .completed num none ∈ ls
  reached : 0 < n → n ≤ s.content.numCompleted → ∃ num r, .completed num r ∈ ls
  called : ∀ num r, .completed num r ∈ ls → n ≤ s.content.numCompleted
  assembled : ∀ num, .completed num none ∈ ls → s.assembled

/-- Replacing a task that has not returned by one that has not either keeps the tasks that have. -/
theorem returned_set {l : List PartTask} {num : Nat} {x y : PartTask} (h : l[num]? = some x)
    (hx : x ≠ .loop (.ended false)) (hy : y ≠ .loop (.ended false)) (k : Nat) :
    (l.set num y)[k]? = some (.loop (.ended false)) ↔ l[k]? = some (.loop (.ended false)) := by
  rw [getElem?_set_of_getElem? h]
  split
  · next hk => subst hk; simp [h, hx, hy]
  · rfl

/-- Replacing a task that has not returned by one that has adds it to those that have. -/
theorem returned_set_self {l : List PartTask} {num : Nat} {x : PartTask} (h : l[num]? = some x)
    (k : Nat) : (l.set num (.loop (.ended false)))[k]? = some (.loop (.ended false)) ↔
      num = k ∨ l[k]? = some (.loop (.ended false)) := by
  rw [getElem?_set_of_getElem? h]
  by_cases hk : num = k <;> simp [hk]

/-- An answer to `upload_data` counts nothing and returns from no task. -/
theorem CountInv.uploadData {n : Nat} {ls : List PartLabel} {s : PartUploads} {num : Nat}
    {x y : PartTask} (hi : CountInv n ls s) (h : s.tasks[num]? = some x)
    (hx : x ≠ .loop (.ended false)) (hy : y ≠ .loop (.ended false)) (r : Except Thrown String)
    (st : List (Nat × String)) :
    CountInv n (ls ++ [.uploadData num r])
      { s with tasks := s.tasks.set num y, stored := st } where
  parts := hi.parts
  length := by simpa using hi.length
  count := by simpa using hi.count
  lt := by simpa using hi.lt
  returned k := by
    rw [returned_set h hx hy]
    simpa using hi.returned k
  reached h0 hn := by simpa using hi.reached h0 hn
  called k r hm := hi.called k r (by simpa using hm)
  assembled k hm := hi.assembled k (by simpa using hm)

/-- Only parts of the upload are counted. -/
theorem CountInv.lt_append {n : Nat} {ls : List PartLabel} {s : PartUploads} {num : Nat}
    {x : PartTask} (hi : CountInv n ls s) (h : s.tasks[num]? = some x) :
    ∀ k ∈ counted ls ++ [num], k < n := by
  intro k hk
  rcases List.mem_append.1 hk with hk | hk
  · exact hi.lt k hk
  · rw [List.mem_singleton.1 hk, ← hi.length]
    exact (List.getElem?_eq_some_iff.1 h).1

/-- A section that does not count the last part. -/
theorem CountInv.bumped {n : Nat} {ls : List PartLabel} {s : PartUploads} {num f : Nat}
    {etag : String} (hi : CountInv n ls s) (ht : s.tasks[num]? = some (.uploaded f etag))
    (hne : s.content.numCompleted + 1 ≠ s.content.numParts) :
    CountInv n (ls ++ [.bumped num])
      { s with
        content := s.content.bump num etag, tasks := s.tasks.set num (.loop (.ended false)) } where
  parts := hi.parts
  length := by simpa using hi.length
  count := by simp [UploadContent.bump, hi.count]
  lt := by
    rw [counted_append]
    exact hi.lt_append ht
  returned k := by
    rw [returned_set_self ht, hi.returned k]
    simp only [List.mem_append, List.mem_singleton, PartLabel.bumped.injEq, reduceCtorEq, or_false]
    grind
  reached h0 hn := by
    have hp := hi.parts
    simp only [UploadContent.bump] at hn
    obtain ⟨k, r, hm⟩ := hi.reached h0 (by omega)
    exact ⟨k, r, List.mem_append_left _ hm⟩
  called k r hm := by
    have := hi.called k r (by simpa using hm)
    simp only [UploadContent.bump]
    omega
  assembled k hm := hi.assembled k (by simpa using hm)

/-- The section that counts the last part, and makes the call. -/
theorem CountInv.completed {n : Nat} {ls : List PartLabel} {s : PartUploads} {num f : Nat}
    {etag : String} (hi : CountInv n ls s) (ht : s.tasks[num]? = some (.uploaded f etag))
    (he : s.content.numCompleted + 1 = s.content.numParts) (r : Option Thrown) :
    CountInv n (ls ++ [.completed num r])
      { s with
        content := s.content.bump num etag, tasks := s.tasks.set num (.loop (afterAttempt f r)),
        calls := s.calls ++ [((s.content.bump num etag).etags, r)] } where
  parts := hi.parts
  length := by simpa using hi.length
  count := by simp [UploadContent.bump, hi.count]
  lt := by
    rw [counted_append]
    exact hi.lt_append ht
  returned k := by
    cases r with
    | none =>
      simp only [afterAttempt_none]
      rw [returned_set_self ht, hi.returned k]
      simp only [List.mem_append, List.mem_singleton, PartLabel.completed.injEq, and_true,
        reduceCtorEq, or_false]
      grind
    | some e =>
      rw [returned_set ht (by simp) (by simp)]
      simpa using hi.returned k
  reached _ _ := ⟨num, r, by simp⟩
  called _ _ _ := by
    have hp := hi.parts
    simp only [UploadContent.bump]
    omega
  assembled k hm := by
    rcases List.mem_append.1 hm with hm | hm
    · obtain ⟨etags, hm⟩ := hi.assembled k hm
      exact ⟨etags, List.mem_append_left _ hm⟩
    · cases List.mem_singleton.1 hm
      exact ⟨_, List.mem_append_right _ (List.mem_singleton.2 rfl)⟩

/-- Every step keeps the count that of the parts that were counted. -/
theorem CountInv.step {n : Nat} {ls : List PartLabel} {s t : PartUploads} {a : PartLabel}
    (hi : CountInv n ls s) (h : s.step a = some t) : CountInv n (ls ++ [a]) t := by
  obtain ⟨num, f, etag, rfl, ht, rfl⟩ | ⟨num, f, e, rfl, ht, rfl⟩ |
    ⟨num, f, etag, rfl, ht, hne, rfl⟩ | ⟨num, f, etag, r, rfl, ht, he, rfl⟩ :=
    PartUploads.step_cases h
  · exact hi.uploadData ht (by simp) (by simp) _ _
  · exact hi.uploadData ht (by simp) (by simp) _ _
  · exact hi.bumped ht hne
  · exact hi.completed ht he r

/-- At the start nothing is counted. -/
theorem CountInv.start (n : Nat) : CountInv n [] (.start n) where
  parts := rfl
  length := List.length_replicate
  count := rfl
  lt := nofun
  returned k := by simp [PartUploads.start, List.getElem?_replicate]
  reached h0 hn := absurd (Nat.le_zero.1 hn) (Nat.pos_iff_ne_zero.1 h0)
  called := nofun
  assembled := nofun

/-- In every run the count is that of the parts that were counted. -/
theorem CountInv.of_run {n : Nat} {ls : List PartLabel} {s : PartUploads}
    (h : (partMachine n).Run (.start n) ls s) : CountInv n ls s :=
  h.invariant (CountInv.start n) fun _ _ _ _ hi hs => hi.step hs

/-! ## Counting a part twice -/

/-- Some task enters its locked section again after its own `complete_multipart` call failed: it
was retried, and `upload_data` of the retried attempt succeeded. -/
def Recounted (ls : List PartLabel) : Prop :=
  ∃ ks ms num e, ls = ks ++ .completed num (some e) :: ms ∧ num ∈ counted ms

/-- A part that is counted twice stays so. -/
theorem Recounted.append {ks : List PartLabel} (h : Recounted ks) (ls : List PartLabel) :
    Recounted (ks ++ ls) := by
  obtain ⟨ps, ms, num, e, rfl, hm⟩ := h
  exact ⟨ps, ms ++ ls, num, e, by simp, by simp [hm]⟩

/-- A locked section of the task is one of the labels. -/
theorem mem_counted {ls : List PartLabel} {num : Nat} :
    num ∈ counted ls ↔ .bumped num ∈ ls ∨ ∃ r, .completed num r ∈ ls := by
  simp only [counted, List.mem_filterMap]
  constructor
  · rintro ⟨a, ha, hc⟩
    cases a with
    | uploadData => cases hc
    | bumped k => cases hc; exact .inl ha
    | completed k r => cases hc; exact .inr ⟨r, ha⟩
  · rintro (h | ⟨r, h⟩)
    · exact ⟨_, h, rfl⟩
    · exact ⟨_, h, rfl⟩

/-- Without a recount, a task about to enter its locked section has not been counted yet. -/
theorem CountInv.not_mem_counted {n : Nat} {ls : List PartLabel} {s : PartUploads} {a : PartLabel}
    {num f : Nat} {etag : String} (hi : CountInv n ls s)
    (ht : s.tasks[num]? = some (.uploaded f etag)) (ha : counted [a] = [num])
    (hr : ¬ Recounted (ls ++ [a])) : num ∉ counted ls := by
  intro hm
  have hnot : ¬ s.tasks[num]? = some (.loop (.ended false)) := by simp [ht]
  rcases mem_counted.1 hm with hb | ⟨r, hc⟩
  · exact hnot ((hi.returned num).2 (.inl hb))
  · cases r with
    | none => exact hnot ((hi.returned num).2 (.inr hc))
    | some e =>
      obtain ⟨ks, ms, rfl⟩ := List.append_of_mem hc
      exact hr ⟨ks, ms ++ [a], num, e, by simp, by simp [ha]⟩

/-- Without a recount every task is counted once. -/
theorem counted_nodup {n : Nat} {ls : List PartLabel} {s : PartUploads}
    (h : (partMachine n).Run (.start n) ls s) (hr : ¬ Recounted ls) : (counted ls).Nodup := by
  induction h with
  | nil => exact .nil
  | @snoc ls s a t hrun hs ih =>
    have ih := ih fun h => hr (h.append _)
    have hi := CountInv.of_run hrun
    have key : ∀ num f etag, s.tasks[num]? = some (.uploaded f etag) → counted [a] = [num] →
        (counted (ls ++ [a])).Nodup := by
      intro num f etag ht ha
      have := hi.not_mem_counted ht ha hr
      rw [counted_append, ha, List.nodup_append]
      exact ⟨ih, List.nodup_singleton num, fun x hx y hy hxy =>
        this (List.mem_singleton.1 hy ▸ hxy ▸ hx)⟩
    obtain ⟨num, f, etag, rfl, ht, rfl⟩ | ⟨num, f, e, rfl, ht, rfl⟩ |
      ⟨num, f, etag, rfl, ht, hne, rfl⟩ | ⟨num, f, etag, r, rfl, ht, he, rfl⟩ :=
      PartUploads.step_cases hs
    · simpa using ih
    · simpa using ih
    · exact key num f etag ht rfl
    · exact key num f etag ht rfl

/-- The answer to a task's only locked section is not contradicted by its having returned. -/
theorem CountInv.completed_none {n : Nat} {ls : List PartLabel} {s : PartUploads} {num : Nat}
    {r : Option Thrown} (hi : CountInv n ls s) (hd : (counted ls).Nodup)
    (hm : .completed num r ∈ ls) (hs : s.tasks[num]? = some (.loop (.ended false))) : r = none := by
  obtain ⟨ks, ms, rfl⟩ := List.append_of_mem hm
  have hsplit : counted (ks ++ .completed num r :: ms) = counted ks ++ num :: counted ms := by
    rw [List.append_cons, counted_append, counted_append, counted_completed, List.append_assoc,
      List.singleton_append]
  rw [hsplit, List.nodup_middle, List.nodup_cons, List.mem_append] at hd
  have hks : num ∉ counted ks := fun h => hd.1 (.inl h)
  have hms : num ∉ counted ms := fun h => hd.1 (.inr h)
  have hret := (hi.returned num).1 hs
  simp only [List.mem_append, List.mem_cons, reduceCtorEq, false_or, PartLabel.completed.injEq,
    true_and] at hret
  rcases hret with (h | h) | h | h | h
  · exact absurd (mem_counted.2 (.inl h)) hks
  · exact absurd (mem_counted.2 (.inl h)) hms
  · exact absurd (mem_counted.2 (.inr ⟨_, h⟩)) hks
  · exact h.symm
  · exact absurd (mem_counted.2 (.inr ⟨_, h⟩)) hms

/-- Without a recount the counter stays within the number of parts. -/
theorem numCompleted_le {n : Nat} {ls : List PartLabel} {s : PartUploads}
    (h : (partMachine n).Run (.start n) ls s) (hr : ¬ Recounted ls) : s.content.numCompleted ≤ n := by
  have hi := CountInv.of_run h
  exact hi.count ▸ length_le_of_nodup_lt (counted_nodup h hr) hi.lt

/-- Without a recount, an upload all of whose tasks returned was assembled: every part was counted,
so the counter reached `n` in a locked section whose call returned normally. -/
theorem assembled_of_allReturned {n : Nat} {ls : List PartLabel} {s : PartUploads} (hn : 0 < n)
    (h : (partMachine n).Run (.start n) ls s) (hr : ¬ Recounted ls) (ha : s.allReturned) :
    s.assembled := by
  have hi := CountInv.of_run h
  have hd := counted_nodup h hr
  have htask : ∀ k < n, s.tasks[k]? = some (.loop (.ended false)) := fun k hk => by
    rw [List.getElem?_eq_getElem (hi.length ▸ hk), ha _ (List.getElem_mem _)]
  have hall : ∀ k < n, k ∈ counted ls := fun k hk => by
    rcases (hi.returned k).1 (htask k hk) with hb | hc
    · exact mem_counted.2 (.inl hb)
    · exact mem_counted.2 (.inr ⟨_, hc⟩)
  have hlen : n ≤ s.content.numCompleted := hi.count ▸ le_length_of_forall_lt hall
  obtain ⟨num, r, hm⟩ := hi.reached hn hlen
  have hnum : num < n := hi.lt num (mem_counted.2 (.inr ⟨r, hm⟩))
  cases hi.completed_none hd hm (htask num hnum)
  exact hi.assembled num hm

/-- A recount takes the counter past the number of parts: it had reached it when the call was
made. -/
theorem numCompleted_of_recounted {n : Nat} {ls : List PartLabel} {s : PartUploads}
    (h : (partMachine n).Run (.start n) ls s) (hr : Recounted ls) : n < s.content.numCompleted := by
  obtain ⟨ks, ms, num, e, rfl, hm⟩ := hr
  rw [List.append_cons] at h
  obtain ⟨t, h₁, -⟩ := h.split
  have ht := CountInv.of_run h₁
  have hs := CountInv.of_run h
  have hle := ht.called num (some e) (by simp)
  have hpos : 0 < (counted ms).length := List.length_pos_of_mem hm
  rw [ht.count] at hle
  rw [hs.count, counted_append, List.length_append]
  omega

/-! ## A multipart upload is reported as successful only when it was assembled -/

/-- A run of the tasks of an upload of `n` parts keeps the counter within the number of parts, and
assembles the upload if every task returns, exactly when no task enters its locked section again
after its own `complete_multipart` call failed. -/
theorem part_uploads_assembled_iff {n : Nat} {ls : List PartLabel} {s : PartUploads} (hn : 0 < n)
    (h : (partMachine n).Run (.start n) ls s) :
    ((s.allReturned → s.assembled) ∧ s.content.numCompleted ≤ n) ↔ ¬ Recounted ls := by
  constructor
  · rintro ⟨-, hle⟩ hr
    exact absurd (numCompleted_of_recounted h hr) (by omega)
  · intro hr
    exact ⟨assembled_of_allReturned hn h hr, numCompleted_le h hr⟩

/-- The labels of the run in which the only part's first `complete_multipart` call fails with
`errWarn`: the retried attempt uploads the part again, and its locked section only counts. -/
def lostAssembly : List PartLabel :=
  [.uploadData 0 (.ok "e0"), .completed 0 (some (.es3 .errWarn)), .uploadData 0 (.ok "e0"),
    .bumped 0]

/-- Where that run ends: two of one part counted, and only a failed call. -/
def lostUpload : PartUploads where
  content := ⟨1, 2, ["e0"]⟩
  tasks := [.loop (.ended false)]
  stored := [(0, "e0"), (0, "e0")]
  calls := [(["e0"], some (.es3 .errWarn))]

/-- An upload of one part whose only task returns normally although it was never assembled. -/
theorem part_uploads_lost :
    (partMachine 1).Run (.start 1) lostAssembly lostUpload ∧
      ¬ (lostUpload.allReturned → lostUpload.assembled) ∧
      ¬ lostUpload.content.numCompleted ≤ lostUpload.content.numParts := by
  refine ⟨?_, fun h => ?_, by decide⟩
  · exact .cons rfl (.cons rfl (.cons rfl (.single rfl)))
  · obtain ⟨etags, he⟩ := h (by simp [PartUploads.allReturned, lostUpload])
    simp [lostUpload] at he

/-- An upload of one part whose call succeeds. -/
def assembledUpload : PartUploads where
  content := ⟨1, 1, ["e0"]⟩
  tasks := [.loop (.ended false)]
  stored := [(0, "e0")]
  calls := [(["e0"], none)]

/-- `part_uploads_assembled_iff` at the run of one part whose call succeeds. -/
theorem part_uploads_assembled_iff_one :
    ((assembledUpload.allReturned → assembledUpload.assembled) ∧
      assembledUpload.content.numCompleted ≤ 1) ↔
    ¬ Recounted [.uploadData 0 (.ok "e0"), .completed 0 none] :=
  part_uploads_assembled_iff (by decide) (.cons rfl (.single rfl))

end ExtremeS3
