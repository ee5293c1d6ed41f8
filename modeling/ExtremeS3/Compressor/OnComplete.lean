import ExtremeS3.Common
import ExtremeS3.Lib.Lists
import ExtremeS3.Lib.Machine

/-!
# The completion callback of a block compression

`file_compressor::operator()` schedules one `compress_task` for each block of a file and sets
`num_pending_` to their number. A task that has compressed its block calls `on_complete`, which is
two atomic steps: a section under `m_` that decrements `num_pending_` and records the block's file
and size in `result_`, and then, without the lock, the test of `num_pending_` that calls
`on_finish_` when it reads zero. A run is an interleaving of these steps.

Every call of `on_finish_` sees a complete result (`CallbackInv.filled`), since the counter reads
zero only after the last section. But the test is made outside the section, so every task that has
not tested yet when the last block is recorded reads zero too: `on_finish_called_once_iff` says
that the callback is called once exactly when no other task stands between its two steps at that
moment.
-/

namespace ExtremeS3

/-- Where the run of one `compress_task` stands: compressing its block, between the two steps of
`on_complete`, or past them. -/
inductive BlockTask where
  | compressing
  | recorded
  | returned
  deriving DecidableEq, Repr

/-- The fields of `file_compressor` that `on_complete` uses, with its tasks. `files` and `sizes`
are those of `result_`, and `finishes` lists the calls of `on_finish_` with the result they were
given. -/
structure FileCompressor where
  numPending : Nat
  files : List Str
  sizes : List Nat
  tasks : List BlockTask
  finishes : List (List Str × List Nat)
  deriving DecidableEq, Repr

/-- The two atomic steps of `on_complete` of block `num`. -/
inductive CompleteLabel where
  | record (num : Nat) (name : Str) (size : Nat)
  | test (num : Nat)
  deriving DecidableEq, Repr

/-- One atomic step of `on_complete`, if the task stands before it. -/
def FileCompressor.step (s : FileCompressor) : CompleteLabel → Option FileCompressor
  | .record num name size =>
    match s.tasks[num]? with
    | some .compressing =>
      some { s with
        numPending := s.numPending - 1, files := s.files.set num name,
        sizes := s.sizes.set num size, tasks := s.tasks.set num .recorded }
    | _ => none
  | .test num =>
    match s.tasks[num]? with
    | some .recorded =>
      some { s with
        tasks := s.tasks.set num .returned,
        finishes := if s.numPending = 0 then s.finishes ++ [(s.files, s.sizes)] else s.finishes }
    | _ => none

/-- What `file_compressor::operator()` leaves for `n` blocks. -/
def FileCompressor.start (n : Nat) : FileCompressor where
  numPending := n
  files := List.replicate n []
  sizes := List.replicate n 0
  tasks := List.replicate n .compressing
  finishes := []

/-- The interleavings of the completions of `n` blocks. -/
def completeMachine (n : Nat) : Machine FileCompressor CompleteLabel where
  init s := s = .start n
  step s a t := s.step a = some t

/-- All blocks have completed. -/
def FileCompressor.allReturned (s : FileCompressor) : Prop := ∀ t ∈ s.tasks, t = .returned

/-- What one step does. -/
theorem FileCompressor.step_cases {s t : FileCompressor} {a : CompleteLabel}
    (h : s.step a = some t) :
    (∃ num name size, a = .record num name size ∧ s.tasks[num]? = some .compressing ∧
      t = { s with
        numPending := s.numPending - 1, files := s.files.set num name,
        sizes := s.sizes.set num size, tasks := s.tasks.set num .recorded }) ∨
    (∃ num, a = .test num ∧ s.tasks[num]? = some .recorded ∧
      t = { s with
        tasks := s.tasks.set num .returned,
        finishes := if s.numPending = 0 then s.finishes ++ [(s.files, s.sizes)]
          else s.finishes }) := by
  cases a with
  | record num name size =>
    simp only [step] at h
    split at h
    · next ht => exact .inl ⟨num, name, size, rfl, ht, (Option.some.inj h).symm⟩
    · cases h
  | test num =>
    simp only [step] at h
    split at h
    · next ht => exact .inr ⟨num, rfl, ht, (Option.some.inj h).symm⟩
    · cases h

/-- `on_complete` in one go: both steps of a task that no other one comes between. -/
def FileCompressor.onComplete (s : FileCompressor) (num : Nat) (name : Str) (size : Nat) :
    Option FileCompressor :=
  (s.step (.record num name size)).bind fun t => t.step (.test num)

/-- What recording the file of a task does. -/
theorem FileCompressor.onComplete_eq {s : FileCompressor} {num : Nat} (name : Str) (size : Nat)
    (h : s.tasks[num]? = some .compressing) :
    s.onComplete num name size = some
      { numPending := s.numPending - 1
        files := s.files.set num name
        sizes := s.sizes.set num size
        tasks := s.tasks.set num .returned
        finishes := if s.numPending - 1 = 0
          then s.finishes ++ [(s.files.set num name, s.sizes.set num size)]
          else s.finishes } := by
  have hset : (s.tasks.set num .recorded)[num]? = some .recorded := by
    rw [getElem?_set_of_getElem? h, if_pos rfl]
  simp only [onComplete, step, h, Option.bind_some, hset, List.set_set]

/-! ## The counter and the recorded entries -/

/-- The number of tasks at a point of their run. -/
def FileCompressor.at (s : FileCompressor) (b : BlockTask) : Nat := s.tasks.count b

/-- The entries of a result are those the labels record, for all of the `n` blocks. -/
def Filled (n : Nat) (ls : List CompleteLabel) (r : List Str × List Nat) : Prop :=
  ∀ k < n, ∃ name size, .record k name size ∈ ls ∧ r.1[k]? = some name ∧ r.2[k]? = some size

/-- What holds after any run of the completions of `n` blocks. -/
structure CallbackInv (n : Nat) (ls : List CompleteLabel) (s : FileCompressor) : Prop where
  length : s.tasks.length = n
  files : s.files.length = n
  sizes : s.sizes.length = n
  pending : s.numPending = s.at .compressing
  entry : ∀ k < n, s.tasks[k]? ≠ some .compressing →
    ∃ name size, .record k name size ∈ ls ∧ s.files[k]? = some name ∧ s.sizes[k]? = some size
  past : ∀ k name size, .record k name size ∈ ls →
    s.tasks[k]? = some .recorded ∨ s.tasks[k]? = some .returned
  returned : ∀ k, .test k ∈ ls → s.tasks[k]? = some .returned
  tested : ∀ k, s.tasks[k]? = some .returned → .test k ∈ ls
  quiet : s.numPending ≠ 0 → s.finishes = []
  filled : ∀ c ∈ s.finishes, Filled n ls c

/-- The invariant holds before any task has run. -/
theorem CallbackInv.start (n : Nat) : CallbackInv n [] (.start n) where
  length := List.length_replicate
  files := List.length_replicate
  sizes := List.length_replicate
  pending := by simp [FileCompressor.start, FileCompressor.at]
  entry k hk h := absurd (by simp [FileCompressor.start, hk]) h
  past := nofun
  returned := nofun
  tested k h := by simp [FileCompressor.start, List.getElem?_replicate] at h
  quiet _ := rfl
  filled := nofun

/-- With no block pending, every entry has been recorded. -/
theorem CallbackInv.filled_of_pending {n : Nat} {ls : List CompleteLabel} {s : FileCompressor}
    (hi : CallbackInv n ls s) (h0 : s.numPending = 0) : Filled n ls (s.files, s.sizes) := by
  intro k hk
  refine hi.entry k hk fun hc => ?_
  have hpos : 0 < s.tasks.count .compressing :=
    List.count_pos_iff.2 (List.mem_of_getElem? hc)
  have := hi.pending
  simp only [FileCompressor.at] at this
  omega

/-- It is kept when a task records its file. -/
theorem CallbackInv.record {n : Nat} {ls : List CompleteLabel} {s : FileCompressor} {num : Nat}
    (hi : CallbackInv n ls s) (ht : s.tasks[num]? = some .compressing) (name : Str)
    (size : Nat) :
    CallbackInv n (ls ++ [.record num name size])
      { s with
        numPending := s.numPending - 1, files := s.files.set num name,
        sizes := s.sizes.set num size, tasks := s.tasks.set num .recorded } := by
  have hlt : num < n := hi.length ▸ (List.getElem?_eq_some_iff.1 ht).1
  have htask := getElem?_set_of_getElem? ht BlockTask.recorded
  have hcount := count_set_of_getElem? ht .recorded .compressing
  have hpend := hi.pending
  simp only [FileCompressor.at, if_true, reduceCtorEq, if_false] at hcount hpend
  have hquiet : s.finishes = [] := hi.quiet (by omega)
  exact {
    length := by simpa using hi.length
    files := by simpa using hi.files
    sizes := by simpa using hi.sizes
    pending := by simp only [FileCompressor.at]; omega
    entry := fun k hk hne => by
      by_cases hnk : num = k
      · subst hnk
        exact ⟨name, size, by simp, by simp [hi.files, hlt], by simp [hi.sizes, hlt]⟩
      · rw [htask, if_neg hnk] at hne
        obtain ⟨name', size', hm, hf, hs⟩ := hi.entry k hk hne
        exact ⟨name', size', List.mem_append_left _ hm, by rw [List.getElem?_set_ne hnk, hf],
          by rw [List.getElem?_set_ne hnk, hs]⟩
    past := fun k name' size' hm => by
      rw [htask]
      split
      · exact .inl rfl
      · next hnk =>
        rcases List.mem_append.1 hm with hm | hm
        · exact hi.past k name' size' hm
        · cases List.mem_singleton.1 hm
          exact absurd rfl hnk
    returned := fun k hm => by
      have hk := hi.returned k (by simpa using hm)
      rw [htask, if_neg (fun h => by subst h; simp [ht] at hk), hk]
    tested := fun k h => by
      rw [htask] at h
      split at h
      · cases h
      · exact List.mem_append_left _ (hi.tested k h)
    quiet := fun _ => hquiet
    filled := fun c hc => absurd hc (by simp [hquiet]) }

/-- It is kept when a task tests whether it was the last one. -/
theorem CallbackInv.test {n : Nat} {ls : List CompleteLabel} {s : FileCompressor} {num : Nat}
    (hi : CallbackInv n ls s) (ht : s.tasks[num]? = some .recorded) :
    CallbackInv n (ls ++ [.test num])
      { s with
        tasks := s.tasks.set num .returned,
        finishes := if s.numPending = 0 then s.finishes ++ [(s.files, s.sizes)]
          else s.finishes } := by
  have htask := getElem?_set_of_getElem? ht BlockTask.returned
  have hcount := count_set_of_getElem? ht .returned .compressing
  have hpend := hi.pending
  simp only [FileCompressor.at, reduceCtorEq, if_false] at hcount hpend
  have hmono : ∀ c, Filled n ls c → Filled n (ls ++ [.test num]) c := fun c hc k hk => by
    obtain ⟨name, size, hm, h⟩ := hc k hk
    exact ⟨name, size, List.mem_append_left _ hm, h⟩
  exact {
    length := by simpa using hi.length
    files := hi.files
    sizes := hi.sizes
    pending := by simp only [FileCompressor.at]; omega
    entry := fun k hk hne => by
      have hne' : s.tasks[k]? ≠ some .compressing := by
        by_cases hnk : num = k
        · simp [← hnk, ht]
        · rwa [htask, if_neg hnk] at hne
      obtain ⟨name, size, hm, h⟩ := hi.entry k hk hne'
      exact ⟨name, size, List.mem_append_left _ hm, h⟩
    past := fun k name size hm => by
      have hk := hi.past k name size (by simpa using hm)
      rw [htask]
      split
      · exact .inr rfl
      · exact hk
    returned := fun k hm => by
      rw [htask]
      split
      · rfl
      · next hnk =>
        rcases List.mem_append.1 hm with hm | hm
        · exact hi.returned k hm
        · cases List.mem_singleton.1 hm
          exact absurd rfl hnk
    tested := fun k h => by
      rw [htask] at h
      split at h
      · next hnk => simp [hnk]
      · exact List.mem_append_left _ (hi.tested k h)
    quiet := fun h => by rw [if_neg h]; exact hi.quiet h
    filled := fun c hc => by
      split at hc
      · next h0 =>
        rcases List.mem_append.1 hc with hc | hc
        · exact hmono c (hi.filled c hc)
        · cases List.mem_singleton.1 hc
          exact hmono _ (hi.filled_of_pending h0)
      · exact hmono c (hi.filled c hc) }

/-- It holds in every run. -/
theorem CallbackInv.of_run {n : Nat} {ls : List CompleteLabel} {s : FileCompressor}
    (h : (completeMachine n).Run (.start n) ls s) : CallbackInv n ls s :=
  h.invariant (.start n) fun ls s a t hi hs => by
    obtain ⟨num, name, size, rfl, ht, rfl⟩ | ⟨num, rfl, ht, rfl⟩ := FileCompressor.step_cases hs
    · exact hi.record ht name size
    · exact hi.test ht

/-! ## How often the callback fires -/

/-- The label is a locked section. -/
def CompleteLabel.isRecord : CompleteLabel → Prop
  | .record .. => True
  | .test _ => False

/-- When the last block is recorded, every task that has recorded its own block has also made its
test. -/
def LastAlone (ls : List CompleteLabel) : Prop :=
  ∀ ks num name size ms, ls = ks ++ .record num name size :: ms → (∀ a ∈ ms, ¬ a.isRecord) →
    ∀ k name' size', .record k name' size' ∈ ks → .test k ∈ ks

/-- Once no block is pending, each task that still stands before its test calls the callback. -/
theorem finishes_of_tests {n : Nat} {ms : List CompleteLabel} {t s : FileCompressor}
    (h : (completeMachine n).Run t ms s) (h0 : t.numPending = 0) (hms : ∀ a ∈ ms, ¬ a.isRecord) :
    s.finishes.length + s.at .recorded = t.finishes.length + t.at .recorded := by
  suffices s.numPending = 0 ∧
      s.finishes.length + s.at .recorded = t.finishes.length + t.at .recorded from this.2
  induction h with
  | nil => exact ⟨h0, rfl⟩
  | @snoc ms u a s _ hs ih =>
    obtain ⟨hu, hlen⟩ := ih fun a ha => hms a (List.mem_append_left _ ha)
    obtain ⟨num, name, size, rfl, ht, rfl⟩ | ⟨num, rfl, ht, rfl⟩ := FileCompressor.step_cases hs
    · exact absurd trivial (hms (.record num name size) (by simp))
    · refine ⟨hu, ?_⟩
      have hcount := count_set_of_getElem? ht BlockTask.returned .recorded
      simp only [FileCompressor.at, hu, if_true, reduceCtorEq, if_false, List.length_append,
        List.length_singleton] at hlen hcount ⊢
      omega

/-- In a run that completes all blocks, the callback fires once for the task that records the last
block and once for every other task that stands between its two steps at that moment. -/
theorem finishes_length_of_split {n : Nat} {ks ms : List CompleteLabel} {num size : Nat}
    {name : Str} {t s : FileCompressor} (h₁ : (completeMachine n).Run (.start n) ks t)
    (h : (completeMachine n).Run t (.record num name size :: ms) s)
    (hms : ∀ a ∈ ms, ¬ a.isRecord) (ha : s.allReturned) :
    s.finishes.length = t.at .recorded + 1 := by
  obtain ⟨u, hu, h₂⟩ := h.cons_inv
  have hrun := h₁.snoc hu
  have ht := CallbackInv.of_run h₁
  have hi := CallbackInv.of_run hrun
  have hfin := CallbackInv.of_run (hrun.append h₂)
  have hzero : u.numPending = 0 := by
    rw [hi.pending]
    refine List.count_eq_zero.2 fun hm => ?_
    obtain ⟨k, hk, hck⟩ := List.getElem_of_mem hm
    have hkn : k < n := hi.length ▸ hk
    have hret : s.tasks[k]? = some .returned := by
      rw [List.getElem?_eq_getElem (hfin.length ▸ hkn), ha _ (List.getElem_mem _)]
    obtain ⟨name', size', hmem, -⟩ := hfin.entry k hkn (by simp [hret])
    have hmem : CompleteLabel.record k name' size' ∈ ks ++ [.record num name size] := by
      rcases List.mem_append.1 hmem with hmem | hmem
      · exact hmem
      · exact absurd trivial (hms _ hmem)
    have hp := hi.past k name' size' hmem
    rw [List.getElem?_eq_getElem hk, hck] at hp
    simp at hp
  have hlen := finishes_of_tests h₂ hzero hms
  have hnone : s.at .recorded = 0 := List.count_eq_zero.2 fun hm => by cases ha _ hm
  obtain ⟨num', name', size', he, htask, rfl⟩ | ⟨num', he, -⟩ := FileCompressor.step_cases hu
  · cases he
    have hcount := count_set_of_getElem? htask BlockTask.recorded .recorded
    have hpend := ht.pending
    have hpos : 0 < t.tasks.count .compressing := List.count_pos_iff.2 (List.mem_of_getElem? htask)
    have hquiet : t.finishes = [] := ht.quiet (by simp only [FileCompressor.at] at hpend; omega)
    simp only [FileCompressor.at, reduceCtorEq, if_false, if_true, hquiet, List.length_nil]
      at hlen hnone hcount ⊢
    omega
  · cases he

/-- After a run, every task that has recorded its block has tested exactly when none stands between
its two steps. -/
theorem CallbackInv.at_recorded_eq_zero_iff {n : Nat} {ks : List CompleteLabel}
    {t : FileCompressor} (hi : CallbackInv n ks t) :
    t.at .recorded = 0 ↔ ∀ k name size, .record k name size ∈ ks → .test k ∈ ks := by
  constructor
  · intro h k name size hm
    rcases hi.past k name size hm with hp | hp
    · exact absurd (List.mem_of_getElem? hp) (List.count_eq_zero.1 h)
    · exact hi.tested k hp
  · intro h
    refine List.count_eq_zero.2 fun hm => ?_
    obtain ⟨k, hk, hck⟩ := List.getElem_of_mem hm
    have hrec : t.tasks[k]? = some .recorded := by rw [List.getElem?_eq_getElem hk, hck]
    obtain ⟨name, size, hmem, -⟩ := hi.entry k (hi.length ▸ hk) (by simp [hrec])
    have := hi.returned k (h k name size hmem)
    simp [hrec] at this

/-- In a run of at least one block that completes all of them, some block is recorded last. -/
theorem exists_last_record {n : Nat} {ls : List CompleteLabel} {s : FileCompressor} (hn : 0 < n)
    (hi : CallbackInv n ls s) (ha : s.allReturned) :
    ∃ ks num name size ms, ls = ks ++ .record num name size :: ms ∧
      ∀ a ∈ ms, ¬ a.isRecord := by
  have hret : s.tasks[0]? = some .returned := by
    rw [List.getElem?_eq_getElem (hi.length ▸ hn), ha _ (List.getElem_mem _)]
  obtain ⟨name, size, hmem, -⟩ := hi.entry 0 hn (by simp [hret])
  obtain ⟨ks, a, ms, rfl, hrec, hms⟩ :=
    exists_last_split (p := CompleteLabel.isRecord) ⟨_, hmem, trivial⟩
  cases a with
  | record num name size => exact ⟨ks, num, name, size, ms, rfl, hms⟩
  | test => exact absurd hrec id

/-- When all blocks of a file have completed, `on_finish_` has been called exactly once, with every
entry of its result filled, if and only if every other task had made its test when the last block
was recorded. -/
theorem on_finish_called_once_iff {n : Nat} {ls : List CompleteLabel} {s : FileCompressor}
    (hn : 0 < n) (h : (completeMachine n).Run (.start n) ls s) (ha : s.allReturned) :
    (s.finishes.length = 1 ∧ ∀ c ∈ s.finishes, Filled n ls c) ↔ LastAlone ls := by
  have hi := CallbackInv.of_run h
  have key : ∀ ks num name size ms, ls = ks ++ .record num name size :: ms →
      (∀ a ∈ ms, ¬ a.isRecord) → (s.finishes.length = 1 ↔
        ∀ k name' size', CompleteLabel.record k name' size' ∈ ks → .test k ∈ ks) := by
    rintro ks num name size ms rfl hms
    obtain ⟨t, h₁, h₂⟩ := h.split
    rw [finishes_length_of_split h₁ h₂ hms ha, Nat.add_eq_right,
      (CallbackInv.of_run h₁).at_recorded_eq_zero_iff]
  constructor
  · rintro ⟨hlen, -⟩ ks num name size ms he hms
    exact (key ks num name size ms he hms).1 hlen
  · intro hl
    obtain ⟨ks, num, name, size, ms, he, hms⟩ := exists_last_record hn hi ha
    exact ⟨(key ks num name size ms he hms).2 (hl ks num name size ms he hms), hi.filled⟩

/-- The labels of a run of two blocks in which both are recorded before either tests. -/
def bothRecorded : List CompleteLabel :=
  [.record 0 "a".toList 10, .record 1 "b".toList 20, .test 0, .test 1]

/-- Where that run ends. -/
def finishedTwice : FileCompressor where
  numPending := 0
  files := ["a".toList, "b".toList]
  sizes := [10, 20]
  tasks := [.returned, .returned]
  finishes := [(["a".toList, "b".toList], [10, 20]), (["a".toList, "b".toList], [10, 20])]

/-- Two blocks whose completion calls `on_finish_` twice. -/
theorem on_finish_called_twice :
    (completeMachine 2).Run (.start 2) bothRecorded finishedTwice ∧ finishedTwice.allReturned ∧
      ¬ finishedTwice.finishes.length = 1 := by
  refine ⟨?_, by simp [FileCompressor.allReturned, finishedTwice], by decide⟩
  exact .cons rfl (.cons rfl (.cons rfl (.single rfl)))

/-- Where a run of two blocks ends in which the first tests before the second is recorded. -/
def finishedOnce : FileCompressor where
  numPending := 0
  files := ["a".toList, "b".toList]
  sizes := [10, 20]
  tasks := [.returned, .returned]
  finishes := [(["a".toList, "b".toList], [10, 20])]

/-- `on_finish_called_once_iff` at the run of two blocks one after the other. -/
theorem on_finish_called_once_iff_two :
    (finishedOnce.finishes.length = 1 ∧ ∀ c ∈ finishedOnce.finishes,
      Filled 2 [.record 0 "a".toList 10, .test 0, .record 1 "b".toList 20, .test 1] c) ↔
    LastAlone [.record 0 "a".toList 10, .test 0, .record 1 "b".toList 20, .test 1] :=
  on_finish_called_once_iff (by decide)
    (.cons rfl (.cons rfl (.cons rfl (.single rfl))))
    (by simp [FileCompressor.allReturned, finishedOnce])

end ExtremeS3
