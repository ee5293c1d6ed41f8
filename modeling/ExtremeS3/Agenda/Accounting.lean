import ExtremeS3.Agenda.Steps
import Mathlib.Data.Finset.Card
import Mathlib.Data.Finset.Interval
import Mathlib.Data.Finset.Union

/-!
# The agenda keeps its accounts

`TaskInv` ties the queue and the counters of the agenda to the tasks at work and the tasks done;
`SegInv` ties the segments in flight to the references that exist. Each operation keeps both
(`TaskInv.schedule`, `TaskInv.claim`, `TaskInv.cleanup`, `SegInv.claim`, `SegInv.release`), so they
hold in every reachable state (`AgendaInv.of_reachable`). When tasks are scheduled only before a run
or by a running task, an executor that has exited has left no task (`System.Drained`). `agenda_accounting` puts them together.
-/

namespace ExtremeS3

/-- The identities of tasks. -/
abbrev ids (ts : List SyncTask) : List Nat := ts.map SyncTask.id

/-- The number of tasks of a class. -/
abbrev countClass (cls : TaskType) (ts : List SyncTask) : Nat := ts.countP (·.cls = cls)

/-! ## Tasks -/

/-- The accounts of the tasks: `w` are those claimed and not cleaned up, `f` those cleaned up with
the results of their attempts, `c` the claims made. -/
structure TaskInv (lim : AgendaLimits) (a : Agenda) (w : List SyncTask)
    (f : List (SyncTask × List (Option Thrown))) (c : List (Nat × Nat)) : Prop where
  wf : a.tasks.WF
  sorted : Sorted a.classes
  known : ∀ t ∈ a.tasks.queued, t.cls ∈ a.classes.map Prod.fst
  once : (ids a.tasks.queued ++ (ids w ++ ids (f.map Prod.fst))).Perm (List.range a.numSubmitted)
  claimed : (c.map Prod.fst).Perm (ids w ++ ids (f.map Prod.fst))
  classCount : ∀ cls, (findKey cls a.classes).getD 0 = countClass cls w
  classLimit : ∀ cls, countClass cls w ≤ lim.getCapability cls
  classSum : (a.classes.map Prod.snd).sum = w.length
  numWorking : a.numWorking = w.length
  numDone : a.numDone = f.length
  numFailed : a.numFailed = f.countP (none ∉ ·.2)

section

variable {lim : AgendaLimits} {a : Agenda} {w : List SyncTask}
  {f : List (SyncTask × List (Option Thrown))} {c : List (Nat × Nat)}

/-- The invariant holds before anything is scheduled. -/
theorem TaskInv.empty : TaskInv lim .empty [] [] [] where
  wf := .nil
  sorted := sorted_nil
  known := nofun
  once := .refl _
  claimed := .refl _
  classCount _ := rfl
  classLimit _ := Nat.zero_le _
  classSum := rfl
  numWorking := rfl
  numDone := rfl
  numFailed := rfl

/-- The accounts of the tasks do not look at the segments. -/
theorem TaskInv.segments (h : TaskInv lim a w f c) (n : Nat) :
    TaskInv lim { a with segmentsInFlight := n } w f c := { h with }

/-- It is kept when a task is scheduled with the next number. -/
theorem TaskInv.schedule (h : TaskInv lim a w f c) {t : SyncTask} (ht : t.id = a.numSubmitted) :
    TaskInv lim (a.schedule t) w f c where
  wf := h.wf.insert t
  sorted := h.sorted.upsert _ _
  known u hu := by
    refine mem_keys_upsert.2 ?_
    rcases List.mem_cons.1 ((SizeMap.queued_insert h.wf t).mem_iff.1 hu) with rfl | hu
    · exact .inl rfl
    · exact .inr (h.known u hu)
  once := by
    have hq := (SizeMap.queued_insert h.wf t).map SyncTask.id
    refine (hq.append_right _).trans ?_
    rw [List.map_cons, ht, List.cons_append]
    exact (h.once.cons _).trans (List.range_succ ▸ (List.perm_append_singleton _ _).symm)
  claimed := h.claimed
  classCount cls := by
    rw [← h.classCount cls]
    show (findKey cls (upsert t.cls (·.getD 0) a.classes)).getD 0 = _
    rw [findKey_upsert h.sorted]
    split
    · next hc => rw [hc]; rfl
    · rfl
  classLimit := h.classLimit
  classSum := by
    have := h.sorted.sum_upsert t.cls (·.getD 0)
    exact (Nat.add_right_cancel this).trans h.classSum
  numWorking := h.numWorking
  numDone := h.numDone
  numFailed := h.numFailed

/-- It is kept when an executor claims a task, which is then one of those that are worked on. -/
theorem TaskInv.claim (h : TaskInv lim a w f c) {t : SyncTask} {need e : Nat} {a' : Agenda}
    (hs : a.scan lim a.classes = some (t, need, a')) {w' : List SyncTask} (hw : w'.Perm (t :: w)) :
    TaskInv lim a' w' f (c ++ [(t.id, e)]) := by
  obtain ⟨-, -, ⟨n, hn, hlt⟩, hwf, hq, ha⟩ := Agenda.scan_some h.wf hs
  have hcount : ∀ cls, countClass cls w' = countClass cls w + if t.cls = cls then 1 else 0 :=
    fun cls => by rw [countClass, hw.countP_eq, List.countP_cons]; simp
  have hfind : findKey t.cls a.classes = some n := h.sorted.findKey_eq_some.2 hn
  have hcls : ∀ cls, (findKey cls a'.classes).getD 0 = countClass cls w' := fun cls => by
    rw [ha, hcount, ← h.classCount]
    show (findKey cls (upsert t.cls (·.getD 0 + 1) a.classes)).getD 0 = _
    rw [findKey_upsert h.sorted]
    by_cases hc : cls = t.cls
    · simp [hc]
    · simp [hc, Ne.symm hc]
  refine ⟨hwf, by rw [ha]; exact h.sorted.upsert _ _, fun u hu => ?_, ?_, ?_, hcls, fun cls => ?_,
    ?_, ?_, by rw [ha]; exact h.numDone, by rw [ha]; exact h.numFailed⟩
  · rw [ha]
    exact mem_keys_upsert.2 (.inr (h.known u (hq.mem_iff.2 (List.mem_cons_of_mem _ hu))))
  · have hn : a'.numSubmitted = a.numSubmitted := by rw [ha]
    refine .trans ?_ (hn ▸ h.once)
    refine ((hw.map SyncTask.id).append_right _ |>.append_left _).trans ?_
    exact List.perm_middle.trans ((hq.map SyncTask.id).symm.append_right _)
  · rw [List.map_append]
    refine (List.perm_append_singleton _ _).trans ((h.claimed.cons _).trans ?_)
    exact ((hw.map SyncTask.id).symm.append_right _)
  · rw [hcount]
    have hle := h.classLimit cls
    split
    · next hc =>
      subst hc
      have := h.classCount t.cls
      rw [hfind, Option.getD_some] at this
      omega
    · exact hle
  · have := h.sorted.sum_upsert t.cls (·.getD 0 + 1)
    rw [hfind, Option.getD_some, h.classSum] at this
    rw [ha, hw.length_eq, List.length_cons]
    show ((upsert t.cls (·.getD 0 + 1) a.classes).map Prod.snd).sum = _
    omega
  · rw [ha, hw.length_eq, List.length_cons, ← h.numWorking]

/-- It is kept when a task that was worked on is cleaned up, and then counted as finished. -/
theorem TaskInv.cleanup (h : TaskInv lim a w f c) {t : SyncTask} {outs : List (Option Thrown)}
    {w' : List SyncTask} (hw : w.Perm (t :: w')) :
    TaskInv lim (a.cleanup t (none ∉ outs)) w' (f ++ [(t, outs)]) c := by
  have hcount : ∀ cls, countClass cls w = countClass cls w' + if t.cls = cls then 1 else 0 :=
    fun cls => by rw [countClass, hw.countP_eq, List.countP_cons]; simp
  have hf : (ids w ++ ids (f.map Prod.fst)).Perm
      (ids w' ++ ids ((f ++ [(t, outs)]).map Prod.fst)) := by
    refine ((hw.map SyncTask.id).append_right _).trans ?_
    rw [List.map_append, ids, ids, ids, List.map_append, ← List.append_assoc]
    exact (List.perm_append_singleton _ _).symm
  refine ⟨h.wf, h.sorted.upsert _ _, fun u hu => mem_keys_upsert.2 (.inr (h.known u hu)),
    (hf.symm.append_left _).trans h.once, h.claimed.trans hf, fun cls => ?_, fun cls => ?_, ?_, ?_,
    ?_, ?_⟩
  · show (findKey cls (upsert t.cls (·.getD 0 - 1) a.classes)).getD 0 = _
    rw [findKey_upsert h.sorted]
    have hc := h.classCount cls
    rw [hcount] at hc
    split
    · next he => subst he; rw [Option.getD_some, hc, if_pos rfl]; rfl
    · next he => rw [hc, if_neg (Ne.symm he)]; rfl
  · exact (by rw [hcount]; omega : countClass cls w' ≤ countClass cls w).trans (h.classLimit cls)
  · have := h.sorted.sum_upsert t.cls (·.getD 0 - 1)
    have hc := h.classCount t.cls
    rw [hcount, if_pos rfl] at hc
    rw [h.classSum, hw.length_eq, List.length_cons] at this
    show ((upsert t.cls (·.getD 0 - 1) a.classes).map Prod.snd).sum = _
    omega
  · show a.numWorking - 1 = _
    rw [h.numWorking, hw.length_eq, List.length_cons, Nat.add_sub_cancel]
  · show a.numDone + 1 = _
    rw [h.numDone, List.length_append, List.length_singleton]
  · show a.numFailed + _ = _
    rw [h.numFailed, List.countP_append, List.countP_singleton]
    by_cases hn : none ∈ outs <;> simp [hn]

end

/-! ## Segments -/

/-- The accounts of the segments: those in flight are those that some reference exists to, they
are no more than permitted, and they have been made. -/
structure SegInv (lim : AgendaLimits) (inFlight : Nat) (held : List Nat) (next : Nat) : Prop where
  live : inFlight = held.toFinset.card
  le_max : inFlight ≤ lim.maxSegmentsInFlight
  made : ∀ id ∈ held, id < next

section

variable {lim : AgendaLimits} {n next : Nat} {held held' : List Nat}

/-- The accounts depend only on which segments have a reference. -/
theorem SegInv.congr (h : SegInv lim n held next) (hm : ∀ id, id ∈ held' ↔ id ∈ held) :
    SegInv lim n held' next where
  live := h.live.trans (congrArg Finset.card (by ext id; simp [hm]))
  le_max := h.le_max
  made id hid := h.made id ((hm id).1 hid)

/-- The unsigned subtraction in `claim_task` does not wrap. -/
theorem Agenda.segmentsAvail_eq {a : Agenda} (h : a.segmentsInFlight ≤ lim.maxSegmentsInFlight) :
    a.segmentsAvail lim = lim.maxSegmentsInFlight - a.segmentsInFlight := by
  have := lim.maxSegmentsInFlight_lt
  simp only [Agenda.segmentsAvail]
  omega

/-- `get_segments` makes new segments. -/
theorem SegInv.claim (h : SegInv lim n held next) {need : Nat}
    (hneed : n + need ≤ lim.maxSegmentsInFlight)
    (hm : held'.Perm (List.range' next need ++ held)) :
    SegInv lim (n + need) held' (next + need) where
  live := by
    have hdis : Disjoint (List.range' next need).toFinset held.toFinset := by
      refine Finset.disjoint_left.2 fun id hnew hold => ?_
      have hlt := h.made id (List.mem_toFinset.1 hold)
      have hge := (List.mem_range'_1.1 (List.mem_toFinset.1 hnew)).1
      omega
    rw [List.toFinset_eq_of_perm _ _ hm, List.toFinset_append, Finset.card_union_of_disjoint hdis,
      ← h.live, List.toFinset_card_of_nodup List.nodup_range', List.length_range', Nat.add_comm]
  le_max := hneed
  made id hid := by
    rcases List.mem_append.1 (hm.mem_iff.1 hid) with hid | hid
    · exact (List.mem_range'_1.1 hid).2
    · exact (h.made id hid).trans_le (Nat.le_add_right _ _)

/-- The last reference to a segment is gone. -/
theorem SegInv.release (h : SegInv lim n held next) {id : Nat} (hm : held.Perm (id :: held'))
    (hid : id ∉ held') : SegInv lim (n - 1) held' next where
  live := by
    rw [h.live, List.toFinset_eq_of_perm _ _ hm, List.toFinset_cons,
      Finset.card_insert_of_notMem (by simpa using hid), Nat.add_sub_cancel]
  le_max := (Nat.sub_le _ _).trans h.le_max
  made i hi := h.made i (hm.mem_iff.2 (List.mem_cons_of_mem _ hi))

end

/-! ## The references and the tasks at work -/

/-- A segment is held by an executor, by a task that is queued, or elsewhere. -/
theorem System.mem_held {s : System} {id : Nat} :
    id ∈ s.held ↔ id ∈ s.executors.flatMap Executor.segments ∨
      id ∈ s.agenda.tasks.queued.flatMap SyncTask.segments ∨ id ∈ s.elsewhere := by
  simp only [held, List.mem_append, or_assoc]

/-- `schedule` takes references that exist. -/
theorem System.maySchedule_held {s : System} {segs : List Nat} {caller : Caller}
    (h : s.maySchedule segs caller) {id : Nat} (hid : id ∈ segs) : id ∈ s.held := by
  refine mem_held.2 ?_
  cases caller with
  | main => simp_all [maySchedule]
  | other => simp_all [maySchedule]
  | executor e =>
    simp only [maySchedule] at h
    split at h
    · next he =>
      have := List.all_eq_true.1 h id hid
      rcases of_decide_eq_true this with hh | hh
      · exact .inl (List.mem_flatMap.2 ⟨_, List.mem_of_getElem? he, hh⟩)
      · exact .inr (.inr hh)
    · cases h

/-- Dropping a segment takes just this one out of those that are held. -/
theorem System.Forgets.held_perm {s s' : System} {id : Nat} {caller : Caller}
    (h : s.Forgets id caller s') : s.held.Perm (id :: s'.held) := by
  cases h with
  | @executor e x y he hd =>
    have hset := flatMap_set_perm he y Executor.segments
    have hx := hd.segments_perm.append_right ((s.executors.set e y).flatMap Executor.segments)
    have hes : (s.executors.flatMap Executor.segments).Perm
        (id :: (s.executors.set e y).flatMap Executor.segments) := by
      refine (List.perm_append_left_iff y.segments).1 ?_
      refine hset.symm.trans (hx.trans ?_)
      exact List.perm_middle.symm
    exact (hes.append_right _).append_right _
  | other hid =>
    refine ((List.perm_cons_erase hid).append_left _).trans ?_
    exact List.perm_middle

/-- Dropping a segment leaves the agenda alone. -/
theorem System.Forgets.agenda_eq {s s' : System} {id : Nat} {caller : Caller}
    (h : s.Forgets id caller s') : s'.agenda = s.agenda := by
  cases h <;> rfl

/-- Dropping a segment leaves the tasks that are worked on. -/
theorem System.Forgets.working_eq {s s' : System} {id : Nat} {caller : Caller}
    (h : s.Forgets id caller s') : s'.working = s.working := by
  cases h with
  | executor he hd => exact flatMap_set_of_eq he hd.tasks_eq
  | other => rfl

/-! ## The invariant of all runs -/

/-- What the attempts of a claimed task say of the flag `fail`. -/
def Executor.AttemptsOk : Executor → Prop
  | .running _ _ outs => outs.length < maxAttempts ∧ none ∉ outs
  | .ended _ _ outs fail => outs.length ≤ maxAttempts ∧ fail = decide (none ∉ outs)
  | _ => True

/-- A notification does not touch the attempts of an executor. -/
theorem Executor.attemptsOk_notify (e : Executor) : e.notify.AttemptsOk ↔ e.AttemptsOk := by
  cases e <;> rfl

/-- A move of an executor keeps what its attempts say about the flag `fail`. -/
theorem Executor.Moves.attemptsOk {lim : AgendaLimits} {a : Agenda} {x y : Executor}
    (h : x.Moves lim a y) (hx : x.AttemptsOk) : y.AttemptsOk := by
  cases h with
  | @attempt t segs outs r f hf =>
    obtain ⟨hg, hlt⟩ := afterAttempt_next_lt hf
    refine ⟨by simpa [hg] using hlt, fun hn => ?_⟩
    rcases List.mem_append.1 hn with hn | hn
    · exact hx.2 hn
    · cases List.mem_singleton.1 hn
      cases hf
  | @finish t segs outs r fail hf =>
    refine ⟨by simpa using hx.1, ?_⟩
    cases r with
    | none => cases hf; simp
    | some e =>
      cases fail with
      | false => exact absurd hf (afterAttempt_some_ne _ _)
      | true => simpa using hx.2
  | _ => trivial

/-- The accounts, and the bounds on the attempts, of a state between two critical sections. -/
structure AgendaInv (lim : AgendaLimits) (s : System) : Prop where
  tasks : TaskInv lim s.agenda s.working s.finished s.claimed
  segs : SegInv lim s.agenda.segmentsInFlight s.held s.nextSegment
  attempts : ∀ e ∈ s.executors, e.AttemptsOk
  outcomes : ∀ f ∈ s.finished, f.2.length ≤ maxAttempts
  idle : s.running = false → s.executors = []
  threads : s.running = true → s.executors.length = lim.threadNum

/-- Waking executors does not change how many there are. -/
theorem Woken.length_eq {es fs : List Executor} (h : Woken es fs) :
    es.length = fs.length := by
  simpa using congrArg List.length h.same

/-- Where there is no executor, none was woken. -/
theorem Woken.eq_nil {es fs : List Executor} (h : Woken es fs) (hf : fs = []) :
    es = [] :=
  List.eq_nil_of_length_eq_zero (h.length_eq.trans (hf ▸ rfl))

/-- Executors that have all exited contribute nothing. -/
theorem flatMap_eq_nil_of_forall_exited {es : List Executor} (h : ∀ e ∈ es, e = .exited)
    {f : Executor → List α} (hf : f .exited = []) : es.flatMap f = [] :=
  List.flatMap_eq_nil_iff.2 fun e he => h e he ▸ hf

/-- Scheduling a task keeps the invariant, whoever is woken. -/
theorem AgendaInv.schedule {lim : AgendaLimits} {s : System} (h : AgendaInv lim s)
    {cls : TaskType} {needs : Nat} {ordinal : Int} {segs : List Nat} {caller : Caller}
    {es : List Executor} (hmay : s.maySchedule segs caller) (hes : Woken es s.executors) :
    AgendaInv lim
      { s with
        agenda := s.agenda.schedule ⟨s.agenda.numSubmitted, cls, needs, ordinal, segs⟩
        executors := es } where
  tasks := by
    have hw := hes.flatMap_eq Executor.tasks_notify
    rw [System.working, hw]
    exact h.tasks.schedule rfl
  segs := by
    refine h.segs.congr fun id => ?_
    have hq := (SizeMap.queued_insert h.tasks.wf
      ⟨s.agenda.numSubmitted, cls, needs, ordinal, segs⟩).flatMap_right SyncTask.segments
    have hmem : id ∈ (s.agenda.tasks.insert
        ⟨s.agenda.numSubmitted, cls, needs, ordinal, segs⟩).queued.flatMap SyncTask.segments ↔
        id ∈ segs ∨ id ∈ s.agenda.tasks.queued.flatMap SyncTask.segments := by
      rw [hq.mem_iff, List.flatMap_cons, List.mem_append]
    rw [System.mem_held, System.mem_held, hes.flatMap_eq Executor.segments_notify]
    refine ⟨fun hid => ?_, fun hid => ?_⟩
    · rcases hid with hid | hid | hid
      · exact .inl hid
      · rcases hmem.1 hid with hid | hid
        · exact System.mem_held.1 (System.maySchedule_held hmay hid)
        · exact .inr (.inl hid)
      · exact .inr (.inr hid)
    · exact hid.imp_right (.imp_left fun hid => hmem.2 (.inr hid))
  attempts := (hes.forall_iff Executor.attemptsOk_notify).2 h.attempts
  outcomes := h.outcomes
  idle hr := hes.eq_nil (h.idle hr)
  threads hr := hes.length_eq.trans (h.threads hr)

/-- A move of an executor changes none of the accounts. -/
theorem AgendaInv.move {lim : AgendaLimits} {s : System} (h : AgendaInv lim s) {e : Nat}
    {x y : Executor} (he : s.executors[e]? = some x) (hm : x.Moves lim s.agenda y) :
    AgendaInv lim { s with executors := s.executors.set e y } where
  tasks := by
    have hw : (s.executors.set e y).flatMap Executor.tasks = s.working :=
      flatMap_set_of_eq he hm.tasks_eq
    rw [System.working, hw]
    exact h.tasks
  segs := by
    have hs : (s.executors.set e y).flatMap Executor.segments =
        s.executors.flatMap Executor.segments := flatMap_set_of_eq he hm.segments_eq
    rw [System.held, hs]
    exact h.segs
  attempts := forall_mem_set h.attempts (hm.attemptsOk (h.attempts _ (List.mem_of_getElem? he)))
  outcomes := h.outcomes
  idle hr := by simp [h.idle hr]
  threads hr := (List.length_set).trans (h.threads hr)

/-- Claiming a task keeps the invariant, with the segments that the task needs. -/
theorem AgendaInv.claim {lim : AgendaLimits} {s : System} (h : AgendaInv lim s) {e : Nat}
    (he : s.executors[e]? = some .awake) {t : SyncTask} {need : Nat} {a : Agenda}
    (hs : s.agenda.scan lim s.agenda.classes = some (t, need, a)) :
    AgendaInv lim
      { s with
        agenda := { a with segmentsInFlight := a.segmentsInFlight + need }
        executors := s.executors.set e
          (.running t (t.segments ++ List.range' s.nextSegment need) [])
        nextSegment := s.nextSegment + need
        claimed := s.claimed ++ [(t.id, e)] } where
  tasks := by
    refine (h.tasks.claim hs ?_).segments _
    exact flatMap_set_perm he (.running t (t.segments ++ List.range' s.nextSegment need) [])
      Executor.tasks
  segs := by
    obtain ⟨-, havail, -, -, hq, ha⟩ := Agenda.scan_some h.tasks.wf hs
    rw [Agenda.segmentsAvail_eq h.segs.le_max] at havail
    have hn : a.segmentsInFlight = s.agenda.segmentsInFlight := by rw [ha]
    have hle := h.segs.le_max
    rw [hn]
    refine h.segs.claim (by omega) ?_
    have hset := flatMap_set_perm he
      (.running t (t.segments ++ List.range' s.nextSegment need) []) Executor.segments
    have hq := hq.flatMap_right SyncTask.segments
    refine List.perm_iff_count.2 fun id => ?_
    have h₁ := hset.count_eq id
    have h₂ := hq.count_eq id
    simp only [System.held, List.count_append, List.flatMap_cons, Executor.segments,
      List.count_nil] at h₁ h₂ ⊢
    omega
  attempts := forall_mem_set h.attempts ⟨by decide, nofun⟩
  outcomes := h.outcomes
  idle hr := by simp [h.idle hr]
  threads hr := (List.length_set).trans (h.threads hr)

/-- Cleaning a task up keeps the invariant, whoever is woken. -/
theorem AgendaInv.cleanup {lim : AgendaLimits} {s : System} (h : AgendaInv lim s) {e : Nat}
    {t : SyncTask} {segs : List Nat} {outs : List (Option Thrown)} {fail : Bool}
    {es : List Executor} (he : s.executors[e]? = some (.ended t segs outs fail))
    (hes : Woken es (s.executors.set e (.releasing segs))) :
    AgendaInv lim
      { s with
        agenda := s.agenda.cleanup t fail
        executors := es
        finished := s.finished ++ [(t, outs)] } where
  tasks := by
    obtain ⟨-, hfail⟩ := h.attempts _ (List.mem_of_getElem? he)
    subst hfail
    refine h.tasks.cleanup ?_
    rw [System.working, System.working, hes.flatMap_eq Executor.tasks_notify]
    exact (flatMap_set_perm he (.releasing segs) Executor.tasks).symm
  segs := by
    have hs : es.flatMap Executor.segments = s.executors.flatMap Executor.segments := by
      rw [hes.flatMap_eq Executor.segments_notify]
      exact flatMap_set_of_eq he rfl
    rw [System.held, hs]
    exact h.segs
  attempts := (hes.forall_iff Executor.attemptsOk_notify).2 (forall_mem_set h.attempts trivial)
  outcomes f hf := by
    rcases List.mem_append.1 hf with hf | hf
    · exact h.outcomes f hf
    · exact List.mem_singleton.1 hf ▸ (h.attempts _ (List.mem_of_getElem? he)).1
  idle hr := hes.eq_nil (by simp [h.idle hr])
  threads hr := (hes.length_eq.trans List.length_set).trans (h.threads hr)

/-- Giving up a reference, with what that makes of the segments in flight and the waiting
executors. -/
theorem AgendaInv.forget {lim : AgendaLimits} {s s' : System} (h : AgendaInv lim s) {id n : Nat}
    {caller : Caller} {es : List Executor} (hf : s.Forgets id caller s')
    (hs : SegInv lim n s'.held s.nextSegment) (hes : Woken es s'.executors) :
    AgendaInv lim
      { s' with agenda := { s'.agenda with segmentsInFlight := n }, executors := es } where
  tasks := by
    rw [System.working, hes.flatMap_eq Executor.tasks_notify, hf.agenda_eq]
    have hw : s'.executors.flatMap Executor.tasks = s.working := hf.working_eq
    rw [hw]
    cases hf <;> exact h.tasks.segments n
  segs := by
    rw [System.held, hes.flatMap_eq Executor.segments_notify]
    cases hf <;> exact hs
  attempts := by
    refine (hes.forall_iff Executor.attemptsOk_notify).2 ?_
    cases hf with
    | executor he hd =>
      refine forall_mem_set h.attempts ?_
      have hx := h.attempts _ (List.mem_of_getElem? he)
      cases hd <;> exact hx
    | other => exact h.attempts
  outcomes := by cases hf <;> exact h.outcomes
  idle hr := hes.eq_nil (by cases hf <;> simp [h.idle hr])
  threads hr := by
    rw [hes.length_eq]
    cases hf with
    | executor => exact List.length_set.trans (h.threads hr)
    | other => exact h.threads hr

/-- Every step keeps the accounts. -/
theorem AgendaInv.step {lim : AgendaLimits} {s s' : System} {l : Label} (h : AgendaInv lim s)
    (hs : s.Steps lim l s') : AgendaInv lim s' := by
  cases hs with
  | schedule hmay hes => exact h.schedule hmay hes
  | run hr =>
    have hnil := h.idle hr
    have hw : s.working = [] := by rw [System.working, hnil]; rfl
    have ht := h.tasks
    have hg := h.segs
    rw [hw] at ht
    rw [System.held, hnil] at hg
    refine ⟨?_, ?_, fun e he => List.eq_of_mem_replicate he ▸ trivial, h.outcomes, nofun,
      fun _ => List.length_replicate⟩
    · have hrep : (List.replicate lim.threadNum Executor.awake).flatMap Executor.tasks = [] :=
        List.flatMap_eq_nil_iff.2 fun e he => List.eq_of_mem_replicate he ▸ rfl
      rw [System.working, hrep]
      exact ht
    · exact hg.congr fun id => by simp [System.held, Executor.segments]
  | ret hr hex =>
    have hw : s.working = [] := flatMap_eq_nil_of_forall_exited hex rfl
    have ht := h.tasks
    have hg := h.segs
    rw [hw] at ht
    rw [System.held, flatMap_eq_nil_of_forall_exited hex rfl] at hg
    exact ⟨ht, hg, nofun, h.outcomes, fun _ => rfl, nofun⟩
  | move he hm => exact h.move he hm
  | claim he hsc => exact h.claim he hsc
  | cleanup he hes _ => exact h.cleanup he hes
  | unshare hf hid =>
    have hseg : SegInv lim s'.agenda.segmentsInFlight s'.held s.nextSegment := by
      rw [hf.agenda_eq]
      refine h.segs.congr fun i => ?_
      rw [hf.held_perm.mem_iff, List.mem_cons]
      exact ⟨.inr, fun hi => hi.elim (fun he => he ▸ hid) fun h => h⟩
    exact h.forget hf hseg (.refl _)
  | release hf hid hes =>
    refine h.forget hf ?_ hes
    rw [hf.agenda_eq]
    exact h.segs.release hf.held_perm hid
  | @share e id t segs outs he hid =>
    refine ⟨h.tasks, h.segs.congr fun i => ?_, h.attempts, h.outcomes, h.idle, h.threads⟩
    have hheld : id ∈ s.held := System.mem_held.2 (.inl (List.mem_flatMap.2
      ⟨_, List.mem_of_getElem? he, hid⟩))
    have hi : i ∈ System.held { s with elsewhere := id :: s.elsewhere } ↔ i = id ∨ i ∈ s.held := by
      simp only [System.mem_held, List.mem_cons]
      tauto
    exact hi.trans ⟨fun h => h.elim (fun he => he ▸ hheld) fun h => h, .inr⟩

/-- The invariant holds at the start. -/
theorem AgendaInv.start (lim : AgendaLimits) : AgendaInv lim .start where
  tasks := .empty
  segs := ⟨rfl, Nat.zero_le _, nofun⟩
  attempts := nofun
  outcomes := nofun
  idle _ := rfl
  threads := nofun

/-- The invariant holds in every reachable state. -/
theorem AgendaInv.of_reachable {lim : AgendaLimits} {s : System}
    (h : (agendaMachine lim).Reachable s) : AgendaInv lim s :=
  h.invariant (fun _ hs => hs ▸ .start lim) fun _ _ _ hi hs => hi.step (System.step_cases hs)

/-! ## What the executors that have exited know -/

/-- Tasks are scheduled before `run` or by a running task only. -/
def Label.planned : Label → Bool
  | .schedule .other .. => false
  | _ => true

/-- The runs in which tasks are scheduled so. -/
def plannedMachine (lim : AgendaLimits) : Machine System Label :=
  (agendaMachine lim).restrict fun _ l _ => l.planned

/-- Once an executor has exited, no task is left. -/
def System.Drained (s : System) : Prop :=
  .exited ∈ s.executors → s.agenda.tasks = [] ∧ s.agenda.numWorking = 0

/-- An executor that has exited had done so before another one was set to a state of its own. -/
theorem exited_mem_of_set {es : List Executor} {i : Nat} {y : Executor}
    (h : .exited ∈ es.set i y) (hy : .exited ≠ y) : .exited ∈ es :=
  (List.mem_or_eq_of_mem_set h).resolve_right hy

/-- Waking executors makes none exit. -/
theorem Woken.exited_mem {es fs : List Executor} (h : Woken es fs)
    (he : .exited ∈ es) : .exited ∈ fs :=
  (h.mem_iff (e := .exited) nofun nofun).1 he

/-- While it runs as planned, an agenda of which an executor has exited stays drained. -/
theorem System.Drained.step {lim : AgendaLimits} {s s' : System} {l : Label} (hi : AgendaInv lim s)
    (h : s.Drained) (hl : l.planned) (hs : s.Steps lim l s') : s'.Drained := by
  have hworking : ∀ {e : Nat} {x : Executor}, s.executors[e]? = some x → x.tasks ≠ [] →
      .exited ∉ s.executors := by
    intro e x he hx hex
    have hw : s.working = [] := List.eq_nil_of_length_eq_zero (hi.tasks.numWorking ▸ (h hex).2)
    exact hx (List.flatMap_eq_nil_iff.1 hw _ (List.mem_of_getElem? he))
  intro hex
  cases hs with
  | @schedule caller cls needs ordinal segs woken es hmay hes =>
    have hex : .exited ∈ s.executors := hes.exited_mem hex
    cases caller with
    | main =>
      have hr : s.running = false := by
        simp only [System.maySchedule, Bool.and_eq_true, Bool.not_eq_true'] at hmay
        exact hmay.1
      rw [hi.idle hr] at hex
      cases hex
    | executor e =>
      simp only [System.maySchedule] at hmay
      split at hmay
      · next he => exact absurd hex (hworking he (List.cons_ne_nil _ _))
      · cases hmay
    | other => cases hl
  | run => cases List.eq_of_mem_replicate hex
  | ret => cases hex
  | @move _ e x y he hm =>
    cases hm with
    | exit ht hw => exact ⟨ht, hw⟩
    | _ => exact h (exited_mem_of_set hex nofun)
  | claim he hsc =>
    obtain ⟨ht, -⟩ := h (exited_mem_of_set hex nofun)
    obtain ⟨-, -, -, -, hq, -⟩ := Agenda.scan_some hi.tasks.wf hsc
    rw [ht] at hq
    exact absurd hq.symm (List.not_perm_nil_cons _ _ ∘ List.Perm.symm)
  | cleanup he hes _ =>
    have hex := exited_mem_of_set (hes.exited_mem hex) nofun
    exact absurd hex (hworking he (List.cons_ne_nil _ _))
  | unshare hf hid =>
    rw [hf.agenda_eq]
    cases hf with
    | executor he hd => cases hd <;> exact h (exited_mem_of_set hex nofun)
    | other => exact h hex
  | release hf hid hes =>
    have hex := hes.exited_mem hex
    simp only [hf.agenda_eq]
    cases hf with
    | executor he hd => cases hd <;> exact h (exited_mem_of_set hex nofun)
    | other => exact h hex
  | share => exact h hex

/-- In every state of a planned run, an agenda of which an executor has exited is drained. -/
theorem System.Drained.of_reachable {lim : AgendaLimits} {s : System}
    (h : (plannedMachine lim).Reachable s) : s.Drained := by
  have hboth : AgendaInv lim s ∧ s.Drained := by
    refine h.invariant (I := fun s => AgendaInv lim s ∧ s.Drained) (fun _ hs => ?_)
      fun _ _ _ hi hs => ?_
    · cases hs
      exact ⟨.start lim, nofun⟩
    · have hst := System.step_cases hs.2
      exact ⟨hi.1.step hst, hi.2.step hi.1 hs.1 hst⟩
  exact hboth.2

/-! ## The accounts -/

/-- The accounts of the agenda between two critical sections. -/
structure System.Accounting (lim : AgendaLimits) (s : System) : Prop where
  submitted : s.agenda.numSubmitted =
    s.agenda.tasks.queued.length + s.agenda.numWorking + s.agenda.numDone
  classes : ∀ cls, (findKey cls s.agenda.classes).getD 0 = countClass cls s.working
  limits : ∀ cls, (findKey cls s.agenda.classes).getD 0 ≤ lim.getCapability cls
  working : s.agenda.numWorking = (s.agenda.classes.map Prod.snd).sum
  segments : s.agenda.segmentsInFlight = s.held.toFinset.card
  inFlight : s.agenda.segmentsInFlight ≤ lim.maxSegmentsInFlight
  avail : s.agenda.segmentsAvail lim = lim.maxSegmentsInFlight - s.agenda.segmentsInFlight
  buckets : ∀ b ∈ s.agenda.tasks, b.2 ≠ [] ∧ ∀ c ∈ b.2, c.2 ≠ []
  claimed : (s.claimed.map Prod.fst).Nodup

/-- The invariant gives the accounting. -/
theorem AgendaInv.accounting {lim : AgendaLimits} {s : System} (h : AgendaInv lim s) :
    s.Accounting lim where
  submitted := by
    have := h.tasks.once.length_eq
    simp only [List.length_append, List.length_map, List.length_range] at this
    rw [h.tasks.numWorking, h.tasks.numDone]
    omega
  classes := h.tasks.classCount
  limits cls := h.tasks.classCount cls ▸ h.tasks.classLimit cls
  working := h.tasks.numWorking.trans h.tasks.classSum.symm
  segments := h.segs.live
  inFlight := h.segs.le_max
  avail := Agenda.segmentsAvail_eq h.segs.le_max
  buckets b hb := ⟨(h.tasks.wf.byClass b hb).1, fun c hc => (h.tasks.wf.filed b hb c hc).1⟩
  claimed := by
    have hn := (h.tasks.once.nodup_iff.2 List.nodup_range)
    exact h.tasks.claimed.nodup_iff.2 (List.nodup_append'.1 hn).2.1

/-- Every task scheduled so far is done: the queue is empty, no task is at work, each task has been
cleaned up once, and those counted as failed are those none of whose attempts returned. -/
structure System.AllDone (s : System) : Prop where
  queue : s.agenda.tasks = []
  numWorking : s.agenda.numWorking = 0
  numDone : s.agenda.numDone = s.agenda.numSubmitted
  finished : (ids (s.finished.map Prod.fst)).Perm (List.range s.agenda.numSubmitted)
  attempts : ∀ f ∈ s.finished, f.2.length ≤ maxAttempts
  numFailed : s.agenda.numFailed = (s.finished.filter (none ∉ ·.2)).length

/-- Where nothing is queued and nothing is worked on, every task is done. -/
theorem AgendaInv.allDone {lim : AgendaLimits} {s : System} (h : AgendaInv lim s)
    (hq : s.agenda.tasks = []) (hw : s.agenda.numWorking = 0) : s.AllDone := by
  have hnil : s.working = [] := List.eq_nil_of_length_eq_zero (h.tasks.numWorking ▸ hw)
  have honce := h.tasks.once
  rw [hq, hnil] at honce
  refine ⟨hq, hw, ?_, honce, h.outcomes, h.tasks.numFailed.trans List.countP_eq_length_filter⟩
  have := honce.length_eq
  simp only [List.length_append, List.length_map, List.length_range] at this
  rw [h.tasks.numDone]
  simpa [SizeMap.queued] using this

/-- Where `run` has returned, all tasks are done. -/
theorem System.allDone_of_ret {lim : AgendaLimits} {s s' : System}
    (h : (plannedMachine lim).Reachable s) (hret : s.step lim .ret = some s') : s'.AllDone := by
  have hi := AgendaInv.of_reachable h.of_restrict
  have hi' := hi.step (System.step_cases hret)
  simp only [System.step] at hret
  split at hret
  · next hr =>
    cases hret
    have hlen := hi.threads hr.1
    obtain ⟨e, he⟩ := List.exists_mem_of_ne_nil s.executors fun hnil => by
      have := lim.threadNum_pos
      rw [hnil, List.length_nil] at hlen
      omega
    obtain ⟨hq, hw⟩ := System.Drained.of_reachable h (hr.2 e he ▸ he)
    exact hi'.allDone hq hw
  · cases hret

/-- The agenda keeps its accounts over every run, and has done all its tasks whenever `run`
returns. -/
theorem agenda_accounting (lim : AgendaLimits) :
    (∀ s, (agendaMachine lim).Reachable s → s.Accounting lim) ∧
    (∀ s s', (plannedMachine lim).Reachable s →
      s.step lim .ret = some s' → s'.AllDone) :=
  ⟨fun _ h => (AgendaInv.of_reachable h).accounting, fun _ _ h hret => System.allDone_of_ret h hret⟩

/-- Two classes of one thread and an I/O class of one. -/
def smallLimits : AgendaLimits where
  numUnbound := 1
  numCpuBound := 1
  numIoBound := 1
  maxSegmentsInFlight := 2
  unbound_pos := by decide
  cpuBound_pos := by decide
  ioBound_pos := by decide
  maxSegmentsInFlight_lt := by decide

/-- A run of one task that needs a segment, returns at its second attempt and gives the segment
back, up to the exit of the three executors. -/
def oneTaskRun : List Label :=
  [.schedule .main .ioBound 1 0 [] none, .run, .claim 0, .claim 1, .attempt 0 (some (.es3 .errWarn)),
    .attempt 0 none, .cleanup 0 none, .release (.executor 0) 0 none, .rescan 0, .wake 1,
    .claim 0, .claim 1, .claim 2]

/-- `agenda_accounting` at that run and the return of `run` after it. -/
theorem agenda_accounting_one_task :
    ∃ s s', (plannedMachine smallLimits).Run .start oneTaskRun s ∧
      s.step smallLimits .ret = some s' ∧ s.Accounting smallLimits ∧ s'.AllDone := by
  obtain ⟨s, s', hs, hret⟩ : ∃ s s', (plannedMachine smallLimits).Run .start oneTaskRun s ∧
      s.step smallLimits .ret = some s' :=
    ⟨_, _, Machine.Run.restrict_of_foldlM (f := System.step smallLimits) (fun _ _ _ h => h) rfl, rfl⟩
  have hr : (plannedMachine smallLimits).Reachable s := ⟨_, _, rfl, hs⟩
  exact ⟨s, s', hs, hret, (agenda_accounting smallLimits).1 s hr.of_restrict,
    (agenda_accounting smallLimits).2 s s' hr hret⟩

end ExtremeS3
