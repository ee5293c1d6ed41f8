import ExtremeS3.Agenda.Progress

/-!
# Every run of the agenda ends

`agenda::run` returns when all executors have exited. That it does so eventually needs more than
that the executors never all wait: they could wake each other up for ever. `System.weight` counts
what is still to be done: the attempts left to each task, the references to segments that are to be
given up, and the executors that are to look at the queue again. Every step takes some of it away,
but for those that bring in something new, whose label has a cost (`System.Steps.weight_lt`). So a
run is no longer than the tasks scheduled in it account for, provided that no waiting executor wakes
up by itself (`System.Prompt`). And where no step is left that costs nothing, every executor has
exited (`System.Stuck.all_exited`), since otherwise one is active or to wake up, and can make a step.
-/

namespace ExtremeS3

/-! ## What is left to do -/

/-- What a reference to a segment accounts for among `n` executors: to give it up, and the
executors that this may wake up. -/
def refWeight (n : Nat) : Nat := 2 * n + 1

/-- What an executor has still to do before it waits or exits. -/
def Executor.weight (n : Nat) : Executor → Nat
  | .exited | .blocked => 0
  | .awake => 1
  | .notified => 2
  | .releasing segs => 2 + segs.length * refWeight n
  | .ended _ segs _ _ => 2 * n + 3 + segs.length * refWeight n
  | .running _ segs outs => 2 * n + 3 + (maxAttempts - outs.length) + segs.length * refWeight n

/-- What a task in the queue accounts for: an executor that runs it with all attempts left. -/
def SyncTask.weight (n : Nat) (t : SyncTask) : Nat :=
  2 * n + 3 + maxAttempts + (t.segments.length + t.needs) * refWeight n

/-- What is left to do in a state. -/
def System.weight (lim : AgendaLimits) (s : System) : Nat :=
  (s.executors.map (Executor.weight lim.threadNum)).sum +
    (s.agenda.tasks.queued.map (SyncTask.weight lim.threadNum)).sum +
    s.elsewhere.length * refWeight lim.threadNum

/-- What a step brings in. Scheduling a task adds the task, and may wake executors up; the steps of
the executors themselves, and giving up a reference, bring in nothing. -/
def Label.cost (lim : AgendaLimits) : Label → Nat
  | .schedule _ _ needs _ segs _ =>
    2 * lim.threadNum + 3 + maxAttempts + (segs.length + needs) * refWeight lim.threadNum +
      2 * lim.threadNum + 1
  | .share _ _ => refWeight lim.threadNum + 1
  | .run => lim.threadNum + 1
  | .ret => 1
  | _ => 0

/-- No waiting executor wakes up by itself: it looks at the queue again only after a
notification. -/
def System.Prompt (s s' : System) : Prop :=
  ∀ i < s.executors.length, s.executors[i]? = some .blocked → s'.executors[i]? ≠ some .awake

instance (s s' : System) : Decidable (s.Prompt s') :=
  inferInstanceAs (Decidable (∀ i < s.executors.length, _ → _))

/-- The runs without such a wake-up. -/
def promptMachine (lim : AgendaLimits) : Machine System Label :=
  (agendaMachine lim).restrict fun s _ s' => s.Prompt s'

section

variable {lim : AgendaLimits} {s s' : System} {es fs : List Executor} {e n : Nat}

/-- A notification makes an executor no lighter. -/
theorem Executor.weight_le_notify (x : Executor) : x.weight n ≤ x.notify.weight n := by
  cases x <;> simp [Executor.weight, Executor.notify]

/-- A notification costs two steps at most. -/
theorem Executor.notify_weight_le (x : Executor) : x.notify.weight n ≤ x.weight n + 2 := by
  cases x <;> simp [Executor.weight, Executor.notify]

/-- A notification adds two at most for each executor. -/
theorem Woken.weight_le (h : Woken es fs) :
    (es.map (Executor.weight n)).sum ≤ (fs.map (Executor.weight n)).sum + 2 * fs.length := by
  have hup : ∀ gs : List Executor, (gs.map (Executor.weight n)).sum ≤
      ((gs.map Executor.notify).map (Executor.weight n)).sum := by
    intro gs
    induction gs with
    | nil => exact le_refl _
    | cons x gs ih =>
      have := x.weight_le_notify (n := n)
      simp only [List.map_cons, List.sum_cons]
      omega
  have hdown : ∀ gs : List Executor, ((gs.map Executor.notify).map (Executor.weight n)).sum ≤
      (gs.map (Executor.weight n)).sum + 2 * gs.length := by
    intro gs
    induction gs with
    | nil => exact le_refl _
    | cons x gs ih =>
      have := x.notify_weight_le (n := n)
      simp only [List.map_cons, List.sum_cons, List.length_cons]
      omega
  exact (hup es).trans (h.same ▸ hdown fs)

/-- There are no more executors than threads. -/
theorem AgendaInv.length_le (hi : AgendaInv lim s) : s.executors.length ≤ lim.threadNum := by
  cases hr : s.running with
  | false => simp [hi.idle hr]
  | true => exact (hi.threads hr).le

/-- A move of an executor takes some of its weight, unless it wakes up by itself. -/
theorem Executor.Moves.weight_lt {a : Agenda} {x y : Executor} (h : x.Moves lim a y)
    (hx : x.AttemptsOk) (hp : x = .blocked → y ≠ .awake) : y.weight n + 1 ≤ x.weight n := by
  cases h with
  | wake h =>
    rcases h with rfl | rfl
    · exact absurd rfl (hp rfl)
    · exact le_refl _
  | exit | waitForWork | waitForRoom | rescan => simp [Executor.weight]
  | attempt _ | finish _ =>
    have hlt := hx.1
    simp only [Executor.weight, List.length_append, List.length_singleton]
    omega

/-- Giving up a reference takes its weight. -/
theorem Executor.Drops.weight_eq {id : Nat} {x y : Executor} (h : x.Drops id y) :
    y.weight n + refWeight n = x.weight n := by
  cases h with
  | @running t segs outs hid =>
    have hlen := (List.perm_cons_erase hid).length_eq
    simp only [Executor.weight, hlen, List.length_cons, Nat.succ_mul]
    omega
  | @releasing segs hid =>
    have hlen := (List.perm_cons_erase hid).length_eq
    simp only [Executor.weight, hlen, List.length_cons, Nat.succ_mul]
    omega

/-- Dropping a segment takes just its weight off. -/
theorem System.Forgets.weight_eq {id : Nat} {caller : Caller} (h : s.Forgets id caller s') :
    s'.weight lim + refWeight lim.threadNum = s.weight lim := by
  cases h with
  | @executor e x y he hd =>
    have hsum := sum_map_set he y (Executor.weight lim.threadNum)
    have hw := hd.weight_eq (n := lim.threadNum)
    simp only [System.weight]
    omega
  | other hid =>
    have hlen := (List.perm_cons_erase hid).length_eq
    simp only [System.weight, hlen, List.length_cons, Nat.succ_mul]
    omega

/-- Every step takes some of the weight, or its label pays for it. -/
theorem System.Steps.weight_lt {l : Label} (hi : AgendaInv lim s) (hs : s.Steps lim l s')
    (hp : s.Prompt s') : s'.weight lim + 1 ≤ s.weight lim + l.cost lim := by
  have hlen := hi.length_le
  cases hs with
  | @schedule caller cls needs ordinal segs woken es hmay hes =>
    have hw := hes.weight_le (n := lim.threadNum)
    have hq := ((SizeMap.queued_insert hi.tasks.wf
      ⟨s.agenda.numSubmitted, cls, needs, ordinal, segs⟩).map
        (SyncTask.weight lim.threadNum)).sum_nat
    simp only [List.map_cons, List.sum_cons, SyncTask.weight] at hq
    simp only [System.weight, Label.cost, Agenda.schedule]
    omega
  | run hr =>
    have hrep : ((List.replicate lim.threadNum Executor.awake).map
        (Executor.weight lim.threadNum)).sum = lim.threadNum := by
      simp [Executor.weight]
    simp only [System.weight, Label.cost, hrep, hi.idle hr, List.map_nil, List.sum_nil]
    omega
  | ret =>
    simp only [System.weight, Label.cost, List.map_nil, List.sum_nil]
    omega
  | @move _ e x y he hm =>
    have hlt : e < s.executors.length := (List.getElem?_eq_some_iff.1 he).1
    have hsum := sum_map_set he y (Executor.weight lim.threadNum)
    have hw := hm.weight_lt (n := lim.threadNum) (hi.attempts _ (List.mem_of_getElem? he))
      fun hx hy => hp e hlt (hx ▸ he) (by simp [hlt, hy])
    simp only [System.weight]
    omega
  | @claim e t need a he hsc =>
    obtain ⟨rfl, -, -, -, hq, -⟩ := Agenda.scan_some hi.tasks.wf hsc
    have hsum := sum_map_set he (.running t (t.segments ++ List.range' s.nextSegment t.needs) [])
      (Executor.weight lim.threadNum)
    have hq := (hq.map (SyncTask.weight lim.threadNum)).sum_nat
    simp only [List.map_cons, List.sum_cons, SyncTask.weight, Executor.weight, List.length_append,
      List.length_range', List.length_nil] at hq hsum
    simp only [System.weight]
    omega
  | @cleanup e woken t segs outs fail es he hes _ =>
    have hw := hes.weight_le (n := lim.threadNum)
    have hsum := sum_map_set he (.releasing segs) (Executor.weight lim.threadNum)
    rw [List.length_set] at hw
    simp only [Executor.weight] at hsum
    simp only [System.weight, Agenda.cleanup]
    omega
  | unshare hf _ =>
    have hw : s'.weight lim + refWeight lim.threadNum = s.weight lim := hf.weight_eq
    simp only [refWeight] at hw
    omega
  | @release caller id woken r es hf hid hes =>
    have hw : r.weight lim + refWeight lim.threadNum = s.weight lim := hf.weight_eq
    have hwoken := hes.weight_le (n := lim.threadNum)
    have hlen' : r.executors.length = s.executors.length := by
      cases hf with
      | executor => exact List.length_set
      | other => rfl
    simp only [System.weight, refWeight] at hw ⊢
    omega
  | share =>
    simp only [System.weight, Label.cost, List.length_cons, Nat.succ_mul]
    omega

/-- A run without wake-ups that nothing announces is no longer than its labels pay for. -/
theorem length_le_cost {ls : List Label} (h : (promptMachine lim).Run .start ls s) :
    ls.length + s.weight lim ≤ (ls.map (Label.cost lim)).sum := by
  have hle := h.length_add_weight_le (I := AgendaInv lim) (c := Label.cost lim) (w := System.weight lim)
    (.start lim) fun t l u hi hs => by
      have hst := System.step_cases hs.2
      exact ⟨hi.step hst, hst.weight_lt hi hs.1⟩
  have h₀ : System.weight lim .start = 0 := by simp [System.weight, System.start, Agenda.empty,
    SizeMap.queued]
  omega

/-! ## Where a run ends -/

/-- No step is left, but for those that bring in something new and wake-ups that nothing
announces. -/
def System.Stuck (lim : AgendaLimits) (s : System) : Prop :=
  ∀ l s', s.step lim l = some s' → s.Prompt s' → 0 < l.cost lim

/-- The task that an executor has claimed and not run. -/
def Executor.runs : Executor → List SyncTask
  | .running t _ _ => [t]
  | _ => []

/-- The steps of the agenda that are not made within a task, but for the return of `run`: an executor
gives up its references after it has cleaned up. -/
def System.owns (s : System) : Label → Bool
  | .run | .claim _ | .wake _ | .cleanup _ _ | .rescan _ => true
  | .release (.executor e) _ _ =>
    match s.executors[e]? with
    | some (.releasing _) => true
    | _ => false
  | _ => false

/-- A notification can always be made. -/
theorem exists_notifyOne (es : List Executor) : ∃ woken fs, notifyOne es woken = some fs := by
  by_cases hb : .blocked ∈ es
  · obtain ⟨i, hi⟩ := List.mem_iff_getElem?.1 hb
    exact ⟨some i, _, if_pos hi⟩
  · exact ⟨none, es, if_neg hb⟩

/-- Executors that are only notified do not look at the queue yet. -/
theorem System.prompt_of_woken (hw : Woken s'.executors fs)
    (hfs : ∀ i : Nat, s.executors[i]? = some .blocked → fs[i]? = some .blocked) : s.Prompt s' := by
  intro i _ hi hawake
  have hsame := congrArg (·[i]?) hw.same
  simp [hfs i hi, hawake, Executor.notify] at hsame

/-- Setting an executor that was not blocked leaves the blocked ones. -/
theorem blocked_set {x : Executor} (he : s.executors[e]? = some x) (hx : x ≠ .blocked)
    (y : Executor) (i : Nat) (hi : s.executors[i]? = some .blocked) :
    (s.executors.set e y)[i]? = some .blocked := by
  have hne : e ≠ i := by
    rintro rfl
    exact hx (Option.some.inj (he.symm.trans hi))
  rw [getElem?_set_of_getElem? he, if_neg hne]
  exact hi

/-- Only the executor that looks for a task changes its place. -/
theorem claimTask_executors (lim : AgendaLimits) (s : System) (e : Nat) :
    ∃ y, (s.claimTask lim e).executors = s.executors.set e y := by
  unfold System.claimTask
  split
  · split <;> exact ⟨_, rfl⟩
  · split <;> exact ⟨_, rfl⟩

/-- An executor that is active or to wake up can make a step, which is not made within a task unless
it runs one. -/
theorem exists_step (lim : AgendaLimits) {x : Executor} (he : s.executors[e]? = some x)
    (hx : x.Active ∨ x = .notified) :
    ∃ l s', s.step lim l = some s' ∧ s.Prompt s' ∧ l.cost lim = 0 ∧ (x.runs = [] → s.owns l) := by
  have hmove : ∀ {l t y}, x ≠ .blocked → s.step lim l = some t →
      t.executors = s.executors.set e y → l.cost lim = 0 → (x.runs = [] → s.owns l) →
      ∃ l s', s.step lim l = some s' ∧ s.Prompt s' ∧ l.cost lim = 0 ∧ (x.runs = [] → s.owns l) := by
    intro l t y hb hs ht hc ho
    exact ⟨l, t, hs, System.prompt_of_woken (ht ▸ .refl _) (blocked_set he hb y), hc, ho⟩
  cases x with
  | awake =>
    obtain ⟨y, hy⟩ := claimTask_executors lim s e
    exact hmove (l := .claim e) (by simp) (if_pos he) hy rfl fun _ => rfl
  | notified => exact hmove (l := .wake e) (by simp) (if_pos (.inr he)) rfl rfl fun _ => rfl
  | running t segs outs =>
    exact hmove (l := .attempt e none) (by simp) (by simp only [System.step, he, afterAttempt_none]; rfl)
      rfl rfl (by simp [Executor.runs])
  | ended t segs outs fail =>
    let r : System :=
      { s with
        agenda := s.agenda.cleanup t fail
        executors := s.executors.set e (.releasing segs)
        finished := s.finished ++ [(t, outs)] }
    have hstep : ∀ woken, s.step lim (.cleanup e woken) = r.notifyCleanup woken := fun woken => by
      simp only [System.step, he, r]
    have hblocked := blocked_set (s := s) he (by simp) (.releasing segs)
    by_cases hdone : r.agenda.tasks = [] ∧ r.agenda.numWorking = 0
    · exact ⟨.cleanup e none, _, (hstep none).trans (if_pos hdone),
        System.prompt_of_woken (notifyAll_woken _) hblocked, rfl, fun _ => rfl⟩
    · obtain ⟨woken, fs, hfs⟩ := exists_notifyOne r.executors
      refine ⟨.cleanup e woken, { r with executors := fs }, (hstep woken).trans ?_,
        System.prompt_of_woken (notifyOne_woken hfs) hblocked, rfl, fun _ => rfl⟩
      rw [System.notifyCleanup, if_neg hdone, hfs]
      rfl
  | releasing segs =>
    cases segs with
    | nil => exact hmove (l := .rescan e) (by simp) (if_pos he) rfl rfl fun _ => rfl
    | cons id segs =>
      let r : System := { s with executors := s.executors.set e (.releasing segs) }
      have hstep : ∀ woken, s.step lim (.release (.executor e) id woken) =
          r.deleteSegment id woken := fun woken => by
        simp [System.step, System.forget, he, r]
      have hblocked := blocked_set (s := s) he (by simp) (.releasing segs)
      by_cases hid : id ∈ r.held
      · exact ⟨.release (.executor e) id none, r, (hstep none).trans (if_pos hid),
          System.prompt_of_woken (.refl _) hblocked, rfl, fun _ => by simp only [System.owns, he]⟩
      · obtain ⟨woken, fs, hfs⟩ := exists_notifyOne r.executors
        have hwoken : Woken fs (s.executors.set e (.releasing segs)) := notifyOne_woken hfs
        refine ⟨.release (.executor e) id woken,
          { r with
            agenda := { r.agenda with segmentsInFlight := r.agenda.segmentsInFlight - 1 }
            executors := fs },
          (hstep woken).trans ?_, System.prompt_of_woken hwoken hblocked, rfl,
          fun _ => by simp only [System.owns, he]⟩
        rw [System.deleteSegment, if_neg hid, hfs]
        rfl
  | blocked => exact absurd rfl (hx.resolve_right (by simp)).1
  | exited => exact absurd rfl (hx.resolve_right (by simp)).2.2

/-- While an executor has not exited, one is active or to wake up. -/
theorem System.Watched.exists_moving (hw : s.Watched) {x : Executor} (hx : x ∈ s.executors)
    (hne : x ≠ .exited) : ∃ y ∈ s.executors, y.Active ∨ y = .notified := by
  by_cases hact : x.Active ∨ x = .notified
  · exact ⟨x, hx, hact⟩
  · have hb : x = .blocked := by
      by_contra hb
      exact hact (or_iff_not_imp_right.2 fun hn => ⟨hb, hn, hne⟩)
    rcases hw (hb ▸ hx) with ⟨y, hy, hact⟩ | hn
    · exact ⟨y, hy, .inl hact⟩
    · exact ⟨_, hn, .inr rfl⟩

/-- Where no step is left, every executor has exited. -/
theorem System.Stuck.all_exited (h : s.Stuck lim) (hw : s.Watched) :
    ∀ x ∈ s.executors, x = .exited := by
  intro x hx
  by_contra hne
  obtain ⟨y, hy, hact⟩ := hw.exists_moving hx hne
  obtain ⟨e, he⟩ := List.mem_iff_getElem?.1 hy
  obtain ⟨l, s', hs, hp, hc, -⟩ := exists_step lim he hact
  exact absurd hc (h l s' hs hp).ne'

/-- Executors that have exited make no step, and no reference is left to be given up. -/
theorem stuck_of_all_exited (hx : ∀ x ∈ s.executors, x = .exited) (hn : s.elsewhere = []) :
    s.Stuck lim := by
  have hex : ∀ {e : Nat} {x : Executor}, s.executors[e]? = some x → x = .exited :=
    fun he => hx _ (List.mem_of_getElem? he)
  intro l s' hs _
  cases System.step_cases hs with
  | schedule | run | ret | share => exact Nat.succ_pos _
  | move he hm =>
    cases hex he
    cases hm with
    | wake h => rcases h with h | h <;> cases h
  | claim he _ | cleanup he _ _ => cases hex he
  | unshare hf _ | release hf _ _ =>
    cases hf with
    | executor he hd => cases hex he; cases hd
    | other hid => rw [hn] at hid; cases hid

/-- While no executor holds a segment and no task is queued, there is none. -/
theorem ProgressInv.elsewhere_eq_nil (h : ProgressInv lim s)
    (hx : ∀ x ∈ s.executors, x = .exited) (hq : s.agenda.tasks = []) : s.elsewhere = [] := by
  refine List.eq_nil_iff_forall_not_mem.2 fun id hid => ?_
  rcases h.kept id (System.mem_held.2 (.inr (.inr hid))) with hid | ⟨t, ht, -⟩
  · rw [flatMap_eq_nil_of_forall_exited hx rfl] at hid
    cases hid
  · rw [hq] at ht
    cases ht

/-- Once all executors have exited, the queue is empty and no task is at work. -/
theorem ProgressInv.drained_of_all_exited (h : ProgressInv lim s) (hr : s.running = true)
    (hx : ∀ x ∈ s.executors, x = .exited) : s.agenda.tasks = [] ∧ s.agenda.numWorking = 0 := by
  have hlen := h.accounts.threads hr
  obtain ⟨x, hmem⟩ := List.exists_mem_of_ne_nil s.executors fun hnil => by
    have := lim.threadNum_pos
    rw [hnil, List.length_nil] at hlen
    omega
  exact h.drained (hx x hmem ▸ hmem)

/-- When a run has no step left, all executors have exited, and conversely. -/
theorem ProgressInv.stuck_iff (h : ProgressInv lim s) (hr : s.running = true) :
    s.Stuck lim ↔ ∀ x ∈ s.executors, x = .exited := by
  refine ⟨fun hs => hs.all_exited h.watched, fun hx => ?_⟩
  exact stuck_of_all_exited hx (h.elsewhere_eq_nil hx (h.drained_of_all_exited hr hx).1)

/-- Once all executors have exited, every task is done, no segment is in flight, and `run` can
return. -/
theorem ProgressInv.done (h : ProgressInv lim s) (hr : s.running = true)
    (hx : ∀ x ∈ s.executors, x = .exited) :
    s.AllDone ∧ s.agenda.segmentsInFlight = 0 ∧ ∃ s', s.step lim .ret = some s' := by
  obtain ⟨hq, hw⟩ := h.drained_of_all_exited hr hx
  have hheld : s.held = [] := by
    rw [System.held, flatMap_eq_nil_of_forall_exited hx rfl, hq, h.elsewhere_eq_nil hx hq]
    rfl
  refine ⟨h.accounts.allDone hq hw, ?_, _, if_pos ⟨hr, hx⟩⟩
  rw [h.accounts.segs.live, hheld]
  rfl

/-- Every run of the agenda in which executors wake up only when they are notified ends: it has no
more steps than the tasks that are scheduled in it, the segments that are shared and the calls of
`run` pay for, however the steps of the executors are interleaved and whatever the attempts of the
tasks do. And it ends well: no step is left just when all executors have exited, and then every task
is done, no segment is in flight and `run` returns. -/
theorem agenda_terminates (lim : AgendaLimits) :
    (∀ ls s, (promptMachine lim).Run .start ls s →
      ls.length ≤ (ls.map (Label.cost lim)).sum) ∧
    ∀ s, (providedMachine lim).Reachable s → s.running = true →
      (s.Stuck lim ↔ ∀ x ∈ s.executors, x = .exited) ∧
      (s.Stuck lim →
        s.AllDone ∧ s.agenda.segmentsInFlight = 0 ∧ ∃ s', s.step lim .ret = some s') := by
  refine ⟨fun ls s h => ?_, fun s h hr => ?_⟩
  · exact (Nat.le_add_right _ _).trans (length_le_cost h)
  · have hi := ProgressInv.of_reachable h
    exact ⟨hi.stuck_iff hr, fun hs => hi.done hr (hs.all_exited hi.watched)⟩

end

/-- `agenda_terminates` for a run of one task, which is at its end. -/
theorem agenda_terminates_one_task :
    oneTaskRun.length ≤ (oneTaskRun.map (Label.cost smallLimits)).sum ∧
    ∃ s, (providedMachine smallLimits).Run .start oneTaskRun s ∧ s.Stuck smallLimits ∧ s.AllDone := by
  obtain ⟨hlen, hend⟩ := agenda_terminates smallLimits
  obtain ⟨s, hs, hr, hx⟩ : ∃ s, (providedMachine smallLimits).Run .start oneTaskRun s ∧
      s.running = true ∧ ∀ x ∈ s.executors, x = .exited :=
    ⟨_, Machine.Run.restrict_of_foldlM (f := System.step smallLimits) (fun _ _ _ h => h) rfl, rfl,
      by decide⟩
  obtain ⟨t, ht⟩ : ∃ t, (promptMachine smallLimits).Run .start oneTaskRun t :=
    ⟨_, Machine.Run.restrict_of_foldlM (f := System.step smallLimits) (fun _ _ _ h => h) rfl⟩
  obtain ⟨hiff, hdone⟩ := hend s ⟨_, _, rfl, hs⟩ hr
  have hstuck := hiff.2 hx
  exact ⟨hlen _ t ht, s, hs, hstuck, (hdone hstuck).1⟩

end ExtremeS3
