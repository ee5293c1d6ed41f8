import ExtremeS3.Agenda.Accounting

/-!
# The agenda never deadlocks

An executor that waits relies on another one: `System.Watched` says that while one waits, some
executor is at work, about to look at the queue or about to give segments back, or is to wake up.
The only step that can break this is an executor that goes to wait. `scan_isSome_of_idle` shows that
it does not when no other one is active: no task is at work, so every class has room, and the
segments are either all free, so that the tasks which need the most get them, or held by queued
tasks that need none, which a pass then looks at.
-/

namespace ExtremeS3

/-- The executor is executing a task, or awake and about to look at the queue, or about to give its
segments back. -/
def Executor.Active (e : Executor) : Prop := e ≠ .blocked ∧ e ≠ .notified ∧ e ≠ .exited

instance (e : Executor) : Decidable e.Active := inferInstanceAs (Decidable (_ ∧ _ ∧ _))

@[simp] theorem Executor.active_running (t : SyncTask) (held : List Nat)
    (outs : List (Option Thrown)) : (Executor.running t held outs).Active := by
  simp [Executor.Active]

@[simp] theorem Executor.active_ended (t : SyncTask) (held : List Nat)
    (outs : List (Option Thrown)) (fail : Bool) : (Executor.ended t held outs fail).Active := by
  simp [Executor.Active]

/-- While an executor waits, some executor is active or to wake up. -/
def System.Watched (s : System) : Prop :=
  .blocked ∈ s.executors → (∃ e ∈ s.executors, e.Active) ∨ .notified ∈ s.executors

/-- While no task is left, no executor waits. -/
def System.Released (s : System) : Prop :=
  s.agenda.tasks = [] → s.agenda.numWorking = 0 → .blocked ∉ s.executors

/-- Every segment is held by an executor, or by a queued task that needs none. -/
def System.SegmentsKept (s : System) : Prop :=
  ∀ id ∈ s.held, id ∈ s.executors.flatMap Executor.segments ∨
    ∃ t ∈ s.agenda.tasks.queued, t.needs = 0 ∧ id ∈ t.segments

instance (s : System) : Decidable s.SegmentsKept :=
  inferInstanceAs (Decidable (∀ id ∈ s.held, _ ∨ ∃ t ∈ s.agenda.tasks.queued, _ ∧ _))

/-- The task that a step schedules needs no more segments than there may be. -/
def Label.fits (lim : AgendaLimits) : Label → Bool
  | .schedule _ _ needs _ _ _ => needs ≤ lim.maxSegmentsInFlight
  | _ => true

/-- The runs that `main` and the tasks provide for: tasks are scheduled before `run` or by a running
task, they need no more segments than there may be, and a segment outlives its claiming task only
inside a queued task that needs none. -/
def providedMachine (lim : AgendaLimits) : Machine System Label :=
  (agendaMachine lim).restrict fun _ l s => l.planned ∧ l.fits lim ∧ s.SegmentsKept

/-! ## A pass of `claim_task` when nothing is at work -/

/-- The bucket a pass looks at exists if the one of the most needy tasks has room, or some queued
task needs no segment. -/
theorem SizeMap.bucket_isSome {m : SizeMap} (hm : m.WF) {avail : Nat} (hne : m ≠ [])
    (h : (∀ b ∈ m, b.1 ≤ avail) ∨ ∃ b ∈ m, b.1 = 0) : ∃ b, m.bucket avail = some b := by
  obtain ⟨last, hlast⟩ := Option.ne_none_iff_exists'.1 (mt List.getLast?_eq_none_iff.1 hne)
  simp only [bucket, hlast]
  rcases h with h | ⟨b, hb, h0⟩
  · exact ⟨last, if_pos (h last (List.mem_of_getLast? hlast))⟩
  · cases m with
    | nil => exact absurd rfl hne
    | cons first m =>
      have hfirst : first.1 = 0 := by
        rcases List.mem_cons.1 hb with rfl | hb
        · exact h0
        · exact Nat.eq_zero_of_le_zero (h0 ▸ ((sorted_cons.1 hm.sorted).1 b hb).le)
      split
      · exact ⟨_, rfl⟩
      · exact ⟨first, if_pos (hfirst ▸ Nat.zero_le _)⟩

/-- With no task at work, and the segments free or held by queued tasks that need none, a pass
claims a task. -/
theorem scan_isSome_of_idle {lim : AgendaLimits} {s : System} (h : AgendaInv lim s)
    (hne : s.agenda.tasks ≠ []) (hw : s.working = [])
    (hneeds : ∀ t ∈ s.agenda.tasks.queued, t.needs ≤ lim.maxSegmentsInFlight)
    (hheld : ∀ id ∈ s.held, ∃ t ∈ s.agenda.tasks.queued, t.needs = 0) :
    s.agenda.scan lim s.agenda.classes ≠ none := by
  have hm := h.tasks.wf
  have hroom : (∀ b ∈ s.agenda.tasks, b.1 ≤ s.agenda.segmentsAvail lim) ∨
      ∃ b ∈ s.agenda.tasks, b.1 = 0 := by
    by_cases hnil : s.held = []
    · refine .inl fun b hb => ?_
      have hfree : s.agenda.segmentsInFlight = 0 := by rw [h.segs.live, hnil]; rfl
      rw [Agenda.segmentsAvail_eq h.segs.le_max, hfree]
      obtain ⟨c, hc⟩ := List.exists_mem_of_ne_nil _ (hm.byClass b hb).1
      obtain ⟨t, ht⟩ := List.exists_mem_of_ne_nil _ (hm.filed b hb c hc).1
      rw [← ((hm.filed b hb c hc).2 t ht).1]
      exact hneeds t (SizeMap.mem_queued.2 ⟨b, hb, c, hc, ht⟩)
    · obtain ⟨id, hid⟩ := List.exists_mem_of_ne_nil _ hnil
      obtain ⟨t, ht, h0⟩ := hheld id hid
      obtain ⟨b, hb, c, hc, htc⟩ := SizeMap.mem_queued.1 ht
      exact .inr ⟨b, hb, ((hm.filed b hb c hc).2 t htc).1 ▸ h0⟩
  obtain ⟨b, hb⟩ := SizeMap.bucket_isSome hm hne hroom
  have hmem := (SizeMap.bucket_some hb).1
  obtain ⟨c, hc⟩ := List.exists_mem_of_ne_nil _ (hm.byClass b hmem).1
  obtain ⟨t, ht⟩ := List.exists_mem_of_ne_nil _ (hm.filed b hmem c hc).1
  have hcls := ((hm.filed b hmem c hc).2 t ht).2
  obtain ⟨e, he, hec⟩ := List.mem_map.1
    (h.tasks.known t (SizeMap.mem_queued.2 ⟨b, hmem, c, hc, ht⟩))
  -- the class of the task has no task at work, so it is below its limit
  have hnum : e.2 = 0 := by
    have hcount := h.tasks.classCount e.1
    rw [h.tasks.sorted.findKey_eq_some.2 he, hw] at hcount
    exact hcount
  intro hnone
  have := Agenda.scan_none hm hnone he (hnum ▸ lim.getCapability_pos _) hb
  rw [hec, hcls, (hm.byClass b hmem).2.findKey_eq_some.2 hc] at this
  cases this

/-! ## The invariant -/

/-- What every reachable state satisfies. -/
structure ProgressInv (lim : AgendaLimits) (s : System) : Prop where
  accounts : AgendaInv lim s
  drained : s.Drained
  needs : ∀ t ∈ s.agenda.tasks.queued, t.needs ≤ lim.maxSegmentsInFlight
  kept : s.SegmentsKept
  released : s.Released
  watched : s.Watched

/-- An active executor was so before others were woken. -/
theorem Woken.active_mem {es fs : List Executor} (h : Woken es fs) {e : Executor} (he : e ∈ fs)
    (ha : e.Active) : e ∈ es :=
  (h.mem_iff ha.1 ha.2.1).2 he

/-- The system is watched when an active executor takes an executor's place. -/
theorem System.watched_of_active {s : System} {e : Executor} (he : e ∈ s.executors)
    (ha : e.Active) : s.Watched :=
  fun _ => .inl ⟨e, he, ha⟩

/-- What an entry is set to is in the list. -/
theorem mem_set_self_of_getElem? {l : List α} {i : Nat} {x y : α} (h : l[i]? = some x) :
    y ∈ l.set i y :=
  List.mem_set (List.getElem?_eq_some_iff.1 h).1 y

/-- An executor that waits for work leaves one at work behind. -/
theorem exists_active_of_numWorking {lim : AgendaLimits} {s : System} (h : AgendaInv lim s)
    (hw : s.agenda.numWorking ≠ 0) : ∃ e ∈ s.executors, e.Active ∧ e ≠ .awake := by
  obtain ⟨t, ht⟩ := List.exists_mem_of_ne_nil s.working fun hnil =>
    hw (h.tasks.numWorking.trans (hnil ▸ rfl))
  obtain ⟨e, he, hte⟩ := List.mem_flatMap.1 ht
  refine ⟨e, he, ?_⟩
  cases e with
  | running | ended => simp
  | _ => cases hte

/-- An executor that finds nothing to claim in a queue that is not empty leaves an active one, or
one that is to wake up, behind. -/
theorem exists_other_of_scan_none {lim : AgendaLimits} {s : System} (h : ProgressInv lim s)
    (hne : s.agenda.tasks ≠ []) (hs : s.agenda.scan lim s.agenda.classes = none) :
    (∃ e ∈ s.executors, e.Active ∧ e ≠ .awake) ∨ .notified ∈ s.executors := by
  by_contra hno
  have hquiet : ∀ e ∈ s.executors, e = .awake ∨ e = .blocked := fun e he => by
    by_cases haw : e = .awake
    · exact .inl haw
    · by_contra hb
      refine hno (.inl ⟨e, he, ⟨fun h => hb (.inr h), fun hn => hno (.inr (hn ▸ he)), fun hx => ?_⟩,
        haw⟩)
      exact hne (h.drained (hx ▸ he)).1
  have hw : s.working = [] := List.flatMap_eq_nil_iff.2 fun e he => by
    rcases hquiet e he with rfl | rfl <;> rfl
  have hsegs : s.executors.flatMap Executor.segments = [] := List.flatMap_eq_nil_iff.2 fun e he => by
    rcases hquiet e he with rfl | rfl <;> rfl
  refine scan_isSome_of_idle h.accounts hne hw h.needs (fun id hid => ?_) hs
  rcases h.kept id hid with hid | ⟨t, ht, h0, -⟩
  · rw [hsegs] at hid
    cases hid
  · exact ⟨t, ht, h0⟩

/-- Every move leaves the system watched. -/
theorem ProgressInv.watched_move {lim : AgendaLimits} {s : System} (h : ProgressInv lim s) {e : Nat}
    {x y : Executor} (he : s.executors[e]? = some x) (hm : x.Moves lim s.agenda y) :
    System.Watched { s with executors := s.executors.set e y } := by
  have hself : y ∈ s.executors.set e y := mem_set_self_of_getElem? he
  -- an executor other than the one that moves stays
  have hstay : x = .awake → ((∃ z ∈ s.executors, z.Active ∧ z ≠ .awake) ∨ .notified ∈ s.executors) →
      System.Watched { s with executors := s.executors.set e y } := by
    rintro rfl (⟨z, hz, ha, hne⟩ | hn)
    · exact System.watched_of_active (mem_set_of_mem_ne he hz hne) ha
    · exact fun _ => .inr (mem_set_of_mem_ne he hn nofun)
  cases hm with
  | exit ht hw =>
    exact fun hb => absurd ((List.mem_or_eq_of_mem_set hb).resolve_right nofun) (h.released ht hw)
  | waitForWork _ hw => exact hstay rfl (.inl (exists_active_of_numWorking h.accounts hw))
  | waitForRoom hne hs => exact hstay rfl (exists_other_of_scan_none h hne hs)
  | _ => exact System.watched_of_active hself ⟨nofun, nofun, nofun⟩

/-- Dropping a segment neither blocks nor notifies an executor. -/
theorem System.Forgets.mem_iff {s s' : System} {id : Nat} {caller : Caller}
    (h : s.Forgets id caller s') {e : Executor} (he : e = .blocked ∨ e = .notified) :
    e ∈ s'.executors ↔ e ∈ s.executors := by
  cases h with
  | @executor i x y hx hd =>
    have hne : e ≠ x ∧ e ≠ y := by cases hd <;> rcases he with rfl | rfl <;> exact ⟨nofun, nofun⟩
    refine ⟨fun h => (List.mem_or_eq_of_mem_set h).resolve_right hne.2, fun h => ?_⟩
    exact mem_set_of_mem_ne hx h hne.1
  | other => rfl

/-- Giving up a reference leaves the system watched. -/
theorem ProgressInv.watched_forget {lim : AgendaLimits} {s s' t : System} (h : ProgressInv lim s)
    {id : Nat} {caller : Caller} (hf : s.Forgets id caller s')
    (ht : Woken t.executors s'.executors) : t.Watched := by
  cases hf with
  | @executor e x y he hd =>
    have ha : y.Active := by cases hd <;> exact ⟨nofun, nofun, nofun⟩
    exact System.watched_of_active (ht.active_mem (mem_set_self_of_getElem? he) ha) ha
  | other =>
    intro hb
    rcases h.watched (ht.blocked hb) with ⟨e, he, ha⟩ | hn
    · exact .inl ⟨e, ht.active_mem he ha, ha⟩
    · exact .inr (ht.notified hn)

/-- While it runs as planned, a step keeps the queue watched. -/
theorem ProgressInv.watched_step {lim : AgendaLimits} {s s' : System} {l : Label}
    (h : ProgressInv lim s) (hl : l.planned) (hs : s.Steps lim l s') : s'.Watched := by
  cases hs with
  | @schedule caller cls needs ordinal segs woken es hmay hes =>
    cases caller with
    | main =>
      have hr : s.running = false := by
        simp only [System.maySchedule, Bool.and_eq_true, Bool.not_eq_true'] at hmay
        exact hmay.1
      intro hb
      have := hes.blocked hb
      rw [h.accounts.idle hr] at this
      cases this
    | executor e =>
      simp only [System.maySchedule] at hmay
      split at hmay
      · next he =>
        exact System.watched_of_active (hes.active_mem (List.mem_of_getElem? he) (by simp))
          (by simp)
      · cases hmay
    | other => cases hl
  | run => exact fun hb => by cases List.eq_of_mem_replicate hb
  | ret => exact fun hb => by cases hb
  | move he hm => exact h.watched_move he hm
  | claim he _ =>
    exact System.watched_of_active (mem_set_self_of_getElem? he) (by simp)
  | cleanup he hes _ =>
    exact System.watched_of_active (hes.active_mem (mem_set_self_of_getElem? he)
      (by simp [Executor.Active])) (by simp [Executor.Active])
  | unshare hf _ => exact h.watched_forget hf (.refl _)
  | release hf _ hes => exact h.watched_forget hf hes
  | share => exact h.watched

/-- A step keeps the segments released that are not in flight. -/
theorem ProgressInv.released_step {lim : AgendaLimits} {s s' : System} {l : Label}
    (h : ProgressInv lim s) (hs : s.Steps lim l s') : s'.Released := by
  intro ht hw hb
  cases hs with
  | schedule => exact SizeMap.insert_ne_nil h.accounts.tasks.wf _ ht
  | run => cases List.eq_of_mem_replicate hb
  | ret => cases hb
  | @move _ e x y he hm =>
    cases hm with
    | waitForWork _ hne => exact hne hw
    | waitForRoom hne _ => exact hne ht
    | _ => exact h.released ht hw ((List.mem_or_eq_of_mem_set hb).resolve_right nofun)
  | claim he hsc =>
    obtain ⟨-, -, -, -, -, ha⟩ := Agenda.scan_some h.accounts.tasks.wf hsc
    rw [ha] at hw
    cases hw
  | cleanup he hes hall => exact hall ht hw hb
  | unshare hf _ =>
    rw [hf.agenda_eq] at ht hw
    exact h.released ht hw ((hf.mem_iff (.inl rfl)).1 hb)
  | release hf _ hes =>
    simp only [hf.agenda_eq] at ht hw
    exact h.released ht hw ((hf.mem_iff (.inl rfl)).1 (hes.blocked hb))
  | share => exact h.released ht hw hb

/-- A step that schedules what fits keeps in the queue only what fits. -/
theorem ProgressInv.needs_step {lim : AgendaLimits} {s s' : System} {l : Label}
    (h : ProgressInv lim s) (hl : l.fits lim) (hs : s.Steps lim l s') :
    ∀ t ∈ s'.agenda.tasks.queued, t.needs ≤ lim.maxSegmentsInFlight := by
  intro t ht
  cases hs with
  | schedule hmay hes =>
    rcases List.mem_cons.1 ((SizeMap.queued_insert h.accounts.tasks.wf _).mem_iff.1 ht) with rfl | ht
    · exact of_decide_eq_true hl
    · exact h.needs t ht
  | claim he hsc =>
    obtain ⟨-, -, -, -, hq, -⟩ := Agenda.scan_some h.accounts.tasks.wf hsc
    exact h.needs t (hq.mem_iff.2 (List.mem_cons_of_mem _ ht))
  | unshare hf _ =>
    rw [hf.agenda_eq] at ht
    exact h.needs t ht
  | release hf _ _ =>
    simp only [hf.agenda_eq] at ht
    exact h.needs t ht
  | _ => exact h.needs t ht

/-- The invariant holds in every state of a provided run. -/
theorem ProgressInv.of_reachable {lim : AgendaLimits} {s : System}
    (h : (providedMachine lim).Reachable s) : ProgressInv lim s := by
  refine h.invariant (I := ProgressInv lim) (fun _ hs => ?_) fun s l s' hi hs => ?_
  · cases hs
    exact ⟨.start lim, nofun, nofun, nofun, fun _ _ => nofun, nofun⟩
  · obtain ⟨⟨hp, hfit, hkept⟩, hs⟩ := hs
    have hst := System.step_cases hs
    exact ⟨hi.accounts.step hst, hi.drained.step hi.accounts hp hst, hi.needs_step hfit hst, hkept,
      hi.released_step hst, hi.watched_step hp hst⟩

/-! ## No deadlock -/

/-- In every reachable state an executor that waits is watched by one that is active or about to
wake up; so the executors that have not exited are never all asleep, neither with tasks in the
queue nor with all work finished. -/
theorem agenda_never_deadlocks {lim : AgendaLimits} {s : System}
    (h : (providedMachine lim).Reachable s) :
    s.Watched ∧
    (s.running → (∀ e ∈ s.executors, e = .exited ∨ e = .blocked) →
      (∀ e ∈ s.executors, e = .exited) ∧ s.agenda.tasks = []) := by
  have hi := ProgressInv.of_reachable h
  refine ⟨hi.watched, fun hr hall => ?_⟩
  have hexited : ∀ e ∈ s.executors, e = .exited := fun e he => by
    refine (hall e he).resolve_right fun hb => ?_
    rcases hi.watched (hb ▸ he) with ⟨x, hx, ha⟩ | hn
    · rcases hall x hx with rfl | rfl
      · exact ha.2.2 rfl
      · exact ha.1 rfl
    · rcases hall _ hn with hx | hx <;> cases hx
  refine ⟨hexited, ?_⟩
  have hlen := hi.accounts.threads hr
  obtain ⟨e, he⟩ := List.exists_mem_of_ne_nil s.executors fun hnil => by
    have := lim.threadNum_pos
    rw [hnil, List.length_nil] at hlen
    omega
  exact (hi.drained (hexited e he ▸ he)).1

/-- A run in which a task that needs a segment schedules one that holds it and needs none, and an
executor waits. -/
def waitingRun : List Label :=
  [.schedule .main .ioBound 1 0 [] none, .run, .claim 0, .claim 1,
    .schedule (.executor 0) .ioBound 0 0 [0] (some 1), .attempt 0 none, .claim 2]

/-- `agenda_never_deadlocks` after that run. -/
theorem agenda_never_deadlocks_waiting :
    ∃ s, (providedMachine smallLimits).Run .start waitingRun s ∧ .blocked ∈ s.executors ∧
      s.Watched := by
  obtain ⟨s, hs, hb⟩ : ∃ s, (providedMachine smallLimits).Run .start waitingRun s ∧
      .blocked ∈ s.executors :=
    ⟨_, Machine.Run.restrict_of_foldlM (f := System.step smallLimits) (fun _ _ _ h => h) rfl,
      by decide⟩
  exact ⟨s, hs, hb, (agenda_never_deadlocks ⟨_, _, rfl, hs⟩).1⟩

end ExtremeS3
