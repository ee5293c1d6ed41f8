import ExtremeS3.Agenda.Accounting

/-!
# Executors that wait in front of work

A pass of `claim_task` looks for a task of each class that is not full, but it looks in one bucket
only: that of the tasks that need the most segments, or the fewest. When it claims a task, the task
is runnable and in that bucket (`scan_runnable`), and when it waits, no task in that bucket is
runnable (`scan_none_runnable`); a runnable task in another bucket does not keep the executor from
waiting (`waits_without_work_iff`).
-/

namespace ExtremeS3

/-- A queued task that an executor could run: its class is not full, and there are segments for
it. -/
structure Agenda.Runnable (lim : AgendaLimits) (a : Agenda) (t : SyncTask) : Prop where
  queued : t ∈ a.tasks.queued
  notFull : (findKey t.cls a.classes).getD 0 < lim.getCapability t.cls
  segments : t.needs ≤ lim.maxSegmentsInFlight - a.segmentsInFlight

/-- The task is in the bucket that a pass of `claim_task` looks at. -/
def Agenda.Examined (lim : AgendaLimits) (a : Agenda) (t : SyncTask) : Prop :=
  ∃ b, a.tasks.bucket (a.segmentsAvail lim) = some b ∧ ∃ c ∈ b.2, t ∈ c.2

section

variable {lim : AgendaLimits} {a : Agenda} {s : System} {e : Nat}

/-- The loop over the classes claims a task of the bucket. -/
theorem scan_examined {cs : List (TaskType × Nat)} {r : SyncTask × Nat × Agenda}
    (h : a.scan lim cs = some r) : a.Examined lim r.1 := by
  induction cs with
  | nil => cases h
  | cons c cs ih =>
    rcases Agenda.scan_cons_some h with h | ⟨-, need, byClass, t, rest, hb, ht, rfl⟩
    · exact ih h
    · exact ⟨_, hb, _, mem_of_findKey ht, List.mem_cons_self⟩

/-- A task that a pass claims is runnable. -/
theorem scan_runnable (hi : AgendaInv lim s) {t : SyncTask} {need : Nat} {a' : Agenda}
    (h : s.agenda.scan lim s.agenda.classes = some (t, need, a')) :
    s.agenda.Runnable lim t ∧ s.agenda.Examined lim t := by
  obtain ⟨rfl, havail, ⟨n, hn, hlt⟩, -, hperm, -⟩ := Agenda.scan_some hi.tasks.wf h
  rw [Agenda.segmentsAvail_eq hi.segs.le_max] at havail
  refine ⟨⟨hperm.mem_iff.2 List.mem_cons_self, ?_, havail⟩, scan_examined h⟩
  rw [hi.tasks.sorted.findKey_eq_some.2 hn]
  exact hlt

/-- A pass that claims nothing finds no runnable task in the bucket. -/
theorem scan_none_runnable (hi : AgendaInv lim s)
    (h : s.agenda.scan lim s.agenda.classes = none) {t : SyncTask}
    (ht : s.agenda.Runnable lim t) : ¬ s.agenda.Examined lim t := by
  rintro ⟨b, hb, c, hc, htc⟩
  have hmem := (SizeMap.bucket_some hb).1
  have hcls := ((hi.tasks.wf.filed b hmem c hc).2 t htc).2
  obtain ⟨⟨cls, num⟩, hknown, rfl⟩ := List.mem_map.1 (hi.tasks.known t ht.queued)
  have hnum := ht.notFull
  rw [hi.tasks.sorted.findKey_eq_some.2 hknown] at hnum
  have hno := Agenda.scan_none hi.tasks.wf h hknown hnum hb
  rw [hcls, (hi.tasks.wf.byClass b hmem).2.findKey_eq_some.2 hc] at hno
  cases hno

/-- In front of a queue, an executor waits when its pass claims nothing. -/
theorem claimTask_blocked_iff (he : s.executors[e]? = some .awake) (hne : s.agenda.tasks ≠ []) :
    (s.claimTask lim e).executors[e]? = some .blocked ↔
      s.agenda.scan lim s.agenda.classes = none := by
  have hlt : e < s.executors.length := (List.getElem?_eq_some_iff.1 he).1
  unfold System.claimTask
  rw [if_neg hne]
  cases hscan : s.agenda.scan lim s.agenda.classes with
  | none => simp [hlt]
  | some r => simp [hlt]

/-- An executor waits only without runnable tasks just when one of them, if there is any, is in the
bucket that it looks at. -/
theorem waits_without_work_iff (hs : (agendaMachine lim).Reachable s)
    (he : s.executors[e]? = some .awake) :
    ((s.claimTask lim e).executors[e]? = some .blocked → ∀ t, ¬ s.agenda.Runnable lim t) ↔
      ((∃ t, s.agenda.Runnable lim t) →
        ∃ t, s.agenda.Runnable lim t ∧ s.agenda.Examined lim t) := by
  have hi := AgendaInv.of_reachable hs
  have hne : ∀ t, s.agenda.Runnable lim t → s.agenda.tasks ≠ [] := by
    intro t ht hnil
    have := ht.queued
    rw [hnil] at this
    cases this
  constructor
  · rintro h ⟨t, ht⟩
    cases hscan : s.agenda.scan lim s.agenda.classes with
    | none => exact absurd ht (h ((claimTask_blocked_iff he (hne t ht)).2 hscan) t)
    | some r => exact ⟨r.1, scan_runnable hi hscan⟩
  · intro h hblocked t ht
    obtain ⟨u, hu, hexamined⟩ := h ⟨t, ht⟩
    have hscan := (claimTask_blocked_iff he (hne t ht)).1 hblocked
    exact scan_none_runnable hi hscan hu hexamined

end

/-- An executor and a task that needs a segment. -/
def oneQueuedRun : List Label := [.schedule .main .ioBound 1 0 [] none, .run]

/-- `waits_without_work_iff` for an executor in front of one task. -/
theorem waits_without_work_iff_one : ∃ s, (agendaMachine smallLimits).Run .start oneQueuedRun s ∧
    ((s.claimTask smallLimits 0).executors[0]? = some .blocked →
      ∀ t, ¬ s.agenda.Runnable smallLimits t) := by
  obtain ⟨s, hs, he, ht, hb⟩ : ∃ s, (agendaMachine smallLimits).Run .start oneQueuedRun s ∧
      s.executors[0]? = some .awake ∧
      s.agenda.Runnable smallLimits ⟨0, .ioBound, 1, 0, []⟩ ∧
      s.agenda.Examined smallLimits ⟨0, .ioBound, 1, 0, []⟩ :=
    ⟨_, Machine.Run.of_foldlM (f := System.step smallLimits) (fun _ _ _ h => h) rfl, rfl,
      ⟨by decide, by decide, by decide⟩, _, rfl, _, List.mem_cons_self, List.mem_cons_self⟩
  exact ⟨s, hs, (waits_without_work_iff ⟨_, _, rfl, hs⟩ he).2 fun _ => ⟨_, ht, hb⟩⟩

/-- An executor works on a task that needs a segment; there is another one, and one that needs
none. -/
def busyClassRun : List Label :=
  [.schedule .main .ioBound 1 0 [] none, .schedule .main .ioBound 1 0 [] none,
    .schedule .main .unbound 0 0 [] none, .run, .claim 0]

/-- An executor waits although the task that needs no segment is runnable: the tasks that need the
most segments are of a class that is full. -/
theorem waits_in_front_of_work : ¬ ∀ (lim : AgendaLimits) (s : System) (e : Nat),
    (agendaMachine lim).Reachable s → s.executors[e]? = some .awake →
      (s.claimTask lim e).executors[e]? = some .blocked → ∀ t, ¬ s.agenda.Runnable lim t := by
  intro hall
  obtain ⟨s, hs, he, hb, ht⟩ : ∃ s, (agendaMachine smallLimits).Run .start busyClassRun s ∧
      s.executors[1]? = some .awake ∧
      (s.claimTask smallLimits 1).executors[1]? = some .blocked ∧
      s.agenda.Runnable smallLimits ⟨2, .unbound, 0, 0, []⟩ :=
    ⟨_, Machine.Run.of_foldlM (f := System.step smallLimits) (fun _ _ _ h => h) rfl, rfl, by decide,
      ⟨by decide, by decide, by decide⟩⟩
  exact hall smallLimits s 1 ⟨_, _, rfl, hs⟩ he hb _ ht

end ExtremeS3
