import ExtremeS3.Agenda.Idle

/-!
# The order in which tasks are claimed

A pass of `claim_task` chooses between the tasks in the queue by what they need, then by their
class, then by their ordinal, and last by when they were scheduled. `Agenda.Selects` says so of the
queue as a plain collection of tasks, and `executor_runs_iff` that the nested maps of the agenda
claim that task and no other. `SizeMap.InOrder` is what the maps need for it: `insert` puts a task
behind those of an equal ordinal (`InOrder.insert`), which were all scheduled before it.

Tasks that need the same number of segments and are of one class are therefore claimed in the order
in which they were scheduled, unless an ordinal says otherwise: `System.Ordered` is kept by every
step of the executors (`System.Ordered.step`), whatever they wait for and however they are woken.
-/

namespace ExtremeS3

/-! ## The order of the maps -/

/-- The order of the tasks in one map: that of the ordinals, and among equal ones that in which the
tasks were scheduled. -/
def SyncTask.Before (t u : SyncTask) : Prop :=
  t.ordinal < u.ordinal ∨ t.ordinal = u.ordinal ∧ t.id < u.id

/-- No two tasks are each before the other. -/
theorem SyncTask.Before.asymm {t u : SyncTask} (h : t.Before u) : ¬ u.Before t := by
  unfold SyncTask.Before at *
  omega

/-- Every map of the queue is in that order. -/
def SizeMap.InOrder (m : SizeMap) : Prop := ∀ b ∈ m, ∀ c ∈ b.2, c.2.Pairwise SyncTask.Before

/-- A task that was scheduled after those of the map goes behind those of an equal ordinal. -/
theorem TaskMap.pairwise_insert {m : TaskMap} (h : m.Pairwise SyncTask.Before) {t : SyncTask}
    (ht : ∀ u ∈ m, u.id < t.id) : (TaskMap.insert t m).Pairwise SyncTask.Before := by
  unfold TaskMap.insert
  induction m with
  | nil => exact List.pairwise_singleton _ _
  | cons u m ih =>
    obtain ⟨hu, hm⟩ := List.pairwise_cons.1 h
    rw [List.orderedInsert_cons]
    split
    · next hlt =>
      refine List.pairwise_cons.2 ⟨fun v hv => ?_, h⟩
      rcases List.mem_cons.1 hv with rfl | hv
      · exact .inl hlt
      · refine .inl (lt_of_lt_of_le hlt ?_)
        rcases hu v hv with h | h
        · exact h.le
        · exact h.1.le
    · next hle =>
      refine List.pairwise_cons.2 ⟨fun v hv => ?_, ih hm fun v hv => ht v (.tail _ hv)⟩
      rcases (List.mem_orderedInsert _).1 hv with rfl | hv
      · have hid := ht u (.head _)
        unfold SyncTask.Before
        omega
      · exact hu v hv

section

variable {m : SizeMap}

/-- The map that `schedule` finds, or makes, is in order. -/
theorem SizeMap.InOrder.found (h : m.InOrder) (need : Nat) (cls : TaskType) :
    ((findKey cls ((findKey need m).getD [])).getD []).Pairwise SyncTask.Before := by
  cases hb : findKey need m with
  | none => exact List.Pairwise.nil
  | some byClass =>
    cases hc : findKey cls byClass with
    | none => simp [hc]
    | some taskMap =>
      simp only [Option.getD_some, hc]
      exact h _ (mem_of_findKey hb) _ (mem_of_findKey hc)

/-- A task that is found by its need and its class is queued. -/
theorem SizeMap.mem_queued_of_found {need : Nat} {cls : TaskType} {u : SyncTask}
    (hu : u ∈ (findKey cls ((findKey need m).getD [])).getD []) : u ∈ m.queued := by
  cases hb : findKey need m with
  | none => simp [hb] at hu
  | some byClass =>
    rw [hb] at hu
    cases hc : findKey cls byClass with
    | none => simp [hc] at hu
    | some taskMap =>
      simp only [Option.getD_some, hc] at hu
      exact SizeMap.mem_queued.2 ⟨_, mem_of_findKey hb, _, mem_of_findKey hc, hu⟩

/-- Inserting a task that was scheduled last keeps the queues in order. -/
theorem SizeMap.InOrder.insert (h : m.InOrder) (hw : m.WF) {t : SyncTask}
    (ht : ∀ u ∈ m.queued, u.id < t.id) : (m.insert t).InOrder := by
  intro b hb c hc
  rcases hw.sorted.mem_upsert.1 hb with rfl | ⟨hb, -⟩
  · rcases (sorted_getD hw t.needs).mem_upsert.1 hc with rfl | ⟨hc, -⟩
    · exact TaskMap.pairwise_insert (h.found _ _) fun u hu => ht u (mem_queued_of_found hu)
    · cases hb : findKey t.needs m with
      | none => simp [hb] at hc
      | some byClass =>
        rw [hb] at hc
        exact h _ (mem_of_findKey hb) c hc
  · exact h b hb c hc

/-- Taking the first task out of a map leaves the maps in order. -/
theorem SizeMap.InOrder.leave (h : m.InOrder) (hw : m.WF) {need : Nat} {byClass : TaskByClass}
    (hb : (need, byClass) ∈ m) {cls : TaskType} {t : SyncTask} {rest : TaskMap}
    (hc : (cls, t :: rest) ∈ byClass) : (m.leave need byClass cls rest).InOrder := by
  have hin : ∀ c ∈ byClass, c.2.Pairwise SyncTask.Before := h _ hb
  have hup : ∀ byClass' : TaskByClass, (∀ c ∈ byClass', c.2.Pairwise SyncTask.Before) →
      SizeMap.InOrder (upsert need (fun _ => byClass') m) := by
    intro byClass' h' b hb
    rcases hw.sorted.mem_upsert.1 hb with rfl | ⟨hb, -⟩
    · exact h'
    · exact h b hb
  unfold SizeMap.leave
  split
  · split
    · exact fun b hb => h b (mem_eraseKey.1 hb).1
    · exact hup _ fun c hc => hin c (mem_eraseKey.1 hc).1
  · refine hup _ fun c hc' => ?_
    rcases (hw.byClass _ hb).2.mem_upsert.1 hc' with rfl | ⟨hc', -⟩
    · exact (hin _ hc).tail
    · exact hin c hc'

/-! ## The bucket of a pass -/

/-- Every bucket has a task. -/
theorem SizeMap.WF.exists_queued (h : m.WF) {b : Nat × TaskByClass} (hb : b ∈ m) :
    ∃ t ∈ m.queued, t.needs = b.1 := by
  obtain ⟨c, hc⟩ := List.exists_mem_of_ne_nil _ (h.byClass b hb).1
  obtain ⟨hne, hf⟩ := h.filed b hb c hc
  obtain ⟨t, ht⟩ := List.exists_mem_of_ne_nil _ hne
  exact ⟨t, SizeMap.mem_queued.2 ⟨b, hb, c, hc, ht⟩, (hf t ht).1⟩

/-- The bucket has the tasks that need the most segments, if there are so many, and else those that
need the fewest. -/
theorem SizeMap.bucket_eq_some_iff (h : m.WF) {avail : Nat} {b : Nat × TaskByClass} :
    m.bucket avail = some b ↔
      b ∈ m ∧ b.1 ≤ avail ∧
        ((∀ c ∈ m, c.1 ≤ b.1) ∨ (∃ c ∈ m, avail < c.1) ∧ ∀ c ∈ m, b.1 ≤ c.1) := by
  unfold SizeMap.bucket
  cases hl : m.getLast? with
  | none => simp [List.getLast?_eq_none_iff.1 hl]
  | some last =>
    have hlast : last ∈ m := List.mem_of_getLast? hl
    have hmax := h.sorted.le_getLast hl
    cases hf : m.head? with
    | none => simp [List.head?_eq_none_iff.1 hf] at hlast
    | some first =>
      have hfirst : first ∈ m := List.mem_of_head? hf
      have hmin := h.sorted.head_le hf
      simp only
      split
      · next hle =>
        refine ⟨fun he => ?_, fun ⟨hb, _, hn⟩ => ?_⟩
        · cases he
          exact ⟨hlast, hle, .inl hmax⟩
        · rcases hn with hn | ⟨⟨c, hc, hlt⟩, -⟩
          · exact congrArg some
              (h.sorted.eq_of_key hlast hb (le_antisymm (hn _ hlast) (hmax b hb)))
          · exact absurd (hlt.trans_le (hmax c hc)) (not_lt.2 hle)
      · next hgt =>
        split
        · next hle =>
          refine ⟨fun he => ?_, fun ⟨hb, hav, hn⟩ => ?_⟩
          · cases he
            exact ⟨hfirst, hle, .inr ⟨⟨last, hlast, not_le.1 hgt⟩, hmin⟩⟩
          · rcases hn with hn | ⟨-, hn⟩
            · exact absurd ((hn _ hlast).trans hav) hgt
            · exact congrArg some
                (h.sorted.eq_of_key hfirst hb (le_antisymm (hmin b hb) (hn _ hfirst)))
        · next hgt' =>
          refine ⟨nofun, fun ⟨hb, hav, _⟩ => ?_⟩
          exact absurd ((hmin b hb).trans hav) hgt'

/-! ## The task that a pass selects -/

variable {lim : AgendaLimits} {a : Agenda} {s s' : System} {e : Nat} {t u : SyncTask}

/-- The task that a pass of `claim_task` is to claim, said of the tasks in the queue without the
maps that keep them: it can be run, it needs the most segments or, if those are too many, the
fewest, and of the tasks that need as many and whose class is not full it is the first. -/
structure Agenda.Selects (lim : AgendaLimits) (a : Agenda) (t : SyncTask) : Prop where
  runnable : a.Runnable lim t
  needs : (∀ u ∈ a.tasks.queued, u.needs ≤ t.needs) ∨
    (∃ u ∈ a.tasks.queued, lim.maxSegmentsInFlight - a.segmentsInFlight < u.needs) ∧
      ∀ u ∈ a.tasks.queued, t.needs ≤ u.needs
  first : ∀ u ∈ a.tasks.queued, u.needs = t.needs →
    (findKey u.cls a.classes).getD 0 < lim.getCapability u.cls →
      u = t ∨ t.cls < u.cls ∨ t.cls = u.cls ∧ t.Before u

/-- There is one such task at most. -/
theorem Agenda.Selects.unique (ht : a.Selects lim t) (hu : a.Selects lim u) : t = u := by
  have hneeds : t.needs = u.needs := by
    have htq := ht.runnable.queued
    have huq := hu.runnable.queued
    have hts := ht.runnable.segments
    have hus := hu.runnable.segments
    rcases ht.needs with h₁ | ⟨⟨v, hv, hlt⟩, h₁⟩
    · rcases hu.needs with h₂ | ⟨⟨v, hv, hlt⟩, -⟩
      · exact le_antisymm (h₂ t htq) (h₁ u huq)
      · exact absurd (hlt.trans_le (h₁ v hv)) (not_lt.2 hts)
    · rcases hu.needs with h₂ | ⟨-, h₂⟩
      · exact absurd (hlt.trans_le (h₂ v hv)) (not_lt.2 hus)
      · exact le_antisymm (h₁ u huq) (h₂ t htq)
  rcases ht.first u hu.runnable.queued hneeds.symm hu.runnable.notFull with h | h | ⟨hc, hb⟩
  · exact h.symm
  · rcases hu.first t ht.runnable.queued hneeds ht.runnable.notFull with h' | h' | ⟨hc, -⟩
    · exact h'
    · exact absurd h (lt_asymm h')
    · exact absurd hc (ne_of_gt h)
  · rcases hu.first t ht.runnable.queued hneeds ht.runnable.notFull with h' | h' | ⟨-, hb'⟩
    · exact h'
    · exact absurd hc (ne_of_gt h')
    · exact absurd hb' hb.asymm

/-- The tasks of the bucket that a pass looks at. -/
theorem Agenda.examined_iff (hw : a.tasks.WF) :
    a.Examined lim t ↔ t ∈ a.tasks.queued ∧ t.needs ≤ a.segmentsAvail lim ∧
      ((∀ u ∈ a.tasks.queued, u.needs ≤ t.needs) ∨
        (∃ u ∈ a.tasks.queued, a.segmentsAvail lim < u.needs) ∧
          ∀ u ∈ a.tasks.queued, t.needs ≤ u.needs) := by
  have hbuckets : ∀ p : Nat → Prop,
      (∀ b ∈ a.tasks, p b.1) ↔ ∀ u ∈ a.tasks.queued, p u.needs := by
    intro p
    refine ⟨fun h u hu => ?_, fun h b hb => ?_⟩
    · obtain ⟨b, hb, c, hc, huc⟩ := SizeMap.mem_queued.1 hu
      rw [((hw.filed b hb c hc).2 u huc).1]
      exact h b hb
    · obtain ⟨u, hu, hn⟩ := hw.exists_queued hb
      exact hn ▸ h u hu
  have hmost := fun n : Nat => hbuckets (· ≤ n)
  have hfewest := fun n : Nat => hbuckets (n ≤ ·)
  have hmore : (∃ b ∈ a.tasks, a.segmentsAvail lim < b.1) ↔
      ∃ u ∈ a.tasks.queued, a.segmentsAvail lim < u.needs := by
    have h := not_congr (hbuckets (· ≤ a.segmentsAvail lim))
    push Not at h
    exact h
  unfold Agenda.Examined
  simp only [SizeMap.bucket_eq_some_iff hw, hmost, hmore, hfewest]
  constructor
  · rintro ⟨b, ⟨hb, havail, hn⟩, c, hc, ht⟩
    rw [← ((hw.filed b hb c hc).2 t ht).1] at havail hn
    exact ⟨SizeMap.mem_queued.2 ⟨b, hb, c, hc, ht⟩, havail, hn⟩
  · rintro ⟨ht, havail, hn⟩
    obtain ⟨b, hb, c, hc, htc⟩ := SizeMap.mem_queued.1 ht
    rw [((hw.filed b hb c hc).2 t htc).1] at havail hn
    exact ⟨b, ⟨hb, havail, hn⟩, c, hc, htc⟩

/-- When the loop is at a class that is not full, it claims the first task of this class in the
bucket. -/
theorem Agenda.scan_cons_first (hw : a.tasks.WF) (ho : a.tasks.InOrder) {num need : Nat}
    {cs : List (TaskType × Nat)} {a' : Agenda}
    (h : a.scan lim ((u.cls, num) :: cs) = some (t, need, a')) (hu : u ∈ a.tasks.queued)
    (hneeds : u.needs = t.needs) (hnum : num < lim.getCapability u.cls) :
    u = t ∨ t.cls = u.cls ∧ t.Before u := by
  obtain ⟨b, hb, c, hc, htc⟩ := scan_examined h
  have hmem := (SizeMap.bucket_some hb).1
  obtain ⟨b', hb', c', hc', huc⟩ := SizeMap.mem_queued.1 hu
  -- the task is in the bucket, since it needs as much as the one that is claimed
  have hbucket : b' = b := by
    refine hw.sorted.eq_of_key hb' hmem ?_
    rw [← ((hw.filed _ hb' _ hc').2 u huc).1, ← ((hw.filed _ hmem _ hc).2 t htc).1]
    exact hneeds
  subst hbucket
  have hcls := ((hw.filed _ hb' _ hc').2 u huc).2
  have hfind : findKey u.cls b'.2 = some c'.2 := by
    rw [hcls]
    exact (hw.byClass _ hb').2.findKey_eq_some.2 hc'
  have hsorted := ho _ hb' _ hc'
  cases htasks : c'.2 with
  | nil => exact absurd htasks (hw.filed _ hb' _ hc').1
  | cons v rest =>
    rw [htasks] at hfind huc hsorted
    have hv : v.cls = u.cls := by
      rw [hcls]
      exact ((hw.filed _ hb' _ hc').2 v (htasks ▸ .head _)).2
    simp only [Agenda.scan, if_neg (not_le.2 hnum), hb, hfind] at h
    cases h
    rcases List.mem_cons.1 huc with rfl | huc
    · exact .inl rfl
    · exact .inr ⟨hv, (List.pairwise_cons.1 hsorted).1 u huc⟩

/-- The loop over the classes claims the first task of the first class that is not full and has a
task in the bucket. -/
theorem Agenda.scan_first (hw : a.tasks.WF) (ho : a.tasks.InOrder) {cs : List (TaskType × Nat)}
    (hcs : Sorted cs) {need : Nat} {a' : Agenda} (h : a.scan lim cs = some (t, need, a')) :
    ∀ u ∈ a.tasks.queued, u.needs = t.needs →
      (∃ n, (u.cls, n) ∈ cs ∧ n < lim.getCapability u.cls) →
        u = t ∨ t.cls < u.cls ∨ t.cls = u.cls ∧ t.Before u := by
  induction cs with
  | nil => cases h
  | cons c cs ih =>
    rintro u hu hneeds ⟨n, hn, hlt⟩
    rcases List.mem_cons.1 hn with rfl | htail
    · exact (Agenda.scan_cons_first hw ho h hu hneeds hlt).imp_right .inr
    · obtain ⟨cls, num⟩ := c
      rcases Agenda.scan_cons_some h with h | ⟨-, need', byClass, v, rest, hb, hv, he⟩
      · exact ih (sorted_cons.1 hcs).2 h u hu hneeds ⟨n, htail, hlt⟩
      · cases he
        have hc := (hw.filed _ (SizeMap.bucket_some hb).1 _ (mem_of_findKey hv)).2 t (.head _)
        rw [hc.2]
        exact .inr (.inl ((sorted_cons.1 hcs).1 _ htail))

/-- A pass claims the task that is selected. -/
theorem scan_selects (hi : AgendaInv lim s) (ho : s.agenda.tasks.InOrder) {need : Nat}
    {a' : Agenda} (h : s.agenda.scan lim s.agenda.classes = some (t, need, a')) :
    s.agenda.Selects lim t := by
  obtain ⟨hr, hx⟩ := scan_runnable hi h
  obtain ⟨-, -, hneeds⟩ := (Agenda.examined_iff hi.tasks.wf).1 hx
  rw [Agenda.segmentsAvail_eq hi.segs.le_max] at hneeds
  refine ⟨hr, hneeds, fun u hu hn hlt => ?_⟩
  obtain ⟨⟨cls, num⟩, hknown, rfl⟩ := List.mem_map.1 (hi.tasks.known u hu)
  rw [hi.tasks.sorted.findKey_eq_some.2 hknown] at hlt
  exact Agenda.scan_first hi.tasks.wf ho hi.tasks.sorted h u hu hn ⟨num, hknown, hlt⟩

/-- If a task is selected, the pass claims one. -/
theorem scan_isSome_of_selects (hi : AgendaInv lim s) (ht : s.agenda.Selects lim t) :
    ∃ r, s.agenda.scan lim s.agenda.classes = some r := by
  refine Option.ne_none_iff_exists'.1 fun hnone => ?_
  refine scan_none_runnable hi hnone ht.runnable ((Agenda.examined_iff hi.tasks.wf).2 ?_)
  rw [Agenda.segmentsAvail_eq hi.segs.le_max]
  exact ⟨ht.runnable.queued, ht.runnable.segments, ht.needs⟩

/-- An executor that looks for a task runs the one that is selected afterwards. -/
theorem executor_runs_iff (hi : AgendaInv lim s) (ho : s.agenda.tasks.InOrder)
    (he : s.executors[e]? = some .awake) :
    (∃ segs, (s.claimTask lim e).executors[e]? = some (.running t segs [])) ↔
      s.agenda.Selects lim t := by
  have hlt : e < s.executors.length := (List.getElem?_eq_some_iff.1 he).1
  unfold System.claimTask
  constructor
  · rintro ⟨segs, h⟩
    split at h
    · split at h <;> simp [hlt] at h
    · split at h
      · simp [hlt] at h
      · next u need a' hscan =>
        simp only [List.getElem?_set_self hlt, Option.some.injEq, Executor.running.injEq] at h
        exact h.1 ▸ scan_selects hi ho hscan
  · intro h
    obtain ⟨⟨u, need, a'⟩, hscan⟩ := scan_isSome_of_selects hi h
    have hne : s.agenda.tasks ≠ [] := by
      intro hnil
      have hq := h.runnable.queued
      rw [hnil] at hq
      cases hq
    obtain rfl := (scan_selects hi ho hscan).unique h
    simp only [if_neg hne, hscan, List.getElem?_set_self hlt]
    exact ⟨_, rfl⟩

/-! ## Runs -/

/-- A claim leaves the maps in order. -/
theorem Agenda.scan_inOrder (hw : a.tasks.WF) (ho : a.tasks.InOrder) {cs : List (TaskType × Nat)}
    {need : Nat} {a' : Agenda} (h : a.scan lim cs = some (t, need, a')) : a'.tasks.InOrder := by
  induction cs with
  | nil => cases h
  | cons c cs ih =>
    obtain ⟨cls, num⟩ := c
    rcases Agenda.scan_cons_some h with h | ⟨-, need', byClass, v, rest, hb, hv, he⟩
    · exact ih h
    · cases he
      exact ho.leave hw (SizeMap.bucket_some hb).1 (mem_of_findKey hv)

/-- The tasks that have been scheduled. -/
def System.scheduled (s : System) : List SyncTask :=
  s.agenda.tasks.queued ++ (s.working ++ s.finished.map Prod.fst)

/-- The tasks that were scheduled have the numbers up to the next one, each once. -/
theorem AgendaInv.scheduled_perm (hi : AgendaInv lim s) :
    (ids s.scheduled).Perm (List.range s.agenda.numSubmitted) := by
  have h := hi.tasks.once
  simpa only [System.scheduled, ids, List.map_append] using h

/-- A task that was scheduled has a number below the next one. -/
theorem AgendaInv.id_lt (hi : AgendaInv lim s) (ht : t ∈ s.scheduled) :
    t.id < s.agenda.numSubmitted :=
  List.mem_range.1 (hi.scheduled_perm.mem_iff.1 (List.mem_map_of_mem ht))

/-- A task that was scheduled is known by its number. -/
theorem AgendaInv.eq_of_id (hi : AgendaInv lim s) (ht : t ∈ s.scheduled) (hu : u ∈ s.scheduled)
    (h : t.id = u.id) : t = u :=
  List.inj_on_of_nodup_map (hi.scheduled_perm.nodup_iff.2 List.nodup_range) ht hu h

/-- A task that is scheduled and no longer in the queue has been claimed. -/
theorem AgendaInv.mem_claimed (hi : AgendaInv lim s) {id : Nat} :
    id ∈ s.claimed.map Prod.fst ↔ id ∈ ids (s.working ++ s.finished.map Prod.fst) := by
  rw [hi.tasks.claimed.mem_iff, ids, ids, ids, List.map_append]

/-- What a step does to the queue, the claims and the scheduled tasks. -/
inductive System.Effect (lim : AgendaLimits) (s s' : System) : Prop
  | schedule {t : SyncTask} : t.id = s.agenda.numSubmitted →
      s'.agenda.tasks = s.agenda.tasks.insert t → s'.claimed = s.claimed →
      s'.scheduled.Perm (t :: s.scheduled) → Effect lim s s'
  | claim {t : SyncTask} {need e : Nat} {a : Agenda} :
      s.agenda.scan lim s.agenda.classes = some (t, need, a) → s'.agenda.tasks = a.tasks →
      s'.claimed = s.claimed ++ [(t.id, e)] → s'.scheduled.Perm s.scheduled → Effect lim s s'
  | other : s'.agenda.tasks = s.agenda.tasks → s'.claimed = s.claimed →
      s'.scheduled.Perm s.scheduled → Effect lim s s'

/-- What a step of the agenda does to the order of the tasks. -/
theorem System.Steps.effect (hi : AgendaInv lim s) {l : Label} (hs : s.Steps lim l s') :
    s.Effect lim s' := by
  have hkeep : ∀ {r : System}, r.agenda.tasks = s.agenda.tasks → r.working = s.working →
      r.finished = s.finished → r.scheduled.Perm s.scheduled := by
    intro r hq hw hf
    rw [System.scheduled, System.scheduled, hq, hw, hf]
  cases hs with
  | @schedule caller cls needs ordinal segs woken es hmay hes =>
    refine .schedule (t := ⟨s.agenda.numSubmitted, cls, needs, ordinal, segs⟩) rfl rfl rfl ?_
    rw [System.scheduled, System.working, hes.flatMap_eq Executor.tasks_notify]
    exact (SizeMap.queued_insert hi.tasks.wf _).append_right _
  | run hr =>
    refine .other rfl rfl (hkeep rfl ?_ rfl)
    rw [System.working, System.working, hi.idle hr]
    exact List.flatMap_eq_nil_iff.2 fun e he => List.eq_of_mem_replicate he ▸ rfl
  | ret hr hex =>
    refine .other rfl rfl (hkeep rfl ?_ rfl)
    rw [System.working, System.working, flatMap_eq_nil_of_forall_exited hex rfl]
    rfl
  | move he hm => exact .other rfl rfl (hkeep rfl (flatMap_set_of_eq he hm.tasks_eq) rfl)
  | @claim e t need a he hsc =>
    refine .claim hsc rfl rfl ?_
    obtain ⟨-, -, -, -, hq, -⟩ := Agenda.scan_some hi.tasks.wf hsc
    have hw := flatMap_set_perm he (.running t (t.segments ++ List.range' s.nextSegment need) [])
      Executor.tasks
    refine ((hw.append_right _).append_left _).trans ?_
    exact List.perm_middle.trans (hq.symm.append_right _)
  | @cleanup e woken t segs outs fail es he hes _ =>
    refine .other rfl rfl (List.Perm.append_left _ ?_)
    have hw := flatMap_set_perm he (.releasing segs) Executor.tasks
    rw [System.working, hes.flatMap_eq Executor.tasks_notify, List.map_append, ← List.append_assoc]
    refine (List.perm_append_singleton _ _).trans ?_
    exact hw.append_right _
  | unshare hf _ =>
    refine .other (by rw [hf.agenda_eq]) ?_ (hkeep (by rw [hf.agenda_eq]) hf.working_eq ?_)
    all_goals cases hf <;> rfl
  | release hf _ hes =>
    refine .other (by rw [hf.agenda_eq]) ?_ (hkeep (by rw [hf.agenda_eq]) ?_ ?_)
    · cases hf <;> rfl
    · exact (hes.flatMap_eq Executor.tasks_notify).trans hf.working_eq
    · cases hf <;> rfl
  | share => exact .other rfl rfl (hkeep rfl rfl rfl)

/-- The maps are in order, and of two tasks that need as many segments and are of one class the one
that was scheduled first is claimed first, unless its ordinal is the greater one. -/
structure System.Ordered (s : System) : Prop where
  maps : s.agenda.tasks.InOrder
  claims : ∀ t ∈ s.scheduled, ∀ u ∈ s.scheduled, t.needs = u.needs → t.cls = u.cls →
    t.ordinal ≤ u.ordinal → t.id < u.id → u.id ∈ s.claimed.map Prod.fst →
      [t.id, u.id].Sublist (s.claimed.map Prod.fst)

/-- Each of the effects keeps the tasks ordered. -/
theorem System.Ordered.step (hi : AgendaInv lim s) (ho : s.Ordered) (hs : s.Effect lim s') :
    s'.Ordered := by
  cases hs with
  | @schedule x hid hq hc hp =>
    refine ⟨?_, fun t ht u hu hneeds hcls hord hlt hmem => ?_⟩
    · rw [hq]
      exact ho.maps.insert hi.tasks.wf fun v hv =>
        (hi.id_lt (List.mem_append_left _ hv)).trans_eq hid.symm
    · rw [hc] at hmem ⊢
      -- the new task has not been claimed, and no task was scheduled after it
      have hu : u ∈ s.scheduled := by
        rcases List.mem_cons.1 (hp.mem_iff.1 hu) with rfl | hu
        · obtain ⟨v, hv, he⟩ := List.mem_map.1 (hi.mem_claimed.1 hmem)
          have := hi.id_lt (List.mem_append_right _ hv)
          omega
        · exact hu
      have ht : t ∈ s.scheduled := by
        rcases List.mem_cons.1 (hp.mem_iff.1 ht) with rfl | ht
        · have := hi.id_lt hu
          omega
        · exact ht
      exact ho.claims t ht u hu hneeds hcls hord hlt hmem
  | @claim x need e a hsc hq hc hp =>
    have hsel := scan_selects hi ho.maps hsc
    refine ⟨?_, fun t ht u hu hneeds hcls hord hlt hmem => ?_⟩
    · rw [hq]
      exact Agenda.scan_inOrder hi.tasks.wf ho.maps hsc
    · have ht := hp.mem_iff.1 ht
      have hu := hp.mem_iff.1 hu
      rw [hc, List.map_append, List.mem_append] at hmem
      rw [hc, List.map_append]
      rcases hmem with hmem | hmem
      · exact (ho.claims t ht u hu hneeds hcls hord hlt hmem).trans
          (List.sublist_append_left _ _)
      · have hx : x ∈ s.scheduled := List.mem_append_left _ hsel.runnable.queued
        obtain rfl := hi.eq_of_id hu hx (List.mem_singleton.1 hmem)
        rcases List.mem_append.1 ht with htq | htc
        · have hfull := hsel.runnable.notFull
          rcases hsel.first t htq hneeds (hcls ▸ hfull) with rfl | h | ⟨-, h⟩
          · exact absurd hlt (lt_irrefl _)
          · exact absurd hcls (ne_of_gt h)
          · unfold SyncTask.Before at h
            omega
        · have htc := hi.mem_claimed.2 (List.mem_map_of_mem htc)
          exact (List.singleton_sublist.2 htc).append (.refl [u.id])
  | other hq hc hp =>
    refine ⟨hq ▸ ho.maps, fun t ht u hu hneeds hcls hord hlt hmem => ?_⟩
    rw [hc] at hmem ⊢
    exact ho.claims t (hp.mem_iff.1 ht) u (hp.mem_iff.1 hu) hneeds hcls hord hlt hmem

/-- In every reachable state the tasks are ordered. -/
theorem System.Ordered.of_reachable (h : (agendaMachine lim).Reachable s) : s.Ordered := by
  have hboth : AgendaInv lim s ∧ s.Ordered := by
    refine h.invariant (I := fun s => AgendaInv lim s ∧ s.Ordered) (fun _ hs => ?_)
      fun _ _ _ hi hs => ?_
    · cases hs
      exact ⟨.start lim, nofun, nofun⟩
    · have hst := System.step_cases hs
      exact ⟨hi.1.step hst, hi.2.step hi.1 (hst.effect hi.1)⟩
  exact hboth.2

/-- In every state of every run, an executor that looks for a task gets the one that is selected,
and none only if none is; and tasks that need as many segments and are of one class have been
claimed in the order in which they were scheduled, but for those with a greater ordinal. -/
theorem claims_in_order (hs : (agendaMachine lim).Reachable s) :
    (∀ e, s.executors[e]? = some .awake → ∀ t,
      (∃ segs, (s.claimTask lim e).executors[e]? = some (.running t segs [])) ↔
        s.agenda.Selects lim t) ∧
    ∀ t ∈ s.scheduled, ∀ u ∈ s.scheduled, t.needs = u.needs → t.cls = u.cls →
      t.ordinal ≤ u.ordinal → t.id < u.id → u.id ∈ s.claimed.map Prod.fst →
        [t.id, u.id].Sublist (s.claimed.map Prod.fst) := by
  have ho := System.Ordered.of_reachable hs
  exact ⟨fun e he t => executor_runs_iff (.of_reachable hs) ho.maps he, ho.claims⟩

end

/-- Two tasks alike, which one executor runs one after the other. -/
def twoAlikeRun : List Label :=
  [.schedule .main .ioBound 1 0 [] none, .schedule .main .ioBound 1 0 [] none, .run, .claim 0,
    .attempt 0 none, .cleanup 0 none, .release (.executor 0) 0 none, .rescan 0, .claim 0]

/-- `claims_in_order` after that run. -/
theorem claims_in_order_two : ∃ s, (agendaMachine smallLimits).Run .start twoAlikeRun s ∧
    (∀ t, (∃ segs, (s.claimTask smallLimits 1).executors[1]? = some (.running t segs [])) ↔
      s.agenda.Selects smallLimits t) ∧
    [0, 1].Sublist (s.claimed.map Prod.fst) := by
  obtain ⟨s, hs, he, h₀, h₁, hc⟩ : ∃ s, (agendaMachine smallLimits).Run .start twoAlikeRun s ∧
      s.executors[1]? = some .awake ∧ ⟨0, .ioBound, 1, 0, []⟩ ∈ s.scheduled ∧
      ⟨1, .ioBound, 1, 0, []⟩ ∈ s.scheduled ∧ 1 ∈ s.claimed.map Prod.fst :=
    ⟨_, Machine.Run.of_foldlM (f := System.step smallLimits) (fun _ _ _ h => h) rfl, rfl,
      by decide, by decide, by decide⟩
  obtain ⟨hruns, hclaims⟩ := claims_in_order ⟨_, _, rfl, hs⟩
  exact ⟨s, hs, hruns 1 he, hclaims _ h₀ _ h₁ rfl rfl (le_refl _) (by decide) hc⟩

end ExtremeS3
