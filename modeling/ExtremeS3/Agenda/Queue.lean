import ExtremeS3.Agenda.Basic

/-!
# The queue of the agenda

`SizeMap.WF` says that the nested maps of `tasks_` are maps, that none of them is empty, and that a
task is filed under what it needs and its class. `WF.insert` and `WF.leave` keep it, and
`queued_insert` and `queued_leave` say which tasks an operation leaves in the queue. `scan_some` and
`scan_none` are all that a proof needs to know of the loop of `claim_task`.
-/

namespace ExtremeS3

/-- The nested maps are maps without empty parts, and every task is where its `needs_segments` and
its `get_class` put it. -/
structure SizeMap.WF (m : SizeMap) : Prop where
  sorted : Sorted m
  byClass : ∀ b ∈ m, b.2 ≠ [] ∧ Sorted b.2
  filed : ∀ b ∈ m, ∀ c ∈ b.2, c.2 ≠ [] ∧ ∀ t ∈ c.2, t.needs = b.1 ∧ t.cls = c.1

/-- The empty map is well formed. -/
theorem SizeMap.WF.nil : SizeMap.WF [] := ⟨sorted_nil, nofun, nofun⟩

/-- A task is queued below its need and its class. -/
theorem SizeMap.mem_queued {m : SizeMap} {t : SyncTask} :
    t ∈ m.queued ↔ ∃ b ∈ m, ∃ c ∈ b.2, t ∈ c.2 := by
  simp only [queued, List.mem_flatMap]

/-! ## Scheduling -/

/-- Inserting a task adds just this one. -/
theorem TaskMap.insert_perm (t : SyncTask) (m : TaskMap) : (TaskMap.insert t m).Perm (t :: m) :=
  List.perm_orderedInsert _ t m

/-- What the map of a bucket holds after `schedule` has found or made it. -/
theorem byClass_insert {byClass : TaskByClass} (hs : Sorted byClass) (t : SyncTask) :
    ((upsert t.cls (fun taskMap => TaskMap.insert t (taskMap.getD [])) byClass).flatMap
      (·.2)).Perm (t :: byClass.flatMap (·.2)) := by
  refine (hs.flatMap_upsert_perm _ _ _).trans ?_
  refine ((TaskMap.insert_perm t _).append_right _).trans ?_
  refine (List.Perm.trans ?_ (hs.flatMap_perm t.cls _).symm).cons t
  cases findKey t.cls byClass <;> exact .refl _

/-- The map of the classes below a need is sorted, also where there is none. -/
theorem sorted_getD {m : SizeMap} (h : m.WF) (n : Nat) : Sorted ((findKey n m).getD []) := by
  cases hk : findKey n m with
  | none => exact sorted_nil
  | some byClass => exact (h.byClass _ (mem_of_findKey hk)).2

/-- `schedule` adds its task to the queue. -/
theorem SizeMap.queued_insert {m : SizeMap} (h : m.WF) (t : SyncTask) :
    (m.insert t).queued.Perm (t :: m.queued) := by
  refine (h.sorted.flatMap_upsert_perm _ _ _).trans ?_
  refine ((byClass_insert (sorted_getD h t.needs) t).append_right _).trans ?_
  refine (List.Perm.trans ?_ (h.sorted.flatMap_perm t.needs _).symm).cons t
  cases findKey t.needs m <;> exact .refl _

/-- No map is empty once a task was inserted. -/
theorem SizeMap.insert_ne_nil {m : SizeMap} (h : m.WF) (t : SyncTask) : m.insert t ≠ [] := by
  intro he
  have hq := queued_insert h t
  rw [he] at hq
  exact List.cons_ne_nil _ _ (List.perm_nil.1 hq.symm)

/-- Inserting a task keeps the map well formed. -/
theorem SizeMap.WF.insert {m : SizeMap} (h : m.WF) (t : SyncTask) : (m.insert t).WF := by
  have hin : Sorted ((findKey t.needs m).getD []) := sorted_getD h t.needs
  refine ⟨h.sorted.upsert _ _, fun b hb => ?_, fun b hb c hc => ?_⟩
  · rcases h.sorted.mem_upsert.1 hb with rfl | ⟨hb, -⟩
    · refine ⟨fun he => ?_, hin.upsert _ _⟩
      have hmem := (mem_keys_upsert (k := t.cls) (m := (findKey t.needs m).getD [])
        (f := fun taskMap => TaskMap.insert t (taskMap.getD []))).2 (.inl rfl)
      rw [show upsert _ _ _ = [] from he] at hmem
      cases hmem
    · exact h.byClass b hb
  · rcases h.sorted.mem_upsert.1 hb with rfl | ⟨hb, -⟩
    · rcases hin.mem_upsert.1 hc with rfl | ⟨hc, -⟩
      · have hp := TaskMap.insert_perm t ((findKey t.cls ((findKey t.needs m).getD [])).getD [])
        refine ⟨fun he => ?_, fun u hu => ?_⟩
        · rw [show TaskMap.insert t _ = [] from he] at hp
          exact List.cons_ne_nil _ _ (List.perm_nil.1 hp.symm)
        · rcases List.mem_cons.1 (hp.mem_iff.1 hu) with rfl | hu
          · exact ⟨rfl, rfl⟩
          · cases hb : findKey t.needs m with
            | none => simp [hb] at hu
            | some byClass =>
              rw [hb] at hu
              cases hc : findKey t.cls byClass with
              | none => simp [hc] at hu
              | some taskMap =>
                simp only [Option.getD_some, hc] at hu
                exact (h.filed _ (mem_of_findKey hb) _ (mem_of_findKey hc)).2 u hu
      · cases hb : findKey t.needs m with
        | none => simp [hb] at hc
        | some byClass =>
          rw [hb] at hc
          exact h.filed _ (mem_of_findKey hb) c hc
    · exact h.filed b hb c hc

/-! ## Claiming -/

/-- The bucket a pass looks at fits, and it is in the queue. -/
theorem SizeMap.bucket_some {m : SizeMap} {avail : Nat} {b : Nat × TaskByClass}
    (h : m.bucket avail = some b) : b ∈ m ∧ b.1 ≤ avail := by
  simp only [bucket] at h
  split at h
  · cases h
  · next last hl =>
    split at h
    · next hle => cases h; exact ⟨List.mem_of_getLast? hl, hle⟩
    · split at h
      · cases h
      · next first hf =>
        split at h
        · next hle => cases h; exact ⟨List.mem_of_head? hf, hle⟩
        · cases h

/-- The queue after a bucket was replaced. -/
theorem SizeMap.queued_upsert {m : SizeMap} (h : Sorted m) (need : Nat) (byClass : TaskByClass) :
    (queued (upsert need (fun _ => byClass) m)).Perm
      (byClass.flatMap (·.2) ++ queued (eraseKey need m)) :=
  h.flatMap_upsert_perm need (fun _ => byClass) fun b => b.2.flatMap (Prod.snd (α := TaskType))

/-- Taking the first task of a class out of a bucket takes it out of the queue. -/
theorem SizeMap.queued_leave {m : SizeMap} (h : m.WF) {need : Nat} {byClass : TaskByClass}
    (hb : (need, byClass) ∈ m) {cls : TaskType} {t : SyncTask} {rest : TaskMap}
    (hc : (cls, t :: rest) ∈ byClass) :
    m.queued.Perm (t :: (m.leave need byClass cls rest).queued) := by
  have hs : Sorted byClass := (h.byClass _ hb).2
  have hb : findKey need m = some byClass := h.sorted.findKey_eq_some.2 hb
  have hc : findKey cls byClass = some (t :: rest) := hs.findKey_eq_some.2 hc
  have hm : m.queued.Perm
      (t :: (rest ++ (eraseKey cls byClass).flatMap (·.2) ++ SizeMap.queued (eraseKey need m))) := by
    have hin : (byClass.flatMap (·.2)).Perm (t :: (rest ++ (eraseKey cls byClass).flatMap (·.2))) := by
      refine (hs.flatMap_perm cls (·.2)).trans ?_
      rw [hc]
      exact .refl _
    refine (h.sorted.flatMap_perm need _).trans ?_
    rw [hb]
    exact hin.append_right _
  refine hm.trans (.cons t ?_)
  simp only [leave]
  split
  · split
    · next he => simp [he]
    · exact (queued_upsert h.sorted need _).symm
  · refine .trans ?_ (queued_upsert h.sorted need _).symm
    exact (hs.flatMap_upsert_perm cls (fun _ => rest) (·.2)).symm.append_right _

/-- Taking the first task of a class out keeps the map well formed. -/
theorem SizeMap.WF.leave {m : SizeMap} (h : m.WF) {need : Nat} {byClass : TaskByClass}
    (hb : (need, byClass) ∈ m) {cls : TaskType} {t : SyncTask} {rest : TaskMap}
    (hc : (cls, t :: rest) ∈ byClass) : (m.leave need byClass cls rest).WF := by
  have hs : Sorted byClass := (h.byClass _ hb).2
  have hf := h.filed _ hb
  -- what replaces the bucket, when something does
  have hup : ∀ byClass' : TaskByClass, byClass' ≠ [] → Sorted byClass' →
      (∀ c ∈ byClass', c.2 ≠ [] ∧ ∀ u ∈ c.2, u.needs = need ∧ u.cls = c.1) →
      SizeMap.WF (upsert need (fun _ => byClass') m) := by
    intro byClass' hne hs' hf'
    refine ⟨h.sorted.upsert _ _, fun b hb => ?_, fun b hb => ?_⟩
    · rcases h.sorted.mem_upsert.1 hb with rfl | ⟨hb, -⟩
      · exact ⟨hne, hs'⟩
      · exact h.byClass b hb
    · rcases h.sorted.mem_upsert.1 hb with rfl | ⟨hb, -⟩
      · exact hf'
      · exact h.filed b hb
  simp only [SizeMap.leave]
  split
  · split
    · exact ⟨h.sorted.eraseKey _, fun b hb => h.byClass b (mem_eraseKey.1 hb).1,
        fun b hb => h.filed b (mem_eraseKey.1 hb).1⟩
    · next hne => exact hup _ hne (hs.eraseKey _) fun c hc => hf c (mem_eraseKey.1 hc).1
  · next hne =>
    refine hup _ (fun he => ?_) (hs.upsert _ _) fun c hc' => ?_
    · have hmem := (mem_keys_upsert (k := cls) (m := byClass) (f := fun _ => rest)).2 (.inl rfl)
      rw [he] at hmem
      cases hmem
    · rcases hs.mem_upsert.1 hc' with rfl | ⟨hc', -⟩
      · exact ⟨hne, fun u hu => (hf _ hc).2 u (List.mem_cons_of_mem _ hu)⟩
      · exact hf c hc'

/-- The loop claims the first task of the class it looks at, or goes on with the other classes. -/
theorem Agenda.scan_cons_some {lim : AgendaLimits} {a : Agenda} {cls : TaskType} {num : Nat}
    {cs : List (TaskType × Nat)} {r : SyncTask × Nat × Agenda}
    (h : a.scan lim ((cls, num) :: cs) = some r) :
    a.scan lim cs = some r ∨
    num < lim.getCapability cls ∧ ∃ need byClass t rest,
      a.tasks.bucket (a.segmentsAvail lim) = some (need, byClass) ∧
      findKey cls byClass = some (t :: rest) ∧
      r = (t, need,
        { a with
          tasks := a.tasks.leave need byClass cls rest, numWorking := a.numWorking + 1,
          classes := upsert cls (·.getD 0 + 1) a.classes }) := by
  simp only [scan] at h
  split at h
  · exact .inl h
  · next hlim =>
    split at h
    · exact .inl h
    · next need byClass hb =>
      split at h
      · exact .inl h
      · cases h
      · next t rest ht =>
        exact .inr ⟨not_le.1 hlim, need, byClass, t, rest, hb, ht, (Option.some.inj h).symm⟩

/-- A claim takes one task out of the queue, of a class below its limit, and counts it. -/
theorem Agenda.scan_some {lim : AgendaLimits} {a a' : Agenda} {t : SyncTask} {need : Nat}
    (hw : a.tasks.WF) {cs : List (TaskType × Nat)} (h : a.scan lim cs = some (t, need, a')) :
    t.needs = need ∧ need ≤ a.segmentsAvail lim ∧
    (∃ n, (t.cls, n) ∈ cs ∧ n < lim.getCapability t.cls) ∧
    a'.tasks.WF ∧ a.tasks.queued.Perm (t :: a'.tasks.queued) ∧
    a' = { a with
      tasks := a'.tasks, numWorking := a.numWorking + 1,
      classes := upsert t.cls (·.getD 0 + 1) a.classes } := by
  induction cs with
  | nil => cases h
  | cons c cs ih =>
    obtain ⟨cls, num⟩ := c
    rcases scan_cons_some h with h | ⟨hnum, need', byClass, u, rest, hb, hu, he⟩
    · obtain ⟨hneed, havail, ⟨n, hn, hlt⟩, hrest⟩ := ih h
      exact ⟨hneed, havail, ⟨n, List.mem_cons_of_mem _ hn, hlt⟩, hrest⟩
    · cases he
      obtain ⟨hb, havail⟩ := SizeMap.bucket_some hb
      have hc := mem_of_findKey hu
      obtain ⟨hneed, rfl⟩ := (hw.filed _ hb _ hc).2 t List.mem_cons_self
      exact ⟨hneed, havail, ⟨num, List.mem_cons_self, hnum⟩, hw.leave hb hc,
        SizeMap.queued_leave hw hb hc, rfl⟩

/-- A pass that claims nothing found each class full, or without a task in the bucket it looks
at. -/
theorem Agenda.scan_none {lim : AgendaLimits} {a : Agenda} (hw : a.tasks.WF)
    {cs : List (TaskType × Nat)} (h : a.scan lim cs = none) {cls : TaskType} {num : Nat}
    (hc : (cls, num) ∈ cs) (hnum : num < lim.getCapability cls) {b : Nat × TaskByClass}
    (hb : a.tasks.bucket (a.segmentsAvail lim) = some b) : findKey cls b.2 = none := by
  induction cs with
  | nil => cases hc
  | cons c cs ih =>
    obtain ⟨cls', num'⟩ := c
    simp only [scan, hb] at h
    split at h
    · next hfull =>
      rcases List.mem_cons.1 hc with he | hc
      · cases he; exact absurd hfull (not_le.2 hnum)
      · exact ih h hc
    · split at h
      · next hnone =>
        rcases List.mem_cons.1 hc with he | hc
        · cases he; exact hnone
        · exact ih h hc
      · next hnil =>
        have hmem := (SizeMap.bucket_some hb).1
        exact absurd rfl (hw.filed _ hmem _ (mem_of_findKey hnil)).1
      · cases h

end ExtremeS3
