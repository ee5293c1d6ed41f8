import ExtremeS3.Agenda.Queue
import ExtremeS3.Lib.Lists

/-!
# What a step of the agenda can do

`System.step_cases` says once what each step leaves of the state. The proofs about the runs use it
in place of the definition of `System.step`. Executors that a notification or a wake-up moves
differ only between waiting and about to wake up, so `Executor.notify` maps the executors before
and after to the same list; the tasks and the segments of an executor do not depend on it.
-/

namespace ExtremeS3

@[simp] theorem Executor.tasks_notify (e : Executor) : e.notify.tasks = e.tasks := by
  cases e <;> rfl

@[simp] theorem Executor.segments_notify (e : Executor) : e.notify.segments = e.segments := by
  cases e <;> rfl

@[simp] theorem Executor.notify_notify (e : Executor) : e.notify.notify = e.notify := by
  cases e <;> rfl

@[simp] theorem Executor.notify_ne_blocked (e : Executor) : e.notify ≠ .blocked := by
  cases e <;> nofun

/-- The executors `es` are `fs` with some of the waiting ones about to wake up. -/
structure Woken (es fs : List Executor) : Prop where
  same : es.map Executor.notify = fs.map Executor.notify
  blocked : .blocked ∈ es → .blocked ∈ fs
  notified : .notified ∈ fs → .notified ∈ es

/-- Waking nobody is waking. -/
theorem Woken.refl (es : List Executor) : Woken es es := ⟨rfl, fun h => h, fun h => h⟩

/-- `notify_one` wakes at most one executor. -/
theorem notifyOne_woken {es fs : List Executor} {woken : Option Nat}
    (h : notifyOne es woken = some fs) : Woken fs es := by
  cases woken with
  | none =>
    simp only [notifyOne] at h
    split at h <;> cases h
    exact .refl es
  | some i =>
    simp only [notifyOne] at h
    split at h <;> cases h
    next hb =>
      refine ⟨map_set_of_eq hb rfl, fun h => ?_, fun h => ?_⟩
      · exact (List.mem_or_eq_of_mem_set h).resolve_right nofun
      · exact mem_set_of_mem_ne hb h nofun

/-- `notify_all` wakes executors. -/
theorem notifyAll_woken (es : List Executor) : Woken (es.map Executor.notify) es := by
  refine ⟨by simp, fun h => ?_, fun h => List.mem_map.2 ⟨_, h, rfl⟩⟩
  obtain ⟨x, -, hx⟩ := List.mem_map.1 h
  exact absurd hx x.notify_ne_blocked

/-- What a notification does not touch is the same for executors that were woken. -/
theorem Woken.flatMap_eq {es fs : List Executor} (h : Woken es fs)
    {f : Executor → List α} (hf : ∀ e, f e.notify = f e) : es.flatMap f = fs.flatMap f := by
  have hg : ∀ gs : List Executor, gs.flatMap f = (gs.map Executor.notify).flatMap f := fun gs => by
    simp only [List.flatMap_map, hf]
  rw [hg es, hg fs, h.same]

/-- A property that does not tell a waiting executor from one about to wake up. -/
theorem Woken.forall_iff {es fs : List Executor} (h : Woken es fs)
    {p : Executor → Prop} (hp : ∀ e, p e.notify ↔ p e) :
    (∀ e ∈ es, p e) ↔ ∀ e ∈ fs, p e := by
  have hg : ∀ gs : List Executor, (∀ e ∈ gs, p e) ↔ ∀ e ∈ gs.map Executor.notify, p e :=
    fun gs => by simp only [List.forall_mem_map, hp]
  rw [hg es, hg fs, h.same]

/-- An executor that is neither waiting nor about to wake up is where it was. -/
theorem Woken.mem_iff {es fs : List Executor} (h : Woken es fs) {e : Executor}
    (hb : e ≠ .blocked) (hn : e ≠ .notified) : e ∈ es ↔ e ∈ fs := by
  have he : ∀ x : Executor, x.notify ≠ e ↔ x ≠ e := fun x => by
    cases x <;> cases e <;> simp_all [Executor.notify]
  have hne := h.forall_iff (p := fun x => x ≠ e) he
  simpa using not_congr hne

/-- The moves of an executor that leave the agenda, the tasks and the segments alone. -/
inductive Executor.Moves (lim : AgendaLimits) (a : Agenda) : Executor → Executor → Prop
  | exit : a.tasks = [] → a.numWorking = 0 → Moves lim a .awake .exited
  | waitForWork : a.tasks = [] → a.numWorking ≠ 0 → Moves lim a .awake .blocked
  | waitForRoom : a.tasks ≠ [] → a.scan lim a.classes = none →
      Moves lim a .awake .blocked
  | wake {x} : x = .blocked ∨ x = .notified → Moves lim a x .awake
  | rescan : Moves lim a (.releasing []) .awake
  | attempt {t segs outs r f} : afterAttempt outs.length r = .next f →
      Moves lim a (.running t segs outs) (.running t segs (outs ++ [r]))
  | finish {t segs outs r fail} : afterAttempt outs.length r = .ended fail →
      Moves lim a (.running t segs outs) (.ended t segs (outs ++ [r]) fail)

/-- A move leaves an executor its tasks. -/
theorem Executor.Moves.tasks_eq {lim : AgendaLimits} {a : Agenda} {x y : Executor}
    (h : x.Moves lim a y) : y.tasks = x.tasks := by
  cases h with
  | wake hx => rcases hx with rfl | rfl <;> rfl
  | _ => rfl

/-- A move leaves an executor its segments. -/
theorem Executor.Moves.segments_eq {lim : AgendaLimits} {a : Agenda} {x y : Executor}
    (h : x.Moves lim a y) : y.segments = x.segments := by
  cases h with
  | wake hx => rcases hx with rfl | rfl <;> rfl
  | _ => rfl

/-- An executor gives up one reference to a segment. -/
inductive Executor.Drops (id : Nat) : Executor → Executor → Prop
  | running {t segs outs} : id ∈ segs →
      Drops id (.running t segs outs) (.running t (segs.erase id) outs)
  | releasing {segs} : id ∈ segs → Drops id (.releasing segs) (.releasing (segs.erase id))

/-- Dropping a segment leaves an executor its tasks. -/
theorem Executor.Drops.tasks_eq {id : Nat} {x y : Executor} (h : x.Drops id y) :
    y.tasks = x.tasks := by
  cases h <;> rfl

/-- An executor that drops a segment keeps the other ones. -/
theorem Executor.Drops.segments_perm {id : Nat} {x y : Executor} (h : x.Drops id y) :
    x.segments.Perm (id :: y.segments) := by
  cases h with
  | running hid => exact List.perm_cons_erase hid
  | releasing hid => exact List.perm_cons_erase hid

/-- Giving up a reference to a segment. -/
inductive System.Forgets (s : System) (id : Nat) : Caller → System → Prop
  | executor {e x y} : s.executors[e]? = some x → x.Drops id y →
      Forgets s id (.executor e) { s with executors := s.executors.set e y }
  | other : id ∈ s.elsewhere →
      Forgets s id .other { s with elsewhere := s.elsewhere.erase id }

/-- What forgetting a segment does: the caller held it, and drops it. -/
theorem System.forget_cases {s s' : System} {id : Nat} {caller : Caller}
    (h : s.forget id caller = some s') : s.Forgets id caller s' := by
  cases caller with
  | main => cases h
  | executor e =>
    simp only [forget] at h
    split at h
    · next he =>
      split at h
      · next hid => cases h; exact .executor he (.running hid)
      · cases h
    · next he =>
      split at h
      · next hid => cases h; exact .executor he (.releasing hid)
      · cases h
    · cases h
  | other =>
    simp only [forget] at h
    split at h
    · next hid => cases h; exact .other hid
    · cases h

/-- What each step requires and what it leaves. -/
inductive System.Steps (lim : AgendaLimits) (s : System) : Label → System → Prop
  | schedule {caller cls needs ordinal segs woken es} :
      s.maySchedule segs caller → Woken es s.executors →
      Steps lim s (.schedule caller cls needs ordinal segs woken)
        { s with
          agenda := s.agenda.schedule ⟨s.agenda.numSubmitted, cls, needs, ordinal, segs⟩
          executors := es }
  | run : s.running = false →
      Steps lim s .run
        { s with executors := List.replicate lim.threadNum .awake, running := true }
  | ret : s.running = true → (∀ e ∈ s.executors, e = .exited) →
      Steps lim s .ret { s with executors := [], running := false }
  | move {l e x y} : s.executors[e]? = some x → x.Moves lim s.agenda y →
      Steps lim s l { s with executors := s.executors.set e y }
  | claim {e t need a} : s.executors[e]? = some .awake →
      s.agenda.scan lim s.agenda.classes = some (t, need, a) →
      Steps lim s (.claim e)
        { s with
          agenda := { a with segmentsInFlight := a.segmentsInFlight + need }
          executors := s.executors.set e
            (.running t (t.segments ++ List.range' s.nextSegment need) [])
          nextSegment := s.nextSegment + need
          claimed := s.claimed ++ [(t.id, e)] }
  | cleanup {e woken t segs outs fail es} :
      s.executors[e]? = some (.ended t segs outs fail) →
      Woken es (s.executors.set e (.releasing segs)) →
      ((s.agenda.cleanup t fail).tasks = [] → (s.agenda.cleanup t fail).numWorking = 0 →
        .blocked ∉ es) →
      Steps lim s (.cleanup e woken)
        { s with
          agenda := s.agenda.cleanup t fail
          executors := es
          finished := s.finished ++ [(t, outs)] }
  | unshare {caller id woken s'} : s.Forgets id caller s' → id ∈ s'.held →
      Steps lim s (.release caller id woken) s'
  | release {caller id woken s' es} : s.Forgets id caller s' → id ∉ s'.held →
      Woken es s'.executors →
      Steps lim s (.release caller id woken)
        { s' with
          agenda := { s'.agenda with segmentsInFlight := s'.agenda.segmentsInFlight - 1 }
          executors := es }
  | share {e id t segs outs} : s.executors[e]? = some (.running t segs outs) → id ∈ segs →
      Steps lim s (.share e id) { s with elsewhere := id :: s.elsewhere }

/-- A step is one of these. -/
theorem System.step_cases {lim : AgendaLimits} {s s' : System} {l : Label}
    (h : s.step lim l = some s') : s.Steps lim l s' := by
  cases l with
  | schedule caller cls needs ordinal segs woken =>
    simp only [step] at h
    split at h
    · next hmay =>
      obtain ⟨es, hes, rfl⟩ := Option.map_eq_some_iff.1 h
      exact .schedule hmay (notifyOne_woken hes)
    · cases h
  | run =>
    simp only [step] at h
    split at h
    · cases h
    · next hr => cases h; exact .run (Bool.eq_false_iff.2 hr)
  | ret =>
    simp only [step] at h
    split at h
    · next hr => cases h; exact .ret hr.1 hr.2
    · cases h
  | claim e =>
    simp only [step] at h
    split at h
    · next he =>
      cases h
      simp only [claimTask]
      split
      · next ht =>
        split
        · next hw => exact .move he (.exit ht hw)
        · next hw => exact .move he (.waitForWork ht hw)
      · next ht =>
        split
        · next hs => exact .move he (.waitForRoom ht hs)
        · next hs => exact .claim he hs
    · cases h
  | wake e =>
    simp only [step] at h
    split at h
    · next he =>
      cases h
      rcases he with he | he
      · exact .move he (.wake (.inl rfl))
      · exact .move he (.wake (.inr rfl))
    · cases h
  | attempt e r =>
    simp only [step] at h
    split at h
    · next he =>
      split at h
      · next hf => cases h; exact .move he (.attempt hf)
      · next hf => cases h; exact .move he (.finish hf)
    · cases h
  | cleanup e woken =>
    simp only [step] at h
    split at h
    · next he =>
      simp only [notifyCleanup] at h
      split at h
      · cases h
        refine .cleanup he (notifyAll_woken _) fun _ _ hb => ?_
        obtain ⟨x, -, hx⟩ := List.mem_map.1 hb
        exact x.notify_ne_blocked hx
      · next hne =>
        obtain ⟨es, hes, rfl⟩ := Option.map_eq_some_iff.1 h
        exact .cleanup he (notifyOne_woken hes) fun ht hw => absurd ⟨ht, hw⟩ hne
    · cases h
  | release caller id woken =>
    simp only [step] at h
    split at h
    · next s' hf =>
      simp only [deleteSegment] at h
      split at h
      · next hid => cases h; exact .unshare (forget_cases hf) hid
      · next hid =>
        obtain ⟨es, hes, rfl⟩ := Option.map_eq_some_iff.1 h
        exact .release (forget_cases hf) hid (notifyOne_woken hes)
    · cases h
  | rescan e =>
    simp only [step] at h
    split at h
    · next he => cases h; exact .move he .rescan
    · cases h
  | share e id =>
    simp only [step] at h
    split at h
    · next he =>
      split at h
      · next hid => cases h; exact .share he hid
      · cases h
    · cases h

end ExtremeS3
