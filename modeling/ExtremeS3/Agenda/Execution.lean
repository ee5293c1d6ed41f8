import ExtremeS3.Agenda.Termination
import ExtremeS3.Lib.Tasks
import Mathlib.Data.List.InsertIdx

/-!
# The agenda runs the tasks in some order

The models of the uploads and the downloads are task systems, in which the scheduled tasks run one
whole task at a time, in any order. This is what the executors of an agenda make of them. In
`SyncTaskClass.execution` the tasks of a system are scheduled in an agenda; an executor that has
claimed a task runs it, which schedules the tasks that it asks for.

`ExecutionInv` ties the tasks that have not run to the queue and the executors, so that an execution
is a run of the task system (`execution_refines`). `ExecutionInv.exists_step` says that an execution
which has not come to its end can go on, and `execution_length_le` bounds it. So `run` returns, and
what is proved of a system that completes holds then (`agenda_runs_tasks`).
-/

namespace ExtremeS3

/-! ## The tasks in the agenda -/

/-- The virtual functions of `sync_task` by which the agenda handles a task, and whether the task
object holds a segment: such a task needs none. -/
structure SyncTaskClass (τ : Type) where
  getClass : τ → TaskType
  needsSegments : τ → Nat
  ordinal : τ → Int
  holdsSegment : τ → Bool
  needs_of_holds : ∀ t, holdsSegment t → needsSegments t = 0

/-- An agenda, the state that the tasks share, and the task objects that have not run, each with the
number under which it was scheduled. -/
structure Execution (σ τ : Type) where
  system : System
  shared : σ
  objects : List (Nat × τ)

/-- The tasks that have not run. -/
def Execution.pending {σ τ : Type} (c : Execution σ τ) : List τ := c.objects.map Prod.snd

/-- `run` has been called, and all executors have exited. -/
def Execution.Over {σ τ : Type} (c : Execution σ τ) : Prop :=
  c.system.running ∧ ∀ x ∈ c.system.executors, x = .exited

/-- A step of the agenda, or a task that runs on an executor: what it is answered, and for each task
that it schedules the executor that is woken. -/
inductive ExecutionLabel (ω : Type) where
  | agenda (l : Label)
  | perform (e : Nat) (o : ω) (woken : List (Option Nat))

namespace SyncTaskClass

variable {σ τ ω ε : Type} (K : SyncTaskClass τ)

/-- The call of `schedule` for a task with the segments that it holds. -/
def schedule (caller : Caller) (t : τ) (given : List Nat × Option Nat) : Label :=
  .schedule caller (K.getClass t) (K.needsSegments t) (K.ordinal t) given.1 given.2

/-- The calls of `schedule` one after the other. -/
def scheduleAll (lim : AgendaLimits) (caller : Caller) (s : System) :
    List (τ × List Nat × Option Nat) → Option System
  | [] => some s
  | (t, given) :: more => (s.step lim (K.schedule caller t given)).bind fun s' =>
      scheduleAll lim caller s' more

/-- The calls of `schedule` for new tasks: those that hold a segment are given the one at their place
among the segments of their creator. -/
def calls : List Nat → List τ → List (Option Nat) → Option (List (τ × List Nat × Option Nat))
  | _, [], [] => some []
  | segs, t :: new, w :: woken =>
    if K.holdsSegment t then
      match segs with
      | [] => none -- `segments.at` throws
      | id :: segs => (calls segs new woken).map ((t, [id], w) :: ·)
    else (calls segs.tail new woken).map ((t, [], w) :: ·)
  | _, _, _ => none

/-- The executions of a task system by an agenda: `create_schedule` schedules the first tasks, and
`run` starts the executors. The tasks return normally. -/
def execution (lim : AgendaLimits) (S : TaskSystem σ τ ω ε) (start : σ × List τ) :
    Machine (Execution σ τ) (ExecutionLabel ω) where
  init c := ∃ woken ts, K.calls [] start.2 woken = some ts ∧
    K.scheduleAll lim .main .start ts = some c.system ∧
    c.shared = start.1 ∧ c.objects = (List.range start.2.length).zip start.2
  step c l c' :=
    match l with
    | .agenda l => c.system.owns l ∧ c.system.step lim l = some c'.system ∧ c'.shared = c.shared ∧
        c'.objects = c.objects
    | .perform e o woken => ∃ task segs outs i t new ts s,
        c.system.executors[e]? = some (.running task segs outs) ∧
        c.objects[i]? = some (task.id, t) ∧ S.answers c.shared t o ∧
        (S.run c.shared t o).Evals (.ok (c'.shared, new)) ∧ K.calls segs new woken = some ts ∧
        K.scheduleAll lim (.executor e) c.system ts = some s ∧
        s.step lim (.attempt e none) = some c'.system ∧
        c'.objects = c.objects.eraseIdx i ++
          (List.range' c.system.agenda.numSubmitted new.length).zip new

/-- The executions in which executors wake up only when they are notified. -/
def promptExecution (lim : AgendaLimits) (S : TaskSystem σ τ ω ε) (start : σ × List τ) :
    Machine (Execution σ τ) (ExecutionLabel ω) :=
  (K.execution lim S start).restrict fun c _ c' => c.system.Prompt c'.system

/-- The tasks need no more segments than there may be, and a task that schedules tasks which hold
segments has one for each. -/
structure Suits (lim : AgendaLimits) (S : TaskSystem σ τ ω ε) (start : σ × List τ) : Prop where
  fits : ∀ s ts, (S.machine start).Reachable (s, ts) →
    ∀ t ∈ ts, K.needsSegments t ≤ lim.maxSegmentsInFlight
  provides : ∀ s ts, (S.machine start).Reachable (s, ts) → ∀ t ∈ ts, ∀ o s' new,
    S.answers s t o → (S.run s t o).Evals (.ok (s', new)) →
      ∀ (k : Nat) u, new[k]? = some u → K.holdsSegment u → k < K.needsSegments t

/-- An execution comes to its end. While an executor has not exited, a step can be made that needs no
wake-up by itself, and with no other wake-ups there are only so many steps. When all executors have
exited, so that `run` returns, the shared state is as wanted, every task is done and none has
failed. -/
structure Executes (lim : AgendaLimits) (S : TaskSystem σ τ ω ε) (start : σ × List τ)
    (post : σ → Prop) : Prop where
  bounded : ∃ n, ∀ c₀ ls c, (K.promptExecution lim S start).init c₀ →
    (K.promptExecution lim S start).Run c₀ ls c → ls.length ≤ n
  continues : ∀ c, (K.execution lim S start).Reachable c →
    (∃ l c', (K.promptExecution lim S start).step c l c') ∨ c.Over
  post : ∀ c, (K.execution lim S start).Reachable c → c.Over →
    post c.shared ∧ c.system.AllDone ∧ c.system.agenda.numFailed = 0

/-- What a task may be given. -/
def Gives (t : τ) (segs : List Nat) : Prop := segs = [] ∨ segs.length = 1 ∧ K.needsSegments t = 0

variable {K}

/-- The tasks are given segments of their creator. -/
theorem calls_spec {segs : List Nat} {new : List τ} {woken : List (Option Nat)}
    {ts : List (τ × List Nat × Option Nat)} (h : K.calls segs new woken = some ts) :
    ts.map Prod.fst = new ∧ ∀ p ∈ ts, K.Gives p.1 p.2.1 ∧ ∀ id ∈ p.2.1, id ∈ segs := by
  induction new generalizing segs woken ts with
  | nil =>
    cases woken with
    | nil => cases h; exact ⟨rfl, nofun⟩
    | cons w woken => cases h
  | cons t new ih =>
    cases woken with
    | nil => cases h
    | cons w woken =>
      simp only [calls] at h
      split at h
      · next hholds =>
        cases segs with
        | nil => cases h
        | cons id segs =>
          obtain ⟨ts, hts, rfl⟩ := Option.map_eq_some_iff.1 h
          obtain ⟨hnew, hgiven⟩ := ih hts
          refine ⟨congrArg (t :: ·) hnew, fun p hp => ?_⟩
          rcases List.mem_cons.1 hp with rfl | hp
          · exact ⟨.inr ⟨rfl, K.needs_of_holds _ hholds⟩, fun j hj => List.mem_singleton.1 hj ▸ .head _⟩
          · exact ⟨(hgiven p hp).1, fun j hj => .tail _ ((hgiven p hp).2 j hj)⟩
      · obtain ⟨ts, hts, rfl⟩ := Option.map_eq_some_iff.1 h
        obtain ⟨hnew, hgiven⟩ := ih hts
        refine ⟨congrArg (t :: ·) hnew, fun p hp => ?_⟩
        rcases List.mem_cons.1 hp with rfl | hp
        · exact ⟨.inl rfl, nofun⟩
        · exact ⟨(hgiven p hp).1, fun j hj => List.mem_of_mem_tail ((hgiven p hp).2 j hj)⟩

end SyncTaskClass

/-! ## The tasks that have not run -/

/-- The tasks that are in the queue, or claimed and not run. -/
def System.unfinished (s : System) : List SyncTask :=
  s.agenda.tasks.queued ++ s.executors.flatMap Executor.runs

/-- What the agenda and a task object agree on. -/
def SyncTask.place (t : SyncTask) : Nat × Nat := (t.id, t.needs)

/-- And what the agenda and a task of the class agree on. -/
def SyncTaskClass.place {τ : Type} (K : SyncTaskClass τ) (p : Nat × τ) : Nat × Nat :=
  (p.1, K.needsSegments p.2)

/-- A task that is claimed has the segments that it needs, and is not counted as failed later. -/
def Executor.Regular : Executor → Prop
  | .running t segs _ => t.needs ≤ segs.length
  | .ended _ _ _ fail => fail = false
  | _ => True

/-- No task has failed, nor is to be counted as failed. -/
structure System.Regular (s : System) : Prop where
  numFailed : s.agenda.numFailed = 0
  executors : ∀ x ∈ s.executors, x.Regular

section

variable {lim : AgendaLimits} {s s' : System} {e : Nat}

@[simp] theorem Executor.runs_notify (x : Executor) : x.notify.runs = x.runs := by
  cases x <;> rfl

/-- A task that is run is not finished. -/
theorem System.mem_unfinished {task : SyncTask} {segs : List Nat} {outs : List (Option Thrown)}
    (he : s.executors[e]? = some (.running task segs outs)) : task ∈ s.unfinished :=
  List.mem_append_right _ (List.mem_flatMap.2 ⟨_, List.mem_of_getElem? he, .head _⟩)

/-- The task that an executor runs is one of those it has. -/
theorem Executor.runs_sublist (x : Executor) : x.runs.Sublist x.tasks := by
  cases x with
  | running => exact .refl _
  | _ => exact List.nil_sublist _

/-- The tasks that have not run are told apart by their numbers. -/
theorem System.nodup_unfinished (hi : AgendaInv lim s) : (ids s.unfinished).Nodup := by
  have hall := hi.tasks.once.nodup_iff.2 List.nodup_range
  rw [← List.append_assoc, ids, ids, ← List.map_append] at hall
  have hsub : s.unfinished.Sublist (s.agenda.tasks.queued ++ s.working) :=
    (List.Sublist.flatMap_right _ fun x _ => x.runs_sublist).append_left _
  exact (List.nodup_append.1 hall).1.sublist (hsub.map _)

/-- The moves of an executor that has no task: it exits or waits, wakes up, or is about to look at
the queue again. -/
inductive Executor.Rests : Executor → Executor → Prop
  | look {y} : y = .exited ∨ y = .blocked → Rests .awake y
  | wake {x} : x = .blocked ∨ x = .notified → Rests x .awake
  | rescan : Rests (.releasing []) .awake

/-- What the steps that are not made within a task require and leave. -/
inductive System.OwnSteps (lim : AgendaLimits) (s : System) : Label → System → Prop
  | run : s.running = false →
      OwnSteps lim s .run
        { s with executors := List.replicate lim.threadNum .awake, running := true }
  | rest {l e x y} : l.cost lim = 0 → s.executors[e]? = some x → x.Rests y →
      OwnSteps lim s l { s with executors := s.executors.set e y }
  | claim {e t need a} : s.executors[e]? = some .awake →
      s.agenda.scan lim s.agenda.classes = some (t, need, a) →
      OwnSteps lim s (.claim e)
        { s with
          agenda := { a with segmentsInFlight := a.segmentsInFlight + need }
          executors := s.executors.set e
            (.running t (t.segments ++ List.range' s.nextSegment need) [])
          nextSegment := s.nextSegment + need
          claimed := s.claimed ++ [(t.id, e)] }
  | cleanup {e woken t segs outs fail es} :
      s.executors[e]? = some (.ended t segs outs fail) →
      Woken es (s.executors.set e (.releasing segs)) →
      OwnSteps lim s (.cleanup e woken)
        { s with
          agenda := s.agenda.cleanup t fail
          executors := es
          finished := s.finished ++ [(t, outs)] }
  | release {e id woken segs es n} : s.executors[e]? = some (.releasing segs) →
      Woken es (s.executors.set e (.releasing (segs.erase id))) →
      OwnSteps lim s (.release (.executor e) id woken)
        { s with agenda := { s.agenda with segmentsInFlight := n }, executors := es }

/-- A step that is not made within a task is one of these. -/
theorem System.own_cases {l : Label} (hl : s.owns l) (h : s.step lim l = some s') :
    s.OwnSteps lim l s' := by
  cases l with
  | schedule | attempt | ret | share => cases hl
  | run =>
    simp only [System.step] at h
    split at h
    · cases h
    · next hr => cases h; exact .run (Bool.eq_false_iff.2 hr)
  | claim e =>
    simp only [System.step] at h
    split at h
    · next he =>
      cases h
      unfold System.claimTask
      split
      · split
        · exact .rest rfl he (.look (.inl rfl))
        · exact .rest rfl he (.look (.inr rfl))
      · split
        · exact .rest rfl he (.look (.inr rfl))
        · next hsc => exact .claim he hsc
    · cases h
  | wake e =>
    simp only [System.step] at h
    split at h
    · next he =>
      cases h
      rcases he with he | he
      · exact .rest rfl he (.wake (.inl rfl))
      · exact .rest rfl he (.wake (.inr rfl))
    · cases h
  | cleanup e woken =>
    simp only [System.step] at h
    split at h
    · next he =>
      simp only [System.notifyCleanup] at h
      split at h
      · cases h
        exact .cleanup he (notifyAll_woken _)
      · obtain ⟨es, hes, rfl⟩ := Option.map_eq_some_iff.1 h
        exact .cleanup he (notifyOne_woken hes)
    · cases h
  | release caller id woken =>
    cases caller with
    | main | other => cases hl
    | executor e =>
      simp only [System.owns] at hl
      split at hl
      · next segs he =>
        simp only [System.step, System.forget, he] at h
        split at h
        · next r hf =>
          split at hf
          · cases hf
            simp only [System.deleteSegment] at h
            split at h
            · cases h
              exact .release he (.refl _)
            · obtain ⟨es, hes, rfl⟩ := Option.map_eq_some_iff.1 h
              exact .release he (notifyOne_woken hes)
          · cases hf
        · cases h
      · cases hl
  | rescan e =>
    simp only [System.step] at h
    split at h
    · next he => cases h; exact .rest rfl he .rescan
    · cases h

/-- Only the call of `run` costs. -/
theorem System.OwnSteps.cost_cases {l : Label} (h : s.OwnSteps lim l s') :
    l.cost lim = lim.threadNum + 1 ∧ s.running = false ∧ s'.running = true ∨
      l.cost lim = 0 ∧ s'.running = s.running := by
  cases h with
  | run hr => exact .inl ⟨rfl, hr, rfl⟩
  | rest hl => exact .inr ⟨hl, rfl⟩
  | claim he hsc => exact .inr ⟨rfl, rfl⟩
  | cleanup | release => exact .inr ⟨rfl, rfl⟩

/-- A step that is not made within a task leaves the tasks that have not run. -/
theorem System.OwnSteps.unfinished_perm (hi : AgendaInv lim s) {l : Label}
    (h : s.OwnSteps lim l s') : s'.unfinished.Perm s.unfinished := by
  have hkeep : ∀ {r : System}, r.agenda.tasks = s.agenda.tasks →
      r.executors.flatMap Executor.runs = s.executors.flatMap Executor.runs →
      r.unfinished.Perm s.unfinished := by
    intro r hq hx
    rw [System.unfinished, System.unfinished, hq, hx]
  cases h with
  | run hr =>
    refine hkeep rfl ?_
    rw [hi.idle hr]
    exact List.flatMap_eq_nil_iff.2 fun x hx => List.eq_of_mem_replicate hx ▸ rfl
  | rest _ he hx =>
    refine hkeep rfl (flatMap_set_of_eq he ?_)
    cases hx with
    | look h => rcases h with rfl | rfl <;> rfl
    | wake h => rcases h with rfl | rfl <;> rfl
    | rescan => rfl
  | @claim e t need a he hsc =>
    obtain ⟨-, -, -, -, hq, -⟩ := Agenda.scan_some hi.tasks.wf hsc
    have hx := flatMap_set_perm he
      (.running t (t.segments ++ List.range' s.nextSegment need) []) Executor.runs
    refine (hx.append_left _).trans ?_
    exact List.perm_middle.trans (hq.symm.append_right _)
  | cleanup he hes =>
    exact hkeep rfl ((hes.flatMap_eq Executor.runs_notify).trans (flatMap_set_of_eq he rfl))
  | release he hes =>
    exact hkeep rfl ((hes.flatMap_eq Executor.runs_notify).trans (flatMap_set_of_eq he rfl))

/-- Waking executors keeps them regular. -/
theorem Woken.regular {es fs : List Executor} (h : Woken es fs) (hfs : ∀ x ∈ fs, x.Regular) :
    ∀ x ∈ es, x.Regular :=
  (h.forall_iff fun x => by cases x <;> rfl).2 hfs

/-- Setting an executor to a regular one keeps them regular. -/
theorem regular_set {es : List Executor} (h : ∀ x ∈ es, x.Regular) {y : Executor} (hy : y.Regular) :
    ∀ x ∈ es.set e y, x.Regular := by
  intro x hx
  rcases List.mem_or_eq_of_mem_set hx with hx | rfl
  · exact h x hx
  · exact hy

/-- A step that is not made within a task gives it its segments, and fails none. -/
theorem System.Regular.own (h : s.Regular) (hi : AgendaInv lim s) {l : Label}
    (hs : s.OwnSteps lim l s') : s'.Regular := by
  cases hs with
  | run hr => exact ⟨h.numFailed, fun x hx => List.eq_of_mem_replicate hx ▸ trivial⟩
  | rest _ he hx =>
    refine ⟨h.numFailed, regular_set h.executors ?_⟩
    cases hx with
    | look h => rcases h with rfl | rfl <;> trivial
    | wake | rescan => trivial
  | claim he hsc =>
    obtain ⟨rfl, -, -, -, -, ha⟩ := Agenda.scan_some hi.tasks.wf hsc
    refine ⟨ha ▸ h.numFailed, regular_set h.executors ?_⟩
    rw [Executor.Regular, List.length_append, List.length_range']
    exact Nat.le_add_left _ _
  | @cleanup _ _ _ _ _ fail _ he hes =>
    have hfail : fail = false := h.executors _ (List.mem_of_getElem? he)
    refine ⟨?_, hes.regular (regular_set h.executors trivial)⟩
    rw [hfail]
    exact h.numFailed
  | release he hes => exact ⟨h.numFailed, hes.regular (regular_set h.executors trivial)⟩

/-- An attempt that returns normally ends its task. -/
theorem System.step_attempt {task : SyncTask} {segs : List Nat} {outs : List (Option Thrown)}
    (he : s.executors[e]? = some (.running task segs outs)) :
    s.step lim (.attempt e none) =
      some { s with executors := s.executors.set e (.ended task segs (outs ++ [none]) false) } := by
  simp only [System.step, he, afterAttempt_none]

/-- A task that returns is finished, and the other ones are as they were. -/
theorem System.unfinished_attempt {task : SyncTask} {segs : List Nat}
    {outs : List (Option Thrown)} (he : s.executors[e]? = some (.running task segs outs))
    (h : s.step lim (.attempt e none) = some s') :
    s.unfinished.Perm (task :: s'.unfinished) := by
  rw [System.step_attempt he] at h
  cases h
  have hx := flatMap_set_perm he (.ended task segs (outs ++ [none]) false) Executor.runs
  exact (hx.symm.append_left _).trans List.perm_middle

/-! ## Scheduling -/

/-- A step that schedules is permitted, wakes at most one executor, and puts the task in the queue.
-/
theorem System.step_schedule {caller : Caller} {cls : TaskType} {needs : Nat} {ordinal : Int}
    {segs : List Nat} {woken : Option Nat}
    (h : s.step lim (.schedule caller cls needs ordinal segs woken) = some s') :
    s.maySchedule segs caller ∧ ∃ es, notifyOne s.executors woken = some es ∧
      s' = { s with
        agenda := s.agenda.schedule ⟨s.agenda.numSubmitted, cls, needs, ordinal, segs⟩
        executors := es } := by
  simp only [System.step] at h
  split at h
  · next hmay =>
    obtain ⟨es, hes, rfl⟩ := Option.map_eq_some_iff.1 h
    exact ⟨hmay, es, hes, rfl⟩
  · cases h

/-- What calls of `schedule` for tasks with such needs leave of the state that they were made in. -/
structure Submitted (s s' : System) (needs : List Nat) : Prop where
  numSubmitted : s'.agenda.numSubmitted = s.agenda.numSubmitted + needs.length
  unfinished : (s'.unfinished.map SyncTask.place).Perm
    ((List.range' s.agenda.numSubmitted needs.length).zip needs ++ s.unfinished.map SyncTask.place)
  running : s'.running = s.running
  numFailed : s'.agenda.numFailed = s.agenda.numFailed
  woken : Woken s'.executors s.executors

/-- Waking in two steps is waking. -/
theorem Woken.trans {es fs gs : List Executor} (h : Woken es fs) (h' : Woken fs gs) : Woken es gs :=
  ⟨h.same.trans h'.same, fun hb => h'.blocked (h.blocked hb), fun hn => h.notified (h'.notified hn)⟩

/-- A notification moves waiting executors only. -/
theorem Woken.getElem? {es fs : List Executor} (h : Woken es fs) {i : Nat} {x : Executor}
    (hx : fs[i]? = some x) (hb : x ≠ .blocked) (hn : x ≠ .notified) : es[i]? = some x := by
  have hsame := congrArg (·[i]?) h.same
  simp only [List.getElem?_map, hx, Option.map_some, Option.map_eq_some_iff] at hsame
  obtain ⟨y, hy, hyx⟩ := hsame
  rw [hy]
  cases y <;> cases x <;> simp_all [Executor.notify]

/-- Nothing is submitted where nothing has changed. -/
theorem Submitted.refl (s : System) : Submitted s s [] := ⟨rfl, .refl _, rfl, rfl, .refl _⟩

/-- One more call. -/
theorem Submitted.schedule {ns : List Nat} (h : Submitted s s' ns) (hw : s'.agenda.tasks.WF)
    {caller : Caller} {cls : TaskType} {needs : Nat} {ordinal : Int} {segs : List Nat}
    {woken : Option Nat} {r : System}
    (hr : s'.step lim (.schedule caller cls needs ordinal segs woken) = some r) :
    Submitted s r (ns ++ [needs]) := by
  obtain ⟨-, es, hes, rfl⟩ := System.step_schedule hr
  have hwoken := notifyOne_woken hes
  refine ⟨?_, ?_, h.running, h.numFailed, hwoken.trans h.woken⟩
  · rw [List.length_append, List.length_singleton]
    exact (congrArg (· + 1) h.numSubmitted).trans (Nat.add_assoc _ _ _)
  · have hq := (SizeMap.queued_insert hw
      ⟨s'.agenda.numSubmitted, cls, needs, ordinal, segs⟩).append_right
        (s'.executors.flatMap Executor.runs)
    have hnums : (List.range' s.agenda.numSubmitted ns.length).length = ns.length :=
      List.length_range'
    rw [System.unfinished, hwoken.flatMap_eq Executor.runs_notify]
    refine (hq.map SyncTask.place).trans ?_
    rw [List.cons_append, List.map_cons, List.length_append, List.length_singleton,
      List.range'_1_concat, List.zip_append hnums, List.append_assoc]
    refine .trans ?_ List.perm_middle.symm
    rw [SyncTask.place, h.numSubmitted]
    exact h.unfinished.cons _

/-- Submitting tasks keeps the executors regular. -/
theorem Submitted.regular {ns : List Nat} (h : Submitted s s' ns) (hs : s.Regular) : s'.Regular :=
  ⟨h.numFailed.trans hs.numFailed, h.woken.regular hs.executors⟩

/-! ## Where the segments are -/

/-- Every reference to a segment is held by an executor, or by a queued task that needs none. -/
structure System.SegmentsGiven (s : System) : Prop where
  elsewhere : s.elsewhere = []
  queued : ∀ t ∈ s.agenda.tasks.queued, t.segments = [] ∨ t.needs = 0

/-- Segments that are given to nothing but what needs none are kept. -/
theorem System.SegmentsGiven.kept (h : s.SegmentsGiven) : s.SegmentsKept := by
  intro id hid
  rcases System.mem_held.1 hid with hid | hid | hid
  · exact .inl hid
  · obtain ⟨t, ht, hid⟩ := List.mem_flatMap.1 hid
    refine .inr ⟨t, ht, (h.queued t ht).resolve_left fun hnil => ?_, hid⟩
    rw [hnil] at hid
    cases hid
  · rw [h.elsewhere] at hid
    cases hid

/-- A step that is not made within a task leaves the segments where they are, or with an executor. -/
theorem System.SegmentsGiven.own (h : s.SegmentsGiven) (hi : AgendaInv lim s) {l : Label}
    (hs : s.OwnSteps lim l s') :
    s'.SegmentsGiven ∧ s'.agenda.numSubmitted = s.agenda.numSubmitted := by
  cases hs with
  | run | rest | cleanup | release => exact ⟨⟨h.elsewhere, h.queued⟩, rfl⟩
  | claim he hsc =>
    obtain ⟨-, -, -, -, hq, ha⟩ := Agenda.scan_some hi.tasks.wf hsc
    refine ⟨⟨h.elsewhere, fun t ht => h.queued t (hq.mem_iff.2 (.tail _ ht))⟩, ?_⟩
    rw [ha]

/-- A task that is scheduled with segments needs none. -/
theorem System.SegmentsGiven.schedule (h : s.SegmentsGiven) (hw : s.agenda.tasks.WF)
    {caller : Caller} {cls : TaskType} {needs : Nat} {ordinal : Int} {segs : List Nat}
    {woken : Option Nat} (hgiven : segs = [] ∨ needs = 0)
    (hr : s.step lim (.schedule caller cls needs ordinal segs woken) = some s') :
    s'.SegmentsGiven := by
  obtain ⟨-, es, hes, rfl⟩ := System.step_schedule hr
  refine ⟨h.elsewhere, fun t ht => ?_⟩
  rcases List.mem_cons.1 ((SizeMap.queued_insert hw _).mem_iff.1 ht) with rfl | ht
  · exact hgiven
  · exact h.queued t ht

end

/-! ## An execution is a run of the tasks -/

section

variable {σ τ ω ε : Type} {K : SyncTaskClass τ} {lim : AgendaLimits} {S : TaskSystem σ τ ω ε}
  {start : σ × List τ} {s r : System} {caller : Caller} {ts : List (τ × List Nat × Option Nat)}

/-- What each call of `schedule` keeps holds after all of them. -/
theorem scheduleAll_rule {I : System → List τ → Prop} (done : List τ)
    (h : K.scheduleAll lim caller s ts = some r) (h₀ : I s done)
    (hstep : ∀ s done s', ∀ p ∈ ts, I s done →
      s.step lim (K.schedule caller p.1 p.2) = some s' → I s' (done ++ [p.1])) :
    I r (done ++ ts.map Prod.fst) := by
  induction ts generalizing s done with
  | nil =>
    cases h
    rwa [List.map_nil, List.append_nil]
  | cons p ts ih =>
    obtain ⟨s', hs, h⟩ := Option.bind_eq_some_iff.1 h
    have hr := ih _ h (hstep s done s' p (.head _) h₀ hs) fun s done s' q hq =>
      hstep s done s' q (.tail _ hq)
    rwa [List.append_assoc, List.singleton_append] at hr

/-- A task that is given a segment needs none. -/
theorem SyncTaskClass.Gives.segments {t : τ} {segs : List Nat} (h : K.Gives t segs) :
    segs = [] ∨ K.needsSegments t = 0 :=
  h.imp_right And.right

/-- A task of the executor or of the main thread is scheduled as planned. -/
theorem planned_schedule (hcaller : caller ≠ .other) (t : τ) (given : List Nat × Option Nat) :
    (K.schedule caller t given).planned := by
  cases caller with
  | other => exact absurd rfl hcaller
  | main | executor => rfl

/-- What a call of `schedule` costs at most. -/
def AgendaLimits.taskCost (lim : AgendaLimits) : Nat :=
  2 * lim.threadNum + 3 + maxAttempts + (1 + lim.maxSegmentsInFlight) * refWeight lim.threadNum +
    2 * lim.threadNum + 1

/-- Scheduling a task that fits costs no more than is paid for a task. -/
theorem cost_schedule_le {t : τ} {given : List Nat × Option Nat} (hgives : K.Gives t given.1)
    (hfits : K.needsSegments t ≤ lim.maxSegmentsInFlight) :
    (K.schedule caller t given).cost lim ≤ lim.taskCost := by
  have hle : given.1.length + K.needsSegments t ≤ 1 + lim.maxSegmentsInFlight := by
    rcases hgives with hnil | ⟨hone, -⟩
    · rw [hnil, List.length_nil]
      omega
    · omega
  have := Nat.mul_le_mul_right (refWeight lim.threadNum) hle
  simp only [SyncTaskClass.schedule, Label.cost, AgendaLimits.taskCost]
  omega

/-- The calls of `schedule` by the thread that calls `run`, or by a task, are provided for where the
tasks need no more than there may be, and each pays for its task. -/
theorem scheduleAll_spec (hs : (providedMachine lim).Reachable s) (hg : s.SegmentsGiven)
    (hcaller : caller ≠ .other)
    (hts : ∀ p ∈ ts, K.Gives p.1 p.2.1 ∧ K.needsSegments p.1 ≤ lim.maxSegmentsInFlight)
    (h : K.scheduleAll lim caller s ts = some r) :
    (providedMachine lim).Reachable r ∧ r.SegmentsGiven ∧
      Submitted s r ((ts.map Prod.fst).map K.needsSegments) ∧
      r.weight lim + ts.length ≤ s.weight lim + ts.length * lim.taskCost := by
  have hall := scheduleAll_rule []
    (I := fun r done => (providedMachine lim).Reachable r ∧ r.SegmentsGiven ∧
      Submitted s r (done.map K.needsSegments) ∧
      r.weight lim + done.length ≤ s.weight lim + done.length * lim.taskCost) h
    ⟨hs, hg, .refl s, by simp⟩ fun u done v p hp hu hv => by
      obtain ⟨hgives, hfits⟩ := hts p hp
      have hi := AgendaInv.of_reachable hu.1.of_restrict
      have hg' := hu.2.1.schedule hi.tasks.wf hgives.segments hv
      have hfit : (K.schedule caller p.1 p.2).fits lim := decide_eq_true hfits
      have hprompt : u.Prompt v := by
        obtain ⟨-, es, hes, rfl⟩ := System.step_schedule hv
        exact System.prompt_of_woken (notifyOne_woken hes) fun _ hb => hb
      have hlt : v.weight lim + 1 ≤ u.weight lim + (K.schedule caller p.1 p.2).cost lim :=
        (System.step_cases hv).weight_lt hi hprompt
      have hcost : (K.schedule caller p.1 p.2).cost lim ≤ lim.taskCost :=
        cost_schedule_le hgives hfits
      have hle := hu.2.2.2
      refine ⟨hu.1.snoc (a := K.schedule caller p.1 p.2)
        ⟨⟨planned_schedule hcaller _ _, hfit, hg'.kept⟩, hv⟩, hg', ?_, ?_⟩
      · rw [List.map_append]
        exact hu.2.2.1.schedule hi.tasks.wf hv
      · rw [List.length_append, List.length_singleton, Nat.succ_mul]
        omega
  rwa [List.nil_append, List.length_map] at hall

/-- The objects of an execution are those of the tasks that have not run, and the shared state is
what the other ones made of it. -/
structure ExecutionInv (K : SyncTaskClass τ) (lim : AgendaLimits) (S : TaskSystem σ τ ω ε)
    (start : σ × List τ) (c : Execution σ τ) : Prop where
  provided : (providedMachine lim).Reachable c.system
  given : c.system.SegmentsGiven
  regular : c.system.Regular
  objects : (c.objects.map K.place).Perm (c.system.unfinished.map SyncTask.place)
  refines : ∃ ls, (S.machine start).Run start ls (c.shared, c.pending) ∧
    c.system.agenda.numSubmitted = ls.length + c.objects.length

/-- The steps made so far are paid for by the tasks scheduled so far. -/
def Execution.Paid (lim : AgendaLimits) (n : Nat) (c : Execution σ τ) : Prop :=
  n + c.system.weight lim ≤ c.system.agenda.numSubmitted * lim.taskCost +
    if c.system.running then lim.threadNum + 1 else 0

/-- An execution makes progress as its agenda does. -/
theorem ExecutionInv.progress {c : Execution σ τ} (h : ExecutionInv K lim S start c) :
    ProgressInv lim c.system :=
  .of_reachable h.provided

/-- The start is provided for. -/
theorem provided_start (lim : AgendaLimits) : (providedMachine lim).Reachable .start :=
  ⟨_, [], rfl, .nil⟩

/-- At the start no segments are given. -/
theorem segmentsGiven_start : System.SegmentsGiven .start := ⟨rfl, nofun⟩

/-- At the start the executors are regular. -/
theorem regular_start : System.Regular .start := ⟨rfl, nofun⟩

/-- At the start nothing is left to pay for. -/
theorem weight_start (lim : AgendaLimits) : System.weight lim .start = 0 := by
  simp [System.weight, System.start, Agenda.empty, SizeMap.queued]

/-- New objects, in the places of their tasks. -/
theorem map_place_zip (K : SyncTaskClass τ) {nums : List Nat} {new : List τ} :
    (nums.zip new).map K.place = nums.zip (new.map K.needsSegments) := by
  rw [List.zip_map_right]
  rfl

/-- The object of a claimed task is in its place. -/
theorem ExecutionInv.place_eq {c : Execution σ τ} (h : ExecutionInv K lim S start c) {e i : Nat}
    {task : SyncTask} {segs : List Nat} {outs : List (Option Thrown)} {t : τ}
    (he : c.system.executors[e]? = some (.running task segs outs))
    (hobject : c.objects[i]? = some (task.id, t)) : K.place (task.id, t) = task.place := by
  have hmem := h.objects.mem_iff.1 (List.mem_map_of_mem (List.mem_of_getElem? hobject))
  obtain ⟨task', htask', hplace⟩ := List.mem_map.1 hmem
  have hnodup := System.nodup_unfinished h.progress.accounts
  cases List.inj_on_of_nodup_map hnodup htask' (System.mem_unfinished he)
    (congrArg Prod.fst hplace)
  exact hplace.symm

/-- The invariant of an execution holds at first, and what is scheduled then is paid for. -/
theorem ExecutionInv.initial (hK : K.Suits lim S start) {c : Execution σ τ}
    (h : (K.execution lim S start).init c) : ExecutionInv K lim S start c ∧ c.Paid lim 0 := by
  obtain ⟨woken, ts, hcalls, hsys, hshared, hobjects⟩ := h
  obtain ⟨hnew, hgiven⟩ := SyncTaskClass.calls_spec hcalls
  have hcaller : Caller.main ≠ .other := nofun
  have hts : ∀ p ∈ ts, K.Gives p.1 p.2.1 ∧ K.needsSegments p.1 ≤ lim.maxSegmentsInFlight := by
    intro p hp
    have hmem : p.1 ∈ start.2 := hnew ▸ List.mem_map_of_mem hp
    exact ⟨(hgiven p hp).1, hK.fits _ _ ⟨_, [], rfl, .nil⟩ p.1 hmem⟩
  obtain ⟨hr, hg, hsub, hle⟩ := scheduleAll_spec (provided_start lim) segmentsGiven_start hcaller
    hts hsys
  have hlen : (List.range start.2.length).length = start.2.length := List.length_range
  have hcount : ts.length = start.2.length := by rw [← hnew, List.length_map]
  rw [hnew] at hsub
  have hnum : c.system.agenda.numSubmitted = start.2.length :=
    hsub.numSubmitted.trans (by rw [List.length_map]; exact Nat.zero_add _)
  refine ⟨⟨hr, hg, hsub.regular regular_start, ?_, [], ?_, ?_⟩, ?_⟩
  · rw [hobjects, map_place_zip]
    refine .trans ?_ hsub.unfinished.symm
    rw [List.range_eq_range', List.length_map]
    exact (List.append_nil _).symm ▸ .refl _
  · rw [Execution.pending, hobjects, List.map_snd_zip hlen.ge, hshared]
    exact .nil
  · rw [hnum, hobjects, List.length_zip, hlen, Nat.min_self]
    exact (Nat.zero_add _).symm
  · rw [weight_start, Nat.zero_add, hcount, ← hnum] at hle
    rw [Execution.Paid]
    omega

/-- After a task has run, the objects that stay and those of the tasks that it has submitted are in
the places of the tasks that have not ended. -/
theorem ExecutionInv.objects_perform {c : Execution σ τ} (h : ExecutionInv K lim S start c)
    {e i : Nat} {task : SyncTask} {segs : List Nat} {outs : List (Option Thrown)} {t : τ}
    (he : c.system.executors[e]? = some (.running task segs outs))
    (hobject : c.objects[i]? = some (task.id, t)) {s s' : System} {new : List τ}
    (hsub : Submitted c.system s (new.map K.needsSegments))
    (hunf : s.unfinished.Perm (task :: s'.unfinished)) :
    ((c.objects.eraseIdx i ++
      (List.range' c.system.agenda.numSubmitted new.length).zip new).map K.place).Perm
      (s'.unfinished.map SyncTask.place) := by
  rw [List.map_append, map_place_zip, ← List.eraseIdx_map]
  -- the task that has run is taken off on both sides
  refine List.Perm.cons_inv (a := task.place) ?_
  have hplace : (c.objects.map K.place)[i]? = some task.place := by
    rw [List.getElem?_map, hobject, Option.map_some, h.place_eq he hobject]
  have hout : (task.place :: (c.objects.map K.place).eraseIdx i).Perm (c.objects.map K.place) := by
    obtain ⟨hlt, hget⟩ := List.getElem?_eq_some_iff.1 hplace
    exact hget ▸ List.getElem_cons_eraseIdx_perm hlt
  have hin := hsub.unfinished
  rw [List.length_map] at hin
  refine .trans ?_ (hunf.map SyncTask.place)
  refine .trans ?_ hin.symm
  rw [← List.cons_append]
  exact ((hout.trans h.objects).append_right _).trans List.perm_append_comm

/-- A task that runs leaves the objects of the tasks that it schedules, which pay for its steps. -/
theorem ExecutionInv.perform (hK : K.Suits lim S start) {c c' : Execution σ τ} {e n : Nat} {o : ω}
    {woken : List (Option Nat)} (h : ExecutionInv K lim S start c)
    (hs : (K.execution lim S start).step c (.perform e o woken) c') :
    ExecutionInv K lim S start c' ∧ (c.Paid lim n → c'.Paid lim (n + 1)) := by
  obtain ⟨task, segs, outs, i, t, new, ts, s, he, hobject, ho, hrun, hcalls, hsched, hattempt,
    hobjects⟩ := hs
  obtain ⟨hnew, hgiven⟩ := SyncTaskClass.calls_spec hcalls
  have hi : i < c.objects.length := (List.getElem?_eq_some_iff.1 hobject).1
  have hnums : (List.range' c.system.agenda.numSubmitted new.length).length = new.length :=
    List.length_range'
  have hpending : c'.pending = c.pending.eraseIdx i ++ new := by
    rw [Execution.pending, hobjects, List.map_append, ← List.eraseIdx_map,
      List.map_snd_zip hnums.ge]
    rfl
  obtain ⟨ls, hr, hcount⟩ := h.refines
  have hr' : (S.machine start).Run start (ls ++ [(i, o)]) (c'.shared, c'.pending) :=
    .snoc hr ⟨t, c'.shared, new, by simp [Execution.pending, hobject], ho, hrun, by rw [hpending]⟩
  have hts : ∀ p ∈ ts, K.Gives p.1 p.2.1 ∧ K.needsSegments p.1 ≤ lim.maxSegmentsInFlight := by
    refine fun p hp => ⟨(hgiven p hp).1, hK.fits _ _ ⟨_, _, rfl, hr'⟩ p.1 ?_⟩
    rw [hpending, ← hnew]
    exact List.mem_append_right _ (List.mem_map_of_mem hp)
  have hcaller : Caller.executor e ≠ .other := nofun
  obtain ⟨hprov, hg, hsub, hle⟩ := scheduleAll_spec h.provided h.given hcaller hts hsched
  have hlen : ts.length = new.length := by rw [← hnew, List.length_map]
  rw [hlen] at hle
  rw [hnew] at hsub
  have he' : s.executors[e]? = some (.running task segs outs) := hsub.woken.getElem? he nofun nofun
  have hunf := System.unfinished_attempt he' hattempt
  have hlt := (System.step_cases hattempt).weight_lt (.of_reachable hprov.of_restrict)
  have hend := hattempt
  rw [System.step_attempt he', Option.some.injEq] at hend
  have hg' : c'.system.SegmentsGiven := hend ▸ ⟨hg.elsewhere, hg.queued⟩
  have hnum : c'.system.agenda.numSubmitted = c.system.agenda.numSubmitted + new.length := by
    rw [← hend, ← List.length_map (f := K.needsSegments)]
    exact hsub.numSubmitted
  have hrunning : c'.system.running = c.system.running := hend ▸ hsub.running
  have hregular := hsub.regular h.regular
  have hregular' : c'.system.Regular :=
    hend ▸ ⟨hregular.numFailed, regular_set hregular.executors rfl⟩
  refine ⟨⟨hprov.snoc (a := .attempt e none) ⟨⟨rfl, rfl, hg'.kept⟩, hattempt⟩, hg', hregular',
    ?_, _, hr', ?_⟩, fun hpaid => ?_⟩
  · rw [hobjects]
    exact h.objects_perform he hobject hsub hunf
  · rw [hnum, hcount, hobjects, List.length_append, List.length_append, List.length_zip, hnums,
      Nat.min_self, List.length_eraseIdx_of_lt hi, List.length_singleton]
    omega
  · have hlt : c'.system.weight lim + 1 ≤ s.weight lim :=
      hlt (hend ▸ System.prompt_of_woken (.refl _) (blocked_set he' nofun _))
    rw [Execution.Paid] at hpaid ⊢
    rw [hrunning, hnum, Nat.add_mul]
    omega

/-- A step that is not made within a task leaves the objects, and is paid for by the tasks or by the
call of `run`. -/
theorem ExecutionInv.agenda {c c' : Execution σ τ} {l : Label} {n : Nat}
    (h : ExecutionInv K lim S start c) (hs : (K.execution lim S start).step c (.agenda l) c') :
    ExecutionInv K lim S start c' ∧
      (c.system.Prompt c'.system → c.Paid lim n → c'.Paid lim (n + 1)) := by
  obtain ⟨hl, hs, hshared, hobjects⟩ := hs
  have hi := h.progress.accounts
  have hok : l.planned ∧ l.fits lim := by
    cases l with
    | schedule => cases hl
    | _ => exact ⟨rfl, rfl⟩
  have hown := System.own_cases hl hs
  obtain ⟨hg, hnum⟩ := h.given.own hi hown
  refine ⟨⟨h.provided.snoc ⟨⟨hok.1, hok.2, hg.kept⟩, hs⟩, hg, h.regular.own hi hown, ?_, ?_⟩,
    fun hp hpaid => ?_⟩
  · rw [hobjects]
    exact h.objects.trans ((hown.unfinished_perm hi).symm.map _)
  · obtain ⟨ls, hr, hcount⟩ := h.refines
    refine ⟨ls, ?_, ?_⟩
    · rw [hshared, Execution.pending, hobjects]
      exact hr
    · rw [hnum, hcount, hobjects]
  · have hlt := (System.step_cases hs).weight_lt hi hp
    rw [Execution.Paid] at hpaid ⊢
    rw [hnum]
    rcases hown.cost_cases with ⟨hcost, hr, hr'⟩ | ⟨hcost, hr⟩
    · rw [hr, if_neg nofun] at hpaid
      rw [hr', if_pos rfl]
      omega
    · rw [hr]
      omega

/-- An execution is a run of the task system. -/
theorem execution_refines (hK : K.Suits lim S start) {c : Execution σ τ}
    (h : (K.execution lim S start).Reachable c) : ExecutionInv K lim S start c := by
  refine h.invariant (fun _ h₀ => (ExecutionInv.initial hK h₀).1) fun c l c' hc hs => ?_
  cases l with
  | agenda l => exact (hc.agenda (n := 0) hs).1
  | perform e o woken => exact (hc.perform (n := 0) hK hs).1

/-! ## An execution ends -/

/-- Every step of an execution is paid for. -/
theorem execution_paid (hK : K.Suits lim S start) {c₀ c : Execution σ τ}
    {ls : List (ExecutionLabel ω)} (h₀ : (K.promptExecution lim S start).init c₀)
    (h : (K.promptExecution lim S start).Run c₀ ls c) :
    ExecutionInv K lim S start c ∧ c.Paid lim ls.length := by
  refine h.invariant (I := fun ls c => ExecutionInv K lim S start c ∧ c.Paid lim ls.length)
    (ExecutionInv.initial hK h₀) fun ls c l c' hc hs => ?_
  rw [List.length_append, List.length_singleton]
  cases l with
  | agenda l =>
    obtain ⟨hi, hpaid⟩ := hc.1.agenda hs.2
    exact ⟨hi, hpaid hs.1 hc.2⟩
  | perform e o woken =>
    obtain ⟨hi, hpaid⟩ := hc.1.perform hK hs.2
    exact ⟨hi, hpaid hc.2⟩

/-- An execution of a system that completes is no longer than the tasks that it may schedule pay
for. -/
theorem execution_length_le {post : σ → Prop} (hS : S.Completes start post)
    (hanswers : ∀ s ts, (S.machine start).Reachable (s, ts) → ∀ t ∈ ts, ∃ o, S.answers s t o)
    (hK : K.Suits lim S start) :
    ∃ n, ∀ c₀ ls c, (K.promptExecution lim S start).init c₀ →
      (K.promptExecution lim S start).Run c₀ ls c → ls.length ≤ n := by
  obtain ⟨n, hn⟩ := hS.scheduled_le hanswers
  refine ⟨n * lim.taskCost + (lim.threadNum + 1), fun c₀ ls c h₀ h => ?_⟩
  obtain ⟨hi, hpaid⟩ := execution_paid hK h₀ h
  obtain ⟨ks, hr, hcount⟩ := hi.refines
  have hle := hn ks _ _ hr
  rw [Execution.pending, List.length_map, ← hcount] at hle
  have hmul := Nat.mul_le_mul_right lim.taskCost hle
  rw [Execution.Paid] at hpaid
  split at hpaid <;> omega

/-- The calls of `schedule` within a task can be made if there is a segment for each of the new tasks
that holds one. -/
theorem exists_scheduleAll (K : SyncTaskClass τ) (lim : AgendaLimits) {s : System} {e : Nat}
    {task : SyncTask} {held : List Nat} {outs : List (Option Thrown)} (new : List τ)
    (he : s.executors[e]? = some (.running task held outs)) {segs : List Nat}
    (hsegs : ∀ id ∈ segs, id ∈ held)
    (hnew : ∀ (k : Nat) u, new[k]? = some u → K.holdsSegment u → k < segs.length) :
    ∃ woken ts r, K.calls segs new woken = some ts ∧
      K.scheduleAll lim (.executor e) s ts = some r ∧ Woken r.executors s.executors := by
  induction new generalizing s segs with
  | nil => exact ⟨[], [], s, rfl, rfl, .refl _⟩
  | cons t new ih =>
    obtain ⟨w, fs, hfs⟩ := exists_notifyOne s.executors
    have hwoken := notifyOne_woken hfs
    -- the call for the first one, with what it is given
    have hcall : ∀ given, (∀ id ∈ given, id ∈ held) →
        ∃ r, s.step lim (K.schedule (.executor e) t (given, w)) = some r ∧ r.executors = fs := by
      intro given hgiven
      have hmay : s.maySchedule given (.executor e) = true := by
        simp only [System.maySchedule, he, List.all_eq_true, decide_eq_true_eq]
        exact fun id hid => .inl (hgiven id hid)
      simp [SyncTaskClass.schedule, System.step, hmay, hfs]
    have hnext : ∀ (k : Nat) u, new[k]? = some u → K.holdsSegment u → k < segs.tail.length := by
      intro k u hu hholds
      have := hnew (k + 1) u hu hholds
      rw [List.length_tail]
      omega
    have hmore : ∀ {r : System}, r.executors = fs → ∃ woken ts u,
        K.calls segs.tail new woken = some ts ∧ K.scheduleAll lim (.executor e) r ts = some u ∧
        Woken u.executors s.executors := by
      rintro r rfl
      obtain ⟨woken, ts, u, hcalls, hu, hw⟩ := ih (hwoken.getElem? he (by simp) (by simp))
        (fun id hid => hsegs id (List.mem_of_mem_tail hid)) hnext
      exact ⟨woken, ts, u, hcalls, hu, hw.trans hwoken⟩
    by_cases hholds : K.holdsSegment t = true
    · cases segs with
      | nil => exact absurd (hnew 0 t rfl hholds) (Nat.not_lt_zero _)
      | cons id segs =>
        obtain ⟨r, hr, hfs'⟩ := hcall [id] fun j hj => hsegs j (List.mem_singleton.1 hj ▸ .head _)
        obtain ⟨woken, ts, u, hcalls, hu, hw⟩ := hmore hfs'
        refine ⟨w :: woken, (t, [id], w) :: ts, u, ?_, Option.bind_eq_some_iff.2 ⟨r, hr, hu⟩, hw⟩
        simp only [SyncTaskClass.calls, if_pos hholds]
        exact Option.map_eq_some_iff.2 ⟨ts, hcalls, rfl⟩
    · obtain ⟨r, hr, hfs'⟩ := hcall [] (by simp)
      obtain ⟨woken, ts, u, hcalls, hu, hw⟩ := hmore hfs'
      refine ⟨w :: woken, (t, [], w) :: ts, u, ?_, Option.bind_eq_some_iff.2 ⟨r, hr, hu⟩, hw⟩
      simp only [SyncTaskClass.calls, if_neg hholds]
      exact Option.map_eq_some_iff.2 ⟨ts, hcalls, rfl⟩

/-- A task that an executor has claimed and not run has its object. -/
theorem ExecutionInv.exists_object {c : Execution σ τ} (h : ExecutionInv K lim S start c) {e : Nat}
    {task : SyncTask} {segs : List Nat} {outs : List (Option Thrown)}
    (he : c.system.executors[e]? = some (.running task segs outs)) :
    ∃ (i : Nat) (t : τ), c.objects[i]? = some (task.id, t) := by
  have hmem := h.objects.mem_iff.2 (List.mem_map_of_mem (f := SyncTask.place)
    (System.mem_unfinished he))
  obtain ⟨⟨id, t⟩, hp, hplace⟩ := List.mem_map.1 hmem
  obtain ⟨i, hi⟩ := List.mem_iff_getElem?.1 hp
  obtain rfl : id = task.id := congrArg Prod.fst hplace
  exact ⟨i, t, hi⟩

/-- An executor that has claimed a task can run it. -/
theorem ExecutionInv.exists_perform {post : σ → Prop} (hS : S.Completes start post)
    (hanswers : ∀ s ts, (S.machine start).Reachable (s, ts) → ∀ t ∈ ts, ∃ o, S.answers s t o)
    (hK : K.Suits lim S start) {c : Execution σ τ} (h : ExecutionInv K lim S start c) {e : Nat}
    {task : SyncTask} {segs : List Nat} {outs : List (Option Thrown)}
    (he : c.system.executors[e]? = some (.running task segs outs)) :
    ∃ l c', (K.promptExecution lim S start).step c l c' := by
  obtain ⟨i, t, hobject⟩ := h.exists_object he
  obtain ⟨ls, hr, -⟩ := h.refines
  have hreach : (S.machine start).Reachable (c.shared, c.pending) := ⟨_, ls, rfl, hr⟩
  have hmem : t ∈ c.pending :=
    List.mem_map_of_mem (f := Prod.snd) (List.mem_of_getElem? hobject)
  obtain ⟨o, ho⟩ := hanswers _ _ hreach t hmem
  obtain ⟨⟨shared, new⟩, hrun⟩ := hS.returns _ _ hreach t hmem o ho
  have hneeds : K.needsSegments t = task.needs := congrArg Prod.snd (h.place_eq he hobject)
  have hlen : task.needs ≤ segs.length := h.regular.executors _ (List.mem_of_getElem? he)
  obtain ⟨woken, ts, s, hcalls, hsched, hwoken⟩ := exists_scheduleAll K lim new he
    (fun _ hid => hid) fun k u hu hholds =>
      (hneeds ▸ hK.provides _ _ hreach t hmem o shared new ho hrun k u hu hholds).trans_le hlen
  have he' : s.executors[e]? = some (.running task segs outs) := hwoken.getElem? he nofun nofun
  refine ⟨.perform e o woken, ⟨_, shared, _⟩, ?_, task, segs, outs, i, t, new, ts, s, he, hobject,
    ho, hrun, hcalls, hsched, System.step_attempt he', rfl⟩
  -- the executor that has run the task is not awake, and the other ones are only notified
  intro j hj hb hawake
  rw [getElem?_set_of_getElem? he'] at hawake
  split at hawake
  · cases hawake
  · exact System.prompt_of_woken hwoken (fun _ hb => hb) j hj hb hawake

/-- An execution can go on until all executors have exited. -/
theorem ExecutionInv.exists_step {post : σ → Prop} (hS : S.Completes start post)
    (hanswers : ∀ s ts, (S.machine start).Reachable (s, ts) → ∀ t ∈ ts, ∃ o, S.answers s t o)
    (hK : K.Suits lim S start) {c : Execution σ τ} (h : ExecutionInv K lim S start c)
    (hne : ¬ c.Over) : ∃ l c', (K.promptExecution lim S start).step c l c' := by
  have hagenda : ∀ {l s}, c.system.owns l → c.system.step lim l = some s → c.system.Prompt s →
      ∃ l c', (K.promptExecution lim S start).step c l c' := fun {l s} hl hs hp =>
    ⟨.agenda l, ⟨s, c.shared, c.objects⟩, hp, hl, hs, rfl, rfl⟩
  cases hr : c.system.running with
  | false =>
    have hstep : c.system.step lim .run = some { c.system with
        executors := List.replicate lim.threadNum .awake, running := true } := by
      simp only [System.step, hr]
      rfl
    refine hagenda (l := .run) rfl hstep fun i hi => ?_
    rw [h.progress.accounts.idle hr] at hi
    cases hi
  | true =>
    obtain ⟨x, hx, hexited⟩ : ∃ x ∈ c.system.executors, x ≠ .exited := by
      by_contra hall
      exact hne ⟨hr, fun x hx => by_contra fun hx' => hall ⟨x, hx, hx'⟩⟩
    obtain ⟨y, hy, hmoving⟩ := h.progress.watched.exists_moving hx hexited
    obtain ⟨e, he⟩ := List.mem_iff_getElem?.1 hy
    cases y with
    | running task segs outs => exact h.exists_perform hS hanswers hK he
    | _ =>
      obtain ⟨l, s, hs, hp, -, hl⟩ := ExtremeS3.exists_step lim he hmoving
      exact hagenda (hl rfl) hs hp

/-- When all executors have exited, all tasks have run. -/
theorem ExecutionInv.pending_eq_nil {c : Execution σ τ} (h : ExecutionInv K lim S start c)
    (hover : c.Over) : c.pending = [] := by
  have hnil : c.objects.map K.place = [] := by
    refine List.perm_nil.1 (h.objects.trans ?_)
    rw [System.unfinished, (h.progress.drained_of_all_exited hover.1 hover.2).1,
      flatMap_eq_nil_of_forall_exited hover.2 rfl]
    exact .refl _
  rw [Execution.pending, List.map_eq_nil_iff.1 hnil]
  rfl

/-- An agenda runs the tasks of a system that completes to their end. -/
theorem TaskSystem.Completes.executes {post : σ → Prop} (hS : S.Completes start post)
    (hanswers : ∀ s ts, (S.machine start).Reachable (s, ts) → ∀ t ∈ ts, ∃ o, S.answers s t o)
    (hK : K.Suits lim S start) : K.Executes lim S start post := by
  refine ⟨execution_length_le hS hanswers hK, fun c hc => ?_, fun c hc hover => ?_⟩
  · by_cases hend : c.Over
    · exact .inr hend
    · exact .inl ((execution_refines hK hc).exists_step hS hanswers hK hend)
  · have hi := execution_refines hK hc
    obtain ⟨ls, hr, -⟩ := hi.refines
    rw [hi.pending_eq_nil hover] at hr
    exact ⟨hS.post _ ⟨_, ls, rfl, hr⟩, (hi.progress.done hover.1 hover.2).1, hi.regular.numFailed⟩

/-- However the executors of an agenda take turns, they run the tasks of a system that suits it in
some order that the system permits. If the system completes, and its tasks are answered, the
execution comes to its end, and `run` returns with the shared state as wanted and no failed task. -/
theorem agenda_runs_tasks (hK : K.Suits lim S start) :
    (∀ c, (K.execution lim S start).Reachable c →
      (S.machine start).Reachable (c.shared, c.pending)) ∧
    ∀ post, S.Completes start post →
      (∀ s ts, (S.machine start).Reachable (s, ts) → ∀ t ∈ ts, ∃ o, S.answers s t o) →
        K.Executes lim S start post := by
  refine ⟨fun c hc => ?_, fun post hS hanswers => hS.executes hanswers hK⟩
  obtain ⟨ls, hr, -⟩ := (execution_refines hK hc).refines
  exact ⟨_, ls, rfl, hr⟩

end

/-- Tasks that count themselves, each of which but for the last one schedules a smaller one. -/
def counting : TaskSystem Nat Nat Unit Empty where
  run s t _ :=
    match t with
    | 0 => pure (s + 1, [])
    | t + 1 => pure (s + 1, [t])
  answers _ _ _ := True

/-- The odd ones need a segment, and the last one holds one. -/
def countingClass : SyncTaskClass Nat where
  getClass _ := .unbound
  needsSegments t := t % 2
  ordinal _ := 0
  holdsSegment t := t == 0
  needs_of_holds t h := by rw [beq_iff_eq.1 h]

/-- Counting completes, when both tasks have counted themselves. -/
theorem counting_completes : counting.Completes (0, [1]) (· = 2) := by
  refine TaskSystem.completes_of_invariant (fun s ts => s + (ts.map (· + 1)).sum = 2) (· + 1) rfl
    (fun s before t after o h _ => ?_) fun s h => h
  simp only [List.map_append, List.map_cons, List.sum_append, List.sum_cons] at h
  cases t with
  | zero =>
    refine ⟨s + 1, [], Prog.evals_pure _, ?_, Nat.one_pos⟩
    simp only [List.append_nil, List.map_append, List.sum_append]
    omega
  | succ t =>
    refine ⟨s + 1, [t], Prog.evals_pure _, ?_, ?_⟩
    · simp only [List.map_append, List.map_cons, List.map_nil, List.sum_append, List.sum_cons,
        List.sum_nil]
      omega
    · exact Nat.lt_succ_self _

/-- The class of the counting tasks suits them: one segment is needed, and handed on. -/
theorem countingClass_suits : countingClass.Suits smallLimits counting (0, [1]) := by
  refine ⟨fun _ _ _ t _ => (Nat.mod_lt t Nat.two_pos).le.trans (by decide), ?_⟩
  intro s ts _ t _ o s' new _ hrun k u hu hholds
  cases t with
  | zero =>
    cases hrun.unique (Prog.evals_pure _)
    cases hu
  | succ t =>
    cases hrun.unique (Prog.evals_pure _)
    obtain ⟨rfl, rfl⟩ : k = 0 ∧ t = u := by
      cases k with
      | zero => exact ⟨rfl, Option.some.inj hu⟩
      | succ k => cases hu
    obtain rfl : t = 0 := beq_iff_eq.1 hholds
    exact Nat.one_pos

/-- Steps of the agenda alone. -/
theorem run_agenda {σ τ ω ε : Type} {K : SyncTaskClass τ} {lim : AgendaLimits}
    {S : TaskSystem σ τ ω ε} {start : σ × List τ} {s s' : System} (ls : List Label)
    (h : ls.foldlM (fun s l => if s.owns l then s.step lim l else none) s = some s') (shared : σ)
    (objects : List (Nat × τ)) :
    (K.execution lim S start).Run ⟨s, shared, objects⟩ (ls.map .agenda) ⟨s', shared, objects⟩ := by
  induction ls generalizing s with
  | nil => cases h; exact .nil
  | cons l ls ih =>
    rw [List.foldlM_cons, Option.bind_eq_bind, Option.bind_eq_some_iff] at h
    obtain ⟨u, hu, h⟩ := h
    split at hu
    · next hl =>
      have hstep : (K.execution lim S start).step ⟨s, shared, objects⟩ (.agenda l)
          ⟨u, shared, objects⟩ := ⟨hl, hu, rfl, rfl⟩
      exact .cons hstep (ih h)
    · cases hu

/-- A run of two of them, of which the first one wakes up an executor and gives its segment to the
second one: up to where the first one runs, to where the second one does, and to the end. -/
def countingRun : List (List Label) :=
  [[countingClass.schedule .main 1 ([], none), .run, .claim 0, .claim 1],
    [countingClass.schedule (.executor 0) 0 ([0], some 1), .attempt 0 none, .cleanup 0 none,
      .release (.executor 0) 0 none, .rescan 0, .wake 1, .claim 1],
    [.attempt 1 none, .cleanup 1 none, .release (.executor 1) 0 none, .rescan 1, .claim 0, .claim 1,
      .claim 2]]

/-- The agenda after the labels of a run. -/
def System.after (ls : List Label) : System :=
  (ls.foldlM (System.step smallLimits) .start).getD .start

/-- `agenda_runs_tasks` at the end of that run. -/
theorem agenda_runs_tasks_two :
    ∃ c, (countingClass.execution smallLimits counting (0, [1])).Reachable c ∧
      c.system = .after countingRun.flatten ∧ c.shared = 2 ∧ c.system.AllDone := by
  let E := countingClass.execution smallLimits counting (0, [1])
  let u (n k : Nat) : System :=
    .after ((countingRun.take n).flatten ++ (countingRun.getD n []).take k)
  have h₁ : E.Run ⟨u 0 1, 0, [(0, 1)]⟩ _ ⟨u 1 0, 0, [(0, 1)]⟩ :=
    run_agenda [.run, .claim 0, .claim 1] (by decide) 0 [(0, 1)]
  have h₂ : E.step ⟨u 1 0, 0, [(0, 1)]⟩ (.perform 0 () [some 1]) ⟨u 1 2, 1, [(1, 0)]⟩ :=
    ⟨_, _, _, 0, 1, [0], _, _, rfl, rfl, trivial, Prog.evals_pure _, rfl, rfl, rfl, rfl⟩
  have h₃ : E.Run ⟨u 1 2, 1, [(1, 0)]⟩ _ ⟨u 2 0, 1, [(1, 0)]⟩ :=
    run_agenda ((countingRun.getD 1 []).drop 2) (by decide) 1 [(1, 0)]
  have h₄ : E.step ⟨u 2 0, 1, [(1, 0)]⟩ (.perform 1 () []) ⟨u 2 1, 2, []⟩ :=
    ⟨_, _, _, 0, 0, [], _, _, rfl, rfl, trivial, Prog.evals_pure _, rfl, rfl, rfl, rfl⟩
  have h₅ : E.Run ⟨u 2 1, 2, []⟩ _ ⟨u 3 0, 2, []⟩ :=
    run_agenda ((countingRun.getD 2 []).drop 1) (by decide) 2 []
  have hc : E.Reachable ⟨u 3 0, 2, []⟩ :=
    ⟨_, _, ⟨[none], _, rfl, rfl, rfl, rfl⟩, h₁.append (.cons h₂ (h₃.append (.cons h₄ h₅)))⟩
  obtain ⟨-, hends⟩ := agenda_runs_tasks countingClass_suits
  have hend := hends _ counting_completes fun _ _ _ _ _ => ⟨(), trivial⟩
  obtain ⟨hshared, hdone, -⟩ := hend.post _ hc ⟨rfl, by decide⟩
  exact ⟨_, hc, rfl, hshared, hdone⟩

end ExtremeS3
