import ExtremeS3.Errors
import ExtremeS3.Lib.Machine
import ExtremeS3.Lib.SortedMap
import Mathlib.Data.List.Sort
import Mathlib.Data.Nat.Basic

/-!
# The agenda and its executors

`agenda` keeps the scheduled tasks in nested maps, first by the number of segments they need and
then by their class, and counts the tasks at work by class and the segments in flight.
`agenda::run` starts `task_executor` threads, which claim a task, run it in the retry loop, clean
up after it and look for the next one; an executor that finds nothing to claim waits on
`condition_`.

Every critical section under `m_` is one step here: `schedule`, one pass of `claim_task` (which
ends with a task, with a wait, or with the thread's exit), `cleanup`, and the release of a segment
by `segment_deleter`. Between them a task makes its attempts. `System.step` runs one labelled step
of all of these; which executor a `notify_one` wakes is part of the label, and a waiting executor
may also wake up by itself, as a condition variable permits.
-/

namespace ExtremeS3

/-- `task_type_e`. -/
inductive TaskType where
  | unbound
  | cpuBound
  | ioBound
  deriving DecidableEq, Repr

/-- The enumerator's value. -/
def TaskType.val : TaskType → Nat
  | .unbound => 0
  | .cpuBound => 1
  | .ioBound => 2

/-- `std::map` orders the classes by their values. -/
instance : LinearOrder TaskType :=
  LinearOrder.lift' TaskType.val fun a b h => by cases a <;> cases b <;> simp_all [TaskType.val]

/-- What the agenda sees of a scheduled `sync_task`. `id` counts the calls of `schedule`, so that
a task is told apart from every other one; `segments` are the segments the task object holds. -/
structure SyncTask where
  id : Nat
  cls : TaskType
  needs : Nat
  ordinal : Int
  segments : List Nat
  deriving DecidableEq, Repr

/-- The constructor's parameters. `main` makes every class limit positive, and a `size_t` is below
`2^64`. -/
structure AgendaLimits where
  numUnbound : Nat
  numCpuBound : Nat
  numIoBound : Nat
  maxSegmentsInFlight : Nat
  unbound_pos : 0 < numUnbound
  cpuBound_pos : 0 < numCpuBound
  ioBound_pos : 0 < numIoBound
  maxSegmentsInFlight_lt : maxSegmentsInFlight < 2 ^ 64

/-- `class_limits_.at(tp)`. -/
def AgendaLimits.getCapability (lim : AgendaLimits) : TaskType → Nat
  | .unbound => lim.numUnbound
  | .cpuBound => lim.numCpuBound
  | .ioBound => lim.numIoBound

/-- The sum of `class_limits_`, which `run` computes. -/
def AgendaLimits.threadNum (lim : AgendaLimits) : Nat :=
  lim.numUnbound + lim.numCpuBound + lim.numIoBound

/-- Every class may have a thread at least. -/
theorem AgendaLimits.getCapability_pos (lim : AgendaLimits) (c : TaskType) :
    0 < lim.getCapability c := by
  cases c
  · exact lim.unbound_pos
  · exact lim.cpuBound_pos
  · exact lim.ioBound_pos

/-- There is a thread at least. -/
theorem AgendaLimits.threadNum_pos (lim : AgendaLimits) : 0 < lim.threadNum := by
  have := lim.unbound_pos
  simp only [threadNum]
  omega

/-! ## The queue -/

/-- `task_map_t`, in the order of the ordinals. -/
abbrev TaskMap := List SyncTask

/-- `task_by_class_t`. -/
abbrev TaskByClass := List (TaskType × TaskMap)

/-- `size_map_t`. -/
abbrev SizeMap := List (Nat × TaskByClass)

/-- `multimap::insert`: the entry goes behind those with an equal key. -/
def TaskMap.insert (t : SyncTask) (m : TaskMap) : TaskMap :=
  m.orderedInsert (fun t u => t.ordinal < u.ordinal) t

/-- `tasks_[task->needs_segments()][task->get_class()].insert(..)`. -/
def SizeMap.insert (t : SyncTask) (m : SizeMap) : SizeMap :=
  upsert t.needs (fun byClass =>
    upsert t.cls (fun taskMap => TaskMap.insert t (taskMap.getD [])) (byClass.getD [])) m

/-- The bucket a pass of `claim_task` looks at: the one of the tasks that need the most segments
if they are available, else the one of those that need the fewest. -/
def SizeMap.bucket (avail : Nat) (m : SizeMap) : Option (Nat × TaskByClass) :=
  match m.getLast? with
  | none => none
  | some last =>
    if last.1 ≤ avail then some last
    else
      match m.head? with
      | none => none
      | some first => if first.1 ≤ avail then some first else none

/-- Leave `rest` of the tasks of one class in a bucket, and drop the maps this empties. -/
def SizeMap.leave (need : Nat) (byClass : TaskByClass) (cls : TaskType) (rest : TaskMap)
    (m : SizeMap) : SizeMap :=
  match rest with
  | [] =>
    match eraseKey cls byClass with
    | [] => eraseKey need m
    | byClass' => upsert need (fun _ => byClass') m
  | rest => upsert need (fun _ => upsert cls (fun _ => rest) byClass) m

/-- The tasks in the queue. -/
def SizeMap.queued (m : SizeMap) : List SyncTask := m.flatMap fun b => b.2.flatMap (·.2)

/-! ## The data under `m_` and `stats_m_` -/

/-- The fields of `agenda` that its operations change. -/
structure Agenda where
  tasks : SizeMap
  classes : List (TaskType × Nat)
  numWorking : Nat
  segmentsInFlight : Nat
  numSubmitted : Nat
  numDone : Nat
  numFailed : Nat
  deriving DecidableEq, Repr

/-- The agenda its constructor leaves. -/
def Agenda.empty : Agenda := ⟨[], [], 0, 0, 0, 0, 0⟩

/-- `agenda::schedule`, up to its notification. -/
def Agenda.schedule (a : Agenda) (t : SyncTask) : Agenda :=
  { a with
    classes := upsert t.cls (·.getD 0) a.classes
    tasks := a.tasks.insert t
    numSubmitted := a.numSubmitted + 1 }

/-- `max_segments_in_flight_-segments_in_flight_`, an unsigned subtraction. -/
def Agenda.segmentsAvail (lim : AgendaLimits) (a : Agenda) : Nat :=
  (lim.maxSegmentsInFlight + (2 ^ 64 - a.segmentsInFlight % 2 ^ 64)) % 2 ^ 64

/-- The loop of `claim_task` over `classes_`: the task it claims, the segments that it needs, and
the agenda without the task in the queue. The segments are not counted yet. -/
def Agenda.scan (lim : AgendaLimits) (a : Agenda) :
    List (TaskType × Nat) → Option (SyncTask × Nat × Agenda)
  | [] => none
  | (cls, num) :: classes =>
    if lim.getCapability cls ≤ num then a.scan lim classes
    else
      match a.tasks.bucket (a.segmentsAvail lim) with
      | none => a.scan lim classes
      | some (need, byClass) =>
        match findKey cls byClass with
        | none => a.scan lim classes
        | some [] => none -- `assert(!task_map.empty())`
        | some (t :: rest) =>
          some (t, need,
            { a with
              tasks := a.tasks.leave need byClass cls rest
              numWorking := a.numWorking + 1
              classes := upsert cls (·.getD 0 + 1) a.classes })

/-- `task_executor::cleanup`, up to its notification. -/
def Agenda.cleanup (a : Agenda) (t : SyncTask) (fail : Bool) : Agenda :=
  { a with
    numWorking := a.numWorking - 1
    classes := upsert t.cls (·.getD 0 - 1) a.classes
    numDone := a.numDone + 1
    numFailed := a.numFailed + fail.toNat }

/-! ## The executors -/

/-- Where a `task_executor` stands. `segments` are those its pair of `claim_task` and the task
hold, and `outcomes` are the results of the attempts made so far. `notified` is a waiting executor
whose wake-up is pending, `ended` one that has left the loop over the attempts, and `releasing`
one that has cleaned up and gives its segments back. -/
inductive Executor where
  | awake
  | blocked
  | notified
  | running (task : SyncTask) (segments : List Nat) (outcomes : List (Option Thrown))
  | ended (task : SyncTask) (segments : List Nat) (outcomes : List (Option Thrown)) (fail : Bool)
  | releasing (segments : List Nat)
  | exited
  deriving DecidableEq, Repr

/-- The task that is claimed and not cleaned up. -/
def Executor.tasks : Executor → List SyncTask
  | .running t _ _ | .ended t _ _ _ => [t]
  | _ => []

/-- The segments the executor holds. -/
def Executor.segments : Executor → List Nat
  | .running _ segs _ | .ended _ segs _ _ | .releasing segs => segs
  | _ => []

/-- `condition_.notify_one()`, which wakes the given executor, or none if none waits. -/
def notifyOne (es : List Executor) : Option Nat → Option (List Executor)
  | none => if .blocked ∈ es then none else some es
  | some i => if es[i]? = some .blocked then some (es.set i .notified) else none

/-- An executor after `condition_.notify_all()`. -/
def Executor.notify : Executor → Executor
  | .blocked => .notified
  | e => e

/-! ## The system -/

/-- The agenda, its executors and the segments. `running` says that `run` has been called and has
not returned. Segments are numbered as they are made, `elsewhere` are the references that neither
an executor nor a queued task holds. `claimed` lists the claims made, as task and executor, and
`finished` the cleanups made, as task with the results of its attempts. -/
structure System where
  agenda : Agenda
  executors : List Executor
  running : Bool
  nextSegment : Nat
  elsewhere : List Nat
  claimed : List (Nat × Nat)
  finished : List (SyncTask × List (Option Thrown))
  deriving DecidableEq, Repr

/-- Who calls `schedule`, or gives up a reference to a segment: the thread that calls `run` while
`run` is not running, the task of an executor, or anything else. -/
inductive Caller where
  | main
  | executor (e : Nat)
  | other
  deriving DecidableEq, Repr

/-- The atomic steps; `woken` is the executor that a `notify_one` wakes. -/
inductive Label where
  | schedule (caller : Caller) (cls : TaskType) (needs : Nat) (ordinal : Int) (segments : List Nat)
      (woken : Option Nat)
  | run
  | ret
  | claim (e : Nat)
  | wake (e : Nat)
  | attempt (e : Nat) (outcome : Option Thrown)
  | cleanup (e : Nat) (woken : Option Nat)
  | release (caller : Caller) (segment : Nat) (woken : Option Nat)
  | rescan (e : Nat)
  | share (e : Nat) (segment : Nat)
  deriving DecidableEq, Repr

/-- Every reference to a segment. -/
def System.held (s : System) : List Nat :=
  s.executors.flatMap Executor.segments ++ s.agenda.tasks.queued.flatMap SyncTask.segments ++
    s.elsewhere

/-- The tasks that are claimed and not cleaned up. -/
def System.working (s : System) : List SyncTask := s.executors.flatMap Executor.tasks

/-- Whether the caller is in a position to call `schedule` with references to the segments. -/
def System.maySchedule (s : System) (segs : List Nat) : Caller → Bool
  | .main => !s.running && segs.all (· ∈ s.elsewhere)
  | .executor e =>
    match s.executors[e]? with
    | some (.running _ held _) => segs.all fun id => id ∈ held ∨ id ∈ s.elsewhere
    | _ => false
  | .other => segs.all (· ∈ s.elsewhere)

/-- The system without one reference to a segment, if the caller may give it up: a task that runs,
an executor that has cleaned up, or whatever holds references elsewhere. -/
def System.forget (s : System) (id : Nat) : Caller → Option System
  | .main => none
  | .executor e =>
    match s.executors[e]? with
    | some (.running t segs outs) =>
      if id ∈ segs then
        some { s with executors := s.executors.set e (.running t (segs.erase id) outs) }
      else none
    | some (.releasing segs) =>
      if id ∈ segs then
        some { s with executors := s.executors.set e (.releasing (segs.erase id)) }
      else none
    | _ => none
  | .other =>
    if id ∈ s.elsewhere then some { s with elsewhere := s.elsewhere.erase id } else none

/-- One pass of `claim_task` by executor `e`. `get_segments` makes the segments that the task
needs. -/
def System.claimTask (lim : AgendaLimits) (s : System) (e : Nat) : System :=
  if s.agenda.tasks = [] then
    if s.agenda.numWorking = 0 then { s with executors := s.executors.set e .exited }
    else { s with executors := s.executors.set e .blocked }
  else
    match s.agenda.scan lim s.agenda.classes with
    | none => { s with executors := s.executors.set e .blocked }
    | some (t, need, a) =>
      let segs := List.range' s.nextSegment need
      { s with
        agenda := { a with segmentsInFlight := a.segmentsInFlight + need }
        executors := s.executors.set e (.running t (t.segments ++ segs) [])
        nextSegment := s.nextSegment + need
        claimed := s.claimed ++ [(t.id, e)] }

/-- The notification at the end of `cleanup`. -/
def System.notifyCleanup (s : System) (woken : Option Nat) : Option System :=
  if s.agenda.tasks = [] ∧ s.agenda.numWorking = 0 then
    some { s with executors := s.executors.map Executor.notify }
  else (notifyOne s.executors woken).map fun es => { s with executors := es }

/-- `segment_deleter` once the last reference to a segment is gone. -/
def System.deleteSegment (s : System) (id : Nat) (woken : Option Nat) : Option System :=
  if id ∈ s.held then some s
  else
    (notifyOne s.executors woken).map fun es =>
      { s with
        agenda := { s.agenda with segmentsInFlight := s.agenda.segmentsInFlight - 1 }
        executors := es }

/-- One atomic step, if it can be made. -/
def System.step (lim : AgendaLimits) (s : System) : Label → Option System
  | .schedule caller cls needs ordinal segs woken =>
    if s.maySchedule segs caller then
      (notifyOne s.executors woken).map fun es =>
        { s with
          agenda := s.agenda.schedule ⟨s.agenda.numSubmitted, cls, needs, ordinal, segs⟩
          executors := es }
    else none
  | .run =>
    if s.running then none
    else some { s with executors := List.replicate lim.threadNum .awake, running := true }
  | .ret =>
    if s.running ∧ ∀ e ∈ s.executors, e = .exited then
      some { s with executors := [], running := false }
    else none
  | .claim e => if s.executors[e]? = some .awake then some (s.claimTask lim e) else none
  | .wake e =>
    if s.executors[e]? = some .blocked ∨ s.executors[e]? = some .notified then
      some { s with executors := s.executors.set e .awake }
    else none
  | .attempt e outcome =>
    match s.executors[e]? with
    | some (.running t segs outs) =>
      match afterAttempt outs.length outcome with
      | .next _ => some { s with executors := s.executors.set e (.running t segs (outs ++ [outcome])) }
      | .ended fail =>
        some { s with executors := s.executors.set e (.ended t segs (outs ++ [outcome]) fail) }
    | _ => none
  | .cleanup e woken =>
    match s.executors[e]? with
    | some (.ended t segs outs fail) =>
      System.notifyCleanup
        { s with
          agenda := s.agenda.cleanup t fail
          executors := s.executors.set e (.releasing segs)
          finished := s.finished ++ [(t, outs)] } woken
    | _ => none
  | .release caller id woken =>
    match s.forget id caller with
    | some s' => s'.deleteSegment id woken
    | none => none
  | .rescan e =>
    if s.executors[e]? = some (.releasing []) then
      some { s with executors := s.executors.set e .awake }
    else none
  | .share e id =>
    match s.executors[e]? with
    | some (.running _ segs _) =>
      if id ∈ segs then some { s with elsewhere := id :: s.elsewhere } else none
    | _ => none

/-- The system before anything is scheduled. -/
def System.start : System := ⟨.empty, [], false, 0, [], [], []⟩

/-- The runs of an agenda, over any number of calls of `run`. -/
def agendaMachine (lim : AgendaLimits) : Machine System Label where
  init s := s = .start
  step s a t := s.step lim a = some t

end ExtremeS3
