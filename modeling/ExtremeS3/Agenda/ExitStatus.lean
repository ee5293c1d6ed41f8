import ExtremeS3.Agenda.Accounting

/-!
# What a caller sees of failed tasks

A command returns the number of failed tasks, which `agenda::run` returns, as an `int`, `main`
returns what the command returned, and the operating system keeps its last eight bits. So the exit
status is the number of failed tasks up to multiples of 256 (`exitStatus_afterRun`), and failures
show unless their number is such a multiple (`failures_visible_iff`).
-/

namespace ExtremeS3

/-- A `size_t` as an `int`. -/
def toInt (n : Nat) : Int := Int.bmod n (2 ^ 32)

/-- What `main` returns for a command that returns an `int` or throws. -/
def mainResult : Option Int → Int
  | some res => res
  | none => 8

/-- What the operating system keeps of it. -/
def exitStatus (command : Option Int) : Nat := (mainResult command % 256).toNat

/-- What `do_du`, `do_ls` and `do_publish` return after `run`. -/
def afterRun (a : Agenda) : Option Int :=
  let res := toInt a.numFailed
  if res ≠ 0 then some res
  else if a.tasks ≠ [] then some 4
  else some 0

/-- A round of the loop of `do_rsync` and `do_rm`: what `create_schedule` returns unless it throws,
and the agenda in the end. -/
structure Round where
  schedule : Option Bool
  agenda : Agenda
  deriving DecidableEq, Repr

/-- The loop of `do_rsync` and `do_rm`, with what follows it. -/
def afterRounds (last : Agenda) : List Round → Option Int
  | [] => if last.tasks ≠ [] then some 4 else some 0
  | round :: rounds =>
    match round.schedule with
    | none => none
    | some false => some 2 -- not found
    | some true =>
      let res := toInt round.agenda.numFailed
      if res ≠ 0 then some res
      else if round.agenda.tasks = [] then some 0
      else afterRounds round.agenda rounds -- there are still pending tasks

/-- `do_rsync` and `do_rm`. -/
def doRounds (first second third : Round) : Option Int :=
  afterRounds first.agenda [first, second, third]

/-- The number of tasks none of whose attempts returned. -/
def System.failures (s : System) : Nat := (s.finished.filter (none ∉ ·.2)).length

/-- An `int` has the same remainder modulo 256 as the number that it was made of. -/
theorem toInt_emod (n : Nat) : toInt n % 256 = (n : Int) % 256 := by
  have hdvd : (256 : Int) ∣ ((2 ^ 32 : Nat) : Int) := by decide
  have hbmod : toInt n % ((2 ^ 32 : Nat) : Int) = (n : Int) % ((2 ^ 32 : Nat) : Int) :=
    Int.bmod_emod
  rw [← Int.emod_emod_of_dvd (toInt n) hdvd, hbmod, Int.emod_emod_of_dvd _ hdvd]

/-- With no task left, the status is what is left of the number of failures. -/
theorem exitStatus_afterRun {a : Agenda} (h : a.tasks = []) :
    exitStatus (afterRun a) = a.numFailed % 256 := by
  have hmod := toInt_emod a.numFailed
  simp only [afterRun, h, ne_eq, not_true_eq_false, if_false]
  split
  · rw [exitStatus, mainResult, hmod]
    omega
  · next hzero =>
    rw [not_not.1 hzero] at hmod
    simp only [exitStatus, mainResult]
    omega

/-- A loop whose first round leaves no task ends there. -/
theorem doRounds_eq {a : Agenda} (h : a.tasks = []) (schedule : Option Bool) (second third : Round) :
    doRounds ⟨schedule, a⟩ second third =
      match schedule with
      | none => none
      | some false => some 2
      | some true => afterRun a := by
  rcases schedule with _ | _ | _
  · rfl
  · rfl
  · simp [doRounds, afterRounds, afterRun, h]

/-- A status shows failures unless their number is a multiple of 256. -/
theorem visible_iff {n m : Nat} (h : n = m % 256) : (0 < m → n ≠ 0) ↔ ¬ (0 < m ∧ 256 ∣ m) := by
  omega

/-- When `run` has returned, the exit status of the commands shows whether tasks failed, unless the
number of those that failed is a positive multiple of 256. -/
theorem failures_visible_iff {lim : AgendaLimits} {r s : System}
    (h : (plannedMachine lim).Reachable r) (hret : r.step lim .ret = some s) :
    ((0 < s.failures → exitStatus (afterRun s.agenda) ≠ 0) ↔
      ¬ (0 < s.failures ∧ 256 ∣ s.failures)) ∧
    ∀ schedule second third,
      (0 < s.failures → exitStatus (doRounds ⟨schedule, s.agenda⟩ second third) ≠ 0) ↔
        (schedule = some true → ¬ (0 < s.failures ∧ 256 ∣ s.failures)) := by
  have hdone := System.allDone_of_ret h hret
  have hstatus : exitStatus (afterRun s.agenda) = s.failures % 256 := by
    rw [exitStatus_afterRun hdone.queue, hdone.numFailed]
    rfl
  refine ⟨visible_iff hstatus, fun schedule second third => ?_⟩
  rw [doRounds_eq hdone.queue]
  rcases schedule with _ | _ | _
  · simp [exitStatus, mainResult]
  · simp [exitStatus, mainResult]
  · simp only [visible_iff hstatus, true_implies]

/-! ## As many failures as there may be -/

/-- A task of a chain in which each schedules the next one. -/
def chainTask (n : Nat) : SyncTask := ⟨n, .unbound, 0, 0, []⟩

/-- The chain at its task `n`, when all tasks before it have failed. -/
def chainAt (n : Nat) (claimed : List (Nat × Nat)) (finished : List (SyncTask × List (Option Thrown))) :
    System where
  agenda := ⟨[], [(.unbound, 1)], 1, 0, n + 1, n, n⟩
  executors := [.running (chainTask n) [] [], .awake, .awake]
  running := true
  nextSegment := 0
  elsewhere := []
  claimed := claimed
  finished := finished

/-- Permitted steps one after the other. -/
theorem reachable_of_foldlM {lim : AgendaLimits} {s t : System} (h : (plannedMachine lim).Reachable s)
    (ls : List Label)
    (ht : ls.foldlM (fun s l => (s.step lim l).filter fun _ => l.planned) s = some t) :
    (plannedMachine lim).Reachable t := by
  obtain ⟨s₀, ks, h₀, hs⟩ := h
  refine ⟨s₀, ks ++ ls, h₀, hs.append (Machine.Run.restrict_of_foldlM (f := System.step lim)
    (fun _ _ _ h => h) ?_)⟩
  simpa using ht

/-- Every state of the chain of tasks is reachable in a planned run. -/
theorem chain_reachable (n : Nat) : ∃ claimed finished,
    (plannedMachine smallLimits).Reachable (chainAt n claimed finished) := by
  induction n with
  | zero =>
    exact ⟨_, _, reachable_of_foldlM ⟨.start, [], rfl, .nil⟩
      [.schedule .main .unbound 0 0 [] none, .run, .claim 0] rfl⟩
  | succ n ih =>
    obtain ⟨claimed, finished, h⟩ := ih
    exact ⟨_, _, reachable_of_foldlM h [.schedule (.executor 0) .unbound 0 0 [] none,
      .attempt 0 (some (.es3 .errFatal)), .cleanup 0 none, .rescan 0, .claim 0] rfl⟩

/-- There are runs with any number of failures. -/
theorem exists_failures (n : Nat) : ∃ r s, (plannedMachine smallLimits).Reachable r ∧
    r.step smallLimits .ret = some s ∧ s.failures = n + 1 := by
  obtain ⟨claimed, finished, h⟩ := chain_reachable n
  have hr := reachable_of_foldlM h [.attempt 0 (some (.es3 .errFatal)), .cleanup 0 none,
    .rescan 0, .claim 0, .claim 1, .claim 2] rfl
  exact ⟨_, _, hr, rfl, (System.allDone_of_ret hr rfl).numFailed.symm⟩

/-- A run with 256 failures, after which each of the commands ends with status 0. -/
theorem failures_hidden : ∃ r s, (plannedMachine smallLimits).Reachable r ∧
    r.step smallLimits .ret = some s ∧ s.failures = 256 ∧ exitStatus (afterRun s.agenda) = 0 ∧
    ∀ second third, exitStatus (doRounds ⟨some true, s.agenda⟩ second third) = 0 := by
  obtain ⟨r, s, h, hret, hs⟩ := exists_failures 255
  have hdone := System.allDone_of_ret h hret
  have hstatus : exitStatus (afterRun s.agenda) = 0 := by
    rw [exitStatus_afterRun hdone.queue, hdone.numFailed, ← System.failures, hs]
  refine ⟨r, s, h, hret, hs, hstatus, fun second third => ?_⟩
  rw [doRounds_eq hdone.queue]
  exact hstatus

/-- `failures_visible_iff` after one failure. -/
theorem failures_visible_iff_one : ∃ r s, (plannedMachine smallLimits).Reachable r ∧
    r.step smallLimits .ret = some s ∧ s.failures = 1 ∧ exitStatus (afterRun s.agenda) ≠ 0 := by
  obtain ⟨r, s, h, hret, hs⟩ := exists_failures 0
  have hs' : s.failures = 1 := hs
  exact ⟨r, s, h, hret, hs', (failures_visible_iff h hret).1.2 (by rw [hs']; decide)
    (by rw [hs']; decide)⟩

end ExtremeS3
