import TcpClb.Common.ListSurgery
import TcpClb.Common.StackLog
import Mathlib.Logic.Function.Basic

/-!
# The work queue

`workev.c`: jobs wait in a list, and workers that were started by `workqueue_init` take and run them until
`workqueue_shutdown`. A step is a critical section of `jobs_mutex` in which nothing else is touched, or one access to
what the mutex does not protect: the flag `terminate` and the links of a worker, which `workqueue_shutdown` goes
through without the mutex. Which worker a signal wakes is part of the action; a worker may also wake on its own.

A job is run by `job_function` of `module.c`, which frees it at its end. Worker `i` is the one at address `i`. The
result is undefined when a freed worker or job is dereferenced. There is one call of `workqueue_shutdown`, after
`workqueue_init` has returned.
-/

namespace TcpClb

open TcpClb.Common

/-- `LL_ADD`. -/
def llAdd {α : Type*} (h : Links α) (item : ℕ) (list : Option ℕ) : Option (Links α × Option ℕ) :=
  (h.modify item fun cell => { cell with prev := none, next := list }).map fun h => (h, some item)

/-- `LL_REMOVE`. -/
def llRemove {α : Type*} (h : Links α) (item : ℕ) (list : Option ℕ) : Option (Links α × Option ℕ) := do
  let cell ← h.get item
  let h ← match cell.prev with
    | none => some h
    | some p => h.modify p fun before => { before with next := cell.next }
  let h ← setPrevOf h cell.next cell.prev
  let h ← detach h item
  some (h, if list = some item then cell.next else list)

/-- Where a worker stands in `worker_function`. -/
inductive WorkerPc
  /-- Before `pthread_mutex_lock`. -/
  | lock
  /-- At the test of the inner loop, and of `terminate` in it. -/
  | test
  | wait
  /-- In `pthread_cond_wait`, not woken. -/
  | asleep
  /-- In `pthread_cond_wait`, before it has the mutex again. -/
  | woken
  /-- At the test of `terminate` behind the inner loop. -/
  | check
  | take
  | run (job : ℕ)
  /-- Before `free(worker)`. -/
  | free
  | gone
  deriving DecidableEq

/-- Where the thread stands that calls `workqueue_init` and then `workqueue_shutdown`. -/
inductive MainPc
  /-- In the loop of `workqueue_init` with this many rounds to go; it returns 0 after the last. -/
  | init (left : ℕ)
  /-- `workqueue_init` has returned 1. -/
  | failed
  /-- In the loop of `workqueue_shutdown`, before it tests `worker` and sets `terminate`. -/
  | mark (worker : Option ℕ)
  /-- Before `worker = worker->next`. -/
  | advance (worker : ℕ)
  | lock
  | done
  deriving DecidableEq

/-- How a round of the loop of `workqueue_init` ends. -/
inductive CreateResult
  | started
  | mallocFails
  | createFails

/-- The queue, the workers with their flag `terminate`, who holds `jobs_mutex`, where the threads stand, and which jobs
have been added and taken. -/
structure WorkQueue (D : Type) where
  jobs : Links D
  waitingJobs : Option ℕ
  cells : Links Bool
  workers : Option ℕ
  jobsMutex : Option ℕ
  main : MainPc
  pc : ℕ → WorkerPc
  log : List (StackEvent ℕ)

/-- One step of some thread. -/
inductive WorkAction (D : Type)
  /-- A round of the loop of `workqueue_init`. -/
  | create (r : CreateResult)
  /-- The next step of a worker. -/
  | worker (i : ℕ)
  /-- A spurious return of `pthread_cond_wait`. -/
  | wake (i : ℕ)
  /-- `workqueue_add_job`, and the worker that its signal wakes. -/
  | addJob (data : D) (woken : Option ℕ)
  /-- The next step of `workqueue_shutdown`. -/
  | shutdown

variable {D : Type}

/-- At the beginning of the loop of `workqueue_init`. -/
def WorkQueue.start (numWorkers : ℤ) : WorkQueue D where
  jobs := Heap.empty
  waitingJobs := none
  cells := Heap.empty
  workers := none
  jobsMutex := none
  main := .init (if numWorkers < 1 then 1 else numWorkers.toNat)
  pc _ := .gone
  log := []

/-- A worker gets to another position. -/
def WorkQueue.goto (s : WorkQueue D) (i : ℕ) (pc : WorkerPc) : WorkQueue D :=
  { s with pc := Function.update s.pc i pc }

/-- The next step of worker `i`. -/
def workerStep (s : WorkQueue D) (i : ℕ) : Option (WorkQueue D) :=
  match s.pc i with
  | .lock | .woken => if s.jobsMutex = none then some { s.goto i .test with jobsMutex := some i } else none
  | .test =>
    if s.waitingJobs = none then
      (s.cells.get i).map fun worker => s.goto i (if worker.val then .check else .wait)
    else some (s.goto i .check)
  | .wait => some { s.goto i .asleep with jobsMutex := none }
  | .check =>
    (s.cells.get i).map fun worker =>
      if worker.val then { s.goto i .free with jobsMutex := none } else s.goto i .take
  | .take =>
    match s.waitingJobs with
    | none => some { s.goto i .lock with jobsMutex := none }
    | some job =>
      (llRemove s.jobs job s.waitingJobs).map fun removed =>
        { s.goto i (.run job) with
          jobs := removed.1
          waitingJobs := removed.2
          jobsMutex := none
          log := s.log ++ [.popped job] }
  | .run job => (s.jobs.free job).map fun jobs => { s.goto i .lock with jobs := jobs }
  | .free => (s.cells.free i).map fun cells => { s.goto i .gone with cells := cells }
  | .asleep => none
  | .gone => none

/-- A round of the loop of `workqueue_init`. -/
def createStep (s : WorkQueue D) (r : CreateResult) : Option (WorkQueue D) :=
  match s.main with
  | .init (left + 1) =>
    let cells := s.cells.alloc ⟨false, none, none⟩
    match r with
    | .mallocFails => some { s with main := .failed }
    | .createFails => (cells.free s.cells.size).map fun cells => { s with cells := cells, main := .failed }
    -- the new worker does not look at its links, so `LL_ADD` may come with its creation
    | .started =>
      (llAdd cells s.cells.size s.workers).map fun added =>
        { s.goto s.cells.size .lock with
          cells := added.1
          workers := added.2
          main := .init left }
  | _ => none

/-- What a signal may wake: one sleeping worker, or nothing if none sleeps. -/
def WorkQueue.MayWake (s : WorkQueue D) : Option ℕ → Prop
  | some i => i < s.cells.size ∧ s.pc i = .asleep
  | none => ∀ i < s.cells.size, s.pc i ≠ .asleep

instance WorkQueue.instDecidableMayWake (s : WorkQueue D) : (woken : Option ℕ) → Decidable (s.MayWake woken)
  | some _ => instDecidableAnd
  | none => Nat.decidableBallLT s.cells.size fun i _ => s.pc i ≠ .asleep

/-- Wake a worker. -/
def WorkQueue.wake (s : WorkQueue D) : Option ℕ → WorkQueue D
  | none => s
  | some i => s.goto i .woken

/-- `workqueue_add_job` of a new job. -/
def addJobStep (s : WorkQueue D) (data : D) (woken : Option ℕ) : Option (WorkQueue D) :=
  if s.jobsMutex = none ∧ s.MayWake woken then
    (llAdd (s.jobs.alloc ⟨data, none, none⟩) s.jobs.size s.waitingJobs).map fun added =>
      { s.wake woken with
        jobs := added.1
        waitingJobs := added.2
        log := s.log ++ [.pushed s.jobs.size] }
  else none

/-- `pthread_cond_broadcast`. -/
def WorkerPc.broadcast (pc : WorkerPc) : WorkerPc := if pc = .asleep then .woken else pc

/-- The next step of `workqueue_shutdown`. -/
def shutdownStep (s : WorkQueue D) : Option (WorkQueue D) :=
  match s.main with
  | .init 0 | .failed => some { s with main := .mark s.workers }
  | .mark none => some { s with main := .lock }
  | .mark (some w) =>
    (s.cells.modify w fun worker => { worker with val := true }).map fun cells =>
      { s with cells := cells, main := .advance w }
  | .advance w => (s.cells.get w).map fun worker => { s with main := .mark worker.next }
  | .lock =>
    if s.jobsMutex = none then
      some { s with
        workers := none
        waitingJobs := none
        pc := fun i => (s.pc i).broadcast
        main := .done
        log := s.log ++ [.cleared] }
    else none
  | .init (_ + 1) | .done => none

/-- Perform one step; impossible if the thread is not at that point, undefined as the code is. -/
def workStep (s : WorkQueue D) : WorkAction D → Option (WorkQueue D)
  | .create r => createStep s r
  | .worker i => workerStep s i
  | .wake i => if s.pc i = .asleep then some (s.goto i .woken) else none
  | .addJob data woken => addJobStep s data woken
  | .shutdown => shutdownStep s

/-- The steps of a worker. -/
inductive WorkerStep (s : WorkQueue D) (i : ℕ) : WorkQueue D → Prop
  | lock (hpc : s.pc i = .lock ∨ s.pc i = .woken) (hfree : s.jobsMutex = none) :
    WorkerStep s i { s.goto i .test with jobsMutex := some i }
  | found (hpc : s.pc i = .test) (hjobs : s.waitingJobs ≠ none) : WorkerStep s i (s.goto i .check)
  | giveUp {worker : Cell Bool} (hpc : s.pc i = .test) (hjobs : s.waitingJobs = none)
    (hget : s.cells.get i = some worker) (hterm : worker.val = true) : WorkerStep s i (s.goto i .check)
  | wait {worker : Cell Bool} (hpc : s.pc i = .test) (hjobs : s.waitingJobs = none)
    (hget : s.cells.get i = some worker) (hterm : worker.val = false) : WorkerStep s i (s.goto i .wait)
  | sleep (hpc : s.pc i = .wait) : WorkerStep s i { s.goto i .asleep with jobsMutex := none }
  | leave {worker : Cell Bool} (hpc : s.pc i = .check) (hget : s.cells.get i = some worker)
    (hterm : worker.val = true) : WorkerStep s i { s.goto i .free with jobsMutex := none }
  | stay {worker : Cell Bool} (hpc : s.pc i = .check) (hget : s.cells.get i = some worker)
    (hterm : worker.val = false) : WorkerStep s i (s.goto i .take)
  | noJob (hpc : s.pc i = .take) (hjobs : s.waitingJobs = none) :
    WorkerStep s i { s.goto i .lock with jobsMutex := none }
  | take {job : ℕ} {jobs : Links D} {rest : Option ℕ} (hpc : s.pc i = .take) (hjobs : s.waitingJobs = some job)
    (hremove : llRemove s.jobs job s.waitingJobs = some (jobs, rest)) :
    WorkerStep s i { s.goto i (.run job) with
      jobs := jobs
      waitingJobs := rest
      jobsMutex := none
      log := s.log ++ [.popped job] }
  | finish {job : ℕ} {jobs : Links D} (hpc : s.pc i = .run job) (hfree : s.jobs.free job = some jobs) :
    WorkerStep s i { s.goto i .lock with jobs := jobs }
  | free {cells : Links Bool} (hpc : s.pc i = .free) (hfree : s.cells.free i = some cells) :
    WorkerStep s i { s.goto i .gone with cells := cells }

/-- A worker takes no other steps. -/
theorem workerStep_cases {s s' : WorkQueue D} {i : ℕ} (hstep : workerStep s i = some s') : WorkerStep s i s' := by
  unfold workerStep at hstep
  split at hstep
  · next hpc =>
    obtain ⟨hfree, h⟩ := Option.ite_none_right_eq_some.mp hstep
    cases h
    exact .lock (Or.inl hpc) hfree
  · next hpc =>
    obtain ⟨hfree, h⟩ := Option.ite_none_right_eq_some.mp hstep
    cases h
    exact .lock (Or.inr hpc) hfree
  · next hpc =>
    split at hstep
    · next hjobs =>
      obtain ⟨worker, hget, rfl⟩ := Option.map_eq_some_iff.mp hstep
      cases hterm : worker.val with
      | true => exact .giveUp hpc hjobs hget hterm
      | false => exact .wait hpc hjobs hget hterm
    · next hjobs =>
      cases hstep
      exact .found hpc hjobs
  · next hpc =>
    cases hstep
    exact .sleep hpc
  · next hpc =>
    obtain ⟨worker, hget, rfl⟩ := Option.map_eq_some_iff.mp hstep
    cases hterm : worker.val with
    | true => exact .leave hpc hget hterm
    | false => exact .stay hpc hget hterm
  · next hpc =>
    split at hstep
    · next hjobs =>
      cases hstep
      exact .noJob hpc hjobs
    · next job hjobs =>
      obtain ⟨⟨jobs, rest⟩, hremove, rfl⟩ := Option.map_eq_some_iff.mp hstep
      exact .take hpc hjobs hremove
  · next job hpc =>
    obtain ⟨jobs, hfree, rfl⟩ := Option.map_eq_some_iff.mp hstep
    exact .finish hpc hfree
  · next hpc =>
    obtain ⟨cells, hfree, rfl⟩ := Option.map_eq_some_iff.mp hstep
    exact .free hpc hfree
  · cases hstep
  · cases hstep

/-- The steps of the thread that calls `workqueue_init` and `workqueue_shutdown`. -/
inductive MainStep (s : WorkQueue D) : WorkAction D → WorkQueue D → Prop
  | mallocFails {left : ℕ} (hmain : s.main = .init (left + 1)) :
    MainStep s (.create .mallocFails) { s with main := .failed }
  | createFails {left : ℕ} {cells : Links Bool} (hmain : s.main = .init (left + 1))
    (hfree : (s.cells.alloc ⟨false, none, none⟩).free s.cells.size = some cells) :
    MainStep s (.create .createFails) { s with cells := cells, main := .failed }
  | started {left : ℕ} {cells : Links Bool} {workers : Option ℕ} (hmain : s.main = .init (left + 1))
    (hadd : llAdd (s.cells.alloc ⟨false, none, none⟩) s.cells.size s.workers = some (cells, workers)) :
    MainStep s (.create .started)
      { s.goto s.cells.size .lock with cells := cells, workers := workers, main := .init left }
  | begin (hmain : s.main = .init 0 ∨ s.main = .failed) : MainStep s .shutdown { s with main := .mark s.workers }
  | marked (hmain : s.main = .mark none) : MainStep s .shutdown { s with main := .lock }
  | mark {w : ℕ} {cells : Links Bool} (hmain : s.main = .mark (some w))
    (hset : s.cells.modify w (fun worker => { worker with val := true }) = some cells) :
    MainStep s .shutdown { s with cells := cells, main := .advance w }
  | advance {w : ℕ} {worker : Cell Bool} (hmain : s.main = .advance w) (hget : s.cells.get w = some worker) :
    MainStep s .shutdown { s with main := .mark worker.next }
  | clear (hmain : s.main = .lock) (hfree : s.jobsMutex = none) :
    MainStep s .shutdown { s with
      workers := none
      waitingJobs := none
      pc := fun i => (s.pc i).broadcast
      main := .done
      log := s.log ++ [.cleared] }

/-- `workqueue_init` takes no other steps. -/
theorem createStep_cases {s s' : WorkQueue D} {r : CreateResult} (hstep : createStep s r = some s') :
    MainStep s (.create r) s' := by
  unfold createStep at hstep
  split at hstep
  · next left hmain =>
    cases r with
    | mallocFails =>
      cases hstep
      exact .mallocFails hmain
    | createFails =>
      obtain ⟨cells, hfree, rfl⟩ := Option.map_eq_some_iff.mp hstep
      exact .createFails hmain hfree
    | started =>
      obtain ⟨⟨cells, workers⟩, hadd, rfl⟩ := Option.map_eq_some_iff.mp hstep
      exact .started hmain hadd
  · cases hstep

/-- `workqueue_shutdown` takes no other steps. -/
theorem shutdownStep_cases {s s' : WorkQueue D} (hstep : shutdownStep s = some s') : MainStep s .shutdown s' := by
  unfold shutdownStep at hstep
  split at hstep
  · next hmain =>
    cases hstep
    exact .begin (Or.inl hmain)
  · next hmain =>
    cases hstep
    exact .begin (Or.inr hmain)
  · next hmain =>
    cases hstep
    exact .marked hmain
  · next w hmain =>
    obtain ⟨cells, hset, rfl⟩ := Option.map_eq_some_iff.mp hstep
    exact .mark hmain hset
  · next w hmain =>
    obtain ⟨worker, hget, rfl⟩ := Option.map_eq_some_iff.mp hstep
    exact .advance hmain hget
  · next hmain =>
    obtain ⟨hfree, h⟩ := Option.ite_none_right_eq_some.mp hstep
    cases h
    exact .clear hmain hfree
  · cases hstep
  · cases hstep

/-- What `workqueue_add_job` needs, and what it does. -/
theorem addJobStep_cases {s s' : WorkQueue D} {data : D} {woken : Option ℕ}
    (hstep : addJobStep s data woken = some s') : s.jobsMutex = none ∧ s.MayWake woken ∧ ∃ jobs waiting,
      llAdd (s.jobs.alloc ⟨data, none, none⟩) s.jobs.size s.waitingJobs = some (jobs, waiting) ∧
      s' = { s.wake woken with jobs := jobs, waitingJobs := waiting, log := s.log ++ [.pushed s.jobs.size] } := by
  obtain ⟨⟨hfree, hmay⟩, h⟩ := Option.ite_none_right_eq_some.mp hstep
  obtain ⟨⟨jobs, waiting⟩, hadd, rfl⟩ := Option.map_eq_some_iff.mp h
  exact ⟨hfree, hmay, jobs, waiting, hadd, rfl⟩

end TcpClb
