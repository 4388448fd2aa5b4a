import TcpClb.Common.Runs
import TcpClb.Common.TaskLanes

/-!
# The thread pool

`threadPool` of `tpool.h` on the queues of `safeqtempl.h`: one call of `start` or `end` holds `_mtx`, or
any number of calls of `push` hold it shared, while the threads of the workers run. A step is one access to
an atomic variable, one critical section on a queue, one notification, or one begin or end of a task.

A waiting thread wakes when it is notified, and may wake on its own. Tasks are numbered in the order in
which they are appended to the queues. The log records this, when tasks begin and end, and when calls return.
CPU affinity is left out.
-/

namespace TcpClb

open TcpClb.Common

/-- What a queue holds: the empty task that `worker::end` pushes, and tasks pushed with a hash. -/
inductive Job
  | dummy
  | task (ticket : ℕ) (hash : UInt32)
  deriving DecidableEq

/-- The loops of the thread function: `while (!endFlag.load())` and `while (!_queue.empty())`. -/
inductive ThreadLoop
  | untilEnd
  | untilEmpty
  deriving DecidableEq

/-- Where a thread stands. -/
inductive ThreadPc
  | test (loop : ThreadLoop)
  /-- In `pop_front`, at the test of `while (_queue.empty())`. -/
  | pop (loop : ThreadLoop)
  /-- In `_cond.wait`. -/
  | waiting (loop : ThreadLoop)
  | call (loop : ThreadLoop) (job : Job)
  | running (loop : ThreadLoop) (job : Job)
  | finished
  deriving DecidableEq

/-- A worker: `_queue`, and `_thread` if it is joinable. -/
structure PoolWorker where
  queue : List Job
  thread : Option ThreadPc

/-- Where a call of `push` stands that holds `_mtx`. -/
inductive PushPc
  | entered (hash : UInt32)
  | loaded (hash : UInt32) (n : ℕ)
  | appended (i ticket : ℕ)
  | notified (ticket : ℕ)
  deriving DecidableEq

/-- The loop over the workers that `start` or `end` is in, with the number of workers it goes over. -/
inductive LifeCall
  | start (n : ℕ)
  | stop (n : ℕ)
  deriving DecidableEq

/-- Where a call of `start` or `end` stands that holds `_mtx`. -/
inductive LifePc
  | storeFalse (n : ℕ)
  | exchange
  | storeTrue (n : ℕ)
  /-- At the test of the loop over the workers, and in `worker::end` before `push_back`. -/
  | worker (c : LifeCall) (i : ℕ)
  | notify (c : LifeCall) (i : ℕ)
  | join (c : LifeCall) (i : ℕ)
  | spawn (n i : ℕ)
  deriving DecidableEq

/-- What the log records of calls: a return of `push`, and when `end` gets `_mtx` and returns. -/
inductive PoolMark
  | returned (ticket : ℕ)
  | endAcquired
  | endReturned
  deriving DecidableEq

/-- The pool, the calls that hold `_mtx`, the number of the next task, and the log. -/
structure ThreadPool where
  threadNum : ℕ
  endFlag : Bool
  workers : ℕ → PoolWorker
  pushers : List PushPc
  lifecycle : Option LifePc
  tickets : ℕ
  log : List (LaneEvent UInt32 PoolMark)

/-- A new pool. -/
def ThreadPool.initial : ThreadPool where
  threadNum := 0
  endFlag := true
  workers := fun _ => ⟨[], none⟩
  pushers := []
  lifecycle := none
  tickets := 0
  log := []

/-- The thread of the worker gets to another position. -/
def PoolWorker.goto (w : PoolWorker) (pc : ThreadPc) : PoolWorker := { w with thread := some pc }

/-- `_queue.push_back` up to the notification. -/
def PoolWorker.pushBack (w : PoolWorker) (job : Job) : PoolWorker := { w with queue := w.queue ++ [job] }

/-- `_cond.notify_one()`. -/
def PoolWorker.notifyOne (w : PoolWorker) : PoolWorker :=
  match w.thread with
  | some (.waiting loop) => w.goto (.pop loop)
  | _ => w

/-- What is recorded when a task begins. -/
def Job.began : Job → List (LaneEvent UInt32 PoolMark)
  | .dummy => []
  | .task ticket _ => [.began ticket]

/-- What is recorded when a task ends. -/
def Job.ended : Job → List (LaneEvent UInt32 PoolMark)
  | .dummy => []
  | .task ticket _ => [.ended ticket]

/-- The next step of the thread of a worker, and what it records. -/
def threadStep (endFlag : Bool) (w : PoolWorker) : Option (PoolWorker × List (LaneEvent UInt32 PoolMark)) :=
  match w.thread with
  | some (.test .untilEnd) => some (w.goto (if endFlag then .test .untilEmpty else .pop .untilEnd), [])
  | some (.test .untilEmpty) => some (w.goto (if w.queue.isEmpty then .finished else .pop .untilEmpty), [])
  | some (.pop loop) =>
    match w.queue with
    | [] => some (w.goto (.waiting loop), [])
    | job :: rest => some (⟨rest, some (.call loop job)⟩, [])
  | some (.call loop job) => some (w.goto (.running loop job), job.began)
  | some (.running loop job) => some (w.goto (.test loop), job.ended)
  | some (.waiting _) => none
  | some .finished => none
  | none => none

/-- Change one worker. -/
def ThreadPool.setWorker (s : ThreadPool) (i : ℕ) (w : PoolWorker) : ThreadPool :=
  { s with workers := Function.update s.workers i w }

/-- Record events. -/
def ThreadPool.record (s : ThreadPool) (events : List (LaneEvent UInt32 PoolMark)) : ThreadPool :=
  { s with log := s.log ++ events }

/-- The `k`-th call of `push` gets to another position. -/
def ThreadPool.setPusher (s : ThreadPool) (k : ℕ) (pc : PushPc) : ThreadPool :=
  { s with pushers := s.pushers.set k pc }

/-- The `k`-th call of `push` gives `_mtx` back, when it returns or throws. -/
def ThreadPool.leave (s : ThreadPool) (k : ℕ) : ThreadPool := { s with pushers := s.pushers.eraseIdx k }

/-- The call of `start` or `end` gets to another position, or gives `_mtx` back. -/
def ThreadPool.setLife (s : ThreadPool) (pc : Option LifePc) : ThreadPool := { s with lifecycle := pc }

/-- A task is appended to the queue of a worker. -/
def ThreadPool.append (s : ThreadPool) (i : ℕ) (hash : UInt32) : ThreadPool :=
  { (s.setWorker i ((s.workers i).pushBack (.task s.tickets hash))).record [.enqueued s.tickets hash] with
    tickets := s.tickets + 1 }

/-- The next step of the `k`-th call of `push`. -/
def pushStep (s : ThreadPool) (k : ℕ) : PushPc → ThreadPool
  | .entered hash => s.setPusher k (.loaded hash s.threadNum)
  | .loaded hash n =>
    if n = 0 then s.leave k
    else (s.append (hash.toNat % n) hash).setPusher k (.appended (hash.toNat % n) s.tickets)
  | .appended i ticket => (s.setWorker i (s.workers i).notifyOne).setPusher k (.notified ticket)
  | .notified ticket => (s.leave k).record [.mark (.returned ticket)]

/-- What follows `worker::end` for worker `i`. -/
def LifeCall.next (i : ℕ) : LifeCall → LifePc
  | .start n => .spawn n i
  | .stop n => .worker (.stop n) (i + 1)

/-- The number of workers the loop goes over. -/
def LifeCall.count : LifeCall → ℕ
  | .start n => n
  | .stop n => n

/-- What follows the loop over the workers. -/
def ThreadPool.finishLoop (s : ThreadPool) : LifeCall → ThreadPool
  | .start n => { s with threadNum := n }.setLife none
  | .stop _ => (s.setLife none).record [.mark .endReturned]

/-- The next step of the call of `start` or `end`; it waits in `join` until the thread has finished. -/
def lifeStep (s : ThreadPool) : LifePc → Option ThreadPool
  | .storeFalse n => some ({ s with endFlag := false }.setLife (some (.worker (.start n) 0)))
  | .exchange => some ({ s with threadNum := 0 }.setLife (some (.storeTrue s.threadNum)))
  | .storeTrue n => some ({ s with endFlag := true }.setLife (some (.worker (.stop n) 0)))
  | .worker c i =>
    if i < c.count then
      if (s.workers i).thread.isSome then
        some ((s.setWorker i ((s.workers i).pushBack .dummy)).setLife (some (.notify c i)))
      else some (s.setLife (some (c.next i)))
    else some (s.finishLoop c)
  | .notify c i => some ((s.setWorker i (s.workers i).notifyOne).setLife (some (.join c i)))
  | .join c i =>
    if (s.workers i).thread = some .finished then
      some ((s.setWorker i { s.workers i with thread := none }).setLife (some (c.next i)))
    else none
  | .spawn n i =>
    some ((s.setWorker i ((s.workers i).goto (.test .untilEnd))).setLife (some (.worker (.start n) (i + 1))))

/-- A step of the pool: a call of `push`, `start` or `end` gets `_mtx` or makes its next step, or a thread
makes its next step or wakes on its own. -/
inductive PoolAction
  | enter (hash : UInt32)
  | push (k : ℕ)
  | start (n : ℕ)
  | stop
  | life
  | thread (i : ℕ)
  | wake (i : ℕ)

/-- The steps of a pool with at most `maxNumThreads` threads. -/
def poolStep (maxNumThreads : ℕ) (s : ThreadPool) : PoolAction → Option ThreadPool
  | .enter hash => if s.lifecycle = none then some { s with pushers := s.pushers ++ [.entered hash] } else none
  | .push k => s.pushers[k]?.map (pushStep s k)
  | .start n =>
    -- The numbers for which `start` throws before it asks for the lock.
    if n = 0 ∨ maxNumThreads < n then some s
    else if s.lifecycle = none ∧ s.pushers = [] then some (s.setLife (some (.storeFalse n))) else none
  | .stop =>
    if s.lifecycle = none ∧ s.pushers = [] then
      some ((s.setLife (some .exchange)).record [.mark .endAcquired])
    else none
  | .life => s.lifecycle.bind (lifeStep s)
  | .thread i => (threadStep s.endFlag (s.workers i)).map fun r => (s.setWorker i r.1).record r.2
  | .wake i =>
    match (s.workers i).thread with
    | some (.waiting loop) => some (s.setWorker i ((s.workers i).goto (.pop loop)))
    | _ => none

/-- What the next step of a thread can be. -/
inductive ThreadStep (endFlag : Bool) : PoolWorker → PoolWorker → List (LaneEvent UInt32 PoolMark) → Prop
  | leaveFirst {q : List Job} (hend : endFlag = true) :
    ThreadStep endFlag ⟨q, some (.test .untilEnd)⟩ ⟨q, some (.test .untilEmpty)⟩ []
  | stayFirst {q : List Job} (hend : endFlag = false) :
    ThreadStep endFlag ⟨q, some (.test .untilEnd)⟩ ⟨q, some (.pop .untilEnd)⟩ []
  | leaveSecond : ThreadStep endFlag ⟨[], some (.test .untilEmpty)⟩ ⟨[], some .finished⟩ []
  | staySecond {q : List Job} (hfull : q ≠ []) :
    ThreadStep endFlag ⟨q, some (.test .untilEmpty)⟩ ⟨q, some (.pop .untilEmpty)⟩ []
  | wait {loop : ThreadLoop} : ThreadStep endFlag ⟨[], some (.pop loop)⟩ ⟨[], some (.waiting loop)⟩ []
  | take {loop : ThreadLoop} {job : Job} {q : List Job} :
    ThreadStep endFlag ⟨job :: q, some (.pop loop)⟩ ⟨q, some (.call loop job)⟩ []
  | begin {loop : ThreadLoop} {job : Job} {q : List Job} :
    ThreadStep endFlag ⟨q, some (.call loop job)⟩ ⟨q, some (.running loop job)⟩ job.began
  | finish {loop : ThreadLoop} {job : Job} {q : List Job} :
    ThreadStep endFlag ⟨q, some (.running loop job)⟩ ⟨q, some (.test loop)⟩ job.ended

/-- The next step of a thread is one of these. -/
theorem threadStep_cases {endFlag : Bool} {w w' : PoolWorker} {events : List (LaneEvent UInt32 PoolMark)}
    (h : threadStep endFlag w = some (w', events)) : ThreadStep endFlag w w' events := by
  obtain ⟨q, thread⟩ := w
  cases thread with
  | none => simp [threadStep] at h
  | some pc =>
    cases pc with
    | test loop =>
      cases loop with
      | untilEnd =>
        cases endFlag with
        | false =>
          cases h
          exact .stayFirst rfl
        | true =>
          cases h
          exact .leaveFirst rfl
      | untilEmpty =>
        cases q with
        | nil =>
          cases h
          exact .leaveSecond
        | cons job rest =>
          cases h
          exact .staySecond (List.cons_ne_nil job rest)
    | pop loop =>
      cases q with
      | nil =>
        cases h
        exact .wait
      | cons job rest =>
        cases h
        exact .take
    | waiting loop => simp [threadStep] at h
    | call loop job =>
      cases h
      exact .begin
    | running loop job =>
      cases h
      exact .finish
    | finished => simp [threadStep] at h

/-- What the next step of a call of `start` or `end` can be. -/
inductive LifeStep (s : ThreadPool) : LifePc → ThreadPool → Prop
  | storeFalse {n : ℕ} :
    LifeStep s (.storeFalse n) ({ s with endFlag := false }.setLife (some (.worker (.start n) 0)))
  | exchange : LifeStep s .exchange ({ s with threadNum := 0 }.setLife (some (.storeTrue s.threadNum)))
  | storeTrue {n : ℕ} :
    LifeStep s (.storeTrue n) ({ s with endFlag := true }.setLife (some (.worker (.stop n) 0)))
  | dummy {c : LifeCall} {i : ℕ} (hi : i < c.count) (hthread : (s.workers i).thread.isSome) :
    LifeStep s (.worker c i) ((s.setWorker i ((s.workers i).pushBack .dummy)).setLife (some (.notify c i)))
  | skip {c : LifeCall} {i : ℕ} (hi : i < c.count) (hthread : (s.workers i).thread = none) :
    LifeStep s (.worker c i) (s.setLife (some (c.next i)))
  | finish {c : LifeCall} {i : ℕ} (hi : c.count ≤ i) : LifeStep s (.worker c i) (s.finishLoop c)
  | notify {c : LifeCall} {i : ℕ} :
    LifeStep s (.notify c i) ((s.setWorker i (s.workers i).notifyOne).setLife (some (.join c i)))
  | join {c : LifeCall} {i : ℕ} (hthread : (s.workers i).thread = some .finished) :
    LifeStep s (.join c i)
      ((s.setWorker i { s.workers i with thread := none }).setLife (some (c.next i)))
  | spawn {n i : ℕ} :
    LifeStep s (.spawn n i)
      ((s.setWorker i ((s.workers i).goto (.test .untilEnd))).setLife (some (.worker (.start n) (i + 1))))

/-- The next step of a call of `start` or `end` is one of these. -/
theorem lifeStep_cases {s next : ThreadPool} {pc : LifePc} (h : lifeStep s pc = some next) :
    LifeStep s pc next := by
  cases pc with
  | storeFalse n =>
    cases h
    exact .storeFalse
  | exchange =>
    cases h
    exact .exchange
  | storeTrue n =>
    cases h
    exact .storeTrue
  | worker c i =>
    rw [lifeStep] at h
    by_cases hi : i < c.count
    · rw [if_pos hi] at h
      by_cases hthread : (s.workers i).thread.isSome
      · rw [if_pos hthread] at h
        cases h
        exact .dummy hi hthread
      · rw [if_neg hthread] at h
        cases h
        exact .skip hi (Option.not_isSome_iff_eq_none.mp hthread)
    · rw [if_neg hi] at h
      cases h
      exact .finish (Nat.le_of_not_lt hi)
  | notify c i =>
    cases h
    exact .notify
  | join c i =>
    rw [lifeStep] at h
    by_cases hthread : (s.workers i).thread = some .finished
    · rw [if_pos hthread] at h
      cases h
      exact .join hthread
    · rw [if_neg hthread] at h
      cases h
  | spawn n i =>
    cases h
    exact .spawn

/-- What a call of `start` or `end` leaves alone, and what it records. -/
theorem LifeStep.kept {s next : ThreadPool} {pc : LifePc} (hstep : LifeStep s pc next) :
    next.pushers = s.pushers ∧ next.tickets = s.tickets ∧
      (next.log = s.log ∨ next.log = s.log ++ [.mark .endReturned]) := by
  cases hstep with
  | storeFalse | exchange | storeTrue | dummy | skip | notify | join | spawn => exact ⟨rfl, rfl, .inl rfl⟩
  | @finish c i hi =>
    cases c with
    | start n => exact ⟨rfl, rfl, .inl rfl⟩
    | stop n => exact ⟨rfl, rfl, .inr rfl⟩

/-- What a step of the pool can be. -/
inductive PoolStep (maxNumThreads : ℕ) (s : ThreadPool) : PoolAction → ThreadPool → Prop
  | enter {hash : UInt32} (hfree : s.lifecycle = none) :
    PoolStep maxNumThreads s (.enter hash) { s with pushers := s.pushers ++ [.entered hash] }
  | push {k : ℕ} {pc : PushPc} (hpc : s.pushers[k]? = some pc) :
    PoolStep maxNumThreads s (.push k) (pushStep s k pc)
  | refused {n : ℕ} (hn : n = 0 ∨ maxNumThreads < n) : PoolStep maxNumThreads s (.start n) s
  | start {n : ℕ} (hpos : 0 < n) (hmax : n ≤ maxNumThreads) (hfree : s.lifecycle = none)
    (hpushers : s.pushers = []) : PoolStep maxNumThreads s (.start n) (s.setLife (some (.storeFalse n)))
  | stop (hfree : s.lifecycle = none) (hpushers : s.pushers = []) :
    PoolStep maxNumThreads s .stop ((s.setLife (some .exchange)).record [.mark .endAcquired])
  | life {pc : LifePc} {next : ThreadPool} (hpc : s.lifecycle = some pc) (hstep : LifeStep s pc next) :
    PoolStep maxNumThreads s .life next
  | thread {i : ℕ} {w : PoolWorker} {events : List (LaneEvent UInt32 PoolMark)}
    (hstep : ThreadStep s.endFlag (s.workers i) w events) :
    PoolStep maxNumThreads s (.thread i) ((s.setWorker i w).record events)
  | wake {i : ℕ} {loop : ThreadLoop} (hthread : (s.workers i).thread = some (.waiting loop)) :
    PoolStep maxNumThreads s (.wake i) (s.setWorker i ((s.workers i).goto (.pop loop)))

/-- A step of the pool is one of these. -/
theorem poolStep_cases {maxNumThreads : ℕ} {s next : ThreadPool} {a : PoolAction}
    (h : poolStep maxNumThreads s a = some next) : PoolStep maxNumThreads s a next := by
  cases a with
  | enter hash =>
    rw [poolStep] at h
    by_cases hfree : s.lifecycle = none
    · rw [if_pos hfree] at h
      cases h
      exact .enter hfree
    · rw [if_neg hfree] at h
      cases h
  | push k =>
    rw [poolStep, Option.map_eq_some_iff] at h
    obtain ⟨pc, hpc, rfl⟩ := h
    exact .push hpc
  | start n =>
    rw [poolStep] at h
    by_cases hn : n = 0 ∨ maxNumThreads < n
    · rw [if_pos hn] at h
      cases h
      exact .refused hn
    · rw [if_neg hn] at h
      by_cases hfree : s.lifecycle = none ∧ s.pushers = []
      · rw [if_pos hfree] at h
        cases h
        exact .start (by omega) (by omega) hfree.1 hfree.2
      · rw [if_neg hfree] at h
        cases h
  | stop =>
    rw [poolStep] at h
    by_cases hfree : s.lifecycle = none ∧ s.pushers = []
    · rw [if_pos hfree] at h
      cases h
      exact .stop hfree.1 hfree.2
    · rw [if_neg hfree] at h
      cases h
  | life =>
    rw [poolStep, Option.bind_eq_some_iff] at h
    obtain ⟨pc, hpc, hstep⟩ := h
    exact .life hpc (lifeStep_cases hstep)
  | thread i =>
    rw [poolStep, Option.map_eq_some_iff] at h
    obtain ⟨⟨w, events⟩, hstep, rfl⟩ := h
    exact .thread (threadStep_cases hstep)
  | wake i =>
    rw [poolStep] at h
    split at h
    · rename_i loop hthread
      cases h
      exact .wake hthread
    · cases h

end TcpClb
