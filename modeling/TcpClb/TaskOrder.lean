import TcpClb.ThreadPoolShape

/-!
# Tasks of the thread pool

The tasks that a worker has not finished are a lane: every step of the pool is a step of the lanes or leaves
them as they are. A hash selects one lane as long as the number of threads stays the same, and `end` returns
only when the lanes are empty, so lanes with another number of threads start empty.

Hence every task runs at most once, tasks with one hash run one after the other in the order in which they
were appended, and the tasks whose `push` returned before `end` got `_mtx` have run when `end` returns.
-/

namespace TcpClb

open TcpClb.Common

/-- When `end` returns, every task whose `push` returned before this call got `_mtx` has run exactly once. -/
def EndsDrained (log : List (LaneEvent UInt32 PoolMark)) : Prop :=
  ∀ before between t, before ++ .mark .endAcquired :: (between ++ [.mark .endReturned]) <+: log →
    .mark (.returned t) ∈ before →
      timesBegan (before ++ .mark .endAcquired :: (between ++ [.mark .endReturned])) t = 1 ∧
      timesEnded (before ++ .mark .endAcquired :: (between ++ [.mark .endReturned])) t = 1

/-- Every task is executed at most once, `end` drains the pool, and tasks with one hash are executed one after
the other in the order in which they were appended. -/
structure TasksOrdered (log : List (LaneEvent UInt32 PoolMark)) : Prop where
  once : ∀ t, timesBegan log t ≤ 1
  drained : EndsDrained log
  ordered : RunInOrder log

/-- The workers as lanes. -/
def ThreadPool.lanes (s : ThreadPool) : Lanes UInt32 PoolMark where
  pending := fun i => (s.workers i).pending
  busy := fun i => (s.workers i).busy
  tickets := s.tickets
  log := s.log

/-- The number of the task that a call of `push` has appended. -/
def PushPc.ticket : PushPc → Option ℕ
  | .entered _ => none
  | .loaded _ _ => none
  | .appended _ ticket => some ticket
  | .notified ticket => some ticket

/-- The tasks that calls of `push` have appended, and those whose calls have returned, have numbers. -/
structure ThreadPool.Numbered (s : ThreadPool) : Prop where
  pushing : ∀ pc ∈ s.pushers, ∀ t, pc.ticket = some t → t < s.tickets
  returned : ∀ t, .mark (.returned t) ∈ s.log → t < s.tickets

/-- What holds of a pool and its lanes after every step. -/
structure ThreadPool.Ordered (maxNumThreads : ℕ) (s : ThreadPool) : Prop where
  shaped : s.Shaped maxNumThreads
  numbered : s.Numbered
  sound : s.lanes.Sound
  drained : EndsDrained s.log

section Lanes

variable {s : ThreadPool}

/-- The lanes after a worker has changed. -/
theorem ThreadPool.lanes_setWorker (s : ThreadPool) (i : ℕ) (w : PoolWorker) :
    (s.setWorker i w).lanes =
      { s.lanes with
        pending := Function.update s.lanes.pending i w.pending
        busy := Function.update s.lanes.busy i w.busy } := by
  simp only [ThreadPool.lanes, ThreadPool.setWorker, Lanes.mk.injEq, and_true]
  constructor
  · funext j
    by_cases hj : j = i
    · subst hj
      simp
    · simp [hj]
  · funext j
    by_cases hj : j = i
    · subst hj
      simp
    · simp [hj]

/-- The lanes stay as they are when a worker keeps its tasks and what it runs. -/
theorem ThreadPool.lanes_keep {i : ℕ} {w : PoolWorker} (hpending : w.pending = (s.workers i).pending)
    (hbusy : w.busy = (s.workers i).busy) : (s.setWorker i w).lanes = s.lanes := by
  have hp : Function.update s.lanes.pending i w.pending = s.lanes.pending :=
    Function.update_eq_self_iff.mpr hpending
  have hb : Function.update s.lanes.busy i w.busy = s.lanes.busy := Function.update_eq_self_iff.mpr hbusy
  rw [ThreadPool.lanes_setWorker, hp, hb]

/-- A thread that wakes runs nothing, as before. -/
theorem PoolWorker.busy_wake {w : PoolWorker} {loop : ThreadLoop} (hthread : w.thread = some (.waiting loop)) :
    (w.goto (.pop loop)).busy = w.busy := by
  simp [PoolWorker.busy, PoolWorker.goto, hthread]

/-- The lanes stay as they are when a thread is notified. -/
theorem ThreadPool.lanes_notifyOne (s : ThreadPool) (i : ℕ) :
    (s.setWorker i (s.workers i).notifyOne).lanes = s.lanes := by
  rcases (s.workers i).notifyOne_cases with hsame | ⟨loop, hthread, hwoken⟩
  · exact ThreadPool.lanes_keep (by rw [hsame]) (by rw [hsame])
  · rw [hwoken]
    exact ThreadPool.lanes_keep (PoolWorker.pending_wake hthread) (PoolWorker.busy_wake hthread)

/-- The lanes after events are recorded. -/
theorem ThreadPool.lanes_record (s : ThreadPool) (events : List (LaneEvent UInt32 PoolMark)) :
    (s.record events).lanes = { s.lanes with log := s.lanes.log ++ events } := rfl

/-- A step of a thread is a step of its lane, if it begins or ends a task. -/
theorem ThreadStep.lanes {endFlag : Bool} {i : ℕ} {w : PoolWorker} {events : List (LaneEvent UInt32 PoolMark)}
    (hstep : ThreadStep endFlag (s.workers i) w events) :
    ((s.setWorker i w).record events).lanes = s.lanes ∨
      LaneStep s.lanes ((s.setWorker i w).record events).lanes := by
  rw [ThreadPool.lanes_record]
  have hlane : s.lanes.pending i = (s.workers i).pending := rfl
  have hrunning : s.lanes.busy i = (s.workers i).busy := rfl
  have hsilent (hpending : w.pending = (s.workers i).pending) (hbusy : w.busy = (s.workers i).busy) :
      { (s.setWorker i w).lanes with log := (s.setWorker i w).lanes.log ++ [] } = s.lanes := by
    rw [ThreadPool.lanes_keep hpending hbusy, List.append_nil]
  rw [ThreadPool.lanes_setWorker] at hsilent ⊢
  generalize s.workers i = old at hstep hlane hrunning hsilent
  cases hstep with
  | leaveFirst | stayFirst | leaveSecond | staySecond | wait | take => exact .inl (hsilent rfl rfl)
  | @begin loop job q =>
    cases job with
    | dummy => exact .inl (hsilent rfl rfl)
    | task t hash =>
      have hhead : (s.lanes.pending i).head? = some (t, hash) := by rw [hlane]; rfl
      have hpending : Function.update s.lanes.pending i
          (PoolWorker.pending ⟨q, some (.running loop (.task t hash))⟩) = s.lanes.pending :=
        Function.update_eq_self_iff.mpr hlane.symm
      have hbegin : LaneStep s.lanes (s.lanes.begin i t) := .begin hhead hrunning
      rw [hpending]
      exact .inr hbegin
  | @finish loop job q =>
    cases job with
    | dummy => exact .inl (hsilent rfl rfl)
    | task t hash =>
      have hhead : (s.lanes.pending i).head? = some (t, hash) := by rw [hlane]; rfl
      have hfinish : LaneStep s.lanes (s.lanes.finish i t) := .finish hhead hrunning
      rw [Lanes.finish, hlane] at hfinish
      exact .inr hfinish

/-- A hash selects one lane. -/
theorem ThreadPool.Shaped.lane_eq {maxNumThreads : ℕ} (h : s.Shaped maxNumThreads) {k n : ℕ} {hash : UInt32}
    (hpc : s.pushers[k]? = some (.loaded hash n)) (hn : n ≠ 0) {j t : ℕ}
    (ht : (t, hash) ∈ s.lanes.pending j) : j = hash.toNat % n := by
  obtain ⟨hnum, -⟩ := h.has_of_loaded hpc hn
  obtain ⟨-, hplace⟩ := (h.fits j).placed t hash ht
  rw [h.lifecycle_eq_none hpc] at hplace
  rw [hnum]
  exact hplace.symm

/-- A step of a call of `push` is a step of the lanes or leaves them as they are. -/
theorem ThreadPool.Shaped.lanes_push {maxNumThreads : ℕ} (h : s.Shaped maxNumThreads) {k : ℕ} {pc : PushPc}
    (hpc : s.pushers[k]? = some pc) :
    (pushStep s k pc).lanes = s.lanes ∨ LaneStep s.lanes (pushStep s k pc).lanes := by
  cases pc with
  | entered hash => exact .inl rfl
  | loaded hash n =>
    rw [pushStep]
    by_cases hn : n = 0
    · rw [if_pos hn]
      exact .inl rfl
    · rw [if_neg hn]
      have henqueue : LaneStep s.lanes (s.lanes.enqueue (hash.toNat % n) hash) :=
        .enqueue _ hash fun j t ht => h.lane_eq hpc hn ht
      refine .inr ?_
      change LaneStep s.lanes { ((s.setWorker _ _).record _).lanes with tickets := s.tickets + 1 }
      rw [ThreadPool.lanes_record, ThreadPool.lanes_setWorker, PoolWorker.pending_pushBack_task,
        PoolWorker.busy_pushBack]
      have hbusy : Function.update s.lanes.busy (hash.toNat % n) (s.workers (hash.toNat % n)).busy = s.lanes.busy :=
        Function.update_eq_self _ s.lanes.busy
      rw [hbusy]
      exact henqueue
  | appended i ticket => exact .inl (s.lanes_notifyOne i)
  | notified ticket => exact .inr (.note (PoolMark.returned ticket))

/-- A step of a call of `start` or `end` leaves the lanes as they are, or it is the return of `end`. -/
theorem ThreadPool.Shaped.lanes_life {maxNumThreads : ℕ} (h : s.Shaped maxNumThreads) {pc : LifePc}
    {next : ThreadPool} (hpc : s.lifecycle = some pc) (hstep : LifeStep s pc next) :
    next.lanes = s.lanes ∨
      next.lanes = s.lanes.note .endReturned ∧ ∀ i, s.lanes.pending i = [] := by
  cases hstep with
  | storeFalse | exchange | storeTrue | skip => exact .inl rfl
  | dummy hi hthread => exact .inl (ThreadPool.lanes_keep (PoolWorker.pending_pushBack_dummy _) rfl)
  | @finish c i hi =>
    cases c with
    | start n => exact .inl rfl
    | stop n =>
      refine .inr ⟨rfl, fun j => (h.fits j).pending_eq_nil ?_⟩
      rw [hpc]
      exact fun hhas => Nat.not_lt.mpr hi (hhas.1.trans_lt hhas.2)
  | @notify c i => exact .inl (s.lanes_notifyOne i)
  | @join c i hthread =>
    exact .inl (ThreadPool.lanes_keep ((s.workers i).pending_join hthread) (by simp [PoolWorker.busy, hthread]))
  | @spawn n i =>
    have hthread : (s.workers i).thread = none := by
      have hlife := h.life
      rw [hpc] at hlife
      rw [← Option.not_isSome_iff_eq_none, (h.fits i).joinable, hpc]
      change ¬ (loopShape s.threadNum i (.start n)).Has i
      rw [loopShape_start_zero hlife.2.2.1]
      exact fun hhas => lt_irrefl i hhas.2
    exact .inl (ThreadPool.lanes_keep ((s.workers i).pending_goto_test hthread _)
      (by simp [PoolWorker.busy, PoolWorker.goto, hthread]))

/-- Every step of the pool is a step of the lanes or leaves them as they are. -/
theorem ThreadPool.Shaped.lanes_step {maxNumThreads : ℕ} (h : s.Shaped maxNumThreads) {a : PoolAction}
    {next : ThreadPool} (hstep : PoolStep maxNumThreads s a next) :
    next.lanes = s.lanes ∨ LaneStep s.lanes next.lanes := by
  cases hstep with
  | enter | refused | start => exact .inl rfl
  | push hpc => exact h.lanes_push hpc
  | stop => exact .inr (.note PoolMark.endAcquired)
  | life hpc hlife =>
    rcases h.lanes_life hpc hlife with hsame | ⟨hnote, -⟩
    · exact .inl hsame
    · rw [hnote]
      exact .inr (.note PoolMark.endReturned)
  | thread hthread => exact hthread.lanes
  | @wake i loop hthread =>
    exact .inl (ThreadPool.lanes_keep (PoolWorker.pending_wake hthread) (PoolWorker.busy_wake hthread))

end Lanes

section Log

variable {log events : List (LaneEvent UInt32 PoolMark)}

/-- One more event, before which all tasks have run if it is the return of `end`. -/
theorem EndsDrained.snoc {e : LaneEvent UInt32 PoolMark} (h : EndsDrained log)
    (he : e = .mark .endReturned → ∀ t, .mark (.returned t) ∈ log →
      timesBegan (log ++ [e]) t = 1 ∧ timesEnded (log ++ [e]) t = 1) : EndsDrained (log ++ [e]) := by
  intro before between t hprefix ht
  rcases List.prefix_concat_iff.mp hprefix with hall | hold
  · have hlast : log ++ [e] = (before ++ .mark .endAcquired :: between) ++ [.mark .endReturned] := by
      rw [← hall]
      simp
    obtain ⟨hlog, hevent⟩ := List.append_inj' hlast rfl
    rw [hall]
    apply he (List.cons.inj hevent).1
    rw [hlog]
    exact List.mem_append_left _ ht
  · exact h before between t hold ht

/-- More events, none of which is the return of `end`. -/
theorem EndsDrained.append (h : EndsDrained log) (hevents : .mark .endReturned ∉ events) :
    EndsDrained (log ++ events) := by
  induction events generalizing log with
  | nil => simpa using h
  | cons e rest ih =>
    rw [List.mem_cons, not_or] at hevents
    have hfirst : EndsDrained (log ++ [e]) := h.snoc fun he => absurd he.symm hevents.1
    simpa using ih hfirst hevents.2

/-- A thread records no marks. -/
theorem ThreadStep.mark_notMem {endFlag : Bool} {w w' : PoolWorker} (hstep : ThreadStep endFlag w w' events)
    (m : PoolMark) : .mark m ∉ events := by
  cases hstep with
  | leaveFirst | stayFirst | leaveSecond | staySecond | wait | take => simp
  | @begin loop job q => cases job <;> simp [Job.began]
  | @finish loop job q => cases job <;> simp [Job.ended]

end Log

section Steps

variable {maxNumThreads : ℕ} {s next : ThreadPool}

/-- A step in which no call of `push` takes part. -/
theorem ThreadPool.Numbered.keep (h : s.Numbered) (hpushers : next.pushers = s.pushers)
    (htickets : next.tickets = s.tickets)
    (hlog : ∀ t, .mark (.returned t) ∈ next.log → .mark (.returned t) ∈ s.log) : next.Numbered where
  pushing := by
    rw [hpushers, htickets]
    exact h.pushing
  returned := by
    intro t ht
    rw [htickets]
    exact h.returned t (hlog t ht)

/-- A call of `push` goes on, and has a task with a number if it has appended one. -/
theorem ThreadPool.Numbered.setPusher (h : s.Numbered) (k : ℕ) {pc : PushPc}
    (hpc : ∀ t, pc.ticket = some t → t < s.tickets) : (s.setPusher k pc).Numbered where
  pushing := by
    intro pc' hmem t ht
    rcases List.mem_or_eq_of_mem_set hmem with hold | hnew
    · exact h.pushing pc' hold t ht
    · exact hpc t (hnew ▸ ht)
  returned := h.returned

/-- A call of `push` gives `_mtx` back. -/
theorem ThreadPool.Numbered.leave (h : s.Numbered) (k : ℕ) : (s.leave k).Numbered :=
  ⟨fun pc hmem => h.pushing pc (List.mem_of_mem_eraseIdx hmem), h.returned⟩

/-- A task that is appended gets the next number. -/
theorem ThreadPool.Numbered.append (h : s.Numbered) (i : ℕ) (hash : UInt32) : (s.append i hash).Numbered where
  pushing := fun pc hmem t ht => (h.pushing pc hmem t ht).trans (Nat.lt_succ_self _)
  returned := by
    intro t ht
    have hold : .mark (.returned t) ∈ s.log := by
      simpa [ThreadPool.append, ThreadPool.record, ThreadPool.setWorker] using ht
    exact (h.returned t hold).trans (Nat.lt_succ_self _)

/-- A step of a call of `push` keeps the numbers. -/
theorem ThreadPool.Numbered.stepPush (h : s.Numbered) {k : ℕ} {pc : PushPc} (hpc : s.pushers[k]? = some pc) :
    (pushStep s k pc).Numbered := by
  have hmem := List.mem_of_getElem? hpc
  cases pc with
  | entered hash => exact h.setPusher k (by simp [PushPc.ticket])
  | loaded hash n =>
    rw [pushStep]
    by_cases hn : n = 0
    · rw [if_pos hn]
      exact h.leave k
    · rw [if_neg hn]
      refine (h.append _ hash).setPusher k fun t ht => ?_
      cases ht
      exact Nat.lt_succ_self _
  | appended i ticket =>
    have hworker : (s.setWorker i (s.workers i).notifyOne).Numbered := h.keep rfl rfl fun _ ht => ht
    exact hworker.setPusher k fun t ht => h.pushing (.appended i ticket) hmem t ht
  | notified ticket =>
    refine ⟨(h.leave k).pushing, fun t ht => ?_⟩
    have hcases : .mark (.returned t) ∈ s.log ∨ t = ticket := by
      simpa [pushStep, ThreadPool.record, ThreadPool.leave] using ht
    rcases hcases with hold | rfl
    · exact h.returned t hold
    · exact h.pushing _ hmem t rfl

/-- Every step keeps the numbers. -/
theorem ThreadPool.Numbered.step {a : PoolAction} (h : s.Numbered) (hstep : PoolStep maxNumThreads s a next) :
    next.Numbered := by
  cases hstep with
  | @enter hash hfree =>
    refine ⟨fun pc hmem t ht => ?_, h.returned⟩
    rcases List.mem_append.mp hmem with hold | hnew
    · exact h.pushing pc hold t ht
    · rw [List.mem_singleton.mp hnew] at ht
      cases ht
  | push hpc => exact h.stepPush hpc
  | refused => exact h
  | start => exact h.keep rfl rfl fun _ ht => ht
  | stop => exact h.keep rfl rfl fun t ht => by simpa [ThreadPool.record, ThreadPool.setLife] using ht
  | life hpc hlife =>
    obtain ⟨hpushers, htickets, hlog⟩ := hlife.kept
    refine h.keep hpushers htickets fun t ht => ?_
    rcases hlog with hsame | hreturned
    · exact hsame ▸ ht
    · rw [hreturned] at ht
      simpa using ht
  | thread hthread =>
    refine h.keep rfl rfl fun t ht => ?_
    exact (List.mem_append.mp ht).resolve_right (hthread.mark_notMem _)
  | wake => exact h.keep rfl rfl fun _ ht => ht

/-- When `end` returns, all tasks have run. -/
theorem ThreadPool.Ordered.drained_life (h : s.Ordered maxNumThreads) {pc : LifePc}
    (hpc : s.lifecycle = some pc) (hstep : LifeStep s pc next) : EndsDrained next.log := by
  rcases hstep.kept.2.2 with hsame | hreturned
  · rw [hsame]
    exact h.drained
  · rw [hreturned]
    refine h.drained.snoc fun _ t ht => ?_
    have hempty : ∀ i, s.lanes.pending i = [] := by
      rcases h.shaped.lanes_life hpc hstep with hkept | ⟨-, hempty⟩
      · have hlog : next.log = s.log := congrArg Lanes.log hkept
        rw [hreturned] at hlog
        simp at hlog
      · exact hempty
    have hrange : t ∈ s.lanes.log.filterMap LaneEvent.enqueuedTicket := by
      rw [h.sound.numbered]
      exact List.mem_range.mpr (h.numbered.returned t ht)
    obtain ⟨hash, henqueued⟩ := mem_filterMap_enqueuedTicket.mp hrange
    have hran : timesBegan s.log t = 1 ∧ timesEnded s.log t = 1 := h.sound.drained hempty henqueued
    simpa [timesBegan, timesEnded, List.filterMap_cons, LaneEvent.beganTicket, LaneEvent.endedTicket] using hran

/-- A step of a call of `push` does not end a call of `end`. -/
theorem EndsDrained.stepPush (h : EndsDrained s.log) (k : ℕ) (pc : PushPc) : EndsDrained (pushStep s k pc).log := by
  cases pc with
  | entered hash => exact h
  | loaded hash n =>
    rw [pushStep]
    by_cases hn : n = 0
    · rw [if_pos hn]
      exact h
    · rw [if_neg hn]
      exact h.snoc (e := .enqueued s.tickets hash) (by simp)
  | appended i ticket => exact h
  | notified ticket => exact h.snoc (e := .mark (.returned ticket)) (by simp)

/-- Every step keeps what holds of the pool and its lanes. -/
theorem ThreadPool.Ordered.step {a : PoolAction} (h : s.Ordered maxNumThreads)
    (hstep : PoolStep maxNumThreads s a next) : next.Ordered maxNumThreads where
  shaped := h.shaped.step hstep
  numbered := h.numbered.step hstep
  sound := by
    rcases h.shaped.lanes_step hstep with hsame | hlane
    · rw [hsame]
      exact h.sound
    · exact hlane.sound h.sound
  drained := by
    cases hstep with
    | enter | refused | start | wake => exact h.drained
    | push hpc => exact h.drained.stepPush _ _
    | stop => exact h.drained.snoc (e := .mark .endAcquired) (by simp)
    | life hpc hlife => exact h.drained_life hpc hlife
    | thread hthread => exact h.drained.append (hthread.mark_notMem _)

/-- What holds of a new pool. -/
theorem ThreadPool.initial_ordered (maxNumThreads : ℕ) : ThreadPool.initial.Ordered maxNumThreads where
  shaped := ThreadPool.initial_shaped maxNumThreads
  numbered := ⟨by simp [ThreadPool.initial], by simp [ThreadPool.initial]⟩
  sound := Lanes.initial_sound
  drained := by
    intro before between t hprefix
    simp [ThreadPool.initial] at hprefix

/-- In every run, whatever the calls of `push`, `start` and `end` and however the threads run, each task is
executed at most once, the tasks pushed before a call of `end` have been executed when it returns, and
tasks with one hash are executed one after the other in the order in which they were appended. -/
theorem poolRun_tasksOrdered (maxNumThreads : ℕ) (acts : List PoolAction) :
    Throughout (poolStep maxNumThreads) (fun s => TasksOrdered s.log) ThreadPool.initial acts := by
  refine throughout_of_invariant _ (ThreadPool.Ordered maxNumThreads) _ (fun s h => ?_)
    (fun s a next h hstep => h.step (poolStep_cases hstep)) _ acts (ThreadPool.initial_ordered maxNumThreads)
  exact ⟨h.sound.timesBegan_le, h.drained, h.sound.ordered⟩

end Steps

end TcpClb
