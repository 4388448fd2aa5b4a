import TcpClb.ThreadPool

/-!
# The shape of a thread pool

Which workers have a thread and where tasks can be follows from where the call of `start` or `end` stands
that holds `_mtx`. While no call is stopping the pool its threads are in their first loop, and tasks are only
with workers that have a thread, at the place that their hash selects. A thread that has finished leaves no
task. This holds after every step, also when `start` is called on a running pool: such a call stays
with the first worker.
-/

namespace TcpClb

open TcpClb.Common

/-- The task that is queued, if it is one. -/
def Job.asTask : Job → Option (ℕ × UInt32)
  | .dummy => none
  | .task ticket hash => some (ticket, hash)

/-- The job that a thread has taken from the queue and not finished. -/
def ThreadPc.inHand : ThreadPc → List Job
  | .call _ job => [job]
  | .running _ job => [job]
  | _ => []

/-- The loop that a thread is in. -/
def ThreadPc.loop : ThreadPc → Option ThreadLoop
  | .test loop => some loop
  | .pop loop => some loop
  | .waiting loop => some loop
  | .call loop _ => some loop
  | .running loop _ => some loop
  | .finished => none

/-- The tasks of a worker that have not ended. -/
def PoolWorker.pending (w : PoolWorker) : List (ℕ × UInt32) :=
  (w.thread.elim [] ThreadPc.inHand ++ w.queue).filterMap Job.asTask

/-- A task of the worker is running. -/
def PoolWorker.busy (w : PoolWorker) : Bool :=
  match w.thread with
  | some (.running _ (.task _ _)) => true
  | _ => false

/-- The workers that have a thread, how many workers the hashes are spread over, and whether the threads may
leave their first loop. -/
structure PoolShape where
  first : ℕ
  bound : ℕ
  modulus : ℕ
  stopping : Bool

/-- The worker is one of those that have a thread. -/
def PoolShape.Has (shape : PoolShape) (j : ℕ) : Prop := shape.first ≤ j ∧ j < shape.bound

/-- The shape of a pool in the loop of `start` or `end` over the workers. -/
def loopShape (threadNum i : ℕ) : LifeCall → PoolShape
  | .start n => if threadNum = 0 then ⟨0, i, n, false⟩ else ⟨0, threadNum, threadNum, false⟩
  | .stop n => ⟨i, n, n, true⟩

/-- The shape of a pool. -/
def poolShape (threadNum : ℕ) : Option LifePc → PoolShape
  | none => ⟨0, threadNum, threadNum, false⟩
  | some (.storeFalse _) => ⟨0, threadNum, threadNum, false⟩
  | some .exchange => ⟨0, threadNum, threadNum, false⟩
  | some (.storeTrue n) => ⟨0, n, n, false⟩
  | some (.worker c i) => loopShape threadNum i c
  | some (.notify c i) => loopShape threadNum i c
  | some (.join c i) => loopShape threadNum i c
  | some (.spawn n i) => loopShape threadNum i (.start n)

/-- A worker with index `j` is as the shape says. -/
structure PoolWorker.Fits (shape : PoolShape) (j : ℕ) (w : PoolWorker) : Prop where
  joinable : w.thread.isSome ↔ shape.Has j
  placed : ∀ t hash, (t, hash) ∈ w.pending → shape.Has j ∧ hash.toNat % shape.modulus = j
  firstLoop : shape.stopping = false → ∀ pc, w.thread = some pc → pc.loop = some .untilEnd
  drained : w.thread = some .finished → w.pending = []

/-- What is known of the numbers that a call of `start` or `end` works with. -/
def LifeOk (maxNumThreads threadNum : ℕ) (endFlag : Bool) : Option LifePc → Prop
  | none => threadNum ≤ maxNumThreads
  | some (.storeFalse n) => threadNum ≤ maxNumThreads ∧ 0 < n ∧ n ≤ maxNumThreads
  | some .exchange => threadNum ≤ maxNumThreads
  | some (.storeTrue n) => n ≤ maxNumThreads ∧ threadNum = 0
  | some (.worker (.start n) i) => n ≤ maxNumThreads ∧ i ≤ n ∧ 0 < n ∧ endFlag = false ∧
      (threadNum ≠ 0 → i = 0)
  | some (.notify (.start _) i) => i = 0 ∧ threadNum ≠ 0 ∧ endFlag = false
  | some (.join (.start _) i) => i = 0 ∧ threadNum ≠ 0 ∧ endFlag = false
  | some (.spawn n i) => n ≤ maxNumThreads ∧ i < n ∧ threadNum = 0 ∧ endFlag = false
  | some (.worker (.stop n) i) => n ≤ maxNumThreads ∧ i ≤ n ∧ threadNum = 0 ∧ endFlag = true
  | some (.notify (.stop n) i) => n ≤ maxNumThreads ∧ i < n ∧ threadNum = 0 ∧ endFlag = true
  | some (.join (.stop n) i) => n ≤ maxNumThreads ∧ i < n ∧ threadNum = 0 ∧ endFlag = true

/-- What holds of a pool after every step. -/
structure ThreadPool.Shaped (maxNumThreads : ℕ) (s : ThreadPool) : Prop where
  fits : ∀ j, (s.workers j).Fits (poolShape s.threadNum s.lifecycle) j
  flag : (poolShape s.threadNum s.lifecycle).stopping = false →
    0 < (poolShape s.threadNum s.lifecycle).bound → s.endFlag = false
  life : LifeOk maxNumThreads s.threadNum s.endFlag s.lifecycle
  alone : s.lifecycle ≠ none → s.pushers = []
  loaded : ∀ hash n, .loaded hash n ∈ s.pushers → n = s.threadNum

@[simp] theorem PoolWorker.pending_pushBack_dummy (w : PoolWorker) : (w.pushBack .dummy).pending = w.pending := by
  simp [PoolWorker.pending, PoolWorker.pushBack, List.filterMap_cons, Job.asTask]

@[simp] theorem PoolWorker.pending_pushBack_task (w : PoolWorker) (t : ℕ) (hash : UInt32) :
    (w.pushBack (.task t hash)).pending = w.pending ++ [(t, hash)] := by
  simp [PoolWorker.pending, PoolWorker.pushBack, Job.asTask]

@[simp] theorem PoolWorker.busy_pushBack (w : PoolWorker) (job : Job) : (w.pushBack job).busy = w.busy := rfl

/-- A worker that is not joinable has the tasks in its queue. -/
theorem PoolWorker.pending_goto_test (w : PoolWorker) (hthread : w.thread = none) (loop : ThreadLoop) :
    (w.goto (.test loop)).pending = w.pending := by
  simp [PoolWorker.pending, PoolWorker.goto, hthread, ThreadPc.inHand]

/-- A worker whose thread has finished has the tasks in its queue. -/
theorem PoolWorker.pending_join (w : PoolWorker) (hthread : w.thread = some .finished) :
    PoolWorker.pending { w with thread := none } = w.pending := by
  simp [PoolWorker.pending, hthread, ThreadPc.inHand]

/-- Only a waiting thread is woken, and it goes on in its loop. -/
theorem PoolWorker.notifyOne_cases (w : PoolWorker) :
    w.notifyOne = w ∨ ∃ loop, w.thread = some (.waiting loop) ∧ w.notifyOne = w.goto (.pop loop) := by
  rw [PoolWorker.notifyOne]
  split
  · rename_i loop hthread
    exact .inr ⟨loop, hthread, rfl⟩
  · exact .inl rfl

/-- A thread that wakes has the same tasks. -/
theorem PoolWorker.pending_wake {w : PoolWorker} {loop : ThreadLoop} (hthread : w.thread = some (.waiting loop)) :
    (w.goto (.pop loop)).pending = w.pending := by
  simp [PoolWorker.pending, PoolWorker.goto, hthread, ThreadPc.inHand]

/-- A worker that keeps its thread and its loop, and has no other tasks, still fits. -/
theorem PoolWorker.Fits.keep {shape : PoolShape} {j : ℕ} {w w' : PoolWorker} (h : w.Fits shape j)
    (hthread : w'.thread.isSome = w.thread.isSome) (hpending : w'.pending.Sublist w.pending)
    (hloop : shape.stopping = false → ∀ pc', w'.thread = some pc' → ∃ pc, w.thread = some pc ∧ pc'.loop = pc.loop)
    (hdrained : w'.thread = some .finished → w'.pending = []) : w'.Fits shape j where
  joinable := by
    rw [hthread]
    exact h.joinable
  placed := fun t hash ht => h.placed t hash (hpending.subset ht)
  firstLoop := by
    intro hstopping pc' hpc'
    obtain ⟨pc, hpc, hsame⟩ := hloop hstopping pc' hpc'
    exact hsame.trans (h.firstLoop hstopping pc hpc)
  drained := hdrained

/-- A worker fits another shape that has it as well, or as little, and the same places for tasks. -/
theorem PoolWorker.Fits.reshape {shape shape' : PoolShape} {j : ℕ} {w : PoolWorker} (h : w.Fits shape j)
    (hhas : shape'.Has j ↔ shape.Has j) (hmodulus : shape.Has j → shape'.modulus = shape.modulus)
    (hstopping : shape.Has j → shape'.stopping = false → shape.stopping = false) : w.Fits shape' j where
  joinable := h.joinable.trans hhas.symm
  placed := by
    intro t hash ht
    obtain ⟨hj, hplace⟩ := h.placed t hash ht
    rw [hmodulus hj]
    exact ⟨hhas.mpr hj, hplace⟩
  firstLoop := by
    intro hstop pc hpc
    have hj : shape.Has j := h.joinable.mp (by rw [hpc]; rfl)
    exact h.firstLoop (hstopping hj hstop) pc hpc
  drained := h.drained

/-- A worker that the shape does not have has no task. -/
theorem PoolWorker.Fits.pending_eq_nil {shape : PoolShape} {j : ℕ} {w : PoolWorker} (h : w.Fits shape j)
    (hj : ¬ shape.Has j) : w.pending = [] := by
  apply List.eq_nil_iff_forall_not_mem.mpr
  intro x hx
  exact hj (h.placed x.1 x.2 hx).1

/-- A thread that wakes still fits. -/
theorem PoolWorker.Fits.wake {shape : PoolShape} {j : ℕ} {w : PoolWorker} (h : w.Fits shape j)
    {loop : ThreadLoop} (hthread : w.thread = some (.waiting loop)) : (w.goto (.pop loop)).Fits shape j := by
  refine h.keep (by rw [hthread]; rfl) (w.pending_wake hthread ▸ List.Sublist.refl _) ?_ (by simp [PoolWorker.goto])
  intro _ pc' hpc'
  cases hpc'
  exact ⟨_, hthread, rfl⟩

/-- A worker that is notified still fits. -/
theorem PoolWorker.Fits.notifyOne {shape : PoolShape} {j : ℕ} {w : PoolWorker} (h : w.Fits shape j) :
    w.notifyOne.Fits shape j := by
  rcases w.notifyOne_cases with hsame | ⟨loop, hthread, hwoken⟩
  · rw [hsame]
    exact h
  · rw [hwoken]
    exact h.wake hthread

/-- A worker still fits with one more empty task. -/
theorem PoolWorker.Fits.pushDummy {shape : PoolShape} {j : ℕ} {w : PoolWorker} (h : w.Fits shape j) :
    (w.pushBack .dummy).Fits shape j :=
  h.keep rfl (by rw [PoolWorker.pending_pushBack_dummy]) (fun _ pc hpc => ⟨pc, hpc, rfl⟩)
    (fun hfinished => by rw [PoolWorker.pending_pushBack_dummy]; exact h.drained hfinished)

/-- A worker still fits with one more task, at the place of its hash and while no call stops the pool. -/
theorem PoolWorker.Fits.pushTask {shape : PoolShape} {j : ℕ} {w : PoolWorker} (h : w.Fits shape j) {t : ℕ}
    {hash : UInt32} (hj : shape.Has j) (hplace : hash.toNat % shape.modulus = j)
    (hstopping : shape.stopping = false) : (w.pushBack (.task t hash)).Fits shape j where
  joinable := h.joinable
  placed := by
    intro t' hash' ht'
    rw [PoolWorker.pending_pushBack_task, List.mem_append, List.mem_singleton] at ht'
    rcases ht' with hold | hnew
    · exact h.placed t' hash' hold
    · cases hnew
      exact ⟨hj, hplace⟩
  firstLoop := h.firstLoop
  drained := by
    intro hfinished
    have hloop := h.firstLoop hstopping _ hfinished
    cases hloop

/-- What a step of a thread does to the tasks of its worker. -/
theorem ThreadStep.pending {endFlag : Bool} {w w' : PoolWorker} {events : List (LaneEvent UInt32 PoolMark)}
    (hstep : ThreadStep endFlag w w' events) : w'.pending.Sublist w.pending := by
  cases hstep with
  | leaveFirst | stayFirst | leaveSecond | staySecond | wait | take | begin => exact List.Sublist.refl _
  | finish => exact List.Sublist.filterMap _ (List.sublist_append_right _ _)

/-- The worker of a thread fits after every step of it. -/
theorem PoolWorker.Fits.threadStep {shape : PoolShape} {j : ℕ} {w w' : PoolWorker} {endFlag : Bool}
    {events : List (LaneEvent UInt32 PoolMark)} (h : w.Fits shape j)
    (hflag : shape.stopping = false → shape.Has j → endFlag = false) (hstep : ThreadStep endFlag w w' events) :
    w'.Fits shape j := by
  have hpending := hstep.pending
  cases hstep with
  | leaveFirst hend =>
    refine h.keep rfl hpending (fun hstopping => ?_) (by simp)
    have hclear := hflag hstopping (h.joinable.mp rfl)
    rw [hend] at hclear
    cases hclear
  | leaveSecond =>
    refine h.keep rfl hpending (fun hstopping => ?_) (fun _ => rfl)
    have hloop := h.firstLoop hstopping _ rfl
    cases hloop
  | stayFirst | staySecond | wait | take | begin | finish =>
    refine h.keep rfl hpending (fun _ pc' hpc' => ?_) (by simp)
    cases hpc'
    exact ⟨_, rfl, rfl⟩

/-- A new pool has its shape. -/
theorem ThreadPool.initial_shaped (maxNumThreads : ℕ) : ThreadPool.initial.Shaped maxNumThreads where
  fits := by
    intro j
    have hnot : ¬ (poolShape 0 none).Has j := fun hj => Nat.not_lt_zero j hj.2
    exact ⟨by simp [ThreadPool.initial, hnot], by simp [ThreadPool.initial, PoolWorker.pending],
      by simp [ThreadPool.initial], by simp [ThreadPool.initial]⟩
  flag := fun _ hbound => absurd hbound (lt_irrefl 0)
  life := Nat.zero_le _
  alone := fun hbusy => absurd rfl hbusy
  loaded := by simp [ThreadPool.initial]

section Steps

variable {maxNumThreads : ℕ} {s next : ThreadPool}

/-- All workers fit after one of them has changed and still fits. -/
theorem fits_setWorker {shape : PoolShape} (h : ∀ j, (s.workers j).Fits shape j) {i : ℕ} {w : PoolWorker}
    (hw : w.Fits shape i) (j : ℕ) : ((s.setWorker i w).workers j).Fits shape j := by
  by_cases hj : j = i
  · subst hj
    simpa [ThreadPool.setWorker] using hw
  · simpa [ThreadPool.setWorker, hj] using h j

/-- The end flag is clear for a thread that may not leave its first loop. -/
theorem ThreadPool.Shaped.flag_of_has (h : s.Shaped maxNumThreads) {j : ℕ}
    (hstopping : (poolShape s.threadNum s.lifecycle).stopping = false)
    (hj : (poolShape s.threadNum s.lifecycle).Has j) : s.endFlag = false :=
  h.flag hstopping ((Nat.zero_le j).trans_lt hj.2)

/-- A change of one worker that still fits keeps the shape. -/
theorem ThreadPool.Shaped.setWorker (h : s.Shaped maxNumThreads) {i : ℕ} {w : PoolWorker}
    (hw : w.Fits (poolShape s.threadNum s.lifecycle) i) : (s.setWorker i w).Shaped maxNumThreads :=
  ⟨fits_setWorker h.fits hw, h.flag, h.life, h.alone, h.loaded⟩

/-- What is recorded does not matter. -/
theorem ThreadPool.Shaped.record (h : s.Shaped maxNumThreads) (events : List (LaneEvent UInt32 PoolMark)) :
    (s.record events).Shaped maxNumThreads :=
  ⟨h.fits, h.flag, h.life, h.alone, h.loaded⟩

/-- A call of `push` goes on, and has read the number of threads if it has just done so. -/
theorem ThreadPool.Shaped.setPusher (h : s.Shaped maxNumThreads) (k : ℕ) {pc : PushPc}
    (hpc : ∀ hash n, pc = .loaded hash n → n = s.threadNum) : (s.setPusher k pc).Shaped maxNumThreads where
  fits := h.fits
  flag := h.flag
  life := h.life
  alone := by
    intro hbusy
    change s.pushers.set k pc = []
    rw [h.alone hbusy]
    rfl
  loaded := by
    intro hash n hmem
    rcases List.mem_or_eq_of_mem_set hmem with hold | hnew
    · exact h.loaded hash n hold
    · exact hpc hash n hnew.symm

/-- A call of `push` gives `_mtx` back. -/
theorem ThreadPool.Shaped.leave (h : s.Shaped maxNumThreads) (k : ℕ) : (s.leave k).Shaped maxNumThreads where
  fits := h.fits
  flag := h.flag
  life := h.life
  alone := by
    intro hbusy
    change s.pushers.eraseIdx k = []
    rw [h.alone hbusy]
    rfl
  loaded := fun hash n hmem => h.loaded hash n (List.mem_of_mem_eraseIdx hmem)

/-- No call of `start` or `end` holds `_mtx` while a call of `push` does. -/
theorem ThreadPool.Shaped.lifecycle_eq_none (h : s.Shaped maxNumThreads) {k : ℕ} {pc : PushPc}
    (hpc : s.pushers[k]? = some pc) : s.lifecycle = none := by
  by_contra hbusy
  rw [h.alone hbusy] at hpc
  cases hpc

/-- The worker that a hash selects has a thread. -/
theorem ThreadPool.Shaped.has_of_loaded (h : s.Shaped maxNumThreads) {k n : ℕ} {hash : UInt32}
    (hpc : s.pushers[k]? = some (.loaded hash n)) (hn : n ≠ 0) :
    n = s.threadNum ∧ (poolShape s.threadNum s.lifecycle).Has (hash.toNat % n) := by
  obtain rfl : n = s.threadNum := h.loaded hash n (List.mem_of_getElem? hpc)
  rw [h.lifecycle_eq_none hpc]
  exact ⟨rfl, Nat.zero_le _, Nat.mod_lt _ (Nat.pos_of_ne_zero hn)⟩

/-- A step of a call of `push` keeps the shape. -/
theorem ThreadPool.Shaped.stepPush (h : s.Shaped maxNumThreads) {k : ℕ} {pc : PushPc}
    (hpc : s.pushers[k]? = some pc) : (pushStep s k pc).Shaped maxNumThreads := by
  cases pc with
  | entered hash =>
    refine h.setPusher k fun hash' n hsame => ?_
    cases hsame
    rfl
  | loaded hash n =>
    rw [pushStep]
    by_cases hn : n = 0
    · rw [if_pos hn]
      exact h.leave k
    · rw [if_neg hn]
      obtain ⟨hnum, hhas⟩ := h.has_of_loaded hpc hn
      have hfree := h.lifecycle_eq_none hpc
      have hworker : ((s.workers (hash.toNat % n)).pushBack (.task s.tickets hash)).Fits
          (poolShape s.threadNum s.lifecycle) (hash.toNat % n) := by
        apply (h.fits _).pushTask hhas
        · rw [hfree, hnum]
          rfl
        · rw [hfree]
          rfl
      have happend : (s.append (hash.toNat % n) hash).Shaped maxNumThreads :=
        ⟨fits_setWorker h.fits hworker, h.flag, h.life, h.alone, h.loaded⟩
      exact happend.setPusher k (by simp)
  | appended i ticket => exact (h.setWorker (h.fits i).notifyOne).setPusher k (by simp)
  | notified ticket => exact (h.leave k).record _

/-- The call of `start` or `end` goes on while the shape stays the same. -/
theorem ThreadPool.Shaped.setLife (h : s.Shaped maxNumThreads) (hbusy : s.lifecycle ≠ none) {pc : Option LifePc}
    (hshape : poolShape s.threadNum pc = poolShape s.threadNum s.lifecycle)
    (hlife : LifeOk maxNumThreads s.threadNum s.endFlag pc) : (s.setLife pc).Shaped maxNumThreads where
  fits := by
    change ∀ j, (s.workers j).Fits (poolShape s.threadNum pc) j
    rw [hshape]
    exact h.fits
  flag := by
    change (poolShape s.threadNum pc).stopping = false → 0 < (poolShape s.threadNum pc).bound → s.endFlag = false
    rw [hshape]
    exact h.flag
  life := hlife
  alone := fun _ => h.alone hbusy
  loaded := h.loaded

/-- A pool in which a call of `start` or `end` holds `_mtx`, or has just given it back. -/
theorem shaped_of_pushers (hpushers : s.pushers = [])
    (hfits : ∀ j, (s.workers j).Fits (poolShape s.threadNum s.lifecycle) j)
    (hflag : (poolShape s.threadNum s.lifecycle).stopping = false →
      0 < (poolShape s.threadNum s.lifecycle).bound → s.endFlag = false)
    (hlife : LifeOk maxNumThreads s.threadNum s.endFlag s.lifecycle) : s.Shaped maxNumThreads :=
  ⟨hfits, hflag, hlife, fun _ => hpushers, by simp [hpushers]⟩

/-- The shape of a stopped pool that is being started. -/
theorem loopShape_start_zero {threadNum n i : ℕ} (hzero : threadNum = 0) :
    loopShape threadNum i (.start n) = ⟨0, i, n, false⟩ := if_pos hzero

/-- The shape of a running pool that `start` is called on. -/
theorem loopShape_start_ne {threadNum n i : ℕ} (hne : threadNum ≠ 0) :
    loopShape threadNum i (.start n) = ⟨0, threadNum, threadNum, false⟩ := if_neg hne

/-- `start` finds a thread only in a running pool. -/
theorem ThreadPool.Shaped.start_thread (h : s.Shaped maxNumThreads) {n i : ℕ}
    (hpc : s.lifecycle = some (.worker (.start n) i)) : (s.workers i).thread.isSome ↔ s.threadNum ≠ 0 := by
  have hlife : LifeOk maxNumThreads s.threadNum s.endFlag (some (.worker (.start n) i)) := hpc ▸ h.life
  have hshape : poolShape s.threadNum s.lifecycle = loopShape s.threadNum i (.start n) := by rw [hpc]; rfl
  rw [(h.fits i).joinable, hshape]
  by_cases hzero : s.threadNum = 0
  · rw [loopShape_start_zero hzero]
    exact iff_of_false (fun hi => lt_irrefl i hi.2) (fun hne => hne hzero)
  · rw [loopShape_start_ne hzero]
    refine iff_of_true ⟨Nat.zero_le i, ?_⟩ hzero
    rw [hlife.2.2.2.2 hzero]
    exact Nat.pos_of_ne_zero hzero

/-- `start` on a running pool does not get past the join of the first thread. -/
theorem ThreadPool.Shaped.not_joined_start (h : s.Shaped maxNumThreads) {n i : ℕ}
    (hpc : s.lifecycle = some (.join (.start n) i)) : (s.workers i).thread ≠ some .finished := by
  intro hfinished
  have hlife : LifeOk maxNumThreads s.threadNum s.endFlag (some (.join (.start n) i)) := hpc ▸ h.life
  have hloop := (h.fits i).firstLoop (by
    rw [hpc]
    change (loopShape s.threadNum i (.start n)).stopping = false
    rw [loopShape_start_ne hlife.2.1]) _ hfinished
  cases hloop

/-- `start` clears the end flag. -/
theorem ThreadPool.Shaped.storeFalse (h : s.Shaped maxNumThreads) {n : ℕ}
    (hpc : s.lifecycle = some (.storeFalse n)) :
    ({ s with endFlag := false }.setLife (some (.worker (.start n) 0))).Shaped maxNumThreads := by
  have hlife : LifeOk maxNumThreads s.threadNum s.endFlag (some (.storeFalse n)) := hpc ▸ h.life
  have hfits : ∀ j, (s.workers j).Fits ⟨0, s.threadNum, s.threadNum, false⟩ j := by
    intro j
    have hj := h.fits j
    rw [hpc] at hj
    exact hj
  refine shaped_of_pushers (h.alone (by simp [hpc])) (fun j => ?_) (fun _ _ => rfl)
    ⟨hlife.2.2, Nat.zero_le n, hlife.2.1, rfl, fun _ => rfl⟩
  change (s.workers j).Fits (loopShape s.threadNum 0 (.start n)) j
  by_cases hzero : s.threadNum = 0
  · rw [loopShape_start_zero hzero]
    have hnot : ¬ PoolShape.Has ⟨0, s.threadNum, s.threadNum, false⟩ j := by simp [PoolShape.Has, hzero]
    exact (hfits j).reshape (by simp [PoolShape.Has, hzero]) (fun hj => absurd hj hnot) (fun _ _ => rfl)
  · rw [loopShape_start_ne hzero]
    exact hfits j

/-- `end` sets the end flag. -/
theorem ThreadPool.Shaped.storeTrue (h : s.Shaped maxNumThreads) {n : ℕ}
    (hpc : s.lifecycle = some (.storeTrue n)) :
    ({ s with endFlag := true }.setLife (some (.worker (.stop n) 0))).Shaped maxNumThreads := by
  have hlife : LifeOk maxNumThreads s.threadNum s.endFlag (some (.storeTrue n)) := hpc ▸ h.life
  refine shaped_of_pushers (h.alone (by simp [hpc])) (fun j => ?_)
    (fun hstopping => by cases hstopping) ⟨hlife.1, Nat.zero_le n, hlife.2, rfl⟩
  have hj := h.fits j
  rw [hpc] at hj
  exact hj.reshape Iff.rfl (fun _ => rfl) (fun _ hstopping => by cases hstopping)

/-- `start` or `end` has gone over all workers. -/
theorem ThreadPool.Shaped.finishLoop (h : s.Shaped maxNumThreads) {c : LifeCall} {i : ℕ}
    (hpc : s.lifecycle = some (.worker c i)) (hi : c.count ≤ i) : (s.finishLoop c).Shaped maxNumThreads := by
  have hpushers : s.pushers = [] := h.alone (by simp [hpc])
  have hthread := h.fits
  rw [hpc] at hthread
  cases c with
  | start n =>
    have hlife : LifeOk maxNumThreads s.threadNum s.endFlag (some (.worker (.start n) i)) := hpc ▸ h.life
    obtain ⟨hmax, hle, hpos, hflag, hrunning⟩ := hlife
    obtain rfl : i = n := le_antisymm hle hi
    have hzero : s.threadNum = 0 := by
      by_contra hne
      exact hpos.ne' (hrunning hne)
    refine shaped_of_pushers hpushers (fun j => ?_) (fun _ _ => hflag) hmax
    have hj := hthread j
    change (s.workers j).Fits (loopShape s.threadNum i (.start i)) j at hj
    rw [loopShape_start_zero hzero] at hj
    exact hj
  | stop n =>
    have hlife : LifeOk maxNumThreads s.threadNum s.endFlag (some (.worker (.stop n) i)) := hpc ▸ h.life
    obtain ⟨-, -, hzero, -⟩ := hlife
    have hcount : n ≤ i := hi
    have hdone : (s.setLife none).Shaped maxNumThreads := by
      refine shaped_of_pushers hpushers (fun j => ?_) (fun _ hbound => ?_) (hzero ▸ Nat.zero_le maxNumThreads)
      · have hj := hthread j
        change (s.workers j).Fits ⟨i, n, n, true⟩ j at hj
        change (s.workers j).Fits ⟨0, s.threadNum, s.threadNum, false⟩ j
        have hnot : ¬ PoolShape.Has ⟨i, n, n, true⟩ j := fun hj => absurd (hj.1.trans_lt hj.2) (Nat.not_lt.mpr hcount)
        exact hj.reshape (iff_of_false (by simp [PoolShape.Has, hzero]) hnot) (fun hj => absurd hj hnot)
          (fun hj => absurd hj hnot)
      · change 0 < s.threadNum at hbound
        exact absurd hzero hbound.ne'
    exact hdone.record _

/-- `end` has joined a thread. -/
theorem ThreadPool.Shaped.joined (h : s.Shaped maxNumThreads) {n i : ℕ}
    (hpc : s.lifecycle = some (.join (.stop n) i)) (hthread : (s.workers i).thread = some .finished) :
    ((s.setWorker i { s.workers i with thread := none }).setLife
      (some (.worker (.stop n) (i + 1)))).Shaped maxNumThreads := by
  have hlife : LifeOk maxNumThreads s.threadNum s.endFlag (some (.join (.stop n) i)) := hpc ▸ h.life
  have hfits : ∀ j, (s.workers j).Fits ⟨i, n, n, true⟩ j := by
    intro j
    have hj := h.fits j
    rw [hpc] at hj
    exact hj
  refine shaped_of_pushers (h.alone (by simp [hpc])) (fun j => ?_) (fun hstopping => by cases hstopping)
    ⟨hlife.1, hlife.2.1, hlife.2.2⟩
  change ((s.setWorker i { s.workers i with thread := none }).workers j).Fits ⟨i + 1, n, n, true⟩ j
  by_cases hj : j = i
  · subst hj
    have hempty : PoolWorker.pending { s.workers j with thread := none } = [] := by
      rw [(s.workers j).pending_join hthread]
      exact (hfits j).drained hthread
    simp only [ThreadPool.setWorker, Function.update_self]
    exact ⟨by simp [PoolShape.Has], by simp [hempty], by simp, by simp⟩
  · simp only [ThreadPool.setWorker, Function.update_of_ne hj]
    refine (hfits j).reshape ⟨fun hhas => ⟨(Nat.le_succ i).trans hhas.1, hhas.2⟩, fun hhas => ?_⟩
      (fun _ => rfl) (fun _ hstopping => hstopping)
    exact ⟨Nat.lt_of_le_of_ne hhas.1 (Ne.symm hj), hhas.2⟩

/-- `start` has made a thread. -/
theorem ThreadPool.Shaped.spawned (h : s.Shaped maxNumThreads) {n i : ℕ}
    (hpc : s.lifecycle = some (.spawn n i)) :
    ((s.setWorker i ((s.workers i).goto (.test .untilEnd))).setLife
      (some (.worker (.start n) (i + 1)))).Shaped maxNumThreads := by
  have hlife : LifeOk maxNumThreads s.threadNum s.endFlag (some (.spawn n i)) := hpc ▸ h.life
  obtain ⟨hmax, hi, hzero, hflag⟩ := hlife
  have hfits : ∀ j, (s.workers j).Fits ⟨0, i, n, false⟩ j := by
    intro j
    have hj := h.fits j
    rw [hpc] at hj
    change (s.workers j).Fits (loopShape s.threadNum i (.start n)) j at hj
    rw [loopShape_start_zero hzero] at hj
    exact hj
  refine shaped_of_pushers (h.alone (by simp [hpc])) (fun j => ?_) (fun _ _ => hflag)
    ⟨hmax, hi, (Nat.zero_le i).trans_lt hi, hflag, fun hne => absurd hzero hne⟩
  change ((s.setWorker i _).workers j).Fits (loopShape s.threadNum (i + 1) (.start n)) j
  rw [loopShape_start_zero hzero]
  by_cases hj : j = i
  · subst hj
    have hnot : ¬ PoolShape.Has ⟨0, j, n, false⟩ j := fun hhas => lt_irrefl j hhas.2
    have hthread : (s.workers j).thread = none := by
      rw [← Option.not_isSome_iff_eq_none, (hfits j).joinable]
      exact hnot
    have hempty : ((s.workers j).goto (.test .untilEnd)).pending = [] := by
      rw [(s.workers j).pending_goto_test hthread]
      exact (hfits j).pending_eq_nil hnot
    simp only [ThreadPool.setWorker, Function.update_self]
    refine ⟨by simp [PoolWorker.goto, PoolShape.Has], by simp [hempty], fun _ pc hpc' => ?_, fun _ => hempty⟩
    cases hpc'
    rfl
  · simp only [ThreadPool.setWorker, Function.update_of_ne hj]
    refine (hfits j).reshape ⟨fun hhas => ⟨hhas.1, ?_⟩, fun hhas => ⟨hhas.1, hhas.2.trans (Nat.lt_succ_self i)⟩⟩
      (fun _ => rfl) (fun _ hstopping => hstopping)
    exact Nat.lt_of_le_of_ne (Nat.lt_succ_iff.mp hhas.2) hj

/-- A step of a call of `start` or `end` keeps the shape. -/
theorem ThreadPool.Shaped.stepLife (h : s.Shaped maxNumThreads) {pc : LifePc} (hpc : s.lifecycle = some pc)
    (hstep : LifeStep s pc next) : next.Shaped maxNumThreads := by
  have hbusy : s.lifecycle ≠ none := by simp [hpc]
  have hlife := h.life
  rw [hpc] at hlife
  have hshape (pc' : Option LifePc) (hsame : poolShape s.threadNum pc' = poolShape s.threadNum (some pc)) :
      poolShape s.threadNum pc' = poolShape s.threadNum s.lifecycle := by rw [hpc, hsame]
  cases hstep with
  | storeFalse => exact h.storeFalse hpc
  | exchange =>
    have hfits := h.fits
    have hflag := h.flag
    rw [hpc] at hfits hflag
    exact shaped_of_pushers (h.alone hbusy) hfits hflag ⟨hlife, rfl⟩
  | storeTrue => exact h.storeTrue hpc
  | @dummy c i hi hthread =>
    refine (h.setWorker (h.fits i).pushDummy).setLife hbusy (hshape _ rfl) ?_
    cases c with
    | start n =>
      have hne := (h.start_thread hpc).mp hthread
      exact ⟨hlife.2.2.2.2 hne, hne, hlife.2.2.2.1⟩
    | stop n => exact ⟨hlife.1, hi, hlife.2.2⟩
  | @skip c i hi hthread =>
    cases c with
    | start n =>
      refine h.setLife hbusy (hshape _ rfl) ⟨hlife.1, hi, ?_, hlife.2.2.2.1⟩
      by_contra hne
      have hsome := (h.start_thread hpc).mpr hne
      rw [hthread] at hsome
      cases hsome
    | stop n =>
      have hhas := (h.fits i).joinable.mpr (by rw [hpc]; exact ⟨le_rfl, hi⟩)
      rw [hthread] at hhas
      cases hhas
  | finish hi => exact h.finishLoop hpc hi
  | @notify c i =>
    refine (h.setWorker (h.fits i).notifyOne).setLife hbusy (hshape _ rfl) ?_
    cases c with
    | start n => exact hlife
    | stop n => exact hlife
  | @join c i hthread =>
    cases c with
    | start n => exact absurd hthread (h.not_joined_start hpc)
    | stop n => exact h.joined hpc hthread
  | spawn => exact h.spawned hpc

/-- Every step keeps the shape of the pool. -/
theorem ThreadPool.Shaped.step {a : PoolAction} (h : s.Shaped maxNumThreads)
    (hstep : PoolStep maxNumThreads s a next) : next.Shaped maxNumThreads := by
  cases hstep with
  | enter hfree =>
    refine ⟨h.fits, h.flag, h.life, fun hbusy => absurd hfree hbusy, fun hash n hmem => ?_⟩
    exact h.loaded hash n (by simpa using hmem)
  | push hpc => exact h.stepPush hpc
  | refused => exact h
  | start hpos hmax hfree hpushers =>
    have hlife := h.life
    have hfits := h.fits
    have hflag := h.flag
    rw [hfree] at hlife hfits hflag
    exact shaped_of_pushers hpushers hfits hflag ⟨hlife, hpos, hmax⟩
  | stop hfree hpushers =>
    have hlife := h.life
    have hfits := h.fits
    have hflag := h.flag
    rw [hfree] at hlife hfits hflag
    have hacquired : (s.setLife (some .exchange)).Shaped maxNumThreads :=
      shaped_of_pushers hpushers hfits hflag hlife
    exact hacquired.record _
  | life hpc hlife => exact h.stepLife hpc hlife
  | @thread i w events hthread => exact (h.setWorker ((h.fits i).threadStep h.flag_of_has hthread)).record events
  | @wake i loop hthread => exact h.setWorker ((h.fits i).wake hthread)

end Steps

end TcpClb
