import Mathlib.Data.Prod.Lex
import TcpClb.ThreadPoolShape

/-!
# Starting and ending the thread pool

A call of `end` on a running pool, and a call of `start` on a stopped one, can always complete: the thread that
`end` waits for has been woken, sees the end flag, and runs what is in its queue.

`start` on a running pool cannot. It clears the end flag before it asks the old threads to end, so the first
of them takes the empty task, stays in its first loop, and is waited for without end. Every step from
there keeps the call where it is. So the pool never wedges in exactly those runs in which `start` gets `_mtx`
only while the pool is stopped.
-/

namespace TcpClb

open TcpClb.Common

/-- The worker has a thread that has not finished. -/
def PoolWorker.Active (w : PoolWorker) : Prop := ∃ pc, w.thread = some pc ∧ pc ≠ .finished

/-- A step that a call in progress or a thread makes by itself. -/
def PoolAction.Own : PoolAction → Prop
  | .push _ => True
  | .life => True
  | .thread _ => True
  | _ => False

/-- Every thread that a call of `start` or `end` waits for can finish, the calls that hold `_mtx` can complete,
and once no call of `start` or `end` holds it exactly the first `threadNum()` workers have running threads. -/
structure ThreadPool.NeverWedged (maxNumThreads : ℕ) (s : ThreadPool) : Prop where
  joins : ∀ c i, s.lifecycle = some (.join c i) → ∃ acts t, (∀ a ∈ acts, a.Own) ∧
    runActions (poolStep maxNumThreads) s acts = some t ∧ (t.workers i).thread = some .finished
  completes : ∃ acts t, (∀ a ∈ acts, a.Own) ∧
    runActions (poolStep maxNumThreads) s acts = some t ∧ t.lifecycle = none ∧ t.pushers = []
  threads : s.lifecycle = none → ∀ i, (s.workers i).Active ↔ i < s.threadNum

/-- If this step is a call of `start` that gets `_mtx`, the pool is stopped. -/
def StartsStopped (maxNumThreads : ℕ) (s : ThreadPool) (a : PoolAction) : Prop :=
  ∀ n, a = .start n → 0 < n → n ≤ maxNumThreads → s.threadNum = 0

/-- The call is one of `start`. -/
def LifePc.Starting : LifePc → Prop
  | .storeFalse _ => True
  | .worker (.start _) _ => True
  | .notify (.start _) _ => True
  | .join (.start _) _ => True
  | .spawn _ _ => True
  | _ => False

/-- The thread will find something in the queue, once it looks. -/
def PoolWorker.Fed (w : PoolWorker) : Prop :=
  ∀ loop, w.thread = some (.pop loop) ∨ w.thread = some (.waiting loop) → w.queue ≠ []

/-- The thread does not wait, and will not with its next step. -/
def PoolWorker.Awake (w : PoolWorker) : Prop :=
  ∀ loop, w.thread ≠ some (.waiting loop) ∧ (w.thread = some (.pop loop) → w.queue ≠ [])

/-- What holds of a pool while `start` is only called on stopped pools. -/
structure ThreadPool.Healthy (maxNumThreads : ℕ) (s : ThreadPool) : Prop where
  shaped : s.Shaped maxNumThreads
  fresh : ∀ pc, s.lifecycle = some pc → pc.Starting → s.threadNum = 0
  fed : ∀ c i, s.lifecycle = some (.notify c i) → (s.workers i).Fed
  awake : ∀ c i, s.lifecycle = some (.join c i) → (s.workers i).Awake

/-- A call of `start` on a running pool holds `_mtx`. -/
structure ThreadPool.Doomed (maxNumThreads : ℕ) (s : ThreadPool) : Prop where
  shaped : s.Shaped maxNumThreads
  running : s.threadNum ≠ 0
  starting : ∃ pc, s.lifecycle = some pc ∧ pc.Starting

/-- How many steps a thread is from its end, apart from the jobs in the queue. -/
def ThreadPc.weight : ThreadPc → ℕ
  | .call _ _ => 5
  | .running _ _ => 4
  | .test .untilEnd => 3
  | .test .untilEmpty => 2
  | .pop _ => 1
  | .waiting _ => 0
  | .finished => 0

/-- A bound on the steps of a thread that sees the end flag, while nothing is appended to its queue. -/
def PoolWorker.weight (w : PoolWorker) : ℕ := 8 * w.queue.length + w.thread.elim 0 ThreadPc.weight

/-- How many steps a call of `start` or `end` still has to make. -/
def LifePc.rank (threadNum : ℕ) : LifePc → ℕ
  | .exchange => 4 * threadNum + 3
  | .storeFalse n => 4 * n + 2
  | .storeTrue n => 4 * n + 2
  | .worker c i => 4 * (c.count - i) + 1
  | .notify c i => 4 * (c.count - (i + 1)) + 4
  | .join c i => 4 * (c.count - (i + 1)) + 3
  | .spawn n i => 4 * (n - (i + 1)) + 2

/-- How many steps a call of `push` still has to make, at most. -/
def PushPc.rank : PushPc → ℕ
  | .entered _ => 4
  | .loaded _ _ => 3
  | .appended _ _ => 2
  | .notified _ => 1

/-- How many steps these calls of `push` still have to make together, at most. -/
def pushersRank : List PushPc → ℕ
  | [] => 0
  | pc :: rest => pc.rank + pushersRank rest

/-- How many steps the calls that hold `_mtx` still have to make, at most. -/
def ThreadPool.callRank (s : ThreadPool) : ℕ :=
  s.lifecycle.elim 0 (LifePc.rank s.threadNum) + pushersRank s.pushers

/-- The weight of the worker whose thread is waited for. -/
def ThreadPool.joinWeight (s : ThreadPool) : ℕ :=
  match s.lifecycle with
  | some (.join _ i) => (s.workers i).weight
  | _ => 0

section Workers

variable {w w' : PoolWorker} {events : List (LaneEvent UInt32 PoolMark)}

/-- A queue that something was appended to is not empty. -/
theorem PoolWorker.fed_pushBack (w : PoolWorker) (job : Job) : (w.pushBack job).Fed := by
  intro loop _
  simp [PoolWorker.pushBack]

/-- A thread that is notified wakes, and finds something. -/
theorem PoolWorker.Fed.notifyOne (h : w.Fed) : w.notifyOne.Awake := by
  intro loop
  rw [PoolWorker.notifyOne]
  split
  · rename_i loop' hthread
    exact ⟨by simp [PoolWorker.goto], fun _ => h loop' (.inr hthread)⟩
  · rename_i hnot
    exact ⟨hnot loop, fun hpop => h loop (.inl hpop)⟩

/-- A thread that sees the end flag goes on finding something. -/
theorem PoolWorker.Fed.threadStep (h : w.Fed) (hstep : ThreadStep true w w' events) : w'.Fed := by
  cases hstep with
  | leaveFirst | leaveSecond | take | begin | finish => simp [PoolWorker.Fed]
  | stayFirst hend => cases hend
  | staySecond hfull => exact fun _ _ => hfull
  | @wait loop => exact absurd rfl (h loop (.inl rfl))

/-- A thread that sees the end flag goes on without waiting. -/
theorem PoolWorker.Awake.threadStep (h : w.Awake) (hstep : ThreadStep true w w' events) : w'.Awake := by
  cases hstep with
  | leaveFirst | leaveSecond | take | begin | finish => simp [PoolWorker.Awake]
  | stayFirst hend => cases hend
  | staySecond hfull => exact fun _ => ⟨by simp, fun _ => hfull⟩
  | @wait loop => exact absurd rfl ((h loop).2 rfl)

/-- A thread that sees the end flag gets closer to its end. -/
theorem PoolWorker.Awake.weight_lt (h : w.Awake) (hstep : ThreadStep true w w' events) : w'.weight < w.weight := by
  cases hstep with
  | leaveFirst | leaveSecond | staySecond | begin => simp [PoolWorker.weight, ThreadPc.weight]
  | stayFirst hend => cases hend
  | @wait loop => exact absurd rfl ((h loop).2 rfl)
  | @take loop job q =>
    simp only [PoolWorker.weight, ThreadPc.weight, List.length_cons, Option.elim_some]
    omega
  | @finish loop job q => cases loop <;> simp [PoolWorker.weight, ThreadPc.weight]

/-- A thread that does not wait and has not finished has a next step. -/
theorem PoolWorker.Awake.exists_step (h : w.Awake) (endFlag : Bool) (hactive : w.Active) :
    ∃ r, TcpClb.threadStep endFlag w = some r := by
  obtain ⟨pc, hpc, hrunning⟩ := hactive
  rw [TcpClb.threadStep, hpc]
  cases pc with
  | test loop => cases loop <;> exact ⟨_, rfl⟩
  | pop loop => cases w.queue <;> exact ⟨_, rfl⟩
  | waiting loop => exact absurd hpc (h loop).1
  | call loop job => exact ⟨_, rfl⟩
  | running loop job => exact ⟨_, rfl⟩
  | finished => exact absurd rfl hrunning

end Workers

section Calls

variable {maxNumThreads : ℕ} {s next : ThreadPool} {pc : LifePc}

/-- A call of `start` that goes on, and one that is still one of `start`. -/
theorem LifeStep.starting (hstep : LifeStep s pc next) {pc' : LifePc} (hnext : next.lifecycle = some pc')
    (hpc' : pc'.Starting) : pc.Starting ∧ next.threadNum = s.threadNum := by
  cases hstep with
  | storeFalse | spawn => exact ⟨trivial, rfl⟩
  | exchange | storeTrue =>
    cases hnext
    cases hpc'
  | @dummy c | @skip c | @notify c | @join c =>
    cases hnext
    cases c with
    | start n => exact ⟨trivial, rfl⟩
    | stop n => cases hpc'
  | @finish c =>
    cases c with
    | start n => cases hnext
    | stop n => cases hnext

/-- Every step of a call of `start` or `end` brings it closer to its end. -/
theorem LifeStep.rank_lt (hstep : LifeStep s pc next) :
    next.lifecycle.elim 0 (LifePc.rank next.threadNum) < pc.rank s.threadNum := by
  cases hstep with
  | storeFalse | storeTrue | exchange | notify | spawn => simp [ThreadPool.setLife, LifePc.rank, LifeCall.count]
  | @dummy c i hi =>
    simp only [ThreadPool.setLife, LifePc.rank, Option.elim_some]
    omega
  | @skip c i hi =>
    cases c with
    | start n =>
      have hi' : i < n := hi
      simp only [ThreadPool.setLife, LifePc.rank, LifeCall.next, LifeCall.count, Option.elim_some]
      omega
    | stop n =>
      have hi' : i < n := hi
      simp only [ThreadPool.setLife, LifePc.rank, LifeCall.next, LifeCall.count, Option.elim_some]
      omega
  | @finish c i hi => cases c <;> simp [ThreadPool.finishLoop, ThreadPool.setLife, ThreadPool.record, LifePc.rank]
  | @join c i hthread =>
    cases c <;> simp [ThreadPool.setLife, ThreadPool.setWorker, LifePc.rank, LifeCall.next, LifeCall.count]

/-- Only a join can make a call of `start` or `end` wait. -/
theorem exists_lifeStep (s : ThreadPool) (hpc : ∀ c i, pc = .join c i → (s.workers i).thread = some .finished) :
    ∃ next, lifeStep s pc = some next := by
  cases pc with
  | storeFalse | exchange | storeTrue | notify | spawn => exact ⟨_, rfl⟩
  | worker c i =>
    rw [lifeStep]
    by_cases hi : i < c.count
    · rw [if_pos hi]
      by_cases hthread : (s.workers i).thread.isSome
      · exact ⟨_, if_pos hthread⟩
      · exact ⟨_, if_neg hthread⟩
    · exact ⟨_, if_neg hi⟩
  | join c i => exact ⟨_, if_pos (hpc c i rfl)⟩

/-- Every step of a call of `push` brings it closer to its end. -/
theorem pushStep_rank_lt {pc : PushPc} {rest : List PushPc} (hpushers : s.pushers = pc :: rest) :
    pushersRank (pushStep s 0 pc).pushers < pushersRank s.pushers := by
  cases pc with
  | entered | appended | notified =>
    simp [pushStep, ThreadPool.setPusher, ThreadPool.leave, ThreadPool.record, ThreadPool.setWorker, hpushers,
      pushersRank, PushPc.rank]
  | loaded hash n =>
    rw [pushStep]
    by_cases hn : n = 0
    · simp [hn, ThreadPool.leave, hpushers, pushersRank, PushPc.rank]
    · simp [hn, ThreadPool.setPusher, ThreadPool.append, ThreadPool.record, ThreadPool.setWorker, hpushers,
        pushersRank, PushPc.rank]

/-- A call of `push` does not change whether a call of `start` or `end` holds `_mtx`. -/
theorem pushStep_lifecycle (s : ThreadPool) (k : ℕ) (pc : PushPc) :
    (pushStep s k pc).lifecycle = s.lifecycle := by
  cases pc with
  | entered | appended | notified => rfl
  | loaded hash n =>
    rw [pushStep]
    by_cases hn : n = 0
    · rw [if_pos hn]
      rfl
    · rw [if_neg hn]
      rfl

end Calls

section Runs

variable {maxNumThreads : ℕ} {s next : ThreadPool}

/-- Only `end` waits for a thread, and it has set the end flag. -/
theorem ThreadPool.Healthy.endFlag_eq_true (h : s.Healthy maxNumThreads) {c : LifeCall} {i : ℕ}
    (hpc : s.lifecycle = some (.notify c i) ∨ s.lifecycle = some (.join c i)) : s.endFlag = true := by
  have hlife := h.shaped.life
  cases c with
  | start n =>
    have hzero : s.threadNum = 0 := hpc.elim (fun hn => h.fresh _ hn trivial) (fun hj => h.fresh _ hj trivial)
    rcases hpc with hpc | hpc <;>
    · rw [hpc] at hlife
      exact absurd hzero hlife.2.1
  | stop n =>
    rcases hpc with hpc | hpc <;>
    · rw [hpc] at hlife
      exact hlife.2.2.2

/-- A step of a thread, or its waking. -/
theorem ThreadPool.Healthy.setWorker (h : s.Healthy maxNumThreads) {i : ℕ} {w : PoolWorker}
    {events : List (LaneEvent UInt32 PoolMark)} (hshaped : ((s.setWorker i w).record events).Shaped maxNumThreads)
    (hfed : s.endFlag = true → (s.workers i).Fed → w.Fed)
    (hawake : s.endFlag = true → (s.workers i).Awake → w.Awake) :
    ((s.setWorker i w).record events).Healthy maxNumThreads where
  shaped := hshaped
  fresh := h.fresh
  fed := by
    intro c j hpc
    change (Function.update s.workers i w j).Fed
    by_cases hj : j = i
    · subst hj
      rw [Function.update_self]
      exact hfed (h.endFlag_eq_true (.inl hpc)) (h.fed c j hpc)
    · rw [Function.update_of_ne hj]
      exact h.fed c j hpc
  awake := by
    intro c j hpc
    change (Function.update s.workers i w j).Awake
    by_cases hj : j = i
    · subst hj
      rw [Function.update_self]
      exact hawake (h.endFlag_eq_true (.inr hpc)) (h.awake c j hpc)
    · rw [Function.update_of_ne hj]
      exact h.awake c j hpc

/-- A pool in which no call of `start` or `end` holds `_mtx`. -/
theorem healthy_of_free (hshaped : s.Shaped maxNumThreads) (hfree : s.lifecycle = none) :
    s.Healthy maxNumThreads :=
  ⟨hshaped, by simp [hfree], by simp [hfree], by simp [hfree]⟩

/-- A step of a call of `start` or `end` in a pool that is as it should be. -/
theorem ThreadPool.Healthy.stepLife (h : s.Healthy maxNumThreads) {pc : LifePc} (hpc : s.lifecycle = some pc)
    (hstep : LifeStep s pc next) : next.Healthy maxNumThreads where
  shaped := h.shaped.stepLife hpc hstep
  fresh := by
    intro pc' hnext hpc'
    obtain ⟨hstarting, hnum⟩ := hstep.starting hnext hpc'
    exact hnum.trans (h.fresh pc hpc hstarting)
  fed := by
    intro c j hnext
    cases hstep with
    | storeFalse | exchange | storeTrue | notify | spawn => cases hnext
    | @dummy c i =>
      cases hnext
      simpa [ThreadPool.setLife, ThreadPool.setWorker] using
        PoolWorker.fed_pushBack _ .dummy
    | @skip c | @join c | @finish c => cases c <;> cases hnext
  awake := by
    intro c j hnext
    cases hstep with
    | storeFalse | exchange | storeTrue | dummy | spawn => cases hnext
    | @notify c i =>
      cases hnext
      simpa [ThreadPool.setLife, ThreadPool.setWorker] using (h.fed c _ hpc).notifyOne
    | @skip c | @join c | @finish c => cases c <;> cases hnext

/-- A pool stays as it should be while `start` only gets `_mtx` when the pool is stopped. -/
theorem ThreadPool.Healthy.step {a : PoolAction} (h : s.Healthy maxNumThreads)
    (hcond : StartsStopped maxNumThreads s a) (hstep : PoolStep maxNumThreads s a next) :
    next.Healthy maxNumThreads := by
  have hshaped := h.shaped.step hstep
  cases hstep with
  | enter hfree => exact healthy_of_free hshaped hfree
  | @push k pc hpc =>
    exact healthy_of_free hshaped ((pushStep_lifecycle s k pc).trans (h.shaped.lifecycle_eq_none hpc))
  | refused => exact h
  | @start n hpos hmax hfree hpushers =>
    exact ⟨hshaped, fun _ _ _ => hcond n rfl hpos hmax, by simp [ThreadPool.setLife],
      by simp [ThreadPool.setLife]⟩
  | stop hfree hpushers =>
    refine ⟨hshaped, fun pc hpc hstarting => ?_, by simp [ThreadPool.setLife, ThreadPool.record],
      by simp [ThreadPool.setLife, ThreadPool.record]⟩
    cases hpc
    cases hstarting
  | life hpc hlife => exact h.stepLife hpc hlife
  | thread hthread =>
    exact h.setWorker hshaped (fun hend hfed => hfed.threadStep (hend ▸ hthread))
      (fun hend hawake => hawake.threadStep (hend ▸ hthread))
  | @wake i loop hthread =>
    have hrecord : ((s.setWorker i ((s.workers i).goto (.pop loop))).record []).Healthy maxNumThreads :=
      h.setWorker (hshaped.record []) (fun _ hfed _ _ => hfed loop (.inr hthread))
        (fun _ hawake => absurd hthread (hawake loop).1)
    exact ⟨hshaped, hrecord.fresh, hrecord.fed, hrecord.awake⟩

/-- A worker that is waited for has a thread. -/
theorem ThreadPool.Healthy.isSome_of_join (h : s.Healthy maxNumThreads) {c : LifeCall} {i : ℕ}
    (hpc : s.lifecycle = some (.join c i)) : (s.workers i).thread.isSome := by
  have hlife := h.shaped.life
  rw [hpc] at hlife
  cases c with
  | start n => exact absurd (h.fresh _ hpc trivial) hlife.2.1
  | stop n =>
    rw [(h.shaped.fits i).joinable, hpc]
    exact ⟨le_rfl, hlife.2.1⟩

/-- A thread that is waited for gets closer to its end with every step. -/
theorem ThreadPool.Healthy.join_progress (h : s.Healthy maxNumThreads) {c : LifeCall} {i : ℕ}
    (hpc : s.lifecycle = some (.join c i)) (hrunning : (s.workers i).thread ≠ some .finished) :
    ∃ next, poolStep maxNumThreads s (.thread i) = some next ∧ next.Healthy maxNumThreads ∧
      next.lifecycle = s.lifecycle ∧ next.threadNum = s.threadNum ∧ next.pushers = s.pushers ∧
      (next.workers i).weight < (s.workers i).weight := by
  have hactive : (s.workers i).Active := by
    obtain ⟨pc, hthread⟩ := Option.isSome_iff_exists.mp (h.isSome_of_join hpc)
    exact ⟨pc, hthread, fun hfinished => hrunning (hfinished ▸ hthread)⟩
  obtain ⟨⟨w, events⟩, hthread⟩ := (h.awake c i hpc).exists_step s.endFlag hactive
  have hstep : poolStep maxNumThreads s (.thread i) = some ((s.setWorker i w).record events) := by
    rw [poolStep, hthread, Option.map_some]
  have hlt : w.weight < (s.workers i).weight := by
    have hcases := threadStep_cases hthread
    rw [h.endFlag_eq_true (.inr hpc)] at hcases
    exact (h.awake c i hpc).weight_lt hcases
  refine ⟨_, hstep, h.step (by simp [StartsStopped]) (poolStep_cases hstep), rfl, rfl, rfl, ?_⟩
  simpa [ThreadPool.record, ThreadPool.setWorker] using hlt

/-- A thread that is waited for can finish. -/
theorem ThreadPool.Healthy.joins (h : s.Healthy maxNumThreads) {c : LifeCall} {i : ℕ}
    (hpc : s.lifecycle = some (.join c i)) :
    ∃ acts t, (∀ a ∈ acts, a.Own) ∧ runActions (poolStep maxNumThreads) s acts = some t ∧
      (t.workers i).thread = some .finished := by
  refine exists_run_of_measure (poolStep maxNumThreads) PoolAction.Own
    (fun s => s.Healthy maxNumThreads ∧ s.lifecycle = some (.join c i)) _ (fun s => (s.workers i).weight) ?_ ⟨h, hpc⟩
  rintro s ⟨hs, hjoin⟩
  by_cases hfinished : (s.workers i).thread = some .finished
  · exact .inl hfinished
  · obtain ⟨next, hstep, hnext, hsame, -, -, hlt⟩ := hs.join_progress hjoin hfinished
    exact .inr ⟨.thread i, next, trivial, hstep, ⟨hnext, hsame.trans hjoin⟩, hlt⟩

/-- While a call holds `_mtx`, the pool has a step that brings the calls, or the thread that is waited for,
closer to the end. -/
theorem ThreadPool.Healthy.progress (h : s.Healthy maxNumThreads) :
    (s.lifecycle = none ∧ s.pushers = []) ∨ ∃ a next, a.Own ∧ poolStep maxNumThreads s a = some next ∧
      next.Healthy maxNumThreads ∧ toLex (next.callRank, next.joinWeight) < toLex (s.callRank, s.joinWeight) := by
  cases hlifecycle : s.lifecycle with
  | none =>
    cases hpushers : s.pushers with
    | nil => exact .inl ⟨rfl, rfl⟩
    | cons pc rest =>
      have hstep : poolStep maxNumThreads s (.push 0) = some (pushStep s 0 pc) := by
        rw [poolStep, hpushers]
        rfl
      refine .inr ⟨.push 0, _, trivial, hstep, h.step (by simp [StartsStopped]) (poolStep_cases hstep), ?_⟩
      apply Prod.Lex.toLex_lt_toLex.mpr
      left
      simpa [ThreadPool.callRank, pushStep_lifecycle, hlifecycle] using pushStep_rank_lt hpushers
  | some pc =>
    have hpushers : s.pushers = [] := h.shaped.alone (by simp [hlifecycle])
    by_cases hwaits : ∃ c i, pc = .join c i ∧ (s.workers i).thread ≠ some .finished
    · obtain ⟨c, i, rfl, hrunning⟩ := hwaits
      obtain ⟨next, hstep, hnext, hsame, hnum, hkept, hlt⟩ := h.join_progress hlifecycle hrunning
      refine .inr ⟨.thread i, next, trivial, hstep, hnext, ?_⟩
      apply Prod.Lex.toLex_lt_toLex.mpr
      right
      simp only [ThreadPool.callRank, ThreadPool.joinWeight, hsame, hnum, hkept, hlifecycle]
      exact ⟨trivial, hlt⟩
    · have hfinished : ∀ c i, pc = .join c i → (s.workers i).thread = some .finished := by
        intro c i hpc
        by_contra hrunning
        exact hwaits ⟨c, i, hpc, hrunning⟩
      obtain ⟨next, hlife⟩ := exists_lifeStep s hfinished
      have hstep : poolStep maxNumThreads s .life = some next := by
        rw [poolStep, hlifecycle]
        exact hlife
      refine .inr ⟨.life, next, trivial, hstep, h.step (by simp [StartsStopped]) (poolStep_cases hstep), ?_⟩
      apply Prod.Lex.toLex_lt_toLex.mpr
      left
      have hcases := lifeStep_cases hlife
      simpa [ThreadPool.callRank, hlifecycle, hpushers, hcases.kept.1] using hcases.rank_lt

/-- The calls that hold `_mtx` can complete. -/
theorem ThreadPool.Healthy.completes (h : s.Healthy maxNumThreads) :
    ∃ acts t, (∀ a ∈ acts, a.Own) ∧ runActions (poolStep maxNumThreads) s acts = some t ∧
      t.lifecycle = none ∧ t.pushers = [] :=
  exists_run_of_measure (poolStep maxNumThreads) PoolAction.Own (ThreadPool.Healthy maxNumThreads) _
    (fun s => toLex (s.callRank, s.joinWeight)) (fun _ hs => hs.progress) h

/-- While no call of `start` or `end` holds `_mtx`, the first workers have running threads. -/
theorem ThreadPool.Shaped.threads (h : s.Shaped maxNumThreads) (hfree : s.lifecycle = none) (i : ℕ) :
    (s.workers i).Active ↔ i < s.threadNum := by
  have hshape : poolShape s.threadNum s.lifecycle = ⟨0, s.threadNum, s.threadNum, false⟩ := by
    rw [hfree]
    rfl
  have hfits := h.fits i
  rw [hshape] at hfits
  have hhas : (s.workers i).thread.isSome ↔ i < s.threadNum :=
    hfits.joinable.trans ⟨fun hi => hi.2, fun hi => ⟨Nat.zero_le i, hi⟩⟩
  rw [← hhas, Option.isSome_iff_exists]
  constructor
  · rintro ⟨pc, hpc, -⟩
    exact ⟨pc, hpc⟩
  · rintro ⟨pc, hpc⟩
    refine ⟨pc, hpc, fun hfinished => ?_⟩
    have hloop := hfits.firstLoop rfl pc hpc
    rw [hfinished] at hloop
    cases hloop

/-- A pool that is as it should be is not wedged. -/
theorem ThreadPool.Healthy.neverWedged (h : s.Healthy maxNumThreads) : s.NeverWedged maxNumThreads :=
  ⟨fun _ _ hpc => h.joins hpc, h.completes, h.shaped.threads⟩

/-- A call of `start` on a running pool goes on and on. -/
theorem ThreadPool.Doomed.step {a : PoolAction} (h : s.Doomed maxNumThreads)
    (hstep : PoolStep maxNumThreads s a next) : next.Doomed maxNumThreads := by
  have hshaped := h.shaped.step hstep
  obtain ⟨pc, hpc, hstarting⟩ := h.starting
  cases hstep with
  | enter hfree | start _ _ hfree | stop hfree =>
    rw [hpc] at hfree
    cases hfree
  | push hpush =>
    rw [h.shaped.lifecycle_eq_none hpush] at hpc
    cases hpc
  | refused => exact h
  | thread | wake => exact ⟨hshaped, h.running, pc, hpc, hstarting⟩
  | life hpc' hlife =>
    obtain rfl : pc = _ := Option.some.inj (hpc.symm.trans hpc')
    have hok := h.shaped.life
    rw [hpc] at hok
    cases hlife with
    | storeFalse => exact ⟨hshaped, h.running, _, rfl, trivial⟩
    | exchange | storeTrue => cases hstarting
    | spawn => exact absurd hok.2.2.1 h.running
    | @dummy c i hi hthread =>
      cases c with
      | start n => exact ⟨hshaped, h.running, _, rfl, trivial⟩
      | stop n => cases hstarting
    | @skip c i hi hthread =>
      cases c with
      | start n =>
        have hsome := (h.shaped.start_thread hpc).mpr h.running
        rw [hthread] at hsome
        cases hsome
      | stop n => cases hstarting
    | @finish c i hi =>
      cases c with
      | start n =>
        have hfirst : i = 0 := hok.2.2.2.2 h.running
        have hcount : n ≤ i := hi
        have hpos : 0 < n := hok.2.2.1
        omega
      | stop n => cases hstarting
    | @notify c i =>
      cases c with
      | start n => exact ⟨hshaped, h.running, _, rfl, trivial⟩
      | stop n => cases hstarting
    | @join c i hthread =>
      cases c with
      | start n => exact absurd hthread (h.shaped.not_joined_start hpc)
      | stop n => cases hstarting

/-- From a call of `start` on a running pool every run leads to one. -/
theorem ThreadPool.Doomed.run {t : ThreadPool} {acts : List PoolAction} (h : s.Doomed maxNumThreads)
    (hrun : runActions (poolStep maxNumThreads) s acts = some t) : t.Doomed maxNumThreads :=
  invariant_of_run (poolStep maxNumThreads) (ThreadPool.Doomed maxNumThreads)
    (fun _ _ _ hs hstep => hs.step (poolStep_cases hstep)) h hrun

/-- A call of `start` on a running pool cannot complete. -/
theorem ThreadPool.Doomed.not_neverWedged (h : s.Doomed maxNumThreads) : ¬ s.NeverWedged maxNumThreads := by
  intro hnever
  obtain ⟨acts, t, -, hrun, hfree, -⟩ := hnever.completes
  obtain ⟨pc, hpc, -⟩ := (h.run hrun).starting
  rw [hfree] at hpc
  cases hpc

/-- No thread of a pool on which `start` is called while it runs finishes. -/
theorem ThreadPool.Doomed.not_finished (h : s.Doomed maxNumThreads) (i : ℕ) :
    (s.workers i).thread ≠ some .finished := by
  intro hfinished
  obtain ⟨pc, hpc, hstarting⟩ := h.starting
  have hok := h.shaped.life
  rw [hpc] at hok
  have hshape : (poolShape s.threadNum s.lifecycle).stopping = false := by
    rw [hpc]
    cases pc with
    | storeFalse => rfl
    | exchange | storeTrue => cases hstarting
    | spawn => exact absurd hok.2.2.1 h.running
    | worker c | notify c | join c =>
      cases c with
      | start n =>
        change (loopShape _ _ (.start n)).stopping = false
        rw [loopShape_start_ne h.running]
      | stop n => cases hstarting
  have hloop := (h.shaped.fits i).firstLoop hshape _ hfinished
  cases hloop

/-- One step leaves the pool able to complete every call if and only if it is no call of `start` on a running
pool. -/
theorem ThreadPool.Healthy.neverWedged_step_iff {a : PoolAction} (h : s.Healthy maxNumThreads)
    (hstep : PoolStep maxNumThreads s a next) :
    next.NeverWedged maxNumThreads ↔ StartsStopped maxNumThreads s a := by
  constructor
  · intro hnever n ha hpos hmax
    by_contra hne
    have hshaped := h.shaped.step hstep
    subst ha
    cases hstep with
    | refused hn => omega
    | start =>
      have hdoomed : ThreadPool.Doomed maxNumThreads (s.setLife (some (.storeFalse n))) :=
        ⟨hshaped, hne, _, rfl, trivial⟩
      exact hdoomed.not_neverWedged hnever
  · exact fun hcond => (h.step hcond hstep).neverWedged

/-- A new pool is as it should be. -/
theorem ThreadPool.initial_healthy (maxNumThreads : ℕ) : ThreadPool.initial.Healthy maxNumThreads :=
  healthy_of_free (ThreadPool.initial_shaped maxNumThreads) rfl

/-- In a run the pool never wedges if and only if `start` gets `_mtx` only while the pool is stopped. -/
theorem poolRun_neverWedged_iff (maxNumThreads : ℕ) (acts : List PoolAction) :
    Throughout (poolStep maxNumThreads) (ThreadPool.NeverWedged maxNumThreads) ThreadPool.initial acts ↔
      EachStep (poolStep maxNumThreads) (StartsStopped maxNumThreads) ThreadPool.initial acts :=
  throughout_iff_eachStep _ _ (ThreadPool.Healthy maxNumThreads) _
    (fun _ _ _ hs _ hcond hstep => hs.step hcond (poolStep_cases hstep))
    (fun _ _ _ hs _ hstep => hs.neverWedged_step_iff (poolStep_cases hstep)) _ acts
    (ThreadPool.initial_healthy maxNumThreads) (ThreadPool.initial_healthy maxNumThreads).neverWedged

/-- A pool is started with one thread, and started again. -/
def startTwice : List PoolAction :=
  [.start 1, .life, .life, .life, .life, .start 1, .life, .life, .life]

/-- The second call of `start` waits for the first thread, which never ends. -/
theorem startTwice_wedged :
    ∃ s, runActions (poolStep 128) ThreadPool.initial startTwice = some s ∧
      s.lifecycle = some (.join (.start 1) 0) ∧ ¬ s.NeverWedged 128 ∧
      ∀ acts t, runActions (poolStep 128) s acts = some t →
        t.lifecycle ≠ none ∧ (t.workers 0).thread ≠ some .finished := by
  have hrun : ∃ s, runActions (poolStep 128) ThreadPool.initial startTwice = some s ∧
      s.lifecycle = some (.join (.start 1) 0) ∧ s.threadNum = 1 := ⟨_, rfl, rfl, rfl⟩
  obtain ⟨s, hs, hjoin, hnum⟩ := hrun
  have hshaped : s.Shaped 128 :=
    invariant_of_run (poolStep 128) (ThreadPool.Shaped 128) (fun _ _ _ h hstep => h.step (poolStep_cases hstep))
      (ThreadPool.initial_shaped 128) hs
  have hdoomed : s.Doomed 128 := ⟨hshaped, by simp [hnum], _, hjoin, trivial⟩
  refine ⟨s, hs, hjoin, hdoomed.not_neverWedged, fun acts t ht => ⟨?_, (hdoomed.run ht).not_finished 0⟩⟩
  obtain ⟨pc, hpc, -⟩ := (hdoomed.run ht).starting
  simp [hpc]

end Runs

end TcpClb
