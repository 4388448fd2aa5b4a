import TcpClb.WorkQueueMutex

/-!
# No lost wake-up in the work queue

Until it is shut down, there are never more jobs waiting than workers on their way to the list, unless no worker sleeps.
So the workers alone, without any spurious wake-up, get through all jobs: they can make only boundedly many steps before
a job is added, and when they can make none, no job waits and none is being run.
-/

namespace TcpClb

open TcpClb.Common

variable {D : Type}

/-- The worker sleeps until it is woken. -/
def WorkerPc.isAsleep : WorkerPc → Bool
  | .asleep => true
  | _ => false

/-- The worker is on its way to the list of jobs. -/
def WorkerPc.isReady : WorkerPc → Bool
  | .lock | .test | .woken | .check | .take => true
  | _ => false

/-- Only `asleep` is. -/
theorem WorkerPc.isAsleep_iff (pc : WorkerPc) : pc.isAsleep = true ↔ pc = .asleep := by
  cases pc <;> simp [WorkerPc.isAsleep]

/-- The number of workers that sleep. -/
def WorkQueue.asleep (s : WorkQueue D) : ℕ := census s.cells.size s.pc (indicator WorkerPc.isAsleep)

/-- The number of workers on their way to the list of jobs. -/
def WorkQueue.ready (s : WorkQueue D) : ℕ := census s.cells.size s.pc (indicator WorkerPc.isReady)

/-- Nobody sleeps, or there are no more jobs than workers on their way to the list. -/
def WorkQueue.Covered (s : WorkQueue D) : Prop := ∀ st, Replays s.log st → s.asleep = 0 ∨ st.length ≤ s.ready

/-- What holds until the queue is shut down. -/
structure WorkQueue.Serving (s : WorkQueue D) : Prop where
  jobs : s.JobsKept
  guarded : s.Guarded
  unmarked : ∀ i, s.pc i ≠ .gone → ∃ worker, s.cells.get i = some worker ∧ worker.val = false
  staying : ∀ i, s.pc i ≠ .free
  idle : ∀ i, s.pc i = .wait → s.waitingJobs = none
  busy : ∀ i, s.pc i = .check ∨ s.pc i = .take → s.waitingJobs ≠ none
  covered : s.Covered
  started : ∀ left, s.main = .init left → 1 ≤ s.cells.size + left ∧ ∀ i < s.cells.size, s.pc i ≠ .gone

/-- No job waits exactly if the stack is empty. -/
theorem WorkQueue.JobsKept.waitingJobs_eq_none_iff {s : WorkQueue D} (hs : s.JobsKept) {st : List ℕ}
    (hst : Replays s.log st) : s.waitingJobs = none ↔ st = [] := by
  obtain ⟨nodes, hlist, hst'⟩ := hs.waiting
  obtain rfl : st = nodes.map Prod.fst := Option.some.inj (hst.symm.trans hst')
  have hchain := hlist.chained.chain
  cases nodes with
  | nil => exact iff_of_true hchain rfl
  | cons x rest =>
    refine iff_of_false (fun h => ?_) (List.cons_ne_nil _ _)
    cases hchain.1.symm.trans h

/-- How the numbers of sleeping and ready workers change when one moves. -/
theorem WorkQueue.counts_of_move {s s' : WorkQueue D} {i : ℕ} {pc : WorkerPc} (hi : i < s.cells.size)
    (hpc : s'.pc = Function.update s.pc i pc) (hsize : s'.cells.size = s.cells.size) :
    s'.asleep + indicator WorkerPc.isAsleep (s.pc i) = s.asleep + indicator WorkerPc.isAsleep pc ∧
      s'.ready + indicator WorkerPc.isReady (s.pc i) = s.ready + indicator WorkerPc.isReady pc := by
  rw [WorkQueue.asleep, WorkQueue.ready, hpc, hsize]
  exact ⟨census_update hi s.pc _ pc, census_update hi s.pc _ pc⟩

/-- Nothing is uncovered if no worker falls asleep, none that was ready is not, and there is no new job. -/
theorem WorkQueue.Covered.of_le {s s' : WorkQueue D} (hs : s.Covered) (hlog : s'.log = s.log)
    (hasleep : s'.asleep ≤ s.asleep) (hready : s.ready ≤ s'.ready) : s'.Covered := by
  intro st hst
  rw [hlog] at hst
  have := hs st hst
  omega

/-- Nothing is uncovered if no job waits. -/
theorem WorkQueue.covered_of_idle {s : WorkQueue D} (hs : s.JobsKept) (hjobs : s.waitingJobs = none) : s.Covered := by
  intro st hst
  rw [(hs.waitingJobs_eq_none_iff hst).mp hjobs]
  exact Or.inr (Nat.zero_le _)

/-- The first job is taken by a worker that was ready. -/
theorem WorkQueue.Covered.take {s s' : WorkQueue D} (hs : s.Covered) {job : ℕ} (hjobs : s.JobsKept)
    (hlog : s'.log = s.log ++ [.popped job]) (hasleep : s'.asleep = s.asleep)
    (hready : s'.ready + 1 = s.ready) : s'.Covered := by
  intro st' hst'
  obtain ⟨nodes, hlist, hst⟩ := hjobs.waiting
  rw [hlog, Replays, runActions_append, hst, Option.bind_some] at hst'
  obtain ⟨next, hstep, hnil⟩ := (runActions_cons_eq_some stackStep _ _ _ _).mp hst'
  obtain rfl : next = st' := Option.some.inj hnil
  cases nodes with
  | nil => cases hstep
  | cons x rest =>
    obtain ⟨_, hrest⟩ := Option.ite_none_right_eq_some.mp hstep
    obtain rfl : rest.map Prod.fst = next := Option.some.inj hrest
    have := hs _ hst
    rw [List.map_cons, List.length_cons] at this
    omega

/-- A job is added, and a sleeping worker is woken if there is one. -/
theorem WorkQueue.Covered.add {s s' : WorkQueue D} (hs : s.Covered) {job : ℕ} (hjobs : s.JobsKept)
    (hlog : s'.log = s.log ++ [.pushed job])
    (hwoken : s'.asleep = 0 ∨ s'.asleep + 1 = s.asleep ∧ s'.ready = s.ready + 1) : s'.Covered := by
  intro st' hst'
  obtain ⟨nodes, _, hst⟩ := hjobs.waiting
  rw [hlog, Replays, runActions_append, hst, Option.bind_some] at hst'
  obtain rfl : _ :: nodes.map Prod.fst = st' := Option.some.inj hst'
  have := hs _ hst
  rw [List.length_cons]
  omega

section Steps

variable {s s' : WorkQueue D}

/-- A worker that moves without taking a job, neither to bed nor away from the list while jobs wait. -/
theorem WorkQueue.Serving.goto (hs : s.Serving) {i : ℕ} {pc : WorkerPc} (hpc : s'.pc = Function.update s.pc i pc)
    (hlive : s.pc i ≠ .gone) (hcells : s'.cells = s.cells) (hwaiting : s'.waitingJobs = s.waitingJobs)
    (hlog : s'.log = s.log) (hmain : s'.main = s.main) (hjobs : s'.JobsKept) (hguarded : s'.Guarded)
    (hfree : pc ≠ .free) (hgone : pc ≠ .gone) (hidle : pc = .wait → s.waitingJobs = none)
    (hbusy : pc = .check ∨ pc = .take → s.waitingJobs ≠ none)
    (hcovered : s.waitingJobs = none ∨ indicator WorkerPc.isAsleep pc ≤ indicator WorkerPc.isAsleep (s.pc i) ∧
      indicator WorkerPc.isReady (s.pc i) ≤ indicator WorkerPc.isReady pc) : s'.Serving := by
  have hi : i < s.cells.size := hs.guarded.created i hlive
  have hcases (j : ℕ) : s'.pc j = if j = i then pc else s.pc j := by rw [hpc, Function.update_apply]
  refine ⟨hjobs, hguarded, fun j hj => ?_, fun j hj => ?_, fun j hj => ?_, fun j hj => ?_, ?_, fun left hleft => ?_⟩
  · rw [hcells]
    by_cases hji : j = i
    · exact hji ▸ hs.unmarked i hlive
    · rw [hcases, if_neg hji] at hj
      exact hs.unmarked j hj
  · rw [hcases] at hj
    split at hj
    · exact hfree hj
    · exact hs.staying j hj
  · rw [hwaiting]
    rw [hcases] at hj
    split at hj
    · exact hidle hj
    · exact hs.idle j hj
  · rw [hwaiting]
    rw [hcases] at hj
    split at hj
    · exact hbusy hj
    · exact hs.busy j hj
  · rcases hcovered with hnone | ⟨hasleep, hready⟩
    · exact WorkQueue.covered_of_idle hjobs (hwaiting.trans hnone)
    · obtain ⟨ha, hr⟩ := WorkQueue.counts_of_move hi hpc (congrArg Heap.size hcells)
      exact hs.covered.of_le hlog (by omega) (by omega)
  · rw [hcells]
    obtain ⟨hcount, hall⟩ := hs.started left (hmain ▸ hleft)
    refine ⟨hcount, fun j hj => ?_⟩
    rw [hcases]
    split
    · exact hgone
    · exact hall j hj

/-- A worker takes the first job. -/
theorem WorkQueue.Serving.take (hs : s.Serving) {i job : ℕ} (hpc : s.pc i = .take)
    (hpc' : s'.pc = Function.update s.pc i (.run job)) (hcells : s'.cells = s.cells) (hmain : s'.main = s.main)
    (hlog : s'.log = s.log ++ [.popped job]) (hjobs : s'.JobsKept) (hguarded : s'.Guarded) : s'.Serving := by
  have hlive : s.pc i ≠ .gone := by rw [hpc]; exact nofun
  have hi : i < s.cells.size := hs.guarded.created i hlive
  have hcases (j : ℕ) : s'.pc j = if j = i then .run job else s.pc j := by rw [hpc', Function.update_apply]
  -- nobody else holds the mutex
  have hother (j : ℕ) (hj : j ≠ i) : (s.pc j).holdsMutex = false := by
    by_contra hholds
    have hmine := (hs.guarded.mutex i).mpr (by rw [hpc]; rfl)
    have hyours := (hs.guarded.mutex j).mpr (by simpa using hholds)
    exact hj (Option.some.inj (hyours.symm.trans hmine))
  have hmoved (j : ℕ) (hj : (s'.pc j).holdsMutex = true) : False := by
    rw [hcases] at hj
    split at hj
    · cases hj
    · next hji =>
      rw [hother j hji] at hj
      cases hj
  refine ⟨hjobs, hguarded, fun j hj => ?_, fun j hj => ?_, fun j hj => ?_, fun j hj => ?_, ?_, fun left hleft => ?_⟩
  · rw [hcells]
    by_cases hji : j = i
    · exact hji ▸ hs.unmarked i hlive
    · rw [hcases, if_neg hji] at hj
      exact hs.unmarked j hj
  · rw [hcases] at hj
    split at hj
    · cases hj
    · exact hs.staying j hj
  · exact (hmoved j (by rw [hj]; rfl)).elim
  · exact (hmoved j (by rcases hj with hj | hj <;> rw [hj] <;> rfl)).elim
  · obtain ⟨ha, hr⟩ := WorkQueue.counts_of_move hi hpc' (congrArg Heap.size hcells)
    rw [hpc] at ha hr
    exact hs.covered.take hs.jobs hlog ha hr
  · rw [hcells]
    obtain ⟨hcount, hall⟩ := hs.started left (hmain ▸ hleft)
    refine ⟨hcount, fun j hj => ?_⟩
    rw [hcases]
    split
    · exact nofun
    · exact hall j hj

/-- A job is added, and a sleeping worker woken. -/
theorem WorkQueue.Serving.add (hs : s.Serving) {data : D} {woken : Option ℕ} {jobs : Links D} {waiting : Option ℕ}
    (hfree : s.jobsMutex = none) (hmay : s.MayWake woken)
    (hs' : s' = { s.wake woken with
      jobs := jobs
      waitingJobs := waiting
      log := s.log ++ [.pushed s.jobs.size] })
    (hadd : llAdd (s.jobs.alloc ⟨data, none, none⟩) s.jobs.size s.waitingJobs = some (jobs, waiting))
    (hguarded : s'.Guarded) : s'.Serving := by
  have hjobs : s'.JobsKept := hs' ▸ hs.jobs.add hadd
  have hcells : s'.cells = s.cells := by
    rw [hs']
    cases woken <;> rfl
  have hmain : s'.main = s.main := by
    rw [hs']
    cases woken <;> rfl
  have hlog : s'.log = s.log ++ [.pushed s.jobs.size] := by rw [hs']
  have hnone : s'.waitingJobs ≠ none := by
    obtain ⟨_, _, h⟩ := Option.map_eq_some_iff.mp hadd
    cases h
    rw [hs']
    exact nofun
  have hcases (j : ℕ) : s'.pc j = s.pc j ∨ s.pc j = .asleep ∧ s'.pc j = .woken := by
    rw [hs']
    cases woken with
    | none => exact Or.inl rfl
    | some i =>
      change Function.update s.pc i .woken j = s.pc j ∨ s.pc j = .asleep ∧ Function.update s.pc i .woken j = .woken
      by_cases hj : j = i
      · rw [hj, Function.update_self]
        exact Or.inr ⟨hmay.2, rfl⟩
      · exact Or.inl (Function.update_of_ne hj ..)
  refine ⟨hjobs, hguarded, fun j hj => ?_, fun j hj => ?_, fun j hj => ?_, fun _ _ => hnone, ?_, fun left hleft => ?_⟩
  · rw [hcells]
    refine hs.unmarked j fun hgone => hj ?_
    rcases hcases j with hsame | ⟨hold, _⟩
    · rw [hsame, hgone]
    · rw [hold] at hgone
      cases hgone
  · rcases hcases j with hsame | ⟨_, hnew⟩
    · exact hs.staying j (hsame ▸ hj)
    · rw [hnew] at hj
      cases hj
  · -- a worker before `pthread_cond_wait` holds the mutex
    rcases hcases j with hsame | ⟨_, hnew⟩
    · have hholds := (hs.guarded.mutex j).mpr (by rw [← hsame, hj]; rfl)
      rw [hfree] at hholds
      cases hholds
    · rw [hnew] at hj
      cases hj
  · refine hs.covered.add hs.jobs hlog ?_
    cases woken with
    | none =>
      refine Or.inl (census_eq_zero_iff.mpr fun i hi => ?_)
      rw [hcells] at hi
      have hpc : s'.pc i = s.pc i := by rw [hs']; rfl
      rw [hpc, indicator, if_neg]
      exact fun h => hmay i hi ((s.pc i).isAsleep_iff.mp h)
    | some i =>
      have hpc' : s'.pc = Function.update s.pc i .woken := by rw [hs']; rfl
      obtain ⟨ha, hr⟩ := WorkQueue.counts_of_move hmay.1 hpc' (congrArg Heap.size hcells)
      rw [hmay.2] at ha hr
      exact Or.inr ⟨ha, hr⟩
  · rw [hcells]
    obtain ⟨hcount, hall⟩ := hs.started left (hmain ▸ hleft)
    refine ⟨hcount, fun j hj => ?_⟩
    rcases hcases j with hsame | ⟨_, hnew⟩
    · exact hsame ▸ hall j hj
    · rw [hnew]
      exact nofun

/-- What is in the heap after `LL_ADD` of a new cell. -/
theorem get_of_llAdd {α : Type*} {h h' : Links α} {v : α} {list list' : Option ℕ}
    (hadd : llAdd (h.alloc ⟨v, none, none⟩) h.size list = some (h', list')) (b : ℕ) :
    h'.get b = if b = h.size then some ⟨v, none, list⟩ else h.get b := by
  obtain ⟨heap, hheap, h⟩ := Option.map_eq_some_iff.mp hadd
  cases h
  rw [Heap.get_of_modify hheap, Heap.get_alloc, if_pos rfl, Heap.get_alloc]
  split <;> rfl

/-- A worker is created. -/
theorem WorkQueue.Serving.created (hs : s.Serving) {left : ℕ} {cells : Links Bool} {workers : Option ℕ}
    (hmain : s.main = .init (left + 1))
    (hadd : llAdd (s.cells.alloc ⟨false, none, none⟩) s.cells.size s.workers = some (cells, workers))
    (hs' : s' = { s.goto s.cells.size .lock with cells := cells, workers := workers, main := .init left })
    (hjobs : s'.JobsKept) (hguarded : s'.Guarded) : s'.Serving := by
  subst hs'
  have hsize : cells.size = s.cells.size + 1 := size_llAdd hadd
  have hget := get_of_llAdd hadd
  obtain ⟨hcount, hall⟩ := hs.started _ hmain
  have hcases (j : ℕ) : (s.goto s.cells.size .lock).pc j = if j = s.cells.size then .lock else s.pc j := by
    exact Function.update_apply s.pc _ _ j
  refine ⟨hjobs, hguarded, fun j hj => ?_, fun j hj => ?_, fun j hj => ?_, fun j hj => ?_, ?_, fun left' hleft => ?_⟩
  · change ∃ worker, cells.get j = some worker ∧ worker.val = false
    change (s.goto s.cells.size .lock).pc j ≠ .gone at hj
    rw [hget]
    rw [hcases] at hj
    split
    · exact ⟨_, rfl, rfl⟩
    · next hjn =>
      rw [if_neg hjn] at hj
      exact hs.unmarked j hj
  · change (s.goto s.cells.size .lock).pc j = .free at hj
    rw [hcases] at hj
    split at hj
    · cases hj
    · exact hs.staying j hj
  · change (s.goto s.cells.size .lock).pc j = .wait at hj
    rw [hcases] at hj
    split at hj
    · cases hj
    · exact hs.idle j hj
  · change (s.goto s.cells.size .lock).pc j = .check ∨ (s.goto s.cells.size .lock).pc j = .take at hj
    rw [hcases] at hj
    split at hj
    · rcases hj with hj | hj <;> cases hj
    · exact hs.busy j hj
  · refine hs.covered.of_le rfl ?_ ?_
    · change census cells.size (Function.update s.pc s.cells.size .lock) _ ≤ census s.cells.size s.pc _
      rw [hsize, census_spawn]
      exact le_rfl
    · change census s.cells.size s.pc _ ≤ census cells.size (Function.update s.pc s.cells.size .lock) _
      rw [hsize, census_spawn]
      exact Nat.le_add_right _ _
  · obtain rfl : left = left' := MainPc.init.inj hleft
    change 1 ≤ cells.size + left ∧ ∀ j < cells.size, (s.goto s.cells.size .lock).pc j ≠ .gone
    rw [hsize]
    refine ⟨by omega, fun j hj => ?_⟩
    rw [hcases]
    split
    · exact nofun
    · exact hall j (by omega)

/-- The creation of a worker fails. -/
theorem WorkQueue.Serving.failed (hs : s.Serving) (hpc : s'.pc = s.pc) (hwaiting : s'.waitingJobs = s.waitingJobs)
    (hlog : s'.log = s.log) (hmain : s'.main = .failed) (hget : ∀ i < s.cells.size, s'.cells.get i = s.cells.get i)
    (hsize : s'.cells.size = s.cells.size ∨ s'.cells.size = s.cells.size + 1) (hjobs : s'.JobsKept)
    (hguarded : s'.Guarded) : s'.Serving := by
  have hgone : s.pc s.cells.size = .gone := by
    by_contra h
    exact Nat.lt_irrefl _ (hs.guarded.created _ h)
  have hcensus (p : WorkerPc → Bool) (hp : p .gone = false) :
      census s'.cells.size s'.pc (indicator p) = census s.cells.size s.pc (indicator p) := by
    rw [hpc]
    rcases hsize with hsize | hsize
    · rw [hsize]
    · rw [hsize, census_succ, hgone, indicator, hp]
      rfl
  refine ⟨hjobs, hguarded, fun j hj => ?_, fun j => hpc ▸ hs.staying j, fun j hj => ?_, fun j hj => ?_, ?_,
    fun left hleft => ?_⟩
  · rw [hpc] at hj
    rw [hget j (hs.guarded.created j hj)]
    exact hs.unmarked j hj
  · rw [hwaiting]
    exact hs.idle j (hpc ▸ hj)
  · rw [hwaiting]
    exact hs.busy j (hpc ▸ hj)
  · exact hs.covered.of_le hlog (hcensus _ rfl).le (hcensus _ rfl).ge
  · rw [hmain] at hleft
    cases hleft

end Steps

/-- A step of a worker goes on serving. -/
theorem WorkerStep.serving {s s' : WorkQueue D} {i : ℕ} (hstep : WorkerStep s i s') (hs : s.Serving) :
    s'.Serving := by
  have hjobs := hstep.jobsKept hs.jobs
  have hguarded := hstep.guarded hs.guarded
  have hflag {worker : Cell Bool} (hlive : s.pc i ≠ .gone) (hget : s.cells.get i = some worker) :
      worker.val = false := by
    obtain ⟨worker', hget', hval⟩ := hs.unmarked i hlive
    rwa [Option.some.inj (hget.symm.trans hget')]
  cases hstep with
  | lock hpc hfree =>
    have hlive : s.pc i ≠ .gone := by rcases hpc with hpc | hpc <;> rw [hpc] <;> exact nofun
    refine hs.goto rfl hlive rfl rfl rfl rfl hjobs hguarded nofun nofun nofun nofun (Or.inr ?_)
    rcases hpc with hpc | hpc <;> rw [hpc] <;> exact ⟨le_rfl, le_rfl⟩
  | found hpc hwaiting =>
    refine hs.goto rfl (by rw [hpc]; exact nofun) rfl rfl rfl rfl hjobs hguarded nofun nofun nofun (fun _ => hwaiting)
      (Or.inr ?_)
    rw [hpc]
    exact ⟨le_rfl, le_rfl⟩
  | giveUp hpc hwaiting hget hterm =>
    rw [hflag (by rw [hpc]; exact nofun) hget] at hterm
    cases hterm
  | wait hpc hwaiting hget hterm =>
    exact hs.goto rfl (by rw [hpc]; exact nofun) rfl rfl rfl rfl hjobs hguarded nofun nofun (fun _ => hwaiting) nofun
      (Or.inl hwaiting)
  | sleep hpc =>
    exact hs.goto rfl (by rw [hpc]; exact nofun) rfl rfl rfl rfl hjobs hguarded nofun nofun nofun nofun
      (Or.inl (hs.idle i hpc))
  | leave hpc hget hterm =>
    rw [hflag (by rw [hpc]; exact nofun) hget] at hterm
    cases hterm
  | stay hpc hget hterm =>
    have hwaiting := hs.busy i (Or.inl hpc)
    refine hs.goto rfl (by rw [hpc]; exact nofun) rfl rfl rfl rfl hjobs hguarded nofun nofun nofun (fun _ => hwaiting)
      (Or.inr ?_)
    rw [hpc]
    exact ⟨le_rfl, le_rfl⟩
  | noJob hpc hwaiting => exact absurd hwaiting (hs.busy i (Or.inr hpc))
  | take hpc hwaiting hremove => exact hs.take hpc rfl rfl rfl rfl hjobs hguarded
  | finish hpc hfree =>
    refine hs.goto rfl (by rw [hpc]; exact nofun) rfl rfl rfl rfl hjobs hguarded nofun nofun nofun nofun (Or.inr ?_)
    rw [hpc]
    exact ⟨le_rfl, Nat.zero_le _⟩
  | free hpc hfree => exact absurd hpc (hs.staying i)

/-- So does every step that is not one of `workqueue_shutdown`. -/
theorem workStep_serving {s s' : WorkQueue D} {a : WorkAction D} (hstep : workStep s a = some s') (hs : s.Serving)
    (ha : a ≠ .shutdown) : s'.Serving := by
  have hjobs := workStep_jobsKept hstep hs.jobs
  have hguarded := workStep_guarded hstep hs.guarded
  cases a with
  | create r =>
    cases createStep_cases hstep with
    | mallocFails hmain => exact hs.failed rfl rfl rfl rfl (fun _ _ => rfl) (Or.inl rfl) hjobs hguarded
    | createFails hmain hfree =>
      refine hs.failed rfl rfl rfl rfl (fun i hi => ?_) (Or.inr ?_) hjobs hguarded
      · rw [Heap.get_of_free hfree, if_neg (by omega), Heap.get_alloc, if_neg (by omega)]
      · exact (size_free hfree).trans (size_alloc _ _)
    | started hmain hadd => exact hs.created hmain hadd rfl hjobs hguarded
  | worker i => exact (workerStep_cases hstep).serving hs
  | wake i =>
    obtain ⟨hpc, h⟩ := Option.ite_none_right_eq_some.mp hstep
    cases h
    refine hs.goto rfl (by rw [hpc]; exact nofun) rfl rfl rfl rfl hjobs hguarded nofun nofun nofun nofun (Or.inr ?_)
    rw [hpc]
    exact ⟨Nat.zero_le _, Nat.zero_le _⟩
  | addJob data woken =>
    obtain ⟨hfree, hmay, jobs, waiting, hadd, hs'⟩ := addJobStep_cases hstep
    exact hs.add hfree hmay hs' hadd hguarded
  | shutdown => exact absurd rfl ha

end TcpClb
