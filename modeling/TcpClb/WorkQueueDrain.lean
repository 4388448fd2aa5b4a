import TcpClb.WorkQueueWakeUp

/-!
# The workers get through the jobs

Every step of a worker brings it closer to sleep or to its end, or a job closer to its end. As long as the queue has not
been shut down a worker that is awake can make a step, or waits for one that can, so the workers do not stop before all
jobs are done.
-/

namespace TcpClb

open TcpClb.Common

variable {D : Type}

/-- How many steps a worker at this position may make before it sleeps or ends, if it takes no job. -/
def WorkerPc.effort : WorkerPc → ℕ
  | .asleep | .gone => 0
  | .free | .wait | .take => 1
  | .check => 2
  | .test => 3
  | .lock | .woken => 4
  | .run _ => 5

/-- The number of jobs that wait. -/
def WorkQueue.waitingCount (s : WorkQueue D) : ℕ := ((runActions stackStep [] s.log).getD []).length

/-- How many steps the workers may make before a job is added. -/
def WorkQueue.effort (s : WorkQueue D) : ℕ := 5 * s.waitingCount + census s.cells.size s.pc WorkerPc.effort

/-- The jobs that wait are those on the stack. -/
theorem waitingCount_eq {s : WorkQueue D} {st : List ℕ} (hst : Replays s.log st) : s.waitingCount = st.length := by
  rw [WorkQueue.waitingCount, hst]
  rfl

/-- No worker is far from sleep. -/
theorem WorkQueue.effort_le (s : WorkQueue D) : s.effort ≤ 5 * (s.waitingCount + s.cells.size) := by
  have hcensus : census s.cells.size s.pc WorkerPc.effort ≤ s.cells.size * 5 := by
    refine census_le_mul fun i _ => ?_
    cases s.pc i <;> simp [WorkerPc.effort]
  rw [WorkQueue.effort]
  omega

/-- A worker that moves makes the effort smaller, if the jobs stay. -/
theorem WorkQueue.effort_lt_of_move {s s' : WorkQueue D} {i : ℕ} {pc : WorkerPc} (hi : i < s.cells.size)
    (hpc : s'.pc = Function.update s.pc i pc) (hsize : s'.cells.size = s.cells.size) (hlog : s'.log = s.log)
    (hlt : pc.effort < (s.pc i).effort) : s'.effort < s.effort := by
  have hcensus := census_update hi s.pc WorkerPc.effort pc
  rw [WorkQueue.effort, WorkQueue.effort, WorkQueue.waitingCount, WorkQueue.waitingCount, hlog, hpc, hsize]
  omega

/-- A worker that takes a job makes it smaller. -/
theorem WorkQueue.effort_lt_of_take {s s' : WorkQueue D} {i job : ℕ} (hi : i < s.cells.size) (hs : s.JobsKept)
    (hs' : s'.JobsKept) (hpc : s'.pc = Function.update s.pc i (.run job)) (hsize : s'.cells.size = s.cells.size)
    (hlog : s'.log = s.log ++ [.popped job]) (hpci : s.pc i = .take) : s'.effort < s.effort := by
  obtain ⟨nodes, _, hst⟩ := hs.waiting
  obtain ⟨nodes', _, hst'⟩ := hs'.waiting
  have hcount := waitingCount_eq hst
  have hcount' := waitingCount_eq hst'
  rw [hlog, Replays, runActions_append, hst, Option.bind_some] at hst'
  obtain ⟨next, hstep, hnil⟩ := (runActions_cons_eq_some stackStep _ _ _ _).mp hst'
  obtain rfl : next = nodes'.map Prod.fst := Option.some.inj hnil
  have hcensus := census_update hi s.pc WorkerPc.effort (.run job)
  rw [hpci] at hcensus
  rw [WorkQueue.effort, WorkQueue.effort, hcount, hcount', hpc, hsize]
  cases nodes with
  | nil => cases hstep
  | cons x rest =>
    obtain ⟨_, hrest⟩ := Option.ite_none_right_eq_some.mp hstep
    have hlen := congrArg List.length (Option.some.inj hrest)
    rw [List.map_cons, List.length_cons]
    change _ + 1 = _ + 5 at hcensus
    omega

/-- Every step of a worker makes the effort smaller, unless it finds no job where it is to take one. -/
theorem WorkerStep.effort_lt {s s' : WorkQueue D} {i : ℕ} (hstep : WorkerStep s i s') (hs : s.JobsKept)
    (hguarded : s.Guarded) (hbusy : s.pc i = .take → s.waitingJobs ≠ none) : s'.effort < s.effort := by
  have hs' := hstep.jobsKept hs
  have hlive (pc : WorkerPc) (hpc : s.pc i = pc) (hne : pc ≠ .gone) : i < s.cells.size :=
    hguarded.created i (hpc ▸ hne)
  cases hstep with
  | lock hpc hfree =>
    rcases hpc with hpc | hpc
    · exact WorkQueue.effort_lt_of_move (hlive _ hpc nofun) rfl rfl rfl (by rw [hpc]; decide)
    · exact WorkQueue.effort_lt_of_move (hlive _ hpc nofun) rfl rfl rfl (by rw [hpc]; decide)
  | found hpc | giveUp hpc | wait hpc | sleep hpc | leave hpc | stay hpc =>
    exact WorkQueue.effort_lt_of_move (hlive _ hpc nofun) rfl rfl rfl (by rw [hpc]; decide)
  | noJob hpc hwaiting => exact absurd hwaiting (hbusy hpc)
  | take hpc hwaiting hremove => exact WorkQueue.effort_lt_of_take (hlive _ hpc nofun) hs hs' rfl rfl rfl hpc
  | finish hpc hfree =>
    refine WorkQueue.effort_lt_of_move (hlive _ hpc nofun) rfl rfl rfl ?_
    rw [hpc]
    exact Nat.lt_succ_self 4
  | free hpc hfree =>
    exact WorkQueue.effort_lt_of_move (hlive _ hpc nofun) rfl (size_free hfree) rfl (by rw [hpc]; decide)

/-- A worker that does not sleep and has not ended can make a step, if it need not wait for the mutex. -/
theorem WorkQueue.JobsKept.worker_steps {s : WorkQueue D} (hs : s.JobsKept) {i : ℕ} {worker : Cell Bool}
    (hget : s.cells.get i = some worker) (hbusy : s.pc i = .take → s.waitingJobs ≠ none) (hasleep : s.pc i ≠ .asleep)
    (hgone : s.pc i ≠ .gone) (hmutex : (s.pc i = .lock ∨ s.pc i = .woken) → s.jobsMutex = none) :
    ∃ s', workStep s (.worker i) = some s' := by
  change ∃ s', workerStep s i = some s'
  unfold workerStep
  cases hpc : s.pc i with
  | lock => exact ⟨_, if_pos (hmutex (Or.inl hpc))⟩
  | woken => exact ⟨_, if_pos (hmutex (Or.inr hpc))⟩
  | test =>
    dsimp only
    split
    · exact ⟨_, by rw [hget]; rfl⟩
    · exact ⟨_, rfl⟩
  | wait => exact ⟨_, rfl⟩
  | asleep => exact absurd hpc hasleep
  | check => exact ⟨_, by rw [hget]; rfl⟩
  | take =>
    obtain ⟨nodes, hlist, _⟩ := hs.waiting
    have hchain := hlist.chained.chain
    cases nodes with
    | nil => exact absurd hchain (hbusy hpc)
    | cons x rest =>
      obtain ⟨jobs, next, hhead, hremove, _⟩ := hlist.llRemove_first
      rw [hhead] at hremove ⊢
      exact ⟨_, by simp only [hremove]; rfl⟩
  | run job =>
    obtain ⟨cell, hcell⟩ := Option.isSome_iff_exists.mp (hs.held i job hpc).1
    obtain ⟨jobs, hfree⟩ := Heap.exists_free hcell
    exact ⟨_, by dsimp only; rw [hfree]; rfl⟩
  | free =>
    obtain ⟨cells, hfree⟩ := Heap.exists_free hget
    exact ⟨_, by dsimp only; rw [hfree]; rfl⟩
  | gone => exact absurd hpc hgone

/-- If a worker holds the mutex, it can make a step. -/
theorem WorkQueue.JobsKept.owner_steps {s : WorkQueue D} (hs : s.JobsKept) (hguarded : s.Guarded) {i : ℕ}
    {worker : Cell Bool} (howner : s.jobsMutex = some i) (hget : s.cells.get i = some worker)
    (hbusy : s.pc i = .take → s.waitingJobs ≠ none) : ∃ s', workStep s (.worker i) = some s' := by
  have hholds := (hguarded.mutex i).mp howner
  have hne (pc : WorkerPc) (hpc : pc.holdsMutex = false) : s.pc i ≠ pc := by
    rintro rfl
    rw [hpc] at hholds
    cases hholds
  exact hs.worker_steps hget hbusy (hne .asleep rfl) (hne .gone rfl)
    fun h => h.elim (absurd · (hne .lock rfl)) (absurd · (hne .woken rfl))

/-- If no worker can make a step, all sleep or have ended. -/
theorem WorkQueue.JobsKept.resting {s : WorkQueue D} (hs : s.JobsKept) (hguarded : s.Guarded)
    (hlive : ∀ i, s.pc i ≠ .gone → ∃ worker, s.cells.get i = some worker)
    (hbusy : ∀ i, s.pc i = .take → s.waitingJobs ≠ none) (hstuck : ∀ i, workStep s (.worker i) = none) (i : ℕ) :
    s.pc i = .asleep ∨ s.pc i = .gone := by
  by_contra hne
  rw [not_or] at hne
  cases howner : s.jobsMutex with
  | none =>
    obtain ⟨worker, hget⟩ := hlive i hne.2
    obtain ⟨s', hs'⟩ := hs.worker_steps hget (hbusy i) hne.1 hne.2 fun _ => howner
    rw [hstuck i] at hs'
    cases hs'
  | some j =>
    have hgone : s.pc j ≠ .gone := by
      intro h
      have hholds := (hguarded.mutex j).mp howner
      rw [h] at hholds
      cases hholds
    obtain ⟨worker, hget⟩ := hlive j hgone
    obtain ⟨s', hs'⟩ := hs.owner_steps hguarded howner hget (hbusy j)
    rw [hstuck j] at hs'
    cases hs'

/-- When no worker can make a step, no job waits. -/
theorem WorkQueue.Serving.drained {s : WorkQueue D} (hs : s.Serving) (hmain : s.main = .init 0)
    (hstuck : ∀ i, workStep s (.worker i) = none) :
    s.waitingJobs = none ∧ ∀ i < s.cells.size, s.pc i = .asleep := by
  obtain ⟨hcount, hcreated⟩ := hs.started 0 hmain
  have hresting := hs.jobs.resting hs.guarded (fun i h => (hs.unmarked i h).imp fun _ h => h.1)
    (fun i h => hs.busy i (Or.inr h)) hstuck
  have hrest (i : ℕ) (hi : i < s.cells.size) : s.pc i = .asleep := (hresting i).resolve_right (hcreated i hi)
  refine ⟨?_, hrest⟩
  obtain ⟨nodes, _, hst⟩ := hs.jobs.waiting
  have hready : s.ready = 0 := census_eq_zero_iff.mpr fun i hi => by rw [hrest i hi]; rfl
  have hasleep : s.asleep ≠ 0 := by
    intro h
    have := census_eq_zero_iff.mp h 0 hcount
    rw [hrest 0 hcount] at this
    cases this
  have hcovered := (hs.covered _ hst).resolve_left hasleep
  rw [hready] at hcovered
  exact (hs.jobs.waitingJobs_eq_none_iff hst).mpr (List.eq_nil_of_length_eq_zero (Nat.le_zero.mp hcovered))

/-- The queue serves from the start. -/
theorem WorkQueue.start_serving (numWorkers : ℤ) : (WorkQueue.start numWorkers : WorkQueue D).Serving where
  jobs := WorkQueue.start_jobsKept numWorkers
  guarded := WorkQueue.start_guarded numWorkers
  unmarked i h := absurd rfl h
  staying i := nofun
  idle i h := by cases h
  busy i h := by rcases h with h | h <;> cases h
  covered st hst := Or.inl rfl
  started left hleft := by
    obtain rfl := MainPc.init.inj hleft
    refine ⟨?_, fun i hi => absurd hi (Nat.not_lt_zero i)⟩
    change 1 ≤ 0 + _
    split <;> omega

/-- Until the queue is shut down, there are never more jobs waiting than workers on their way to the list, unless no
worker sleeps. -/
theorem noSleepWhileJobsWait (numWorkers : ℤ) (acts : List (WorkAction D)) (hacts : ∀ a ∈ acts, a ≠ .shutdown) :
    Throughout workStep (fun s => s.asleep = 0 ∨ s.waitingCount ≤ s.ready) (.start numWorkers) acts := by
  refine throughout_of_eachStep workStep (fun _ a => a ≠ .shutdown) WorkQueue.Serving _ (fun s hs => ?_)
    (fun _ _ _ hs ha hstep => workStep_serving hstep hs ha) _ acts (WorkQueue.start_serving numWorkers)
    (eachStep_of_forall workStep _ _ acts hacts)
  obtain ⟨nodes, _, hst⟩ := hs.jobs.waiting
  rw [waitingCount_eq hst]
  exact hs.covered _ hst

/-- A worker is created and goes to sleep, and a job is added. -/
def sleepThenAdd : List (WorkAction Unit) :=
  [.create .started, .worker 0, .worker 0, .worker 0, .addJob () (some 0)]

/-- The worker has been woken for the job. -/
theorem sleepThenAdd_noSleep :
    Throughout workStep (fun s => s.asleep = 0 ∨ s.waitingCount ≤ s.ready) (.start 1) sleepThenAdd :=
  noSleepWhileJobsWait 1 sleepThenAdd (by simp [sleepThenAdd])

/-- Once all workers have been created, and until the queue is shut down, the workers alone make only boundedly many
steps, and when they can make none, no job waits and every worker sleeps. -/
theorem jobs_drained (numWorkers : ℤ) {acts more : List (WorkAction D)} (hacts : ∀ a ∈ acts, a ≠ .shutdown)
    {s t : WorkQueue D} (hrun : runActions workStep (.start numWorkers) acts = some s) (hmain : s.main = .init 0)
    (hmore : ∀ a ∈ more, ∃ i, a = .worker i) (hrun' : runActions workStep s more = some t) :
    more.length ≤ 5 * (s.waitingCount + s.cells.size) ∧
      ((∀ i, workStep t (.worker i) = none) → t.waitingJobs = none ∧ ∀ i < t.cells.size, t.pc i = .asleep) := by
  have hs : s.Serving := by
    refine throughout_final workStep WorkQueue.Serving _ s acts ?_ hrun
    exact throughout_of_eachStep workStep (fun _ a => a ≠ .shutdown) WorkQueue.Serving _ (fun s hs => hs)
      (fun _ _ _ hs ha hstep => workStep_serving hstep hs ha) _ acts (WorkQueue.start_serving numWorkers)
      (eachStep_of_forall workStep _ _ acts hacts)
  have hstep (u : WorkQueue D) (a : WorkAction D) (next : WorkQueue D) (hu : u.Serving ∧ u.main = .init 0)
      (ha : ∃ i, a = .worker i) (hnext : workStep u a = some next) :
      (next.Serving ∧ next.main = .init 0) ∧ next.effort < u.effort := by
    obtain ⟨i, rfl⟩ := ha
    have hworker := workerStep_cases hnext
    refine ⟨⟨hworker.serving hu.1, ?_⟩, hworker.effort_lt hu.1.jobs hu.1.guarded fun h => hu.1.busy i (Or.inr h)⟩
    rw [← hu.2]
    cases hworker <;> rfl
  obtain ⟨⟨ht, htmain⟩, hle⟩ := length_add_le_of_measure workStep (fun a => ∃ i, a = .worker i) _ WorkQueue.effort
    hstep ⟨hs, hmain⟩ hmore hrun'
  have hbound := s.effort_le
  exact ⟨by omega, ht.drained htmain⟩

/-- The worker takes the job, runs it and goes to sleep again. -/
theorem sleepThenAdd_drained : ∃ s t : WorkQueue Unit, runActions workStep (.start 1) sleepThenAdd = some s ∧
    runActions workStep s (List.replicate 8 (.worker 0)) = some t ∧ 8 ≤ 5 * (s.waitingCount + s.cells.size) ∧
      t.waitingJobs = none ∧ t.pc 0 = .asleep := by
  have hmore : ∀ a ∈ List.replicate 8 (.worker 0 : WorkAction Unit), ∃ i, a = .worker i :=
    fun a ha => ⟨0, List.eq_of_mem_replicate ha⟩
  have hacts : ∀ a ∈ sleepThenAdd, a ≠ .shutdown := by simp [sleepThenAdd]
  obtain ⟨s, t, hrun, hmain, hrun', hworker, hothers, hsize⟩ : ∃ s t : WorkQueue Unit,
      runActions workStep (.start 1) sleepThenAdd = some s ∧ s.main = .init 0 ∧
        runActions workStep s (List.replicate 8 (.worker 0)) = some t ∧ workStep t (.worker 0) = none ∧
          (∀ i, t.pc (i + 1) = .gone) ∧ 0 < t.cells.size :=
    ⟨_, _, rfl, rfl, rfl, rfl, fun _ => rfl, by decide⟩
  have hstuck (i : ℕ) : workStep t (.worker i) = none := by
    cases i with
    | zero => exact hworker
    | succ i => rw [workStep, workerStep, hothers i]
  obtain ⟨hbound, hdrained⟩ := jobs_drained 1 hacts hrun hmain hmore hrun'
  obtain ⟨hjobs, hasleep⟩ := hdrained hstuck
  exact ⟨s, t, hrun, hrun', hbound, hjobs, hasleep 0 hsize⟩

end TcpClb
