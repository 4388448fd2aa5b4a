import TcpClb.WorkQueueList

/-!
# The jobs of the work queue

A job is put in front of the list and taken from there, so the waiting jobs are a stack: a job that is added while
others wait is run before them. Over every run of all threads each job is taken at most once, and the jobs that are
being run are live, distinct and no longer in the list; `job_function` can free them.
-/

namespace TcpClb

open TcpClb.Common

variable {D : Type}

/-- The list holds the jobs of the stack, which are those added and neither taken nor dropped, and no two workers run
the same job. -/
structure WorkQueue.JobsKept (s : WorkQueue D) : Prop where
  waiting : ∃ nodes, HeadAdded s.jobs s.waitingJobs nodes ∧ Replays s.log (nodes.map Prod.fst)
  numbered : pushedIn s.log = List.range s.jobs.size
  held : ∀ i job, s.pc i = .run job → (s.jobs.get job).isSome ∧ job ∈ poppedIn s.log
  apart : ∀ i j job, s.pc i = .run job → s.pc j = .run job → i = j

/-- No job is taken twice, and none that waits has been taken. -/
theorem WorkQueue.JobsKept.nodup {s : WorkQueue D} (hs : s.JobsKept) {st : List ℕ} (hst : Replays s.log st) :
    (poppedIn s.log ++ st).Nodup :=
  hst.nodup (hs.numbered ▸ List.nodup_range)

/-- The job that a worker at this position runs. -/
def WorkerPc.job : WorkerPc → Option ℕ
  | .run job => some job
  | _ => none

/-- A worker that goes to a position where it runs no job runs none. -/
theorem run_of_goto {s : WorkQueue D} {i : ℕ} {pc : WorkerPc} (hpc : pc.job = none) {j job : ℕ}
    (h : (s.goto i pc).pc j = .run job) : j ≠ i ∧ s.pc j = .run job := by
  change Function.update s.pc i pc j = .run job at h
  by_cases hj : j = i
  · rw [hj, Function.update_self] at h
    rw [h] at hpc
    cases hpc
  · rw [Function.update_of_ne hj] at h
    exact ⟨hj, h⟩

/-- A step that leaves the jobs alone and starts none keeps them. -/
theorem WorkQueue.JobsKept.keep {s s' : WorkQueue D} (hs : s.JobsKept) (hjobs : s'.jobs = s.jobs)
    (hwaiting : s'.waitingJobs = s.waitingJobs) (hlog : s'.log = s.log)
    (hrun : ∀ j job, s'.pc j = .run job → s.pc j = .run job) : s'.JobsKept where
  waiting := by
    rw [hjobs, hwaiting, hlog]
    exact hs.waiting
  numbered := by rw [hjobs, hlog, hs.numbered]
  held j job h := by
    rw [hjobs, hlog]
    exact hs.held j job (hrun j job h)
  apart j k job hj hk := hs.apart j k job (hrun j job hj) (hrun k job hk)

/-- Taking the first job keeps them. -/
theorem WorkQueue.JobsKept.take {s : WorkQueue D} (hs : s.JobsKept) {i job : ℕ} {jobs : Links D} {rest : Option ℕ}
    (hjobs : s.waitingJobs = some job) (hremove : llRemove s.jobs job s.waitingJobs = some (jobs, rest)) :
    ({ s.goto i (.run job) with
        jobs := jobs
        waitingJobs := rest
        jobsMutex := none
        log := s.log ++ [.popped job] } : WorkQueue D).JobsKept := by
  obtain ⟨nodes, hlist, hst⟩ := hs.waiting
  have hchain := hlist.chained.chain
  cases nodes with
  | nil => cases hchain.symm.trans hjobs
  | cons x nodes =>
    obtain ⟨jobs', rest', hhead, hremove', hlist', hgone, hother, hsize⟩ := hlist.llRemove_first
    obtain rfl : x.1 = job := Option.some.inj (hhead.symm.trans hjobs)
    rw [hremove, Option.some.injEq, Prod.mk.injEq] at hremove'
    obtain ⟨rfl, rfl⟩ := hremove'
    have hfresh : x.1 ∉ poppedIn s.log := by
      intro hmem
      exact (List.nodup_append.mp (hs.nodup hst)).2.2 x.1 hmem x.1 List.mem_cons_self rfl
    have hothers (j job : ℕ) (h : s.pc j = .run job) : job ≠ x.1 := fun heq => hfresh (heq ▸ (hs.held j job h).2)
    have hrun (j job : ℕ) (h : (s.goto i (.run x.1)).pc j = .run job) :
        j = i ∧ job = x.1 ∨ j ≠ i ∧ s.pc j = .run job := by
      change Function.update s.pc i (.run x.1) j = .run job at h
      by_cases hj : j = i
      · rw [hj, Function.update_self, WorkerPc.run.injEq] at h
        exact Or.inl ⟨hj, h.symm⟩
      · rw [Function.update_of_ne hj] at h
        exact Or.inr ⟨hj, h⟩
    refine ⟨⟨nodes, hlist', hst.snoc (if_pos rfl)⟩, ?_, fun j job h => ?_, fun j k job hj hk => ?_⟩
    · change pushedIn (s.log ++ [.popped x.1]) = List.range jobs.size
      rw [pushedIn_append, hsize, hs.numbered]
      exact List.append_nil _
    · change (jobs.get job).isSome ∧ job ∈ poppedIn (s.log ++ [.popped x.1])
      rw [poppedIn_append, List.mem_append]
      rcases hrun j job h with ⟨_, rfl⟩ | ⟨_, hold⟩
      · exact ⟨by simp [hgone], Or.inr List.mem_cons_self⟩
      · obtain ⟨hlive, hmem⟩ := hs.held j job hold
        exact ⟨by rwa [hother job (hothers j job hold)], Or.inl hmem⟩
    · rcases hrun j job hj with ⟨hji, hx⟩ | ⟨_, holdj⟩ <;> rcases hrun k job hk with ⟨hki, hx'⟩ | ⟨_, holdk⟩
      · exact hji.trans hki.symm
      · exact absurd hx (hothers k job holdk)
      · exact absurd hx' (hothers j job holdj)
      · exact hs.apart j k job holdj holdk

/-- A job that ends is freed, and the others keep running. -/
theorem WorkQueue.JobsKept.finish {s : WorkQueue D} (hs : s.JobsKept) {i job : ℕ} {jobs : Links D}
    (hpc : s.pc i = .run job) (hfree : s.jobs.free job = some jobs) :
    ({ s.goto i .lock with jobs := jobs } : WorkQueue D).JobsKept := by
  obtain ⟨nodes, hlist, hst⟩ := hs.waiting
  have hgone : job ∉ nodes.map Prod.fst := by
    intro hmem
    exact (List.nodup_append.mp (hs.nodup hst)).2.2 job (hs.held i job hpc).2 job hmem rfl
  have hother (b : ℕ) (hb : b ≠ job) : jobs.get b = s.jobs.get b := by rw [Heap.get_of_free hfree, if_neg hb]
  have hsize : jobs.size = s.jobs.size := by
    obtain ⟨_, _, rfl⟩ := Option.map_eq_some_iff.mp hfree
    simp [Heap.size]
  refine ⟨⟨nodes, hlist.congr fun a ha => hother a fun heq => hgone (heq ▸ ha), hst⟩, ?_, fun j job' h => ?_,
    fun j k job' hj hk => ?_⟩
  · change pushedIn s.log = List.range jobs.size
    rw [hsize, hs.numbered]
  · obtain ⟨hj, hold⟩ := run_of_goto rfl h
    change (jobs.get job').isSome ∧ _
    rw [hother job' fun heq => hj (hs.apart j i job (heq ▸ hold) hpc)]
    exact hs.held j job' hold
  · exact hs.apart j k job' (run_of_goto rfl hj).2 (run_of_goto rfl hk).2

/-- Who a signal wakes runs no job. -/
theorem run_of_wake {s : WorkQueue D} {woken : Option ℕ} {j job : ℕ} (h : (s.wake woken).pc j = .run job) :
    s.pc j = .run job := by
  cases woken with
  | none => exact h
  | some i => exact (run_of_goto rfl h).2

/-- Adding a job keeps the others. -/
theorem WorkQueue.JobsKept.add {s : WorkQueue D} (hs : s.JobsKept) {data : D} {woken : Option ℕ} {jobs : Links D}
    {waiting : Option ℕ}
    (hadd : llAdd (s.jobs.alloc ⟨data, none, none⟩) s.jobs.size s.waitingJobs = some (jobs, waiting)) :
    ({ s.wake woken with
        jobs := jobs
        waitingJobs := waiting
        log := s.log ++ [.pushed s.jobs.size] } : WorkQueue D).JobsKept := by
  obtain ⟨nodes, hlist, hst⟩ := hs.waiting
  obtain ⟨jobs', hadd', hlist', hother, hsize⟩ := hlist.llAdd data
  rw [hadd, Option.some.injEq, Prod.mk.injEq] at hadd'
  obtain ⟨rfl, rfl⟩ := hadd'
  refine ⟨⟨_, hlist', hst.snoc rfl⟩, ?_, fun j job h => ?_, fun j k job hj hk => ?_⟩
  · change pushedIn (s.log ++ [.pushed s.jobs.size]) = List.range jobs.size
    rw [pushedIn_append, hsize, hs.numbered, List.range_succ]
    rfl
  · obtain ⟨hlive, hmem⟩ := hs.held j job (run_of_wake h)
    obtain ⟨cell, hcell⟩ := Option.isSome_iff_exists.mp hlive
    change (jobs.get job).isSome ∧ job ∈ poppedIn (s.log ++ [.pushed s.jobs.size])
    rw [hother job (Nat.ne_of_lt (Heap.lt_size_of_get hcell)), poppedIn_append, List.mem_append]
    exact ⟨hlive, Or.inl hmem⟩
  · exact hs.apart j k job (run_of_wake hj) (run_of_wake hk)

/-- Dropping the waiting jobs keeps those that are run. -/
theorem WorkQueue.JobsKept.clear {s s' : WorkQueue D} (hs : s.JobsKept) (hjobs : s'.jobs = s.jobs)
    (hwaiting : s'.waitingJobs = none) (hlog : s'.log = s.log ++ [.cleared])
    (hrun : ∀ j job, s'.pc j = .run job → s.pc j = .run job) : s'.JobsKept := by
  obtain ⟨nodes, _, hst⟩ := hs.waiting
  refine ⟨⟨[], hwaiting ▸ headAdded_nil s'.jobs, ?_⟩, ?_, fun j job h => ?_, fun j k job hj hk => ?_⟩
  · rw [hlog]
    exact hst.snoc (by cases nodes <;> rfl)
  · rw [hjobs, hlog, pushedIn_append, hs.numbered]
    exact List.append_nil _
  · rw [hjobs, hlog, poppedIn_append]
    obtain ⟨hlive, hmem⟩ := hs.held j job (hrun j job h)
    exact ⟨hlive, List.mem_append_left _ hmem⟩
  · exact hs.apart j k job (hrun j job hj) (hrun k job hk)

/-- A broadcast starts no job. -/
theorem run_of_broadcast {pc : WorkerPc} {job : ℕ} (h : pc.broadcast = .run job) : pc = .run job := by
  unfold WorkerPc.broadcast at h
  split at h
  · cases h
  · exact h

/-- A step of a worker keeps the jobs. -/
theorem WorkerStep.jobsKept {s s' : WorkQueue D} {i : ℕ} (hstep : WorkerStep s i s') (hs : s.JobsKept) :
    s'.JobsKept := by
  cases hstep with
  | take hpc hjobs hremove => exact hs.take hjobs hremove
  | finish hpc hfree => exact hs.finish hpc hfree
  | lock | found | giveUp | wait | sleep | leave | stay | noJob | free =>
    exact hs.keep rfl rfl rfl fun j job h => (run_of_goto rfl h).2

/-- So does a step of `workqueue_init` or `workqueue_shutdown`. -/
theorem MainStep.jobsKept {s s' : WorkQueue D} {a : WorkAction D} (hstep : MainStep s a s') (hs : s.JobsKept) :
    s'.JobsKept := by
  cases hstep with
  | clear => exact hs.clear rfl rfl rfl fun j job h => run_of_broadcast h
  | started => exact hs.keep rfl rfl rfl fun j job h => (run_of_goto rfl h).2
  | mallocFails | createFails | begin | marked | mark | advance => exact hs.keep rfl rfl rfl fun j job h => h

/-- Every step keeps the jobs. -/
theorem workStep_jobsKept {s s' : WorkQueue D} {a : WorkAction D} (hstep : workStep s a = some s') (hs : s.JobsKept) :
    s'.JobsKept := by
  cases a with
  | create r => exact (createStep_cases hstep).jobsKept hs
  | worker i => exact (workerStep_cases hstep).jobsKept hs
  | wake i =>
    obtain ⟨_, h⟩ := Option.ite_none_right_eq_some.mp hstep
    cases h
    exact hs.keep rfl rfl rfl fun j job h => (run_of_goto rfl h).2
  | addJob data woken =>
    obtain ⟨_, _, jobs, waiting, hadd, rfl⟩ := addJobStep_cases hstep
    exact hs.add hadd
  | shutdown => exact (shutdownStep_cases hstep).jobsKept hs

/-- There are no jobs at the start. -/
theorem WorkQueue.start_jobsKept (numWorkers : ℤ) : (WorkQueue.start numWorkers : WorkQueue D).JobsKept where
  waiting := ⟨[], headAdded_nil _, rfl⟩
  numbered := rfl
  held i job h := by cases h
  apart i j job h := by cases h

/-- In every run the waiting jobs are a stack, no job is taken twice, and the jobs being run are live, distinct and not
in the list. -/
theorem jobsKept_throughout (numWorkers : ℤ) (acts : List (WorkAction D)) :
    Throughout workStep (fun s => s.JobsKept ∧ (poppedIn s.log).Nodup) (.start numWorkers) acts :=
  throughout_of_invariant workStep WorkQueue.JobsKept (fun s => s.JobsKept ∧ (poppedIn s.log).Nodup)
    (fun _ hs => ⟨hs, (hs.waiting.elim fun _ h => (List.nodup_append.mp (hs.nodup h.2)).1)⟩)
    (fun _ _ _ hs hstep => workStep_jobsKept hstep hs) _ acts (WorkQueue.start_jobsKept numWorkers)

end TcpClb
