import TcpClb.WorkQueueShutdown

/-!
# The end of the work queue

What follows from `workqueue_shutdown` in every run: that it can always return as long as it reads live workers, when
exactly it does, and that after it no job is started and all workers end.
-/

namespace TcpClb

open TcpClb.Common

variable {D : Type}

/-- After `workqueue_shutdown` has returned, no step starts a job. -/
theorem WorkQueue.Sound.step_of_done {s s' : WorkQueue D} {a : WorkAction D} (hs : s.Sound) (hdone : s.main = .done)
    (hstep : workStep s a = some s') : s'.main = .done ∧ poppedIn s'.log = poppedIn s.log := by
  obtain ⟨rest, hmarking⟩ := hs.marking
  cases a with
  | create r =>
    cases createStep_cases hstep with
    | mallocFails hmain | createFails hmain | started hmain =>
      rw [hdone] at hmain
      cases hmain
  | worker i =>
    cases workerStep_cases hstep with
    | take hpc => exact absurd hpc (hmarking.down hdone i).2.2
    | lock | found | giveUp | wait | sleep | leave | stay | noJob | finish | free => exact ⟨hdone, rfl⟩
  | wake i =>
    obtain ⟨_, h⟩ := Option.ite_none_right_eq_some.mp hstep
    cases h
    exact ⟨hdone, rfl⟩
  | addJob data woken =>
    obtain ⟨_, _, jobs, waiting, _, rfl⟩ := addJobStep_cases hstep
    refine ⟨by cases woken <;> exact hdone, ?_⟩
    change poppedIn (s.log ++ [.pushed s.jobs.size]) = _
    rw [poppedIn_append]
    exact List.append_nil _
  | shutdown =>
    change shutdownStep s = some s' at hstep
    rw [shutdownStep, hdone] at hstep
    cases hstep

/-- The effort of the workers, apart from the jobs that wait, becomes smaller with every step of a worker. -/
theorem WorkQueue.Sound.census_lt_of_done {s s' : WorkQueue D} {i : ℕ} (hs : s.Sound) (hdone : s.main = .done)
    (hstep : workStep s (.worker i) = some s') :
    census s'.cells.size s'.pc WorkerPc.effort < census s.cells.size s.pc WorkerPc.effort := by
  obtain ⟨rest, hmarking⟩ := hs.marking
  have hworker := workerStep_cases hstep
  have hlt := hworker.effort_lt hs.jobs hs.guarded (hmarking.busy i)
  have hlog : s'.log = s.log := by
    cases hworker with
    | take hpc => exact absurd hpc (hmarking.down hdone i).2.2
    | lock | found | giveUp | wait | sleep | leave | stay | noJob | finish | free => rfl
  rw [WorkQueue.effort, WorkQueue.effort, WorkQueue.waitingCount, WorkQueue.waitingCount, hlog] at hlt
  omega

/-- When no worker can make a step after the shutdown, all have ended and are freed. -/
theorem WorkQueue.Sound.ended {s : WorkQueue D} (hs : s.Sound) (hdone : s.main = .done)
    (hstuck : ∀ i, workStep s (.worker i) = none) (i : ℕ) : s.pc i = .gone ∧ s.cells.get i = none := by
  obtain ⟨rest, hmarking⟩ := hs.marking
  have hresting := hs.jobs.resting hs.guarded (fun i h => hmarking.live h) hmarking.busy hstuck i
  have hgone : s.pc i = .gone := hresting.resolve_left (hmarking.down hdone i).2.1
  exact ⟨hgone, hmarking.freed i hgone⟩

/-- Once `workqueue_shutdown` has returned, no job is started any more, whatever is added; the workers make at most five
steps each, and when they can make none, all have ended and are freed. -/
theorem shutdown_endsWorkers (numWorkers : ℤ) {acts more : List (WorkAction D)} {s t : WorkQueue D}
    (hrun : runActions workStep (.start numWorkers) acts = some s) (hdone : s.main = .done)
    (hrun' : runActions workStep s more = some t) :
    poppedIn t.log = poppedIn s.log ∧
      ((∀ a ∈ more, ∃ i, a = .worker i) → more.length ≤ 5 * s.cells.size) ∧
      ((∀ i, workStep t (.worker i) = none) → ∀ i, t.pc i = .gone ∧ t.cells.get i = none) := by
  have hs : s.Sound :=
    invariant_of_run workStep _ (fun _ _ _ hs hstep => workStep_sound hstep hs) (WorkQueue.start_sound numWorkers) hrun
  have hkeep (u : WorkQueue D) (a : WorkAction D) (next : WorkQueue D)
      (hu : u.Sound ∧ u.main = .done ∧ poppedIn u.log = poppedIn s.log) (hstep : workStep u a = some next) :
      next.Sound ∧ next.main = .done ∧ poppedIn next.log = poppedIn s.log := by
    obtain ⟨hmain, hlog⟩ := hu.1.step_of_done hu.2.1 hstep
    exact ⟨workStep_sound hstep hu.1, hmain, hlog.trans hu.2.2⟩
  obtain ⟨ht, htdone, hlog⟩ := invariant_of_run workStep _ hkeep ⟨hs, hdone, rfl⟩ hrun'
  refine ⟨hlog, fun hmore => ?_, ht.ended htdone⟩
  obtain ⟨_, hle⟩ := length_add_le_of_measure workStep (fun a => ∃ i, a = .worker i)
    (fun u => u.Sound ∧ u.main = .done ∧ poppedIn u.log = poppedIn s.log)
    (fun u => census u.cells.size u.pc WorkerPc.effort) (fun u a next hu ha hstep => by
      obtain ⟨i, rfl⟩ := ha
      exact ⟨hkeep u _ next hu hstep, hu.1.census_lt_of_done hu.2.1 hstep⟩) ⟨hs, hdone, rfl⟩ hmore hrun'
  have hbound : census s.cells.size s.pc WorkerPc.effort ≤ s.cells.size * 5 := by
    refine census_le_mul fun i _ => ?_
    cases s.pc i <;> simp [WorkerPc.effort]
  omega

/-- `workqueue_shutdown` reads live workers after a step exactly if the step does not free the next one. -/
theorem workStep_traversesLive_iff {s s' : WorkQueue D} {a : WorkAction D} (hstep : workStep s a = some s')
    (hs : s.TraversesLive) : s'.TraversesLive ↔ a.SparesNext s := by
  have hkeep (hmain : s'.main = s.main) (hcells : s'.cells = s.cells) : s'.TraversesLive := by
    intro w hw
    rw [hcells]
    exact hs w (hmain ▸ hw)
  have hmoved (hmain : ∀ w, s'.main ≠ .advance w) : s'.TraversesLive := fun w hw => absurd hw (hmain w)
  cases a with
  | create r =>
    cases createStep_cases hstep with
    | mallocFails | createFails | started => exact iff_of_true (hmoved nofun) nofun
  | worker i =>
    cases workerStep_cases hstep with
    | free hpc hfree =>
      constructor
      · intro hlive j hj _ hmain
        cases hj
        have hsome := hlive i hmain
        rw [Heap.get_of_free hfree, if_pos rfl] at hsome
        cases hsome
      · intro hspares w hw
        have hne : w ≠ i := fun heq => hspares i rfl hpc (heq ▸ hw)
        rw [Heap.get_of_free hfree, if_neg hne]
        exact hs w hw
    | lock hpc =>
      refine iff_of_true (hkeep rfl rfl) fun j hj hfree => ?_
      cases hj
      rcases hpc with hpc | hpc <;> rw [hpc] at hfree <;> cases hfree
    | found hpc | giveUp hpc | wait hpc | sleep hpc | leave hpc | stay hpc | noJob hpc | take hpc | finish hpc =>
      refine iff_of_true (hkeep rfl rfl) fun j hj hfree => ?_
      cases hj
      rw [hpc] at hfree
      cases hfree
  | wake i =>
    obtain ⟨_, h⟩ := Option.ite_none_right_eq_some.mp hstep
    cases h
    exact iff_of_true (hkeep rfl rfl) nofun
  | addJob data woken =>
    obtain ⟨_, _, jobs, waiting, _, rfl⟩ := addJobStep_cases hstep
    exact iff_of_true (hkeep (by cases woken <;> rfl) (by cases woken <;> rfl)) nofun
  | shutdown =>
    cases shutdownStep_cases hstep with
    | mark hmain hset =>
      refine iff_of_true (fun w' hw' => ?_) nofun
      obtain rfl := MainPc.advance.inj hw'
      obtain ⟨x, hx, _⟩ := (Heap.modify_eq_some_iff _ _ _ _).mp hset
      rw [Heap.get_of_modify hset, if_pos rfl, hx]
      rfl
    | begin | marked | advance | clear => exact iff_of_true (hmoved nofun) nofun

/-- The write of a flag is always to a live worker, and no worker is left out. -/
theorem WorkQueue.Sound.marksLive_iff_traversesLive {s : WorkQueue D} (hs : s.Sound) :
    s.MarksLive ↔ s.TraversesLive := by
  obtain ⟨rest, hmarking⟩ := hs.marking
  refine ⟨fun hlive w hw => hlive.accessed w (Or.inr hw), fun hlive => ⟨fun w hw => ?_, fun hover i worker hget => ?_⟩⟩
  · rcases hw with hmark | hadvance
    · -- the worker is the first of those still to be gone through
      obtain ⟨p, hat, hchain⟩ := hmarking.chain
      unfold WorkQueue.At at hat
      rw [hmark] at hat
      subst hat
      cases rest with
      | nil => cases hchain.chain
      | cons i rest =>
        obtain ⟨hw, prev, next, hget, _⟩ := hchain.chain
        rw [Option.some.inj hw, hget]
        rfl
    · exact hlive w hadvance
  · have hall : i ∉ rest := by
      rw [hmarking.rest_eq_nil hover]
      exact List.not_mem_nil
    have hpc : s.pc i ≠ .gone := by
      intro hgone
      rw [hmarking.freed i hgone] at hget
      cases hget
    exact (hmarking.val_eq_true_iff hpc hget).mpr hall

/-- In a run `workqueue_shutdown` accesses only live workers and tells all to terminate, exactly if no worker frees
itself between the setting of its flag and the reading of its `next` pointer. -/
theorem marksLive_iff (numWorkers : ℤ) (acts : List (WorkAction D)) :
    Throughout workStep WorkQueue.MarksLive (.start numWorkers) acts ↔
      EachStep workStep (fun s a => a.SparesNext s) (.start numWorkers) acts := by
  have hstart := WorkQueue.start_sound (D := D) numWorkers
  refine throughout_iff_eachStep workStep (fun s a => a.SparesNext s) WorkQueue.Sound WorkQueue.MarksLive
    (fun _ _ _ hs _ _ hstep => workStep_sound hstep hs) (fun s a next hs hlive hstep => ?_) _ acts hstart
    (hstart.marksLive_iff_traversesLive.mpr nofun)
  rw [(workStep_sound hstep hs).marksLive_iff_traversesLive]
  exact workStep_traversesLive_iff hstep (hs.marksLive_iff_traversesLive.mp hlive)

/-- A worker is marked and frees itself before `workqueue_shutdown` goes on. -/
def freedBeforeNext : List (WorkAction Unit) :=
  [.create .started, .create .started, .shutdown, .shutdown, .worker 1, .worker 1, .worker 1, .worker 1]

/-- The next read is one of freed memory. -/
theorem freedBeforeNext_not_live : ¬ Throughout workStep WorkQueue.MarksLive (.start 2) freedBeforeNext := by
  intro hall
  obtain ⟨final, hrun, hmain, hfreed⟩ : ∃ final : WorkQueue Unit,
      runActions workStep (.start 2) freedBeforeNext = some final ∧ final.main = .advance 1 ∧
        final.cells.get 1 = none := ⟨_, rfl, rfl, rfl⟩
  have hlive := (throughout_final workStep _ _ _ _ hall hrun).accessed 1 (Or.inr hmain)
  rw [hfreed] at hlive
  cases hlive

section Return

/-- Whether the flag of a worker is still off. -/
def flagOff : Option (Cell Bool) → ℕ
  | some ⟨false, _, _⟩ => 1
  | _ => 0

/-- The number of workers whose flag is off. -/
def WorkQueue.flagsOff (s : WorkQueue D) : ℕ := census s.cells.size s.cells.get flagOff

/-- How far `workqueue_shutdown` is from its critical section, apart from the workers to be marked. -/
def MainPc.distance : MainPc → ℕ
  | .init _ | .failed | .advance _ => 3
  | .mark _ => 2
  | .lock => 1
  | .done => 0

/-- What becomes smaller until `workqueue_shutdown` gets the mutex. -/
def WorkQueue.remaining (s : WorkQueue D) : ℕ := s.effort + 3 * s.flagsOff + s.main.distance

/-- `workqueue_init` has returned, `workqueue_shutdown` has not, and what it reads next is live. -/
structure WorkQueue.Stopping (s : WorkQueue D) : Prop where
  sound : s.Sound
  live : s.TraversesLive
  created : ∀ left, s.main ≠ .init (left + 1)
  busy : s.main ≠ .done

/-- One flag is set. -/
theorem flagsOff_mark {s : WorkQueue D} {w : ℕ} {cells : Links Bool} {prev next : Option ℕ}
    (hget : s.cells.get w = some ⟨false, prev, next⟩)
    (hset : s.cells.modify w (fun worker => { worker with val := true }) = some cells) :
    census cells.size cells.get flagOff + 1 = s.flagsOff := by
  have hplace : cells.get = Function.update s.cells.get w (some ⟨true, prev, next⟩) := by
    funext b
    rw [Heap.get_of_modify hset, Function.update_apply, hget]
    rfl
  have hcensus := census_update (Heap.lt_size_of_get hget) s.cells.get flagOff (some ⟨true, prev, next⟩)
  rw [hget] at hcensus
  rw [WorkQueue.flagsOff, size_modify hset, hplace]
  exact hcensus

/-- Until it gets the mutex, `workqueue_shutdown` or the worker that holds the mutex can make a step that brings it
closer. -/
theorem WorkQueue.Stopping.exists_step {s : WorkQueue D} (hs : s.Stopping) :
    (s.main = .lock ∧ s.jobsMutex = none) ∨ ∃ (a : WorkAction D) (next : WorkQueue D),
      (a = .shutdown ∨ ∃ i, a = .worker i) ∧ workStep s a = some next ∧ next.Stopping ∧ next.remaining < s.remaining := by
  obtain ⟨rest, hmarking⟩ := hs.sound.marking
  have hshut (next : WorkQueue D) (hnext : shutdownStep s = some next) (hcreated : ∀ left, next.main ≠ .init (left + 1))
      (hbusy : next.main ≠ .done) (hlt : next.remaining < s.remaining) : ∃ (a : WorkAction D) (next : WorkQueue D),
        (a = .shutdown ∨ ∃ i, a = .worker i) ∧ workStep s a = some next ∧ next.Stopping ∧
          next.remaining < s.remaining := by
    have hstep : workStep s .shutdown = some next := hnext
    refine ⟨.shutdown, next, Or.inl rfl, hstep, ⟨workStep_sound hstep hs.sound, ?_, hcreated, hbusy⟩, hlt⟩
    exact (workStep_traversesLive_iff hstep hs.live).mpr (by simp [WorkAction.SparesNext])
  cases hmain : s.main with
  | init left =>
    cases left with
    | zero =>
      refine Or.inr (hshut { s with main := .mark s.workers } (by rw [shutdownStep, hmain]) (by simp) (by simp) ?_)
      change s.effort + 3 * s.flagsOff + 2 < s.effort + 3 * s.flagsOff + s.main.distance
      rw [hmain]
      exact Nat.lt_succ_self _
    | succ left => exact absurd hmain (hs.created left)
  | failed =>
    refine Or.inr (hshut { s with main := .mark s.workers } (by rw [shutdownStep, hmain]) (by simp) (by simp) ?_)
    change s.effort + 3 * s.flagsOff + 2 < s.effort + 3 * s.flagsOff + s.main.distance
    rw [hmain]
    exact Nat.lt_succ_self _
  | mark worker =>
    cases worker with
    | none =>
      refine Or.inr (hshut { s with main := .lock } (by rw [shutdownStep, hmain]) (by simp) (by simp) ?_)
      change s.effort + 3 * s.flagsOff + 1 < s.effort + 3 * s.flagsOff + s.main.distance
      rw [hmain]
      exact Nat.lt_succ_self _
    | some w =>
      obtain ⟨p, hat, hchain⟩ := hmarking.chain
      unfold WorkQueue.At at hat
      rw [hmain] at hat
      subst hat
      cases rest with
      | nil => cases hchain.chain
      | cons i rest =>
        obtain ⟨hw, prev, next, hget, _⟩ := hchain.chain
        obtain rfl : w = i := Option.some.inj hw
        obtain ⟨cells, hset⟩ := Heap.exists_modify (fun worker : Cell Bool => { worker with val := true }) hget
        have hoff := flagsOff_mark hget hset
        refine Or.inr (hshut { s with cells := cells, main := .advance w }
          (by rw [shutdownStep, hmain]; dsimp only; rw [hset]; rfl) (by simp) (by simp) ?_)
        change 5 * s.waitingCount + census cells.size s.pc WorkerPc.effort + 3 * census cells.size cells.get flagOff + 3 <
          s.effort + 3 * s.flagsOff + s.main.distance
        rw [hmain, size_modify hset, WorkQueue.effort, MainPc.distance]
        rw [size_modify hset] at hoff
        omega
  | advance w =>
    obtain ⟨worker, hget⟩ := Option.isSome_iff_exists.mp (hs.live w hmain)
    refine Or.inr (hshut { s with main := .mark worker.next }
      (by rw [shutdownStep, hmain]; dsimp only; rw [hget]; rfl) (by simp) (by simp) ?_)
    change s.effort + 3 * s.flagsOff + 2 < s.effort + 3 * s.flagsOff + s.main.distance
    rw [hmain]
    exact Nat.lt_succ_self _
  | done => exact absurd hmain hs.busy
  | lock =>
    cases howner : s.jobsMutex with
    | none => exact Or.inl ⟨rfl, rfl⟩
    | some i =>
      have hholds := (hs.sound.guarded.mutex i).mp howner
      have hne (pc : WorkerPc) (hpc : pc.holdsMutex = false) : s.pc i ≠ pc := by
        rintro rfl
        rw [hpc] at hholds
        cases hholds
      obtain ⟨worker, hget⟩ := hmarking.live (hne .gone rfl)
      obtain ⟨next, hstep⟩ := hs.sound.jobs.owner_steps hs.sound.guarded howner hget (hmarking.busy i)
      have hworker := workerStep_cases hstep
      have hlt := hworker.effort_lt hs.sound.jobs hs.sound.guarded (hmarking.busy i)
      have hsame : next.main = s.main ∧ next.cells = s.cells := by
        cases hworker with
        | free hpc => exact absurd hpc (hne .free rfl)
        | lock | found | giveUp | wait | sleep | leave | stay | noJob | take | finish => exact ⟨rfl, rfl⟩
      refine Or.inr ⟨.worker i, next, Or.inr ⟨i, rfl⟩, hstep, ⟨workStep_sound hstep hs.sound, ?_, ?_, ?_⟩, ?_⟩
      · refine (workStep_traversesLive_iff hstep hs.live).mpr fun j hj hpc => ?_
        rw [hmain]
        simp
      · rw [hsame.1]
        exact hs.created
      · rw [hsame.1]
        exact hs.busy
      · rw [WorkQueue.remaining, WorkQueue.remaining, WorkQueue.flagsOff, WorkQueue.flagsOff, hsame.1, hsame.2]
        omega

/-- From every state in which `workqueue_init` has returned and what `workqueue_shutdown` reads next is live, its own
steps and those of the workers can bring it to its return. -/
theorem shutdown_canReturn (numWorkers : ℤ) {acts : List (WorkAction D)} {s : WorkQueue D}
    (hrun : runActions workStep (.start numWorkers) acts = some s) (hlive : s.TraversesLive)
    (hcreated : ∀ left, s.main ≠ .init (left + 1)) :
    ∃ more t, (∀ a ∈ more, a = .shutdown ∨ ∃ i, a = .worker i) ∧ runActions workStep s more = some t ∧
      t.main = .done := by
  have hs : s.Sound :=
    invariant_of_run workStep _ (fun _ _ _ hs hstep => workStep_sound hstep hs) (WorkQueue.start_sound numWorkers) hrun
  by_cases hdone : s.main = .done
  · exact ⟨[], s, fun _ h => absurd h List.not_mem_nil, rfl, hdone⟩
  · obtain ⟨more, t, hmore, hrun', hmain, hfree⟩ := exists_run_of_measure workStep
      (fun a => a = .shutdown ∨ ∃ i, a = .worker i) WorkQueue.Stopping (fun u => u.main = .lock ∧ u.jobsMutex = none)
      WorkQueue.remaining (fun _ hu => hu.exists_step) ⟨hs, hlive, hcreated, hdone⟩
    have hlast : ∃ next, workStep t .shutdown = some next ∧ next.main = .done := by
      change ∃ next, shutdownStep t = some next ∧ next.main = .done
      rw [shutdownStep, hmain]
      exact ⟨_, if_pos hfree, rfl⟩
    obtain ⟨next, hstep, hnext⟩ := hlast
    refine ⟨more ++ [.shutdown], next, fun a ha => ?_, runActions_snoc workStep s t next more _ hrun' hstep, hnext⟩
    rcases List.mem_append.mp ha with ha | ha
    · exact hmore a ha
    · exact Or.inl (List.mem_singleton.mp ha)

end Return

/-- Of two workers the first to be told to terminate has been, and has not been passed. -/
def halfMarked : List (WorkAction Unit) :=
  [.create .started, .create .started, .worker 1, .worker 1, .shutdown, .shutdown]

/-- The other worker is still to be reached. -/
theorem halfMarked_canReturn : ∃ s : WorkQueue Unit, runActions workStep (.start 2) halfMarked = some s ∧
    s.main = .advance 1 ∧
      ∃ more t, (∀ a ∈ more, a = .shutdown ∨ ∃ i, a = .worker i) ∧ runActions workStep s more = some t ∧
        t.main = .done := by
  refine ⟨_, rfl, rfl, @shutdown_canReturn Unit 2 halfMarked _ rfl (fun w hw => ?_) fun left hleft => ?_⟩
  · cases hw
    rfl
  · cases hleft

/-- A queue is shut down while its worker sleeps. -/
def oneShutDown : List (WorkAction Unit) :=
  [.create .started, .worker 0, .worker 0, .worker 0, .shutdown, .shutdown, .shutdown, .shutdown, .shutdown]

/-- A job that is added then is not started, and the worker ends. -/
theorem oneShutDown_ends : ∃ s t : WorkQueue Unit, runActions workStep (.start 1) oneShutDown = some s ∧
    runActions workStep s [.addJob () none, .worker 0, .worker 0, .worker 0, .worker 0] = some t ∧
      poppedIn t.log = poppedIn s.log ∧ ∀ i, t.pc i = .gone ∧ t.cells.get i = none := by
  obtain ⟨s, t, hrun, hdone, hrun', hstuck⟩ : ∃ s t : WorkQueue Unit,
      runActions workStep (.start 1) oneShutDown = some s ∧ s.main = .done ∧
        runActions workStep s [.addJob () none, .worker 0, .worker 0, .worker 0, .worker 0] = some t ∧
          ∀ i, t.pc i = .gone := by
    refine ⟨_, _, rfl, rfl, rfl, fun i => ?_⟩
    match i with
    | 0 | _ + 1 => rfl
  obtain ⟨hlog, _, hends⟩ := shutdown_endsWorkers 1 hrun hdone hrun'
  refine ⟨s, t, hrun, hrun', hlog, hends fun i => ?_⟩
  rw [workStep, workerStep, hstuck i]

end TcpClb
