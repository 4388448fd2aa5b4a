import TcpClb.Common.Census
import TcpClb.WorkQueueJobs

/-!
# Who holds the mutex of the work queue

At most one worker is between the return of `pthread_mutex_lock` or `pthread_cond_wait` and the release that follows, and
it is the one that holds `jobs_mutex`. Together with the sleeping workers this says who can make the next step.
-/

namespace TcpClb

open TcpClb.Common

variable {D : Type}

/-- A worker at this position holds `jobs_mutex`. -/
def WorkerPc.holdsMutex : WorkerPc → Bool
  | .test | .wait | .check | .take => true
  | _ => false

/-- The worker that holds `jobs_mutex` is the only one at such a position, and workers are numbered as they are created. -/
structure WorkQueue.Guarded (s : WorkQueue D) : Prop where
  mutex : ∀ i, s.jobsMutex = some i ↔ (s.pc i).holdsMutex = true
  created : ∀ i, s.pc i ≠ .gone → i < s.cells.size

/-- A worker moves, and takes or releases the mutex as its positions say. -/
theorem WorkQueue.Guarded.goto {s s' : WorkQueue D} (hs : s.Guarded) {i : ℕ} {pc : WorkerPc}
    (hpc : s'.pc = Function.update s.pc i pc)
    (hmutex : s'.jobsMutex =
      if pc.holdsMutex then some i else if (s.pc i).holdsMutex then none else s.jobsMutex)
    (hfree : pc.holdsMutex = true → (s.pc i).holdsMutex = true ∨ s.jobsMutex = none)
    (hi : i < s'.cells.size) (hsize : s.cells.size ≤ s'.cells.size) : s'.Guarded := by
  refine ⟨fun j => ?_, fun j hj => ?_⟩
  · rw [hpc, hmutex]
    by_cases hji : j = i
    · subst hji
      rw [Function.update_self]
      cases hnew : pc.holdsMutex with
      | true => simp
      | false =>
        cases hold : (s.pc j).holdsMutex with
        | true => simp
        | false =>
          simp only [Bool.false_eq_true, if_false, iff_false]
          exact fun h => Bool.false_ne_true (hold.symm.trans ((hs.mutex j).mp h))
    · rw [Function.update_of_ne hji, ← hs.mutex j]
      cases hnew : pc.holdsMutex with
      | true =>
        have hnone : s.jobsMutex ≠ some j := by
          rcases hfree hnew with hold | hfree
          · rw [(hs.mutex i).mpr hold]
            exact fun h => hji (Option.some.inj h).symm
          · rw [hfree]
            exact nofun
        simp only [if_true, Option.some.injEq]
        exact ⟨fun h => absurd h.symm hji, fun h => absurd h hnone⟩
      | false =>
        cases hold : (s.pc i).holdsMutex with
        | true =>
          rw [(hs.mutex i).mpr hold]
          simp [Ne.symm hji]
        | false => simp
  · rw [hpc] at hj
    by_cases hji : j = i
    · rw [hji]
      exact hi
    · rw [Function.update_of_ne hji] at hj
      exact (hs.created j hj).trans_le hsize

/-- A step that moves no worker. -/
theorem WorkQueue.Guarded.keep {s s' : WorkQueue D} (hs : s.Guarded) (hpc : s'.pc = s.pc)
    (hmutex : s'.jobsMutex = s.jobsMutex) (hsize : s.cells.size ≤ s'.cells.size) : s'.Guarded := by
  refine ⟨fun i => ?_, fun i hi => ?_⟩
  · rw [hpc, hmutex]
    exact hs.mutex i
  · exact (hs.created i (hpc ▸ hi)).trans_le hsize

/-- Allocation and update of the workers only add to them. -/
theorem size_modify {α : Type*} {h h' : Heap α} {a : ℕ} {f : α → α} (hm : h.modify a f = some h') :
    h'.size = h.size := by
  obtain ⟨_, _, rfl⟩ := (Heap.modify_eq_some_iff _ _ _ _).mp hm
  simp [Heap.size]

/-- So does freeing one. -/
theorem size_free {α : Type*} {h h' : Heap α} {a : ℕ} (hf : h.free a = some h') : h'.size = h.size := by
  obtain ⟨_, _, rfl⟩ := Option.map_eq_some_iff.mp hf
  simp [Heap.size]

/-- One worker more. -/
theorem size_alloc {α : Type*} (h : Heap α) (x : α) : (h.alloc x).size = h.size + 1 := by
  simp [Heap.size, Heap.alloc]

/-- A worker keeps the mutex guarded. -/
theorem WorkerStep.guarded {s s' : WorkQueue D} {i : ℕ} (hstep : WorkerStep s i s') (hs : s.Guarded) : s'.Guarded := by
  have hi : s.pc i ≠ .gone → i < s.cells.size := hs.created i
  cases hstep with
  | lock hpc hfree =>
    refine hs.goto rfl rfl (fun _ => Or.inr hfree) (hi ?_) le_rfl
    rcases hpc with hpc | hpc <;> rw [hpc] <;> exact nofun
  | found hpc | giveUp hpc | wait hpc | stay hpc =>
    have hheld : (s.pc i).holdsMutex = true := by rw [hpc]; rfl
    exact hs.goto rfl ((hs.mutex i).mpr hheld) (fun _ => Or.inl hheld) (hi (by rw [hpc]; exact nofun)) le_rfl
  | sleep hpc | leave hpc | noJob hpc | take hpc =>
    exact hs.goto rfl (by rw [hpc]; rfl) nofun (hi (by rw [hpc]; exact nofun)) le_rfl
  | finish hpc hfree => exact hs.goto rfl (by rw [hpc]; rfl) nofun (hi (by rw [hpc]; exact nofun)) le_rfl
  | free hpc hfree =>
    have hsize := size_free hfree
    exact hs.goto rfl (by rw [hpc]; rfl) nofun ((hi (by rw [hpc]; exact nofun)).trans_eq hsize.symm) hsize.ge

/-- A broadcast moves nobody to or from a position with the mutex. -/
theorem holdsMutex_broadcast (pc : WorkerPc) : pc.broadcast.holdsMutex = pc.holdsMutex := by
  cases pc <;> rfl

/-- What `LL_ADD` of a new worker does to the number of workers. -/
theorem size_llAdd {α : Type*} {h h' : Links α} {v : Cell α} {list list' : Option ℕ}
    (hadd : llAdd (h.alloc v) h.size list = some (h', list')) : h'.size = h.size + 1 := by
  obtain ⟨heap, hheap, h⟩ := Option.map_eq_some_iff.mp hadd
  cases h
  rw [size_modify hheap, size_alloc]

/-- `workqueue_init` and `workqueue_shutdown` keep the mutex guarded. -/
theorem MainStep.guarded {s s' : WorkQueue D} {a : WorkAction D} (hstep : MainStep s a s') (hs : s.Guarded) :
    s'.Guarded := by
  cases hstep with
  | mallocFails hmain => exact hs.keep rfl rfl le_rfl
  | createFails hmain hfree =>
    refine hs.keep rfl rfl ?_
    have hsize := size_free hfree
    rw [size_alloc] at hsize
    exact (Nat.le_succ _).trans_eq hsize.symm
  | started hmain hadd =>
    have hsize := size_llAdd hadd
    have hgone : (s.pc s.cells.size).holdsMutex = false := by
      by_contra h
      have hne : s.pc s.cells.size ≠ .gone := fun heq => h (by rw [heq]; rfl)
      exact Nat.lt_irrefl _ (hs.created _ hne)
    exact hs.goto rfl (by rw [hgone]; rfl) nofun ((Nat.lt_succ_self _).trans_eq hsize.symm)
      ((Nat.le_succ _).trans_eq hsize.symm)
  | begin | marked | advance => exact hs.keep rfl rfl le_rfl
  | mark hmain hset => exact hs.keep rfl rfl (size_modify hset).ge
  | clear hmain hfree =>
    refine ⟨fun i => ?_, fun i hi => hs.created i fun h => hi ?_⟩
    · change s.jobsMutex = some i ↔ (s.pc i).broadcast.holdsMutex = true
      rw [holdsMutex_broadcast]
      exact hs.mutex i
    · change (s.pc i).broadcast = .gone
      rw [h]
      rfl

/-- Waking a sleeping worker keeps the mutex guarded. -/
theorem WorkQueue.Guarded.wakeOne {s s' : WorkQueue D} (hs : s.Guarded) {i : ℕ} (hpc : s.pc i = .asleep)
    (hpc' : s'.pc = Function.update s.pc i .woken) (hmutex : s'.jobsMutex = s.jobsMutex)
    (hcells : s'.cells = s.cells) : s'.Guarded := by
  have hi : i < s.cells.size := hs.created i (by rw [hpc]; exact nofun)
  refine hs.goto hpc' ?_ nofun (hcells ▸ hi) (hcells ▸ le_rfl)
  rw [hmutex, hpc]
  rfl

/-- Every step keeps the mutex guarded. -/
theorem workStep_guarded {s s' : WorkQueue D} {a : WorkAction D} (hstep : workStep s a = some s') (hs : s.Guarded) :
    s'.Guarded := by
  cases a with
  | create r => exact (createStep_cases hstep).guarded hs
  | worker i => exact (workerStep_cases hstep).guarded hs
  | wake i =>
    obtain ⟨hpc, h⟩ := Option.ite_none_right_eq_some.mp hstep
    cases h
    exact hs.wakeOne hpc rfl rfl rfl
  | addJob data woken =>
    obtain ⟨hfree, hmay, jobs, waiting, _, rfl⟩ := addJobStep_cases hstep
    cases woken with
    | none => exact hs.keep rfl rfl le_rfl
    | some i => exact hs.wakeOne hmay.2 rfl rfl rfl
  | shutdown => exact (shutdownStep_cases hstep).guarded hs

/-- Before the first worker is created nobody holds the mutex. -/
theorem WorkQueue.start_guarded (numWorkers : ℤ) : (WorkQueue.start numWorkers : WorkQueue D).Guarded where
  mutex _ := iff_of_false nofun nofun
  created _ h := absurd rfl h

end TcpClb
