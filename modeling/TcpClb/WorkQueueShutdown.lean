import TcpClb.WorkQueueDrain

/-!
# Shutting the work queue down

`workqueue_shutdown` sets `terminate` for one worker after the other, without the mutex, and then drops the waiting jobs
and wakes everybody. Once it has returned every worker ends after a few steps of its own and no job is started any more.

A worker that finds its flag set frees itself. If it does so before `workqueue_shutdown` has read its `next` pointer, that
read is one of freed memory.
-/

namespace TcpClb

open TcpClb.Common

variable {D : Type}

/-- From this pointer on the list of workers is still to be gone through. -/
def WorkQueue.At (s : WorkQueue D) (rest : List ℕ) (p : Option ℕ) : Prop :=
  match s.main with
  | .init _ | .failed => s.workers = p
  | .mark q => q = p
  | .advance w => w ∉ rest ∧ ∀ worker, s.cells.get w = some worker → worker.next = p
  | .lock | .done => p = none

/-- The workers without the flag `terminate` are those still to be gone through, no other can go on, and where a worker
takes a job there is one. -/
structure WorkQueue.Marking (s : WorkQueue D) (rest : List ℕ) : Prop where
  chain : ∃ p, s.At rest p ∧ Chained s.cells p (rest.map fun i => (i, false))
  marked : ∀ i, s.pc i ≠ .gone → i ∉ rest → ∃ worker, s.cells.get i = some worker ∧ worker.val = true
  unmarked : ∀ i ∈ rest, s.pc i ≠ .free ∧ s.pc i ≠ .gone
  freed : ∀ i, s.pc i = .gone → s.cells.get i = none
  checked : ∀ i, s.pc i = .check → s.waitingJobs ≠ none ∨ i ∉ rest
  busy : ∀ i, s.pc i = .take → s.waitingJobs ≠ none
  down : s.main = .done → ∀ i, s.pc i ≠ .wait ∧ s.pc i ≠ .asleep ∧ s.pc i ≠ .take

/-- What holds in every run. -/
structure WorkQueue.Sound (s : WorkQueue D) : Prop where
  jobs : s.JobsKept
  guarded : s.Guarded
  marking : ∃ rest, s.Marking rest

/-- What `workqueue_shutdown` reads next is live. -/
def WorkQueue.TraversesLive (s : WorkQueue D) : Prop := ∀ w, s.main = .advance w → (s.cells.get w).isSome

/-- The loop of `workqueue_shutdown` writes and reads only live workers, and when it is over every worker that is not
freed has been told to terminate. -/
structure WorkQueue.MarksLive (s : WorkQueue D) : Prop where
  accessed : ∀ w, s.main = .mark (some w) ∨ s.main = .advance w → (s.cells.get w).isSome
  complete : s.main = .lock ∨ s.main = .done → ∀ i worker, s.cells.get i = some worker → worker.val = true

/-- The step does not free the worker whose `next` pointer is about to be read. -/
def WorkAction.SparesNext (s : WorkQueue D) (a : WorkAction D) : Prop :=
  ∀ i, a = .worker i → s.pc i = .free → s.main ≠ .advance i

section Flags

variable {s : WorkQueue D} {rest : List ℕ}

/-- Every worker still to be gone through has the flag off. -/
theorem WorkQueue.Marking.flag_of_mem (hs : s.Marking rest) {i : ℕ} (hi : i ∈ rest) :
    ∃ worker, s.cells.get i = some worker ∧ worker.val = false := by
  obtain ⟨p, _, hchain⟩ := hs.chain
  obtain ⟨prev, next, hget⟩ := hchain.chain.get_of_mem (i, false) (List.mem_map_of_mem hi)
  exact ⟨_, hget, rfl⟩

/-- The flag of a worker is off exactly if the worker is still to be gone through. -/
theorem WorkQueue.Marking.val_eq_true_iff (hs : s.Marking rest) {i : ℕ} {worker : Cell Bool} (hlive : s.pc i ≠ .gone)
    (hget : s.cells.get i = some worker) : worker.val = true ↔ i ∉ rest := by
  by_cases hi : i ∈ rest
  · obtain ⟨worker', hget', hval⟩ := hs.flag_of_mem hi
    rw [Option.some.inj (hget.symm.trans hget'), hval]
    exact iff_of_false Bool.false_ne_true (not_not.mpr hi)
  · obtain ⟨worker', hget', hval⟩ := hs.marked i hlive hi
    rw [Option.some.inj (hget.symm.trans hget'), hval]
    exact iff_of_true rfl hi

/-- A worker that has not ended is live. -/
theorem WorkQueue.Marking.live (hs : s.Marking rest) {i : ℕ} (hlive : s.pc i ≠ .gone) :
    ∃ worker, s.cells.get i = some worker := by
  by_cases hi : i ∈ rest
  · exact (hs.flag_of_mem hi).imp fun _ h => h.1
  · exact (hs.marked i hlive hi).imp fun _ h => h.1

/-- When all workers have been gone through none is left. -/
theorem WorkQueue.Marking.rest_eq_nil (hs : s.Marking rest) (hmain : s.main = .lock ∨ s.main = .done) : rest = [] := by
  obtain ⟨p, hat, hchain⟩ := hs.chain
  obtain rfl : p = none := by
    unfold WorkQueue.At at hat
    rcases hmain with hmain | hmain <;> rw [hmain] at hat <;> exact hat
  cases rest with
  | nil => rfl
  | cons i rest => cases hchain.chain.1

end Flags

section Steps

variable {s s' : WorkQueue D} {rest : List ℕ}

/-- A worker moves, with the flags as they are. -/
theorem WorkQueue.Marking.goto (hs : s.Marking rest) {i : ℕ} {pc : WorkerPc} (hpc : s'.pc = Function.update s.pc i pc)
    (hlive : s.pc i ≠ .gone) (hcells : s'.cells = s.cells) (hworkers : s'.workers = s.workers) (hmain : s'.main = s.main)
    (hwaiting : ∀ j, j ≠ i → s.pc j = .check ∨ s.pc j = .take → s.waitingJobs ≠ none → s'.waitingJobs ≠ none)
    (hgone : pc ≠ .gone) (hfree : pc = .free → i ∉ rest)
    (hcheck : pc = .check → s'.waitingJobs ≠ none ∨ i ∉ rest) (htake : pc = .take → s'.waitingJobs ≠ none)
    (hdown : s.main = .done → pc ≠ .wait ∧ pc ≠ .asleep ∧ pc ≠ .take) : s'.Marking rest := by
  have hcases (j : ℕ) : s'.pc j = if j = i then pc else s.pc j := by rw [hpc, Function.update_apply]
  refine ⟨?_, fun j hj hjrest => ?_, fun j hj => ?_, fun j hj => ?_, fun j hj => ?_, fun j hj => ?_, fun hdone j => ?_⟩
  · obtain ⟨p, hat, hchain⟩ := hs.chain
    refine ⟨p, ?_, hcells ▸ hchain⟩
    unfold WorkQueue.At at hat ⊢
    rw [hmain, hcells, hworkers]
    exact hat
  · rw [hcells]
    by_cases hji : j = i
    · exact hji ▸ hs.marked i hlive (hji ▸ hjrest)
    · rw [hcases, if_neg hji] at hj
      exact hs.marked j hj hjrest
  · rw [hcases]
    split
    · next hji => exact ⟨fun h => hfree h (hji ▸ hj), hgone⟩
    · exact hs.unmarked j hj
  · rw [hcells]
    rw [hcases] at hj
    split at hj
    · exact absurd hj hgone
    · exact hs.freed j hj
  · rw [hcases] at hj
    split at hj
    · next hji => exact hji ▸ hcheck hj
    · next hji => exact (hs.checked j hj).imp_left (hwaiting j hji (Or.inl hj))
  · rw [hcases] at hj
    split at hj
    · exact htake hj
    · next hji => exact hwaiting j hji (Or.inr hj) (hs.busy j hj)
  · rw [hcases]
    split
    · exact hdown (hmain ▸ hdone)
    · exact hs.down (hmain ▸ hdone) j

/-- A step of a worker keeps the marking. -/
theorem WorkerStep.marking {i : ℕ} (hstep : WorkerStep s i s') (hguarded : s.Guarded) (hs : s.Marking rest) :
    s'.Marking rest := by
  have hsame (j : ℕ) (_ : j ≠ i) (_ : s.pc j = .check ∨ s.pc j = .take) (h : s.waitingJobs ≠ none) :
      s.waitingJobs ≠ none := h
  cases hstep with
  | lock hpc hfree =>
    have hlive : s.pc i ≠ .gone := by rcases hpc with hpc | hpc <;> rw [hpc] <;> exact nofun
    exact hs.goto rfl hlive rfl rfl rfl hsame nofun nofun nofun nofun fun _ => ⟨nofun, nofun, nofun⟩
  | found hpc hwaiting =>
    exact hs.goto rfl (by rw [hpc]; exact nofun) rfl rfl rfl hsame nofun nofun (fun _ => Or.inl hwaiting) nofun
      fun _ => ⟨nofun, nofun, nofun⟩
  | giveUp hpc hwaiting hget hterm =>
    have hlive : s.pc i ≠ .gone := by rw [hpc]; exact nofun
    exact hs.goto rfl hlive rfl rfl rfl hsame nofun nofun
      (fun _ => Or.inr ((hs.val_eq_true_iff hlive hget).mp hterm)) nofun fun _ => ⟨nofun, nofun, nofun⟩
  | wait hpc hwaiting hget hterm =>
    have hlive : s.pc i ≠ .gone := by rw [hpc]; exact nofun
    refine hs.goto rfl hlive rfl rfl rfl hsame nofun nofun nofun nofun fun hdone => ?_
    have hmarked := (hs.val_eq_true_iff hlive hget).mpr (by rw [hs.rest_eq_nil (Or.inr hdone)]; exact List.not_mem_nil)
    rw [hterm] at hmarked
    cases hmarked
  | sleep hpc =>
    exact hs.goto rfl (by rw [hpc]; exact nofun) rfl rfl rfl hsame nofun nofun nofun nofun
      fun hdone => absurd hpc (hs.down hdone i).1
  | leave hpc hget hterm =>
    have hlive : s.pc i ≠ .gone := by rw [hpc]; exact nofun
    exact hs.goto rfl hlive rfl rfl rfl hsame nofun (fun _ => (hs.val_eq_true_iff hlive hget).mp hterm) nofun nofun
      fun _ => ⟨nofun, nofun, nofun⟩
  | stay hpc hget hterm =>
    have hlive : s.pc i ≠ .gone := by rw [hpc]; exact nofun
    have hrest : i ∈ rest := by
      by_contra hi
      rw [(hs.val_eq_true_iff hlive hget).mpr hi] at hterm
      cases hterm
    refine hs.goto rfl hlive rfl rfl rfl hsame nofun nofun nofun
      (fun _ => (hs.checked i hpc).resolve_right (not_not.mpr hrest)) fun hdone => ?_
    rw [hs.rest_eq_nil (Or.inr hdone)] at hrest
    cases hrest
  | noJob hpc hwaiting => exact absurd hwaiting (hs.busy i hpc)
  | take hpc hwaiting hremove =>
    refine hs.goto rfl (by rw [hpc]; exact nofun) rfl rfl rfl (fun j hj hjpc _ => ?_) nofun nofun nofun nofun
      fun _ => ⟨nofun, nofun, nofun⟩
    -- only the worker itself holds the mutex
    have hmine := (hguarded.mutex i).mpr (by rw [hpc]; rfl)
    have hyours := (hguarded.mutex j).mpr (by rcases hjpc with h | h <;> rw [h] <;> rfl)
    exact absurd (Option.some.inj (hyours.symm.trans hmine)) hj
  | finish hpc hfree =>
    exact hs.goto rfl (by rw [hpc]; exact nofun) rfl rfl rfl hsame nofun nofun nofun nofun fun _ => ⟨nofun, nofun, nofun⟩
  | @free cells hpc hfree =>
    have hi : i ∉ rest := fun h => (hs.unmarked i h).1 hpc
    have hget (j : ℕ) (hj : j ≠ i) : cells.get j = s.cells.get j := by rw [Heap.get_of_free hfree, if_neg hj]
    have hcases (j : ℕ) : (s.goto i .gone).pc j = if j = i then .gone else s.pc j := Function.update_apply s.pc i _ j
    have hold (j : ℕ) (pc : WorkerPc) (hne : pc ≠ .gone) (h : (s.goto i .gone).pc j = pc) : s.pc j = pc := by
      rw [hcases] at h
      split at h
      · exact absurd h.symm hne
      · exact h
    refine ⟨?_, fun j hj hjrest => ?_, fun j hj => ?_, fun j hj => ?_, fun j hj => hs.checked j (hold j _ nofun hj),
      fun j hj => hs.busy j (hold j _ nofun hj), fun hdone j => ?_⟩
    · obtain ⟨p, hat, hchain⟩ := hs.chain
      have hnot : i ∉ (rest.map fun j => (j, false)).map Prod.fst := by simpa using hi
      refine ⟨p, ?_, hchain.chain.free hnot hfree, hchain.nodup⟩
      unfold WorkQueue.At at hat ⊢
      change (match s.main with
        | .init _ | .failed => s.workers = p
        | .mark q => q = p
        | .advance w => w ∉ rest ∧ ∀ worker, cells.get w = some worker → worker.next = p
        | .lock | .done => p = none)
      split at hat
      · exact hat
      · exact hat
      · exact hat
      · next w _ =>
        refine ⟨hat.1, fun worker hworker => hat.2 worker ?_⟩
        rw [Heap.get_of_free hfree] at hworker
        split at hworker
        · cases hworker
        · exact hworker
      · exact hat
      · exact hat
    · change (s.goto i .gone).pc j ≠ .gone at hj
      rw [hcases] at hj
      split at hj
      · exact absurd rfl hj
      · next hji =>
        change ∃ worker, cells.get j = some worker ∧ worker.val = true
        rw [hget j hji]
        exact hs.marked j hj hjrest
    · change (s.goto i .gone).pc j ≠ .free ∧ (s.goto i .gone).pc j ≠ .gone
      rw [hcases, if_neg fun hji : j = i => hi (hji ▸ hj)]
      exact hs.unmarked j hj
    · change cells.get j = none
      change (s.goto i .gone).pc j = .gone at hj
      rw [Heap.get_of_free hfree]
      split
      · rfl
      · next hji =>
        rw [hcases, if_neg hji] at hj
        exact hs.freed j hj
    · obtain ⟨h1, h2, h3⟩ := hs.down hdone j
      exact ⟨fun h => h1 (hold j _ nofun h), fun h => h2 (hold j _ nofun h), fun h => h3 (hold j _ nofun h)⟩

/-- A step of `workqueue_init` or `workqueue_shutdown` that moves no worker and leaves the jobs. -/
theorem WorkQueue.Marking.turn {rest' : List ℕ} (hs : s.Marking rest) (hpc : s'.pc = s.pc)
    (hwaiting : s'.waitingJobs = s.waitingJobs) (hdone : s'.main ≠ .done) (hsub : ∀ i ∈ rest', i ∈ rest)
    (hchain : ∃ p, s'.At rest' p ∧ Chained s'.cells p (rest'.map fun i => (i, false)))
    (hmarked : ∀ i, s.pc i ≠ .gone → i ∉ rest' → ∃ worker, s'.cells.get i = some worker ∧ worker.val = true)
    (hfreed : ∀ i, s.cells.get i = none → s'.cells.get i = none) : s'.Marking rest' := by
  refine ⟨hchain, fun i hi hrest => hmarked i (hpc ▸ hi) hrest, fun i hi => ?_, fun i hi => ?_, fun i hi => ?_,
    fun i hi => ?_, fun h => absurd h hdone⟩
  · rw [hpc]
    exact hs.unmarked i (hsub i hi)
  · exact hfreed i (hs.freed i (hpc ▸ hi))
  · rw [hwaiting]
    exact (hs.checked i (hpc ▸ hi)).imp_right fun h hmem => h (hsub i hmem)
  · rw [hwaiting]
    exact hs.busy i (hpc ▸ hi)

/-- A worker is created and put in front of the list. -/
theorem WorkQueue.Marking.created (hs : s.Marking rest) (hguarded : s.Guarded) {left : ℕ} {cells : Links Bool}
    {workers : Option ℕ} (hmain : s.main = .init (left + 1))
    (hadd : llAdd (s.cells.alloc ⟨false, none, none⟩) s.cells.size s.workers = some (cells, workers))
    (hs' : s' = { s.goto s.cells.size .lock with cells := cells, workers := workers, main := .init left }) :
    s'.Marking (s.cells.size :: rest) := by
  subst hs'
  have hget := get_of_llAdd hadd
  have hcases (j : ℕ) : (s.goto s.cells.size .lock).pc j = if j = s.cells.size then .lock else s.pc j :=
    Function.update_apply s.pc _ _ j
  have hold (j : ℕ) (pc : WorkerPc) (hne : pc ≠ .lock) (h : (s.goto s.cells.size .lock).pc j = pc) : s.pc j = pc := by
    rw [hcases] at h
    split at h
    · exact absurd h.symm hne
    · exact h
  obtain ⟨p, hat, hchain⟩ := hs.chain
  have hfresh := hchain.size_notMem
  have hsame (b : ℕ) (hb : b ∈ (rest.map fun i => (i, false)).map Prod.fst) : cells.get b = s.cells.get b := by
    rw [hget, if_neg fun heq : b = s.cells.size => hfresh (heq ▸ hb)]
  have hworkers : s.workers = p := by
    unfold WorkQueue.At at hat
    rw [hmain] at hat
    exact hat
  have hfirst : workers = some s.cells.size := by
    obtain ⟨_, _, h⟩ := Option.map_eq_some_iff.mp hadd
    exact (congrArg Prod.snd h).symm
  refine ⟨⟨some s.cells.size, hfirst, ⟨rfl, none, s.workers, ?_, ?_⟩, ?_⟩, fun j hj hjrest => ?_, fun j hj => ?_,
    fun j hj => ?_, fun j hj => ?_, fun j hj => hs.busy j (hold j _ nofun hj), fun h => by cases h⟩
  · change cells.get s.cells.size = _
    rw [hget, if_pos rfl]
  · exact hworkers ▸ hchain.chain.congr hsame
  · exact List.nodup_cons.mpr ⟨hfresh, hchain.nodup⟩
  · obtain ⟨hne, hjrest⟩ := List.ne_and_not_mem_of_not_mem_cons hjrest
    change (s.goto s.cells.size .lock).pc j ≠ .gone at hj
    change ∃ worker, cells.get j = some worker ∧ worker.val = true
    rw [hcases, if_neg hne] at hj
    rw [hget, if_neg hne]
    exact hs.marked j hj hjrest
  · change (s.goto s.cells.size .lock).pc j ≠ .free ∧ (s.goto s.cells.size .lock).pc j ≠ .gone
    rw [hcases]
    split
    · exact ⟨nofun, nofun⟩
    · next hne => exact hs.unmarked j ((List.mem_cons.mp hj).resolve_left hne)
  · have hgone := hold j .gone nofun hj
    change cells.get j = none
    have hne : j ≠ s.cells.size := by
      rintro rfl
      change (s.goto s.cells.size .lock).pc s.cells.size = .gone at hj
      rw [hcases, if_pos rfl] at hj
      cases hj
    rw [hget, if_neg hne]
    exact hs.freed j hgone
  · refine (hs.checked j (hold j _ nofun hj)).imp_right fun h hmem => ?_
    rcases List.mem_cons.mp hmem with rfl | hmem
    · have hpc := hold _ .check nofun hj
      exact Nat.lt_irrefl _ (hguarded.created _ (by rw [hpc]; exact nofun))
    · exact h hmem

/-- A step of `workqueue_init` or `workqueue_shutdown` marks at most one worker more. -/
theorem MainStep.marking {a : WorkAction D} (hstep : MainStep s a s') (hguarded : s.Guarded) (hs : s.Marking rest) :
    ∃ rest', s'.Marking rest' := by
  obtain ⟨p, hat, hchain⟩ := hs.chain
  have hat' := hat
  unfold WorkQueue.At at hat'
  cases hstep with
  | mallocFails hmain =>
    rw [hmain] at hat'
    exact ⟨rest, hs.turn rfl rfl nofun (fun _ h => h) ⟨p, hat', hchain⟩ hs.marked fun _ h => h⟩
  | @createFails left cells hmain hfree =>
    rw [hmain] at hat'
    have hget (b : ℕ) : cells.get b = s.cells.get b := by
      rw [Heap.get_of_free hfree, Heap.get_alloc]
      by_cases hb : b = s.cells.size
      · rw [if_pos hb, hb, eq_comm]
        by_contra hne
        obtain ⟨x, hx⟩ := Option.ne_none_iff_exists'.mp hne
        exact Nat.lt_irrefl _ (Heap.lt_size_of_get hx)
      · rw [if_neg hb, if_neg hb]
    refine ⟨rest, hs.turn rfl rfl nofun (fun _ h => h) ⟨p, hat', hchain.chain.congr fun b _ => hget b, hchain.nodup⟩
      (fun i hi hrest => ?_) fun i h => (hget i).trans h⟩
    change ∃ worker, cells.get i = some worker ∧ worker.val = true
    rw [hget]
    exact hs.marked i hi hrest
  | started hmain hadd => exact ⟨_, hs.created hguarded hmain hadd rfl⟩
  | begin hmain =>
    have hworkers : s.workers = p := by rcases hmain with hmain | hmain <;> rw [hmain] at hat' <;> exact hat'
    exact ⟨rest, hs.turn rfl rfl nofun (fun _ h => h) ⟨p, hworkers, hchain⟩ hs.marked fun _ h => h⟩
  | marked hmain =>
    rw [hmain] at hat'
    exact ⟨rest, hs.turn rfl rfl nofun (fun _ h => h) ⟨p, hat'.symm, hchain⟩ hs.marked fun _ h => h⟩
  | @mark w cells hmain hset =>
    rw [hmain] at hat'
    subst hat'
    cases rest with
    | nil => cases hchain.chain
    | cons i rest =>
      obtain ⟨hw, prev, next, hget, hrest⟩ := hchain.chain
      obtain rfl : w = i := Option.some.inj hw
      obtain ⟨hnot, hnodup⟩ := List.nodup_cons.mp hchain.nodup
      have hnew : cells.get w = some ⟨true, prev, next⟩ := by
        rw [Heap.get_of_modify hset, if_pos rfl, hget]
        rfl
      have hother (j : ℕ) (hj : j ≠ w) : cells.get j = s.cells.get j := by rw [Heap.get_of_modify hset, if_neg hj]
      refine ⟨rest, hs.turn rfl rfl nofun (fun j hj => List.mem_cons_of_mem w hj)
        ⟨next, ⟨by simpa using hnot, fun worker hworker => ?_⟩, hrest.modify hnot hset, hnodup⟩ (fun j hj hjrest => ?_)
        fun j hj => ?_⟩
      · rw [← Option.some.inj (hnew.symm.trans hworker)]
      · by_cases hjw : j = w
        · exact ⟨_, hjw ▸ hnew, rfl⟩
        · change ∃ worker, cells.get j = some worker ∧ worker.val = true
          rw [hother j hjw]
          refine hs.marked j hj fun hmem => ?_
          rcases List.mem_cons.mp hmem with h | h
          · exact hjw h
          · exact hjrest h
      · have hjw : j ≠ w := by
          rintro rfl
          rw [hget] at hj
          cases hj
        exact (hother j hjw).trans hj
  | @advance w worker hmain hget =>
    rw [hmain] at hat'
    exact ⟨rest, hs.turn rfl rfl nofun (fun _ h => h) ⟨p, hat'.2 worker hget, hchain⟩ hs.marked fun _ h => h⟩
  | clear hmain hfree =>
    obtain rfl := hs.rest_eq_nil (Or.inl hmain)
    have hawake (i : ℕ) (pc : WorkerPc) (hne : pc ≠ .woken) (h : (s.pc i).broadcast = pc) : s.pc i = pc := by
      unfold WorkerPc.broadcast at h
      split at h
      · exact absurd h.symm hne
      · exact h
    have hholds (i : ℕ) (hi : (s.pc i).holdsMutex = true) : False := by
      have howner := (hguarded.mutex i).mpr hi
      rw [hfree] at howner
      cases howner
    refine ⟨[], ⟨none, rfl, rfl, List.nodup_nil⟩, fun i hi _ => ?_, fun i hi => absurd hi List.not_mem_nil,
      fun i hi => hs.freed i (hawake i _ nofun hi), fun _ _ => Or.inr List.not_mem_nil, fun i hi => ?_,
      fun _ i => ⟨fun h => ?_, fun h => ?_, fun h => ?_⟩⟩
    · refine hs.marked i (fun h => hi ?_) List.not_mem_nil
      change (s.pc i).broadcast = .gone
      rw [h]
      rfl
    · exact (hholds i (by rw [hawake i .take nofun hi]; rfl)).elim
    · exact hholds i (by rw [hawake i .wait nofun h]; rfl)
    · change (s.pc i).broadcast = .asleep at h
      have hsleep := hawake i .asleep nofun h
      rw [hsleep] at h
      cases h
    · exact hholds i (by rw [hawake i .take nofun h]; rfl)

/-- Adding a job keeps the marking. -/
theorem WorkQueue.Marking.add (hs : s.Marking rest) {data : D} {woken : Option ℕ} {jobs : Links D} {waiting : Option ℕ}
    (hmay : s.MayWake woken)
    (hadd : llAdd (s.jobs.alloc ⟨data, none, none⟩) s.jobs.size s.waitingJobs = some (jobs, waiting))
    (hs' : s' = { s.wake woken with
      jobs := jobs
      waitingJobs := waiting
      log := s.log ++ [.pushed s.jobs.size] }) : s'.Marking rest := by
  subst hs'
  have hnone : waiting ≠ none := by
    obtain ⟨_, _, h⟩ := Option.map_eq_some_iff.mp hadd
    cases h
    exact nofun
  cases woken with
  | none =>
    exact ⟨hs.chain, hs.marked, hs.unmarked, hs.freed, fun _ _ => Or.inl hnone, fun _ _ => hnone, hs.down⟩
  | some i =>
    exact hs.goto rfl (by rw [hmay.2]; exact nofun) rfl rfl rfl (fun _ _ _ _ => hnone) nofun nofun nofun nofun
      fun _ => ⟨nofun, nofun, nofun⟩

end Steps

/-- Every step keeps what holds in every run. -/
theorem workStep_sound {s s' : WorkQueue D} {a : WorkAction D} (hstep : workStep s a = some s') (hs : s.Sound) :
    s'.Sound := by
  refine ⟨workStep_jobsKept hstep hs.jobs, workStep_guarded hstep hs.guarded, ?_⟩
  obtain ⟨rest, hmarking⟩ := hs.marking
  cases a with
  | create r => exact (createStep_cases hstep).marking hs.guarded hmarking
  | worker i => exact ⟨rest, (workerStep_cases hstep).marking hs.guarded hmarking⟩
  | wake i =>
    obtain ⟨hpc, h⟩ := Option.ite_none_right_eq_some.mp hstep
    cases h
    exact ⟨rest, hmarking.goto rfl (by rw [hpc]; exact nofun) rfl rfl rfl (fun _ _ _ h => h) nofun nofun nofun nofun
      fun _ => ⟨nofun, nofun, nofun⟩⟩
  | addJob data woken =>
    obtain ⟨_, hmay, jobs, waiting, hadd, hs'⟩ := addJobStep_cases hstep
    exact ⟨rest, hmarking.add hmay hadd hs'⟩
  | shutdown => exact (shutdownStep_cases hstep).marking hs.guarded hmarking

/-- Before the first worker is created there is nothing to mark. -/
theorem WorkQueue.start_sound (numWorkers : ℤ) : (WorkQueue.start numWorkers : WorkQueue D).Sound where
  jobs := WorkQueue.start_jobsKept numWorkers
  guarded := WorkQueue.start_guarded numWorkers
  marking := ⟨[], ⟨none, rfl, rfl, List.nodup_nil⟩, fun _ h => absurd rfl h, fun _ h => absurd h List.not_mem_nil,
    fun _ _ => rfl, nofun, nofun, nofun⟩

end TcpClb
