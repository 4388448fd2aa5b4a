import TcpClb.BlockingQueues

/-!
# No thread sleeps on a queue with items

As long as no woken `front` leaves the last item that a sleeping thread waits for, and no move assignment fills a queue on
which threads sleep, every item has a thread on its way to it or no thread sleeps on its queue. So the threads alone,
without any spurious wake-up, make at most two steps each before somebody calls a function again, and when they can make
none, those that still sleep do so on empty queues, unless move assignments wait for each other.
-/

namespace TcpClb

open TcpClb.Common

variable {Q α : Type} [DecidableEq Q]

/-- No thread sleeps on the queue, or it has no more items than threads are on their way to it. -/
def BlockingQueues.Attended (s : BlockingQueues Q α) (a : Q) : Prop :=
  s.asleep a = 0 ∨ (s.queue a).length ≤ s.onWay a

instance BlockingQueues.instDecidableAttended (s : BlockingQueues Q α) (a : Q) : Decidable (s.Attended a) :=
  inferInstanceAs (Decidable (_ ∨ _))

/-- A woken `front` that leaves its item, and a move assignment, come where no thread sleeps on the queue or there are
enough others on their way. -/
def BlockingAction.KeepsAttended (s : BlockingQueues Q α) : BlockingAction Q α → Prop
  | .resume t => ∀ a, s.pc t = .woken a .front → s.queue a ≠ [] → s.asleep a = 0 ∨ (s.queue a).length < s.onWay a
  | .assign t => ∀ a b, s.pc t = .moving a b → s.asleep a = 0 ∨ (s.queue b).length ≤ s.onWay a
  | _ => True

variable {s s' : BlockingQueues Q α}

section Weights

variable (a b : Q) (call : WaitingCall)

@[simp] theorem asleepAt_out : indicator (CallPc.isAsleepAt b) .out = 0 := rfl

@[simp] theorem asleepAt_notify : indicator (CallPc.isAsleepAt b) (.notify a) = 0 := rfl

@[simp] theorem asleepAt_woken : indicator (CallPc.isAsleepAt b) (.woken a call) = 0 := rfl

@[simp] theorem asleepAt_asleep : indicator (CallPc.isAsleepAt b) (.asleep a call) = if b = a then 1 else 0 := by
  simp [indicator, CallPc.isAsleepAt]

@[simp] theorem onWayTo_out : indicator (CallPc.isOnWayTo b) .out = 0 := rfl

@[simp] theorem onWayTo_asleep : indicator (CallPc.isOnWayTo b) (.asleep a call) = 0 := rfl

@[simp] theorem onWayTo_notify : indicator (CallPc.isOnWayTo b) (.notify a) = if b = a then 1 else 0 := by
  simp [indicator, CallPc.isOnWayTo]

@[simp] theorem onWayTo_woken : indicator (CallPc.isOnWayTo b) (.woken a call) = if b = a then 1 else 0 := by
  simp [indicator, CallPc.isOnWayTo]

end Weights

/-- How the numbers of threads change when one moves. -/
theorem BlockingQueues.counts_goto (s : BlockingQueues Q α) {t : ℕ} {old : CallPc Q} (ht : t < s.threads)
    (hpc : s.pc t = old) (pc : CallPc Q) (a : Q) :
    (s.goto t pc).asleep a + indicator (CallPc.isAsleepAt a) old = s.asleep a + indicator (CallPc.isAsleepAt a) pc ∧
      (s.goto t pc).onWay a + indicator (CallPc.isOnWayTo a) old =
        s.onWay a + indicator (CallPc.isOnWayTo a) pc := by
  subst hpc
  exact ⟨census_update ht s.pc _ pc, census_update ht s.pc _ pc⟩

/-- A queue stays attended if it keeps its items, no thread falls asleep on it, and none that was on its way is not. -/
theorem BlockingQueues.Attended.of_eq {a : Q} (hs : s.Attended a) (hqueue : s'.queue a = s.queue a)
    (hasleep : s'.asleep a ≤ s.asleep a) (honWay : s.onWay a ≤ s'.onWay a) : s'.Attended a := by
  unfold BlockingQueues.Attended at hs ⊢
  rw [hqueue]
  omega

/-- An empty queue is attended. -/
theorem BlockingQueues.attended_of_empty {a : Q} (hempty : s.queue a = []) : s.Attended a := by
  refine Or.inr ?_
  rw [hempty]
  exact Nat.zero_le _

/-- A thread that tests does not sleep. -/
theorem asleepAt_of_test {act : BlockingAction Q α} {t : ℕ} {a : Q} {call : WaitingCall}
    (hact : act = .wait t a call ∧ s.pc t = .out ∨ act = .resume t ∧ s.pc t = .woken a call) (b : Q) :
    indicator (CallPc.isAsleepAt b) (s.pc t) = 0 := by
  obtain ⟨_, hpc⟩ | ⟨_, hpc⟩ := hact
  · rw [hpc, asleepAt_out]
  · rw [hpc, asleepAt_woken]

/-- A thread that tests is on its way to the queue if it was woken. -/
theorem onWayTo_of_test {act : BlockingAction Q α} {t : ℕ} {a : Q} {call : WaitingCall}
    (hact : act = .wait t a call ∧ s.pc t = .out ∨ act = .resume t ∧ s.pc t = .woken a call) (b : Q) :
    indicator (CallPc.isOnWayTo b) (s.pc t) = if b = a ∧ s.pc t = .woken a call then 1 else 0 := by
  obtain ⟨_, hpc⟩ | ⟨_, hpc⟩ := hact
  · simp [hpc]
  · simp [hpc]

/-- The test meets the condition unless it lets a woken `front` leave the last item for which a thread is on its way. -/
theorem keepsAttended_test_iff {act : BlockingAction Q α} {t : ℕ} {a : Q} {call : WaitingCall}
    (hact : act = .wait t a call ∧ s.pc t = .out ∨ act = .resume t ∧ s.pc t = .woken a call) :
    act.KeepsAttended s ↔
      (s.pc t = .woken a .front → s.queue a ≠ [] → s.asleep a = 0 ∨ (s.queue a).length < s.onWay a) := by
  obtain ⟨rfl, hpc⟩ | ⟨rfl, hpc⟩ := hact
  · refine iff_of_true trivial fun h => ?_
    rw [hpc] at h
    cases h
  · constructor
    · intro h
      exact h a
    · intro h b hb
      rw [hpc] at hb
      cases hb
      exact h hpc

/-- Where the test ends, as many threads sleep as before, and if it was woken, one fewer is on its way. -/
theorem counts_of_test {act : BlockingAction Q α} {t : ℕ} {a : Q} {call : WaitingCall} (ht : t < s.threads)
    (hact : act = .wait t a call ∧ s.pc t = .out ∨ act = .resume t ∧ s.pc t = .woken a call) (b : Q) :
    (s.goto t .out).asleep b = s.asleep b ∧
      (s.goto t .out).onWay b + (if b = a ∧ s.pc t = .woken a call then 1 else 0) = s.onWay b := by
  obtain ⟨hasleep, honWay⟩ := s.counts_goto ht rfl .out b
  rw [asleepAt_of_test hact, asleepAt_out] at hasleep
  rw [onWayTo_of_test hact, onWayTo_out] at honWay
  exact ⟨hasleep, honWay⟩

/-- After `front` has returned, the queues are attended exactly if the condition was met. -/
theorem attended_see_iff {act : BlockingAction Q α} {t : ℕ} {a : Q} {item : α} {rest : List α} (ht : t < s.threads)
    (hact : act = .wait t a .front ∧ s.pc t = .out ∨ act = .resume t ∧ s.pc t = .woken a .front)
    (hitem : s.queue a = item :: rest) (hs : ∀ b, s.Attended b) :
    (∀ b, BlockingQueues.Attended { s.goto t .out with log := s.log ++ [.seen a item] } b) ↔ act.KeepsAttended s := by
  rw [keepsAttended_test_iff hact]
  have hne : s.queue a ≠ [] := by
    rw [hitem]
    exact List.cons_ne_nil item rest
  have ha : BlockingQueues.Attended { s.goto t .out with log := s.log ++ [.seen a item] } a ↔
      (s.goto t .out).asleep a = 0 ∨ (s.queue a).length ≤ (s.goto t .out).onWay a := Iff.rfl
  obtain ⟨hasleep, honWay⟩ := counts_of_test ht hact a
  constructor
  · intro h hpc _
    rw [if_pos ⟨rfl, hpc⟩] at honWay
    have := ha.mp (h a)
    omega
  · intro h b
    by_cases hba : b = a
    · subst hba
      by_cases hpc : s.pc t = .woken b .front
      · rw [if_pos ⟨rfl, hpc⟩] at honWay
        have := h hpc hne
        exact ha.mpr (by omega)
      · rw [if_neg (fun h => hpc h.2)] at honWay
        exact (hs b).of_eq rfl (Nat.le_of_eq hasleep) (Nat.le_of_eq honWay.symm)
    · obtain ⟨hasleep, honWay⟩ := counts_of_test ht hact b
      rw [if_neg (fun h => hba h.1)] at honWay
      exact (hs b).of_eq rfl (Nat.le_of_eq hasleep) (Nat.le_of_eq honWay.symm)

/-- After `pop_front` has returned, the queues are still attended. -/
theorem attended_pop {act : BlockingAction Q α} {t : ℕ} {a : Q} {item : α} {rest : List α} (ht : t < s.threads)
    (hact : act = .wait t a .popFront ∧ s.pc t = .out ∨ act = .resume t ∧ s.pc t = .woken a .popFront)
    (hitem : s.queue a = item :: rest) (hs : ∀ b, s.Attended b) (b : Q) :
    BlockingQueues.Attended { s.goto t .out with
      queue := Function.update s.queue a rest
      log := s.log ++ [.popped a item] } b := by
  obtain ⟨hasleep, honWay⟩ := counts_of_test ht hact b
  by_cases hba : b = a
  · subst hba
    refine (hs b).imp (fun h => hasleep.trans h) fun h => ?_
    change (Function.update s.queue b rest b).length ≤ (s.goto t .out).onWay b
    rw [hitem, List.length_cons] at h
    rw [Function.update_self]
    split at honWay <;> omega
  · rw [if_neg (fun h => hba h.1)] at honWay
    exact (hs b).of_eq (Function.update_of_ne hba _ _) (Nat.le_of_eq hasleep) (Nat.le_of_eq honWay.symm)

/-- A step leaves all queues attended exactly if it meets the condition. -/
theorem blockingStep_attended_iff {act : BlockingAction Q α} (hstep : blockingStep s act = some s')
    (hs : ∀ a, s.Attended a) : (∀ a, s'.Attended a) ↔ act.KeepsAttended s := by
  cases blockingStep_cases hstep with
  | @push t a item ht hpc hfree =>
    refine iff_of_true (fun b => ?_) trivial
    obtain ⟨hasleep, honWay⟩ := s.counts_goto ht hpc (.notify a) b
    by_cases hba : b = a
    · subst hba
      rw [onWayTo_out, onWayTo_notify, if_pos rfl] at honWay
      refine (hs b).imp (fun h => hasleep.trans h) fun h => ?_
      change (Function.update s.queue b (s.queue b ++ [item]) b).length ≤ (s.goto t (.notify b)).onWay b
      rw [Function.update_self, List.length_append, List.length_singleton]
      omega
    · exact (hs b).of_eq (Function.update_of_ne hba _ _) (Nat.le_of_eq hasleep) (Nat.le.intro honWay.symm)
  | @notifyNone t a ht hpc hnone =>
    refine iff_of_true (fun b => ?_) trivial
    obtain ⟨hasleep, honWay⟩ := s.counts_goto ht hpc .out b
    by_cases hba : b = a
    · subst hba
      exact Or.inl (hasleep.trans hnone)
    · rw [onWayTo_notify, if_neg hba] at honWay
      exact (hs b).of_eq rfl (Nat.le_of_eq hasleep) (Nat.le_of_eq honWay.symm)
  | @notifyOne t i a call ht hpc hi hasleep =>
    refine iff_of_true (fun b => ?_) trivial
    have hti : t ≠ i := by
      intro h
      rw [h, hasleep] at hpc
      cases hpc
    have hpct : (s.goto i (.woken a call)).pc t = .notify a := (Function.update_of_ne hti _ _).trans hpc
    -- the thread on its way to the queue is now the woken one
    obtain ⟨hasleep1, honWay1⟩ := s.counts_goto hi hasleep (.woken a call) b
    obtain ⟨hasleep2, honWay2⟩ := (s.goto i (.woken a call)).counts_goto ht hpct .out b
    rw [asleepAt_asleep, asleepAt_woken] at hasleep1
    rw [onWayTo_asleep, onWayTo_woken] at honWay1
    rw [asleepAt_notify, asleepAt_out] at hasleep2
    rw [onWayTo_notify, onWayTo_out] at honWay2
    exact (hs b).of_eq rfl (by omega) (by omega)
  | @wakeUp t a call ht hpc =>
    refine iff_of_true (fun b => ?_) trivial
    obtain ⟨hasleep, honWay⟩ := s.counts_goto ht hpc (.woken a call) b
    rw [asleepAt_asleep, asleepAt_woken] at hasleep
    rw [onWayTo_asleep] at honWay
    exact (hs b).of_eq rfl (by omega) (by omega)
  | @sleep _ t a call ht hact hfree hempty =>
    refine iff_of_true (fun b => ?_) ((keepsAttended_test_iff hact).mpr fun _ hne => absurd hempty hne)
    by_cases hba : b = a
    · subst hba
      exact BlockingQueues.attended_of_empty hempty
    · obtain ⟨hasleep, honWay⟩ := s.counts_goto ht rfl (.asleep a call) b
      rw [onWayTo_of_test hact, if_neg (fun h => hba h.1)] at honWay
      rw [asleepAt_asleep, if_neg hba] at hasleep
      exact (hs b).of_eq rfl (by omega) (by omega)
  | see ht hact hfree hitem => exact attended_see_iff ht hact hitem hs
  | @pop _ t a item rest ht hact hfree hitem =>
    have hkeeps : s.pc t ≠ .woken a .front := by
      obtain ⟨_, hpc⟩ | ⟨_, hpc⟩ := hact <;> simp [hpc]
    exact iff_of_true (attended_pop ht hact hitem hs) ((keepsAttended_test_iff hact).mpr fun h => absurd h hkeeps)
  | @clear t a ht hpc hfree =>
    refine iff_of_true (fun b => ?_) trivial
    by_cases hba : b = a
    · subst hba
      exact BlockingQueues.attended_of_empty (Function.update_self _ _ _)
    · exact (hs b).of_eq (Function.update_of_ne hba _ _) (Nat.le_refl _) (Nat.le_refl _)
  | assignSelf => exact iff_of_true hs trivial
  | @move t a b ht hpc hab hfree =>
    refine iff_of_true (fun c => ?_) trivial
    obtain ⟨hasleep, honWay⟩ := s.counts_goto ht hpc (.moving a b) c
    exact (hs c).of_eq rfl (Nat.le_of_eq hasleep) (Nat.le_of_eq honWay.symm)
  | @assign t a b ht hpc hab hfree =>
    have hcounts (c : Q) : (s.goto t .out).asleep c = s.asleep c ∧ (s.goto t .out).onWay c = s.onWay c :=
      s.counts_goto ht hpc .out c
    have ha : BlockingQueues.Attended
        { s.goto t .out with queue := Function.update (Function.update s.queue a (s.queue b)) b [] } a ↔
          s.asleep a = 0 ∨ (s.queue b).length ≤ s.onWay a := by
      change (s.goto t .out).asleep a = 0 ∨
        (Function.update (Function.update s.queue a (s.queue b)) b [] a).length ≤ (s.goto t .out).onWay a ↔ _
      rw [(hcounts a).1, (hcounts a).2, Function.update_of_ne hab, Function.update_self]
    constructor
    · intro h a' b' hpc'
      cases hpc.symm.trans hpc'
      exact ha.mp (h a)
    · intro h c
      by_cases hcb : c = b
      · subst hcb
        exact BlockingQueues.attended_of_empty (Function.update_self _ _ _)
      · by_cases hca : c = a
        · subst hca
          exact ha.mpr (h c b hpc)
        · refine (hs c).of_eq ?_ (Nat.le_of_eq (hcounts c).1) (Nat.le_of_eq (hcounts c).2.symm)
          exact (Function.update_of_ne hcb _ _).trans (Function.update_of_ne hca _ _)

/-- At the start nothing waits. -/
theorem BlockingQueues.start_attended (threads : ℕ) (a : Q) : (.start threads : BlockingQueues Q α).Attended a :=
  attended_of_empty rfl

/-- All queues are attended throughout a run exactly if every step of it meets the condition. -/
theorem attended_throughout_iff (threads : ℕ) (acts : List (BlockingAction Q α)) :
    Throughout blockingStep (fun s => ∀ a, s.Attended a) (.start threads) acts ↔
      EachStep blockingStep (fun s act => act.KeepsAttended s) (.start threads) acts :=
  throughout_iff_eachStep blockingStep _ (fun _ => True) _ (fun _ _ _ _ _ _ _ => trivial)
    (fun _ _ _ _ hs hstep => blockingStep_attended_iff hstep hs) _ acts trivial (BlockingQueues.start_attended threads)

/-- A `front` and a `pop_front` sleep, an item is pushed, and the `front` is woken for it. -/
def frontWoken : List (BlockingAction Unit Bool) :=
  [.wait 0 () .front, .wait 1 () .popFront, .push 2 () true, .notify 2 (some 0), .resume 0]

/-- The `pop_front` goes on sleeping although the queue has an item. -/
theorem frontWoken_not_attended :
    ¬ Throughout blockingStep (fun s => ∀ a, s.Attended a) (.start 3) frontWoken := by
  intro h
  have hlast := throughout_final blockingStep _ _ _ _ h rfl ()
  revert hlast
  decide

/-- The steps that finish what the calls have begun. -/
def BlockingAction.Continues : BlockingAction Q α → Prop
  | .notify _ _ => True
  | .resume _ => True
  | .assign _ => True
  | _ => False

/-- The mutex that a thread asks for in the middle of its call. -/
def CallPc.wants : CallPc Q → Option Q
  | .woken a _ => some a
  | .moving _ b => some b
  | _ => none

/-- Which thread waits for which. -/
def BlockingQueues.waiting (s : BlockingQueues Q α) : WaitGraph ℕ Q where
  wants t := (s.pc t).wants
  owner a := (List.range s.threads).find? fun t => (s.pc t).holds a

/-- How many steps a thread still makes before it sleeps or has returned, counting the one it may wake. -/
def CallPc.stepsLeft : CallPc Q → ℕ
  | .out => 0
  | .asleep _ _ => 0
  | .woken _ _ => 1
  | .moving _ _ => 1
  | .notify _ => 2

/-- The steps of all threads. -/
def BlockingQueues.stepsLeft (s : BlockingQueues Q α) : ℕ := census s.threads s.pc CallPc.stepsLeft

/-- No step creates or ends a thread. -/
theorem BlockingStep.threads_eq {act : BlockingAction Q α} (hstep : BlockingStep s act s') : s'.threads = s.threads := by
  cases hstep <;> rfl

omit [DecidableEq Q] in
/-- How the number of steps changes when a thread moves. -/
theorem BlockingQueues.stepsLeft_goto (s : BlockingQueues Q α) {t : ℕ} {old : CallPc Q} (ht : t < s.threads)
    (hpc : s.pc t = old) (pc : CallPc Q) :
    (s.goto t pc).stepsLeft + old.stepsLeft = s.stepsLeft + pc.stepsLeft := by
  subst hpc
  exact census_update ht s.pc _ pc

/-- Every step that finishes a call brings the threads closer to the end. -/
theorem BlockingStep.stepsLeft_lt {act : BlockingAction Q α} (hstep : BlockingStep s act s') (hact : act.Continues) :
    s'.stepsLeft < s.stepsLeft := by
  have htest {t : ℕ} {a : Q} {call : WaitingCall} {new : CallPc Q} (ht : t < s.threads)
      (htesting : act = .wait t a call ∧ s.pc t = .out ∨ act = .resume t ∧ s.pc t = .woken a call)
      (hnew : new.stepsLeft = 0) : (s.goto t new).stepsLeft < s.stepsLeft := by
    obtain ⟨rfl, _⟩ | ⟨_, hpc⟩ := htesting
    · cases hact
    · have hmove := s.stepsLeft_goto ht hpc new
      rw [hnew] at hmove
      simp only [CallPc.stepsLeft] at hmove
      omega
  cases hstep with
  | push | wakeUp | clear | assignSelf | move => cases hact
  | assign ht hpc =>
    have hmove := s.stepsLeft_goto ht hpc .out
    simp only [CallPc.stepsLeft] at hmove
    change (s.goto _ .out).stepsLeft < s.stepsLeft
    omega
  | notifyNone ht hpc =>
    have hmove := s.stepsLeft_goto ht hpc .out
    simp only [CallPc.stepsLeft] at hmove
    omega
  | @notifyOne t i a call ht hpc hi hasleep =>
    have hti : t ≠ i := by
      intro h
      rw [h, hasleep] at hpc
      cases hpc
    have hpct : (s.goto i (.woken a call)).pc t = .notify a := (Function.update_of_ne hti _ _).trans hpc
    have hwoken := s.stepsLeft_goto hi hasleep (.woken a call)
    have hmove := (s.goto i (.woken a call)).stepsLeft_goto ht hpct .out
    simp only [CallPc.stepsLeft] at hwoken hmove
    omega
  | sleep ht htesting => exact htest ht htesting rfl
  | see ht htesting => exact htest ht htesting rfl
  | pop ht htesting => exact htest ht htesting rfl

/-- A mutex that is not free is that of a thread in a move assignment. -/
theorem BlockingQueues.owner_of_not_free {a : Q} (hlocked : ¬ s.Free a) :
    ∃ u < s.threads, s.waiting.owner a = some u ∧ ∃ b, s.pc u = .moving a b := by
  obtain ⟨j, hj, hpos⟩ := exists_of_census_pos (Nat.pos_of_ne_zero hlocked)
  have hholds : (s.pc j).holds a = true := by
    by_contra hfalse
    rw [indicator, if_neg hfalse] at hpos
    cases hpos
  cases howner : s.waiting.owner a with
  | none => exact absurd hholds (List.find?_eq_none.mp howner j (List.mem_range.mpr hj))
  | some u =>
    have hu := List.find?_some howner
    refine ⟨u, List.mem_range.mp (List.mem_of_find?_eq_some howner), rfl, ?_⟩
    cases hpc : s.pc u with
    | moving b c =>
      rw [hpc] at hu
      obtain rfl : a = b := of_decide_eq_true hu
      exact ⟨c, rfl⟩
    | out | notify b | asleep b call | woken b call =>
      rw [hpc] at hu
      cases hu

section Stuck

variable (hstuck : ∀ act : BlockingAction Q α, act.Continues → blockingStep s act = none)
include hstuck

/-- A notification is always possible. -/
theorem BlockingQueues.notify_of_stuck {t : ℕ} (ht : t < s.threads) (a : Q) : s.pc t ≠ .notify a := by
  intro hpc
  have hnone (woken : Option ℕ) : ¬ s.MayWake a woken := by
    intro hmay
    have := hstuck (.notify t woken) trivial
    rw [blockingStep, hpc] at this
    simp only [if_pos (And.intro ht hmay)] at this
    cases this
  obtain ⟨j, hj, hpos⟩ := exists_of_census_pos (Nat.pos_of_ne_zero (hnone none))
  refine hnone (some j) ⟨hj, ?_⟩
  by_contra hfalse
  rw [indicator, if_neg hfalse] at hpos
  cases hpos

/-- So is the second step of some move assignment, unless they wait for each other in a circle. -/
theorem BlockingQueues.moving_of_stuck (hopen : s.waiting.DeadlockFree) {t : ℕ} (ht : t < s.threads) (a b : Q) :
    s.pc t ≠ .moving a b := by
  intro hpc
  let movers : Set ℕ := {u | u < s.threads ∧ ∃ a b, s.pc u = .moving a b}
  have hfin : movers.Finite := (Set.finite_lt_nat s.threads).subset fun _ hu => hu.1
  obtain ⟨u, ⟨hu, c, d, hpcu⟩, hnone⟩ := hopen.exists_not_waits hfin ⟨t, ht, a, b, hpc⟩
  have hlocked : ¬ s.Free d := by
    intro hfree
    have := hstuck (.assign u) trivial
    rw [blockingStep, hpcu] at this
    simp only [if_pos (And.intro hu hfree)] at this
    cases this
  obtain ⟨v, hv, howner, e, hpcv⟩ := BlockingQueues.owner_of_not_free hlocked
  refine hnone v ⟨hv, d, e, hpcv⟩ ⟨d, ?_, howner⟩
  change (s.pc u).wants = some d
  rw [hpcu]
  rfl

/-- Then all mutexes are free, so a woken thread can test. -/
theorem BlockingQueues.woken_of_stuck (hopen : s.waiting.DeadlockFree) {t : ℕ} (ht : t < s.threads) (a : Q)
    (call : WaitingCall) : s.pc t ≠ .woken a call := by
  intro hpc
  have hfree : s.Free a := by
    by_contra hlocked
    obtain ⟨u, hu, _, b, hpcu⟩ := BlockingQueues.owner_of_not_free hlocked
    exact BlockingQueues.moving_of_stuck hstuck hopen hu a b hpcu
  have := hstuck (.resume t) trivial
  rw [blockingStep, hpc] at this
  simp only [if_pos (And.intro ht hfree)] at this
  cases this

/-- When no call can be finished, and no move assignments wait for each other, the threads have returned or sleep on
queues that are empty if they are attended. -/
theorem BlockingQueues.settled (hs : ∀ a, s.Attended a) (hopen : s.waiting.DeadlockFree) {t : ℕ} (ht : t < s.threads) :
    s.pc t = .out ∨ ∃ a call, s.pc t = .asleep a call ∧ s.queue a = [] := by
  have hnotify {i : ℕ} (hi : i < s.threads) (a : Q) := BlockingQueues.notify_of_stuck hstuck hi a
  have hmoving {i : ℕ} (hi : i < s.threads) (a b : Q) := BlockingQueues.moving_of_stuck hstuck hopen hi a b
  have hwoken {i : ℕ} (hi : i < s.threads) (a : Q) (call : WaitingCall) :=
    BlockingQueues.woken_of_stuck hstuck hopen hi a call
  cases hpc : s.pc t with
  | out => exact Or.inl rfl
  | notify a => exact absurd hpc (hnotify ht a)
  | woken a call => exact absurd hpc (hwoken ht a call)
  | moving a b => exact absurd hpc (hmoving ht a b)
  | asleep a call =>
    refine Or.inr ⟨a, call, rfl, ?_⟩
    have honWay : s.onWay a = 0 := by
      refine census_eq_zero_iff.mpr fun i hi => ?_
      cases hpci : s.pc i with
      | out | asleep b call | moving b c => rfl
      | notify b => exact absurd hpci (hnotify hi b)
      | woken b call => exact absurd hpci (hwoken hi b call)
    have hasleep : 1 ≤ s.asleep a := by
      have hle := le_census ht s.pc (indicator (CallPc.isAsleepAt a))
      rwa [hpc, asleepAt_asleep, if_pos rfl] at hle
    rcases hs a with h | h
    · omega
    · rw [honWay] at h
      exact List.length_eq_zero_iff.mp (Nat.le_zero.mp h)

end Stuck

/-- In a run whose steps meet the condition and which ends with steps that finish calls, these are at most two for each
thread, and when there are no more, the threads that have not returned sleep on empty queues, unless move assignments
wait for each other in a circle. -/
theorem calls_settle (threads : ℕ) {acts more : List (BlockingAction Q α)}
    (hacts : EachStep blockingStep (fun s act => act.KeepsAttended s) (.start threads) (acts ++ more))
    {s t : BlockingQueues Q α} (hrun : runActions blockingStep (.start threads) acts = some s)
    (hmore : ∀ act ∈ more, act.Continues) (hrun' : runActions blockingStep s more = some t) :
    more.length ≤ 2 * threads ∧ ((∀ act : BlockingAction Q α, act.Continues → blockingStep t act = none) →
      t.waiting.DeadlockFree →
        ∀ i < threads, t.pc i = .out ∨ ∃ a call, t.pc i = .asleep a call ∧ t.queue a = []) := by
  have hkeep (u : BlockingQueues Q α) (act : BlockingAction Q α) (next : BlockingQueues Q α) (hu : u.threads = threads)
      (hstep : blockingStep u act = some next) : next.threads = threads :=
    (blockingStep_cases hstep).threads_eq.trans hu
  have hs : s.threads = threads := invariant_of_run blockingStep _ hkeep rfl hrun
  have ht : t.threads = threads := invariant_of_run blockingStep _ hkeep hs hrun'
  obtain ⟨_, hle⟩ := length_add_le_of_measure blockingStep BlockingAction.Continues (fun _ => True)
    BlockingQueues.stepsLeft (fun u act next _ hact hstep => ⟨trivial, (blockingStep_cases hstep).stepsLeft_lt hact⟩)
    trivial hmore hrun'
  have hbound : s.stepsLeft ≤ s.threads * 2 := by
    refine census_le_mul fun i _ => ?_
    cases s.pc i <;> simp [CallPc.stepsLeft]
  refine ⟨by omega, fun hstuck hopen i hi => ?_⟩
  have hall : ∀ a, t.Attended a := by
    refine throughout_final blockingStep (fun u => ∀ a, u.Attended a) (.start threads) t (acts ++ more) ?_ ?_
    · exact throughout_of_eachStep blockingStep _ (fun u => ∀ a, u.Attended a) _ (fun _ hu => hu)
        (fun u act next hu hcond hstep => (blockingStep_attended_iff hstep hu).mpr hcond) _ _
        (BlockingQueues.start_attended threads) hacts
    · rw [runActions_append, hrun]
      exact hrun'
  exact BlockingQueues.settled hstuck hall hopen (ht ▸ hi)

/-- Two threads sleep, an item is pushed, and a move assignment begins. -/
def popsWait : List (BlockingAction Bool Unit) :=
  [.wait 0 true .popFront, .wait 1 true .popFront, .push 2 true (), .moveAssign 3 false true]

/-- The item is handed to one of the threads, and the other goes on sleeping. -/
def handedOver : List (BlockingAction Bool Unit) := [.notify 2 (some 0), .resume 0, .assign 3]

/-- The queue on which it sleeps is empty. -/
theorem popsWait_settle : ∃ s t, runActions blockingStep (.start 4) popsWait = some s ∧
    runActions blockingStep s handedOver = some t ∧ handedOver.length ≤ 2 * 4 ∧
      ∃ a call, t.pc 1 = .asleep a call ∧ t.queue a = [] := by
  have hacts : EachStep blockingStep (fun s act => act.KeepsAttended s) (.start 4) (popsWait ++ handedOver) := by
    apply EachStep.cons rfl trivial
    apply EachStep.cons rfl trivial
    apply EachStep.cons rfl trivial
    apply EachStep.cons rfl trivial
    apply EachStep.cons rfl trivial
    refine EachStep.cons rfl (fun a hpc => by cases hpc) ?_
    refine EachStep.cons rfl (fun a b hpc => Or.inl ?_) trivial
    cases hpc
    decide
  obtain ⟨s, t, hrun, hrun', hone, hothers⟩ : ∃ s t, runActions blockingStep (.start 4) popsWait = some s ∧
      runActions blockingStep s handedOver = some t ∧ t.pc 1 = .asleep true .popFront ∧
        ∀ i, i ≠ 1 → t.pc i = .out := by
    refine ⟨_, _, rfl, rfl, rfl, fun i hi => ?_⟩
    match i with
    | 0 | 2 | 3 | _ + 4 => rfl
    | 1 => exact absurd rfl hi
  have hpc (i : ℕ) : t.pc i = .out ∨ t.pc i = .asleep true .popFront := by
    by_cases hi : i = 1
    · exact Or.inr (hi ▸ hone)
    · exact Or.inl (hothers i hi)
  have hstuck (act : BlockingAction Bool Unit) (hact : act.Continues) : blockingStep t act = none := by
    cases act with
    | notify i woken | resume i | assign i => rcases hpc i with h | h <;> rw [blockingStep, h]
    | push | wait | wakeUp | clear | moveAssign => cases hact
  have hopen : t.waiting.DeadlockFree := by
    intro i hcircle
    obtain ⟨j, ⟨m, hwants, _⟩, _⟩ := Relation.TransGen.head'_iff.mp hcircle
    change (t.pc i).wants = some m at hwants
    rcases hpc i with h | h <;> rw [h] at hwants <;> cases hwants
  obtain ⟨hbound, hsettled⟩ := calls_settle 4 hacts hrun (by simp [handedOver, BlockingAction.Continues]) hrun'
  refine ⟨s, t, hrun, hrun', hbound, (hsettled hstuck hopen 1 (by decide)).resolve_left fun h => ?_⟩
  rw [hone] at h
  cases h

/-- Two threads assign two queues to each other. -/
def assignedToEachOther : List (BlockingAction Bool Unit) := [.moveAssign 0 false true, .moveAssign 1 true false]

/-- Each of them has locked the mutex for which the other waits. -/
theorem assignedToEachOther_circle : ∃ t, runActions blockingStep (.start 2) assignedToEachOther = some t ∧
    ¬ t.waiting.DeadlockFree :=
  ⟨_, rfl, fun hopen => hopen 0 (.head ⟨true, rfl, rfl⟩ (.single ⟨false, rfl, rfl⟩))⟩

end TcpClb
