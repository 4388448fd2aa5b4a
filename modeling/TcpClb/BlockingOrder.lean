import TcpClb.BlockingQueues

/-!
# The order of the items

Whatever the threads do, the `pop_front` calls get the items of a queue in the order in which they were pushed, each of
them once. Items are lost or come to another queue only where a queue that has some is cleared or takes part in a move
assignment.
-/

namespace TcpClb

open TcpClb.Common

variable {Q α : Type} [DecidableEq Q]

/-- The items that were pushed to a queue. -/
def pushedTo (a : Q) (log : List (ItemEvent Q α)) : List α :=
  log.filterMap fun
    | .pushed b item => if b = a then some item else none
    | _ => none

/-- The items that were popped from a queue. -/
def poppedFrom (a : Q) (log : List (ItemEvent Q α)) : List α :=
  log.filterMap fun
    | .popped b item => if b = a then some item else none
    | _ => none

/-- What was pushed has been popped in the same order, or is still in the queue. -/
def BlockingQueues.InOrder (a : Q) (s : BlockingQueues Q α) : Prop :=
  pushedTo a s.log = poppedFrom a s.log ++ s.queue a

/-- Only empty queues are cleared or take part in an assignment. -/
def BlockingAction.KeepsItems (s : BlockingQueues Q α) : BlockingAction Q α → Prop
  | .clear _ a => s.queue a = []
  | .assign t => ∀ a b, s.pc t = .moving a b → s.queue a = [] ∧ s.queue b = []
  | _ => True

variable {s s' : BlockingQueues Q α}

/-- Where only the contents of a queue change, it stays in order exactly if they do not. -/
theorem BlockingQueues.InOrder.rearranged_iff {a : Q} (hs : s.InOrder a) (queue : Q → List α) :
    BlockingQueues.InOrder a { s with queue := queue } ↔ queue a = s.queue a := by
  unfold BlockingQueues.InOrder at hs ⊢
  rw [hs, List.append_cancel_left_eq, eq_comm]

/-- A step keeps the queues in order exactly if it rearranges only empty ones. -/
theorem blockingStep_inOrder_iff {act : BlockingAction Q α} (hstep : blockingStep s act = some s')
    (hs : ∀ a, s.InOrder a) : (∀ a, s'.InOrder a) ↔ act.KeepsItems s := by
  cases blockingStep_cases hstep with
  | notifyNone | notifyOne | wakeUp | assignSelf | move => exact iff_of_true hs trivial
  | sleep _ hact => exact iff_of_true hs (by obtain ⟨rfl, _⟩ | ⟨rfl, _⟩ := hact <;> trivial)
  | see _ hact =>
    refine iff_of_true (fun a => ?_) (by obtain ⟨rfl, _⟩ | ⟨rfl, _⟩ := hact <;> trivial)
    simpa [BlockingQueues.InOrder, pushedTo, poppedFrom, BlockingQueues.goto] using hs a
  | @push t b item =>
    refine iff_of_true (fun a => ?_) trivial
    have ha := hs a
    unfold BlockingQueues.InOrder pushedTo poppedFrom at ha ⊢
    by_cases hab : a = b
    · subst hab
      simp [ha]
    · simp [Function.update_of_ne hab, Ne.symm hab, ha]
  | @pop _ t b item rest ht hact hfree hitem =>
    refine iff_of_true (fun a => ?_) (by obtain ⟨rfl, _⟩ | ⟨rfl, _⟩ := hact <;> trivial)
    have ha := hs a
    unfold BlockingQueues.InOrder pushedTo poppedFrom at ha ⊢
    by_cases hab : a = b
    · subst hab
      simp [ha, hitem]
    · simp [Function.update_of_ne hab, Ne.symm hab, ha]
  | @clear t b =>
    rw [forall_congr' fun a => (hs a).rearranged_iff _]
    constructor
    · intro h
      exact (h b).symm.trans (Function.update_self _ _ _)
    · intro h a
      rw [← h, Function.update_eq_self]
  | @assign t b c ht hpc hbc =>
    refine (forall_congr' fun a => (hs a).rearranged_iff _).trans ?_
    constructor
    · intro h b' c' hpc'
      cases hpc.symm.trans hpc'
      have hb := h b
      have hc := h c
      rw [Function.update_of_ne hbc, Function.update_self] at hb
      rw [Function.update_self] at hc
      exact ⟨hb.symm.trans hc.symm, hc.symm⟩
    · intro h a
      obtain ⟨hb, hc⟩ := h b c hpc
      rw [hc, ← hb, Function.update_eq_self, hb, ← hc, Function.update_eq_self]

/-- The items of all queues are popped in the order in which they were pushed, each of them once, throughout a run exactly
if no step of it rearranges a queue that has any. -/
theorem items_inOrder_iff (threads : ℕ) (acts : List (BlockingAction Q α)) :
    Throughout blockingStep (fun s => ∀ a, s.InOrder a) (.start threads) acts ↔
      EachStep blockingStep (fun s act => act.KeepsItems s) (.start threads) acts :=
  throughout_iff_eachStep blockingStep _ (fun _ => True) _ (fun _ _ _ _ _ _ _ => trivial)
    (fun _ _ _ _ hs hstep => blockingStep_inOrder_iff hstep hs) _ acts trivial fun _ => rfl

/-- An item is pushed, and its queue is assigned to another. -/
def assignedAway : List (BlockingAction Bool Unit) := [.push 0 true (), .moveAssign 1 false true, .assign 1]

/-- The other queue now has an item that was never pushed to it. -/
theorem assignedAway_not_inOrder :
    ¬ Throughout blockingStep (fun s => ∀ a, s.InOrder a) (.start 2) assignedAway := by
  intro h
  have hlast := throughout_final blockingStep _ _ _ _ h rfl false
  revert hlast
  unfold BlockingQueues.InOrder
  decide

end TcpClb
