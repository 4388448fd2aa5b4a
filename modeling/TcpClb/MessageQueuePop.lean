import TcpClb.Common.ListUpdates
import TcpClb.MessageQueue

/-!
# What a pop can take from the queue

Facts about `pop_from_msgq` and the freeing of a node that hold whatever the nodes are linked like,
also after a freed node has stayed reachable: no message becomes reachable by them, and a message
that is popped is for the connection that was asked for.
-/

namespace TcpClb

open TcpClb.Common

/-- A message for the connection is reachable from the head. -/
def MsgList.HoldsFor (q : MsgList) (con : ℤ) : Prop :=
  ∃ a cell, Reach q.heap q.head a ∧ q.heap.get a = some cell ∧ cell.val.conn = con

/-- All that can be reached in a queue could be reached before, with the same message. -/
structure MsgList.ShrinksTo (q q' : MsgList) : Prop where
  values : ValuesFrom q.heap q'.heap
  reach : ∀ a, Reach q'.heap q'.head a → Reach q.heap q.head a

/-- A message is held only if it was held before. -/
theorem MsgList.ShrinksTo.holdsFor {q q' : MsgList} (h : q.ShrinksTo q') {con : ℤ} (hq' : q'.HoldsFor con) :
    q.HoldsFor con := by
  obtain ⟨a, cell', hreach, hget, hcon⟩ := hq'
  obtain ⟨cell, hcell, hval⟩ := h.values a cell' hget
  exact ⟨a, cell, h.reach a hreach, hcell, hval ▸ hcon⟩

/-- An empty queue holds nothing. -/
theorem MsgList.not_holdsFor_of_head {q : MsgList} (h : q.head = none) (con : ℤ) : ¬ q.HoldsFor con := by
  rintro ⟨a, _, hreach, _⟩
  rw [h] at hreach
  exact not_reach_none q.heap a hreach

/-- A pop only takes away, and what it takes is for the connection. -/
theorem popFromMsgq_shrinks {q q' : MsgList} {con : ℤ} {popped : Option ℕ}
    (hpop : popFromMsgq q con = some (q', popped)) :
    q.ShrinksTo q' ∧ ∀ a, popped = some a → ∃ cell, q.heap.get a = some cell ∧ cell.val.conn = con := by
  have hclosed := nextClosed_reach q.heap q.head
  have hvalues := ValuesFrom.refl q.heap
  unfold popFromMsgq at hpop
  split at hpop
  · cases hpop
    exact ⟨⟨hvalues, fun _ h => h⟩, nofun⟩
  · next first hhead =>
    obtain ⟨temp, hget, hpop⟩ := Option.bind_eq_some_iff.mp hpop
    split at hpop
    · -- the first message is for the connection
      next hcon =>
      obtain ⟨h1, hset, hpop⟩ := Option.bind_eq_some_iff.mp hpop
      obtain ⟨h2, hdetach, hpop⟩ := Option.bind_eq_some_iff.mp hpop
      cases hpop
      refine ⟨⟨(hvalues.setPrevOf hset).modify hdetach fun _ => rfl, fun a hreach => ?_⟩, fun a ha => ?_⟩
      · apply ((hclosed.setPrevOf hset).detach hdetach).of_reach (fun b hb => ?_) hreach
        exact (hhead ▸ Reach.here first : Reach q.heap q.head first).snoc hget hb
      · cases ha
        exact ⟨temp, hget, hcon⟩
    · obtain ⟨found, hfind, hpop⟩ := Option.bind_eq_some_iff.mp hpop
      cases found with
      | none =>
        cases hpop
        exact ⟨⟨hvalues, fun _ h => h⟩, nofun⟩
      | some a =>
        obtain ⟨hreach, cell, hcell, hcon⟩ := findFrom_eq_some hfind
        obtain ⟨temp, htemp, hpop⟩ := Option.bind_eq_some_iff.mp hpop
        obtain ⟨h1, hlinked, hpop⟩ : ∃ h1, (NextClosed h1 (Reach q.heap q.head) ∧ ValuesFrom q.heap h1) ∧
            ((detach h1 a).bind fun heap => some (⟨heap, q.head⟩, some a)) = some (q', popped) := by
          dsimp only at hpop
          split at hpop
          · exact ⟨q.heap, ⟨hclosed, hvalues⟩, hpop⟩
          · next b hb =>
            obtain ⟨h0, hset, hpop⟩ := Option.bind_eq_some_iff.mp hpop
            obtain ⟨before, _, hpop⟩ := Option.bind_eq_some_iff.mp hpop
            obtain ⟨h1, hlink, hpop⟩ := Option.bind_eq_some_iff.mp hpop
            refine ⟨h1, ⟨(hclosed.setPrevOf hset).modify hlink fun _ c hc => Or.inr ?_,
              (hvalues.setPrevOf hset).modify hlink fun _ => rfl⟩, hpop⟩
            obtain rfl : b = c := Option.some.inj hc
            exact hreach.snoc htemp hb
        obtain ⟨h2, hdetach, hpop⟩ := Option.bind_eq_some_iff.mp hpop
        cases hpop
        refine ⟨⟨hlinked.2.modify hdetach fun _ => rfl, fun c hc => ?_⟩, fun c hc => ?_⟩
        · apply (hlinked.1.detach hdetach).of_reach (fun b hb => ?_) hc
          exact hb ▸ Reach.here b
        · cases hc
          exact ⟨cell, hcell, of_decide_eq_true hcon⟩

/-- The node that a pop has returned still has its message. -/
theorem popFromMsgq_conn {q q' : MsgList} {con : ℤ} {a : ℕ} {cell : Cell Msgque}
    (hpop : popFromMsgq q con = some (q', some a)) (hget : q'.heap.get a = some cell) :
    cell.val.conn = con := by
  obtain ⟨hshrinks, hcon⟩ := popFromMsgq_shrinks hpop
  obtain ⟨before, hbefore, hconn⟩ := hcon a rfl
  obtain ⟨before', hbefore', hval⟩ := hshrinks.values a cell hget
  rw [hbefore, Option.some.injEq] at hbefore'
  rw [← hval, ← hbefore', hconn]

/-- Freeing a node only takes away. -/
theorem freeNode_shrinks {q q' : MsgList} {a : ℕ} (hfree : q.freeNode a = some q') : q.ShrinksTo q' := by
  obtain ⟨heap, hheap, rfl⟩ := Option.map_eq_some_iff.mp hfree
  refine ⟨(ValuesFrom.refl q.heap).free hheap, fun b hreach => ?_⟩
  apply ((nextClosed_reach q.heap q.head).free hheap).of_reach (fun c hc => ?_) hreach
  change q.head = some c at hc
  rw [hc]
  exact Reach.here c

end TcpClb
