import TcpClb.Common.Runs
import TcpClb.MessageQueuePop
import TcpClb.ThreadSteps

/-!
# Waking the send workers

All send workers wait for the same condition, that the queue is not empty, while a message is for
one of them. A client signals only if it finds a single node in the queue, and the signal wakes an
arbitrary waiting worker. No worker is left waiting for its message if the clients take turns, append
to an empty queue unless all workers are awake, and a signal wakes the worker it is meant for.
-/

namespace TcpClb

open TcpClb.Common

variable {F P : Type}

/-- A message for the connection is in the queue. -/
def System.Holds (s : System F P) (c : ℕ) : Prop := s.shared.store.gmsgq.HoldsFor c

/-- When no client is between its two steps, no send worker waits while the queue holds a message
for its connection. -/
def System.NoLostWakeup (s : System F P) : Prop :=
  (∀ k, s.pending k = false) → ∀ c, s.Holds c → (s.send c).pc ≠ .waiting

/-- The queue consists of one message, which is for the connection. -/
def MsgList.OnlyFor (q : MsgList) (con : ℤ) : Prop :=
  ∃ first cell, q.head = some first ∧ q.heap.get first = some cell ∧ cell.next = none ∧ cell.val.conn = con

/-- Then it is the first message that is for the connection. -/
theorem MsgList.OnlyFor.conn_eq {q : MsgList} {con : ℤ} (hq : q.OnlyFor con) {a : ℕ} {cell : Cell Msgque}
    (hhead : q.head = some a) (hget : q.heap.get a = some cell) : cell.val.conn = con := by
  obtain ⟨first, cell', hhead', hget', _, hcon⟩ := hq
  obtain rfl : first = a := Option.some.inj (hhead'.symm.trans hhead)
  obtain rfl : cell' = cell := Option.some.inj (hget'.symm.trans hget)
  exact hcon

/-- A client appends only while no other client is between its two steps, and only to an empty queue
unless no send worker waits; and if the queue consists of one message, whose worker waits, it is this
worker that a signal wakes. -/
def Action.WakesInTurn (s : System F P) : Action F P → Prop
  | .append .. => (∀ k, s.pending k = false) ∧
      (s.shared.store.gmsgq.head = none ∨ ∀ c, (s.send c).pc ≠ .waiting)
  | .signal _ woken => ∀ c : ℕ, s.shared.store.gmsgq.OnlyFor c → (s.send c).pc = .waiting → woken = some c
  | _ => True

/-- A worker that waits while its message is queued is the only one, its message is the whole queue, and
some client has still to make its test. -/
def System.Wakeful (s : System F P) : Prop :=
  ∀ c, s.Holds c → (s.send c).pc = .waiting → (∃ k, s.pending k = true) ∧ s.shared.store.gmsgq.OnlyFor c

/-- `recreate_conn` does not touch the message queue. -/
theorem Shared.recreate_store {s s' : Shared F P} {i : ℕ} {pid fd : ℤ} (h : s.recreate i pid fd = some s') :
    s'.store = s.store := by
  obtain ⟨made, _, rfl⟩ := Option.map_eq_some_iff.mp h
  rfl

/-- Neither does its end. -/
theorem Shared.connect_store (s : Shared F P) (i : ℕ) (pid : ℤ) (connected : Bool) :
    (s.connect i pid connected).store = s.store := by
  cases connected <;> rfl

/-- A receive worker does not touch the message queue. -/
theorem RecvStep.gmsgq {s s' : Shared F P} {i : ℕ} {c : Con} {w w' : RecvWorker} {a : RecvAction}
    (hstep : RecvStep s i c w a s' w') : s'.store.gmsgq = s.store.gmsgq := by
  cases hstep with
  | recreate hpc hrecreate => rw [Shared.recreate_store hrecreate]
  | connect connected hpc => rw [Shared.connect_store]
  | test | lock | call | finish | remId | dispatched | close | clear => rfl

/-- The steps of `send_to_fd` do not lead to the wait. -/
theorem sendingOrNext_ne_waiting (part : Part) (x : Transfer) (fd : ℤ) (rest : List Char) :
    sendingOrNext part x fd rest ≠ .waiting := by
  rcases sendingOrNext_cases part x fd rest with ⟨-, h⟩ | h | h <;> simp [h]

/-- A queue can be reached in itself. -/
theorem MsgList.ShrinksTo.refl (q : MsgList) : q.ShrinksTo q := ⟨ValuesFrom.refl q.heap, fun _ h => h⟩

/-- A send worker only takes messages away. -/
theorem SendStep.gmsgq {s s' : Shared F P} {i : ℕ} {c : Con} {w w' : SendWorker} {a : SendAction}
    (hstep : SendStep s i c w a s' w') : s.store.gmsgq.ShrinksTo s'.store.gmsgq := by
  cases hstep with
  | recreate hpc hrecreate =>
    rw [Shared.recreate_store hrecreate]
    exact MsgList.ShrinksTo.refl s.store.gmsgq
  | connect connected hpc =>
    rw [Shared.connect_store]
    exact MsgList.ShrinksTo.refl s.store.gmsgq
  | popNone hpc hpop => exact (popFromMsgq_shrinks hpop).1
  | pop hpc hpop hcell => exact (popFromMsgq_shrinks hpop).1
  | free hpc hfree => exact freeNode_shrinks hfree
  | wait | goOn | wake | up | down | lock | start | sendFails | send | failed =>
    exact MsgList.ShrinksTo.refl s.store.gmsgq

/-- A send worker begins to wait only when the queue is empty. -/
theorem SendStep.empty_of_waiting {s s' : Shared F P} {i : ℕ} {c : Con} {w w' : SendWorker} {a : SendAction}
    (hstep : SendStep s i c w a s' w') (hwait : w'.pc = .waiting) : s'.store.gmsgq.head = none := by
  cases hstep with
  | wait hpc hempty => exact hempty
  | start hpc htext => exact absurd hwait (sendingOrNext_ne_waiting _ _ _ _)
  | send hpc hsend => exact absurd hwait (sendingOrNext_ne_waiting _ _ _ _)
  | @failed part x hpc => cases part <;> cases hwait
  | goOn | wake | up | down | lock | recreate | connect | popNone | pop | sendFails | free => cases hwait

/-- A pop leaves a queue of one message as it is, or empties it. -/
theorem popFromMsgq_onlyFor {q q' : MsgList} {con con' : ℤ} {popped : Option ℕ} (hq : q.OnlyFor con)
    (hpop : popFromMsgq q con' = some (q', popped)) : q' = q ∨ q'.head = none := by
  obtain ⟨first, cell, hhead, hget, hnext, -⟩ := hq
  simp only [popFromMsgq, hhead, hget, Option.bind_eq_bind, Option.bind_some, hnext] at hpop
  split at hpop
  · obtain ⟨h1, _, hpop⟩ := Option.bind_eq_some_iff.mp hpop
    obtain ⟨h2, _, hpop⟩ := Option.bind_eq_some_iff.mp hpop
    cases hpop
    exact .inr rfl
  · next hcon =>
    -- the search ends behind the first node, so it finds nothing
    have hfind : findFrom q.heap (fun m => m.conn = con') (q.heap.size + 1) (some first) = some none ∨
        findFrom q.heap (fun m => m.conn = con') (q.heap.size + 1) (some first) = none := by
      rw [findFrom, hget, Option.bind_some, if_neg (by simpa using hcon), hnext]
      cases q.heap.size with
      | zero => exact .inr rfl
      | succ n => exact .inl rfl
    rcases hfind with hfind | hfind <;> rw [hfind] at hpop <;> cases hpop
    exact .inl rfl

/-- A queue of one message that is still held after a node has been freed is as it was. -/
theorem MsgList.OnlyFor.freeNode {q q' : MsgList} {con : ℤ} {a : ℕ} (hq : q.OnlyFor con)
    (hfree : q.freeNode a = some q') (hholds : q'.HoldsFor con) : q'.OnlyFor con := by
  obtain ⟨first, cell, hhead, hget, hnext, hcon⟩ := hq
  obtain ⟨heap, hheap, rfl⟩ := Option.map_eq_some_iff.mp hfree
  have hsame (b : ℕ) (hb : b ≠ a) : heap.get b = q.heap.get b := by rw [Heap.get_of_free hheap, if_neg hb]
  by_cases hfirst : first = a
  · -- the only message would have been freed
    obtain ⟨b, live, hreach, hlive, _⟩ := hholds
    have hgone : heap.get first = none := by rw [Heap.get_of_free hheap, if_pos hfirst]
    have hb : b = first := by
      change Reach heap q.head b at hreach
      rw [hhead] at hreach
      cases hreach with
      | here => rfl
      | next hcell _ =>
        rw [hgone] at hcell
        cases hcell
    change heap.get b = some live at hlive
    rw [hb, hgone] at hlive
    cases hlive
  · exact ⟨first, cell, hhead, (hsame first hfirst).trans hget, hnext, hcon⟩

/-- A queue of one message that a send worker does not empty stays as it is. -/
theorem SendStep.onlyFor {s s' : Shared F P} {i : ℕ} {c : Con} {w w' : SendWorker} {a : SendAction}
    (hstep : SendStep s i c w a s' w') {con : ℤ} (hq : s.store.gmsgq.OnlyFor con)
    (hholds : s'.store.gmsgq.HoldsFor con) : s'.store.gmsgq.OnlyFor con := by
  have hpopped {q' : MsgList} {popped : Option ℕ} (hq' : q'.HoldsFor con)
      (hpop : popFromMsgq s.store.gmsgq c.peerId = some (q', popped)) : q'.OnlyFor con := by
    rcases popFromMsgq_onlyFor hq hpop with rfl | hempty
    · exact hq
    · exact absurd hq' (MsgList.not_holdsFor_of_head hempty con)
  cases hstep with
  | recreate hpc hrecreate => rwa [Shared.recreate_store hrecreate]
  | connect connected hpc => rwa [Shared.connect_store]
  | popNone hpc hpop => exact hpopped hholds hpop
  | pop hpc hpop hcell => exact hpopped hholds hpop
  | free hpc hfree => exact hq.freeNode hfree hholds
  | wait | goOn | wake | up | down | lock | start | sendFails | send | failed => exact hq

/-- A push to an empty queue makes a queue of one message. -/
theorem pushToMsgq_onlyFor {s s' : Store F P} {gconnList : List Con} {tid : List Char} {len : ℤ}
    {data : Request} {callbackF : F} {callbackParam : P} {now : Timeval} (hempty : s.gmsgq.head = none)
    (hpush : pushToMsgq s gconnList tid len data callbackF callbackParam now = some s') {con : ℤ}
    (hholds : s'.gmsgq.HoldsFor con) : s'.gmsgq.OnlyFor con := by
  rcases pushToMsgq_eq_some hpush with ⟨_, rfl⟩ | ⟨_, routed, linked, _, happend, rfl⟩
  · exact absurd hholds (MsgList.not_holdsFor_of_head hempty con)
  · simp only [appendNode, hempty] at happend
    cases happend
    have hget : (s.gmsgq.heap.alloc ⟨⟨data, tid, len, routed.2.2⟩, none, none⟩).get s.gmsgq.heap.size =
        some ⟨⟨data, tid, len, routed.2.2⟩, none, none⟩ := by rw [Heap.get_alloc, if_pos rfl]
    obtain ⟨b, cell, hreach, hcell, hcon⟩ := hholds
    cases hreach with
    | here => exact ⟨_, cell, rfl, hcell, by rw [Option.some.inj (hcell.symm.trans hget)], hcon⟩
    | next hfirst hrest =>
      rw [Option.some.inj (hfirst.symm.trans hget)] at hrest
      exact absurd hrest (not_reach_none _ b)

/-- The test of a client leaves the queue alone, and wakes one worker or none. -/
theorem sysStep_signal_waiting {s s' : System F P} {k : ℕ} {woken : Option ℕ}
    (hstep : sysStep s (.signal k woken) = some s') : s'.shared = s.shared ∧
      s'.pending = Function.update s.pending k false ∧
      ∀ c, (s'.send c).pc = .waiting ↔ (s.send c).pc = .waiting ∧ woken ≠ some c := by
  obtain ⟨first, cell, _, _, _, rfl⟩ := sysStep_signal hstep
  cases woken with
  | none => exact ⟨rfl, rfl, fun c => (and_iff_left nofun).symm⟩
  | some w =>
    refine ⟨rfl, rfl, fun c => ?_⟩
    change (Function.update s.send w { s.send w with pc := .test } c).pc = .waiting ↔ _
    by_cases hc : c = w
    · subst hc
      rw [Function.update_self]
      exact iff_of_false nofun fun h => h.2 rfl
    · rw [Function.update_of_ne hc]
      exact (and_iff_left fun h => hc (Option.some.inj h).symm).symm

/-- Wakeful workers are not left behind. -/
theorem System.Wakeful.noLostWakeup {s : System F P} (hs : s.Wakeful) : s.NoLostWakeup := by
  intro hclients c hc hwait
  obtain ⟨⟨k, hk⟩, _⟩ := hs c hc hwait
  rw [hclients k] at hk
  cases hk

/-- A step that meets the condition keeps the workers wakeful. -/
theorem sysStep_wakeful {s s' : System F P} {a : Action F P} (hs : s.Wakeful) (ha : a.WakesInTurn s)
    (hstep : sysStep s a = some s') : s'.Wakeful := by
  intro c hc hwait
  cases a with
  | recv i a =>
    obtain ⟨con, shared, w, _, hworker, rfl⟩ := sysStep_recv hstep
    change shared.store.gmsgq.HoldsFor c at hc
    change _ ∧ shared.store.gmsgq.OnlyFor c
    rw [hworker.gmsgq] at hc ⊢
    exact hs c hc hwait
  | send i a =>
    obtain ⟨con, shared, w, _, hworker, rfl⟩ := sysStep_send hstep
    change (Function.update s.send i w c).pc = .waiting at hwait
    by_cases hi : c = i
    · rw [hi, Function.update_self] at hwait
      exact absurd hc (MsgList.not_holdsFor_of_head (hworker.empty_of_waiting hwait) c)
    · rw [Function.update_of_ne hi] at hwait
      obtain ⟨hpending, hq⟩ := hs c (hworker.gmsgq.holdsFor hc) hwait
      exact ⟨hpending, hworker.onlyFor hq hc⟩
  | append k req callbackF callbackParam now =>
    obtain ⟨_, h⟩ := Option.ite_none_left_eq_some.mp hstep
    obtain ⟨store, hpush, rfl⟩ := Option.map_eq_some_iff.mp h
    obtain ⟨_, hempty | hawake⟩ := ha
    · exact ⟨⟨k, Function.update_self ..⟩, pushToMsgq_onlyFor hempty hpush hc⟩
    · exact absurd hwait (hawake c)
  | signal k woken =>
    obtain ⟨hshared, _, hwaiting⟩ := sysStep_signal_waiting hstep
    obtain ⟨hbefore, hother⟩ := (hwaiting c).mp hwait
    unfold System.Holds at hc
    rw [hshared] at hc
    exact absurd (ha c (hs c hc hbefore).2 hbefore) hother
  | sweep now printable =>
    obtain ⟨table, _, rfl⟩ := Option.map_eq_some_iff.mp hstep
    exact hs c hc hwait

/-- In a run whose steps meet the condition no worker is left behind. -/
theorem noLostWakeup_throughout (cfg : Configurator) (gconnList : List Con) (kernel : Kernel)
    (acts : List (Action F P))
    (hall : EachStep sysStep (fun s a => a.WakesInTurn s) (.start cfg gconnList kernel) acts) :
    Throughout sysStep System.NoLostWakeup (.start cfg gconnList kernel) acts :=
  throughout_of_eachStep sysStep (fun s a => a.WakesInTurn s) System.Wakeful System.NoLostWakeup
    (fun _ hs => hs.noLostWakeup) (fun _ _ _ hs ha hstep => sysStep_wakeful hs ha hstep) _ acts
    (fun _ _ h => by cases h) hall

/-- Both send workers wait; one client after the other queues a message and wakes its worker, the second
after the first message has been popped. -/
def sendsInTurn : List (Action Unit Unit) :=
  [.send 0 .test, .send 1 .test, .append 0 ⟨some ['x', '\x00'], 1, 0, 0, oneCharId 'a'⟩ () () ⟨0, 0⟩,
    .signal 0 (some 0), .send 0 .test, .send 0 .checkState, .send 0 .pop,
    .append 1 ⟨some ['y', '\x00'], 1, 0, 0, oneCharId 'b'⟩ () () ⟨0, 0⟩, .signal 1 (some 1)]

/-- Neither is left behind. -/
theorem sendsInTurn_noLostWakeup :
    Throughout sysStep System.NoLostWakeup (twoPeersUp : System Unit Unit) sendsInTurn := by
  apply noLostWakeup_throughout
  apply EachStep.cons rfl trivial
  apply EachStep.cons rfl trivial
  apply EachStep.cons rfl ⟨fun _ => rfl, .inl rfl⟩
  refine EachStep.cons rfl ?_ ?_
  · exact fun c honly _ => congrArg some (Int.ofNat_inj.mp (honly.conn_eq rfl rfl))
  apply EachStep.cons rfl trivial
  apply EachStep.cons rfl trivial
  apply EachStep.cons rfl trivial
  refine EachStep.cons rfl ⟨fun k => ?_, .inl rfl⟩ ?_
  · match k with
    | 0 | _ + 1 => rfl
  refine EachStep.cons rfl ?_ trivial
  exact fun c honly _ => congrArg some (Int.ofNat_inj.mp (honly.conn_eq rfl rfl))

/-- Both send workers wait; two clients queue a message each before either makes its test. -/
def overlappingSends : List (Action Unit Unit) :=
  [.send 0 .test, .send 1 .test,
    .append 0 ⟨some ['x', '\x00'], 1, 0, 0, oneCharId 'a'⟩ () () ⟨0, 0⟩,
    .append 1 ⟨some ['y', '\x00'], 1, 0, 0, oneCharId 'b'⟩ () () ⟨0, 0⟩, .signal 0 none, .signal 1 none]

/-- Neither client finds a single node, and the worker of connection 0 goes on waiting. -/
theorem overlappingSends_lost : manage twoPeers bothConnect = some (twoPeersUp : System Unit Unit) ∧
    ¬ Throughout sysStep System.NoLostWakeup twoPeersUp overlappingSends := by
  refine ⟨rfl, fun hall => ?_⟩
  obtain ⟨final, hrun, hpending, hholds, hwait⟩ : ∃ final,
      runActions sysStep twoPeersUp overlappingSends = some final ∧
        (∀ k, final.pending k = false) ∧ final.Holds 0 ∧ (final.send 0).pc = .waiting := by
    refine ⟨_, rfl, fun k => ?_, ⟨0, _, Reach.here 0, rfl, rfl⟩, rfl⟩
    match k with
    | 0 | 1 | _ + 2 => rfl
  exact throughout_final sysStep _ _ _ _ hall hrun hpending 0 hholds hwait

end TcpClb
