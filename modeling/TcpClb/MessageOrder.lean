import TcpClb.Common.Runs
import TcpClb.Common.KeyedQueue
import TcpClb.MessageQueue

/-!
# Order and integrity of the message queue

Runs of `push_to_msgq` and `pop_from_msgq`, every popped node being freed by its caller before
the next operation. Each operation is logged with its outcome; `pending` is then what has been
pushed and not yet popped. The queue is in order when the nodes reachable from the head are
exactly the pending messages and every pop returned the earliest one for its connection.

A pop that skips to the last of several nodes breaks this: the node is freed while the one before
it still points to it. The queue stays in order in exactly the runs that never do that.
-/

namespace TcpClb

open TcpClb.Common

variable {F P : Type}

/-- Pop a message and free its node, as `send_worker_thread` does once the message is sent. -/
def popAndFree (q : MsgList) (con : ℤ) : Option (MsgList × Option Msgque) := do
  let popped ← popFromMsgq q con
  match popped.2 with
  | none => some (popped.1, none)
  | some a =>
    let node ← popped.1.heap.get a
    let q ← popped.1.freeNode a
    some (q, some node.val)

/-- One operation on the queue. Pushed ids are nonempty, and some peer is up at every push. -/
inductive QueueOp (F P : Type)
  | push (gconnList : List Con) (hany : AnyPeerUp gconnList) (req : Request)
      (hid : req.id.chars ≠ []) (callbackF : F) (callbackParam : P) (now : Timeval)
  | pop (con : ℤ)

/-- The variables behind `qtex`, with the operations performed so far. -/
structure QueueRun (F P : Type) where
  store : Store F P
  log : List (QueueEvent Msgque ℤ)

/-- Before the first operation. -/
def QueueRun.initial : QueueRun F P := ⟨.initial, []⟩

/-- The messages pushed and not yet popped, in push order. -/
def QueueRun.waiting (s : QueueRun F P) : List Msgque := pending Msgque.conn s.log

/-- Perform one operation and log its outcome. -/
def queueStep (s : QueueRun F P) : QueueOp F P → Option (QueueRun F P)
  | .push gconnList _ req _ callbackF callbackParam now => do
    let routed ← routeId s.store.gtsidq s.store.glastConRr gconnList req.id.chars callbackF callbackParam now
    let store ← pushToMsgq s.store gconnList req.id.chars req.msgLen req callbackF callbackParam now
    some ⟨store, s.log ++ [.pushed ⟨req, req.id.chars, req.msgLen, routed.2.2⟩]⟩
  | .pop con => do
    let popped ← popAndFree s.store.gmsgq con
    some ⟨{ s.store with gmsgq := popped.1 }, s.log ++ [.popped con popped.2]⟩

/-- The queue is well linked, holds exactly the waiting messages in push order, reaches no freed
node, and has delivered to every connection a prefix of what was pushed for it. -/
structure QueueRun.InOrder (s : QueueRun F P) : Prop where
  linked : ∃ nodes, s.store.gmsgq.Consists nodes ∧ nodes.map Prod.snd = s.waiting
  live : ∀ a, Reach s.store.gmsgq.heap s.store.gmsgq.head a → (s.store.gmsgq.heap.get a).isSome
  earliest : PopsEarliest Msgque.conn [] s.log
  delivered : ∀ con, deliveredTo con s.log <+: queuedFor Msgque.conn con s.log

/-- The operation is not a pop that takes the last of several nodes. -/
def QueueOp.LeavesTail (s : QueueRun F P) : QueueOp F P → Prop
  | .push .. => True
  | .pop con => ¬ TailFirst con s.waiting

/-- Links and history determine the rest. -/
theorem QueueRun.inOrder_of_linked (s : QueueRun F P) (nodes : List (ℕ × Msgque))
    (hq : s.store.gmsgq.Consists nodes) (hwaiting : nodes.map Prod.snd = s.waiting)
    (hearliest : PopsEarliest Msgque.conn [] s.log) : s.InOrder where
  linked := ⟨nodes, hq, hwaiting⟩
  live := Represents.live hq
  earliest := hearliest
  delivered con := delivered_prefix_queued Msgque.conn con s.log hearliest

/-- Before the first operation the queue is in order. -/
theorem QueueRun.initial_inOrder : (QueueRun.initial : QueueRun F P).InOrder :=
  QueueRun.inOrder_of_linked _ [] (represents_nil _) rfl trivial

/-- When the first message for a connection is known, it is the tail of several exactly if there
is something before it and nothing after it. -/
theorem tailFirst_iff (con : ℤ) (front back : List Msgque) (m : Msgque) (hm : m.conn = con)
    (hfront : ∀ x ∈ front, x.conn ≠ con) :
    TailFirst con (front ++ m :: back) ↔ front ≠ [] ∧ back = [] := by
  have hidx : (front ++ m :: back).findIdx (fun x => x.conn = con) = front.length := by
    have hlen : front.findIdx (fun x => x.conn = con) = front.length := by
      apply List.findIdx_eq_length.mpr
      simpa using hfront
    rw [List.findIdx_append, hlen, if_neg (Nat.lt_irrefl _)]
    simp [List.findIdx_cons, hm]
  unfold TailFirst
  rw [hidx, List.length_append, List.length_cons, ← List.length_pos_iff, ← List.length_eq_zero_iff]
  omega

/-- The first node for a connection splits the queue, and so does its message. -/
theorem exists_split_of_find {con : ℤ} {nodes : List (ℕ × Msgque)} {x : ℕ × Msgque}
    (hfind : nodes.find? (fun y => y.2.conn = con) = some x) :
    x.2.conn = con ∧ ∃ front back, nodes = front ++ x :: back ∧ (∀ y ∈ front, y.2.conn ≠ con) ∧
      ∀ m ∈ front.map Prod.snd, m.conn ≠ con := by
  obtain ⟨hx, front, back, hnodes, hfront⟩ := List.find?_eq_some_iff_append.mp hfind
  have hfront' : ∀ y ∈ front, y.2.conn ≠ con := by simpa using hfront
  exact ⟨by simpa using hx, front, back, hnodes, hfront', List.forall_mem_map.mpr hfront'⟩

/-- Nothing is found among the messages if nothing is found among the nodes. -/
theorem messages_ne_of_find {con : ℤ} {nodes : List (ℕ × Msgque)}
    (hfind : nodes.find? (fun y => y.2.conn = con) = none) : ∀ m ∈ nodes.map Prod.snd, m.conn ≠ con := by
  have hnodes : ∀ y ∈ nodes, y.2.conn ≠ con := by simpa using List.find?_eq_none.mp hfind
  exact List.forall_mem_map.mpr hnodes

/-- After the node a pop returned is freed, the list it was taken from is as the pop left it. -/
theorem freeNode_consists (q : MsgList) (a : ℕ) (m : Msgque) (nodes : List (ℕ × Msgque))
    (hq : q.Consists nodes) (hgone : q.heap.get a = some ⟨m, none, none⟩)
    (ha : a ∉ nodes.map Prod.fst) : ∃ q', q.freeNode a = some q' ∧ q'.Consists nodes := by
  obtain ⟨heap, hfree⟩ := Heap.exists_free hgone
  refine ⟨{ q with heap := heap }, by simp [MsgList.freeNode, hfree], Represents.congr hq fun b hb => ?_⟩
  rw [Heap.get_of_free hfree, if_neg]
  rintro rfl
  exact ha hb

/-- A pop that takes a node other than the tail of several takes it out of the list. -/
theorem popFromMsgq_takes (q : MsgList) (con : ℤ) (front back : List (ℕ × Msgque)) (x : ℕ × Msgque)
    (hq : q.Consists (front ++ x :: back)) (hx : x.2.conn = con) (hfront : ∀ y ∈ front, y.2.conn ≠ con)
    (hsafe : ¬ (front ≠ [] ∧ back = [])) :
    ∃ q', popFromMsgq q con = some (q', some x.1) ∧ q'.Consists (front ++ back) ∧
      q'.heap.get x.1 = some ⟨x.2, none, none⟩ := by
  rcases List.eq_nil_or_concat front with rfl | ⟨front, p, rfl⟩
  · exact popFromMsgq_first q con x.1 x.2 back hq hx
  · rw [List.concat_eq_append] at hq hfront hsafe ⊢
    cases back with
    | nil => simp at hsafe
    | cons y back => exact popFromMsgq_inner q con front back p x y hq hx hfront

/-- Unless it takes the tail of several nodes, a pop removes the first message for its connection
and leaves a well-linked queue. -/
theorem popAndFree_consists (q : MsgList) (con : ℤ) (nodes : List (ℕ × Msgque)) (hq : q.Consists nodes)
    (hsafe : ¬ TailFirst con (nodes.map Prod.snd)) :
    ∃ q' nodes', popAndFree q con = some (q', (nodes.map Prod.snd).find? fun m => m.conn = con) ∧
      q'.Consists nodes' ∧ nodes'.map Prod.snd = (nodes.map Prod.snd).eraseP fun m => m.conn = con := by
  cases hfind : nodes.find? (fun x => x.2.conn = con) with
  | none =>
    have hnone := messages_ne_of_find hfind
    have hmap : (nodes.map Prod.snd).find? (fun m => m.conn = con) = none := by
      apply List.find?_eq_none.mpr
      simpa using hnone
    refine ⟨q, nodes, ?_, hq, ?_⟩
    · simp [popAndFree, popFromMsgq_none q con nodes hq hfind, hmap]
    · rw [List.eraseP_of_forall_not]
      simpa using hnone
  | some x =>
    obtain ⟨hx, front, back, rfl, hfront, hfront'⟩ := exists_split_of_find hfind
    have hfound : ((front ++ x :: back).map Prod.snd).find? (fun m => m.conn = con) = some x.2 := by
      rw [List.find?_map]
      exact congrArg (Option.map Prod.snd) hfind
    have herase : ((front ++ x :: back).map Prod.snd).eraseP (fun m => m.conn = con) =
        (front ++ back).map Prod.snd := by
      rw [List.map_append, List.eraseP_append_right _ (by simpa using hfront'), List.map_cons,
        List.eraseP_cons_of_pos (by simpa using hx), List.map_append]
    rw [List.map_append, List.map_cons, tailFirst_iff con _ _ _ hx hfront'] at hsafe
    have hgone : x.1 ∉ (front ++ back).map Prod.fst := by
      have hnodup := hq.nodup
      rw [List.map_append, List.map_cons, List.nodup_middle, List.nodup_cons] at hnodup
      rw [List.map_append]
      exact hnodup.1
    obtain ⟨q', hpop, hq', hcell⟩ := popFromMsgq_takes q con front back x hq hx hfront (by simpa using hsafe)
    obtain ⟨q'', hfree, hq''⟩ := freeNode_consists q' x.1 x.2 _ hq' hcell hgone
    refine ⟨q'', front ++ back, ?_, hq'', herase.symm⟩
    rw [hfound]
    simp [popAndFree, hpop, hcell, hfree]

/-- Taking the tail of several nodes leaves a freed node reachable from the head. -/
theorem popAndFree_tail (q : MsgList) (con : ℤ) (nodes : List (ℕ × Msgque)) (hq : q.Consists nodes)
    (htail : TailFirst con (nodes.map Prod.snd)) :
    ∃ q' m a, popAndFree q con = some (q', m) ∧ Reach q'.heap q'.head a ∧ q'.heap.get a = none := by
  cases hfind : nodes.find? (fun x => x.2.conn = con) with
  | none =>
    exfalso
    have hidx : (nodes.map Prod.snd).findIdx (fun m => m.conn = con) = (nodes.map Prod.snd).length := by
      apply List.findIdx_eq_length.mpr
      simpa using messages_ne_of_find hfind
    have hend := htail.2
    omega
  | some x =>
    obtain ⟨hx, front, back, rfl, hfront, hfront'⟩ := exists_split_of_find hfind
    rw [List.map_append, List.map_cons, tailFirst_iff con _ _ _ hx hfront'] at htail
    obtain ⟨hne, hback⟩ := htail
    obtain rfl : back = [] := List.map_eq_nil_iff.mp hback
    rcases List.eq_nil_or_concat front with rfl | ⟨front, p, rfl⟩
    · simp at hne
    · rw [List.concat_eq_append] at hq hfront
      obtain ⟨q₁, hpop₁, hhead, hcell, hsame⟩ := popFromMsgq_tail q con front p x hq hx hfront
      obtain ⟨heap, hfree⟩ := Heap.exists_free hcell
      refine ⟨⟨heap, q.head⟩, some x.2, x.1, ?_, ?_, by rw [Heap.get_of_free hfree, if_pos rfl]⟩
      · simp [popAndFree, hpop₁, MsgList.freeNode, hcell, hfree, hhead]
      · apply Represents.freed_last_reachable hq
        intro b hb
        rw [Heap.get_of_free hfree, if_neg hb, hsame b hb]

/-- A push onto a queue in order is defined and keeps it in order. -/
theorem queueStep_push (s : QueueRun F P) (hs : s.InOrder) (gconnList : List Con)
    (hany : AnyPeerUp gconnList) (req : Request) (hid : req.id.chars ≠ []) (callbackF : F)
    (callbackParam : P) (now : Timeval) :
    ∃ next, queueStep s (.push gconnList hany req hid callbackF callbackParam now) = some next ∧
      next.InOrder := by
  obtain ⟨nodes, hq, hwaiting⟩ := hs.linked
  obtain ⟨routed, hrouted⟩ := routeId_isSome s.store.gtsidq s.store.glastConRr gconnList
    req.id.chars callbackF callbackParam now hany
  obtain ⟨store, hpush, _, _, hq'⟩ := pushToMsgq_consists s.store gconnList req callbackF
    callbackParam now hid nodes hq routed hrouted
  refine ⟨⟨store, s.log ++ [.pushed ⟨req, req.id.chars, req.msgLen, routed.2.2⟩]⟩, ?_,
    QueueRun.inOrder_of_linked _ _ hq' ?_ ?_⟩
  · simp [queueStep, hrouted, hpush]
  · simp [QueueRun.waiting, pending_snoc, waitingAfter, hwaiting]
  · exact (popsEarliest_snoc _ _ _ _).mpr ⟨hs.earliest, trivial⟩

/-- A pop that leaves the tail alone is defined and keeps the queue in order. -/
theorem queueStep_pop (s : QueueRun F P) (hs : s.InOrder) (con : ℤ) (hsafe : ¬ TailFirst con s.waiting) :
    ∃ next, queueStep s (.pop con) = some next ∧ next.InOrder := by
  obtain ⟨nodes, hq, hwaiting⟩ := hs.linked
  rw [← hwaiting] at hsafe
  obtain ⟨q', nodes', hpop, hq', herase⟩ := popAndFree_consists s.store.gmsgq con nodes hq hsafe
  rw [hwaiting] at hpop herase
  refine ⟨⟨{ s.store with gmsgq := q' }, s.log ++ [.popped con (s.waiting.find? fun m => m.conn = con)]⟩,
    ?_, QueueRun.inOrder_of_linked _ nodes' hq' ?_ ?_⟩
  · simp only [queueStep, hpop, Option.bind_eq_bind, Option.bind_some]
  · rw [herase]
    exact (pending_snoc Msgque.conn s.log (.popped con (s.waiting.find? fun m => m.conn = con))).symm
  · exact (popsEarliest_snoc _ _ _ _).mpr ⟨hs.earliest, rfl, trivial⟩

/-- A pop that takes the tail of several nodes is defined, and the queue is not in order after it. -/
theorem queueStep_pop_tail (s : QueueRun F P) (hs : s.InOrder) (con : ℤ) (htail : TailFirst con s.waiting) :
    ∃ next, queueStep s (.pop con) = some next ∧ ¬ next.InOrder := by
  obtain ⟨nodes, hq, hwaiting⟩ := hs.linked
  rw [← hwaiting] at htail
  obtain ⟨q', m, a, hpop, hreach, hfreed⟩ := popAndFree_tail s.store.gmsgq con nodes hq htail
  refine ⟨⟨{ s.store with gmsgq := q' }, s.log ++ [.popped con m]⟩, ?_, fun hnext => ?_⟩
  · simp only [queueStep, hpop, Option.bind_eq_bind, Option.bind_some]
  · have hlive := hnext.live a hreach
    simp [hfreed] at hlive

/-- From a queue in order every operation is defined, and it keeps the queue in order exactly if
it leaves the tail alone. -/
theorem queueStep_inOrder_iff (s : QueueRun F P) (op : QueueOp F P) (hs : s.InOrder) :
    ∃ next, queueStep s op = some next ∧ (next.InOrder ↔ op.LeavesTail s) := by
  cases op with
  | push gconnList hany req hid callbackF callbackParam now =>
    obtain ⟨next, hstep, hnext⟩ := queueStep_push s hs gconnList hany req hid callbackF callbackParam now
    exact ⟨next, hstep, fun _ => trivial, fun _ => hnext⟩
  | pop con =>
    by_cases htail : TailFirst con s.waiting
    · obtain ⟨next, hstep, hnext⟩ := queueStep_pop_tail s hs con htail
      exact ⟨next, hstep, fun h => (hnext h).elim, fun h => (h htail).elim⟩
    · obtain ⟨next, hstep, hnext⟩ := queueStep_pop s hs con htail
      exact ⟨next, hstep, fun _ => htail, fun _ => hnext⟩

/-- The queue completes a run and is in order throughout it exactly when no pop of the run takes
the last of several nodes. -/
theorem queue_inOrder_iff (ops : List (QueueOp F P)) :
    ((runActions queueStep .initial ops).isSome ∧ Throughout queueStep QueueRun.InOrder .initial ops) ↔
      EachStep queueStep (fun s op => op.LeavesTail s) .initial ops := by
  have hiff (s : QueueRun F P) (op : QueueOp F P) (next : QueueRun F P) (hs : s.InOrder)
      (hstep : queueStep s op = some next) : next.InOrder ↔ op.LeavesTail s := by
    obtain ⟨next', hstep', hiff⟩ := queueStep_inOrder_iff s op hs
    rw [hstep, Option.some.injEq] at hstep'
    exact hstep' ▸ hiff
  rw [throughout_iff_eachStep queueStep (fun s op => op.LeavesTail s) (fun _ => True)
    QueueRun.InOrder (fun _ _ _ _ _ _ _ => trivial) (fun s op next _ => hiff s op next)
    QueueRun.initial ops trivial QueueRun.initial_inOrder]
  refine and_iff_right_of_imp fun hall => ?_
  exact isSome_of_conditional_run queueStep (fun s op => op.LeavesTail s) QueueRun.InOrder
    (fun s op hs => (queueStep_inOrder_iff s op hs).imp fun _ h => h.1)
    (fun s op next hs hop hstep => (hiff s op next hs hstep).mpr hop)
    QueueRun.initial ops QueueRun.initial_inOrder hall

/-- Two messages for two peers, of which the second is popped first. -/
def tailPopOps : List (QueueOp Unit Unit) :=
  [.push [⟨3, 1, 0⟩, ⟨4, 1, 1⟩] ⟨⟨3, 1, 0⟩, by simp, rfl⟩ ⟨some ['x', '\x00'], 1, 0, 0, oneCharId 'a'⟩
      (List.cons_ne_nil _ _) () () ⟨0, 0⟩,
    .push [⟨3, 1, 0⟩, ⟨4, 1, 1⟩] ⟨⟨3, 1, 0⟩, by simp, rfl⟩ ⟨some ['y', '\x00'], 1, 0, 0, oneCharId 'b'⟩
      (List.cons_ne_nil _ _) () () ⟨0, 0⟩,
    .pop 1]

/-- After that pop the head still leads to the node that was freed. -/
theorem tailPop_not_inOrder : ¬ Throughout queueStep QueueRun.InOrder .initial tailPopOps := by
  intro hall
  obtain ⟨final, hrun, hreach, hfreed⟩ : ∃ final, runActions queueStep .initial tailPopOps = some final ∧
      Reach final.store.gmsgq.heap final.store.gmsgq.head 1 ∧ final.store.gmsgq.heap.get 1 = none :=
    ⟨_, rfl, Reach.next rfl (Reach.here 1), rfl⟩
  have hlive := (throughout_final queueStep _ _ _ _ hall hrun).live 1 hreach
  simp [hfreed] at hlive

end TcpClb
