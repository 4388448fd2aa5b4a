import TcpClb.Common.KeyedQueue
import TcpClb.Common.ListUpdates
import TcpClb.Common.Runs
import TcpClb.MessageOrder
import TcpClb.SendDelivery
import TcpClb.WakeUp

/-!
# The order of delivery

The queue as the threads use it: clients append, each send worker takes a message for its own connection out of the
list and frees the node only after it has sent the message, and any number of other steps come in between. What has
been appended and taken is logged. In every run in which no pop takes the last of several nodes, every connection gets
its messages in the order in which they were appended, none lost and none twice, and every node that a worker has in
hand is its own until it frees it.
-/

namespace TcpClb

open TcpClb.Common

variable {F P : Type}

/-- What a send worker has in hand, and the messages it has taken. -/
structure Hand where
  node : Option (ℕ × Msgque)
  taken : List Msgque

/-- The node and the message that a send worker at this position has in hand. -/
def SendPc.node (pc : SendPc) : Option (ℕ × Msgque) := pc.inHand.map fun hand => (hand.1.node, hand.1.msg)

/-- What a send worker has in hand, and the messages it has taken. -/
def SendWorker.hand (w : SendWorker) : Hand := ⟨w.pc.node, w.taken⟩

/-- The message that an append links in, unless the id is empty. -/
def System.appended (s : System F P) (req : Request) (callbackF : F) (callbackParam : P) (now : Timeval) :
    Option Msgque :=
  if req.id.chars = [] then none
  else (routeId s.shared.store.gtsidq s.shared.store.glastConRr s.shared.gconnList req.id.chars callbackF
    callbackParam now).map fun routed => ⟨req, req.id.chars, req.msgLen, routed.2.2⟩

/-- What a step from `s` to `next` appends to the queue or takes from it. -/
def System.queueEvents (s next : System F P) : Action F P → List (QueueEvent Msgque ℤ)
  | .append _ req callbackF callbackParam now =>
    (s.appended req callbackF callbackParam now).toList.map .pushed
  | .send i .pop =>
    match s.shared.gconnList[i]? with
    | some c => [.popped c.peerId ((next.send i).pc.node.map Prod.snd)]
    | none => []
  | _ => []

/-- The system, and what has been appended and taken. -/
structure LoggedSystem (F P : Type) where
  sys : System F P
  log : List (QueueEvent Msgque ℤ)

/-- Perform one step and log what it does to the queue. -/
def loggedStep (s : LoggedSystem F P) (a : Action F P) : Option (LoggedSystem F P) :=
  (sysStep s.sys a).map fun next => ⟨next, s.log ++ s.sys.queueEvents next a⟩

/-- The messages appended and not yet taken. -/
def LoggedSystem.waiting (s : LoggedSystem F P) : List Msgque := pending Msgque.conn s.log

/-- The queue is well linked and holds the waiting messages in order, every take was of the earliest message for its
connection, and a node in hand is live, not in the queue, and in one hand only. -/
structure LoggedSystem.InOrder (s : LoggedSystem F P) : Prop where
  linked : ∃ nodes, s.sys.shared.store.gmsgq.Consists nodes ∧ nodes.map Prod.snd = s.waiting
  earliest : PopsEarliest Msgque.conn [] s.log
  held : ∀ i x, (s.sys.send i).hand.node = some x →
    valAt s.sys.shared.store.gmsgq.heap x.1 = some x.2 ∧
      ¬ Reach s.sys.shared.store.gmsgq.heap s.sys.shared.store.gmsgq.head x.1
  apart : ∀ i j x y, i ≠ j → (s.sys.send i).hand.node = some x → (s.sys.send j).hand.node = some y → x.1 ≠ y.1

/-- The step is not a pop that takes the last of several nodes. -/
def Action.LeavesTail (s : LoggedSystem F P) : Action F P → Prop
  | .send i .pop => ∀ c, s.sys.shared.gconnList[i]? = some c → ¬ TailFirst c.peerId s.waiting
  | _ => True

/-- The queue after a step, what the send workers have in hand after it, and what is logged. -/
inductive QueueStep (s s' : System F P) : Action F P → List (QueueEvent Msgque ℤ) → Prop
  | keep {a : Action F P} (hother : ∀ i, a ≠ .send i .pop)
    (hqueue : s'.shared.store.gmsgq = s.shared.store.gmsgq) (hhand : ∀ j, (s'.send j).hand = (s.send j).hand) :
    QueueStep s s' a []
  | push {k : ℕ} {req : Request} {callbackF : F} {callbackParam : P} {now : Timeval} {m : Msgque} {heap : Links Msgque}
    {head : Option ℕ}
    (happend : appendNode s.shared.store.gmsgq.heap s.shared.store.gmsgq.head m = some (heap, head))
    (hqueue : s'.shared.store.gmsgq = ⟨heap, head⟩) (hhand : ∀ j, (s'.send j).hand = (s.send j).hand) :
    QueueStep s s' (.append k req callbackF callbackParam now) [.pushed m]
  | popNone {i : ℕ} {c : Con} (hentry : s.shared.gconnList[i]? = some c)
    (hpop : popFromMsgq s.shared.store.gmsgq c.peerId = some (s'.shared.store.gmsgq, none))
    (hhand : ∀ j, (s'.send j).hand = (s.send j).hand) : QueueStep s s' (.send i .pop) [.popped c.peerId none]
  | pop {i node : ℕ} {c : Con} {m : Msgque} (hentry : s.shared.gconnList[i]? = some c)
    (hpop : popFromMsgq s.shared.store.gmsgq c.peerId = some (s'.shared.store.gmsgq, some node))
    (hval : valAt s'.shared.store.gmsgq.heap node = some m) (hold : (s.send i).hand.node = none)
    (hhand : ∀ j, (s'.send j).hand =
      if j = i then ⟨some (node, m), (s.send i).hand.taken ++ [m]⟩ else (s.send j).hand) :
    QueueStep s s' (.send i .pop) [.popped c.peerId (some m)]
  | free {i : ℕ} {x : ℕ × Msgque} (hold : (s.send i).hand.node = some x)
    (hfree : s.shared.store.gmsgq.freeNode x.1 = some s'.shared.store.gmsgq)
    (hhand : ∀ j, (s'.send j).hand = if j = i then ⟨none, (s.send i).hand.taken⟩ else (s.send j).hand) :
    QueueStep s s' (.send i .free) []

/-- A worker that is given the hand it had leaves all hands as they were. -/
theorem hand_update {send : ℕ → SendWorker} {i : ℕ} {w : SendWorker} (h : w.hand = (send i).hand) (j : ℕ) :
    (Function.update send i w j).hand = (send j).hand := by
  by_cases hj : j = i
  · rw [hj, Function.update_self, h]
  · rw [Function.update_of_ne hj]

/-- All hands after one worker has changed its own. -/
theorem hand_update_eq (send : ℕ → SendWorker) (i : ℕ) (w : SendWorker) (j : ℕ) :
    (Function.update send i w j).hand = if j = i then w.hand else (send j).hand := by
  by_cases hj : j = i
  · rw [hj, Function.update_self, if_pos rfl]
  · rw [Function.update_of_ne hj, if_neg hj]

/-- The loop of `send_to_fd` keeps what is in hand. -/
theorem node_sendingOrNext (part : Part) (x : Transfer) (fd : ℤ) (rest : List Char) :
    (sendingOrNext part x fd rest).node = some (x.node, x.msg) := by
  rw [SendPc.node, inHand_sendingOrNext]
  rfl

/-- What a step of a send worker does to the queue. -/
theorem sysStep_send_queue {s s' : System F P} {i : ℕ} {a : SendAction}
    (hstep : sysStep s (.send i a) = some s') :
    QueueStep s s' (.send i a) (s.queueEvents s' (.send i a)) := by
  obtain ⟨c, shared, w, hc, hworker, rfl⟩ := sysStep_send hstep
  have hkeep (ha : a ≠ .pop) (hq : shared.store.gmsgq = s.shared.store.gmsgq) (hh : w.hand = (s.send i).hand) :
      QueueStep s { s with shared := shared, send := Function.update s.send i w } (.send i a) [] := by
    refine .keep (fun j heq => ha ?_) hq (hand_update hh)
    cases heq
    rfl
  cases hworker with
  | wait hpc | goOn hpc | wake hpc | up hpc | down hpc | lock hpc =>
    exact hkeep (by simp) rfl (by rw [SendWorker.hand, SendWorker.hand, hpc]; rfl)
  | recreate hpc hrecreate =>
    exact hkeep (by simp) (by rw [Shared.recreate_store hrecreate]) (by rw [SendWorker.hand, SendWorker.hand, hpc]; rfl)
  | connect connected hpc =>
    exact hkeep (by simp) (by rw [Shared.connect_store]) (by rw [SendWorker.hand, SendWorker.hand, hpc]; rfl)
  | @popNone q hpc hpop =>
    have hevents : s.queueEvents
        { s with shared := { s.shared with store := { s.shared.store with gmsgq := q } },
                 send := Function.update s.send i { s.send i with pc := .test } } (.send i .pop) =
          [.popped c.peerId none] := by
      simp [System.queueEvents, hc, SendPc.node, SendPc.inHand]
    rw [hevents]
    exact .popNone hc hpop (hand_update (by rw [SendWorker.hand, SendWorker.hand, hpc]; rfl))
  | @pop q node cell hpc hpop hcell =>
    have hevents (shared : Shared F P) : s.queueEvents
        { s with shared := shared,
                 send := Function.update s.send i { s.send i with
                  pc := .start .header ⟨node, cell.val, []⟩
                  taken := (s.send i).taken ++ [cell.val] } } (.send i .pop) =
          [.popped c.peerId (some cell.val)] := by
      simp [System.queueEvents, hc, SendPc.node, SendPc.inHand]
    rw [hevents]
    refine .pop (i := i) hc hpop (valAt_of_get hcell) ?_ (hand_update_eq s.send i _)
    rw [SendWorker.hand, hpc]
    rfl
  | @start part x text hpc htext =>
    refine hkeep (by simp) rfl ?_
    rw [SendWorker.hand, SendWorker.hand, node_sendingOrNext, hpc]
    rfl
  | sendFails hpc hsend => exact hkeep (by simp) rfl (by rw [SendWorker.hand, SendWorker.hand, hpc]; rfl)
  | @send part x fd rest left r hpc hsend =>
    refine hkeep (by simp) rfl ?_
    rw [SendWorker.hand, SendWorker.hand, node_sendingOrNext, hpc]
    rfl
  | @failed part x hpc =>
    refine hkeep (by simp) rfl ?_
    rw [SendWorker.hand, SendWorker.hand, hpc]
    exact congrArg (Hand.mk · (s.send i).taken) (node_sendingOrNext part x 0 [])
  | @free x q hpc hfree =>
    refine .free (i := i) (x := (x.node, x.msg)) ?_ hfree (hand_update_eq s.send i _)
    rw [SendWorker.hand, hpc]
    rfl

/-- What a client that appends does to the queue. -/
theorem sysStep_append_queue {s s' : System F P} {k : ℕ} {req : Request} {callbackF : F} {callbackParam : P}
    {now : Timeval} (hstep : sysStep s (.append k req callbackF callbackParam now) = some s') :
    QueueStep s s' (.append k req callbackF callbackParam now)
      (s.queueEvents s' (.append k req callbackF callbackParam now)) := by
  obtain ⟨_, h⟩ := Option.ite_none_left_eq_some.mp hstep
  obtain ⟨store, hpush, rfl⟩ := Option.map_eq_some_iff.mp h
  rcases pushToMsgq_eq_some hpush with ⟨hid, rfl⟩ | ⟨hid, routed, linked, hrouted, hlinked, rfl⟩
  · rw [System.queueEvents, System.appended, if_pos hid]
    exact .keep nofun rfl fun _ => rfl
  · rw [System.queueEvents, System.appended, if_neg hid, hrouted]
    exact .push hlinked rfl fun _ => rfl

/-- What a step does to the queue. -/
theorem sysStep_queue {s s' : System F P} {a : Action F P} (hstep : sysStep s a = some s') :
    QueueStep s s' a (s.queueEvents s' a) := by
  cases a with
  | recv i b =>
    obtain ⟨c, shared, w, _, hworker, rfl⟩ := sysStep_recv hstep
    exact .keep nofun hworker.gmsgq fun _ => rfl
  | send i b => exact sysStep_send_queue hstep
  | append k req callbackF callbackParam now => exact sysStep_append_queue hstep
  | signal k woken =>
    obtain ⟨first, cell, _, _, _, hs'⟩ := sysStep_signal hstep
    refine .keep nofun ?_ fun j => ?_
    · rw [hs']
      cases woken <;> rfl
    · rcases sysStep_signal_send hstep j with hsame | ⟨hwait, hwoken⟩
      · rw [hsame]
      · rw [hwoken, SendWorker.hand, SendWorker.hand, hwait]
        rfl
  | sweep now printable =>
    obtain ⟨table, _, rfl⟩ := Option.map_eq_some_iff.mp hstep
    exact .keep nofun rfl fun _ => rfl

/-- The nodes of a list are the ones that are reached. -/
theorem MsgList.Consists.notMem_of_not_reach {q : MsgList} {nodes : List (ℕ × Msgque)} (hq : q.Consists nodes)
    {a : ℕ} (h : ¬ Reach q.heap q.head a) : a ∉ nodes.map Prod.fst :=
  fun hmem => h ((Represents.reach_iff hq a).mpr hmem)

/-- A pop writes pointers only. -/
theorem valAt_of_popFromMsgq {q q' : MsgList} {con : ℤ} {popped : Option ℕ}
    (hpop : popFromMsgq q con = some (q', popped)) (b : ℕ) : valAt q'.heap b = valAt q.heap b := by
  unfold popFromMsgq at hpop
  split at hpop
  · cases hpop
    rfl
  · obtain ⟨temp, _, hpop⟩ := Option.bind_eq_some_iff.mp hpop
    split at hpop
    · obtain ⟨h1, hset, hpop⟩ := Option.bind_eq_some_iff.mp hpop
      obtain ⟨h2, hdetach, hpop⟩ := Option.bind_eq_some_iff.mp hpop
      cases hpop
      rw [valAt_of_detach hdetach, valAt_of_setPrevOf hset]
    · obtain ⟨found, _, hpop⟩ := Option.bind_eq_some_iff.mp hpop
      cases found with
      | none =>
        cases hpop
        rfl
      | some a =>
        obtain ⟨temp, _, hpop⟩ := Option.bind_eq_some_iff.mp hpop
        obtain ⟨h1, hlinked, hpop⟩ : ∃ h1, valAt h1 b = valAt q.heap b ∧
            ((detach h1 a).bind fun heap => some (⟨heap, q.head⟩, some a)) = some (q', popped) := by
          dsimp only at hpop
          split at hpop
          · exact ⟨q.heap, rfl, hpop⟩
          · obtain ⟨h0, hset, hpop⟩ := Option.bind_eq_some_iff.mp hpop
            obtain ⟨before, _, hpop⟩ := Option.bind_eq_some_iff.mp hpop
            obtain ⟨h1, hlink, hpop⟩ := Option.bind_eq_some_iff.mp hpop
            exact ⟨h1, by rw [valAt_of_modify hlink fun _ => rfl, valAt_of_setPrevOf hset], hpop⟩
        obtain ⟨h2, hdetach, hpop⟩ := Option.bind_eq_some_iff.mp hpop
        cases hpop
        rw [valAt_of_detach hdetach, hlinked]

/-- A pop that finds a node for the connection, and does not take the last of several, takes the first one for the
connection out of the list. -/
theorem popFromMsgq_first_for {q q' : MsgList} {con : ℤ} {node : ℕ} {nodes : List (ℕ × Msgque)}
    (hq : q.Consists nodes) (hpop : popFromMsgq q con = some (q', some node))
    (hsafe : ¬ TailFirst con (nodes.map Prod.snd)) :
    ∃ front m back, nodes = front ++ (node, m) :: back ∧ m.conn = con ∧ (∀ y ∈ front.map Prod.snd, y.conn ≠ con) ∧
      valAt q.heap node = some m ∧ q'.Consists (front ++ back) := by
  cases hfind : nodes.find? (fun x => x.2.conn = con) with
  | none =>
    rw [popFromMsgq_none q con nodes hq hfind] at hpop
    cases hpop
  | some x =>
    obtain ⟨hx, front, back, rfl, hfront, hfront'⟩ := exists_split_of_find hfind
    rw [List.map_append, List.map_cons, tailFirst_iff con _ _ _ hx hfront'] at hsafe
    obtain ⟨q'', hpop', hq'', _⟩ := popFromMsgq_takes q con front back x hq hx hfront (by simpa using hsafe)
    rw [hpop, Option.some.injEq, Prod.mk.injEq, Option.some.injEq] at hpop'
    obtain ⟨rfl, rfl⟩ := hpop'
    obtain ⟨_, _, hget⟩ := (Represents.segment hq).get_of_mem x (by simp)
    exact ⟨front, x.2, back, rfl, hx, hfront', valAt_of_get hget, hq''⟩

/-- A pop that takes the last of several nodes leaves it in the list. -/
theorem popFromMsgq_reach_of_tailFirst {q q' : MsgList} {con : ℤ} {node : ℕ} {nodes : List (ℕ × Msgque)}
    (hq : q.Consists nodes) (hpop : popFromMsgq q con = some (q', some node))
    (htail : TailFirst con (nodes.map Prod.snd)) : Reach q'.heap q'.head node := by
  cases hfind : nodes.find? (fun x => x.2.conn = con) with
  | none =>
    rw [popFromMsgq_none q con nodes hq hfind] at hpop
    cases hpop
  | some x =>
    obtain ⟨hx, front, back, rfl, hfront, hfront'⟩ := exists_split_of_find hfind
    rw [List.map_append, List.map_cons, tailFirst_iff con _ _ _ hx hfront'] at htail
    obtain ⟨hne, hback⟩ := htail
    obtain rfl : back = [] := List.map_eq_nil_iff.mp hback
    rcases List.eq_nil_or_concat front with rfl | ⟨front, p, rfl⟩
    · exact absurd rfl hne
    · rw [List.concat_eq_append] at hq hfront
      obtain ⟨q'', hpop', hhead, _, hsame⟩ := popFromMsgq_tail q con front p x hq hx hfront
      rw [hpop, Option.some.injEq, Prod.mk.injEq, Option.some.injEq] at hpop'
      obtain ⟨rfl, rfl⟩ := hpop'
      rw [hhead]
      exact Represents.freed_last_reachable hq hsame

/-- A pop that finds nothing for the connection leaves the queue, which has nothing for it. -/
theorem popFromMsgq_none_for {q q' : MsgList} {con : ℤ} {nodes : List (ℕ × Msgque)} (hq : q.Consists nodes)
    (hpop : popFromMsgq q con = some (q', none)) : q' = q ∧ ∀ m ∈ nodes.map Prod.snd, m.conn ≠ con := by
  cases hfind : nodes.find? (fun x => x.2.conn = con) with
  | none =>
    rw [popFromMsgq_none q con nodes hq hfind] at hpop
    cases hpop
    exact ⟨rfl, messages_ne_of_find hfind⟩
  | some x =>
    exfalso
    obtain ⟨hx, front, back, rfl, hfront, _⟩ := exists_split_of_find hfind
    by_cases hlast : front ≠ [] ∧ back = []
    · obtain ⟨hne, rfl⟩ := hlast
      obtain ⟨front, p, rfl⟩ := (List.eq_nil_or_concat front).resolve_left hne
      rw [List.concat_eq_append] at hq hfront
      obtain ⟨q'', hpop', _⟩ := popFromMsgq_tail q con front p x hq hx hfront
      rw [hpop] at hpop'
      cases hpop'
    · obtain ⟨q'', hpop', _⟩ := popFromMsgq_takes q con front back x hq hx hfront hlast
      rw [hpop] at hpop'
      cases hpop'

/-- The waiting messages after one more event. -/
theorem waiting_snoc (s : LoggedSystem F P) (next : System F P) (e : QueueEvent Msgque ℤ) :
    (⟨next, s.log ++ [e]⟩ : LoggedSystem F P).waiting = waitingAfter Msgque.conn s.waiting e :=
  pending_snoc Msgque.conn s.log e

/-- One more event keeps the history right if it is an addition, or took the right message. -/
theorem earliest_snoc {s : LoggedSystem F P} (hs : PopsEarliest Msgque.conn [] s.log) {e : QueueEvent Msgque ℤ}
    (he : PopsEarliest Msgque.conn s.waiting [e]) : PopsEarliest Msgque.conn [] (s.log ++ [e]) :=
  (popsEarliest_snoc Msgque.conn [] s.log e).mpr ⟨hs, he⟩

section Steps

variable {s : LoggedSystem F P} {next : System F P}

/-- A step that leaves the queue and all hands keeps the order. -/
theorem LoggedSystem.InOrder.keep (hs : s.InOrder)
    (hqueue : next.shared.store.gmsgq = s.sys.shared.store.gmsgq)
    (hhand : ∀ j, (next.send j).hand = (s.sys.send j).hand) :
    (⟨next, s.log ++ []⟩ : LoggedSystem F P).InOrder := by
  rw [List.append_nil]
  refine ⟨?_, hs.earliest, fun i x hx => ?_, fun i j x y hij hx hy => ?_⟩
  · rw [hqueue]
    exact hs.linked
  · rw [hqueue]
    exact hs.held i x (hhand i ▸ hx)
  · exact hs.apart i j x y hij (hhand i ▸ hx) (hhand j ▸ hy)

/-- An append keeps the order. -/
theorem LoggedSystem.InOrder.push (hs : s.InOrder) {m : Msgque} {heap : Links Msgque} {head : Option ℕ}
    (happend : appendNode s.sys.shared.store.gmsgq.heap s.sys.shared.store.gmsgq.head m = some (heap, head))
    (hqueue : next.shared.store.gmsgq = ⟨heap, head⟩) (hhand : ∀ j, (next.send j).hand = (s.sys.send j).hand) :
    (⟨next, s.log ++ [.pushed m]⟩ : LoggedSystem F P).InOrder := by
  obtain ⟨nodes, hq, hwaiting⟩ := hs.linked
  obtain ⟨heap', head', happend', hrep⟩ := appendNode_represents hq m
  rw [happend, Option.some.injEq, Prod.mk.injEq] at happend'
  obtain ⟨rfl, rfl⟩ := happend'
  have hq' : next.shared.store.gmsgq.Consists (nodes ++ [(s.sys.shared.store.gmsgq.heap.size, m)]) := by
    rw [hqueue]
    exact hrep
  refine ⟨⟨_, hq', ?_⟩, earliest_snoc hs.earliest trivial, fun i x hx => ?_, fun i j x y hij hx hy => ?_⟩
  · rw [waiting_snoc, List.map_append, hwaiting]
    rfl
  · obtain ⟨hval, hreach⟩ := hs.held i x (hhand i ▸ hx)
    obtain ⟨cell, hcell, _⟩ := exists_get_of_valAt hval
    have hold : x.1 ≠ s.sys.shared.store.gmsgq.heap.size := Nat.ne_of_lt (Heap.lt_size_of_get hcell)
    rw [hqueue]
    refine ⟨by rw [valAt_of_appendNode happend, if_neg hold, hval], fun hreach' => ?_⟩
    have hmem := (hrep.reach_iff x.1).mp hreach'
    rw [List.map_append, List.mem_append] at hmem
    rcases hmem with hmem | hmem
    · exact MsgList.Consists.notMem_of_not_reach hq hreach hmem
    · exact hold (List.mem_singleton.mp hmem)
  · exact hs.apart i j x y hij (hhand i ▸ hx) (hhand j ▸ hy)

/-- A pop that finds nothing keeps the order. -/
theorem LoggedSystem.InOrder.popNone (hs : s.InOrder) {con : ℤ}
    (hpop : popFromMsgq s.sys.shared.store.gmsgq con = some (next.shared.store.gmsgq, none))
    (hhand : ∀ j, (next.send j).hand = (s.sys.send j).hand) :
    (⟨next, s.log ++ [.popped con none]⟩ : LoggedSystem F P).InOrder := by
  obtain ⟨nodes, hq, hwaiting⟩ := hs.linked
  obtain ⟨hqueue, hnone⟩ := popFromMsgq_none_for hq hpop
  rw [hwaiting] at hnone
  have hfind : s.waiting.find? (fun m => m.conn = con) = none := by
    rw [List.find?_eq_none]
    simpa using hnone
  have hkeep : s.waiting.eraseP (fun m => m.conn = con) = s.waiting :=
    List.eraseP_of_forall_not (by simpa using hnone)
  obtain ⟨hlinked, _, hheld, hapart⟩ := hs.keep hqueue hhand
  refine ⟨?_, earliest_snoc hs.earliest ⟨hfind.symm, trivial⟩, hheld, hapart⟩
  rw [waiting_snoc, waitingAfter, hkeep]
  rw [List.append_nil] at hlinked
  exact hlinked

/-- A pop that finds a node, and does not take the last of several, keeps the order. -/
theorem LoggedSystem.InOrder.pop (hs : s.InOrder) {i node : ℕ} {con : ℤ} {m : Msgque}
    (hpop : popFromMsgq s.sys.shared.store.gmsgq con = some (next.shared.store.gmsgq, some node))
    (hval : valAt next.shared.store.gmsgq.heap node = some m)
    (hhand : ∀ j, (next.send j).hand =
      if j = i then ⟨some (node, m), (s.sys.send i).hand.taken ++ [m]⟩ else (s.sys.send j).hand)
    (hsafe : ¬ TailFirst con s.waiting) :
    (⟨next, s.log ++ [.popped con (some m)]⟩ : LoggedSystem F P).InOrder := by
  obtain ⟨nodes, hq, hwaiting⟩ := hs.linked
  rw [← hwaiting] at hsafe
  obtain ⟨front, m', back, rfl, hm', hfront, hval', hq'⟩ := popFromMsgq_first_for hq hpop hsafe
  obtain rfl : m' = m := by
    rw [valAt_of_popFromMsgq hpop, hval', Option.some.injEq] at hval
    exact hval
  have hnodup := hq.nodup
  rw [List.map_append, List.map_cons, List.nodup_middle, List.nodup_cons, ← List.map_append] at hnodup
  have hskip : ∀ y ∈ front.map Prod.snd, ¬ decide (y.conn = con) = true := by simpa using hfront
  have hfind : s.waiting.find? (fun x => x.conn = con) = some m' := by
    rw [← hwaiting, List.map_append, List.find?_append, List.find?_eq_none.mpr hskip]
    simp [hm']
  have herase : s.waiting.eraseP (fun x => x.conn = con) = (front ++ back).map Prod.snd := by
    rw [← hwaiting, List.map_append, List.eraseP_append_right _ hskip, List.map_cons,
      List.eraseP_cons_of_pos (by simpa using hm'), List.map_append]
  -- nodes in other hands were not in the list
  have hother (x : ℕ × Msgque) (j : ℕ) (hx : (s.sys.send j).hand.node = some x) :
      x.1 ∉ (front ++ (node, m') :: back).map Prod.fst :=
    MsgList.Consists.notMem_of_not_reach hq (hs.held j x hx).2
  have hnode : node ∈ (front ++ (node, m') :: back).map Prod.fst := by simp
  refine ⟨⟨_, hq', ?_⟩, earliest_snoc hs.earliest ⟨hfind.symm, trivial⟩, fun j x hx => ?_,
    fun j k x y hjk hx hy => ?_⟩
  · rw [waiting_snoc, waitingAfter, herase]
  · change (next.send j).hand.node = some x at hx
    change _ ∧ ¬ Reach next.shared.store.gmsgq.heap next.shared.store.gmsgq.head x.1
    rw [Represents.reach_iff hq']
    rw [hhand] at hx
    split at hx
    · cases hx
      exact ⟨hval, hnodup.1⟩
    · refine ⟨by rw [valAt_of_popFromMsgq hpop, (hs.held j x hx).1], fun hmem => hother x j hx ?_⟩
      rw [List.map_append, List.mem_append] at hmem ⊢
      exact hmem.imp_right (List.mem_cons_of_mem _)
  · change (next.send j).hand.node = some x at hx
    change (next.send k).hand.node = some y at hy
    rw [hhand] at hx hy
    split at hx
    · next hj =>
      rw [if_neg fun hk => hjk (hj.trans hk.symm)] at hy
      cases hx
      exact fun heq => hother y k hy (heq ▸ hnode)
    · split at hy
      · cases hy
        exact fun heq => hother x j hx (heq ▸ hnode)
      · exact hs.apart j k x y hjk hx hy

/-- Freeing the node in hand keeps the order. -/
theorem LoggedSystem.InOrder.free (hs : s.InOrder) {i : ℕ} {x : ℕ × Msgque} {taken : List Msgque}
    (hold : (s.sys.send i).hand.node = some x)
    (hfree : s.sys.shared.store.gmsgq.freeNode x.1 = some next.shared.store.gmsgq)
    (hhand : ∀ j, (next.send j).hand = if j = i then ⟨none, taken⟩ else (s.sys.send j).hand) :
    (⟨next, s.log ++ []⟩ : LoggedSystem F P).InOrder := by
  obtain ⟨nodes, hq, hwaiting⟩ := hs.linked
  obtain ⟨heap, hheap, hqueue⟩ := Option.map_eq_some_iff.mp hfree
  have hfreed := MsgList.Consists.notMem_of_not_reach hq (hs.held i x hold).2
  have hother (j : ℕ) (y : ℕ × Msgque) (hy : (next.send j).hand.node = some y) :
      j ≠ i ∧ (s.sys.send j).hand.node = some y := by
    rw [hhand] at hy
    split at hy
    · cases hy
    · next hj => exact ⟨hj, hy⟩
  have hq' : (⟨heap, s.sys.shared.store.gmsgq.head⟩ : MsgList).Consists nodes := by
    refine Represents.congr hq fun b hb => ?_
    rw [Heap.get_of_free hheap, if_neg]
    exact fun heq => hfreed (heq ▸ hb)
  rw [List.append_nil]
  refine ⟨⟨nodes, hqueue ▸ hq', hwaiting⟩, hs.earliest, fun j y hy => ?_, fun j k y z hjk hy hz => ?_⟩
  · obtain ⟨hj, hy⟩ := hother j y hy
    obtain ⟨hval, hreach⟩ := hs.held j y hy
    change valAt next.shared.store.gmsgq.heap y.1 = some y.2 ∧
      ¬ Reach next.shared.store.gmsgq.heap next.shared.store.gmsgq.head y.1
    rw [← hqueue, Represents.reach_iff hq', ← Represents.reach_iff hq]
    exact ⟨by rw [valAt_of_free hheap, if_neg (hs.apart j i y x hj hy hold), hval], hreach⟩
  · exact hs.apart j k y z hjk (hother j y hy).2 (hother k z hz).2

end Steps

/-- Before the first step everything is in order. -/
theorem LoggedSystem.start_inOrder (cfg : Configurator) (gconnList : List Con) (kernel : Kernel) :
    (⟨.start cfg gconnList kernel, []⟩ : LoggedSystem F P).InOrder where
  linked := ⟨[], represents_nil _, rfl⟩
  earliest := trivial
  held i x hx := by cases hx
  apart i j x y _ hx := by cases hx

/-- A step that is not a pop leaves the tail alone. -/
theorem leavesTail_of_ne {s : LoggedSystem F P} {a : Action F P} (ha : ∀ i, a ≠ .send i .pop) : a.LeavesTail s := by
  unfold Action.LeavesTail
  split
  · next i => exact absurd rfl (ha i)
  · trivial

/-- The condition on a pop of the worker on an entry. -/
theorem leavesTail_pop_iff {s : LoggedSystem F P} {i : ℕ} {c : Con} (hentry : s.sys.shared.gconnList[i]? = some c) :
    (Action.send i .pop : Action F P).LeavesTail s ↔ ¬ TailFirst c.peerId s.waiting := by
  refine ⟨fun h => h c hentry, fun h c' hc' => ?_⟩
  rwa [← Option.some.inj (hentry.symm.trans hc')]

/-- Nothing waits for the connection after a pop that found nothing, so it did not take the last of several. -/
theorem not_tailFirst_of_none {con : ℤ} {waiting : List Msgque} (hnone : ∀ m ∈ waiting, m.conn ≠ con) :
    ¬ TailFirst con waiting := by
  rintro ⟨_, hidx⟩
  have hlen : waiting.findIdx (fun m => m.conn = con) = waiting.length :=
    List.findIdx_eq_length.mpr (by simpa using hnone)
  omega

/-- A step keeps the order exactly if it is not a pop that takes the last of several nodes. -/
theorem loggedStep_inOrder_iff {s next : LoggedSystem F P} {a : Action F P} (hs : s.InOrder)
    (hstep : loggedStep s a = some next) : next.InOrder ↔ a.LeavesTail s := by
  obtain ⟨sys, hsys, rfl⟩ := Option.map_eq_some_iff.mp hstep
  have hqueue := sysStep_queue hsys
  generalize s.sys.queueEvents sys a = events at hqueue ⊢
  cases hqueue with
  | keep hother hqueue hhand => exact iff_of_true (hs.keep hqueue hhand) (leavesTail_of_ne hother)
  | push happend hqueue hhand => exact iff_of_true (hs.push happend hqueue hhand) trivial
  | free hold hfree hhand => exact iff_of_true (hs.free hold hfree hhand) trivial
  | popNone hentry hpop hhand =>
    refine iff_of_true (hs.popNone hpop hhand) ((leavesTail_pop_iff hentry).mpr ?_)
    obtain ⟨nodes, hq, hwaiting⟩ := hs.linked
    exact not_tailFirst_of_none (hwaiting ▸ (popFromMsgq_none_for hq hpop).2)
  | @pop i node c m hentry hpop hval hold hhand =>
    rw [leavesTail_pop_iff hentry]
    refine ⟨fun hnext htail => ?_, hs.pop hpop hval hhand⟩
    obtain ⟨nodes, hq, hwaiting⟩ := hs.linked
    have hmine : (sys.send i).hand.node = some (node, m) := by rw [hhand, if_pos rfl]
    exact (hnext.held i (node, m) hmine).2 (popFromMsgq_reach_of_tailFirst hq hpop (hwaiting ▸ htail))

/-- In every run of the threads, queue and hands stay in order exactly if no pop takes the last of several nodes. -/
theorem delivery_inOrder_iff (cfg : Configurator) (gconnList : List Con) (kernel : Kernel)
    (acts : List (Action F P)) :
    Throughout loggedStep LoggedSystem.InOrder ⟨.start cfg gconnList kernel, []⟩ acts ↔
      EachStep loggedStep (fun s a => a.LeavesTail s) ⟨.start cfg gconnList kernel, []⟩ acts :=
  throughout_iff_eachStep loggedStep (fun s a => a.LeavesTail s) (fun _ => True) LoggedSystem.InOrder
    (fun _ _ _ _ _ _ _ => trivial) (fun _ _ _ _ hs hstep => loggedStep_inOrder_iff hs hstep)
    _ acts trivial (LoggedSystem.start_inOrder cfg gconnList kernel)

end TcpClb
