import TcpClb.ConnectionOwners
import TcpClb.DeliveryOrder
import TcpClb.PeerOwnership

/-!
# Delivery to the peers

From the call of `ready_to_send` to the bytes on the wire. If the pops keep the order of the queue, and the calls of
`send` for a message go through on the connection to its peer on which they began, then the messages for a peer are sent
in the order in which they were appended, each with its complete frame on one connection, and all that a connection
carries reads back as their bodies. What has not been sent is in the hand of the worker or waits in the queue.
-/

namespace TcpClb

open TcpClb.Common

variable {F P : Type}

/-- The connection has accepted bytes of the message. -/
def Transfer.SentOn (conn : Connection) (x : Transfer) : Prop := x.acceptedOn conn ≠ []

instance (conn : Connection) (x : Transfer) : Decidable (x.SentOn conn) :=
  inferInstanceAs (Decidable (_ ≠ _))

/-- The messages a worker has freed that it has written on a connection. -/
def SendWorker.sentOn (w : SendWorker) (conn : Connection) : List Transfer := w.finished.filter (Transfer.SentOn conn)

/-- The bytes that a connection has accepted of the message in hand. -/
def SendWorker.partOn (w : SendWorker) (conn : Connection) : List Char :=
  (w.pc.inHand.map Prod.fst).toList.flatMap fun x => x.acceptedOn conn

/-- The messages for a peer have been sent, are in hand or wait, in this order; those that have been sent are complete,
and all bytes of a connection on which they were sent, whoever has sent them, read back as these messages. -/
structure LoggedSystem.DeliversTo (s : LoggedSystem F P) (i : ℕ) : Prop where
  conserved : queuedFor Msgque.conn (i : ℤ) s.log =
    (s.sys.send i).finished.map Transfer.msg ++ ((s.sys.send i).hand.node.map Prod.snd).toList ++
      s.waiting.filter fun m => m.conn = (i : ℤ)
  complete : ∀ x ∈ (s.sys.send i).finished, x.Complete
  readBack : ∀ conn errno, (s.sys.send i).stream conn ≠ [] →
    receiveTimes ((s.sys.send i).sentOn conn).length (leaveOver (s.sys.shared.carried conn) errno []) =
      some (((s.sys.send i).sentOn conn).map fun x => ⟨some x.msg.body, some x.msg.len⟩,
        leaveOver ((s.sys.send i).partOn conn) errno [])

/-- The step keeps the order of the queue, `send` accepts bytes only where they belong, on a connection made for the
worker's peer, and a message is freed only after all calls for it have gone through. -/
structure Action.Delivers (s : LoggedSystem F P) (a : Action F P) : Prop where
  leavesTail : a.LeavesTail s
  continues : a.Continues s.sys
  toOwnPeer : a.ToOwnPeer s.sys
  undisturbed : a.FreesUndisturbed s.sys

/-- What the threads have done so far is in order, and every worker keeps to its own peer. -/
structure LoggedSystem.OnTrack (s : LoggedSystem F P) : Prop where
  inOrder : s.InOrder
  tied : s.sys.Tied
  framed : ∀ i, (s.sys.send i).Framed
  oneSender : s.sys.OneSender
  noneLost : s.sys.NoneLost
  taken : ∀ i : ℕ, (s.sys.send i).taken = deliveredTo (i : ℤ) s.log

/-- What a consumer has taken after one more event. -/
theorem deliveredTo_snoc (k : ℤ) (log : List (QueueEvent Msgque ℤ)) (e : QueueEvent Msgque ℤ) :
    deliveredTo k (log ++ [e]) = deliveredTo k log ++ deliveredTo k [e] := by
  induction log with
  | nil => rfl
  | cons d rest ih =>
    cases d with
    | pushed m => exact ih
    | popped k' m => rw [List.cons_append, deliveredTo, deliveredTo, ih, List.append_assoc]

/-- Frames read back as their bodies, and what follows is left. -/
theorem receiveTimes_frames (xs : List Transfer) (more : List Char) (errno : Errno)
    (hframe : ∀ x ∈ xs, x.msg.body.length ≤ 9999 ∧ x.msg.len = x.msg.body.length) :
    receiveTimes xs.length (leaveOver ((xs.flatMap fun x => frame x.msg.body) ++ more) errno []) =
      some (xs.map fun x => ⟨some x.msg.body, some x.msg.len⟩, leaveOver more errno []) := by
  induction xs with
  | nil => rfl
  | cons x xs ih =>
    obtain ⟨⟨hshort, hlen⟩, hrest⟩ := List.forall_mem_cons.mp hframe
    have hfirst := receiveFromFd_whole x.msg.body ((xs.flatMap fun x => frame x.msg.body) ++ more) errno hshort
    rw [List.flatMap_cons, List.append_assoc, List.length_cons, receiveTimes, hfirst]
    simp only [Option.bind_eq_bind, Option.bind_some, ih hrest, List.map_cons, hlen]

/-- A connection has all or nothing of a complete message. -/
theorem Transfer.Complete.acceptedOn {x : Transfer} (hx : x.Complete) (hended : x.Ended) (conn : Connection) :
    (x.SentOn conn → x.acceptedOn conn = frame x.msg.body) ∧
      x.msg.body.length ≤ 9999 ∧ x.msg.len = x.msg.body.length := by
  obtain ⟨hdigits, hone, hwhole⟩ := hx
  obtain ⟨hframe, hshort⟩ := Msgque.wire_eq_frame hdigits hended.2
  refine ⟨fun hsent => ?_, hshort, ?_⟩
  · rw [(hone.acceptedOn conn).resolve_left hsent, hwhole, hframe]
  · have hsized := hended.2
    rw [Msgque.body, List.length_take]
    have := hdigits.1
    omega

/-- What a worker has written on a connection are the frames of the messages sent there, and the part of the one in
hand. -/
theorem stream_eq_frames {w : SendWorker} (hended : ∀ x ∈ w.finished, x.Ended)
    (hcomplete : ∀ x ∈ w.finished, x.Complete) (conn : Connection) :
    w.stream conn = ((w.sentOn conn).flatMap fun x => frame x.msg.body) ++ w.partOn conn := by
  rw [SendWorker.stream, SendWorker.transfers, List.flatMap_append, SendWorker.partOn, SendWorker.sentOn]
  congr 1
  generalize w.finished = finished at hended hcomplete ⊢
  induction finished with
  | nil => rfl
  | cons x rest ih =>
    obtain ⟨hx, hrest⟩ := List.forall_mem_cons.mp hcomplete
    obtain ⟨hxended, hrestended⟩ := List.forall_mem_cons.mp hended
    rw [List.flatMap_cons, ih hrestended hrest]
    by_cases hsent : x.SentOn conn
    · rw [List.filter_cons_of_pos (by simpa using hsent), List.flatMap_cons,
        (hx.acceptedOn hxended conn).1 hsent]
    · rw [List.filter_cons_of_neg (by simpa using hsent), not_not.mp hsent, List.nil_append]

/-- What is on track delivers to every peer. -/
theorem LoggedSystem.OnTrack.deliversTo {s : LoggedSystem F P} (hs : s.OnTrack) (i : ℕ) : s.DeliversTo i where
  conserved := by
    have hall := delivered_append_waiting Msgque.conn (i : ℤ) [] s.log hs.inOrder.earliest
    rw [List.filter_nil, List.nil_append] at hall
    rw [← hall, ← hs.taken i, (hs.noneLost i).accounted]
    congr 2
    rw [SendWorker.hand, SendPc.node, Option.map_map]
    rfl
  complete := (hs.noneLost i).complete
  readBack conn errno hsent := by
    rw [hs.oneSender.carried i conn hsent, stream_eq_frames (hs.framed i).ended (hs.noneLost i).complete]
    apply receiveTimes_frames
    intro x hx
    have hmem := List.mem_of_mem_filter hx
    exact (((hs.noneLost i).complete x hmem).acceptedOn ((hs.framed i).ended x hmem) conn).2

/-- What a worker has taken is what has been delivered to its peer, if it pops for this peer. -/
theorem QueueStep.taken {s s' : System F P} {a : Action F P} {log events : List (QueueEvent Msgque ℤ)}
    (hstep : QueueStep s s' a events)
    (hpeer : ∀ (i : ℕ) (c : Con), s.shared.gconnList[i]? = some c → c.peerId = i)
    (hs : ∀ i : ℕ, (s.send i).taken = deliveredTo (i : ℤ) log) (i : ℕ) :
    (s'.send i).taken = deliveredTo (i : ℤ) (log ++ events) := by
  change (s'.send i).hand.taken = _
  have hold : (s.send i).hand.taken = deliveredTo (i : ℤ) log := hs i
  cases hstep with
  | keep hother hqueue hhand => rw [hhand, hold, List.append_nil]
  | push happend hqueue hhand =>
    rw [hhand, hold, deliveredTo_snoc]
    exact (List.append_nil _).symm
  | popNone hentry hpop hhand =>
    rw [hhand, hold, deliveredTo_snoc]
    simp [deliveredTo]
  | free hnode hfree hhand =>
    rw [hhand, List.append_nil, ← hold]
    split
    · next h => rw [h]
    · rfl
  | @pop j node c m hentry hpop hval hnode hhand =>
    rw [hhand, deliveredTo_snoc, hpeer j c hentry, deliveredTo, deliveredTo, List.append_nil]
    by_cases hi : i = j
    · subst hi
      rw [if_pos rfl, if_pos rfl, ← hold]
      rfl
    · rw [if_neg hi, if_neg fun h => hi (Int.ofNat_inj.mp h).symm, List.append_nil, hold]

/-- A step that delivers stays on track. -/
theorem loggedStep_onTrack {s next : LoggedSystem F P} {a : Action F P} (hs : s.OnTrack) (ha : a.Delivers s)
    (hstep : loggedStep s a = some next) : next.OnTrack := by
  have horder := (loggedStep_inOrder_iff hs.inOrder hstep).mpr ha.leavesTail
  obtain ⟨sys, hsys, rfl⟩ := Option.map_eq_some_iff.mp hstep
  have htracked (i : ℕ) : (s.sys.send i).Tracked := (hs.framed i).tracked
  exact {
    inOrder := horder
    tied := (sysStep_tied hs.tied hsys).2
    framed := sysStep_framed hs.framed ha.continues hsys
    oneSender := sysStep_oneSender hs.oneSender ha.toOwnPeer hsys
    noneLost := (sysStep_noneLost_iff a htracked hs.noneLost hsys).mpr ha.undisturbed
    taken := (sysStep_queue hsys).taken hs.tied.peerId hs.taken }

/-- `manage` leaves every worker on its own peer if all peers but the first have been connected to. -/
theorem manage_tied {cfg : Configurator} {start : ℕ → PeerStart} {s : System F P} (hmanage : manage cfg start = some s)
    (hup : ∀ i, 1 ≤ i → i < cfg.peers.length → (start i).Succeeds) : s.Tied := by
  obtain ⟨⟨gconnList, kernel⟩, hpeers, rfl⟩ := Option.map_eq_some_iff.mp hmanage
  obtain ⟨_, hlen, hentry⟩ := createPeersFrom_entry hpeers
  refine ⟨fun i c hc => ?_, fun i pid h => ?_, fun i pid h => ?_⟩
  · have hlt : i < cfg.peers.length := hlen ▸ (List.getElem?_eq_some_iff.mp hc).1
    change gconnList[i]? = some c at hc
    rw [hentry i hlt, Nat.zero_add, Option.some.injEq] at hc
    rw [← hc, PeerStart.entry_peerId fun hi => hup i hi hlt]
  · cases h
  · cases h

/-- The workers that `manage` starts are on track. -/
theorem manage_onTrack {cfg : Configurator} {start : ℕ → PeerStart} {s : System F P} (hmanage : manage cfg start = some s)
    (hup : ∀ i, 1 ≤ i → i < cfg.peers.length → (start i).Succeeds) : (⟨s, []⟩ : LoggedSystem F P).OnTrack := by
  have htied := manage_tied hmanage hup
  obtain ⟨⟨gconnList, kernel⟩, _, rfl⟩ := Option.map_eq_some_iff.mp hmanage
  exact {
    inOrder := LoggedSystem.start_inOrder cfg gconnList kernel
    tied := htied
    framed := fun _ => .initial
    oneSender := System.start_oneSender cfg gconnList kernel
    noneLost := fun _ => ⟨rfl, fun _ h => absurd h List.not_mem_nil⟩
    taken := fun _ => rfl }

/-- In every run whose steps deliver, the messages appended for a peer are sent to it completely and in order, are in
hand or wait, and it reads back what has been sent. -/
theorem deliversTo_throughout {cfg : Configurator} {start : ℕ → PeerStart} {s : System F P}
    (hmanage : manage cfg start = some s) (hup : ∀ i, 1 ≤ i → i < cfg.peers.length → (start i).Succeeds)
    (acts : List (Action F P)) (hall : EachStep loggedStep (fun s a => a.Delivers s) ⟨s, []⟩ acts) :
    Throughout loggedStep (fun s => ∀ i, s.DeliversTo i) ⟨s, []⟩ acts :=
  throughout_of_eachStep loggedStep (fun s a => a.Delivers s) LoggedSystem.OnTrack (fun s => ∀ i, s.DeliversTo i)
    (fun _ hs => hs.deliversTo) (fun _ _ _ hs ha hstep => loggedStep_onTrack hs ha hstep)
    _ acts (manage_onTrack hmanage hup) hall

/-- A message of one byte is appended and sent whole. -/
def oneMessage : List (Action Unit Unit) :=
  [.append 0 ⟨some ['x', '\x00'], 1, 0, 0, oneCharId 'a'⟩ () () ⟨0, 0⟩, .send 0 .test, .send 0 .checkState, .send 0 .pop,
    .send 0 .start, .send 0 (.send (.sent 4)), .send 0 .start, .send 0 (.send (.sent 1)), .send 0 .free]

/-- It is delivered to the first of two peers. -/
theorem oneMessage_delivered : Throughout loggedStep (fun s => ∀ i, s.DeliversTo i)
    (⟨twoPeersUp, []⟩ : LoggedSystem Unit Unit) oneMessage := by
  have hmanage : manage twoPeers bothConnect = some (twoPeersUp : System Unit Unit) := rfl
  apply deliversTo_throughout hmanage fun _ _ _ => Or.inl rfl
  have hdigits : HasFourDigits 1 := ⟨by decide, by decide⟩
  apply EachStep.cons rfl ⟨trivial, trivial, trivial, trivial⟩
  apply EachStep.cons rfl ⟨trivial, trivial, trivial, trivial⟩
  apply EachStep.cons rfl ⟨trivial, trivial, trivial, trivial⟩
  refine EachStep.cons rfl ⟨fun c hc => ?_, trivial, trivial, trivial⟩ ?_
  · cases hc
    decide
  apply EachStep.cons rfl ⟨trivial, trivial, trivial, trivial⟩
  refine EachStep.cons rfl ⟨trivial, fun part x fd rest hpc _ => ?_, fun part x fd rest hpc _ => ?_, trivial⟩ ?_
  · cases hpc
    exact ⟨hdigits, fun _ h => absurd h List.not_mem_nil, fun _ h => absurd h List.not_mem_nil,
      fun _ h => absurd h List.not_mem_nil⟩
  · cases hpc
    rfl
  apply EachStep.cons rfl ⟨trivial, trivial, trivial, trivial⟩
  refine EachStep.cons rfl ⟨trivial, fun part x fd rest hpc _ => ?_, fun part x fd rest hpc _ => ?_, trivial⟩ ?_
  · cases hpc
    refine ⟨hdigits, fun call hcall => ?_, fun call hcall _ => ?_, fun _ h => absurd h List.not_mem_nil⟩
    · rw [List.mem_singleton.mp hcall]
      exact Nat.succ_ne_zero 3
    · rw [List.mem_singleton.mp hcall]
      rfl
  · cases hpc
    rfl
  refine EachStep.cons rfl ⟨trivial, trivial, trivial, fun x hpc => ?_⟩ trivial
  cases hpc
  refine ⟨hdigits, fun a ha b hb _ _ => ?_, fun call hcall => ?_⟩
  · have hconn : ∀ call ∈ [(⟨⟨3, 1⟩, ['0', '0', '0', '1'], .sent 4⟩ : SendCall), ⟨⟨3, 1⟩, ['x'], .sent 1⟩],
        call.conn = ⟨3, 1⟩ := by decide
    exact (hconn a ha).trans (hconn b hb).symm
  · change call ∈ [(⟨⟨3, 1⟩, ['0', '0', '0', '1'], .sent 4⟩ : SendCall), ⟨⟨3, 1⟩, ['x'], .sent 1⟩] at hcall
    rcases List.mem_cons.mp hcall with rfl | hlast
    · exact Nat.succ_ne_zero 3
    · rw [List.mem_singleton.mp hlast]
      exact Nat.succ_ne_zero 0

end TcpClb
