import TcpClb.CallbackService
import TcpClb.Common.Runs
import TcpClb.Fragmentation
import TcpClb.MessagePass
import TcpClb.ResponseOrigin

/-!
# The receive workers provide the service

The receiving half of the library as it is: every `recv_worker_thread` reads frames from the stream of its own peer,
looks into the bytes for tags, and shares the table of ids with the other workers, the clients and the queue manager,
while the send workers change the message queue. Between the lookup and the callback, and between the callback and
`rem_id`, the others may do anything.

Every run is matched by one of the service. So whatever the interleaving, each response callback is the one given with
the last `sl_send_buf` of the id in the message.
-/

namespace TcpClb

open TcpClb.Common

variable {n : ℕ} {F P : Type}

/-- A well-formed body that a frame can carry. -/
structure PeerMessage extends XmlBody where
  pos : 1 ≤ toXmlBody.text.length
  le : toXmlBody.text.length ≤ 9999
  noNul : '\x00' ∉ toXmlBody.text

/-- The bytes of the body. -/
def PeerMessage.toBody (m : PeerMessage) : Body := ⟨m.text, m.pos, m.le⟩

/-- What `qtex` protects, what the calls of `recv` of each worker will give, what the workers do next, and the calls that
they have made. -/
structure ReceiveSide (F P : Type) where
  store : Store F P
  results : ℕ → List RecvResult
  duty : ℕ → WorkerDuty F P
  calls : List (MadeCall F P)

/-- Before the first call. -/
def ReceiveSide.start (results : ℕ → List RecvResult) : ReceiveSide F P := ⟨.initial, results, fun _ => .receive, []⟩

/-- A step of a client, of a receive worker, of the queue manager, or of the send workers. -/
inductive ReceiveAction (n : ℕ) (F P : Type)
  | send (gconnList : List Con) (hlen : getPeers gconnList = n) (req : Request) (callbackF : F) (callbackParam : P)
      (now : Timeval)
  | receive (w : ℕ) (curr : Timeval)
  | call (w : ℕ)
  | remove (w : ℕ)
  | sweep (now : ℕ → Timeval) (printable : P → Bool)
  | queue (gmsgq : MsgList)

/-- Perform one step. A worker receives a message and goes through it up to the lookup of its id. -/
def receiveStep (s : ReceiveSide F P) : ReceiveAction n F P → Option (ReceiveSide F P)
  | .send gconnList _ req callbackF callbackParam now =>
    (pushToMsgq s.store gconnList req.id.chars req.msgLen req callbackF callbackParam now).map fun store =>
      { s with store := store }
  | .receive w curr =>
    match s.duty w with
    | .receive => do
      let (received, results) ← receiveFromFd (s.results w)
      match received.message with
      -- the worker connects again or just calls again
      | none => some { s with results := Function.update s.results w results }
      | some message => do
        let call ← passCall (recvPass message s.store.gtsidq curr)
        some { s with
          results := Function.update s.results w results
          duty := Function.update s.duty w (call.duty message) }
    | _ => none
  | .call w =>
    match s.duty w with
    | .call call message => some
      { s with
        duty := Function.update s.duty w call.afterwards
        calls := s.calls ++ [⟨w, call, message⟩] }
    | _ => none
  | .remove w =>
    match s.duty w with
    | .remove tid => some
      { s with
        store := { s.store with gtsidq := remId s.store.gtsidq tid }
        duty := Function.update s.duty w .receive }
    | _ => none
  | .sweep now printable =>
    (listExpiredIdq printable s.store.gtsidq now).map fun swept => { s with store := { s.store with gtsidq := swept } }
  | .queue gmsgq => some { s with store := { s.store with gmsgq := gmsgq } }

/-- What an entry says about its id. -/
def Tsidque.registration (e : Tsidque F P) : Registration F P :=
  ⟨e.isExpired, e.aTime, e.eTime, e.callbackF, e.callbackParam⟩

/-- The calls of `recv` give the frames of the bodies, and no header is cut without a retry. -/
def Brings (results : List RecvResult) (bodies : List XmlBody) : Prop :=
  ∃ messages : List PeerMessage, bodies = messages.map PeerMessage.toXmlBody ∧
    Delivers results ((messages.map PeerMessage.toBody).flatMap fun body => frame body.bytes) ∧
      CutsRetry (InsideHeader (messages.map PeerMessage.toBody)) 0 results

/-- The table stands for the map, the streams for the bodies, and the workers are equally far. -/
structure ReceiveSide.Refines (n : ℕ) (s : ReceiveSide F P) (t : CallbackService F P) : Prop where
  wf : TableWf n s.store.gtsidq
  registered : ∀ id, t.registered id = (entryOf s.store.gtsidq id).map Tsidque.registration
  coming : ∀ w, Brings (s.results w) (t.inbox w)
  duty : t.duty = s.duty
  calls : t.calls = s.calls

/-- The event of the service that a step is. A sweep reads the clock for each position of the table. -/
inductive ReceiveAction.Matches : ReceiveAction n F P → ServiceEvent F P → Prop
  | send (gconnList : List Con) (hlen : getPeers gconnList = n) (req : Request) (callbackF : F) (callbackParam : P)
    (now : Timeval) : Matches (.send gconnList hlen req callbackF callbackParam now)
      (.register req.id.chars callbackF callbackParam now)
  | receive (w : ℕ) (curr : Timeval) : Matches (.receive w curr) (.receive w curr)
  | call (w : ℕ) : Matches (.call w) (.call w)
  | remove (w : ℕ) : Matches (.remove w) (.remove w)
  | sweep (now : ℕ → Timeval) (printable : P → Bool) (now' : List Char → Timeval) :
    Matches (.sweep now printable) (.expire now')
  | queue (gmsgq : MsgList) : Matches (.queue gmsgq) .elsewhere

/-- The id that a step sends. -/
def ReceiveAction.sentId : ReceiveAction n F P → Option (List Char)
  | .send _ _ req _ _ _ => some req.id.chars
  | _ => none

/-- The last call of `sl_send_buf` with the id was given this callback and parameter at this time. -/
def LastSend (acts : List (ReceiveAction n F P)) (id : List Char) (callbackF : F) (callbackParam : P)
    (now : Timeval) : Prop :=
  ∃ before gconnList hlen req after,
    acts = before ++ .send gconnList hlen req callbackF callbackParam now :: after ∧ req.id.chars = id ∧
      ∀ a ∈ after, a.sentId ≠ some id

/-- The worker receives a message. -/
def ReceiveAction.receives (w : ℕ) : ReceiveAction n F P → Bool
  | .receive w' _ => w' == w
  | _ => false

/-- Some worker calls a callback. -/
def ReceiveAction.calls : ReceiveAction n F P → Bool
  | .call _ => true
  | _ => false

/-- The call with this number was made for the message that the worker had received last, and this was the next one of
its peer. If it calls the callback of a response, this is the one of the last `sl_send_buf` of the id in the message,
before the worker received it. -/
def AnswersSend (acts : List (ReceiveAction n F P)) (messages : List PeerMessage) (j : ℕ) (c : MadeCall F P) : Prop :=
  ∃ before curr after rest m, acts = before ++ .receive c.worker curr :: (after ++ .call c.worker :: rest) ∧
    (∀ a ∈ after, a.receives c.worker = false) ∧
    (before ++ .receive c.worker curr :: after).countP ReceiveAction.calls = j ∧
    messages[before.countP (ReceiveAction.receives c.worker)]? = some m ∧ c.message = m.text ∧
      ∀ callbackF isTimeout callbackParam id retcode elapsed,
        c.call = .response callbackF isTimeout callbackParam id retcode elapsed →
          id = m.fields.tid.getD [] ∧ retcode = atoiInt (m.fields.replyCode.getD []) ∧
            ∃ now, LastSend before id callbackF callbackParam now ∧ elapsed = elapsedMsecs now curr

/-- When nothing more comes, no message is received. -/
theorem receiveFromFd_of_delivers_nil {results : List RecvResult} (h : Delivers results []) :
    receiveFromFd results = none := by
  have hheader : readHeader [] results = none := by
    induction results with
    | nil => rfl
    | cons r results ih =>
      cases r with
      | failed errno =>
        obtain ⟨hretry, hrest⟩ := h.of_failed
        rw [readHeader, if_pos hretry]
        exact ih hrest
      | arrived bytes errno =>
        obtain ⟨hne, more, heq, _⟩ := h.of_arrived
        exact absurd (List.append_eq_nil_iff.mp heq.symm).1 hne
  rw [receiveFromFd, hheader]
  rfl

/-- The next body that a stream brings is received whole. -/
theorem Brings.receive {results : List RecvResult} {body : XmlBody} {rest : List XmlBody}
    (h : Brings results (body :: rest)) : '\x00' ∉ body.text ∧ ∃ ret results',
      receiveFromFd results = some (⟨some body.text, ret⟩, results') ∧ Brings results' rest := by
  obtain ⟨messages, hbodies, hdelivers, hcuts⟩ := h
  obtain ⟨m, messages, rfl, rfl, rfl⟩ := List.map_eq_cons_iff.mp hbodies.symm
  rw [List.map_cons, List.flatMap_cons] at hdelivers
  obtain ⟨results', hreceive, hrest, hcut⟩ | ⟨hnot, _⟩ :=
    receiveFromFd_delivers m.toBody (messages.map PeerMessage.toBody) results _ hdelivers
  · exact ⟨m.noNul, _, results', hreceive, messages, rfl, hrest, hcut.mp hcuts⟩
  · -- the header of this body would be cut without a retry
    exact absurd hcuts hnot

/-- A stream that brings no more bodies gives no message. -/
theorem Brings.receive_nil {results : List RecvResult} (h : Brings results []) : receiveFromFd results = none := by
  obtain ⟨messages, hbodies, hdelivers, _⟩ := h
  obtain rfl := List.map_eq_nil_iff.mp hbodies.symm
  exact receiveFromFd_of_delivers_nil hdelivers

/-- The outcome of a body is the call for its fields and what the table holds. -/
theorem Fields.outcome_eq_callFor (fields : Fields) (gtsidq : List (Tsidque F P)) (curr : Timeval) :
    (fields.outcome gtsidq curr).1 = fields.callFor fun tid => lookupIDIdq gtsidq tid curr := by
  have hrespond : (fields.respond gtsidq curr).1 = fields.answerFor fun tid => lookupIDIdq gtsidq tid curr := by
    unfold Fields.respond Fields.answerFor
    dsimp only
    cases lookupIDIdq gtsidq (fields.tid.getD []) curr <;> rfl
  unfold Fields.outcome Fields.callFor
  cases fields.type with
  | none => rfl
  | some type =>
    dsimp only
    split
    · split
      · cases lookupIDIdq gtsidq (fields.tid.getD []) curr <;> rfl
      · exact hrespond
    · split
      · rfl
      · split
        · rfl
        · exact hrespond

/-- A pass over a body ends in the call for its fields. -/
theorem passCall_body (body : XmlBody) (hnul : '\x00' ∉ body.text) (gtsidq : List (Tsidque F P)) (curr : Timeval) :
    passCall (recvPass body.text gtsidq curr) =
      some (body.fields.callFor fun tid => lookupIDIdq gtsidq tid curr) := by
  obtain ⟨d, hd, hcall, _⟩ := body.dispatch gtsidq curr
  rw [passCall_recvPass hnul, hd, Option.map_some, hcall, Fields.outcome_eq_callFor]

section Table

variable {table : List (Tsidque F P)} {s : CallbackService F P}

/-- A lookup in the table finds what the map has. -/
theorem lookupIDIdq_eq_lookup (hwf : TableWf n table)
    (hregistered : ∀ id, s.registered id = (entryOf table id).map Tsidque.registration) (curr : Timeval) :
    (fun tid => lookupIDIdq table tid curr) = s.lookup curr := by
  funext tid
  rw [CallbackService.lookup, hregistered, Option.map_map, lookupIDIdq]
  split
  · next hempty =>
    have hnone : entryOf table tid = none := by
      rw [← Option.not_isSome_iff_eq_none, entryOf_isSome_iff, hempty]
      exact hwf.nonempty
    rw [hnone, Option.map_none]
  · change (entryOf table tid).map _ = _
    refine Option.map_congr fun e he => ?_
    rw [Function.comp_apply, id_of_entryOf he]
    rfl

/-- A sweep marks the registrations whose time has passed, each at its own moment. -/
theorem registration_sweptIdq (table : List (Tsidque F P)) (now : ℕ → Timeval) :
    ∃ now' : List Char → Timeval, ∀ id, (entryOf (sweptIdq table now) id).map Tsidque.registration =
      ((entryOf table id).map Tsidque.registration).map fun r => r.expireAt (now' id) := by
  have hid (id : List Char) : ∃ time : Timeval,
      (entryOf (sweptIdq table now) id).map Tsidque.registration =
        ((entryOf table id).map Tsidque.registration).map fun r => r.expireAt time := by
    cases he : entryOf table id with
    | none =>
      obtain ⟨flag, hflag⟩ := entryOf_sweptIdq table now id
      exact ⟨now 0, by rw [hflag, he]; rfl⟩
    | some e =>
      obtain ⟨i, _, hmark⟩ := entryOf_sweptIdq_markExpired table now id e he
      refine ⟨now i, ?_⟩
      rw [hmark, markExpired_eq]
      rfl
  choose now' hnow' using hid
  exact ⟨now', hnow'⟩

/-- A push registers its id, unless that is empty, and keeps the mark of an id that is registered. -/
theorem registration_pushToMsgq {s s' : Store F P} {gconnList : List Con}
    (hwf : TableWf (getPeers gconnList) s.gtsidq) {tid : List Char} {len : ℤ} {data : Request} {callbackF : F}
    {callbackParam : P} {now : Timeval}
    (hpush : pushToMsgq s gconnList tid len data callbackF callbackParam now = some s') :
    TableWf (getPeers gconnList) s'.gtsidq ∧ ∀ id, (entryOf s'.gtsidq id).map Tsidque.registration =
      if id = tid ∧ tid ≠ [] then some ⟨(entryOf s.gtsidq tid).any Tsidque.isExpired, now, now.addExpiry, callbackF,
        callbackParam⟩
      else (entryOf s.gtsidq id).map Tsidque.registration := by
  have hpushed := entryOf_pushToMsgq hwf hpush
  have hrenewed {e : Tsidque F P} (he : entryOf s'.gtsidq tid = some e) := renewed_of_pushToMsgq hwf hpush he
  rcases pushToMsgq_eq_some hpush with ⟨htid, rfl⟩ | ⟨htid, routed, linked, hrouted, _, rfl⟩
  · exact ⟨hwf, fun id => by rw [if_neg fun h => h.2 htid]⟩
  · have hroutes := routes_of_routeId hwf s.glastConRr tid htid callbackF callbackParam now routed hrouted
    refine ⟨hroutes.wf, fun id => ?_⟩
    by_cases hid : id = tid
    · obtain ⟨e, he, _⟩ := hroutes.entry
      obtain ⟨_, _, hflag⟩ | ⟨hne, _⟩ := hpushed tid e he
      · obtain ⟨old, rfl⟩ := hrenewed he
        rw [hid, if_pos ⟨rfl, htid⟩, he, Option.map_some, Tsidque.registration, hflag]
        rfl
      · exact absurd rfl hne
    · rw [if_neg fun h => hid h.1, hroutes.others id hid]

end Table

section Steps

variable {s s' : ReceiveSide F P} {t : CallbackService F P}

/-- A request registers its id. -/
theorem ReceiveSide.Refines.send (hs : s.Refines n t) {gconnList : List Con} {hlen : getPeers gconnList = n}
    {req : Request} {callbackF : F} {callbackParam : P} {now : Timeval}
    (hstep : receiveStep s (.send gconnList hlen req callbackF callbackParam now) = some s') :
    ∃ t', serviceStep t (.register req.id.chars callbackF callbackParam now) = some t' ∧ s'.Refines n t' := by
  obtain ⟨store, hpush, rfl⟩ := Option.map_eq_some_iff.mp hstep
  obtain ⟨hwf, hregistered⟩ := registration_pushToMsgq (hlen ▸ hs.wf) hpush
  refine ⟨_, rfl, hlen ▸ hwf, fun id => ?_, hs.coming, hs.duty, hs.calls⟩
  rw [hregistered id, ← hs.registered id]
  by_cases htid : req.id.chars = []
  · rw [if_pos htid, if_neg fun h => h.2 htid]
  · rw [if_neg htid, hs.registered req.id.chars, Option.any_map]
    dsimp only
    rw [Function.update_apply]
    exact if_congr (and_iff_left htid).symm rfl rfl

/-- A message that arrives is the next body, and both sides make the same of it. -/
theorem ReceiveSide.Refines.receive (hs : s.Refines n t) (w : ℕ) (curr : Timeval) :
    Option.Rel (ReceiveSide.Refines n) (receiveStep s (.receive w curr : ReceiveAction n F P))
      (serviceStep t (.receive w curr)) := by
  cases hduty : s.duty w with
  | call call message | remove tid =>
    rw [receiveStep, serviceStep, hs.duty, hduty]
    exact .none
  | receive =>
    have hcoming := hs.coming w
    cases hinbox : t.inbox w with
    | nil =>
      rw [hinbox] at hcoming
      rw [receiveStep, serviceStep, hs.duty, hduty, hinbox, hcoming.receive_nil]
      exact .none
    | cons body rest =>
      rw [hinbox] at hcoming
      obtain ⟨hnul, ret, results, hreceive, hrest⟩ := hcoming.receive
      rw [receiveStep, serviceStep, hs.duty, hduty, hinbox, hreceive]
      simp only [Option.bind_eq_bind, Option.bind_some, passCall_body body hnul,
        lookupIDIdq_eq_lookup hs.wf hs.registered]
      refine .some ⟨hs.wf, hs.registered, fun w' => ?_, rfl, hs.calls⟩
      dsimp only
      by_cases hw : w' = w
      · rw [hw, Function.update_self, Function.update_self]
        exact hrest
      · rw [Function.update_of_ne hw, Function.update_of_ne hw]
        exact hs.coming w'

/-- A worker calls what it calls in the service. -/
theorem ReceiveSide.Refines.call (hs : s.Refines n t) (w : ℕ) :
    Option.Rel (ReceiveSide.Refines n) (receiveStep s (.call w : ReceiveAction n F P)) (serviceStep t (.call w)) := by
  rw [receiveStep, serviceStep, hs.duty]
  cases s.duty w with
  | receive | remove tid => exact .none
  | call call message =>
    exact .some ⟨hs.wf, hs.registered, hs.coming, rfl, by dsimp only; rw [hs.calls]⟩

/-- A worker that removes the id ends its registration. -/
theorem ReceiveSide.Refines.remove (hs : s.Refines n t) (w : ℕ) :
    Option.Rel (ReceiveSide.Refines n) (receiveStep s (.remove w : ReceiveAction n F P))
      (serviceStep t (.remove w)) := by
  rw [receiveStep, serviceStep, hs.duty]
  cases s.duty w with
  | receive | call call message => exact .none
  | remove tid =>
    refine .some ⟨hs.wf.remId tid, fun id => ?_, hs.coming, rfl, hs.calls⟩
    dsimp only
    rw [entryOf_remId _ _ _ hs.wf.distinct, Function.update_apply]
    split
    · rfl
    · exact hs.registered id

/-- Every step is an event of the service. -/
theorem receiveStep_matched (s : ReceiveSide F P) (t : CallbackService F P) (a : ReceiveAction n F P)
    (next : ReceiveSide F P) (hs : s.Refines n t) (hstep : receiveStep s a = some next) :
    ∃ e next', a.Matches e ∧ serviceStep t e = some next' ∧ next.Refines n next' := by
  have hworker {b : ReceiveAction n F P} {e : ServiceEvent F P} (hmatch : b.Matches e)
      (hrel : Option.Rel (ReceiveSide.Refines n) (receiveStep s b) (serviceStep t e))
      (hstep : receiveStep s b = some next) :
      ∃ e next', b.Matches e ∧ serviceStep t e = some next' ∧ next.Refines n next' := by
    rw [hstep] at hrel
    cases hnext : serviceStep t e with
    | none =>
      rw [hnext] at hrel
      cases hrel
    | some next' =>
      rw [hnext] at hrel
      cases hrel with
      | some h => exact ⟨e, next', hmatch, hnext, h⟩
  cases a with
  | send gconnList hlen req callbackF callbackParam now =>
    obtain ⟨next', hnext, hrel⟩ := hs.send hstep
    exact ⟨_, next', .send gconnList hlen req callbackF callbackParam now, hnext, hrel⟩
  | receive w curr => exact hworker (.receive w curr) (hs.receive w curr) hstep
  | call w => exact hworker (.call w) (hs.call w) hstep
  | remove w => exact hworker (.remove w) (hs.remove w) hstep
  | sweep now printable =>
    obtain ⟨_, hswept, rfl⟩ := Option.map_eq_some_iff.mp hstep
    obtain ⟨_, rfl⟩ := (listExpiredIdq_eq_some_iff printable _ _ now).mp hswept
    obtain ⟨now', hnow'⟩ := registration_sweptIdq s.store.gtsidq now
    refine ⟨_, _, .sweep now printable now', rfl, hs.wf.sweptIdq now, fun id => ?_, hs.coming, hs.duty, hs.calls⟩
    rw [hnow' id, ← hs.registered id]
  | queue gmsgq =>
    cases hstep
    exact ⟨_, t, .queue gmsgq, rfl, hs.wf, hs.registered, hs.coming, hs.duty, hs.calls⟩

end Steps

section Origin

variable {acts : List (ReceiveAction n F P)} {events : List (ServiceEvent F P)}

/-- The last registration of an id is the last call with it. -/
theorem RegisteredLast.lastSend {id : List Char} {callbackF : F} {callbackParam : P} {now : Timeval}
    (hs : RegisteredLast events id callbackF callbackParam now)
    (hmatches : List.Forall₂ ReceiveAction.Matches acts events) : LastSend acts id callbackF callbackParam now := by
  obtain ⟨before, after, rfl, hlast⟩ := hs
  obtain ⟨before', a, after', rfl, _, ha, hafter⟩ := forall₂_split hmatches
  cases ha with
  | send gconnList hlen req =>
    refine ⟨before', gconnList, hlen, req, after', rfl, rfl, ?_⟩
    refine forall_of_forall₂ (fun b e hb he => ?_) hafter hlast
    cases hb with
    | send => exact he
    | receive | call | remove | sweep | queue => exact nofun

/-- What answers a message in the service answers a request. -/
theorem AnswersMessage.answersSend {messages : List PeerMessage} {j : ℕ} {c : MadeCall F P}
    (hs : AnswersMessage events (messages.map PeerMessage.toXmlBody) j c)
    (hmatches : List.Forall₂ ReceiveAction.Matches acts events) : AnswersSend acts messages j c := by
  have htakes (a : ReceiveAction n F P) (e : ServiceEvent F P) (h : a.Matches e) :
      a.receives c.worker = e.takes c.worker := by
    cases h <;> rfl
  have hcalls (a : ReceiveAction n F P) (e : ServiceEvent F P) (h : a.Matches e) : a.calls = e.calls := by
    cases h <;> rfl
  obtain ⟨done, rest, rfl, hcount, before, curr, after, body, rfl, hafter, hnext, htext, hresponse⟩ := hs
  obtain ⟨done', a, rest', rfl, hdone, ha, _⟩ := forall₂_split hmatches
  cases ha with
  | call =>
    obtain ⟨before', a, after', rfl, hbefore, ha, hafter'⟩ := forall₂_split hdone
    cases ha with
    | receive =>
      rw [← countP_of_forall₂ hcalls hdone] at hcount
      rw [← countP_of_forall₂ htakes hbefore, List.getElem?_map] at hnext
      obtain ⟨m, hm, rfl⟩ := Option.map_eq_some_iff.mp hnext
      refine ⟨before', curr, after', rest', m, by simp, ?_, hcount, hm, htext,
        fun callbackF isTimeout callbackParam id retcode elapsed hcall => ?_⟩
      · exact forall_of_forall₂ (fun b e hb he => (htakes b e hb).trans he) hafter' hafter
      · obtain ⟨hid, hretcode, now, hlast, helapsed⟩ := hresponse _ _ _ _ _ _ hcall
        exact ⟨hid, hretcode, now, hlast.lastSend hbefore, helapsed⟩

end Origin

section Runs

variable (messages : ℕ → List PeerMessage) (delivery : ∀ w, Delivery ((messages w).map PeerMessage.toBody))

/-- At the start both have done nothing. -/
theorem ReceiveSide.start_refines
    (hcuts : ∀ w, CutsRetry (InsideHeader ((messages w).map PeerMessage.toBody)) 0 (delivery w).results) :
    (ReceiveSide.start fun w => (delivery w).results : ReceiveSide F P).Refines n
      (.start fun w => (messages w).map PeerMessage.toXmlBody) where
  wf := tableWf_nil n
  registered _ := rfl
  coming w := ⟨messages w, rfl, (delivery w).delivers, hcuts w⟩
  duty := rfl
  calls := rfl

/-- Every run of the receive workers, the clients and the queue manager on streams of well-formed bodies in which no
header is cut without a retry is a run of the service. It leads to the same registrations and the same calls, and the
workers can go on exactly as they can there. -/
theorem receiveSide_refines
    (hcuts : ∀ w, CutsRetry (InsideHeader ((messages w).map PeerMessage.toBody)) 0 (delivery w).results)
    {acts : List (ReceiveAction n F P)} {s : ReceiveSide F P}
    (hrun : runActions receiveStep (.start fun w => (delivery w).results) acts = some s) :
    ∃ events t, List.Forall₂ ReceiveAction.Matches acts events ∧
      runActions serviceStep (.start fun w => (messages w).map PeerMessage.toXmlBody) events = some t ∧
        s.Refines n t ∧ ∀ w curr,
          (receiveStep s (.receive w curr : ReceiveAction n F P)).isSome = (serviceStep t (.receive w curr)).isSome ∧
          (receiveStep s (.call w : ReceiveAction n F P)).isSome = (serviceStep t (.call w)).isSome ∧
          (receiveStep s (.remove w : ReceiveAction n F P)).isSome = (serviceStep t (.remove w)).isSome := by
  obtain ⟨events, t, hmatches, hrun', hs⟩ := exists_matching_run receiveStep serviceStep ReceiveAction.Matches
    (ReceiveSide.Refines n) receiveStep_matched (ReceiveSide.start_refines messages delivery hcuts) hrun
  have hsame {o : Option (ReceiveSide F P)} {o' : Option (CallbackService F P)}
      (h : Option.Rel (ReceiveSide.Refines n) o o') : o.isSome = o'.isSome := by
    cases h <;> rfl
  exact ⟨events, t, hmatches, hrun', hs, fun w curr => ⟨hsame (hs.receive w curr), hsame (hs.call w),
    hsame (hs.remove w)⟩⟩

/-- In every such run each worker calls at most once for each message of its peer, in their order, and every callback of
a response is the one given with the last `sl_send_buf` of the id in the message before that was received, with the
parameter of that call. -/
theorem calls_answerSends
    (hcuts : ∀ w, CutsRetry (InsideHeader ((messages w).map PeerMessage.toBody)) 0 (delivery w).results)
    {acts : List (ReceiveAction n F P)} {s : ReceiveSide F P}
    (hrun : runActions receiveStep (.start fun w => (delivery w).results) acts = some s) :
    (∀ w, (textsOf w s.calls (s.duty w)).Sublist ((messages w).map fun m => m.text)) ∧
      ∀ (j : ℕ) c, s.calls[j]? = some c → AnswersSend acts (messages c.worker) j c := by
  obtain ⟨events, t, hmatches, hrun', hs⟩ := exists_matching_run receiveStep serviceStep ReceiveAction.Matches
    (ReceiveSide.Refines n) receiveStep_matched (ReceiveSide.start_refines messages delivery hcuts) hrun
  have htraced := traced_of_run hrun'
  refine ⟨fun w => ?_, fun j c hc => (htraced.made j c (hs.calls ▸ hc)).answersSend hmatches⟩
  have htexts := htraced.ordered w
  rw [hs.calls, hs.duty, ← List.map_take, List.map_map] at htexts
  exact htexts.trans ((List.take_sublist _ _).map _)

end Runs

/-- The elements of a response to the id `r`. -/
def responseElements : List Element :=
  [⟨typeName, ['2'], by decide⟩, ⟨replyCodeName, ['0'], by decide⟩, ⟨tidName, ['r'], by decide⟩]

/-- No field is there twice. -/
theorem responseElements_once :
    ((responseElements.map fun e => e.name.chars).filter fun name => name ∈ fieldNames).Nodup := by
  decide

/-- A response to the id `r`. -/
def eventResponse : PeerMessage where
  event := true
  elements := responseElements
  nonempty := by decide
  once := responseElements_once
  tidFits := by decide
  noEvent := by decide
  inside := by decide
  pos := by decide
  le := by decide
  noNul := by decide

/-- Its frame, cut inside the header, with `errno` as a call that would block has left it. -/
def retriedResponse : Delivery [eventResponse.toBody] where
  results := [.arrived ['0', '0'] .eagain, .arrived (['6', '7'] ++ eventResponse.text) .eagain]
  delivers := ⟨by simp [RecvResult.Ordinary], by decide⟩

/-- The id is sent, and the worker handles the response to it. -/
def sentAndAnswered : List (ReceiveAction 1 Bool Unit) :=
  [.send [⟨11, 1, 0⟩] rfl ⟨some ['x', '\x00'], 1, 0, 0, oneCharId 'r'⟩ true () ⟨0, 0⟩, .receive 0 ⟨1, 0⟩, .call 0,
    .remove 0]

/-- The service can do the same. -/
theorem sentAndAnswered_refines : ∃ s events t,
    runActions receiveStep (.start fun _ => retriedResponse.results) sentAndAnswered = some s ∧
      List.Forall₂ ReceiveAction.Matches sentAndAnswered events ∧
        runActions serviceStep (.start fun _ => [eventResponse.toXmlBody]) events = some t ∧ s.Refines 1 t := by
  obtain ⟨s, hrun⟩ : ∃ s, runActions receiveStep (.start fun _ => retriedResponse.results) sentAndAnswered = some s :=
    ⟨_, rfl⟩
  obtain ⟨events, t, hmatches, hrun', hs, _⟩ := receiveSide_refines (fun _ => [eventResponse]) (fun _ => retriedResponse)
    (fun _ => ⟨fun _ => rfl, fun _ => rfl, trivial⟩) hrun
  exact ⟨s, events, t, hrun, hmatches, hrun', hs⟩

/-- The callback is called for the request. -/
theorem sentAndAnswered_answered : ∃ s,
    runActions receiveStep (.start fun _ => retriedResponse.results) sentAndAnswered = some s ∧ s.calls.length = 1 ∧
      ∀ (j : ℕ) c, s.calls[j]? = some c → AnswersSend sentAndAnswered [eventResponse] j c := by
  obtain ⟨s, hrun, hone⟩ : ∃ s, runActions receiveStep (.start fun _ => retriedResponse.results) sentAndAnswered =
      some s ∧ s.calls.length = 1 := ⟨_, rfl, rfl⟩
  exact ⟨s, hrun, hone, (calls_answerSends (fun _ => [eventResponse]) (fun _ => retriedResponse)
    (fun _ => ⟨fun _ => rfl, fun _ => rfl, trivial⟩) hrun).2⟩

end TcpClb
