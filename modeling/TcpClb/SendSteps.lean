import TcpClb.Common.Runs
import TcpClb.Framing
import TcpClb.ReadyToSend
import TcpClb.SendCalls

/-!
# Threads that are not interrupted

`ready_to_send`, `send_to_fd` and what `send_worker_thread` does with a message are functions where a result is about
one call, and sequences of steps in the system of threads. A thread that no other one interrupts takes the steps of the
function with the same results, and leaves what the function says.
-/

namespace TcpClb

open TcpClb.Common

variable {F P : Type}

/-- What `send_worker_thread` does once it has seen that the queue is not empty and its connection up, without other
threads: the queue after it, the message that it has sent with the bytes accepted of it, if there is one for the peer,
and the results that are left. -/
def sendMessage (q : MsgList) (peerId : ℤ) (results : List SendResult) :
    Option (MsgList × Option (Msgque × List Char) × List SendResult) :=
  (popFromMsgq q peerId).bind fun popped =>
    match popped.2 with
    | none => some (popped.1, none, results)
    | some node => (popped.1.heap.get node).bind fun cell =>
      (sendNode cell.val results).bind fun sent =>
      (popped.1.freeNode node).map fun q => (q, some (cell.val, sent.1), sent.2)

/-- A client that no other thread interrupts leaves what `ready_to_send` computes. -/
def System.RunsReadyToSend (s : System F P) : Prop :=
  ∀ (k : ℕ) (req : Request) (callbackF : F) (callbackParam : P) (now : Timeval) (store : Store F P) (rc : ℤ),
    s.pending k = false →
      readyToSend s.shared.store s.shared.gconnList req callbackF callbackParam now = some (store, rc) →
        ∃ woken s', runActions sysStep s [.append k req callbackF callbackParam now, .signal k woken] = some s' ∧
          s'.shared.store = store ∧ s'.pending k = false

/-- What `send` returns in a step, if the step is a call of it. -/
def SendAction.result : SendAction → Option SendResult
  | .send r => some r
  | _ => none

/-- Where a worker stands after one call of `send`. -/
def afterCall (part : Part) (x : Transfer) (fd : ℤ) : Option (List Char) → SendPc
  | none => .failed part x
  | some left => sendingOrNext part x fd left

/-- The same message, with these bytes more accepted of it. -/
structure Transfer.Continues (x x' : Transfer) (bytes : List Char) : Prop where
  node : x'.node = x.node
  msg : x'.msg = x.msg
  accepted : x'.accepted = x.accepted ++ bytes

/-- Since a state the worker has touched neither what `qtex` protects nor the messages that it has freed. -/
structure System.OnlyWrites (s : System F P) (i : ℕ) (s' : System F P) : Prop where
  store : s'.shared.store = s.shared.store
  finished : (s'.send i).finished = (s.send i).finished

/-- A send worker that no other thread interrupts, with its connection up and a queue that is not empty, gets the
results of `send` in order and leaves what `sendMessage` computes; what it has freed is the message with the bytes
accepted of it. -/
def System.RunsSendMessage (s : System F P) : Prop :=
  ∀ (i : ℕ) (c : Con) (results left : List SendResult) (q : MsgList) (sent : Option (Msgque × List Char)),
    s.shared.gconnList[i]? = some c → c.state = 1 → (s.send i).pc = .test → s.shared.store.gmsgq.head ≠ none →
      sendMessage s.shared.store.gmsgq c.peerId results = some (q, sent, left) →
        ∃ (acts : List SendAction) (s' : System F P) (freed : Option Transfer),
          acts.filterMap SendAction.result ++ left = results ∧
            runActions sysStep s (acts.map (Action.send i)) = some s' ∧
            s'.shared.store = { s.shared.store with gmsgq := q } ∧ (s'.send i).pc = .test ∧
              (s'.send i).finished = (s.send i).finished ++ freed.toList ∧
                sent = freed.map fun x => (x.msg, x.accepted)

/-- What `send_to_fd` has accepted when it returns is what its loop over `total_sent` has, and it fails exactly if that
returns -1. -/
def LoopsSendToFd : Prop :=
  ∀ (buf bytes : List Char) (len : ℕ) (results left : List SendResult) (failed : Bool),
    sendToFd buf len results = some (bytes, failed, left) →
      movedBy (sendRounds buf len results).calls = bytes ∧ (sendRounds buf len results).ret ≠ none ∧
        ((sendRounds buf len results).ret = some (-1) ↔ failed = true)

/-- Bytes are accepted one after the other. -/
theorem Transfer.Continues.trans {x x' x'' : Transfer} {bytes more : List Char} (h : x.Continues x' bytes)
    (h' : x'.Continues x'' more) : x.Continues x'' (bytes ++ more) :=
  ⟨h'.node.trans h.node, h'.msg.trans h.msg, by rw [h'.accepted, h.accepted, List.append_assoc]⟩

/-- Neither does it touch them later. -/
theorem System.OnlyWrites.trans {s s' s'' : System F P} {i : ℕ} (h : s.OnlyWrites i s') (h' : s'.OnlyWrites i s'') :
    s.OnlyWrites i s'' :=
  ⟨h'.store.trans h.store, h'.finished.trans h.finished⟩

/-- A step of the worker is a step of the system. -/
theorem sysStep_of_sendStep {s : System F P} {i : ℕ} {c : Con} (hentry : s.shared.gconnList[i]? = some c)
    {a : SendAction} {shared : Shared F P} {w : SendWorker}
    (h : sendStep s.shared i c (s.send i) a = some (shared, w)) :
    ∃ s', sysStep s (.send i a) = some s' ∧ s'.shared = shared ∧ s'.send i = w := by
  refine ⟨{ s with shared := shared, send := Function.update s.send i w }, ?_, rfl, Function.update_self ..⟩
  rw [sysStep, hentry, Option.bind_some, h]
  rfl

section Message

variable {s : System F P} {i : ℕ} {c : Con}

/-- One call of `send` is one round of the loop. -/
theorem sysStep_call (hentry : s.shared.gconnList[i]? = some c) {part : Part} {x : Transfer} {fd : ℤ}
    {rest : List Char} (hpc : (s.send i).pc = .sending part x fd rest) (r : SendResult) :
    ∃ s' x', sysStep s (.send i (.send r)) = some s' ∧ s'.shared.gconnList = s.shared.gconnList ∧
      s.OnlyWrites i s' ∧ x.Continues x' (r.accepted rest) ∧
        (s'.send i).pc = afterCall part x' fd (sendOnce rest r) := by
  let call : SendCall := ⟨s.shared.kernel.connection fd, rest, r⟩
  have hworker : sendStep s.shared i c (s.send i) (.send r) = some (s.shared.record i (.wrote call c.fd),
      { s.send i with pc := afterCall part (x.record call) fd (sendOnce rest r) }) := by
    simp only [sendStep, hpc]
    cases sendOnce rest r <;> rfl
  obtain ⟨s', hstep, hshared, hsend⟩ := sysStep_of_sendStep hentry hworker
  exact ⟨s', x.record call, hstep, by rw [hshared]; rfl, ⟨by rw [hshared]; rfl, by rw [hsend]⟩,
    ⟨rfl, rfl, x.accepted_record call⟩, by rw [hsend]⟩

/-- The calls of a worker in `send_to_fd` are the rounds of the loop. -/
theorem sendLoop_run (hentry : s.shared.gconnList[i]? = some c) {part : Part} {x : Transfer} {fd : ℤ}
    {rest bytes : List Char} {results left : List SendResult} {failed : Bool}
    (hloop : sendLoop rest results = some (bytes, failed, left))
    (hpc : (s.send i).pc = sendingOrNext part x fd rest) :
    ∃ (acts : List SendAction) (s' : System F P) (x' : Transfer),
      acts.filterMap SendAction.result ++ left = results ∧ runActions sysStep s (acts.map (Action.send i)) = some s' ∧
        s'.shared.gconnList = s.shared.gconnList ∧ s.OnlyWrites i s' ∧ x.Continues x' bytes ∧
          (s'.send i).pc = if failed then .failed part x' else part.next x' := by
  -- when nothing is left to send, the worker already stands behind the loop
  have hdone {results : List SendResult} {s : System F P} {x : Transfer}
      (hpc : (s.send i).pc = sendingOrNext part x fd []) :
      ∃ (acts : List SendAction) (s' : System F P) (x' : Transfer),
        acts.filterMap SendAction.result ++ results = results ∧
          runActions sysStep s (acts.map (Action.send i)) = some s' ∧
            s'.shared.gconnList = s.shared.gconnList ∧ s.OnlyWrites i s' ∧ x.Continues x' [] ∧
              (s'.send i).pc = part.next x' :=
    ⟨[], s, x, rfl, rfl, rfl, ⟨rfl, rfl⟩, ⟨rfl, rfl, (List.append_nil _).symm⟩, hpc⟩
  induction results generalizing s x rest bytes with
  | nil =>
    cases rest with
    | nil =>
      cases hloop
      exact hdone hpc
    | cons b rest => cases hloop
  | cons r results ih =>
    cases rest with
    | nil =>
      cases hloop
      exact hdone hpc
    | cons b rest =>
      obtain ⟨s₁, x₁, hcall, hentries, hwrites, hcontinues, hpc₁⟩ := sysStep_call hentry hpc r
      unfold sendLoop at hloop
      cases honce : sendOnce (b :: rest) r with
      | none =>
        simp only [honce] at hloop hpc₁
        cases hloop
        refine ⟨[.send r], s₁, x₁, rfl, ?_, hentries, hwrites, ?_, hpc₁⟩
        · rw [List.map_singleton, runActions, hcall]
          rfl
        · rwa [(sendOnce_eq_none honce).2] at hcontinues
      | some more =>
        simp only [honce] at hloop hpc₁
        obtain ⟨⟨sent, failed', left'⟩, hsent, h⟩ := Option.map_eq_some_iff.mp hloop
        cases h
        obtain ⟨acts, s₂, x₂, hresults, hrun, hentries', hwrites', hcontinues', hpc₂⟩ :=
          ih (hentries ▸ hentry) hsent hpc₁
        refine ⟨.send r :: acts, s₂, x₂, congrArg (r :: ·) hresults, ?_, hentries'.trans hentries,
          hwrites.trans hwrites', hcontinues.trans hcontinues', hpc₂⟩
        rw [List.map_cons, runActions, hcall, Option.bind_some]
        exact hrun

/-- A worker enters `send_to_fd` with the text of a part. -/
theorem sysStep_start (hentry : s.shared.gconnList[i]? = some c) {part : Part} {x : Transfer} {text : List Char}
    (htext : part.text x.msg = some text) (hpc : (s.send i).pc = .start part x) :
    ∃ s', sysStep s (.send i .start) = some s' ∧ s'.shared.gconnList = s.shared.gconnList ∧ s.OnlyWrites i s' ∧
      (s'.send i).pc = sendingOrNext part x c.fd text := by
  have hworker : sendStep s.shared i c (s.send i) .start =
      some (s.shared, { s.send i with pc := sendingOrNext part x c.fd text }) := by
    simp only [sendStep, hpc, htext, Option.map_some]
  obtain ⟨s', hstep, hshared, hsend⟩ := sysStep_of_sendStep hentry hworker
  exact ⟨s', hstep, by rw [hshared], ⟨by rw [hshared], by rw [hsend]⟩, by rw [hsend]⟩

/-- After a failure it goes on with what follows the part. -/
theorem sysStep_failed (hentry : s.shared.gconnList[i]? = some c) {part : Part} {x : Transfer}
    (hpc : (s.send i).pc = .failed part x) :
    ∃ s', sysStep s (.send i .failed) = some s' ∧ s'.shared.gconnList[i]? = some { c with state := 0 } ∧
      s.OnlyWrites i s' ∧ (s'.send i).pc = part.next x := by
  have hworker : sendStep s.shared i c (s.send i) .failed =
      some (s.shared.clear i, { s.send i with pc := part.next x }) := by
    simp only [sendStep, hpc]
  obtain ⟨s', hstep, hshared, hsend⟩ := sysStep_of_sendStep hentry hworker
  refine ⟨s', hstep, ?_, ⟨by rw [hshared]; rfl, by rw [hsend]⟩, by rw [hsend]⟩
  rw [hshared]
  change (setState s.shared.gconnList i 0)[i]? = _
  rw [setState, List.getElem?_modify_eq, hentry]
  rfl

/-- A worker that is not interrupted writes a part of a message as `send_to_fd` does, and goes on to
what follows it. -/
theorem sendPart_run (hentry : s.shared.gconnList[i]? = some c) {part : Part} {x : Transfer} {text bytes : List Char}
    {results left : List SendResult} {failed : Bool} (htext : part.text x.msg = some text)
    (hloop : sendLoop text results = some (bytes, failed, left)) (hpc : (s.send i).pc = .start part x) :
    ∃ (acts : List SendAction) (s' : System F P) (x' : Transfer),
      acts.filterMap SendAction.result ++ left = results ∧ runActions sysStep s (acts.map (Action.send i)) = some s' ∧
        (∃ c', s'.shared.gconnList[i]? = some c') ∧ s.OnlyWrites i s' ∧ x.Continues x' bytes ∧
          (s'.send i).pc = part.next x' := by
  obtain ⟨s₁, hstart, hentries, hwrites, hpc₁⟩ := sysStep_start hentry htext hpc
  obtain ⟨acts, s₂, x', hresults, hrun, hentries', hwrites', hcontinues, hpc₂⟩ :=
    sendLoop_run (hentries ▸ hentry) hloop hpc₁
  have hentry₂ : s₂.shared.gconnList[i]? = some c := by rw [hentries', hentries, hentry]
  cases failed with
  | false =>
    refine ⟨.start :: acts, s₂, x', hresults, ?_, ⟨c, hentry₂⟩, hwrites.trans hwrites', hcontinues, hpc₂⟩
    rw [List.map_cons, runActions, hstart, Option.bind_some]
    exact hrun
  | true =>
    obtain ⟨s₃, hfailed, hentry₃, hwrites'', hpc₃⟩ := sysStep_failed hentry₂ hpc₂
    refine ⟨.start :: (acts ++ [.failed]), s₃, x', ?_, ?_, ⟨_, hentry₃⟩, (hwrites.trans hwrites').trans hwrites'',
      hcontinues, hpc₃⟩
    · change (acts ++ [SendAction.failed]).filterMap SendAction.result ++ left = results
      rw [List.filterMap_append]
      exact (congrArg (· ++ left) (List.append_nil _)).trans hresults
    · rw [List.map_cons, runActions, hstart, Option.bind_some, List.map_append, List.map_singleton]
      exact runActions_snoc sysStep s₁ _ s₃ _ _ hrun hfailed

/-- A worker that is not interrupted writes a message as the framing of messages says. -/
theorem sendNode_run (hentry : s.shared.gconnList[i]? = some c) {x : Transfer} {bytes : List Char}
    {results left : List SendResult} (hnode : sendNode x.msg results = some (bytes, left))
    (hpc : (s.send i).pc = .start .header x) :
    ∃ (acts : List SendAction) (s' : System F P) (x' : Transfer),
      acts.filterMap SendAction.result ++ left = results ∧ runActions sysStep s (acts.map (Action.send i)) = some s' ∧
        (∃ c', s'.shared.gconnList[i]? = some c') ∧ s.OnlyWrites i s' ∧ x.Continues x' bytes ∧
          (s'.send i).pc = .free x' := by
  obtain ⟨hfits, hnode⟩ := Option.ite_none_right_eq_some.mp hnode
  obtain ⟨⟨header, failed, middle⟩, hheader, hnode⟩ := Option.bind_eq_some_iff.mp hnode
  obtain ⟨hprint, hnode⟩ := Option.ite_none_right_eq_some.mp hnode
  obtain ⟨⟨body, failed', left'⟩, hbody, hnode⟩ := Option.bind_eq_some_iff.mp hnode
  cases hnode
  rw [sendToFd_length] at hheader
  have hheadertext : Part.header.text x.msg = some (lengthHeader x.msg.len) := if_pos hfits
  obtain ⟨acts, s₁, x₁, hresults, hrun, ⟨c₁, hentry₁⟩, hwrites, hcontinues, hpc₁⟩ :=
    sendPart_run hentry hheadertext hheader hpc
  obtain ⟨hlen, hloop⟩ := Option.ite_none_right_eq_some.mp hbody
  have hbodytext : Part.body.text x₁.msg = some (x.msg.data.readable.take x.msg.len.toNat) := by
    rw [hcontinues.msg]
    exact if_pos ⟨hprint, hlen⟩
  obtain ⟨acts', s₂, x₂, hresults', hrun', hentry₂, hwrites', hcontinues', hpc₂⟩ :=
    sendPart_run hentry₁ hbodytext hloop hpc₁
  refine ⟨acts ++ acts', s₂, x₂, ?_, ?_, hentry₂, hwrites.trans hwrites', hcontinues.trans hcontinues', hpc₂⟩
  · rw [List.filterMap_append, List.append_assoc, hresults', hresults]
  · rw [List.map_append, runActions_append, hrun, Option.bind_some, hrun']

end Message

section Turn

variable {s : System F P} {i : ℕ} {c : Con}

/-- A worker that finds a message to send goes to `pop_from_msgq`. -/
theorem toPop_run (hentry : s.shared.gconnList[i]? = some c) (hup : c.state = 1) (hpc : (s.send i).pc = .test)
    (hqueue : s.shared.store.gmsgq.head ≠ none) :
    ∃ s', runActions sysStep s [.send i .test, .send i .checkState] = some s' ∧ s'.shared = s.shared ∧
      s'.send i = { s.send i with pc := .pop } := by
  have htest : sendStep s.shared i c (s.send i) .test = some (s.shared, { s.send i with pc := .checkState }) := by
    simp only [sendStep, hpc, if_true, if_neg hqueue]
  obtain ⟨s₁, htest, hshared, hsend⟩ := sysStep_of_sendStep hentry htest
  have hcheck : sendStep s₁.shared i c (s₁.send i) .checkState = some (s.shared, { s.send i with pc := .pop }) := by
    simp only [sendStep, hsend, hshared, if_true, if_pos hup]
  obtain ⟨s₂, hcheck, hshared', hsend'⟩ := sysStep_of_sendStep (by rw [hshared, hentry]) hcheck
  refine ⟨s₂, ?_, hshared', hsend'⟩
  rw [runActions, htest, Option.bind_some, runActions, hcheck]
  rfl

/-- A worker that is not interrupted takes the next message of its peer from the queue, writes and frees it as
`sendMessage` says. -/
theorem sendMessage_run (hentry : s.shared.gconnList[i]? = some c) (hup : c.state = 1) (hpc : (s.send i).pc = .test)
    (hqueue : s.shared.store.gmsgq.head ≠ none) {results left : List SendResult} {q : MsgList}
    {sent : Option (Msgque × List Char)} (h : sendMessage s.shared.store.gmsgq c.peerId results = some (q, sent, left)) :
    ∃ (acts : List SendAction) (s' : System F P) (freed : Option Transfer),
      acts.filterMap SendAction.result ++ left = results ∧ runActions sysStep s (acts.map (Action.send i)) = some s' ∧
        s'.shared.store = { s.shared.store with gmsgq := q } ∧ (s'.send i).pc = .test ∧
          (s'.send i).finished = (s.send i).finished ++ freed.toList ∧
            sent = freed.map fun x => (x.msg, x.accepted) := by
  obtain ⟨s₁, htopop, hshared, hsend⟩ := toPop_run hentry hup hpc hqueue
  obtain ⟨⟨popped, node⟩, hpop, h⟩ := Option.bind_eq_some_iff.mp h
  cases node with
  | none =>
    cases h
    have hworker : sendStep s₁.shared i c (s₁.send i) .pop =
        some ({ s.shared with store := { s.shared.store with gmsgq := popped } }, { s.send i with pc := .test }) := by
      simp only [sendStep, hsend, if_true, hshared, hpop]
    obtain ⟨s₂, hstep, hshared', hsend'⟩ := sysStep_of_sendStep (by rw [hshared, hentry]) hworker
    refine ⟨[.test, .checkState, .pop], s₂, none, rfl, ?_, by rw [hshared'], by rw [hsend'], ?_, rfl⟩
    · exact runActions_snoc sysStep s _ s₂ _ _ htopop hstep
    · rw [hsend']
      exact (List.append_nil _).symm
  | some node =>
    obtain ⟨cell, hcell, h⟩ := Option.bind_eq_some_iff.mp h
    obtain ⟨⟨bytes, left'⟩, hnode, h⟩ := Option.bind_eq_some_iff.mp h
    obtain ⟨q, hfree, h⟩ := Option.map_eq_some_iff.mp h
    cases h
    have hworker : sendStep s₁.shared i c (s₁.send i) .pop =
        some ({ s.shared with store := { s.shared.store with gmsgq := popped } }.record i (.took cell.val.conn),
          ⟨.start .header ⟨node, cell.val, []⟩, (s.send i).taken ++ [cell.val], (s.send i).finished⟩) := by
      simp only [sendStep, hsend, if_true, hshared, hpop, hcell, Option.map_some]
    obtain ⟨s₂, hstep, hshared₂, hsend₂⟩ := sysStep_of_sendStep (by rw [hshared, hentry]) hworker
    have hentry₂ : s₂.shared.gconnList[i]? = some c := by
      rw [hshared₂]
      exact hentry
    obtain ⟨acts, s₃, x, hresults, hrun, ⟨c₃, hentry₃⟩, hwrites, hcontinues, hpc₃⟩ :=
      sendNode_run (x := ⟨node, cell.val, []⟩) hentry₂ hnode (by rw [hsend₂])
    have hstore₃ : s₃.shared.store = { s.shared.store with gmsgq := popped } := by
      rw [hwrites.store, hshared₂]
      rfl
    have hlast : sendStep s₃.shared i c₃ (s₃.send i) .free =
        some ({ s₃.shared with store := { s.shared.store with gmsgq := q } },
          ⟨.test, (s₃.send i).taken, (s₃.send i).finished ++ [x]⟩) := by
      simp only [sendStep, hpc₃, hstore₃, hcontinues.node, hfree, Option.map_some]
    obtain ⟨s₄, hlast, hshared₄, hsend₄⟩ := sysStep_of_sendStep hentry₃ hlast
    refine ⟨[.test, .checkState, .pop] ++ acts ++ [.free], s₄, some x, ?_, ?_, by rw [hshared₄], by rw [hsend₄], ?_, ?_⟩
    · rw [List.filterMap_append, List.filterMap_append]
      exact (congrArg (· ++ left') (List.append_nil _)).trans hresults
    · have hpopped := runActions_snoc sysStep s _ s₂ _ _ htopop hstep
      rw [List.map_append, List.map_append, List.map_singleton]
      refine runActions_snoc sysStep s s₃ s₄ _ _ ?_ hlast
      rw [runActions_append]
      exact (congrArg (Option.bind · _) hpopped).trans hrun
    · rw [hsend₄, hwrites.finished, hsend₂]
      rfl
    · rw [Option.map_some, hcontinues.msg, hcontinues.accepted]
      rfl

end Turn

/-- Threads that are not interrupted do what their functions say. -/
theorem uninterrupted_runs (s : System F P) : s.RunsReadyToSend ∧ s.RunsSendMessage ∧ LoopsSendToFd := by
  refine ⟨?_, ?_, ?_⟩
  · intro k req callbackF callbackParam now store rc hpending hsend
    exact readyToSend_run hpending hsend
  · intro i c results left q sent hentry hup hpc hqueue hsent
    exact sendMessage_run hentry hup hpc hqueue hsent
  · intro buf bytes len results left failed hsent
    exact sendToFd_rounds hsent

/-- A queue with one message of one byte. -/
def oneWaiting : MsgList :=
  ⟨⟨[some ⟨⟨⟨some ['x', '\x00'], 1, 0, 0, oneCharId 'a'⟩, ['a'], 1, 0⟩, none, none⟩]⟩, some 0⟩

/-- A connection that is up, with this queue. -/
def oneQueued : System Unit Unit :=
  { (twoPeersUp : System Unit Unit) with
    shared := ⟨twoPeers, ⟨oneWaiting, [], 0⟩, [⟨3, 1, 0⟩], ⟨fun _ => true, fun _ => 1, fun _ => some 0⟩, false, []⟩ }

/-- Its worker sends the message, of which `send` takes the header in two calls. -/
theorem oneQueued_runs : ∃ (acts : List SendAction) (s' : System Unit Unit) (x : Transfer),
    acts.filterMap SendAction.result = [.sent 3, .failed .eagain, .sent 1, .sent 1] ∧
      runActions sysStep oneQueued (acts.map (Action.send 0)) = some s' ∧
        (s'.send 0).finished = [x] ∧ x.accepted = ['0', '0', '0', '1', 'x'] := by
  have hsent : sendMessage oneQueued.shared.store.gmsgq 0 [.sent 3, .failed .eagain, .sent 1, .sent 1] =
      some (⟨⟨[none]⟩, none⟩,
        some (⟨⟨some ['x', '\x00'], 1, 0, 0, oneCharId 'a'⟩, ['a'], 1, 0⟩, ['0', '0', '0', '1', 'x']), []) := by
    decide
  obtain ⟨acts, s', freed, hresults, hrun, _, _, hfinished, hfreed⟩ :=
    (uninterrupted_runs oneQueued).2.1 0 ⟨3, 1, 0⟩ _ _ _ _ rfl rfl rfl (by decide) hsent
  cases freed with
  | none => cases hfreed
  | some x =>
    rw [List.append_nil] at hresults
    exact ⟨acts, s', x, hresults, hrun, hfinished, (Prod.mk.inj (Option.some.inj hfreed)).2.symm⟩

end TcpClb
