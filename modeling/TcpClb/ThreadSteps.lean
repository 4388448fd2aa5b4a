import TcpClb.Threads

/-!
# What a step of a thread does

The steps of the workers as relations with one rule for each step that is possible: where the worker
has to stand, what it needs, and the state it leads to. Facts about all steps are proved by cases on
the rule.
-/

namespace TcpClb

open TcpClb.Common

variable {F P : Type}

/-- The steps of the receive worker on entry `i`, which is `c`. -/
inductive RecvStep (s : Shared F P) (i : ℕ) (c : Con) (w : RecvWorker) :
    RecvAction → Shared F P → RecvWorker → Prop
  | test (hpc : w.pc = .test) : RecvStep s i c w .test s
      { w with pc := if c.state = 1 then .call else .lock, log := w.log ++ [.tested] }
  | lock (hpc : w.pc = .lock) (hfree : s.conntex = false) :
    RecvStep s i c w .lock { s with conntex := true } { w with pc := .recreate }
  | recreate {fd : ℤ} {s' : Shared F P} (hpc : w.pc = .recreate)
    (hrecreate : s.recreate i c.peerId fd = some s') :
    RecvStep s i c w (.recreate fd) s' { w with pc := .connect c.peerId }
  | connect {pid : ℤ} (connected : Bool) (hpc : w.pc = .connect pid) :
    RecvStep s i c w (.connect connected) (s.connect i pid connected) { w with pc := .test }
  | call (hpc : w.pc = .call) : RecvStep s i c w .call s
      { w with
        pc := .receiving (s.kernel.connection c.fd)
        log := w.log ++ [.called (s.kernel.connection c.fd)] }
  | finish {conn : Connection} {results rest : List RecvResult} {received : Received}
    (hpc : w.pc = .receiving conn) (hreceive : receiveFromFd results = some (received, rest)) :
    RecvStep s i c w (.finish results) s
      ⟨switchRc conn received (received.ret.getD w.rc), received.ret.getD w.rc,
        w.log ++ [.returned conn received]⟩
  | remId {message : List Char} (tid : List Char) (hpc : w.pc = .dispatch message) :
    RecvStep s i c w (.remId tid)
      { s with store := { s.store with gtsidq := remId s.store.gtsidq tid } } w
  | dispatched {message : List Char} (hpc : w.pc = .dispatch message) :
    RecvStep s i c w .dispatched s { w with pc := .test }
  | close {lost : Option Connection} (hpc : w.pc = .close lost) :
    RecvStep s i c w .close { s with kernel := s.kernel.close c.fd }
      { w with pc := .clear, log := w.log ++ [.closed (s.kernel.connection c.fd)] }
  | clear (hpc : w.pc = .clear) :
    RecvStep s i c w .clear (s.clear i) { w with pc := .test, log := w.log ++ [.cleared] }

/-- A receive worker takes no other steps. -/
theorem recvStep_cases {s s' : Shared F P} {i : ℕ} {c : Con} {w w' : RecvWorker} {a : RecvAction}
    (hstep : recvStep s i c w a = some (s', w')) : RecvStep s i c w a s' w' := by
  cases a with
  | test =>
    obtain ⟨hpc, h⟩ := Option.ite_none_right_eq_some.mp hstep
    cases h
    exact .test hpc
  | lock =>
    obtain ⟨⟨hpc, hfree⟩, h⟩ := Option.ite_none_right_eq_some.mp hstep
    cases h
    exact .lock hpc hfree
  | recreate fd =>
    obtain ⟨hpc, h⟩ := Option.ite_none_right_eq_some.mp hstep
    obtain ⟨s₁, hrecreate, h⟩ := Option.map_eq_some_iff.mp h
    cases h
    exact .recreate hpc hrecreate
  | connect connected =>
    simp only [recvStep] at hstep
    split at hstep
    · next pid hpc =>
      cases hstep
      exact .connect connected hpc
    · cases hstep
  | call =>
    obtain ⟨hpc, h⟩ := Option.ite_none_right_eq_some.mp hstep
    cases h
    exact .call hpc
  | finish results =>
    simp only [recvStep] at hstep
    split at hstep
    · next conn hpc =>
      obtain ⟨⟨received, rest⟩, hreceive, h⟩ := Option.map_eq_some_iff.mp hstep
      cases h
      exact .finish hpc hreceive
    · cases hstep
  | remId tid =>
    simp only [recvStep] at hstep
    split at hstep
    · next message hpc =>
      cases hstep
      exact .remId tid hpc
    · cases hstep
  | dispatched =>
    simp only [recvStep] at hstep
    split at hstep
    · next message hpc =>
      cases hstep
      exact .dispatched hpc
    · cases hstep
  | close =>
    simp only [recvStep] at hstep
    split at hstep
    · next lost hpc =>
      cases hstep
      exact .close hpc
    · cases hstep
  | clear =>
    obtain ⟨hpc, h⟩ := Option.ite_none_right_eq_some.mp hstep
    cases h
    exact .clear hpc

/-- The steps of the send worker on entry `i`, which is `c`. -/
inductive SendStep (s : Shared F P) (i : ℕ) (c : Con) (w : SendWorker) :
    SendAction → Shared F P → SendWorker → Prop
  | wait (hpc : w.pc = .test) (hempty : s.store.gmsgq.head = none) :
    SendStep s i c w .test s { w with pc := .waiting }
  | goOn (hpc : w.pc = .test) (hqueued : s.store.gmsgq.head ≠ none) :
    SendStep s i c w .test s { w with pc := .checkState }
  | wake (hpc : w.pc = .waiting) : SendStep s i c w .wake s { w with pc := .test }
  | up (hpc : w.pc = .checkState) (hstate : c.state = 1) :
    SendStep s i c w .checkState s { w with pc := .pop }
  | down (hpc : w.pc = .checkState) (hstate : c.state ≠ 1) :
    SendStep s i c w .checkState s { w with pc := .lock }
  | lock (hpc : w.pc = .lock) (hfree : s.conntex = false) :
    SendStep s i c w .lock { s with conntex := true } { w with pc := .recreate }
  | recreate {fd : ℤ} {s' : Shared F P} (hpc : w.pc = .recreate)
    (hrecreate : s.recreate i c.peerId fd = some s') :
    SendStep s i c w (.recreate fd) s' { w with pc := .connect c.peerId }
  | connect {pid : ℤ} (connected : Bool) (hpc : w.pc = .connect pid) :
    SendStep s i c w (.connect connected) (s.connect i pid connected) { w with pc := .pop }
  | popNone {q : MsgList} (hpc : w.pc = .pop)
    (hpop : popFromMsgq s.store.gmsgq c.peerId = some (q, none)) :
    SendStep s i c w .pop { s with store := { s.store with gmsgq := q } } { w with pc := .test }
  | pop {q : MsgList} {node : ℕ} {cell : Cell Msgque} (hpc : w.pc = .pop)
    (hpop : popFromMsgq s.store.gmsgq c.peerId = some (q, some node))
    (hcell : q.heap.get node = some cell) :
    SendStep s i c w .pop ({ s with store := { s.store with gmsgq := q } }.record i (.took cell.val.conn))
      { w with pc := .start .header ⟨node, cell.val, []⟩, taken := w.taken ++ [cell.val] }
  | start {part : Part} {x : Transfer} {text : List Char} (hpc : w.pc = .start part x)
    (htext : part.text x.msg = some text) :
    SendStep s i c w .start s { w with pc := sendingOrNext part x c.fd text }
  | sendFails {part : Part} {x : Transfer} {fd : ℤ} {rest : List Char} {r : SendResult}
    (hpc : w.pc = .sending part x fd rest) (hsend : sendOnce rest r = none) :
    SendStep s i c w (.send r) (s.record i (.wrote ⟨s.kernel.connection fd, rest, r⟩ c.fd))
      { w with pc := .failed part (x.record ⟨s.kernel.connection fd, rest, r⟩) }
  | send {part : Part} {x : Transfer} {fd : ℤ} {rest left : List Char} {r : SendResult}
    (hpc : w.pc = .sending part x fd rest) (hsend : sendOnce rest r = some left) :
    SendStep s i c w (.send r) (s.record i (.wrote ⟨s.kernel.connection fd, rest, r⟩ c.fd))
      { w with pc := sendingOrNext part (x.record ⟨s.kernel.connection fd, rest, r⟩) fd left }
  | failed {part : Part} {x : Transfer} (hpc : w.pc = .failed part x) :
    SendStep s i c w .failed (s.clear i) { w with pc := part.next x }
  | free {x : Transfer} {q : MsgList} (hpc : w.pc = .free x)
    (hfree : s.store.gmsgq.freeNode x.node = some q) :
    SendStep s i c w .free { s with store := { s.store with gmsgq := q } }
      { w with pc := .test, finished := w.finished ++ [x] }

/-- After `receive_from_fd` a receive worker closes, tests again or has a message to dispatch. -/
theorem switchRc_cases (conn : Connection) (received : Received) (rc : ℤ) :
    switchRc conn received rc = .close (if received = .endOfStream then some conn else none) ∨
      switchRc conn received rc = .test ∨ ∃ message, switchRc conn received rc = .dispatch message := by
  unfold switchRc
  by_cases hrc : rc = 0
  · rw [if_pos hrc]
    exact .inl rfl
  · rw [if_neg hrc]
    cases received.message with
    | none => exact .inr (.inl rfl)
    | some message => exact .inr (.inr ⟨message, rfl⟩)

/-- After a part a send worker starts the body or has sent the message. -/
theorem Part.next_cases (part : Part) (x : Transfer) : part.next x = .start .body x ∨ part.next x = .free x := by
  cases part with
  | header => exact .inl rfl
  | body => exact .inr rfl

/-- In the middle of a part a send worker goes on with the part while there is something to send. -/
theorem sendingOrNext_cases (part : Part) (x : Transfer) (fd : ℤ) (rest : List Char) :
    rest ≠ [] ∧ sendingOrNext part x fd rest = .sending part x fd rest ∨
      sendingOrNext part x fd rest = .start .body x ∨ sendingOrNext part x fd rest = .free x := by
  unfold sendingOrNext
  by_cases hrest : rest = []
  · rw [if_pos hrest]
    exact .inr (part.next_cases x)
  · rw [if_neg hrest]
    exact .inl ⟨hrest, rfl⟩

/-- A send worker takes no other steps. -/
theorem sendStep_cases {s s' : Shared F P} {i : ℕ} {c : Con} {w w' : SendWorker} {a : SendAction}
    (hstep : sendStep s i c w a = some (s', w')) : SendStep s i c w a s' w' := by
  cases a with
  | test =>
    obtain ⟨hpc, h⟩ := Option.ite_none_right_eq_some.mp hstep
    by_cases hempty : s.store.gmsgq.head = none
    · rw [if_pos hempty] at h
      cases h
      exact .wait hpc hempty
    · rw [if_neg hempty] at h
      cases h
      exact .goOn hpc hempty
  | wake =>
    obtain ⟨hpc, h⟩ := Option.ite_none_right_eq_some.mp hstep
    cases h
    exact .wake hpc
  | checkState =>
    obtain ⟨hpc, h⟩ := Option.ite_none_right_eq_some.mp hstep
    by_cases hstate : c.state = 1
    · rw [if_pos hstate] at h
      cases h
      exact .up hpc hstate
    · rw [if_neg hstate] at h
      cases h
      exact .down hpc hstate
  | lock =>
    obtain ⟨⟨hpc, hfree⟩, h⟩ := Option.ite_none_right_eq_some.mp hstep
    cases h
    exact .lock hpc hfree
  | recreate fd =>
    obtain ⟨hpc, h⟩ := Option.ite_none_right_eq_some.mp hstep
    obtain ⟨s₁, hrecreate, h⟩ := Option.map_eq_some_iff.mp h
    cases h
    exact .recreate hpc hrecreate
  | connect connected =>
    simp only [sendStep] at hstep
    split at hstep
    · next pid hpc =>
      cases hstep
      exact .connect connected hpc
    · cases hstep
  | pop =>
    obtain ⟨hpc, h⟩ := Option.ite_none_right_eq_some.mp hstep
    split at h
    · cases h
    · next q hpop =>
      cases h
      exact .popNone hpc hpop
    · next q node hpop =>
      obtain ⟨cell, hcell, h⟩ := Option.map_eq_some_iff.mp h
      cases h
      exact .pop hpc hpop hcell
  | start =>
    simp only [sendStep] at hstep
    split at hstep
    · next part x hpc =>
      obtain ⟨text, htext, h⟩ := Option.map_eq_some_iff.mp hstep
      cases h
      exact .start hpc htext
    · cases hstep
  | send r =>
    simp only [sendStep] at hstep
    split at hstep
    · next part x fd rest hpc =>
      split at hstep
      · next hsend =>
        cases hstep
        exact .sendFails hpc hsend
      · next left hsend =>
        cases hstep
        exact .send hpc hsend
    · cases hstep
  | failed =>
    simp only [sendStep] at hstep
    split at hstep
    · next part x hpc =>
      cases hstep
      exact .failed hpc
    · cases hstep
  | free =>
    simp only [sendStep] at hstep
    split at hstep
    · next x hpc =>
      obtain ⟨q, hfree, h⟩ := Option.map_eq_some_iff.mp hstep
      cases h
      exact .free hpc hfree
    · cases hstep

/-- The end of `recreate_conn` opens and closes nothing. -/
theorem Shared.connect_kernel (s : Shared F P) (i : ℕ) (pid : ℤ) (connected : Bool) :
    (s.connect i pid connected).kernel = s.kernel := by
  cases connected <;> rfl

/-- What a step of a receive worker does to the system. -/
theorem sysStep_recv {s s' : System F P} {i : ℕ} {a : RecvAction} (hstep : sysStep s (.recv i a) = some s') :
    ∃ c shared w, s.shared.gconnList[i]? = some c ∧ RecvStep s.shared i c (s.recv i) a shared w ∧
      s' = { s with shared := shared, recv := Function.update s.recv i w } := by
  obtain ⟨c, hc, h⟩ := Option.bind_eq_some_iff.mp hstep
  obtain ⟨⟨shared, w⟩, hworker, rfl⟩ := Option.map_eq_some_iff.mp h
  exact ⟨c, shared, w, hc, recvStep_cases hworker, rfl⟩

/-- What a step of a send worker does to the system. -/
theorem sysStep_send {s s' : System F P} {i : ℕ} {a : SendAction} (hstep : sysStep s (.send i a) = some s') :
    ∃ c shared w, s.shared.gconnList[i]? = some c ∧ SendStep s.shared i c (s.send i) a shared w ∧
      s' = { s with shared := shared, send := Function.update s.send i w } := by
  obtain ⟨c, hc, h⟩ := Option.bind_eq_some_iff.mp hstep
  obtain ⟨⟨shared, w⟩, hworker, rfl⟩ := Option.map_eq_some_iff.mp h
  exact ⟨c, shared, w, hc, sendStep_cases hworker, rfl⟩

/-- What the test of a client does: if the queue has a single node it wakes what it may, otherwise it
wakes nothing. -/
theorem sysStep_signal {s s' : System F P} {k : ℕ} {woken : Option ℕ}
    (hstep : sysStep s (.signal k woken) = some s') :
    ∃ first cell, s.shared.store.gmsgq.head = some first ∧
      s.shared.store.gmsgq.heap.get first = some cell ∧
      (cell.next = none ∧ s.MayWake woken ∨ cell.next ≠ none ∧ woken = none) ∧
      s' = { s with pending := Function.update s.pending k false }.wake woken := by
  obtain ⟨_, h⟩ := Option.ite_none_right_eq_some.mp hstep
  obtain ⟨first, hhead, h⟩ := Option.bind_eq_some_iff.mp h
  obtain ⟨cell, hcell, h⟩ := Option.bind_eq_some_iff.mp h
  refine ⟨first, cell, hhead, hcell, ?_⟩
  dsimp only at h
  split at h
  · next hnext =>
    obtain ⟨hmay, h⟩ := Option.ite_none_right_eq_some.mp h
    exact ⟨Or.inl ⟨hnext, hmay⟩, (Option.some.inj h).symm⟩
  · next hnext =>
    obtain ⟨rfl, h⟩ := Option.ite_none_right_eq_some.mp h
    exact ⟨Or.inr ⟨hnext, rfl⟩, (Option.some.inj h).symm⟩

/-- What a client does to the send workers: it wakes one of those that wait, or none. -/
theorem sysStep_signal_send {s s' : System F P} {k : ℕ} {woken : Option ℕ}
    (hstep : sysStep s (.signal k woken) = some s') (i : ℕ) : s'.send i = s.send i ∨
      (s.send i).pc = .waiting ∧ s'.send i = { s.send i with pc := .test } := by
  obtain ⟨first, cell, _, _, hwoken, rfl⟩ := sysStep_signal hstep
  cases woken with
  | none => exact Or.inl rfl
  | some w =>
    change Function.update s.send w { s.send w with pc := .test } i = s.send i ∨ _ ∧
      Function.update s.send w { s.send w with pc := .test } i = _
    by_cases hi : i = w
    · subst hi
      rcases hwoken with ⟨_, hmay⟩ | ⟨_, hnone⟩
      · exact Or.inr ⟨hmay.2, Function.update_self ..⟩
      · cases hnone
    · exact Or.inl (Function.update_of_ne hi ..)

/-- Clients and the sweep change nothing in the shared memory but the queue and the table of ids. -/
theorem sysStep_client_shared {s s' : System F P} {a : Action F P} (hstep : sysStep s a = some s')
    (hrecv : ∀ i b, a ≠ .recv i b) (hsend : ∀ i b, a ≠ .send i b) :
    ∃ store, s'.shared = { s.shared with store := store } := by
  cases a with
  | recv i b => exact absurd rfl (hrecv i b)
  | send i b => exact absurd rfl (hsend i b)
  | append k req callbackF callbackParam now =>
    obtain ⟨_, h⟩ := Option.ite_none_left_eq_some.mp hstep
    obtain ⟨store, _, rfl⟩ := Option.map_eq_some_iff.mp h
    exact ⟨store, rfl⟩
  | signal k woken =>
    obtain ⟨first, cell, _, _, _, rfl⟩ := sysStep_signal hstep
    cases woken <;> exact ⟨s.shared.store, rfl⟩
  | sweep now printable =>
    obtain ⟨table, _, rfl⟩ := Option.map_eq_some_iff.mp hstep
    exact ⟨_, rfl⟩

/-- Only a receive worker changes what receive workers know. -/
theorem sysStep_recv_eq {s s' : System F P} {a : Action F P} (hstep : sysStep s a = some s')
    (ha : ∀ i b, a ≠ .recv i b) : s'.recv = s.recv := by
  cases a with
  | recv i b => exact absurd rfl (ha i b)
  | send i b =>
    obtain ⟨c, shared, w, _, _, rfl⟩ := sysStep_send hstep
    rfl
  | append k req callbackF callbackParam now =>
    obtain ⟨_, h⟩ := Option.ite_none_left_eq_some.mp hstep
    obtain ⟨store, _, rfl⟩ := Option.map_eq_some_iff.mp h
    rfl
  | signal k woken =>
    obtain ⟨first, cell, _, _, _, rfl⟩ := sysStep_signal hstep
    cases woken <;> rfl
  | sweep now printable =>
    obtain ⟨table, _, rfl⟩ := Option.map_eq_some_iff.mp hstep
    rfl

/-- Only a send worker changes what send workers have in hand; a signal may wake one. -/
theorem sysStep_send_eq {s s' : System F P} {a : Action F P} (hstep : sysStep s a = some s')
    (ha : ∀ i b, a ≠ .send i b) (i : ℕ) : s'.send i = s.send i ∨
      (s.send i).pc = .waiting ∧ s'.send i = { s.send i with pc := .test } := by
  cases a with
  | recv j b =>
    obtain ⟨c, shared, w, _, _, rfl⟩ := sysStep_recv hstep
    exact Or.inl rfl
  | send j b => exact absurd rfl (ha j b)
  | append k req callbackF callbackParam now =>
    obtain ⟨_, h⟩ := Option.ite_none_left_eq_some.mp hstep
    obtain ⟨store, _, rfl⟩ := Option.map_eq_some_iff.mp h
    exact Or.inl rfl
  | signal k woken => exact sysStep_signal_send hstep i
  | sweep now printable =>
    obtain ⟨table, _, rfl⟩ := Option.map_eq_some_iff.mp hstep
    exact Or.inl rfl

end TcpClb
