import TcpClb.Connections
import TcpClb.MessageQueue
import TcpClb.Wire

/-!
# Workers and clients

The threads of `work.c` as step functions over the memory they share: for each peer a receive
worker and a send worker, which run on the entry of that peer in `gconn_list`, any number of
clients in `ready_to_send`, and the expiry sweep. A step is one access to shared memory, one
critical section or one system call. Results of system calls and the choice of the thread that a
signal wakes are part of the action.

What a receive worker does with a message between two calls of `receive_from_fd` is left open
except for the removal of ids from the table. The calls, the results of `send` and what a worker does
to entries and connections are recorded; no step depends on what has been recorded.
-/

namespace TcpClb

open TcpClb.Common

variable {F P : Type}

/-- One call of `send`: on which connection, with which bytes, and what it returned. -/
structure SendCall where
  conn : Connection
  offered : List Char
  result : SendResult
  deriving DecidableEq

/-- Something that a worker does to an entry of `gconn_list` or for a connection. -/
inductive Effect
  /-- `recreate_conn(pid)`. -/
  | recreated (pid : ℤ)
  /-- An assignment to `state` or `fd` of an entry. -/
  | assigned (pid : ℤ)
  /-- A message popped that is queued for this connection. -/
  | took (conn : ℤ)
  /-- A call of `send`, while `fd` of the worker's entry is `current`. -/
  | wrote (call : SendCall) (current : ℤ)
  deriving DecidableEq

/-- The memory the threads share, and which worker pair has caused which effect. -/
structure Shared (F P : Type) where
  refGcfg : Configurator
  store : Store F P
  gconnList : List Con
  kernel : Kernel
  conntex : Bool
  effects : List (ℕ × Effect)

/-- Where a receive worker stands. -/
inductive RecvPc
  /-- At the test of `while (c->state != 1)`. -/
  | test
  | lock
  | recreate
  /-- In `recreate_conn(pid)`, before `connect` returns. -/
  | connect (pid : ℤ)
  | call
  /-- In `receive_from_fd`, on this connection. -/
  | receiving (conn : Connection)
  | dispatch (message : List Char)
  /-- Before `close(c->fd)`; `lost` is the connection whose stream has ended, `none` after a message
  of length 0. -/
  | close (lost : Option Connection)
  | clear
  deriving DecidableEq

/-- What a receive worker does to its connection. -/
inductive RecvEvent
  | tested
  | called (conn : Connection)
  | returned (conn : Connection) (received : Received)
  | closed (conn : Connection)
  | cleared
  deriving DecidableEq

/-- A receive worker: its position, its local variable `rc`, and what it has done. -/
structure RecvWorker where
  pc : RecvPc
  rc : ℤ
  log : List RecvEvent

/-- One step of a receive worker, with what the kernel returns in it. -/
inductive RecvAction
  | test
  | lock
  | recreate (fd : ℤ)
  | connect (connected : Bool)
  | call
  | finish (results : List RecvResult)
  | remId (tid : List Char)
  | dispatched
  | close
  | clear

/-- Record an effect of a worker of pair `i`. -/
def Shared.record (s : Shared F P) (i : ℕ) (e : Effect) : Shared F P :=
  { s with effects := s.effects ++ [(i, e)] }

/-- `recreate_conn(pid)` up to `socket`, called by a worker of pair `i`. -/
def Shared.recreate (s : Shared F P) (i : ℕ) (pid fd : ℤ) : Option (Shared F P) :=
  (recreateSocket s.refGcfg s.gconnList s.kernel pid fd).map fun made =>
    ({ s with gconnList := made.1, kernel := made.2 }.record i (.recreated pid)).record i (.assigned pid)

/-- `recreate_conn(pid)` from `connect` on, and the unlocking of `conntex`. -/
def Shared.connect (s : Shared F P) (i : ℕ) (pid : ℤ) (connected : Bool) : Shared F P :=
  let s := { s with gconnList := recreateConnect s.gconnList pid connected, conntex := false }
  if connected then s.record i (.assigned pid) else s

/-- `c->state = 0`. -/
def Shared.clear (s : Shared F P) (i : ℕ) : Shared F P :=
  { s with gconnList := setState s.gconnList i 0 }.record i (.assigned i)

/-- `switch(rc)`, after `receive_from_fd` has returned. -/
def switchRc (conn : Connection) (received : Received) (rc : ℤ) : RecvPc :=
  if rc = 0 then .close (if received = .endOfStream then some conn else none)
  else match received.message with
    -- a `NULL` message has none of the fields looked for
    | none => .test
    | some message => .dispatch message

/-- One step of the receive worker on entry `i`, which is `c`. -/
def recvStep (s : Shared F P) (i : ℕ) (c : Con) (w : RecvWorker) :
    RecvAction → Option (Shared F P × RecvWorker)
  | .test =>
    if w.pc = .test then
      some (s, { w with pc := if c.state = 1 then .call else .lock, log := w.log ++ [.tested] })
    else none
  | .lock =>
    if w.pc = .lock ∧ s.conntex = false then some ({ s with conntex := true }, { w with pc := .recreate })
    else none
  | .recreate fd =>
    if w.pc = .recreate then
      (s.recreate i c.peerId fd).map fun s => (s, { w with pc := .connect c.peerId })
    else none
  | .connect connected =>
    match w.pc with
    | .connect pid => some (s.connect i pid connected, { w with pc := .test })
    | _ => none
  | .call =>
    if w.pc = .call then
      some (s, { w with
        pc := .receiving (s.kernel.connection c.fd)
        log := w.log ++ [.called (s.kernel.connection c.fd)] })
    else none
  | .finish results =>
    match w.pc with
    | .receiving conn =>
      (receiveFromFd results).map fun returned =>
        -- an end of stream leaves `rc` as it was
        let rc := returned.1.ret.getD w.rc
        (s, ⟨switchRc conn returned.1 rc, rc, w.log ++ [.returned conn returned.1]⟩)
    | _ => none
  | .remId tid =>
    match w.pc with
    | .dispatch _ => some ({ s with store := { s.store with gtsidq := remId s.store.gtsidq tid } }, w)
    | _ => none
  | .dispatched =>
    match w.pc with
    | .dispatch _ => some (s, { w with pc := .test })
    | _ => none
  | .close =>
    match w.pc with
    | .close _ =>
      some ({ s with kernel := s.kernel.close c.fd }, { w with
        pc := .clear
        log := w.log ++ [.closed (s.kernel.connection c.fd)] })
    | _ => none
  | .clear =>
    if w.pc = .clear then some (s.clear i, { w with pc := .test, log := w.log ++ [.cleared] }) else none

/-- The two calls of `send_to_fd` for one message. -/
inductive Part
  | header
  | body
  deriving DecidableEq

/-- A message that a send worker has popped, and the calls of `send` it has made for it. -/
structure Transfer where
  node : ℕ
  msg : Msgque
  calls : List SendCall
  deriving DecidableEq

/-- Record a call of `send`. -/
def Transfer.record (x : Transfer) (call : SendCall) : Transfer := { x with calls := x.calls ++ [call] }

/-- Where a send worker stands. -/
inductive SendPc
  /-- At the test of `while (gmsgq == NULL)`, which holds `condition_mutex`. -/
  | test
  /-- In `pthread_cond_wait`, not woken. -/
  | waiting
  | checkState
  | lock
  | recreate
  | connect (pid : ℤ)
  | pop
  /-- About to call `send_to_fd` for a part of the message. -/
  | start (part : Part) (x : Transfer)
  /-- In `send_to_fd`, with these bytes left to send. -/
  | sending (part : Part) (x : Transfer) (fd : ℤ) (rest : List Char)
  /-- After `send_to_fd` has returned -1. -/
  | failed (part : Part) (x : Transfer)
  | free (x : Transfer)
  deriving DecidableEq

/-- A send worker: its position, the messages it has popped, and those it has freed. -/
structure SendWorker where
  pc : SendPc
  taken : List Msgque
  finished : List Transfer

/-- One step of a send worker, with what the kernel returns in it. -/
inductive SendAction
  | test
  /-- A spurious return of `pthread_cond_wait`. -/
  | wake
  | checkState
  | lock
  | recreate (fd : ℤ)
  | connect (connected : Bool)
  | pop
  | start
  | send (r : SendResult)
  | failed
  | free

/-- The body buffer holds the bytes to be sent, and the `syslog` before the body can print it. -/
def Msgque.Readable (msg : Msgque) : Prop := msg.data.Printable ∧ msg.len ≤ msg.data.readable.length

instance (msg : Msgque) : Decidable msg.Readable := inferInstanceAs (Decidable (_ ∧ _))

/-- The bytes that a part of a message consists of, if they can be read and `msglen` holds them. -/
def Part.text (msg : Msgque) : Part → Option (List Char)
  | .header => if (lengthHeader msg.len).length < msglenSize then some (lengthHeader msg.len) else none
  | .body => if msg.Readable then some (msg.data.readable.take msg.len.toNat) else none

/-- What comes after a part of a message. -/
def Part.next (x : Transfer) : Part → SendPc
  | .header => .start .body x
  | .body => .free x

/-- The loop test of `send_to_fd`. -/
def sendingOrNext (part : Part) (x : Transfer) (fd : ℤ) (rest : List Char) : SendPc :=
  if rest = [] then part.next x else .sending part x fd rest

/-- One step of the send worker on entry `i`, which is `c`. -/
def sendStep (s : Shared F P) (i : ℕ) (c : Con) (w : SendWorker) :
    SendAction → Option (Shared F P × SendWorker)
  | .test =>
    if w.pc = .test then
      some (s, { w with pc := if s.store.gmsgq.head = none then .waiting else .checkState })
    else none
  | .wake => if w.pc = .waiting then some (s, { w with pc := .test }) else none
  | .checkState =>
    if w.pc = .checkState then some (s, { w with pc := if c.state = 1 then .pop else .lock }) else none
  | .lock =>
    if w.pc = .lock ∧ s.conntex = false then some ({ s with conntex := true }, { w with pc := .recreate })
    else none
  | .recreate fd =>
    if w.pc = .recreate then
      (s.recreate i c.peerId fd).map fun s => (s, { w with pc := .connect c.peerId })
    else none
  | .connect connected =>
    match w.pc with
    | .connect pid => some (s.connect i pid connected, { w with pc := .pop })
    | _ => none
  | .pop =>
    if w.pc = .pop then
      match popFromMsgq s.store.gmsgq c.peerId with
      | none => none
      | some (q, none) =>
        some ({ s with store := { s.store with gmsgq := q } }, { w with pc := .test })
      | some (q, some node) =>
        (q.heap.get node).map fun cell =>
          ({ s with store := { s.store with gmsgq := q } }.record i (.took cell.val.conn),
            { w with pc := .start .header ⟨node, cell.val, []⟩, taken := w.taken ++ [cell.val] })
    else none
  | .start =>
    match w.pc with
    | .start part x =>
      -- `c->fd` is read once for all calls of `send`
      (part.text x.msg).map fun text => (s, { w with pc := sendingOrNext part x c.fd text })
    | _ => none
  | .send r =>
    match w.pc with
    | .sending part x fd rest =>
      let call : SendCall := ⟨s.kernel.connection fd, rest, r⟩
      let s := s.record i (.wrote call c.fd)
      match sendOnce rest r with
      | none => some (s, { w with pc := .failed part (x.record call) })
      | some left => some (s, { w with pc := sendingOrNext part (x.record call) fd left })
    | _ => none
  | .failed =>
    match w.pc with
    | .failed part x => some (s.clear i, { w with pc := part.next x })
    | _ => none
  | .free =>
    match w.pc with
    | .free x =>
      (s.store.gmsgq.freeNode x.node).map fun q =>
        ({ s with store := { s.store with gmsgq := q } },
          { w with pc := .test, finished := w.finished ++ [x] })
    | _ => none

/-- The shared memory, the worker pairs, and which clients are between the two critical sections of
`ready_to_send`. -/
structure System (F P : Type) where
  shared : Shared F P
  recv : ℕ → RecvWorker
  send : ℕ → SendWorker
  pending : ℕ → Bool

/-- One step of some thread. -/
inductive Action (F P : Type)
  | recv (i : ℕ) (a : RecvAction)
  | send (i : ℕ) (a : SendAction)
  /-- `push_to_msgq` in `ready_to_send`, by client `k`. -/
  | append (k : ℕ) (req : Request) (callbackF : F) (callbackParam : P) (now : Timeval)
  /-- The test of `gmsgq->next` by client `k`, and the send worker woken by it. -/
  | signal (k : ℕ) (woken : Option ℕ)
  /-- `list_expired_idq`, with the parameters that lead to a string when it prints them. -/
  | sweep (now : ℕ → Timeval) (printable : P → Bool)

/-- The workers as `manage` starts them on the connections that have been created. -/
def System.start (cfg : Configurator) (gconnList : List Con) (k : Kernel) : System F P where
  shared := ⟨cfg, .initial, gconnList, k, false, []⟩
  recv _ := ⟨.test, 0, []⟩
  send _ := ⟨.test, [], []⟩
  pending _ := false

/-- `manage`: create the connections and start the workers. -/
def manage (cfg : Configurator) (start : ℕ → PeerStart) : Option (System F P) :=
  (createPeers cfg start).map fun made => .start cfg made.1 made.2

/-- What a signal may wake: one waiting send worker, or nothing if none is waiting. -/
def System.MayWake (s : System F P) : Option ℕ → Prop
  | some w => w < s.shared.gconnList.length ∧ (s.send w).pc = .waiting
  | none => ∀ w < s.shared.gconnList.length, (s.send w).pc ≠ .waiting

instance (s : System F P) (woken : Option ℕ) : Decidable (s.MayWake woken) := by
  cases woken <;> unfold System.MayWake <;> infer_instance

/-- Wake a send worker. -/
def System.wake (s : System F P) : Option ℕ → System F P
  | none => s
  | some w => { s with send := Function.update s.send w { s.send w with pc := .test } }

/-- Perform one step; impossible if the thread is not at that point, undefined as the code is. -/
def sysStep (s : System F P) : Action F P → Option (System F P)
  | .recv i a =>
    (s.shared.gconnList[i]?).bind fun c =>
      (recvStep s.shared i c (s.recv i) a).map fun after =>
        { s with shared := after.1, recv := Function.update s.recv i after.2 }
  | .send i a =>
    (s.shared.gconnList[i]?).bind fun c =>
      (sendStep s.shared i c (s.send i) a).map fun after =>
        { s with shared := after.1, send := Function.update s.send i after.2 }
  | .append k req callbackF callbackParam now =>
    if s.pending k then none
    else
      (pushToMsgq s.shared.store s.shared.gconnList req.id.chars req.msgLen req callbackF callbackParam
        now).map fun store =>
          { s with
            shared := { s.shared with store := store }
            pending := Function.update s.pending k true }
  | .signal k woken =>
    if s.pending k then do
      let first ← s.shared.store.gmsgq.head
      let cell ← s.shared.store.gmsgq.heap.get first
      let s' := { s with pending := Function.update s.pending k false }
      if cell.next = none then
        if s.MayWake woken then some (s'.wake woken) else none
      else if woken = none then some s' else none
    else none
  | .sweep now printable =>
    (listExpiredIdq printable s.shared.store.gtsidq now).map fun table =>
      { s with shared := { s.shared with store := { s.shared.store with gtsidq := table } } }

/-- Two peers. -/
def twoPeers : Configurator := ⟨1, [⟨5060, ['h']⟩, ⟨5061, ['h']⟩]⟩

/-- Both are connected to at the first attempt. -/
def bothConnect (i : ℕ) : PeerStart := ⟨i + 3, true, false⟩

/-- The state in which `manage` leaves them. -/
def twoPeersUp : System F P :=
  .start twoPeers [⟨3, 1, 0⟩, ⟨4, 1, 1⟩] ⟨Function.update (Function.update (fun _ => false) 3 true) 4 true,
    Function.update (Function.update (fun _ => 0) 3 1) 4 1,
    Function.update (Function.update (fun _ => none) 3 (some 0)) 4 (some 1)⟩

end TcpClb
