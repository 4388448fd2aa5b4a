import TcpClb.Common.Runs
import TcpClb.RoundRobin
import TcpClb.ThreadSteps

/-!
# What happens to descriptors

A ledger beside the system: for each entry of `gconn_list` the connection whose descriptor it was given
last, and every opening, call, connect, loss, close and replacement of a descriptor, in order. The
ledger is written by the steps of the workers and by `create_peers`; no step depends on it.
-/

namespace TcpClb

open TcpClb.Common

variable {F P : Type}

/-- Something that happens to a descriptor. -/
inductive FdEvent
  /-- `socket` has returned it, for this peer. -/
  | opened (pid : ℕ) (conn : Connection)
  /-- A call on a descriptor, and whether it was open. -/
  | used (fd : ℤ) (wasOpen : Bool)
  | connected (conn : Connection)
  /-- `recv` has returned the end of the stream, or `send` an error. -/
  | lost (conn : Connection)
  | closed (conn : Connection)
  /-- The entry of `gconn_list` that held it has been given another descriptor. -/
  | overwritten (conn : Connection)
  deriving DecidableEq

/-- The connection that each entry of `gconn_list` was given last, and what has happened. -/
structure Ledger where
  current : ℕ → Option Connection
  events : List FdEvent

/-- Nothing has happened. -/
def Ledger.initial : Ledger := ⟨fun _ => none, []⟩

/-- Something happens that leaves the entries as they are. -/
def Ledger.add (l : Ledger) (events : List FdEvent) : Ledger := { l with events := l.events ++ events }

/-- The connection is open. -/
def Kernel.Has (k : Kernel) (conn : Connection) : Prop :=
  k.isOpen conn.fd = true ∧ k.opened conn.fd = conn.opening

/-- The connection that `socket` opens by returning `fd`. -/
def Kernel.made (k : Kernel) (fd : ℤ) : Option Connection :=
  if fd < 0 then none else some ⟨fd, k.opened fd + 1⟩

/-- The entry loses what it held. -/
def Ledger.overwrite (l : Ledger) (pid : ℕ) : Ledger where
  current := Function.update l.current pid none
  events := l.events ++ (l.current pid).toList.map .overwritten

/-- The entry is given what `socket` has made. -/
def Ledger.store (l : Ledger) (pid : ℕ) (made : Option Connection) : Ledger where
  current := Function.update l.current pid made
  events := l.events ++ made.toList.map (.opened pid)

/-- `gconn_list[pid].fd = socket(..)`. -/
def Ledger.recreate (l : Ledger) (k : Kernel) (pid fd : ℤ) : Ledger :=
  (l.overwrite pid.toNat).store pid.toNat (k.made fd)

/-- `connect(gconn_list[pid].fd, ..)`. -/
def Ledger.connect (l : Ledger) (s : Shared F P) (pid : ℤ) (connected : Bool) : Ledger :=
  match s.gconnList[pid.toNat]? with
  | some c => l.add (.used c.fd (s.kernel.isOpen c.fd) ::
      if connected then (l.current pid.toNat).toList.map .connected else [])
  | none => l

/-- The result is an error that ends the transfer. -/
def SendResult.IsError : SendResult → Prop
  | .sent _ => False
  | .failed errno => errno.wouldBlock = false

instance (r : SendResult) : Decidable r.IsError := by
  cases r <;> unfold SendResult.IsError <;> infer_instance

/-- What a step of the receive worker on entry `c` does to descriptors. -/
def Ledger.recv (l : Ledger) (s : Shared F P) (c : Con) (w : RecvWorker) : RecvAction → Ledger
  | .recreate fd => l.recreate s.kernel c.peerId fd
  | .connect connected =>
    match w.pc with
    | .connect pid => l.connect s pid connected
    | _ => l
  | .call => l.add [.used c.fd (s.kernel.isOpen c.fd)]
  | .finish results =>
    match w.pc with
    | .receiving conn =>
      l.add (.used conn.fd (s.kernel.isOpen conn.fd) ::
        if (receiveFromFd results).map Prod.fst = some .endOfStream then [.lost conn] else [])
    | _ => l
  | .close => l.add [.used c.fd (s.kernel.isOpen c.fd), .closed (s.kernel.connection c.fd)]
  | _ => l

/-- What a step of the send worker on entry `c` does to descriptors. -/
def Ledger.send (l : Ledger) (s : Shared F P) (c : Con) (w : SendWorker) : SendAction → Ledger
  | .recreate fd => l.recreate s.kernel c.peerId fd
  | .connect connected =>
    match w.pc with
    | .connect pid => l.connect s pid connected
    | _ => l
  | .send r =>
    match w.pc with
    | .sending _ _ fd _ =>
      l.add (.used fd (s.kernel.isOpen fd) :: if r.IsError then [.lost (s.kernel.connection fd)] else [])
    | _ => l
  | _ => l

/-- What a step of some thread does to descriptors. -/
def Ledger.after (l : Ledger) (s : System F P) : Action F P → Ledger
  | .recv i a =>
    match s.shared.gconnList[i]? with
    | some c => l.recv s.shared c (s.recv i) a
    | none => l
  | .send i a =>
    match s.shared.gconnList[i]? with
    | some c => l.send s.shared c (s.send i) a
    | none => l
  | _ => l

/-- The system and its ledger. -/
structure Watched (F P : Type) where
  sys : System F P
  ledger : Ledger

/-- One step of some thread, with what it does to descriptors. -/
def watchStep (w : Watched F P) (a : Action F P) : Option (Watched F P) :=
  (sysStep w.sys a).map fun s => ⟨s, w.ledger.after w.sys a⟩

/-- What a round of `create_peers` does to descriptors, where `k` is the kernel after `socket`. -/
def PeerStart.events (start : PeerStart) (i : ℕ) (k : Kernel) : List FdEvent :=
  .opened i (k.connection start.fd) :: .used start.fd (k.isOpen start.fd) ::
    if start.connected then [.connected (k.connection start.fd)]
    else
      -- `close(conn)`, and `connect` with the same `conn` after the jump to `connect_now`
      .used start.fd (k.isOpen start.fd) :: .closed (k.connection start.fd) ::
        .used start.fd ((k.close start.fd).isOpen start.fd) ::
          if start.retried then [.connected (k.connection start.fd)] else []

/-- A round of `create_peers`. -/
def Ledger.create (l : Ledger) (i : ℕ) (start : PeerStart) (k : Kernel) : Ledger where
  current := Function.update l.current i
    (if start.connected || start.retried then some (k.connection start.fd) else none)
  events := l.events ++ start.events i k

/-- The loop of `create_peers` with its ledger. -/
def watchPeersFrom (start : ℕ → PeerStart) :
    ℕ → List EndPeers → Kernel → Ledger → Option (List Con × Kernel × Ledger)
  | _, [], k, l => some ([], k, l)
  | i, peer :: peers, k, l => do
    let first ← createPeer peer i (start i) k
    let opened ← k.socket i (start i).fd
    let others ← watchPeersFrom start (i + 1) peers first.2 (l.create i (start i) opened)
    some (first.1 :: others.1, others.2)

/-- `manage` with its ledger. -/
def watchManage (cfg : Configurator) (start : ℕ → PeerStart) : Option (Watched F P) :=
  (watchPeersFrom start 0 cfg.peers .initial .initial).map fun made =>
    ⟨.start cfg made.1 made.2.1, made.2.2⟩

/-- Two peers that have both been connected to at the first attempt. -/
def twoPeersWatched : Watched F P :=
  ⟨twoPeersUp, Function.update (Function.update (fun _ => none) 0 (some ⟨3, 1⟩)) 1 (some ⟨4, 1⟩),
    [.opened 0 ⟨3, 1⟩, .used 3 true, .connected ⟨3, 1⟩, .opened 1 ⟨4, 1⟩, .used 4 true, .connected ⟨4, 1⟩]⟩

/-- A round of `create_peers` that returns has opened a socket. -/
theorem createPeer_socket {peer : EndPeers} {i : ℕ} {start : PeerStart} {k k' : Kernel} {c : Con}
    (h : createPeer peer i start k = some (c, k')) : ∃ opened, k.socket i start.fd = some opened ∧
      0 ≤ start.fd ∧ k' = if start.connected then opened else opened.close start.fd := by
  unfold createPeer at h
  split at h
  · obtain ⟨opened, hsocket, h⟩ := Option.bind_eq_some_iff.mp h
    obtain ⟨hfd, h⟩ := Option.ite_none_left_eq_some.mp h
    refine ⟨opened, hsocket, by omega, ?_⟩
    split at h
    · next hconnected =>
      rw [if_pos hconnected]
      cases h
      rfl
    · next hfails =>
      rw [if_neg hfails]
      split at h <;> cases h <;> rfl
  · cases h

/-- The ledger is kept beside `create_peers` without changing it. -/
theorem watchPeersFrom_eq (start : ℕ → PeerStart) (i : ℕ) (peers : List EndPeers) (k : Kernel) (l : Ledger) :
    (watchPeersFrom start i peers k l).map (fun made => (made.1, made.2.1)) =
      createPeersFrom start i peers k := by
  induction peers generalizing i k l with
  | nil => rfl
  | cons peer peers ih =>
    cases hfirst : createPeer peer i (start i) k with
    | none => simp [watchPeersFrom, createPeersFrom, hfirst]
    | some first =>
      obtain ⟨opened, hsocket, _, _⟩ := createPeer_socket hfirst
      simp only [watchPeersFrom, createPeersFrom, hfirst, hsocket, Option.bind_eq_bind, Option.bind_some]
      rw [← ih (i + 1) first.2, Option.map_bind, Option.bind_map]
      rfl

/-- The ledger is kept beside `manage` without changing it. -/
theorem manage_of_watchManage {cfg : Configurator} {start : ℕ → PeerStart} {w : Watched F P}
    (h : watchManage cfg start = some w) : manage cfg start = some w.sys := by
  obtain ⟨⟨gconnList, k, l⟩, hpeers, rfl⟩ := Option.map_eq_some_iff.mp h
  rw [manage, createPeers, ← watchPeersFrom_eq start 0 cfg.peers .initial .initial, hpeers]
  rfl

/-- Storing nothing in an entry that holds nothing. -/
theorem Ledger.store_none {l : Ledger} {pid : ℕ} (hnone : l.current pid = none) : l.store pid none = l := by
  rw [Ledger.store, ← hnone, Function.update_eq_self, hnone]
  exact congrArg (Ledger.mk l.current) (List.append_nil l.events)

/-- An entry holds nothing after it has lost what it held. -/
theorem Ledger.overwrite_current (l : Ledger) (pid : ℕ) : (l.overwrite pid).current pid = none :=
  Function.update_self ..

/-- What the entries hold after one of them has lost what it held. -/
theorem Ledger.overwrite_current_eq_some {l : Ledger} {pid i : ℕ} {conn : Connection} :
    (l.overwrite pid).current i = some conn ↔ i ≠ pid ∧ l.current i = some conn := by
  change Function.update l.current pid none i = some conn ↔ _
  by_cases hi : i = pid
  · simp [hi]
  · simp [hi]

/-- What the entries hold after a connection has been stored in one of them. -/
theorem Ledger.store_current_eq_some {l : Ledger} {pid i : ℕ} {conn other : Connection} :
    (l.store pid (some conn)).current i = some other ↔
      i = pid ∧ other = conn ∨ i ≠ pid ∧ l.current i = some other := by
  change Function.update l.current pid (some conn) i = some other ↔ _
  by_cases hi : i = pid
  · simp [hi, eq_comm]
  · simp [hi]

/-- An entry that holds nothing has nothing to lose. -/
theorem Ledger.overwrite_none {l : Ledger} {pid : ℕ} (hnone : l.current pid = none) : l.overwrite pid = l := by
  rw [Ledger.overwrite, ← hnone, Function.update_eq_self, hnone]
  exact congrArg (Ledger.mk l.current) (List.append_nil l.events)

/-- What an entry held is overwritten. -/
theorem Ledger.overwrite_some {l : Ledger} {pid : ℕ} {old : Connection} (hold : l.current pid = some old) :
    (l.overwrite pid).events = l.events ++ [.overwritten old] := by
  rw [Ledger.overwrite, hold]
  rfl

/-- What has happened after one more event. -/
theorem Ledger.mem_add_singleton {l : Ledger} {e e' : FdEvent} :
    e' ∈ (l.add [e]).events ↔ e' ∈ l.events ∨ e = e' := by
  simp [Ledger.add, eq_comm]

/-- What has happened after a connection has been stored. -/
theorem Ledger.mem_store {l : Ledger} {pid : ℕ} {conn : Connection} {e : FdEvent} :
    e ∈ (l.store pid (some conn)).events ↔ e ∈ l.events ∨ .opened pid conn = e := by
  simp [Ledger.store, eq_comm]

/-- `socket` makes a connection that is open, and under a number that was not used so often before. -/
theorem Kernel.made_of_socket {k k' : Kernel} {pid : ℕ} {fd : ℤ} (h : k.socket pid fd = some k') :
    k.made fd = none ∧ k' = k ∨ ∃ conn, k.made fd = some conn ∧ conn.fd = fd ∧ k.isOpen fd = false ∧
      k.opened fd < conn.opening ∧ k'.Has conn ∧ (∀ x, k.opened x ≤ k'.opened x) ∧
      ∀ other, other ≠ fd → k'.isOpen other = k.isOpen other ∧ k'.opened other = k.opened other := by
  rcases Kernel.socket_eq_some h with ⟨hfails, rfl⟩ | ⟨hmade, hclosed, rfl⟩
  · exact Or.inl ⟨if_pos hfails, rfl⟩
  · refine Or.inr ⟨_, if_neg (by omega), rfl, hclosed, Nat.lt_succ_self _, ⟨Function.update_self .., ?_⟩,
      fun x => ?_, fun other hother => ⟨Function.update_of_ne hother .., Function.update_of_ne hother ..⟩⟩
    · exact Function.update_self ..
    · change k.opened x ≤ Function.update k.opened fd (k.opened fd + 1) x
      by_cases hx : x = fd
      · rw [hx, Function.update_self]
        exact Nat.le_succ _
      · rw [Function.update_of_ne hx]

/-- Events happen one after the other. -/
theorem Ledger.add_cons (l : Ledger) (e : FdEvent) (events : List FdEvent) :
    l.add (e :: events) = (l.add [e]).add events := by
  simp [Ledger.add]

/-- Nothing more happens. -/
theorem Ledger.add_nil (l : Ledger) : l.add [] = l := by
  simp [Ledger.add]

/-- What has happened stays in the ledger. -/
theorem Ledger.recreate_events (l : Ledger) (k : Kernel) (pid fd : ℤ) :
    l.events <+: (l.recreate k pid fd).events :=
  (List.prefix_append l.events _).trans (List.prefix_append _ _)

/-- The same for `connect`. -/
theorem Ledger.connect_events (l : Ledger) (s : Shared F P) (pid : ℤ) (connected : Bool) :
    l.events <+: (l.connect s pid connected).events := by
  unfold Ledger.connect
  split
  · exact List.prefix_append _ _
  · exact List.prefix_refl _

/-- The same for a step of a receive worker. -/
theorem Ledger.recv_events (l : Ledger) (s : Shared F P) (c : Con) (w : RecvWorker) (a : RecvAction) :
    l.events <+: (l.recv s c w a).events := by
  cases a with
  | recreate fd => exact l.recreate_events s.kernel c.peerId fd
  | connect connected =>
    simp only [Ledger.recv]
    split
    · next pid _ => exact l.connect_events s pid connected
    · exact List.prefix_refl _
  | finish results =>
    simp only [Ledger.recv]
    split
    · exact List.prefix_append _ _
    · exact List.prefix_refl _
  | call | close => exact List.prefix_append _ _
  | test | lock | remId | dispatched | clear => exact List.prefix_refl _

/-- The same for a step of a send worker. -/
theorem Ledger.send_events (l : Ledger) (s : Shared F P) (c : Con) (w : SendWorker) (a : SendAction) :
    l.events <+: (l.send s c w a).events := by
  cases a with
  | recreate fd => exact l.recreate_events s.kernel c.peerId fd
  | connect connected =>
    simp only [Ledger.send]
    split
    · next pid _ => exact l.connect_events s pid connected
    · exact List.prefix_refl _
  | send r =>
    simp only [Ledger.send]
    split
    · exact List.prefix_append _ _
    · exact List.prefix_refl _
  | test | wake | checkState | lock | pop | start | failed | free => exact List.prefix_refl _

/-- What a step does to the system and its ledger. -/
theorem watchStep_eq_some {w w' : Watched F P} {a : Action F P} (h : watchStep w a = some w') :
    sysStep w.sys a = some w'.sys ∧ w'.ledger = w.ledger.after w.sys a := by
  obtain ⟨s, hstep, rfl⟩ := Option.map_eq_some_iff.mp h
  exact ⟨hstep, rfl⟩

/-- A step of a receive worker and what it does to descriptors. -/
theorem watchStep_recv {w w' : Watched F P} {i : ℕ} {a : RecvAction} (h : watchStep w (.recv i a) = some w') :
    ∃ c shared r, w.sys.shared.gconnList[i]? = some c ∧ RecvStep w.sys.shared i c (w.sys.recv i) a shared r ∧
      w' = ⟨{ w.sys with shared := shared, recv := Function.update w.sys.recv i r },
        w.ledger.recv w.sys.shared c (w.sys.recv i) a⟩ := by
  obtain ⟨s, hstep, rfl⟩ := Option.map_eq_some_iff.mp h
  obtain ⟨c, shared, r, hc, hworker, rfl⟩ := sysStep_recv hstep
  refine ⟨c, shared, r, hc, hworker, ?_⟩
  simp only [Ledger.after, hc]

/-- A step of a send worker and what it does to descriptors. -/
theorem watchStep_send {w w' : Watched F P} {i : ℕ} {a : SendAction} (h : watchStep w (.send i a) = some w') :
    ∃ c shared r, w.sys.shared.gconnList[i]? = some c ∧ SendStep w.sys.shared i c (w.sys.send i) a shared r ∧
      w' = ⟨{ w.sys with shared := shared, send := Function.update w.sys.send i r },
        w.ledger.send w.sys.shared c (w.sys.send i) a⟩ := by
  obtain ⟨s, hstep, rfl⟩ := Option.map_eq_some_iff.mp h
  obtain ⟨c, shared, r, hc, hworker, rfl⟩ := sysStep_send hstep
  refine ⟨c, shared, r, hc, hworker, ?_⟩
  simp only [Ledger.after, hc]

/-- Clients and the sweep touch neither the entries nor descriptors. -/
theorem watchStep_client {w w' : Watched F P} {a : Action F P} (h : watchStep w a = some w')
    (hrecv : ∀ i b, a ≠ .recv i b) (hsend : ∀ i b, a ≠ .send i b) :
    w'.sys.shared.gconnList = w.sys.shared.gconnList ∧ w'.sys.shared.kernel = w.sys.shared.kernel ∧
      w'.sys.shared.conntex = w.sys.shared.conntex ∧ w'.ledger = w.ledger ∧ w'.sys.recv = w.sys.recv ∧
      ∀ i, w'.sys.send i = w.sys.send i ∨
        (w.sys.send i).pc = .waiting ∧ w'.sys.send i = { w.sys.send i with pc := .test } := by
  obtain ⟨hstep, hledger⟩ := watchStep_eq_some h
  obtain ⟨store, hshared⟩ := sysStep_client_shared hstep hrecv hsend
  refine ⟨by rw [hshared], by rw [hshared], by rw [hshared], ?_, sysStep_recv_eq hstep hrecv,
    sysStep_send_eq hstep hsend⟩
  cases a with
  | recv i b => exact absurd rfl (hrecv i b)
  | send i b => exact absurd rfl (hsend i b)
  | append | signal | sweep => exact hledger

/-- The state of an entry is its own. -/
theorem peerUp_setState {gconnList : List Con} {i j : ℕ} {state : ℤ} (hij : i ≠ j) :
    PeerUp (setState gconnList i state) j ↔ PeerUp gconnList j := by
  rw [PeerUp, PeerUp, getElem?_setState]
  simp [hij]

/-- The descriptor of an entry is not its state. -/
theorem peerUp_setFd {gconnList : List Con} {i j : ℕ} {fd : ℤ} :
    PeerUp (setFd gconnList i fd) j ↔ PeerUp gconnList j := by
  rw [PeerUp, PeerUp, getElem?_setFd]
  cases gconnList[j]? with
  | none => rfl
  | some c => by_cases hij : i = j <;> simp [hij]

/-- An entry is up once its state is set to 1. -/
theorem peerUp_of_setState {gconnList : List Con} {i j : ℕ} (h : PeerUp gconnList j) :
    PeerUp (setState gconnList i 1) j := by
  obtain ⟨c, hc, hstate⟩ := h
  by_cases hij : i = j
  · exact ⟨{ c with state := 1 }, by rw [getElem?_setState, hc, Option.map_some, if_pos hij], rfl⟩
  · exact (peerUp_setState hij).mpr ⟨c, hc, hstate⟩

/-- The entries of the peers that `create_peers` has reached are all there are. -/
theorem Ledger.create_listed {l : Ledger} {done : List Con} (start : PeerStart) (k : Kernel) (c : Con)
    (hlisted : ∀ j conn, l.current j = some conn → j < done.length) (j : ℕ) (conn : Connection)
    (hj : (l.create done.length start k).current j = some conn) : j < (done ++ [c]).length := by
  rw [List.length_append, List.length_singleton]
  by_cases hlast : j = done.length
  · omega
  · change Function.update l.current done.length _ j = some conn at hj
    rw [Function.update_of_ne hlast] at hj
    have hlt := hlisted j conn hj
    omega

end TcpClb
