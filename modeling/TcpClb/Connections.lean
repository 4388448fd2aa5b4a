import TcpClb.Common.CText
import TcpClb.Records
import Mathlib.Logic.Function.Basic

/-!
# Opening connections

`create_peers` and `recreate_conn` of `task.c`. The number that `socket` returns and whether
`connect` succeeds are inputs; the kernel never returns a number that is open. A connection is told
apart from later ones on the same number by counting how often the number has been returned. A socket
is created for one peer, whose address `connect` is given.

Names are resolved, and socket options set, without failure. `connect` on a number that is not
open, after a `close` or a failed `socket`, is left to succeed or fail.
-/

namespace TcpClb

open TcpClb.Common

/-- The open descriptors, how often `socket` has returned each number, and for which peer it did last. -/
structure Kernel where
  isOpen : ℤ → Bool
  opened : ℤ → ℕ
  peer : ℤ → Option ℕ

/-- A connection: its descriptor, and which opening of that number it is. -/
structure Connection where
  fd : ℤ
  opening : ℕ
  deriving DecidableEq

/-- Nothing has been opened. -/
def Kernel.initial : Kernel := ⟨fun _ => false, fun _ => 0, fun _ => none⟩

/-- `socket` returning `fd` for a connection to a peer, negative if it fails. -/
def Kernel.socket (k : Kernel) (pid : ℕ) (fd : ℤ) : Option Kernel :=
  if fd < 0 then some k
  else if k.isOpen fd then none
  else some ⟨Function.update k.isOpen fd true, Function.update k.opened fd (k.opened fd + 1),
    Function.update k.peer fd (some pid)⟩

/-- `close`. -/
def Kernel.close (k : Kernel) (fd : ℤ) : Kernel := { k with isOpen := Function.update k.isOpen fd false }

/-- The connection that a descriptor stands for at the moment. -/
def Kernel.connection (k : Kernel) (fd : ℤ) : Connection := ⟨fd, k.opened fd⟩

/-- `char sndbuf[5]`. -/
def sndbufSize : ℕ := 5

/-- `sprintf(sndbuf, "%d", port)` stays inside `sndbuf`. -/
def EndPeers.PortFits (peer : EndPeers) : Prop := (printPadded 0 peer.port).length < sndbufSize

instance (peer : EndPeers) : Decidable peer.PortFits := Nat.decLt _ _

/-- What the calls for one peer return: `socket`, the first `connect` and the second. -/
structure PeerStart where
  fd : ℤ
  connected : Bool
  retried : Bool

/-- The peer is connected to in the end. -/
def PeerStart.Succeeds (start : PeerStart) : Prop := start.connected = true ∨ start.retried = true

/-- One round of `create_peers`. The entry of a peer that is not connected keeps the zeros of
`calloc`. -/
def createPeer (peer : EndPeers) (i : ℕ) (start : PeerStart) (k : Kernel) : Option (Con × Kernel) :=
  if peer.PortFits then
    (k.socket i start.fd).bind fun k =>
      -- `exit(1)`
      if start.fd < 0 then none
      else if start.connected then some (⟨start.fd, 1, i⟩, k)
      else if start.retried then some (⟨start.fd, 1, i⟩, k.close start.fd)
      else some (⟨0, 0, 0⟩, k.close start.fd)
  else none

/-- The loop of `create_peers` from peer `i` on. -/
def createPeersFrom (start : ℕ → PeerStart) : ℕ → List EndPeers → Kernel → Option (List Con × Kernel)
  | _, [], k => some ([], k)
  | i, peer :: peers, k => do
    let first ← createPeer peer i (start i) k
    let others ← createPeersFrom start (i + 1) peers first.2
    some (first.1 :: others.1, others.2)

/-- `create_peers`. -/
def createPeers (cfg : Configurator) (start : ℕ → PeerStart) : Option (List Con × Kernel) :=
  createPeersFrom start 0 cfg.peers .initial

/-- Assign to the state of an entry of `gconn_list`. -/
def setState (gconnList : List Con) (i : ℕ) (state : ℤ) : List Con :=
  gconnList.modify i fun c => { c with state := state }

/-- Assign to the descriptor of an entry of `gconn_list`. -/
def setFd (gconnList : List Con) (i : ℕ) (fd : ℤ) : List Con :=
  gconnList.modify i fun c => { c with fd := fd }

/-- `recreate_conn` up to the call of `socket`, which returns `fd`. The index has to be that of a
configured peer. -/
def recreateSocket (cfg : Configurator) (gconnList : List Con) (k : Kernel) (pid fd : ℤ) :
    Option (List Con × Kernel) :=
  match pid with
  | .negSucc _ => none
  | .ofNat pid => do
    let peer ← cfg.peers[pid]?
    if peer.PortFits then do
      let k ← k.socket pid fd
      some (setFd (setState gconnList pid 0) pid fd, k)
    else none

/-- `recreate_conn` from the return of `connect` on. -/
def recreateConnect (gconnList : List Con) (pid : ℤ) (connected : Bool) : List Con :=
  if connected then setState gconnList pid.toNat 1 else gconnList

/-- What `socket` does, if it returns. -/
theorem Kernel.socket_eq_some {k k' : Kernel} {pid : ℕ} {fd : ℤ} (h : k.socket pid fd = some k') :
    fd < 0 ∧ k' = k ∨ 0 ≤ fd ∧ k.isOpen fd = false ∧
      k' = ⟨Function.update k.isOpen fd true, Function.update k.opened fd (k.opened fd + 1),
        Function.update k.peer fd (some pid)⟩ := by
  unfold Kernel.socket at h
  split at h
  · next hfails =>
    exact Or.inl ⟨hfails, (Option.some.inj h).symm⟩
  · next hmade =>
    obtain ⟨hclosed, h⟩ := Option.ite_none_left_eq_some.mp h
    exact Or.inr ⟨by omega, Bool.eq_false_iff.mpr hclosed, (Option.some.inj h).symm⟩

/-- What `recreate_conn` needs up to the call of `socket`, and what it does. -/
theorem recreateSocket_eq_some {cfg : Configurator} {gconnList made : List Con} {k k' : Kernel} {pid fd : ℤ}
    (h : recreateSocket cfg gconnList k pid fd = some (made, k')) : ∃ p : ℕ, pid = p ∧
      k.socket p fd = some k' ∧ made = setFd (setState gconnList p 0) p fd := by
  cases pid with
  | negSucc => cases h
  | ofNat p =>
    obtain ⟨peer, _, h⟩ := Option.bind_eq_some_iff.mp h
    obtain ⟨_, h⟩ := Option.ite_none_right_eq_some.mp h
    obtain ⟨opened, hsocket, h⟩ := Option.bind_eq_some_iff.mp h
    cases h
    exact ⟨p, rfl, hsocket, rfl⟩

/-- Assigning to the state of an entry changes that entry only. -/
theorem getElem?_setState (gconnList : List Con) (i j : ℕ) (state : ℤ) : (setState gconnList i state)[j]? =
    gconnList[j]?.map fun c => if i = j then { c with state := state } else c := by
  rw [setState, List.getElem?_modify, Option.map_eq_map]

/-- Assigning to the descriptor of an entry changes that entry only. -/
theorem getElem?_setFd (gconnList : List Con) (i j : ℕ) (fd : ℤ) : (setFd gconnList i fd)[j]? =
    gconnList[j]?.map fun c => if i = j then { c with fd := fd } else c := by
  rw [setFd, List.getElem?_modify, Option.map_eq_map]

/-- The entry that `create_peers` leaves for a peer. -/
def PeerStart.entry (start : PeerStart) (i : ℕ) : Con :=
  if start.connected || start.retried then ⟨start.fd, 1, i⟩ else ⟨0, 0, 0⟩

/-- A round of `create_peers` that returns fills in the entry if the peer is connected to. -/
theorem createPeer_entry {peer : EndPeers} {i : ℕ} {start : PeerStart} {k k' : Kernel} {c : Con}
    (h : createPeer peer i start k = some (c, k')) : peer.PortFits ∧ c = start.entry i := by
  unfold createPeer at h
  split at h
  · next hfits =>
    obtain ⟨k, _, h⟩ := Option.bind_eq_some_iff.mp h
    refine ⟨hfits, ?_⟩
    rw [PeerStart.entry]
    obtain ⟨_, h⟩ := Option.ite_none_left_eq_some.mp h
    by_cases hconnected : start.connected = true
    · rw [if_pos hconnected] at h
      cases h
      rw [hconnected, Bool.true_or, if_pos rfl]
    · rw [if_neg hconnected] at h
      rw [Bool.not_eq_true] at hconnected
      rw [hconnected, Bool.false_or]
      by_cases hretried : start.retried = true
      · rw [if_pos hretried] at h ⊢
        cases h
        rfl
      · rw [if_neg hretried] at h ⊢
        cases h
        rfl
  · cases h

/-- When `create_peers` returns, it has done so for every peer. -/
theorem createPeersFrom_entry {start : ℕ → PeerStart} {i : ℕ} {peers : List EndPeers} {k k' : Kernel}
    {gconnList : List Con} (h : createPeersFrom start i peers k = some (gconnList, k')) :
    (∀ peer ∈ peers, peer.PortFits) ∧ gconnList.length = peers.length ∧
      ∀ j < peers.length, gconnList[j]? = some ((start (i + j)).entry (i + j)) := by
  induction peers generalizing i k gconnList with
  | nil =>
    cases h
    exact ⟨fun _ h => absurd h List.not_mem_nil, rfl, fun _ h => absurd h (Nat.not_lt_zero _)⟩
  | cons peer peers ih =>
    obtain ⟨⟨c, k₁⟩, hfirst, h⟩ := Option.bind_eq_some_iff.mp h
    obtain ⟨⟨others, k₂⟩, hothers, h⟩ := Option.bind_eq_some_iff.mp h
    cases h
    obtain ⟨hfits, rfl⟩ := createPeer_entry hfirst
    obtain ⟨hall, hlen, hentry⟩ := ih hothers
    refine ⟨List.forall_mem_cons.mpr ⟨hfits, hall⟩, by simp [hlen], fun j hj => ?_⟩
    cases j with
    | zero => rfl
    | succ j =>
      have hnext := hentry j (Nat.lt_of_succ_lt_succ hj)
      rw [Nat.add_right_comm, Nat.add_assoc] at hnext
      exact hnext

end TcpClb
