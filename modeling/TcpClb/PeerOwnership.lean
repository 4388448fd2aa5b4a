import TcpClb.Common.Runs
import TcpClb.MessageQueuePop
import TcpClb.ThreadSteps

/-!
# Every worker pair on its own peer

The workers on entry `i` of `gconn_list` act for the peer that `peer_id` of the entry names, and
`create_peers` writes that number only after a `connect` that succeeds. So they keep to their own
entry, peer and messages in every run exactly if every peer but the first is connected to at the
start; the number of the first is the 0 that `calloc` leaves.

`send_to_fd` is given the descriptor of the entry once. If the receive worker reconnects meanwhile, it
goes on writing to a number that is no longer that of the entry.
-/

namespace TcpClb

open TcpClb.Common

variable {F P : Type}

/-- The effect is on entry `i`, its peer or messages for it, or bytes are written to its descriptor. -/
def Effect.Own (i : ℕ) : Effect → Prop
  | .recreated pid => pid = i
  | .assigned pid => pid = i
  | .took conn => conn = i
  | .wrote call current => call.conn.fd = current

/-- All that a worker has reconnected, assigned to, popped for or written to belongs to its pair. -/
def System.Owned (s : System F P) : Prop := ∀ e ∈ s.shared.effects, e.2.Own e.1

/-- The worker pair that an action is a step of. -/
def Action.pair : Action F P → Option ℕ
  | .recv i _ => some i
  | .send i _ => some i
  | _ => none

/-- An entry is changed by the workers of its own pair only. -/
def Action.LeavesOthers (s : System F P) (a : Action F P) : Prop :=
  ∀ s', sysStep s a = some s' → ∀ j, a.pair ≠ some j → s'.shared.gconnList[j]? = s.shared.gconnList[j]?

/-- Along the run every worker keeps to the peer, the messages and the entry of its pair. -/
def KeepsToOwnPeer (s : System F P) (acts : List (Action F P)) : Prop :=
  Throughout sysStep System.Owned s acts ∧ EachStep sysStep (fun s a => a.LeavesOthers s) s acts

/-- The receive worker of an entry does not reconnect while the send worker is in `send_to_fd`. -/
def Action.SparesSending (s : System F P) : Action F P → Prop
  | .recv i (.recreate _) => ∀ part x fd rest, (s.send i).pc ≠ .sending part x fd rest
  | _ => True

/-- What a worker of pair `i` may do to the entries: it changes its own, but not the peer that it
names. -/
structure Shared.OwnChange (i : ℕ) (s s' : Shared F P) : Prop where
  others : ∀ j, j ≠ i → s'.gconnList[j]? = s.gconnList[j]?
  peerIds : s'.gconnList.map Con.peerId = s.gconnList.map Con.peerId

/-- All new effects are those of a worker of pair `i` on what belongs to the pair. -/
def Shared.AddsOwn (i : ℕ) (s s' : Shared F P) : Prop := ∀ e ∈ s'.effects, e ∈ s.effects ∨ e.1 = i ∧ e.2.Own i

/-- Every entry names the peer it stands for, and every worker in `recreate_conn` has passed it that
number. -/
structure System.Tied (s : System F P) : Prop where
  peerId : ∀ (i : ℕ) (c : Con), s.shared.gconnList[i]? = some c → c.peerId = i
  recv : ∀ i pid, (s.recv i).pc = .connect pid → pid = i
  send : ∀ i pid, (s.send i).pc = .connect pid → pid = i

/-- A worker in `send_to_fd` has the descriptor of its entry. -/
def System.SendsToEntry (s : System F P) : Prop :=
  ∀ (i : ℕ) (c : Con) part x fd rest, s.shared.gconnList[i]? = some c →
    (s.send i).pc = .sending part x fd rest → fd = c.fd

/-- Every worker pair has kept to its own peer so far, and is about to. -/
structure System.Keeping (s : System F P) : Prop where
  tied : s.Tied
  sending : s.SendsToEntry
  owned : s.Owned

/-- What a change of an entry keeps of every entry, it keeps of the list. -/
theorem map_modify_eq {α β : Type*} {f : α → α} {g : α → β} (hf : ∀ x, g (f x) = g x) (xs : List α) (i : ℕ) :
    (xs.modify i f).map g = xs.map g := by
  apply List.ext_getElem?
  intro j
  rw [List.getElem?_map, List.getElem?_map, List.getElem?_modify]
  cases xs[j]? with
  | none => rfl
  | some x => by_cases hj : i = j <;> simp [hj, hf]

/-- A step may leave the entries as they are. -/
theorem Shared.OwnChange.of_eq {i : ℕ} {s s' : Shared F P} (hlist : s'.gconnList = s.gconnList) :
    OwnChange i s s' where
  others _ _ := by rw [hlist]
  peerIds := by rw [hlist]

/-- One change after the other. -/
theorem Shared.OwnChange.trans {i : ℕ} {s s' s'' : Shared F P} (h : OwnChange i s s')
    (h' : OwnChange i s' s'') : OwnChange i s s'' where
  others j hj := (h'.others j hj).trans (h.others j hj)
  peerIds := h'.peerIds.trans h.peerIds

/-- The entry of the pair is changed, but not the peer that it names. -/
theorem Shared.OwnChange.modify {i : ℕ} {s s' : Shared F P} {f : Con → Con}
    (hf : ∀ c, (f c).peerId = c.peerId) (hlist : s'.gconnList = s.gconnList.modify i f) :
    OwnChange i s s' where
  others j hj := by rw [hlist, List.getElem?_modify_ne f s.gconnList hj.symm]
  peerIds := by rw [hlist, map_modify_eq hf]

/-- The state of the entry is changed. -/
theorem Shared.OwnChange.assignState {i : ℕ} {s s' : Shared F P} {state : ℤ}
    (hlist : s'.gconnList = setState s.gconnList i state) : OwnChange i s s' :=
  .modify (f := fun c => { c with state := state }) (fun _ => rfl) hlist

/-- The descriptor of the entry is changed. -/
theorem Shared.OwnChange.assignFd {i : ℕ} {s s' : Shared F P} {fd : ℤ}
    (hlist : s'.gconnList = setFd s.gconnList i fd) : OwnChange i s s' :=
  .modify (f := fun c => { c with fd := fd }) (fun _ => rfl) hlist

/-- `recreate_conn` of the peer of the pair, up to `socket`. -/
theorem Shared.OwnChange.recreate {s s' : Shared F P} {i : ℕ} {fd : ℤ}
    (hrecreate : s.recreate i i fd = some s') : OwnChange i s s' := by
  obtain ⟨⟨gconnList, kernel⟩, hmade, rfl⟩ := Option.map_eq_some_iff.mp hrecreate
  obtain ⟨p, hp, _, rfl⟩ := recreateSocket_eq_some hmade
  obtain rfl : i = p := Int.ofNat.inj hp
  have hstate : OwnChange i s { s with gconnList := setState s.gconnList i 0 } := .assignState rfl
  exact hstate.trans (.assignFd rfl)

/-- `recreate_conn` of the peer of the pair, from `connect` on. -/
theorem Shared.OwnChange.connect (s : Shared F P) (i : ℕ) (connected : Bool) :
    OwnChange i s (s.connect i i connected) := by
  cases connected with
  | false => exact .of_eq rfl
  | true => exact .assignState rfl

/-- `c->state = 0`. -/
theorem Shared.OwnChange.clear (s : Shared F P) (i : ℕ) : OwnChange i s (s.clear i) := .assignState rfl

/-- A step may have no effects. -/
theorem Shared.AddsOwn.of_eq {i : ℕ} {s s' : Shared F P} (heffects : s'.effects = s.effects) : AddsOwn i s s' :=
  fun _ he => .inl (heffects ▸ he)

/-- One effect of the pair after others of it. -/
theorem Shared.AddsOwn.record {i : ℕ} {s s' : Shared F P} (h : AddsOwn i s s') {e : Effect} (he : e.Own i) :
    AddsOwn i s (s'.record i e) := by
  intro e' he'
  change e' ∈ s'.effects ++ [(i, e)] at he'
  rcases List.mem_append.mp he' with hold | hnew
  · exact h e' hold
  · rw [List.mem_singleton] at hnew
    exact Or.inr ⟨hnew ▸ rfl, hnew ▸ he⟩

/-- `recreate_conn` of the peer of the pair has effects on the pair's entry. -/
theorem Shared.AddsOwn.recreate {s s' : Shared F P} {i : ℕ} {fd : ℤ} (hrecreate : s.recreate i i fd = some s') :
    AddsOwn i s s' := by
  obtain ⟨made, _, rfl⟩ := Option.map_eq_some_iff.mp hrecreate
  have hnone : AddsOwn i s { s with gconnList := made.1, kernel := made.2 } := .of_eq rfl
  have hrecreated : AddsOwn i s _ := hnone.record (e := .recreated i) rfl
  exact hrecreated.record (e := .assigned i) rfl

/-- So has its end. -/
theorem Shared.AddsOwn.connect (s : Shared F P) (i : ℕ) (connected : Bool) :
    AddsOwn i s (s.connect i i connected) := by
  have hnone : AddsOwn i s { s with
      gconnList := recreateConnect s.gconnList i connected
      conntex := false } := .of_eq rfl
  cases connected with
  | false => exact hnone
  | true => exact hnone.record (e := .assigned i) rfl

/-- So has `c->state = 0`. -/
theorem Shared.AddsOwn.clear (s : Shared F P) (i : ℕ) : AddsOwn i s (s.clear i) := by
  have hnone : AddsOwn i s { s with gconnList := setState s.gconnList i 0 } := .of_eq rfl
  exact hnone.record (e := .assigned i) rfl

/-- After a message a receive worker is not in `recreate_conn`. -/
theorem switchRc_ne_connect (conn : Connection) (received : Received) (rc pid : ℤ) :
    switchRc conn received rc ≠ .connect pid := by
  rcases switchRc_cases conn received rc with h | h | ⟨message, h⟩ <;> simp [h]

/-- In the middle of a message a send worker is not in `recreate_conn`. -/
theorem sendingOrNext_ne_connect (part : Part) (x : Transfer) (fd : ℤ) (rest : List Char) (pid : ℤ) :
    sendingOrNext part x fd rest ≠ .connect pid := by
  rcases sendingOrNext_cases part x fd rest with ⟨-, h⟩ | h | h <;> simp [h]

/-- A receive worker keeps to the entry whose peer number is its own. -/
theorem RecvStep.own {s s' : Shared F P} {i : ℕ} {c : Con} {w w' : RecvWorker} {a : RecvAction}
    (hstep : RecvStep s i c w a s' w') (hpeer : c.peerId = i) (hpc : ∀ pid, w.pc = .connect pid → pid = i) :
    s.OwnChange i s' ∧ s.AddsOwn i s' ∧ ∀ pid, w'.pc = .connect pid → pid = i := by
  cases hstep with
  | test htest =>
    refine ⟨.of_eq rfl, .of_eq rfl, fun pid h => ?_⟩
    split at h <;> cases h
  | recreate hrecreate hafter =>
    rw [hpeer] at hafter
    exact ⟨.recreate hafter, .recreate hafter, fun pid h => (RecvPc.connect.inj h).symm.trans hpeer⟩
  | connect connected hconnect =>
    rw [hpc _ hconnect]
    exact ⟨.connect s i connected, .connect s i connected, nofun⟩
  | finish hreceiving hreceive =>
    exact ⟨.of_eq rfl, .of_eq rfl, fun pid => (absurd · (switchRc_ne_connect _ _ _ pid))⟩
  | remId tid hdispatch => exact ⟨.of_eq rfl, .of_eq rfl, hpc⟩
  | clear hclear => exact ⟨.clear s i, .clear s i, nofun⟩
  | lock | call | dispatched | close => exact ⟨.of_eq rfl, .of_eq rfl, nofun⟩

/-- A send worker keeps to the entry whose peer number is its own. -/
theorem SendStep.own {s s' : Shared F P} {i : ℕ} {c : Con} {w w' : SendWorker} {a : SendAction}
    (hstep : SendStep s i c w a s' w') (hpeer : c.peerId = i) (hpc : ∀ pid, w.pc = .connect pid → pid = i) :
    s.OwnChange i s' ∧ ∀ pid, w'.pc = .connect pid → pid = i := by
  cases hstep with
  | recreate hrecreate hafter =>
    rw [hpeer] at hafter
    exact ⟨.recreate hafter, fun pid h => (SendPc.connect.inj h).symm.trans hpeer⟩
  | connect connected hconnect =>
    rw [hpc _ hconnect]
    exact ⟨.connect s i connected, nofun⟩
  | start hstart htext => exact ⟨.of_eq rfl, fun pid => (absurd · (sendingOrNext_ne_connect _ _ _ _ pid))⟩
  | send hsending hsend => exact ⟨.of_eq rfl, fun pid => (absurd · (sendingOrNext_ne_connect _ _ _ _ pid))⟩
  | @failed part x hfailed =>
    refine ⟨.clear s i, fun pid h => ?_⟩
    cases part <;> cases h
  | wait | goOn | wake | up | down | lock | popNone | pop | sendFails | free => exact ⟨.of_eq rfl, nofun⟩

/-- Its effects belong to the pair, if it has the descriptor of the entry while it is in `send_to_fd`. -/
theorem SendStep.addsOwn {s s' : Shared F P} {i : ℕ} {c : Con} {w w' : SendWorker} {a : SendAction}
    (hstep : SendStep s i c w a s' w') (hpeer : c.peerId = i) (hpc : ∀ pid, w.pc = .connect pid → pid = i)
    (hfd : ∀ part x fd rest, w.pc = .sending part x fd rest → fd = c.fd) : s.AddsOwn i s' := by
  cases hstep with
  | recreate hrecreate hafter =>
    rw [hpeer] at hafter
    exact .recreate hafter
  | connect connected hconnect =>
    rw [hpc _ hconnect]
    exact .connect s i connected
  | @pop q node cell hpop htaken hcell =>
    have hown : cell.val.conn = i := (popFromMsgq_conn htaken hcell).trans hpeer
    have hqueue : s.AddsOwn i { s with store := { s.store with gmsgq := q } } := .of_eq rfl
    exact hqueue.record (e := .took cell.val.conn) hown
  | @sendFails part x fd rest r hsending hsend =>
    exact Shared.AddsOwn.record (.of_eq rfl) (e := .wrote _ _) (hfd part x fd rest hsending)
  | @send part x fd rest left r hsending hsend =>
    exact Shared.AddsOwn.record (.of_eq rfl) (e := .wrote _ _) (hfd part x fd rest hsending)
  | failed hfailed => exact .clear s i
  | wait | goOn | wake | up | down | lock | popNone | start | free => exact .of_eq rfl

/-- Only `recreate_conn` replaces the descriptor of an entry. -/
theorem RecvStep.fds {s s' : Shared F P} {i : ℕ} {c : Con} {w w' : RecvWorker} {a : RecvAction}
    (hstep : RecvStep s i c w a s' w') (ha : ∀ fd, a ≠ .recreate fd) :
    s'.gconnList.map Con.fd = s.gconnList.map Con.fd := by
  have hstate (p : ℕ) (state : ℤ) : (setState s.gconnList p state).map Con.fd = s.gconnList.map Con.fd :=
    map_modify_eq (f := fun c => { c with state := state }) (fun _ => rfl) s.gconnList p
  cases hstep with
  | recreate => exact absurd rfl (ha _)
  | connect connected hconnect =>
    cases connected with
    | false => rfl
    | true => exact hstate _ 1
  | clear => exact hstate i 0
  | test | lock | call | finish | remId | dispatched | close => rfl

/-- A worker that is in `send_to_fd` after a step has the descriptor of the entry, if it had it before. -/
theorem SendStep.sendsToEntry {s s' : Shared F P} {i : ℕ} {c : Con} {w w' : SendWorker} {a : SendAction}
    (hstep : SendStep s i c w a s' w') (hfd : ∀ part x fd rest, w.pc = .sending part x fd rest → fd = c.fd)
    {part : Part} {x : Transfer} {fd : ℤ} {rest : List Char} (hpc : w'.pc = .sending part x fd rest) :
    s'.gconnList = s.gconnList ∧ fd = c.fd := by
  have hgoesOn {part' : Part} {x' : Transfer} {fd' : ℤ} {rest' : List Char}
      (h : sendingOrNext part' x' fd' rest' = .sending part x fd rest) : fd = fd' := by
    rcases sendingOrNext_cases part' x' fd' rest' with ⟨-, hsending⟩ | hbody | hfree
    · rw [hsending] at h
      cases h
      rfl
    · rw [hbody] at h
      cases h
    · rw [hfree] at h
      cases h
  cases hstep with
  | start hstart htext => exact ⟨rfl, hgoesOn hpc⟩
  | send hsending hsend => exact ⟨rfl, (hgoesOn hpc).trans (hfd _ _ _ _ hsending)⟩
  | @failed part x hfailed => cases part <;> cases hpc
  | wait | goOn | wake | up | down | lock | recreate | connect | popNone | pop | sendFails | free => cases hpc

/-- Entries name the same peers as before. -/
theorem Shared.OwnChange.peerId {i : ℕ} {s s' : Shared F P} (h : OwnChange i s s')
    (hs : ∀ (j : ℕ) (c : Con), s.gconnList[j]? = some c → c.peerId = j) (j : ℕ) (c : Con)
    (hc : s'.gconnList[j]? = some c) : c.peerId = j := by
  have hsame := congrArg (·[j]?) h.peerIds
  simp only [List.getElem?_map, hc, Option.map_some] at hsame
  obtain ⟨c', hc', hpeer⟩ := Option.map_eq_some_iff.mp hsame.symm
  rw [← hpeer, hs j c' hc']

/-- Entries have the same descriptors as before, if the list of descriptors is the same. -/
theorem exists_entry_of_fds {s s' : Shared F P} (hfds : s'.gconnList.map Con.fd = s.gconnList.map Con.fd)
    {i : ℕ} {c : Con} (hc : s'.gconnList[i]? = some c) : ∃ c', s.gconnList[i]? = some c' ∧ c'.fd = c.fd := by
  have hsame := congrArg (·[i]?) hfds
  simp only [List.getElem?_map, hc, Option.map_some] at hsame
  exact Option.map_eq_some_iff.mp hsame.symm

/-- What a worker pair adds belongs to the pair. -/
theorem Shared.AddsOwn.owned {i : ℕ} {s s' : Shared F P} (h : AddsOwn i s s')
    (hs : ∀ e ∈ s.effects, e.2.Own e.1) (e : ℕ × Effect) (he : e ∈ s'.effects) : e.2.Own e.1 := by
  rcases h e he with hold | ⟨hpair, hown⟩
  · exact hs e hold
  · rw [hpair]
    exact hown

/-- What a worker pair may do to the memory leaves the entries of the others. -/
theorem Shared.OwnChange.leavesOthers {i : ℕ} {s s' : System F P} {a : Action F P}
    (h : OwnChange i s.shared s'.shared) (hpair : a.pair = some i) (hstep : sysStep s a = some s') :
    a.LeavesOthers s := by
  intro t ht j hj
  rw [hstep, Option.some.injEq] at ht
  rw [← ht]
  exact h.others j fun hi => hj (hi ▸ hpair)

/-- A step that is no worker's. -/
theorem Action.ne_of_pair {a : Action F P} (hpair : a.pair = none) :
    (∀ i b, a ≠ .recv i b) ∧ ∀ i b, a ≠ .send i b := by
  constructor
  · rintro i b rfl
    cases hpair
  · rintro i b rfl
    cases hpair

/-- A client or the sweep leaves the entries and the effects. -/
theorem sysStep_client_eq {s s' : System F P} {a : Action F P} (hpair : a.pair = none)
    (hstep : sysStep s a = some s') : s'.shared.gconnList = s.shared.gconnList ∧
      s'.shared.effects = s.shared.effects ∧ s'.recv = s.recv ∧
      ∀ i, s'.send i = s.send i ∨ s'.send i = { s.send i with pc := .test } := by
  obtain ⟨hrecv, hsend⟩ := Action.ne_of_pair hpair
  obtain ⟨store, hshared⟩ := sysStep_client_shared hstep hrecv hsend
  exact ⟨by rw [hshared], by rw [hshared], sysStep_recv_eq hstep hrecv,
    fun i => (sysStep_send_eq hstep hsend i).imp_right And.right⟩

/-- It leaves every worker pair on its own peer. -/
theorem sysStep_client_tied {s s' : System F P} {a : Action F P} (hpair : a.pair = none) (hs : s.Tied)
    (hstep : sysStep s a = some s') : a.LeavesOthers s ∧ s'.Tied := by
  obtain ⟨hlist, _, hrecv, hsend⟩ := sysStep_client_eq hpair hstep
  refine ⟨fun t ht j _ => ?_, fun i c hc => hs.peerId i c (hlist ▸ hc), fun i pid h => ?_, fun i pid h => ?_⟩
  · rw [hstep, Option.some.injEq] at ht
    rw [← ht, hlist]
  · rw [hrecv] at h
    exact hs.recv i pid h
  · rcases hsend i with hsame | hwoken
    · exact hs.send i pid (hsame ▸ h)
    · rw [hwoken] at h
      cases h

/-- A step keeps every worker pair on its own peer, and the entries of other pairs as they are. -/
theorem sysStep_tied {s s' : System F P} {a : Action F P} (hs : s.Tied) (hstep : sysStep s a = some s') :
    a.LeavesOthers s ∧ s'.Tied := by
  cases a with
  | recv i b =>
    obtain ⟨c, shared, w, hc, hworker, rfl⟩ := sysStep_recv hstep
    obtain ⟨hown, _, hpc⟩ := hworker.own (hs.peerId i c hc) (hs.recv i)
    refine ⟨hown.leavesOthers rfl hstep, hown.peerId hs.peerId, fun j pid h => ?_, hs.send⟩
    change (Function.update s.recv i w j).pc = _ at h
    by_cases hj : j = i
    · subst hj
      rw [Function.update_self] at h
      exact hpc pid h
    · rw [Function.update_of_ne hj] at h
      exact hs.recv j pid h
  | send i b =>
    obtain ⟨c, shared, w, hc, hworker, rfl⟩ := sysStep_send hstep
    obtain ⟨hown, hpc⟩ := hworker.own (hs.peerId i c hc) (hs.send i)
    refine ⟨hown.leavesOthers rfl hstep, hown.peerId hs.peerId, hs.recv, fun j pid h => ?_⟩
    change (Function.update s.send i w j).pc = _ at h
    by_cases hj : j = i
    · subst hj
      rw [Function.update_self] at h
      exact hpc pid h
    · rw [Function.update_of_ne hj] at h
      exact hs.send j pid h
  | append | signal | sweep => exact sysStep_client_tied rfl hs hstep

/-- A step of a receive worker that does not reconnect during `send_to_fd` leaves the send workers with the
descriptors of their entries. -/
theorem sysStep_recv_sendsToEntry {s : System F P} {i : ℕ} {b : RecvAction} {c : Con} {shared : Shared F P}
    {w : RecvWorker} (hs : s.SendsToEntry) (hworker : RecvStep s.shared i c (s.recv i) b shared w)
    (hown : s.shared.OwnChange i shared) (hspares : (Action.recv i b : Action F P).SparesSending s)
    (j : ℕ) (c' : Con) (part : Part) (x : Transfer) (fd : ℤ) (rest : List Char)
    (hc : shared.gconnList[j]? = some c') (hpc : (s.send j).pc = .sending part x fd rest) : fd = c'.fd := by
  by_cases hj : j = i
  · subst hj
    have hnot (n : ℤ) : b ≠ .recreate n := by
      rintro rfl
      exact hspares part x fd rest hpc
    obtain ⟨old, hold, hfd⟩ := exists_entry_of_fds (hworker.fds hnot) hc
    rw [← hfd]
    exact hs j old part x fd rest hold hpc
  · rw [hown.others j hj] at hc
    exact hs j c' part x fd rest hc hpc

/-- A step that does not reconnect during `send_to_fd` keeps every worker pair to its own. -/
theorem sysStep_keeping {s s' : System F P} {a : Action F P} (hs : s.Keeping) (ha : a.SparesSending s)
    (hstep : sysStep s a = some s') : s'.Keeping := by
  have htied := (sysStep_tied hs.tied hstep).2
  cases a with
  | recv i b =>
    obtain ⟨c, shared, w, hc, hworker, rfl⟩ := sysStep_recv hstep
    obtain ⟨hown, hadds, _⟩ := hworker.own (hs.tied.peerId i c hc) (hs.tied.recv i)
    have hsends := sysStep_recv_sendsToEntry hs.sending hworker hown ha
    exact ⟨htied, fun j c' part x fd rest hc' hpc => hsends j c' part x fd rest hc' hpc, hadds.owned hs.owned⟩
  | send i b =>
    obtain ⟨c, shared, w, hc, hworker, rfl⟩ := sysStep_send hstep
    have hfd (part : Part) (x : Transfer) (fd : ℤ) (rest : List Char) := hs.sending i c part x fd rest hc
    obtain ⟨hown, _⟩ := hworker.own (hs.tied.peerId i c hc) (hs.tied.send i)
    refine ⟨htied, fun j c' part x fd rest hc' hpc => ?_,
      (hworker.addsOwn (hs.tied.peerId i c hc) (hs.tied.send i) hfd).owned hs.owned⟩
    change (Function.update s.send i w j).pc = _ at hpc
    by_cases hj : j = i
    · subst hj
      rw [Function.update_self] at hpc
      obtain ⟨hlist, hsame⟩ := hworker.sendsToEntry hfd hpc
      change shared.gconnList[j]? = some c' at hc'
      rw [hlist, hc, Option.some.injEq] at hc'
      exact hc' ▸ hsame
    · rw [Function.update_of_ne hj] at hpc
      exact hs.sending j c' part x fd rest ((hown.others j hj).symm.trans hc') hpc
  | append | signal | sweep =>
    obtain ⟨hlist, heffects, _, hsend⟩ := sysStep_client_eq rfl hstep
    refine ⟨htied, fun i c part x fd rest hc hpc => ?_, fun e he => hs.owned e (heffects ▸ he)⟩
    rcases hsend i with hsame | hwoken
    · exact hs.sending i c part x fd rest (hlist ▸ hc) (hsame ▸ hpc)
    · rw [hwoken] at hpc
      cases hpc

/-- Every entry names its peer if all peers but the first have been connected to. -/
theorem PeerStart.entry_peerId {start : PeerStart} {i : ℕ} (h : 1 ≤ i → start.Succeeds) :
    (start.entry i).peerId = i := by
  unfold PeerStart.entry
  split
  · rfl
  · next hfails =>
    rw [Bool.or_eq_true] at hfails
    cases i with
    | zero => rfl
    | succ i => exact absurd (h (Nat.succ_pos i)) hfails

/-- Every worker pair keeps to its own peer in every run that does not reconnect during `send_to_fd`, if
the entries name their peers. -/
theorem System.Keeping.keepsToOwnPeer {s : System F P} (hs : s.Keeping) (acts : List (Action F P))
    (hall : EachStep sysStep (fun s a => a.SparesSending s) s acts) : KeepsToOwnPeer s acts :=
  ⟨throughout_of_eachStep sysStep (fun s a => a.SparesSending s) System.Keeping System.Owned
    (fun _ hs => hs.owned) (fun _ _ _ hs ha hstep => sysStep_keeping hs ha hstep) s acts hs hall,
    eachStep_of_invariant sysStep (fun s a => a.LeavesOthers s) System.Tied
      (fun _ _ _ hs hstep => sysStep_tied hs hstep) s acts hs.tied⟩

/-- The receive worker of a pair that finds its connection down, up to the return of `socket`. -/
def reconnectRun (i : ℕ) : List (Action F P) := [.recv i .test, .recv i .lock, .recv i (.recreate (-1))]

/-- The entry of a peer that has not been connected to makes its worker reconnect the first peer. -/
theorem reconnectRun_effects {cfg : Configurator} {gconnList : List Con} (kernel : Kernel)
    {i : ℕ} {peer : EndPeers} (hentry : gconnList[i]? = some ⟨0, 0, 0⟩) (hpeer : cfg.peers[0]? = some peer)
    (hfits : peer.PortFits) :
    ∃ final, runActions sysStep (System.start cfg gconnList kernel : System F P) (reconnectRun i) =
      some final ∧ (i, .recreated 0) ∈ final.shared.effects := by
  have hmade : recreateSocket cfg gconnList kernel 0 (-1) =
      some (setFd (setState gconnList 0 0) 0 (-1), kernel) := by
    change (cfg.peers[0]?.bind fun peer => _) = _
    rw [hpeer, Option.bind_some, if_pos hfits]
    rfl
  simp [runActions, reconnectRun, sysStep, System.start, hentry, recvStep, Shared.recreate, hmade,
    Shared.record]

/-- Nothing is sent in this run. -/
theorem reconnectRun_sparesSending {s : System F P} (i : ℕ) (hs : ∀ j, (s.send j).pc = .test) :
    EachStep sysStep (fun s a => a.SparesSending s) s (reconnectRun i) := by
  intro s₁ h₁
  refine ⟨trivial, fun s₂ h₂ => ⟨trivial, fun s₃ h₃ => ⟨fun part x fd rest hpc => ?_, trivial⟩⟩⟩
  obtain ⟨_, _, _, _, _, rfl⟩ := sysStep_recv h₁
  obtain ⟨_, _, _, _, _, rfl⟩ := sysStep_recv h₂
  exact absurd ((hs i).symm.trans hpc) (by simp)

/-- The workers that `manage` starts keep to their own if the entries name their peers. -/
theorem System.start_keeping (cfg : Configurator) {gconnList : List Con} (kernel : Kernel)
    (hpeer : ∀ (i : ℕ) (c : Con), gconnList[i]? = some c → c.peerId = i) :
    (System.start cfg gconnList kernel : System F P).Keeping where
  tied := ⟨hpeer, fun _ _ h => (by cases h), fun _ _ h => (by cases h)⟩
  sending _ _ _ _ _ _ _ h := by cases h
  owned _ he := absurd he List.not_mem_nil

/-- Every worker pair of `manage` keeps to its own peer in every run that does not reconnect during
`send_to_fd` exactly if every peer but the first is connected to in `create_peers`. -/
theorem keepsToOwnPeer_iff {cfg : Configurator} {start : ℕ → PeerStart} {s : System F P}
    (hmanage : manage cfg start = some s) :
    (∀ acts, EachStep sysStep (fun s a => a.SparesSending s) s acts → KeepsToOwnPeer s acts) ↔
      ∀ i, 1 ≤ i → i < cfg.peers.length → (start i).Succeeds := by
  obtain ⟨⟨gconnList, kernel⟩, hpeers, rfl⟩ := Option.map_eq_some_iff.mp hmanage
  obtain ⟨hfits, hlen, hentry⟩ := createPeersFrom_entry hpeers
  constructor
  · intro hall i hi hlt
    by_contra hfails
    have hdown : gconnList[i]? = some ⟨0, 0, 0⟩ := by
      rw [hentry i hlt, Nat.zero_add, PeerStart.entry, if_neg]
      rwa [Bool.or_eq_true]
    have hzero : 0 < cfg.peers.length := Nat.zero_lt_of_lt hlt
    obtain ⟨final, hrun, hmem⟩ := reconnectRun_effects (F := F) (P := P) kernel hdown
      (List.getElem?_eq_getElem hzero) (hfits _ (List.getElem_mem hzero))
    have htarget := throughout_final sysStep _ _ _ _ (hall _ (reconnectRun_sparesSending i fun _ => rfl)).1 hrun _ hmem
    change (0 : ℤ) = i at htarget
    omega
  · intro hup acts
    apply System.Keeping.keepsToOwnPeer
    apply System.start_keeping
    intro i c hc
    have hlt : i < cfg.peers.length := hlen ▸ (List.getElem?_eq_some_iff.mp hc).1
    rw [hentry i hlt, Nat.zero_add, Option.some.injEq] at hc
    rw [← hc, PeerStart.entry_peerId fun hi => hup i hi hlt]

/-- With both peers connected to, every worker pair keeps to its own. -/
theorem twoPeersUp_keepsToOwnPeer : manage twoPeers bothConnect = some (twoPeersUp : System Unit Unit) ∧
    ∀ acts, EachStep sysStep (fun s a => a.SparesSending s) twoPeersUp acts →
      KeepsToOwnPeer (twoPeersUp : System Unit Unit) acts := by
  have hmanage : manage twoPeers bothConnect = some (twoPeersUp : System Unit Unit) := rfl
  exact ⟨hmanage, (keepsToOwnPeer_iff hmanage).mpr fun _ _ _ => Or.inl rfl⟩

/-- Only the first of two peers is connected to. -/
def firstConnects (i : ℕ) : PeerStart := ⟨i + 3, i == 0, false⟩

/-- The worker of the second pair then reconnects the first peer and overwrites its entry. -/
theorem firstConnects_not_keepsToOwnPeer : ∃ s : System Unit Unit, manage twoPeers firstConnects = some s ∧
    (∃ final, runActions sysStep s (reconnectRun 1) = some final ∧
      final.shared.gconnList[0]? = some ⟨-1, 0, 0⟩) ∧ ¬ KeepsToOwnPeer s (reconnectRun 1) := by
  refine ⟨_, rfl, ⟨_, rfl, rfl⟩, fun hkeeps => ?_⟩
  have howned := throughout_final sysStep _ _ _ _ hkeeps.1 rfl (1, .recreated 0) List.mem_cons_self
  change (0 : ℤ) = 1 at howned
  omega

/-- The receive worker reconnects while the send worker is in `send_to_fd`. -/
def reconnectDuringSend : List (Action Unit Unit) :=
  [.append 0 ⟨some ['x', '\x00'], 1, 0, 0, oneCharId 'a'⟩ () () ⟨0, 0⟩, .send 0 .test, .send 0 .checkState,
    .send 0 .pop, .send 0 .start, .recv 0 .test, .recv 0 .call, .recv 0 (.finish [.arrived [] (.other 0)]),
    .recv 0 .close, .recv 0 .clear, .recv 0 .test, .recv 0 .lock, .recv 0 (.recreate 5), .recv 0 (.connect true),
    .send 0 (.send (.failed (.other 9)))]

/-- The send worker then calls `send` with the number that was closed, not with that of its entry. -/
theorem reconnectDuringSend_not_keepsToOwnPeer :
    manage twoPeers bothConnect = some (twoPeersUp : System Unit Unit) ∧
      ¬ KeepsToOwnPeer twoPeersUp reconnectDuringSend := by
  refine ⟨rfl, fun hkeeps => ?_⟩
  obtain ⟨final, hrun, call, hcall, hfd⟩ : ∃ final,
      runActions sysStep twoPeersUp reconnectDuringSend = some final ∧
        ∃ call, (0, .wrote call 5) ∈ final.shared.effects ∧ call.conn.fd = 3 :=
    ⟨_, rfl, ⟨⟨3, 1⟩, ['0', '0', '0', '1'], .failed (.other 9)⟩, by decide, rfl⟩
  have howned : call.conn.fd = 5 := throughout_final sysStep _ _ _ _ hkeeps.1 hrun _ hcall
  omega

end TcpClb
