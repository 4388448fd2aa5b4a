import TcpClb.ConnectionLock
import TcpClb.DeliveryOrder
import TcpClb.IdTableRouting

/-!
# What the threads keep in every run

Whatever the threads do, the entries of `gconn_list` stay as many as there are peers, the id table stays well formed,
`conntex` is locked only as long as some worker is in `recreate_conn`, only workers of pairs that have an entry move,
and every message that a send worker has taken is in its hand or has been freed by it.
-/

namespace TcpClb

open TcpClb.Common

variable {F P : Type}

/-- There is an entry for each of `n` peers, whose ports can be printed, and ids are assigned to these entries. -/
structure Shared.Entries (n : ℕ) (s : Shared F P) : Prop where
  entries : s.gconnList.length = n
  peers : s.refGcfg.peers.length = n
  ports : ∀ peer ∈ s.refGcfg.peers, peer.PortFits
  routed : TableWf n s.store.gtsidq

/-- If `conntex` is locked, a worker has it. -/
def System.Held (s : System F P) : Prop := s.shared.conntex = true → ∃ t, s.Locked t

/-- Workers without an entry have not moved. -/
structure System.Manned (n : ℕ) (s : System F P) : Prop where
  recv : ∀ i, n ≤ i → (s.recv i).pc = .test
  send : ∀ i, n ≤ i → (s.send i).pc = .test

/-- Every message taken is in hand or has been freed. -/
def SendWorker.Accounted (w : SendWorker) : Prop :=
  w.taken = w.finished.map Transfer.msg ++ (w.pc.node.map Prod.snd).toList

/-- What the threads keep in every run. -/
structure System.Upkept (n : ℕ) (s : System F P) : Prop where
  entries : s.shared.Entries n
  held : s.Held
  manned : s.Manned n
  accounted : ∀ i, (s.send i).Accounted

section Entries

variable {n : ℕ} {s s' : Shared F P}

/-- The queue of messages, the kernel, the lock and the record of effects do not matter. -/
theorem Shared.Entries.congr (hs : s.Entries n) (hcfg : s'.refGcfg = s.refGcfg)
    (hlen : s'.gconnList.length = s.gconnList.length) (htable : s'.store.gtsidq = s.store.gtsidq) : s'.Entries n :=
  ⟨hlen.trans hs.entries, hcfg ▸ hs.peers, hcfg ▸ hs.ports, htable ▸ hs.routed⟩

/-- `recreate_conn` up to `socket` keeps the entries. -/
theorem Shared.Entries.recreate (hs : s.Entries n) {i : ℕ} {pid fd : ℤ} (h : s.recreate i pid fd = some s') :
    s'.Entries n := by
  obtain ⟨⟨made, k⟩, hmade, rfl⟩ := Option.map_eq_some_iff.mp h
  obtain ⟨p, _, _, rfl⟩ := recreateSocket_eq_some hmade
  exact hs.congr rfl (by simp [Shared.record, setFd, setState]) rfl

/-- The rest of `recreate_conn` does too. -/
theorem Shared.Entries.connect (hs : s.Entries n) (i : ℕ) (pid : ℤ) (connected : Bool) :
    (s.connect i pid connected).Entries n := by
  cases connected with
  | false => exact hs.congr rfl rfl rfl
  | true => exact hs.congr rfl (by simp [Shared.connect, Shared.record, recreateConnect, setState]) rfl

/-- So does `c->state = 0`. -/
theorem Shared.Entries.clear (hs : s.Entries n) (i : ℕ) : (s.clear i).Entries n :=
  hs.congr rfl (by simp [Shared.clear, Shared.record, setState]) rfl

/-- A receive worker keeps the entries. -/
theorem RecvStep.entries {i : ℕ} {c : Con} {w w' : RecvWorker} {a : RecvAction}
    (hstep : RecvStep s i c w a s' w') (hs : s.Entries n) : s'.Entries n := by
  cases hstep with
  | recreate hpc hrecreate => exact hs.recreate hrecreate
  | connect connected hpc => exact hs.connect i _ connected
  | remId tid hpc => exact ⟨hs.entries, hs.peers, hs.ports, hs.routed.remId tid⟩
  | clear hpc => exact hs.clear i
  | test | lock | call | finish | dispatched | close => exact hs.congr rfl rfl rfl

/-- A send worker keeps the entries. -/
theorem SendStep.entries {i : ℕ} {c : Con} {w w' : SendWorker} {a : SendAction}
    (hstep : SendStep s i c w a s' w') (hs : s.Entries n) : s'.Entries n := by
  cases hstep with
  | recreate hpc hrecreate => exact hs.recreate hrecreate
  | connect connected hpc => exact hs.connect i _ connected
  | failed hpc => exact hs.clear i
  | wait | goOn | wake | up | down | lock | popNone | pop | start | sendFails | send | free =>
    exact hs.congr rfl rfl rfl

end Entries

/-- An id is routed to one of the entries, and the table stays well formed. -/
theorem routeId_inRange {n : ℕ} {table : List (Tsidque F P)} {gconnList : List Con} (hlen : gconnList.length = n)
    (hwf : TableWf n table) {glastConRr : ℕ} {t : List Char} (ht : t ≠ []) {callbackF : F} {callbackParam : P}
    {now : Timeval} {routed : List (Tsidque F P) × ℕ × ℤ}
    (hrouted : routeId table glastConRr gconnList t callbackF callbackParam now = some routed) :
    TableWf n routed.1 ∧ ∃ i < n, routed.2.2 = (i : ℤ) := by
  subst hlen
  have hroutes := routes_of_routeId hwf glastConRr t ht callbackF callbackParam now routed hrouted
  obtain ⟨e, he, hconn, _⟩ := hroutes.entry
  obtain ⟨hzero, hlt⟩ := hroutes.wf.inRange e (mem_of_entryOf he)
  refine ⟨hroutes.wf, e.conn.toNat, ?_, ?_⟩
  · change e.conn < (gconnList.length : ℤ) at hlt
    omega
  · omega

/-- A client that appends keeps the entries. -/
theorem pushToMsgq_entries {n : ℕ} {s : Shared F P} (hs : s.Entries n) {tid : List Char} {len : ℤ} {data : Request}
    {callbackF : F} {callbackParam : P} {now : Timeval} {store : Store F P}
    (hpush : pushToMsgq s.store s.gconnList tid len data callbackF callbackParam now = some store) :
    Shared.Entries n { s with store := store } := by
  rcases pushToMsgq_eq_some hpush with ⟨_, rfl⟩ | ⟨hid, routed, linked, hrouted, _, rfl⟩
  · exact hs
  · exact ⟨hs.entries, hs.peers, hs.ports, (routeId_inRange hs.entries hs.routed hid hrouted).1⟩

/-- Every step keeps the entries. -/
theorem sysStep_entries {n : ℕ} {s s' : System F P} {a : Action F P} (hs : s.shared.Entries n)
    (hstep : sysStep s a = some s') : s'.shared.Entries n := by
  cases a with
  | recv i b =>
    obtain ⟨c, shared, w, _, hworker, rfl⟩ := sysStep_recv hstep
    exact hworker.entries hs
  | send i b =>
    obtain ⟨c, shared, w, _, hworker, rfl⟩ := sysStep_send hstep
    exact hworker.entries hs
  | append k req callbackF callbackParam now =>
    obtain ⟨_, h⟩ := Option.ite_none_left_eq_some.mp hstep
    obtain ⟨store, hpush, rfl⟩ := Option.map_eq_some_iff.mp h
    exact pushToMsgq_entries hs hpush
  | signal k woken =>
    obtain ⟨first, cell, _, _, _, rfl⟩ := sysStep_signal hstep
    cases woken <;> exact hs
  | sweep now printable =>
    obtain ⟨table, hswept, rfl⟩ := Option.map_eq_some_iff.mp hstep
    obtain ⟨_, rfl⟩ := (listExpiredIdq_eq_some_iff printable _ _ now).mp hswept
    exact ⟨hs.entries, hs.peers, hs.ports, hs.routed.sweptIdq now⟩

section Lock

variable {s : System F P} {i : ℕ} {shared : Shared F P}

/-- A receive worker that stays in `recreate_conn`, or outside, leaves the lock with the worker that has it. -/
theorem System.Held.recv (hs : s.Held) {w : RecvWorker} (hsame : shared.conntex = s.shared.conntex)
    (hstays : (s.recv i).pc.Locked → w.pc.Locked) :
    System.Held { s with shared := shared, recv := Function.update s.recv i w } := by
  intro hlocked
  obtain ⟨t, ht⟩ := hs (hsame ▸ hlocked)
  refine ⟨t, ?_⟩
  cases t with
  | inr j => exact ht
  | inl j =>
    change (Function.update s.recv i w j).pc.Locked
    by_cases hj : j = i
    · rw [hj, Function.update_self]
      exact hstays (hj ▸ ht)
    · rw [Function.update_of_ne hj]
      exact ht

/-- So does a send worker. -/
theorem System.Held.send (hs : s.Held) {w : SendWorker} (hsame : shared.conntex = s.shared.conntex)
    (hstays : (s.send i).pc.Locked → w.pc.Locked) :
    System.Held { s with shared := shared, send := Function.update s.send i w } := by
  intro hlocked
  obtain ⟨t, ht⟩ := hs (hsame ▸ hlocked)
  refine ⟨t, ?_⟩
  cases t with
  | inl j => exact ht
  | inr j =>
    change (Function.update s.send i w j).pc.Locked
    by_cases hj : j = i
    · rw [hj, Function.update_self]
      exact hstays (hj ▸ ht)
    · rw [Function.update_of_ne hj]
      exact ht

/-- A lock that has been given back is not held. -/
theorem Shared.connect_conntex (s : Shared F P) (i : ℕ) (pid : ℤ) (connected : Bool) :
    (s.connect i pid connected).conntex = false := by
  cases connected <;> rfl

/-- After a step of a receive worker a locked `conntex` is held. -/
theorem RecvStep.held {c : Con} {a : RecvAction} {w : RecvWorker}
    (hstep : RecvStep s.shared i c (s.recv i) a shared w) (hs : s.Held) :
    System.Held { s with shared := shared, recv := Function.update s.recv i w } := by
  have houtside (hpc : ¬ (s.recv i).pc.Locked) : (s.recv i).pc.Locked → w.pc.Locked := fun h => absurd h hpc
  cases hstep with
  | lock hpc hfree =>
    refine fun _ => ⟨.inl i, ?_⟩
    change (Function.update s.recv i _ i).pc.Locked
    rw [Function.update_self]
    trivial
  | recreate hpc hrecreate => exact hs.recv (Shared.recreate_conntex hrecreate) fun _ => trivial
  | connect connected hpc =>
    intro hlocked
    change (s.shared.connect i _ connected).conntex = true at hlocked
    rw [Shared.connect_conntex] at hlocked
    cases hlocked
  | remId tid hpc => exact hs.recv rfl id
  | test hpc | call hpc | finish hpc hreceive | dispatched hpc | close hpc | clear hpc =>
    exact hs.recv rfl (houtside (by rw [hpc]; exact id))

/-- After a step of a send worker too. -/
theorem SendStep.held {c : Con} {a : SendAction} {w : SendWorker}
    (hstep : SendStep s.shared i c (s.send i) a shared w) (hs : s.Held) :
    System.Held { s with shared := shared, send := Function.update s.send i w } := by
  have houtside (hpc : ¬ (s.send i).pc.Locked) : (s.send i).pc.Locked → w.pc.Locked := fun h => absurd h hpc
  cases hstep with
  | lock hpc hfree =>
    refine fun _ => ⟨.inr i, ?_⟩
    change (Function.update s.send i _ i).pc.Locked
    rw [Function.update_self]
    trivial
  | recreate hpc hrecreate => exact hs.send (Shared.recreate_conntex hrecreate) fun _ => trivial
  | connect connected hpc =>
    intro hlocked
    change (s.shared.connect i _ connected).conntex = true at hlocked
    rw [Shared.connect_conntex] at hlocked
    cases hlocked
  | wait hpc | goOn hpc | wake hpc | up hpc | down hpc | popNone hpc | pop hpc | start hpc | sendFails hpc | send hpc
    | failed hpc | free hpc => exact hs.send rfl (houtside (by rw [hpc]; exact id))

end Lock

/-- A locked `conntex` is held, after every step. -/
theorem sysStep_held {s s' : System F P} {a : Action F P} (hs : s.Held) (hstep : sysStep s a = some s') :
    s'.Held := by
  cases a with
  | recv i b =>
    obtain ⟨c, shared, w, _, hworker, rfl⟩ := sysStep_recv hstep
    exact hworker.held hs
  | send i b =>
    obtain ⟨c, shared, w, _, hworker, rfl⟩ := sysStep_send hstep
    exact hworker.held hs
  | append | signal | sweep =>
    intro hlocked
    obtain ⟨store, hshared⟩ := sysStep_client_shared hstep (by simp) (by simp)
    rw [hshared] at hlocked
    obtain ⟨t, ht⟩ := hs hlocked
    refine ⟨t, ?_⟩
    cases t with
    | inl i =>
      rw [System.Locked, sysStep_recv_eq hstep (by simp)]
      exact ht
    | inr i =>
      rcases sysStep_send_eq hstep (by simp) i with hsame | ⟨hwait, _⟩
      · rw [System.Locked, hsame]
        exact ht
      · rw [System.Locked, hwait] at ht
        exact absurd ht id

/-- Only workers of pairs that have an entry move. -/
theorem sysStep_manned {n : ℕ} {s s' : System F P} {a : Action F P} (hs : s.Manned n)
    (hentries : s.shared.gconnList.length = n) (hstep : sysStep s a = some s') : s'.Manned n := by
  have hne {i j : ℕ} {c : Con} (hc : s.shared.gconnList[i]? = some c) (hj : n ≤ j) : j ≠ i := by
    have hlt := (List.getElem?_eq_some_iff.mp hc).1
    omega
  cases a with
  | recv i b =>
    obtain ⟨c, shared, w, hc, _, rfl⟩ := sysStep_recv hstep
    refine ⟨fun j hj => ?_, hs.send⟩
    change (Function.update s.recv i w j).pc = .test
    rw [Function.update_of_ne (hne hc hj)]
    exact hs.recv j hj
  | send i b =>
    obtain ⟨c, shared, w, hc, _, rfl⟩ := sysStep_send hstep
    refine ⟨hs.recv, fun j hj => ?_⟩
    change (Function.update s.send i w j).pc = .test
    rw [Function.update_of_ne (hne hc hj)]
    exact hs.send j hj
  | append | signal | sweep =>
    refine ⟨fun j hj => ?_, fun j hj => ?_⟩
    · rw [sysStep_recv_eq hstep (by simp)]
      exact hs.recv j hj
    · rcases sysStep_send_eq hstep (by simp) j with hsame | ⟨_, hwoken⟩
      · rw [hsame]
        exact hs.send j hj
      · rw [hwoken]

/-- A worker that takes nothing and frees nothing leaves its accounts. -/
theorem SendWorker.Accounted.of_eq {w w' : SendWorker} (hw : w.Accounted) (htaken : w'.taken = w.taken)
    (hfinished : w'.finished = w.finished) (hnode : w'.pc.node = w.pc.node) : w'.Accounted := by
  rw [SendWorker.Accounted, htaken, hfinished, hnode]
  exact hw

/-- A step of a send worker keeps its accounts. -/
theorem SendStep.accounted {s s' : Shared F P} {i : ℕ} {c : Con} {w w' : SendWorker} {a : SendAction}
    (hstep : SendStep s i c w a s' w') (hw : w.Accounted) : w'.Accounted := by
  cases hstep with
  | @pop q node cell hpc hpop hcell =>
    rw [SendWorker.Accounted, hpc] at hw
    rw [SendWorker.Accounted, hw]
    simp [SendPc.node, SendPc.inHand]
  | @free x q hpc hfree =>
    rw [SendWorker.Accounted, hpc] at hw
    rw [SendWorker.Accounted, hw]
    simp [SendPc.node, SendPc.inHand]
  | start hpc htext => exact hw.of_eq rfl rfl (by rw [node_sendingOrNext, hpc]; rfl)
  | send hpc hsend => exact hw.of_eq rfl rfl (by rw [node_sendingOrNext, hpc]; rfl)
  | @failed part x hpc =>
    refine hw.of_eq rfl rfl ?_
    rw [hpc]
    exact node_sendingOrNext part x 0 []
  | wait hpc | goOn hpc | wake hpc | up hpc | down hpc | lock hpc | recreate hpc | connect connected hpc | popNone hpc
    | sendFails hpc => exact hw.of_eq rfl rfl (by rw [hpc]; rfl)

/-- Every step keeps the accounts of all send workers. -/
theorem sysStep_sendAccounted {s s' : System F P} {a : Action F P} (hstep : sysStep s a = some s')
    (hs : ∀ i, (s.send i).Accounted) : ∀ i, (s'.send i).Accounted := by
  cases a with
  | send i b =>
    obtain ⟨c, shared, w, _, hworker, rfl⟩ := sysStep_send hstep
    exact (Function.forall_update_iff s.send fun _ w => w.Accounted).mpr ⟨hworker.accounted (hs i), fun j _ => hs j⟩
  | recv | append | signal | sweep =>
    intro i
    rcases sysStep_send_eq hstep nofun i with hsame | ⟨hwait, hwoken⟩
    · exact hsame ▸ hs i
    · rw [hwoken]
      exact (hs i).of_eq rfl rfl (by rw [hwait]; rfl)

/-- Every step keeps all of it. -/
theorem sysStep_upkept {n : ℕ} {s s' : System F P} {a : Action F P} (hs : s.Upkept n)
    (hstep : sysStep s a = some s') : s'.Upkept n where
  entries := sysStep_entries hs.entries hstep
  held := sysStep_held hs.held hstep
  manned := sysStep_manned hs.manned hs.entries.entries hstep
  accounted := sysStep_sendAccounted hstep hs.accounted

/-- It holds of the workers that `manage` starts. -/
theorem manage_upkept {cfg : Configurator} {start : ℕ → PeerStart} {s : System F P}
    (hmanage : manage cfg start = some s) : s.Upkept cfg.peers.length := by
  obtain ⟨⟨gconnList, kernel⟩, hpeers, rfl⟩ := Option.map_eq_some_iff.mp hmanage
  obtain ⟨hports, hlen, _⟩ := createPeersFrom_entry hpeers
  exact {
    entries := ⟨hlen, rfl, hports, tableWf_nil _⟩
    held := fun h => by cases h
    manned := ⟨fun _ _ => rfl, fun _ _ => rfl⟩
    accounted := fun _ => rfl }

end TcpClb
