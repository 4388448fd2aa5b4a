import TcpClb.Descriptors
import TcpClb.DisconnectDetection

/-!
# Connections that are dropped

A connection is dropped when its descriptor is closed, or when `recreate_conn` puts another one in its
entry. Only lost connections are dropped as long as a worker acts on what it has seen: it recreates a
connection that is down, closes the connection whose end it has read, and marks as down the connection
that it closed or could not write to.

The workers ensure none of this. They test `c->state` before they take `conntex`, and what they do
afterwards is done to whatever `c->fd` is by then.
-/

namespace TcpClb

open TcpClb.Common

variable {F P : Type}

/-- The event closes the connection, or takes it out of its entry. -/
def FdEvent.Drops (conn : Connection) : FdEvent → Prop
  | .closed other => other = conn
  | .overwritten other => other = conn
  | _ => False

/-- The connection that the event takes out of its entry. -/
def FdEvent.replaced : FdEvent → Option Connection
  | .overwritten conn => some conn
  | _ => none

/-- A connection that has been connected to is dropped only after it has been lost. -/
def DropsLost (events : List FdEvent) : Prop :=
  ∀ before e conn, before ++ [e] <+: events → e.Drops conn → .connected conn ∈ before → .lost conn ∈ before

/-- Only lost connections have been dropped, and each has been replaced at most once. -/
structure Ledger.KeepsHealthy (l : Ledger) : Prop where
  dropsLost : DropsLost l.events
  replacedOnce : (l.events.filterMap FdEvent.replaced).Nodup

/-- The library has kept every connection that was not lost. -/
def Watched.KeepsHealthy (w : Watched F P) : Prop := w.ledger.KeepsHealthy

/-- The receive worker on entry `c` acts on what it has seen: a connection that is down, the end of the
stream of the connection it closes, or the close of the connection it marks as down. -/
def RecvAction.ActsOnLost (w : Watched F P) (i : ℕ) (c : Con) : RecvAction → Prop
  | .recreate _ => ¬ PeerUp w.sys.shared.gconnList c.peerId.toNat
  | .close => (w.sys.recv i).pc = .close (some (w.sys.shared.kernel.connection c.fd))
  | .clear => c.state = 1 → ∀ conn, w.ledger.current i = some conn →
      (w.sys.recv i).log.getLast? = some (.closed conn)
  | _ => True

/-- The send worker on entry `c` acts on what it has seen: a connection that is down, or an error on the
connection it marks as down. -/
def SendAction.ActsOnLost (w : Watched F P) (i : ℕ) (c : Con) : SendAction → Prop
  | .recreate _ => ¬ PeerUp w.sys.shared.gconnList c.peerId.toNat
  | .failed => c.state = 1 → ∀ conn part x, w.ledger.current i = some conn →
      (w.sys.send i).pc = .failed part x →
        ∃ call, x.calls.getLast? = some call ∧ call.conn = conn ∧ call.result.IsError
  | _ => True

/-- The same for a step of the system. -/
def Action.ActsOnLost (w : Watched F P) : Action F P → Prop
  | .recv i a => ∀ c, w.sys.shared.gconnList[i]? = some c → a.ActsOnLost w i c
  | .send i a => ∀ c, w.sys.shared.gconnList[i]? = some c → a.ActsOnLost w i c
  | _ => True

/-- The connection is in an entry, or has been connected to or replaced. -/
def Ledger.Knows (l : Ledger) (conn : Connection) : Prop :=
  (∃ i, l.current i = some conn) ∨ .connected conn ∈ l.events ∨ .overwritten conn ∈ l.events

/-- What holds of the entries, the kernel and the ledger while only lost connections are dropped. -/
structure Ledger.Guarded (l : Ledger) (gconnList : List Con) (k : Kernel) : Prop where
  made : ∀ conn, l.Knows conn → conn.opening ≤ k.opened conn.fd
  distinct : ∀ i j conn, l.current i = some conn → l.current j = some conn → i = j
  gone : ∀ i conn, l.current i = some conn → .overwritten conn ∉ l.events
  down : ∀ i conn, l.current i = some conn → ¬ PeerUp gconnList i → .connected conn ∈ l.events →
    .lost conn ∈ l.events
  healthy : l.KeepsHealthy

/-- What a receive worker is about to act on has been lost. -/
structure RecvWorker.Certain (events : List FdEvent) (w : RecvWorker) : Prop where
  closing : ∀ conn, w.pc = .close (some conn) → .lost conn ∈ events
  cleared : ∀ conn, w.pc = .clear → w.log.getLast? = some (.closed conn) → .lost conn ∈ events

/-- What a send worker is about to act on has been lost. -/
def SendWorker.Certain (events : List FdEvent) (w : SendWorker) : Prop :=
  ∀ part x call, w.pc = .failed part x → x.calls.getLast? = some call → call.result.IsError →
    .lost call.conn ∈ events

/-- What holds in every state while the workers act on what they have seen. -/
structure Watched.Guarded (w : Watched F P) : Prop where
  ledger : w.ledger.Guarded w.sys.shared.gconnList w.sys.shared.kernel
  recv : ∀ i, (w.sys.recv i).Certain w.ledger.events
  send : ∀ i, (w.sys.send i).Certain w.ledger.events

/-- One more event. -/
theorem DropsLost.snoc {events : List FdEvent} {e : FdEvent} (h : DropsLost events)
    (he : ∀ conn, e.Drops conn → .connected conn ∈ events → .lost conn ∈ events) :
    DropsLost (events ++ [e]) := by
  intro before last conn hprefix hdrops hconnected
  rcases List.prefix_concat_iff.mp hprefix with hall | hold
  · obtain ⟨rfl, hlast⟩ := List.append_inj' hall rfl
    rw [(List.cons.inj hlast).1] at hdrops
    exact he conn hdrops hconnected
  · exact h before last conn hold hdrops hconnected

/-- The entries change, and a connection that goes down has been lost. -/
theorem Ledger.Guarded.entries {l : Ledger} {gconnList after : List Con} {k : Kernel} (h : l.Guarded gconnList k)
    (hdown : ∀ i conn, l.current i = some conn → PeerUp gconnList i → ¬ PeerUp after i →
      .connected conn ∈ l.events → .lost conn ∈ l.events) : l.Guarded after k := by
  refine ⟨h.made, h.distinct, h.gone, fun i conn hi hup hconnected => ?_, h.healthy⟩
  by_cases hbefore : PeerUp gconnList i
  · exact hdown i conn hi hbefore hup hconnected
  · exact h.down i conn hi hbefore hconnected

/-- The kernel opens and closes descriptors. -/
theorem Ledger.Guarded.kernel {l : Ledger} {gconnList : List Con} {k k' : Kernel} (h : l.Guarded gconnList k)
    (hmore : ∀ fd, k.opened fd ≤ k'.opened fd) : l.Guarded gconnList k' :=
  ⟨fun conn hconn => (h.made conn hconn).trans (hmore conn.fd), h.distinct, h.gone, h.down, h.healthy⟩

/-- Something happens that leaves the entries, connects only what an entry holds that is up, and closes
only what has been lost. -/
theorem Ledger.Guarded.snoc {l : Ledger} {gconnList : List Con} {k : Kernel} {e : FdEvent}
    (h : l.Guarded gconnList k)
    (hup : ∀ conn, e = .connected conn → ∃ i, l.current i = some conn ∧ PeerUp gconnList i)
    (hlost : ∀ conn, e = .closed conn → .connected conn ∈ l.events → .lost conn ∈ l.events)
    (hkeeps : ∀ conn, e ≠ .overwritten conn) : (l.add [e]).Guarded gconnList k := by
  have hgone (conn : Connection) (hconn : .overwritten conn ∈ (l.add [e]).events) :
      .overwritten conn ∈ l.events := (Ledger.mem_add_singleton.mp hconn).resolve_right (hkeeps conn)
  refine ⟨fun conn hconn => ?_, h.distinct, fun i conn hi hconn => h.gone i conn hi (hgone conn hconn),
    fun i conn hi hdown hconn => ?_, ?_, ?_⟩
  · rcases hconn with hentry | hconnected | hreplaced
    · exact h.made conn (Or.inl hentry)
    · rcases Ledger.mem_add_singleton.mp hconnected with hold | hnew
      · exact h.made conn (Or.inr (Or.inl hold))
      · obtain ⟨i, hi, _⟩ := hup conn hnew
        exact h.made conn (Or.inl ⟨i, hi⟩)
    · exact h.made conn (Or.inr (Or.inr (hgone conn hreplaced)))
  · rcases Ledger.mem_add_singleton.mp hconn with hold | hnew
    · exact List.mem_append_left _ (h.down i conn hi hdown hold)
    · obtain ⟨j, hj, hjup⟩ := hup conn hnew
      exact absurd (h.distinct i j conn hi hj ▸ hjup) hdown
  · apply h.healthy.dropsLost.snoc
    intro conn hdrops hconnected
    cases e with
    | closed other =>
      cases hdrops
      exact hlost conn rfl hconnected
    | overwritten other => exact absurd rfl (hkeeps other)
    | opened | used | connected | lost => exact absurd hdrops id
  · change (List.filterMap FdEvent.replaced (l.events ++ [e])).Nodup
    cases e with
    | overwritten other => exact absurd rfl (hkeeps other)
    | opened | used | connected | lost | closed =>
      rw [List.filterMap_append]
      exact (List.append_nil _).symm ▸ h.healthy.replacedOnce

/-- A descriptor is used. -/
theorem Ledger.Guarded.used {l : Ledger} {gconnList : List Con} {k : Kernel} (h : l.Guarded gconnList k)
    (fd : ℤ) (wasOpen : Bool) : (l.add [.used fd wasOpen]).Guarded gconnList k := h.snoc (by simp) (by simp) (by simp)

/-- What an entry holds that is up is connected. -/
theorem Ledger.Guarded.connected {l : Ledger} {gconnList : List Con} {k : Kernel} (h : l.Guarded gconnList k)
    {i : ℕ} {conn : Connection} (hi : l.current i = some conn) (hup : PeerUp gconnList i) :
    (l.add [.connected conn]).Guarded gconnList k := by
  refine h.snoc (fun other hother => ?_) (by simp) (by simp)
  cases hother
  exact ⟨i, hi, hup⟩

/-- A descriptor is used, which may show that its connection is lost. -/
theorem Ledger.Guarded.usedOrLost {l : Ledger} {gconnList : List Con} {k : Kernel} (h : l.Guarded gconnList k)
    (fd : ℤ) (wasOpen : Bool) (conn : Connection) (lost : Prop) [Decidable lost] :
    (l.add (.used fd wasOpen :: if lost then [.lost conn] else [])).Guarded gconnList k := by
  rw [Ledger.add_cons]
  by_cases hlost : lost
  · rw [if_pos hlost]
    exact (h.used fd wasOpen).snoc (by simp) (by simp) (by simp)
  · rw [if_neg hlost, Ledger.add_nil]
    exact h.used fd wasOpen

/-- An entry that is down loses what it held. -/
theorem Ledger.Guarded.overwrite {l : Ledger} {gconnList : List Con} {k : Kernel} (h : l.Guarded gconnList k)
    {pid : ℕ} (hdown : ¬ PeerUp gconnList pid) : (l.overwrite pid).Guarded gconnList k := by
  have hentry {i : ℕ} {conn : Connection} (hi : (l.overwrite pid).current i = some conn) :
      i ≠ pid ∧ l.current i = some conn := Ledger.overwrite_current_eq_some.mp hi
  cases hold : l.current pid with
  | none =>
    rw [Ledger.overwrite_none hold]
    exact h
  | some old =>
    have hadd := Ledger.overwrite_some hold
    have hmem (e : FdEvent) (hne : e ≠ .overwritten old) (he : e ∈ l.events ++ [.overwritten old]) :
        e ∈ l.events := (Ledger.mem_add_singleton.mp he).resolve_right hne.symm
    refine ⟨fun conn hconn => ?_, fun i j conn hi hj => h.distinct i j conn (hentry hi).2 (hentry hj).2,
      fun i conn hi hgone => ?_, fun i conn hi hup hconnected => ?_, ?_, ?_⟩
    · by_cases hconnold : conn = old
      · exact hconnold ▸ h.made old (Or.inl ⟨pid, hold⟩)
      · rw [Ledger.Knows, hadd] at hconn
        have hne : FdEvent.overwritten conn ≠ .overwritten old := fun heq => hconnold (FdEvent.overwritten.inj heq)
        exact h.made conn (Or.imp (Exists.imp fun i hi => (hentry hi).2)
          (Or.imp (hmem _ (by simp)) (hmem _ hne)) hconn)
    · obtain ⟨hother, hi⟩ := hentry hi
      rw [hadd] at hgone
      apply h.gone i conn hi (hmem _ (fun heq => hother ?_) hgone)
      rw [FdEvent.overwritten.inj heq] at hi
      exact h.distinct i pid old hi hold
    · rw [hadd] at hconnected ⊢
      exact List.mem_append_left _ (h.down i conn (hentry hi).2 hup (hmem _ (by simp) hconnected))
    · rw [hadd]
      apply h.healthy.dropsLost.snoc
      rintro conn rfl hconnected
      exact h.down pid old hold hdown hconnected
    · rw [hadd, List.filterMap_append]
      apply h.healthy.replacedOnce.append (List.nodup_singleton old)
      rw [List.disjoint_singleton]
      intro hagain
      obtain ⟨e, he, hreplaced⟩ := List.mem_filterMap.mp hagain
      cases e with
      | overwritten conn =>
        cases hreplaced
        exact h.gone pid old hold he
      | opened | used | connected | lost | closed => cases hreplaced

/-- A connection is stored in an entry that holds none, under a number that was not used so often
before. -/
theorem Ledger.Guarded.store {l : Ledger} {gconnList : List Con} {k k' : Kernel} (h : l.Guarded gconnList k)
    {pid : ℕ} {conn : Connection} (hold : k.opened conn.fd < conn.opening)
    (hnew : conn.opening ≤ k'.opened conn.fd) (hmore : ∀ fd, k.opened fd ≤ k'.opened fd) :
    (l.store pid (some conn)).Guarded gconnList k' := by
  have hfresh : ¬ l.Knows conn := fun hknows => absurd (h.made conn hknows) (Nat.not_le.mpr hold)
  have hentry (i : ℕ) (other : Connection) (hi : (l.store pid (some conn)).current i = some other) :
      i = pid ∧ other = conn ∨ l.current i = some other :=
    (Ledger.store_current_eq_some.mp hi).imp_right And.right
  have hmem {e : FdEvent} (he : e ∈ (l.store pid (some conn)).events) (hne : e ≠ .opened pid conn) :
      e ∈ l.events := (Ledger.mem_store.mp he).resolve_right hne.symm
  refine ⟨fun other hother => ?_, fun i j other hi hj => ?_, fun i other hi hgone => ?_,
    fun i other hi hdown hconnected => List.mem_append_left _ ?_, ?_, ?_⟩
  · rcases hother with ⟨i, hi⟩ | hevent
    · rcases hentry i other hi with ⟨_, rfl⟩ | hi
      · exact hnew
      · exact (h.made other (Or.inl ⟨i, hi⟩)).trans (hmore other.fd)
    · exact (h.made other (Or.inr (hevent.imp (hmem · (by simp)) (hmem · (by simp))))).trans (hmore other.fd)
  · rcases hentry i other hi with ⟨hip, hiconn⟩ | hiold
    · rcases hentry j other hj with ⟨hjp, _⟩ | hjold
      · exact hip.trans hjp.symm
      · exact absurd (Or.inl ⟨j, hiconn ▸ hjold⟩) hfresh
    · rcases hentry j other hj with ⟨_, hjconn⟩ | hjold
      · exact absurd (Or.inl ⟨i, hjconn ▸ hiold⟩) hfresh
      · exact h.distinct i j other hiold hjold
  · have hbefore := hmem hgone (by simp)
    rcases hentry i other hi with ⟨_, hconn⟩ | hiold
    · exact hfresh (Or.inr (Or.inr (hconn ▸ hbefore)))
    · exact h.gone i other hiold hbefore
  · have hbefore := hmem hconnected (by simp)
    rcases hentry i other hi with ⟨_, hconn⟩ | hiold
    · exact absurd (Or.inr (Or.inl (hconn ▸ hbefore))) hfresh
    · exact h.down i other hiold hdown hbefore
  · exact h.healthy.dropsLost.snoc fun _ hdrops => absurd hdrops id
  · change (List.filterMap FdEvent.replaced (l.events ++ [.opened pid conn])).Nodup
    rw [List.filterMap_append]
    exact (List.append_nil _).symm ▸ h.healthy.replacedOnce

/-- `recreate_conn` of a connection that is down, up to `socket`. -/
theorem Ledger.Guarded.recreate {l : Ledger} {gconnList made : List Con} {k k' : Kernel}
    (h : l.Guarded gconnList k) {cfg : Configurator} {pid fd : ℤ}
    (hmade : recreateSocket cfg gconnList k pid fd = some (made, k')) (hdown : ¬ PeerUp gconnList pid.toNat) :
    (l.recreate k pid fd).Guarded made k' := by
  obtain ⟨p, rfl, hsocket, rfl⟩ := recreateSocket_eq_some hmade
  rw [Int.toNat_natCast] at hdown
  have hold : (l.overwrite p).Guarded (setFd (setState gconnList p 0) p fd) k := by
    apply (h.overwrite hdown).entries
    intro i conn hi hup hafter
    refine absurd (peerUp_setFd.mpr ((peerUp_setState ?_).mpr hup)) hafter
    rintro rfl
    rw [l.overwrite_current] at hi
    cases hi
  change ((l.overwrite p).store p (k.made fd)).Guarded _ k'
  rcases Kernel.made_of_socket hsocket with ⟨hnone, rfl⟩ | ⟨conn, hconn, rfl, _, hfresh, hhas, hmore, _⟩
  · rw [hnone, Ledger.store_none (l.overwrite_current p)]
    exact hold
  · rw [hconn]
    exact hold.store hfresh hhas.2.ge hmore

/-- `recreate_conn` from `connect` on. -/
theorem Ledger.Guarded.connect {l : Ledger} {s : Shared F P} (h : l.Guarded s.gconnList s.kernel) (pid : ℤ)
    (connected : Bool) :
    (l.connect s pid connected).Guarded (recreateConnect s.gconnList pid connected) s.kernel := by
  have hafter : l.Guarded (recreateConnect s.gconnList pid connected) s.kernel := by
    apply h.entries
    intro i conn _ hup hdown
    cases connected with
    | false => exact absurd hup hdown
    | true => exact absurd (peerUp_of_setState hup) hdown
  unfold Ledger.connect
  cases hc : s.gconnList[pid.toNat]? with
  | none => exact hafter
  | some c =>
    dsimp only
    rw [Ledger.add_cons]
    have hused := hafter.used c.fd (s.kernel.isOpen c.fd)
    cases connected with
    | false => exact (Ledger.add_nil _).symm ▸ hused
    | true =>
      cases hconn : l.current pid.toNat with
      | none => exact (Ledger.add_nil _).symm ▸ hused
      | some conn =>
        have hup : PeerUp (setState s.gconnList pid.toNat 1) pid.toNat :=
          ⟨{ c with state := 1 }, by rw [getElem?_setState, hc, Option.map_some, if_pos rfl], rfl⟩
        exact hused.connected hconn hup

/-- `c->state = 0`, if a connection that is up has been lost. -/
theorem Ledger.Guarded.clear {l : Ledger} {gconnList : List Con} {k : Kernel} (h : l.Guarded gconnList k)
    {i : ℕ} {c : Con} (hc : gconnList[i]? = some c) (hlost : c.state = 1 → ∀ conn, l.current i = some conn →
      .connected conn ∈ l.events → .lost conn ∈ l.events) : l.Guarded (setState gconnList i 0) k := by
  apply h.entries
  intro j conn hj hup hdown
  by_cases hij : i = j
  · subst hij
    obtain ⟨c', hc', hstate⟩ := hup
    rw [hc, Option.some.injEq] at hc'
    exact hlost (hc' ▸ hstate) conn hj
  · exact absurd ((peerUp_setState hij).mpr hup) hdown

/-- A worker that is about neither to close nor to mark a connection as down is certain. -/
theorem RecvWorker.Certain.of_pc {events : List FdEvent} {r : RecvWorker}
    (hclose : ∀ conn, r.pc ≠ .close (some conn)) (hclear : r.pc ≠ .clear) : r.Certain events :=
  ⟨fun conn h => absurd h (hclose conn), fun _ h => absurd h hclear⟩

/-- What has happened stays certain. -/
theorem RecvWorker.Certain.mono {events more : List FdEvent} {r : RecvWorker} (h : r.Certain events)
    (hmore : events <+: more) : r.Certain more :=
  ⟨fun conn hpc => hmore.subset (h.closing conn hpc), fun conn hpc hlog => hmore.subset (h.cleared conn hpc hlog)⟩

/-- A worker that is not about to mark a connection as down is certain. -/
theorem SendWorker.Certain.of_pc {events : List FdEvent} {w : SendWorker}
    (hfailed : ∀ part x, w.pc ≠ .failed part x) : w.Certain events :=
  fun part x _ hpc => absurd hpc (hfailed part x)

/-- The same for a send worker. -/
theorem SendWorker.Certain.mono {events more : List FdEvent} {w : SendWorker} (h : w.Certain events)
    (hmore : events <+: more) : w.Certain more :=
  fun part x call hpc hlast herror => hmore.subset (h part x call hpc hlast herror)

/-- `recreate_conn` called by a worker, up to `socket`. -/
theorem Ledger.Guarded.sharedRecreate {l : Ledger} {s s' : Shared F P} {i : ℕ} {pid fd : ℤ}
    (h : l.Guarded s.gconnList s.kernel) (hrecreate : s.recreate i pid fd = some s')
    (hdown : ¬ PeerUp s.gconnList pid.toNat) :
    (l.recreate s.kernel pid fd).Guarded s'.gconnList s'.kernel := by
  obtain ⟨⟨made, k⟩, hmade, rfl⟩ := Option.map_eq_some_iff.mp hrecreate
  exact h.recreate hmade hdown

/-- `recreate_conn` called by a worker, from `connect` on. -/
theorem Ledger.Guarded.sharedConnect {l : Ledger} {s : Shared F P} (h : l.Guarded s.gconnList s.kernel) (i : ℕ)
    (pid : ℤ) (connected : Bool) : (l.connect s pid connected).Guarded (s.connect i pid connected).gconnList
      (s.connect i pid connected).kernel := by
  have hafter := h.connect pid connected
  cases connected <;> exact hafter

/-- A receive worker that acts on what it has seen drops lost connections only. -/
theorem RecvStep.guarded {w : Watched F P} {i : ℕ} {c : Con} {a : RecvAction} {s' : Shared F P} {r : RecvWorker}
    (hstep : RecvStep w.sys.shared i c (w.sys.recv i) a s' r) (hc : w.sys.shared.gconnList[i]? = some c)
    (hw : w.Guarded) (hcond : a.ActsOnLost w i c) :
    (w.ledger.recv w.sys.shared c (w.sys.recv i) a).Guarded s'.gconnList s'.kernel ∧
      r.Certain (w.ledger.recv w.sys.shared c (w.sys.recv i) a).events := by
  have hledger := hw.ledger
  have hcertain := hw.recv i
  cases hstep with
  | test hpc =>
    refine ⟨hledger, .of_pc (fun conn h => ?_) fun h => ?_⟩
    · split at h <;> cases h
    · split at h <;> cases h
  | lock hpc hfree => exact ⟨hledger, .of_pc (by simp) (by simp)⟩
  | recreate hpc hrecreate => exact ⟨hledger.sharedRecreate hrecreate hcond, .of_pc (by simp) (by simp)⟩
  | connect connected hpc =>
    refine ⟨?_, .of_pc (by simp) (by simp)⟩
    simp only [Ledger.recv, hpc]
    exact hledger.sharedConnect i _ connected
  | call hpc => exact ⟨hledger.used _ _, .of_pc (by simp) (by simp)⟩
  | @finish conn results rest received hpc hreceive =>
    simp only [Ledger.recv, hpc]
    refine ⟨hledger.usedOrLost _ _ conn _, fun lost h => ?_, fun _ h => ?_⟩
    · obtain ⟨hend, rfl⟩ := endOfStream_of_switchRc h
      rw [if_pos (by rw [hreceive, Option.map_some, hend])]
      exact List.mem_append_right _ (List.mem_cons_of_mem _ List.mem_cons_self)
    · rcases switchRc_cases conn received (received.ret.getD (w.sys.recv i).rc) with hpc | hpc | ⟨_, hpc⟩ <;>
        simp [hpc] at h
  | remId tid hpc => exact ⟨hledger, hcertain⟩
  | dispatched hpc => exact ⟨hledger, .of_pc (by simp) (by simp)⟩
  | close hpc =>
    have hlost : .lost (w.sys.shared.kernel.connection c.fd) ∈ w.ledger.events := hcertain.closing _ hcond
    simp only [Ledger.recv]
    rw [Ledger.add_cons]
    refine ⟨?_, by simp, fun conn _ hlog => ?_⟩
    · apply Ledger.Guarded.snoc (k := w.sys.shared.kernel.close c.fd)
      · exact (hledger.used _ _).kernel fun _ => Nat.le_refl _
      · simp
      · intro conn hconn _
        cases hconn
        exact List.mem_append_left _ hlost
      · simp
    · rw [List.getLast?_concat, Option.some.injEq, RecvEvent.closed.injEq] at hlog
      exact List.mem_append_left _ (List.mem_append_left _ (hlog ▸ hlost))
  | clear hpc =>
    refine ⟨hledger.clear hc fun hstate conn hconn _ => ?_, .of_pc (by simp) (by simp)⟩
    exact hcertain.cleared conn hpc (hcond hstate conn hconn)

/-- A send worker that acts on what it has seen drops lost connections only. -/
theorem SendStep.guarded {w : Watched F P} {i : ℕ} {c : Con} {a : SendAction} {s' : Shared F P} {r : SendWorker}
    (hstep : SendStep w.sys.shared i c (w.sys.send i) a s' r) (hc : w.sys.shared.gconnList[i]? = some c)
    (hw : w.Guarded) (hcond : a.ActsOnLost w i c) :
    (w.ledger.send w.sys.shared c (w.sys.send i) a).Guarded s'.gconnList s'.kernel ∧
      r.Certain (w.ledger.send w.sys.shared c (w.sys.send i) a).events := by
  have hledger := hw.ledger
  have hnext (part : Part) (x : Transfer) (part' : Part) (x' : Transfer) : part.next x ≠ .failed part' x' := by
    rcases part.next_cases x with h | h <;> simp [h]
  have hgoOn (part : Part) (x : Transfer) (fd : ℤ) (rest : List Char) (part' : Part) (x' : Transfer) :
      sendingOrNext part x fd rest ≠ .failed part' x' := by
    rcases sendingOrNext_cases part x fd rest with ⟨-, h⟩ | h | h <;> simp [h]
  cases hstep with
  | wait | goOn | wake | up | down | lock | popNone | pop | free => exact ⟨hledger, .of_pc (by simp)⟩
  | recreate hpc hrecreate => exact ⟨hledger.sharedRecreate hrecreate hcond, .of_pc (by simp)⟩
  | connect connected hpc =>
    refine ⟨?_, .of_pc (by simp)⟩
    simp only [Ledger.send, hpc]
    exact hledger.sharedConnect i _ connected
  | start hpc htext => exact ⟨hledger, .of_pc (hgoOn _ _ _ _)⟩
  | @sendFails part x fd rest r hpc hsend =>
    simp only [Ledger.send, hpc]
    refine ⟨hledger.usedOrLost fd _ _ _, fun part' x' call h hlast herror => ?_⟩
    cases h
    rw [Transfer.record, List.getLast?_concat, Option.some.injEq] at hlast
    subst hlast
    rw [if_pos herror]
    exact List.mem_append_right _ (List.mem_cons_of_mem _ List.mem_cons_self)
  | @send part x fd rest left r hpc hsend =>
    simp only [Ledger.send, hpc]
    exact ⟨hledger.usedOrLost fd _ _ _, .of_pc (hgoOn _ _ _ _)⟩
  | @failed part x hpc =>
    refine ⟨hledger.clear hc fun hstate conn hconn _ => ?_, .of_pc (hnext _ _)⟩
    obtain ⟨call, hlast, rfl, herror⟩ := hcond hstate conn part x hconn hpc
    exact hw.send i part x call hpc hlast herror

/-- A step of workers that act on what they have seen drops lost connections only. -/
theorem watchStep_guarded {w w' : Watched F P} {a : Action F P} (hw : w.Guarded) (hcond : a.ActsOnLost w)
    (hstep : watchStep w a = some w') : w'.Guarded := by
  cases a with
  | recv i b =>
    obtain ⟨c, shared, r, hc, hworker, rfl⟩ := watchStep_recv hstep
    obtain ⟨hledger, hcertain⟩ := hworker.guarded hc hw (hcond c hc)
    have hmore := w.ledger.recv_events w.sys.shared c (w.sys.recv i) b
    refine ⟨hledger, ?_, fun j => (hw.send j).mono hmore⟩
    exact (Function.forall_update_iff w.sys.recv fun _ r => r.Certain _).mpr
      ⟨hcertain, fun j _ => (hw.recv j).mono hmore⟩
  | send i b =>
    obtain ⟨c, shared, r, hc, hworker, rfl⟩ := watchStep_send hstep
    obtain ⟨hledger, hcertain⟩ := hworker.guarded hc hw (hcond c hc)
    have hmore := w.ledger.send_events w.sys.shared c (w.sys.send i) b
    refine ⟨hledger, fun j => (hw.recv j).mono hmore, ?_⟩
    exact (Function.forall_update_iff w.sys.send fun _ r => r.Certain _).mpr
      ⟨hcertain, fun j _ => (hw.send j).mono hmore⟩
  | append | signal | sweep =>
    obtain ⟨hlist, hkernel, _, hledger, hrecv, hsend⟩ := watchStep_client hstep (by simp) (by simp)
    refine ⟨hlist ▸ hkernel ▸ hledger ▸ hw.ledger, hledger ▸ hrecv ▸ hw.recv, fun i => ?_⟩
    rw [hledger]
    rcases hsend i with hsame | ⟨_, hwoken⟩
    · exact hsame ▸ hw.send i
    · rw [hwoken]
      exact .of_pc (by simp)

/-- An entry that is up stays so when more entries follow. -/
theorem peerUp_append {gconnList : List Con} {j : ℕ} (h : PeerUp gconnList j) (more : List Con) :
    PeerUp (gconnList ++ more) j := by
  obtain ⟨c, hc, hstate⟩ := h
  have hlt := (List.getElem?_eq_some_iff.mp hc).1
  exact ⟨c, by rw [List.getElem?_append_left hlt, hc], hstate⟩

/-- A round of `create_peers` drops no connection that has been connected to. -/
theorem Ledger.Guarded.create {l : Ledger} {done : List Con} {k k' opened : Kernel} {peer : EndPeers}
    {start : PeerStart} {c : Con} (h : l.Guarded done k)
    (hlisted : ∀ j conn, l.current j = some conn → j < done.length)
    (hfirst : createPeer peer done.length start k = some (c, k')) (hsocket : k.socket done.length start.fd = some opened) :
    (l.create done.length start opened).Guarded (done ++ [c]) k' := by
  obtain ⟨opened', hsocket', hfd, hkernel⟩ := createPeer_socket hfirst
  obtain rfl : opened' = opened := Option.some.inj (hsocket'.symm.trans hsocket)
  rcases Kernel.made_of_socket hsocket with ⟨hnone, _⟩ | ⟨conn, _, hconnfd, _, hfresh, hhas, hmore, _⟩
  · rw [Kernel.made, if_neg (by omega)] at hnone
    cases hnone
  have hconn : opened'.connection start.fd = conn := by
    rw [Kernel.connection, ← hconnfd, hhas.2]
  have hcounts (fd : ℤ) : opened'.opened fd = k'.opened fd := by
    rw [hkernel]
    split <;> rfl
  have hentries : l.Guarded (done ++ [c]) k :=
    h.entries fun j _ _ hup hdown => absurd (peerUp_append hup [c]) hdown
  have hunknown : ¬ l.Knows conn := fun hknows => absurd (h.made conn hknows) (by rw [hconnfd]; omega)
  let base : Ledger := ⟨Function.update l.current done.length
    (if start.connected || start.retried then some conn else none), l.events ++ [.opened done.length conn]⟩
  have hbase : base.Guarded (done ++ [c]) k' := by
    have hk' : ∀ fd, k.opened fd ≤ k'.opened fd := fun fd => (hmore fd).trans (hcounts fd).le
    by_cases hsucceeds : (start.connected || start.retried) = true
    · have hstore : (l.store done.length (some conn)).Guarded (done ++ [c]) k' :=
        hentries.store (by rw [hconnfd]; exact hfresh) (by rw [← hcounts, hhas.2]) hk'
      simp only [base, if_pos hsucceeds]
      exact hstore
    · have hnone : l.current done.length = none :=
        Option.eq_none_iff_forall_ne_some.mpr fun conn hconn => absurd (hlisted _ conn hconn) (Nat.lt_irrefl _)
      simp only [base, if_neg hsucceeds]
      rw [← hnone, Function.update_eq_self]
      exact (hentries.kernel hk').snoc (by simp) (by simp) (by simp)
  have hconnected (fd : ℤ) (wasOpen : Bool) :
      .connected conn ∉ ((base.add [.used fd wasOpen]).add [.used fd wasOpen]).events := by
    simp only [Ledger.add, base, List.mem_append, List.mem_singleton, reduceCtorEq, or_false]
    exact fun hold => hunknown (Or.inr (Or.inl hold))
  have hup (hsucceeds : (start.connected || start.retried) = true) :
      base.current done.length = some conn ∧ PeerUp (done ++ [c]) done.length := by
    refine ⟨(Function.update_self ..).trans (if_pos hsucceeds), c, List.getElem?_concat_length, ?_⟩
    rw [(createPeer_entry hfirst).2, PeerStart.entry, if_pos hsucceeds]
  have hcreate : l.create done.length start opened' =
      base.add ((start.events done.length opened').drop 1) := by
    simp [Ledger.create, PeerStart.events, Ledger.add, base, hconn]
  rw [hcreate, PeerStart.events, hconn, List.drop_one, List.tail_cons, Ledger.add_cons]
  have hused := hbase.used start.fd (opened'.isOpen start.fd)
  by_cases hsuccess : start.connected = true
  · rw [if_pos hsuccess]
    obtain ⟨hcurrent, hlast⟩ := hup (by rw [hsuccess, Bool.true_or])
    exact hused.connected hcurrent hlast
  · rw [if_neg hsuccess, Ledger.add_cons, Ledger.add_cons _ (.closed conn), Ledger.add_cons _ (.used _ _)]
    have hclosed := (hused.used start.fd (opened'.isOpen start.fd)).snoc (e := .closed conn) (by simp)
      (fun other hother hconn => absurd (by cases hother; exact hconn) (hconnected _ _)) (by simp)
    have hagain := hclosed.used start.fd ((opened'.close start.fd).isOpen start.fd)
    by_cases hretried : start.retried = true
    · rw [if_pos hretried]
      obtain ⟨hcurrent, hlast⟩ := hup (by rw [hretried, Bool.or_true])
      exact hagain.connected hcurrent hlast
    · rw [if_neg hretried, Ledger.add_nil]
      exact hagain

/-- `create_peers` drops no connection that has been connected to. -/
theorem watchPeersFrom_guarded {start : ℕ → PeerStart} {peers : List EndPeers} {done gconnList : List Con}
    {k k' : Kernel} {l l' : Ledger} (h : l.Guarded done k)
    (hlisted : ∀ j conn, l.current j = some conn → j < done.length)
    (hpeers : watchPeersFrom start done.length peers k l = some (gconnList, k', l')) :
    l'.Guarded (done ++ gconnList) k' := by
  induction peers generalizing done gconnList k l with
  | nil =>
    cases hpeers
    rw [List.append_nil]
    exact h
  | cons peer peers ih =>
    obtain ⟨⟨c, k₁⟩, hfirst, hpeers⟩ := Option.bind_eq_some_iff.mp hpeers
    obtain ⟨opened, hsocket, hpeers⟩ := Option.bind_eq_some_iff.mp hpeers
    obtain ⟨⟨others, k₂, l₂⟩, hothers, hpeers⟩ := Option.bind_eq_some_iff.mp hpeers
    cases hpeers
    rw [List.append_cons]
    apply ih (h.create hlisted hfirst hsocket) (Ledger.create_listed _ _ c hlisted)
    rw [List.length_append, List.length_singleton]
    exact hothers

/-- In a run in which the workers act on what they have seen, a connection is dropped only after it has
been lost, and replaced at most once. -/
theorem keepsHealthy_of_actsOnLost {cfg : Configurator} {start : ℕ → PeerStart} {w : Watched F P}
    (hmanage : watchManage cfg start = some w) (acts : List (Action F P))
    (hall : EachStep watchStep (fun w a => a.ActsOnLost w) w acts) :
    manage cfg start = some w.sys ∧ Throughout watchStep Watched.KeepsHealthy w acts := by
  refine ⟨manage_of_watchManage hmanage, ?_⟩
  obtain ⟨⟨gconnList, k, l⟩, hpeers, rfl⟩ := Option.map_eq_some_iff.mp hmanage
  have hinitial : Ledger.initial.Guarded [] .initial := by
    refine ⟨by simp [Ledger.Knows, Ledger.initial], by simp [Ledger.initial], by simp [Ledger.initial],
      by simp [Ledger.initial], fun before e conn h => ?_, List.nodup_nil⟩
    exact absurd (List.prefix_nil.mp h) (List.append_ne_nil_of_right_ne_nil before (List.cons_ne_nil e []))
  have hguarded := watchPeersFrom_guarded hinitial (by simp [Ledger.initial]) hpeers
  exact throughout_of_eachStep watchStep (fun w a => a.ActsOnLost w) Watched.Guarded Watched.KeepsHealthy
    (fun _ hw => hw.ledger.healthy) (fun _ _ _ hw hcond hstep => watchStep_guarded hw hcond hstep) _ acts
    ⟨hguarded, fun _ => .of_pc (by simp [System.start]) (by simp [System.start]),
      fun _ => .of_pc (by simp [System.start])⟩ hall

/-- The receive worker of the first pair reads the end of its stream, closes the connection and marks it
as down. -/
def endOfFirst : List (Action Unit Unit) :=
  [.recv 0 .test, .recv 0 .call, .recv 0 (.finish [.arrived [] (.other 0)]), .recv 0 .close, .recv 0 .clear]

/-- It then reconnects while the send worker has nothing to send. -/
theorem endOfFirst_keepsHealthy : watchManage twoPeers bothConnect = some (twoPeersWatched : Watched Unit Unit) ∧
    manage twoPeers bothConnect = some (twoPeersUp : System Unit Unit) ∧
    Throughout watchStep Watched.KeepsHealthy (twoPeersWatched : Watched Unit Unit)
      (endOfFirst ++ [.recv 0 .test, .recv 0 .lock, .recv 0 (.recreate 5), .recv 0 (.connect true)]) := by
  have hmanage : watchManage twoPeers bothConnect = some (twoPeersWatched : Watched Unit Unit) := rfl
  refine ⟨hmanage, keepsHealthy_of_actsOnLost hmanage _ ?_⟩
  have hsame (c c' : Con) (h : some c = some c') : c' = c := (Option.some.inj h).symm
  apply EachStep.cons rfl fun _ _ => trivial
  apply EachStep.cons rfl fun _ _ => trivial
  apply EachStep.cons rfl fun _ _ => trivial
  apply EachStep.cons rfl
  · intro c hc
    rw [hsame _ c hc]
    rfl
  apply EachStep.cons rfl
  · intro c hc _ conn hconn
    cases hconn
    rfl
  apply EachStep.cons rfl fun _ _ => trivial
  apply EachStep.cons rfl fun _ _ => trivial
  apply EachStep.cons rfl
  · rintro c hc ⟨c', hc', hstate⟩
    rw [hsame _ c hc] at hc'
    rw [hsame _ c' hc'] at hstate
    exact absurd hstate (by decide)
  apply EachStep.cons rfl fun _ _ => trivial
  trivial

/-- The send worker finds the connection down just before the receive worker reconnects, and reconnects
once more when it gets `conntex`. -/
def bothReconnect : List (Action Unit Unit) :=
  .append 0 ⟨some ['x', '\x00'], 1, 0, 0, oneCharId 'a'⟩ () () ⟨0, 0⟩ :: endOfFirst ++
    [.send 0 .test, .send 0 .checkState, .recv 0 .test, .recv 0 .lock, .recv 0 (.recreate 5),
      .recv 0 (.connect true), .send 0 .lock, .send 0 (.recreate 6)]

/-- The new connection is replaced although nothing is wrong with it. -/
theorem bothReconnect_not_keepsHealthy :
    watchManage twoPeers bothConnect = some (twoPeersWatched : Watched Unit Unit) ∧
      ¬ Throughout watchStep Watched.KeepsHealthy (twoPeersWatched : Watched Unit Unit) bothReconnect := by
  refine ⟨rfl, fun hall => ?_⟩
  obtain ⟨final, hrun, hevents⟩ : ∃ final, runActions watchStep twoPeersWatched bothReconnect = some final ∧
      final.ledger.events = [.opened 0 ⟨3, 1⟩, .used 3 true, .connected ⟨3, 1⟩, .opened 1 ⟨4, 1⟩, .used 4 true,
        .connected ⟨4, 1⟩, .used 3 true, .used 3 true, .lost ⟨3, 1⟩, .used 3 true, .closed ⟨3, 1⟩,
        .overwritten ⟨3, 1⟩, .opened 0 ⟨5, 1⟩, .used 5 true, .connected ⟨5, 1⟩] ++ [.overwritten ⟨5, 1⟩] ++
          [.opened 0 ⟨6, 1⟩] := ⟨_, rfl, rfl⟩
  have hdrops := (throughout_final watchStep _ _ _ _ hall hrun).dropsLost _ (.overwritten ⟨5, 1⟩) ⟨5, 1⟩
    (hevents ▸ List.prefix_append _ _) rfl (by decide)
  exact absurd hdrops (by decide)

end TcpClb
