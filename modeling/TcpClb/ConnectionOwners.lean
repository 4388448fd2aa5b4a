import TcpClb.FrameStreams

/-!
# Whose bytes a connection carries

A send worker writes to a descriptor number that it has read from its entry, and by the time of a call
of `send` the number may have been closed and may stand for a connection to another peer. As long as
bytes are accepted only on connections that were made for the worker's own peer, all bytes of a
connection come from one worker: a number is returned again only for a later connection.
-/

namespace TcpClb

open TcpClb.Common

variable {F P : Type}

/-- The bytes that a connection has accepted by an effect. -/
def Effect.carried (conn : Connection) : Effect → List Char
  | .wrote call _ => if call.conn = conn then call.accepted else []
  | _ => []

/-- The bytes that a connection has accepted, whoever has sent them. -/
def Shared.carried (s : Shared F P) (conn : Connection) : List Char :=
  s.effects.flatMap fun e => e.2.carried conn

/-- If the step is a call of `send` that accepts bytes, its descriptor stands for a connection that was
made for the worker's own peer. -/
def Action.ToOwnPeer (s : System F P) : Action F P → Prop
  | .send i (.send r) => ∀ part x fd rest, (s.send i).pc = .sending part x fd rest →
      r.accepted rest ≠ [] → s.shared.kernel.peer fd = some i
  | _ => True

/-- A connection with bytes of a send worker carries nothing else, and was made for the peer of this worker. -/
structure System.OneSender (s : System F P) : Prop where
  known : ∀ i conn, (s.send i).stream conn ≠ [] → conn.opening ≤ s.shared.kernel.opened conn.fd
  peer : ∀ i conn, (s.send i).stream conn ≠ [] → conn.opening = s.shared.kernel.opened conn.fd →
    s.shared.kernel.peer conn.fd = some i
  carried : ∀ i conn, (s.send i).stream conn ≠ [] → s.shared.carried conn = (s.send i).stream conn
  sent : ∀ conn, s.shared.carried conn ≠ [] → ∃ i, (s.send i).stream conn ≠ []

/-- The bytes that `send` accepts on a connection in a call on a descriptor. -/
def Kernel.sentOn (k : Kernel) (fd : ℤ) (rest : List Char) (r : SendResult) (conn : Connection) : List Char :=
  if k.connection fd = conn then r.accepted rest else []

/-- What a connection carries after one more effect. -/
theorem Shared.carried_record (s : Shared F P) (i : ℕ) (e : Effect) (conn : Connection) :
    (s.record i e).carried conn = s.carried conn ++ e.carried conn := by
  rw [Shared.carried, Shared.record, List.flatMap_append, List.flatMap_singleton]
  rfl

/-- A connection carries what it did if it accepts nothing by the effect. -/
theorem Shared.carried_record_eq (s : Shared F P) (i : ℕ) {e : Effect} {conn : Connection} (he : e.carried conn = []) :
    (s.record i e).carried conn = s.carried conn := by
  rw [Shared.carried_record, he, List.append_nil]

/-- `recreate_conn` writes nothing. -/
theorem Shared.carried_recreate {s s' : Shared F P} {i : ℕ} {pid fd : ℤ} (h : s.recreate i pid fd = some s')
    (conn : Connection) : s'.carried conn = s.carried conn := by
  obtain ⟨made, _, rfl⟩ := Option.map_eq_some_iff.mp h
  rw [Shared.carried_record_eq _ i rfl, Shared.carried_record_eq _ i rfl]
  rfl

/-- Neither does its end. -/
theorem Shared.carried_connect (s : Shared F P) (i : ℕ) (pid : ℤ) (connected : Bool) (conn : Connection) :
    (s.connect i pid connected).carried conn = s.carried conn := by
  cases connected with
  | false => rfl
  | true => exact Shared.carried_record_eq _ i rfl

/-- Neither does `c->state = 0`. -/
theorem Shared.carried_clear (s : Shared F P) (i : ℕ) (conn : Connection) :
    (s.clear i).carried conn = s.carried conn :=
  Shared.carried_record_eq _ i rfl

/-- A receive worker writes nothing. -/
theorem RecvStep.carried {s s' : Shared F P} {i : ℕ} {c : Con} {w w' : RecvWorker} {a : RecvAction}
    (hstep : RecvStep s i c w a s' w') (conn : Connection) : s'.carried conn = s.carried conn := by
  cases hstep with
  | recreate hpc hrecreate => exact Shared.carried_recreate hrecreate conn
  | connect connected hpc => exact s.carried_connect i _ connected conn
  | clear => exact s.carried_clear i conn
  | test | lock | call | finish | remId | dispatched | close => rfl

/-- What a worker has written on a connection does not depend on where it stands with its messages. -/
theorem SendWorker.stream_eq {w w' : SendWorker} (h : w'.transfers = w.transfers) (conn : Connection) :
    w'.stream conn = w.stream conn := by
  rw [SendWorker.stream, SendWorker.stream, h]

/-- What a worker has written on a connection after one more call for the message in hand. -/
theorem SendWorker.stream_record (w w' : SendWorker) {x : Transfer} {rest left : List Char} {call : SendCall}
    (hold : w.pc.inHand = some (x, rest)) (hnew : w'.pc.inHand = some (x.record call, left))
    (hfinished : w'.finished = w.finished) (conn : Connection) :
    w'.stream conn = w.stream conn ++ if call.conn = conn then call.accepted else [] := by
  rw [SendWorker.stream, SendWorker.stream, SendWorker.transfers_eq hold, SendWorker.transfers_eq hnew, hfinished,
    List.flatMap_append, List.flatMap_append, List.flatMap_singleton, List.flatMap_singleton, x.acceptedOn_record,
    List.append_assoc]

/-- A step of a send worker writes nothing, or it is a call of `send`, which writes what it accepts on the
connection that its descriptor stands for. -/
theorem SendStep.stream {s s' : Shared F P} {i : ℕ} {c : Con} {w w' : SendWorker} {a : SendAction}
    (hstep : SendStep s i c w a s' w') :
    (∀ conn, w'.stream conn = w.stream conn ∧ s'.carried conn = s.carried conn) ∨
      ∃ part x fd rest r, a = .send r ∧ w.pc = .sending part x fd rest ∧
        ∀ conn, w'.stream conn = w.stream conn ++ s.kernel.sentOn fd rest r conn ∧
          s'.carried conn = s.carried conn ++ s.kernel.sentOn fd rest r conn := by
  have hidle {pc : SendPc} (hold : w.pc.inHand = none) (hnew : pc.inHand = none) (conn : Connection) :
      SendWorker.stream { w with pc := pc } conn = w.stream conn := by
    apply SendWorker.stream_eq
    rw [SendWorker.transfers, SendWorker.transfers, hold, hnew]
  cases hstep with
  | wait hpc | goOn hpc | wake hpc | up hpc | down hpc | lock hpc | popNone hpc =>
    exact .inl fun conn => ⟨hidle (by rw [hpc]; rfl) rfl conn, rfl⟩
  | recreate hpc hrecreate =>
    exact .inl fun conn => ⟨hidle (by rw [hpc]; rfl) rfl conn, Shared.carried_recreate hrecreate conn⟩
  | connect connected hpc =>
    exact .inl fun conn => ⟨hidle (by rw [hpc]; rfl) rfl conn, s.carried_connect i _ connected conn⟩
  | @pop q node cell hpc hpop hcell =>
    refine .inl fun conn => ⟨?_, Shared.carried_record_eq _ i rfl⟩
    rw [SendWorker.stream, SendWorker.stream, SendWorker.transfers, SendWorker.transfers, hpc]
    simp [SendPc.inHand, Transfer.acceptedOn]
  | @start part x text hpc htext =>
    have hhand : w.pc.inHand = some (x, part.bytes x.msg ++ part.after x.msg) := by rw [hpc]; rfl
    refine .inl fun conn => ⟨SendWorker.stream_eq ?_ conn, rfl⟩
    rw [SendWorker.transfers_eq hhand, SendWorker.transfers_eq (inHand_sendingOrNext part x c.fd text)]
  | @sendFails part x fd rest r hpc hsend =>
    have hhand : w.pc.inHand = some (x, rest ++ part.after x.msg) := by rw [hpc]; rfl
    refine .inr ⟨part, x, fd, rest, r, rfl, hpc, fun conn => ⟨?_, Shared.carried_record s i _ conn⟩⟩
    exact SendWorker.stream_record w { w with pc := .failed part (x.record ⟨s.kernel.connection fd, rest, r⟩) }
      hhand rfl rfl conn
  | @send part x fd rest left r hpc hsend =>
    have hhand : w.pc.inHand = some (x, rest ++ part.after x.msg) := by rw [hpc]; rfl
    refine .inr ⟨part, x, fd, rest, r, rfl, hpc, fun conn => ⟨?_, Shared.carried_record s i _ conn⟩⟩
    exact SendWorker.stream_record w
      { w with pc := sendingOrNext part (x.record ⟨s.kernel.connection fd, rest, r⟩) fd left }
      hhand (inHand_sendingOrNext part _ fd left) rfl conn
  | @failed part x hpc =>
    have hhand : w.pc.inHand = some (x, part.after x.msg) := by rw [hpc]; rfl
    refine .inl fun conn => ⟨SendWorker.stream_eq ?_ conn, s.carried_clear i conn⟩
    rw [SendWorker.transfers_eq hhand, SendWorker.transfers_eq (inHand_next part x)]
  | @free x q hpc hfree =>
    have hhand : w.pc.inHand = some (x, []) := by rw [hpc]; rfl
    refine .inl fun conn => ⟨SendWorker.stream_eq ?_ conn, rfl⟩
    rw [SendWorker.transfers_eq hhand]
    exact List.append_nil _

/-- A number stands for the connection that it did, or for a later one. -/
def Kernel.MovesOn (k k' : Kernel) : Prop :=
  ∀ fd, k.opened fd < k'.opened fd ∨ k'.opened fd = k.opened fd ∧ k'.peer fd = k.peer fd

/-- Nothing need change. -/
theorem Kernel.MovesOn.refl (k : Kernel) : k.MovesOn k := fun _ => .inr ⟨rfl, rfl⟩

/-- The number that `socket` returns stands for a later connection. -/
theorem Kernel.MovesOn.socket {k k' : Kernel} {pid : ℕ} {fd : ℤ} (h : k.socket pid fd = some k') : k.MovesOn k' := by
  rcases Kernel.socket_eq_some h with ⟨_, rfl⟩ | ⟨_, _, rfl⟩
  · exact .refl _
  · intro n
    by_cases hn : n = fd
    · subst hn
      exact .inl (by simp)
    · exact .inr ⟨Function.update_of_ne hn .., Function.update_of_ne hn ..⟩

/-- So does that of `recreate_conn`. -/
theorem Shared.recreate_movesOn {s s' : Shared F P} {i : ℕ} {pid fd : ℤ} (h : s.recreate i pid fd = some s') :
    s.kernel.MovesOn s'.kernel := by
  obtain ⟨made, hmade, rfl⟩ := Option.map_eq_some_iff.mp h
  obtain ⟨p, _, hsocket, _⟩ := recreateSocket_eq_some hmade
  exact .socket hsocket

/-- Numbers stand for the same connections, or later ones, after a step. -/
theorem sysStep_movesOn {s s' : System F P} {a : Action F P} (hstep : sysStep s a = some s') :
    s.shared.kernel.MovesOn s'.shared.kernel := by
  cases a with
  | recv i b =>
    obtain ⟨c, shared, w, _, hworker, rfl⟩ := sysStep_recv hstep
    cases hworker with
    | recreate hpc hrecreate => exact Shared.recreate_movesOn hrecreate
    | connect connected hpc => exact s.shared.connect_kernel i _ connected ▸ .refl _
    | close => exact fun _ => .inr ⟨rfl, rfl⟩
    | test | lock | call | finish | remId | dispatched | clear => exact .refl _
  | send i b =>
    obtain ⟨c, shared, w, _, hworker, rfl⟩ := sysStep_send hstep
    cases hworker with
    | recreate hpc hrecreate => exact Shared.recreate_movesOn hrecreate
    | connect connected hpc => exact s.shared.connect_kernel i _ connected ▸ .refl _
    | wait | goOn | wake | up | down | lock | popNone | pop | start | sendFails | send | failed | free =>
      exact .refl _
  | append | signal | sweep =>
    obtain ⟨store, hshared⟩ := sysStep_client_shared hstep nofun nofun
    rw [hshared]
    exact .refl _

/-- A step that writes nothing keeps it so. -/
theorem System.OneSender.keep {s s' : System F P} (hs : s.OneSender)
    (hkernel : s.shared.kernel.MovesOn s'.shared.kernel)
    (hstream : ∀ i conn, (s'.send i).stream conn = (s.send i).stream conn)
    (hcarried : ∀ conn, s'.shared.carried conn = s.shared.carried conn) : s'.OneSender where
  known i conn h := by
    rw [hstream] at h
    rcases hkernel conn.fd with hlater | ⟨hsame, _⟩
    · exact (hs.known i conn h).trans hlater.le
    · exact hsame ▸ hs.known i conn h
  peer i conn h hnow := by
    rw [hstream] at h
    rcases hkernel conn.fd with hlater | ⟨hsame, hpeer⟩
    · have := hs.known i conn h
      omega
    · exact hpeer.trans (hs.peer i conn h (hnow.trans hsame))
  carried i conn h := by
    rw [hstream] at h ⊢
    rw [hcarried, hs.carried i conn h]
  sent conn h := by
    rw [hcarried] at h
    obtain ⟨i, hi⟩ := hs.sent conn h
    exact ⟨i, (hstream i conn).symm ▸ hi⟩

/-- Only the worker of its peer has written on the connection that a descriptor stands for. -/
theorem System.OneSender.eq_of_peer {s : System F P} (hs : s.OneSender) {i j : ℕ} {fd : ℤ}
    (hpeer : s.shared.kernel.peer fd = some i) (hj : (s.send j).stream (s.shared.kernel.connection fd) ≠ []) : j = i := by
  have hjpeer : s.shared.kernel.peer fd = some j := hs.peer j _ hj rfl
  exact Option.some.inj (hjpeer.symm.trans hpeer)

/-- So what it has written there is all that the connection carries. -/
theorem System.OneSender.carried_of_peer {s : System F P} (hs : s.OneSender) {i : ℕ} {fd : ℤ}
    (hpeer : s.shared.kernel.peer fd = some i) : s.shared.carried (s.shared.kernel.connection fd) =
      (s.send i).stream (s.shared.kernel.connection fd) := by
  by_cases hcarried : s.shared.carried (s.shared.kernel.connection fd) = []
  · by_contra hne
    have hstream : (s.send i).stream (s.shared.kernel.connection fd) ≠ [] := fun h => hne (hcarried.trans h.symm)
    exact hne (hs.carried i _ hstream)
  · obtain ⟨j, hj⟩ := hs.sent _ hcarried
    exact hs.carried i _ (hs.eq_of_peer hpeer hj ▸ hj)

/-- So does a call of `send` that writes to a connection made for the worker's peer. -/
theorem System.OneSender.write {s s' : System F P} (hs : s.OneSender) {i : ℕ} {fd : ℤ} {rest : List Char}
    {r : SendResult} (hpeer : r.accepted rest ≠ [] → s.shared.kernel.peer fd = some i)
    (hkernel : s'.shared.kernel = s.shared.kernel)
    (hother : ∀ j, j ≠ i → s'.send j = s.send j)
    (hwritten : ∀ conn, (s'.send i).stream conn = (s.send i).stream conn ++ s.shared.kernel.sentOn fd rest r conn ∧
      s'.shared.carried conn = s.shared.carried conn ++ s.shared.kernel.sentOn fd rest r conn) : s'.OneSender := by
  by_cases hnone : r.accepted rest = []
  · have hsent (conn : Connection) : s.shared.kernel.sentOn fd rest r conn = [] := by
      rw [Kernel.sentOn, hnone, ite_self]
    refine hs.keep (hkernel ▸ .refl _) (fun j conn => ?_) fun conn => ?_
    · by_cases hj : j = i
      · rw [hj, (hwritten conn).1, hsent, List.append_nil]
      · rw [hother j hj]
    · rw [(hwritten conn).2, hsent, List.append_nil]
  have hown := hpeer hnone
  -- on the connection of the descriptor only this worker has written
  have hfirst := hs.carried_of_peer hown
  have hchanged (j : ℕ) (conn : Connection) (h : (s'.send j).stream conn ≠ []) :
      j = i ∧ conn = s.shared.kernel.connection fd ∨
        (s.send j).stream conn ≠ [] ∧ conn ≠ s.shared.kernel.connection fd ∧
          (s'.send j).stream conn = (s.send j).stream conn := by
    by_cases hconn : s.shared.kernel.connection fd = conn
    · by_cases hj : j = i
      · exact .inl ⟨hj, hconn.symm⟩
      · rw [hother j hj, ← hconn] at h
        exact absurd (hs.eq_of_peer hown h) hj
    · have hsame : (s'.send j).stream conn = (s.send j).stream conn := by
        by_cases hj : j = i
        · rw [hj, (hwritten conn).1, Kernel.sentOn, if_neg hconn, List.append_nil]
        · rw [hother j hj]
      exact .inr ⟨hsame ▸ h, fun h' => hconn h'.symm, hsame⟩
  constructor
  · intro j conn h
    rw [hkernel]
    rcases hchanged j conn h with ⟨_, rfl⟩ | ⟨hold, _⟩
    · exact le_rfl
    · exact hs.known j conn hold
  · intro j conn h hnow
    rw [hkernel] at hnow ⊢
    rcases hchanged j conn h with ⟨rfl, rfl⟩ | ⟨hold, _⟩
    · exact hown
    · exact hs.peer j conn hold hnow
  · intro j conn h
    rcases hchanged j conn h with ⟨rfl, rfl⟩ | ⟨hold, hconn, hsame⟩
    · rw [(hwritten _).1, (hwritten _).2, hfirst]
    · rw [(hwritten conn).2, Kernel.sentOn, if_neg hconn.symm, List.append_nil, hsame, hs.carried j conn hold]
  · intro conn h
    by_cases hconn : s.shared.kernel.connection fd = conn
    · refine ⟨i, ?_⟩
      rw [(hwritten conn).1, Kernel.sentOn, if_pos hconn]
      exact List.append_ne_nil_of_right_ne_nil _ hnone
    · rw [(hwritten conn).2, Kernel.sentOn, if_neg hconn, List.append_nil] at h
      obtain ⟨j, hj⟩ := hs.sent conn h
      refine ⟨j, ?_⟩
      by_cases hji : j = i
      · rw [hji, (hwritten conn).1, Kernel.sentOn, if_neg hconn, List.append_nil]
        exact hji ▸ hj
      · rwa [hother j hji]

/-- A client writes to no connection; it wakes a send worker at most. -/
theorem System.OneSender.client {s s' : System F P} {a : Action F P} (hs : s.OneSender)
    (hstep : sysStep s a = some s') (hrecv : ∀ i b, a ≠ .recv i b) (hsend : ∀ i b, a ≠ .send i b) :
    s'.OneSender := by
  obtain ⟨store, hshared⟩ := sysStep_client_shared hstep hrecv hsend
  refine hs.keep (sysStep_movesOn hstep) (fun i conn => ?_) fun conn => by rw [hshared]; rfl
  rcases sysStep_send_eq hstep hsend i with hsame | ⟨hwait, hwoken⟩
  · rw [hsame]
  · rw [hwoken]
    apply SendWorker.stream_eq
    rw [SendWorker.transfers, SendWorker.transfers, hwait]
    rfl

/-- A step that writes to the worker's own peer only keeps one sender to a connection. -/
theorem sysStep_oneSender {s s' : System F P} {a : Action F P} (hs : s.OneSender) (ha : a.ToOwnPeer s)
    (hstep : sysStep s a = some s') : s'.OneSender := by
  have hkernel := sysStep_movesOn hstep
  cases a with
  | recv i b =>
    obtain ⟨c, shared, w, _, hworker, rfl⟩ := sysStep_recv hstep
    exact hs.keep hkernel (fun _ _ => rfl) hworker.carried
  | send i b =>
    obtain ⟨c, shared, w, _, hworker, rfl⟩ := sysStep_send hstep
    have hother (j : ℕ) (hj : j ≠ i) : Function.update s.send i w j = s.send j := Function.update_of_ne hj ..
    have hself : Function.update s.send i w i = w := Function.update_self ..
    rcases hworker.stream with hsame | ⟨part, x, fd, rest, r, rfl, hpc, hwritten⟩
    · refine hs.keep hkernel (fun j conn => ?_) fun conn => (hsame conn).2
      change (Function.update s.send i w j).stream conn = _
      by_cases hj : j = i
      · rw [hj, hself, (hsame conn).1]
      · rw [hother j hj]
    · have hsame : shared.kernel = s.shared.kernel := by
        cases hworker <;> rfl
      refine hs.write (ha part x fd rest hpc) hsame hother fun conn => ?_
      change (Function.update s.send i w i).stream conn = _ ∧ _
      rw [hself]
      exact hwritten conn
  | append => exact hs.client hstep (by simp) (by simp)
  | signal => exact hs.client hstep (by simp) (by simp)
  | sweep => exact hs.client hstep (by simp) (by simp)

/-- Nothing has been written at the start. -/
theorem System.start_oneSender (cfg : Configurator) (gconnList : List Con) (kernel : Kernel) :
    (System.start cfg gconnList kernel : System F P).OneSender :=
  ⟨fun _ _ h => absurd rfl h, fun _ _ h => absurd rfl h, fun _ _ h => absurd rfl h, fun _ h => absurd rfl h⟩

end TcpClb
