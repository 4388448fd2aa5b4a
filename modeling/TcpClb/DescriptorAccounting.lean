import TcpClb.ConnectionLock
import TcpClb.Descriptors
import TcpClb.PeerOwnership

/-!
# Accounting of descriptors

Every socket that was opened for a peer is closed or in the entry of the peer, and every call is on an
open descriptor, as long as `create_peers` connects at the first attempt, `recreate_conn` is called when
the old descriptor has been closed, and the receive worker does not close it in the middle of a message
that the send worker sends.

The workers ensure none of this: a failed `send` makes the connection be recreated without a `close`, and
a `close` does not wait for `send_to_fd`.
-/

namespace TcpClb

open TcpClb.Common

variable {F P : Type}

/-- What the claims of descriptors come down to: every open socket of a peer is in its entry, so there is
one at most, and every call was on an open descriptor. -/
structure Watched.Accounted (w : Watched F P) : Prop where
  held : ∀ pid conn, .opened pid conn ∈ w.ledger.events → w.sys.shared.kernel.Has conn →
    ∃ c, w.sys.shared.gconnList[pid]? = some c ∧ c.fd = conn.fd
  oneOpen : ∀ pid conn conn', .opened pid conn ∈ w.ledger.events → .opened pid conn' ∈ w.ledger.events →
    w.sys.shared.kernel.Has conn → w.sys.shared.kernel.Has conn' → conn = conn'
  usedOpen : ∀ fd wasOpen, .used fd wasOpen ∈ w.ledger.events → wasOpen = true

/-- An entry holds a connection that is open. -/
def Kernel.Holds (k : Kernel) (entry : Option Connection) : Prop := ∃ conn, entry = some conn ∧ k.Has conn

/-- The receive worker recreates a connection that has been closed, and gets a socket, and closes a
connection while the send worker is not sending. -/
def RecvAction.Tidies (w : Watched F P) (i : ℕ) (c : Con) : RecvAction → Prop
  | .recreate fd => 0 ≤ fd ∧ ¬ w.sys.shared.kernel.Holds (w.ledger.current c.peerId.toNat)
  | .close => ∀ part x fd rest, (w.sys.send i).pc ≠ .sending part x fd rest
  | _ => True

/-- The send worker recreates a connection that has been closed, and gets a socket, and starts to send
something while its connection is open. -/
def SendAction.Tidies (w : Watched F P) (i : ℕ) (c : Con) : SendAction → Prop
  | .recreate fd => 0 ≤ fd ∧ ¬ w.sys.shared.kernel.Holds (w.ledger.current c.peerId.toNat)
  | .start => ∀ part x text, (w.sys.send i).pc = .start part x → part.text x.msg = some text → text ≠ [] →
      w.sys.shared.kernel.Holds (w.ledger.current i)
  | _ => True

/-- The same for a step of the system. -/
def Action.Tidies (w : Watched F P) : Action F P → Prop
  | .recv i a => ∀ c, w.sys.shared.gconnList[i]? = some c → a.Tidies w i c
  | .send i a => ∀ c, w.sys.shared.gconnList[i]? = some c → a.Tidies w i c
  | _ => True

/-- What holds of the entries, the kernel and the ledger while descriptors are accounted for. -/
structure Ledger.Tidy (l : Ledger) (gconnList : List Con) (k : Kernel) : Prop where
  named : ∀ (i : ℕ) c, gconnList[i]? = some c → c.peerId = i
  stored : ∀ i conn, l.current i = some conn → ∃ c, gconnList[i]? = some c ∧ c.fd = conn.fd
  made : ∀ i conn, l.current i = some conn ∨ .opened i conn ∈ l.events → conn.opening ≤ k.opened conn.fd
  distinct : ∀ i j conn, l.current i = some conn → l.current j = some conn → i = j
  held : ∀ i conn, .opened i conn ∈ l.events → k.Has conn → l.current i = some conn
  usedOpen : ∀ fd wasOpen, .used fd wasOpen ∈ l.events → wasOpen = true

/-- The receive worker reads from its connection, or is about to close it. -/
def RecvPc.Reads : RecvPc → Prop
  | .call | .receiving _ | .dispatch _ | .close _ => True
  | _ => False

/-- What holds of the workers of pair `i` and its entry while descriptors are accounted for. -/
structure PairTidy (i : ℕ) (r : RecvPc) (t : SendPc) (entry : Option Connection) (k : Kernel)
    (isUp : Prop) : Prop where
  reads : r.Reads → k.Holds entry
  receiving : ∀ conn, r = .receiving conn → entry = some conn
  up : isUp → r ≠ .clear → k.Holds entry
  sending : ∀ part x fd rest, t = .sending part x fd rest →
    ∃ conn, entry = some conn ∧ k.Has conn ∧ conn.fd = fd
  recvConnect : ∀ pid, r = .connect pid → pid = i ∧ k.Holds entry
  sendConnect : ∀ pid, t = .connect pid → pid = i ∧ k.Holds entry ∧ ¬ isUp ∧ ¬ r.Reads

/-- What holds in every state while descriptors are accounted for. -/
structure Watched.Tidy (w : Watched F P) : Prop where
  ledger : w.ledger.Tidy w.sys.shared.gconnList w.sys.shared.kernel
  pairs : ∀ i, PairTidy i (w.sys.recv i).pc (w.sys.send i).pc (w.ledger.current i) w.sys.shared.kernel
    (PeerUp w.sys.shared.gconnList i)
  exclusive : w.sys.Exclusive

/-- What a worker of pair `i` does to the entries, the kernel and the ledger. -/
structure Ledger.Turn (i : ℕ) (l : Ledger) (gconnList : List Con) (k : Kernel) (l' : Ledger)
    (gconnList' : List Con) (k' : Kernel) : Prop where
  tidy : l'.Tidy gconnList' k'
  current : ∀ j, j ≠ i → l'.current j = l.current j
  has : ∀ j conn, j ≠ i → l.current j = some conn → k.Has conn → k'.Has conn
  up : ∀ j, j ≠ i → (PeerUp gconnList' j ↔ PeerUp gconnList j)

/-- What holds of the workers makes descriptors accounted for. -/
theorem Watched.Tidy.accounted {w : Watched F P} (hw : w.Tidy) : w.Accounted := by
  refine ⟨fun pid conn hopened hhas => ?_, fun pid conn conn' hopened hopened' hhas hhas' => ?_,
    hw.ledger.usedOpen⟩
  · exact hw.ledger.stored pid conn (hw.ledger.held pid conn hopened hhas)
  · have hcurrent := hw.ledger.held pid conn hopened hhas
    rw [hw.ledger.held pid conn' hopened' hhas', Option.some.injEq] at hcurrent
    exact hcurrent.symm

/-- Closing a descriptor closes its connection and no other. -/
theorem Kernel.has_close (k : Kernel) (fd : ℤ) (conn : Connection) :
    (k.close fd).Has conn ↔ conn.fd ≠ fd ∧ k.Has conn := by
  unfold Kernel.Has Kernel.close
  by_cases hfd : conn.fd = fd
  · simp [hfd]
  · simp [hfd]

/-- `socket` leaves the connections that are open. -/
theorem Kernel.Has.socket {k k' : Kernel} {pid : ℕ} {fd : ℤ} {conn : Connection} (h : k.Has conn)
    (hsocket : k.socket pid fd = some k') : k'.Has conn := by
  rcases Kernel.made_of_socket hsocket with ⟨_, rfl⟩ | ⟨_, _, _, hclosed, _, _, _, hothers⟩
  · exact h
  · have hne : conn.fd ≠ fd := by
      rintro rfl
      rw [h.1] at hclosed
      cases hclosed
    rw [Kernel.Has, (hothers conn.fd hne).1, (hothers conn.fd hne).2]
    exact h

/-- Two connections that are open under one number are the same. -/
theorem Kernel.Has.eq {k : Kernel} {conn conn' : Connection} (h : k.Has conn) (h' : k.Has conn')
    (hfd : conn.fd = conn'.fd) : conn = conn' := by
  cases conn with
  | mk fd opening =>
    cases conn' with
    | mk fd' opening' =>
      cases hfd
      have hopening : opening = opening' := h.2.symm.trans h'.2
      rw [hopening]

/-- The descriptor of an entry that holds an open connection is open, and stands for it. -/
theorem Ledger.Tidy.isOpen {l : Ledger} {gconnList : List Con} {k : Kernel} (h : l.Tidy gconnList k) {i : ℕ}
    {c : Con} (hc : gconnList[i]? = some c) (hholds : k.Holds (l.current i)) :
    k.isOpen c.fd = true ∧ l.current i = some (k.connection c.fd) := by
  obtain ⟨conn, hconn, hhas⟩ := hholds
  obtain ⟨c', hc', hfd⟩ := h.stored i conn hconn
  rw [hc, Option.some.injEq] at hc'
  rw [hc', hfd, Kernel.connection, hhas.2]
  exact ⟨hhas.1, hconn⟩

/-- The descriptor of a connection that an entry holds is open. -/
theorem Kernel.Holds.isOpen {k : Kernel} {entry : Option Connection} {conn : Connection} (h : k.Holds entry)
    (hentry : entry = some conn) : k.isOpen conn.fd = true := by
  obtain ⟨conn', hconn', hhas⟩ := h
  rw [hentry, Option.some.injEq] at hconn'
  exact hconn' ▸ hhas.1

/-- Something happens to an open descriptor that opens none. -/
theorem Ledger.Tidy.snoc {l : Ledger} {gconnList : List Con} {k : Kernel} {e : FdEvent} (h : l.Tidy gconnList k)
    (hopened : ∀ i conn, e ≠ .opened i conn) (hused : ∀ fd wasOpen, e = .used fd wasOpen → wasOpen = true) :
    (l.add [e]).Tidy gconnList k := by
  have hmem (e' : FdEvent) (he' : e' ∈ (l.add [e]).events) : e' ∈ l.events ∨ e = e' :=
    Ledger.mem_add_singleton.mp he'
  refine ⟨h.named, h.stored, fun i conn hconn => ?_, h.distinct, fun i conn hconn => ?_,
    fun fd wasOpen hmemused => ?_⟩
  · exact h.made i conn (hconn.imp_right fun hold => (hmem _ hold).resolve_right (hopened i conn))
  · exact h.held i conn ((hmem _ hconn).resolve_right (hopened i conn))
  · exact (hmem _ hmemused).elim (h.usedOpen fd wasOpen) (hused fd wasOpen)

/-- An open descriptor is used. -/
theorem Ledger.Tidy.used {l : Ledger} {gconnList : List Con} {k : Kernel} (h : l.Tidy gconnList k) (fd : ℤ)
    {wasOpen : Bool} (hopen : wasOpen = true) : (l.add [.used fd wasOpen]).Tidy gconnList k := by
  apply h.snoc
  · simp
  · intro fd' wasOpen' heq
    cases heq
    exact hopen

/-- A descriptor is closed. -/
theorem Ledger.Tidy.close {l : Ledger} {gconnList : List Con} {k : Kernel} (h : l.Tidy gconnList k) (fd : ℤ) :
    l.Tidy gconnList (k.close fd) :=
  ⟨h.named, h.stored, h.made, h.distinct,
    fun i conn hopened hhas => h.held i conn hopened ((k.has_close fd conn).mp hhas).2, h.usedOpen⟩

/-- The state of an entry is set. -/
theorem Ledger.Tidy.assignState {l : Ledger} {gconnList : List Con} {k : Kernel} (h : l.Tidy gconnList k) (i : ℕ)
    (state : ℤ) : l.Tidy (setState gconnList i state) k := by
  refine ⟨fun j c hc => ?_, fun j conn hconn => ?_, h.made, h.distinct, h.held, h.usedOpen⟩
  · rw [getElem?_setState] at hc
    obtain ⟨old, hold, rfl⟩ := Option.map_eq_some_iff.mp hc
    have hnamed := h.named j old hold
    split <;> exact hnamed
  · obtain ⟨c, hc, hfd⟩ := h.stored j conn hconn
    refine ⟨_, by rw [getElem?_setState, hc, Option.map_some], ?_⟩
    split <;> exact hfd

/-- Nothing changes. -/
theorem Ledger.Tidy.turn {l : Ledger} {gconnList : List Con} {k : Kernel} (h : l.Tidy gconnList k) (i : ℕ) :
    l.Turn i gconnList k l gconnList k :=
  ⟨h, fun _ _ => rfl, fun _ _ _ _ hhas => hhas, fun _ _ => Iff.rfl⟩

/-- Something happens to an open descriptor that opens none, after a turn. -/
theorem Ledger.Turn.add {i : ℕ} {l l' : Ledger} {gconnList gconnList' : List Con} {k k' : Kernel}
    (h : l.Turn i gconnList k l' gconnList' k') {events : List FdEvent}
    (htidy : (l'.add events).Tidy gconnList' k') : l.Turn i gconnList k (l'.add events) gconnList' k' :=
  ⟨htidy, h.current, h.has, h.up⟩

/-- An open descriptor is used, which may show that its connection is lost. -/
theorem Ledger.Tidy.turn_usedOrLost {l : Ledger} {gconnList : List Con} {k : Kernel} (h : l.Tidy gconnList k)
    (i : ℕ) (fd : ℤ) {wasOpen : Bool} (hopen : wasOpen = true) (conn : Connection) (lost : Prop) [Decidable lost] :
    l.Turn i gconnList k (l.add (.used fd wasOpen :: if lost then [.lost conn] else [])) gconnList k := by
  rw [Ledger.add_cons]
  apply ((h.turn i).add (h.used fd hopen)).add
  by_cases hlost : lost
  · rw [if_pos hlost]
    exact (h.used fd hopen).snoc (by simp) (by simp)
  · rw [if_neg hlost, Ledger.add_nil]
    exact h.used fd hopen

/-- The state of the entry of the pair is set. -/
theorem Ledger.Tidy.turn_setState {l : Ledger} {gconnList : List Con} {k : Kernel} (h : l.Tidy gconnList k)
    (i : ℕ) (state : ℤ) : l.Turn i gconnList k l (setState gconnList i state) k :=
  ⟨h.assignState i state, fun _ _ => rfl, fun _ _ _ _ hhas => hhas, fun _ hj => peerUp_setState hj.symm⟩

/-- The descriptor of the entry of the pair, which is open, is closed. -/
theorem Ledger.Tidy.turn_close {l : Ledger} {gconnList : List Con} {k : Kernel} (h : l.Tidy gconnList k) {i : ℕ}
    {c : Con} (hc : gconnList[i]? = some c) (hholds : k.Holds (l.current i)) :
    l.Turn i gconnList k l gconnList (k.close c.fd) := by
  refine ⟨h.close c.fd, fun _ _ => rfl, fun j conn hj hconn hhas => ?_, fun _ _ => Iff.rfl⟩
  rw [Kernel.has_close, and_iff_left hhas]
  intro hfd
  obtain ⟨own, hown, hownhas⟩ := hholds
  obtain ⟨c', hc', hownfd⟩ := h.stored i own hown
  rw [hc, Option.some.injEq] at hc'
  rw [hc', hownfd] at hfd
  rw [hhas.eq hownhas hfd] at hconn
  exact hj (h.distinct j i own hconn hown)

/-- What `recreate_conn` leaves in the entries up to `connect`. -/
theorem getElem?_recreated (gconnList : List Con) (i j : ℕ) (fd : ℤ) :
    (setFd (setState gconnList i 0) i fd)[j]? =
      gconnList[j]?.map fun c => if i = j then { c with state := 0, fd := fd } else c := by
  rw [getElem?_setFd, getElem?_setState]
  cases gconnList[j]? with
  | none => rfl
  | some c => by_cases hij : i = j <;> simp [hij]

/-- A connection that was known before is not the one that `socket` makes, and is open afterwards only if
it was open. -/
theorem Ledger.Tidy.other {l : Ledger} {gconnList : List Con} {k k' : Kernel} (h : l.Tidy gconnList k)
    {pid : ℕ} {fd : ℤ} {conn : Connection} (hsocket : k.socket pid fd = some k') (hconn : k.made fd = some conn) {j : ℕ}
    {other : Connection} (hold : l.current j = some other ∨ .opened j other ∈ l.events) :
    other ≠ conn ∧ (k'.Has other → k.Has other) := by
  rcases Kernel.made_of_socket hsocket with ⟨hnone, _⟩ | ⟨conn', hconn', hfd, _, hfresh, hhas, _, hothers⟩
  · rw [hconn] at hnone
    cases hnone
  · rw [hconn, Option.some.injEq] at hconn'
    subst hconn' hfd
    have hne : other ≠ conn := by
      rintro rfl
      exact absurd (h.made j other hold) (Nat.not_le.mpr hfresh)
    refine ⟨hne, fun hnow => ?_⟩
    have hnumber : other.fd ≠ conn.fd := fun hsame => hne (hnow.eq hhas hsame)
    rw [Kernel.Has, ← (hothers other.fd hnumber).1, ← (hothers other.fd hnumber).2]
    exact hnow

/-- An entry whose connection has been closed loses it. -/
theorem Ledger.Tidy.overwrite {l : Ledger} {gconnList : List Con} {k : Kernel} (h : l.Tidy gconnList k) {i : ℕ}
    (hclosed : ¬ k.Holds (l.current i)) : (l.overwrite i).Tidy gconnList k := by
  have hbefore (j : ℕ) (conn : Connection) (hj : (l.overwrite i).current j = some conn) :
      l.current j = some conn := (Ledger.overwrite_current_eq_some.mp hj).2
  have hmem {e : FdEvent} (he : e ∈ (l.overwrite i).events) (hne : ∀ old, e ≠ .overwritten old) :
      e ∈ l.events := by
    apply (List.mem_append.mp he).resolve_right
    intro hgone
    obtain ⟨old, _, rfl⟩ := List.mem_map.mp hgone
    exact hne old rfl
  refine ⟨h.named, fun j conn hj => h.stored j conn (hbefore j conn hj),
    fun j conn hj => h.made j conn (hj.imp (hbefore j conn) (hmem · (by simp))),
    fun a b conn ha hb => h.distinct a b conn (hbefore a conn ha) (hbefore b conn hb),
    fun j conn hopened hhas => ?_, fun fd wasOpen hused => h.usedOpen fd wasOpen (hmem hused (by simp))⟩
  have hcurrent := h.held j conn (hmem hopened (by simp)) hhas
  refine Ledger.overwrite_current_eq_some.mpr ⟨?_, hcurrent⟩
  rintro rfl
  exact hclosed ⟨conn, hcurrent, hhas⟩

/-- What `socket` has made is stored in an entry that holds nothing. -/
theorem Ledger.Tidy.store {l : Ledger} {gconnList after : List Con} {k k' : Kernel} (h : l.Tidy gconnList k)
    {i pid : ℕ} {fd : ℤ} {conn : Connection} (hnone : l.current i = none) (hsocket : k.socket pid fd = some k')
    (hconn : k.made fd = some conn) (hnamed : ∀ (j : ℕ) c, after[j]? = some c → c.peerId = j)
    (hown : ∃ c, after[i]? = some c ∧ c.fd = conn.fd)
    (hothers : ∀ j c, j ≠ i → gconnList[j]? = some c → ∃ c', after[j]? = some c' ∧ c'.fd = c.fd) :
    (l.store i (some conn)).Tidy after k' := by
  rcases Kernel.made_of_socket hsocket with ⟨hfails, _⟩ | ⟨conn', hconn', _, _, _, hhas, hmore, _⟩
  · rw [hconn] at hfails
    cases hfails
  rw [hconn, Option.some.injEq] at hconn'
  subst hconn'
  have hbefore (j : ℕ) (other : Connection) (hj : (l.store i (some conn)).current j = some other) :
      j = i ∧ other = conn ∨ j ≠ i ∧ l.current j = some other := Ledger.store_current_eq_some.mp hj
  have hopened (j : ℕ) (other : Connection) (hmem : .opened j other ∈ (l.store i (some conn)).events) :
      j = i ∧ other = conn ∨ .opened j other ∈ l.events := by
    rcases Ledger.mem_store.mp hmem with hold | hnew
    · exact Or.inr hold
    · cases hnew
      exact Or.inl ⟨rfl, rfl⟩
  refine ⟨hnamed, fun j other hj => ?_, fun j other hj => ?_, fun a b other ha hb => ?_,
    fun j other hmem hnow => ?_, fun fd' wasOpen hmem => ?_⟩
  · rcases hbefore j other hj with ⟨rfl, rfl⟩ | ⟨hji, hold⟩
    · exact hown
    · obtain ⟨c, hc, hfd⟩ := h.stored j other hold
      obtain ⟨c', hc', hfd'⟩ := hothers j c hji hc
      exact ⟨c', hc', hfd'.trans hfd⟩
  · have hold : other = conn ∨ l.current j = some other ∨ .opened j other ∈ l.events :=
      hj.elim (fun hcur => (hbefore j other hcur).imp And.right fun hold => Or.inl hold.2)
        fun hmem => (hopened j other hmem).imp And.right Or.inr
    rcases hold with rfl | hold
    · exact hhas.2.ge
    · exact (h.made j other hold).trans (hmore other.fd)
  · rcases hbefore a other ha with ⟨hai, haconn⟩ | ⟨hai, haold⟩
    · rcases hbefore b other hb with ⟨hbi, _⟩ | ⟨_, hbold⟩
      · exact hai.trans hbi.symm
      · exact absurd haconn (h.other hsocket hconn (Or.inl hbold)).1
    · rcases hbefore b other hb with ⟨_, hbconn⟩ | ⟨_, hbold⟩
      · exact absurd hbconn (h.other hsocket hconn (Or.inl haold)).1
      · exact h.distinct a b other haold hbold
  · apply Ledger.store_current_eq_some.mpr
    apply (hopened j other hmem).imp_right
    intro hold
    have hcurrent := h.held j other hold ((h.other hsocket hconn (Or.inr hold)).2 hnow)
    refine ⟨?_, hcurrent⟩
    rintro rfl
    rw [hnone] at hcurrent
    cases hcurrent
  · rcases Ledger.mem_store.mp hmem with hold | hnew
    · exact h.usedOpen fd' wasOpen hold
    · cases hnew

/-- `recreate_conn` of a connection that has been closed, up to a `socket` that succeeds. -/
theorem Ledger.Tidy.recreate {l : Ledger} {gconnList : List Con} {k k' : Kernel} (h : l.Tidy gconnList k)
    {i pid : ℕ} {c : Con} {conn : Connection} (hc : gconnList[i]? = some c)
    (hsocket : k.socket pid conn.fd = some k') (hconn : k.made conn.fd = some conn)
    (hclosed : ¬ k.Holds (l.current i)) :
    ((l.overwrite i).store i (some conn)).Tidy (setFd (setState gconnList i 0) i conn.fd) k' := by
  apply (h.overwrite hclosed).store (l.overwrite_current i) hsocket hconn
  · intro j c' hc'
    rw [getElem?_recreated] at hc'
    obtain ⟨old, hold, rfl⟩ := Option.map_eq_some_iff.mp hc'
    have hnamed := h.named j old hold
    split <;> exact hnamed
  · exact ⟨_, by rw [getElem?_recreated, hc, Option.map_some, if_pos rfl], rfl⟩
  · intro j c' hji hc'
    exact ⟨c', by rw [getElem?_recreated, hc', Option.map_some, if_neg (Ne.symm hji)], rfl⟩

/-- It leaves the other entries, and the entry of the pair with a connection that is open and not up. -/
theorem Ledger.Tidy.turn_recreate {l : Ledger} {gconnList made : List Con} {k k' : Kernel}
    (h : l.Tidy gconnList k) {cfg : Configurator} {i : ℕ} {c : Con} {fd : ℤ} (hc : gconnList[i]? = some c)
    (hmade : recreateSocket cfg gconnList k i fd = some (made, k')) (hfd : 0 ≤ fd)
    (hclosed : ¬ k.Holds (l.current i)) : l.Turn i gconnList k (l.recreate k i fd) made k' ∧
      k'.Holds ((l.recreate k i fd).current i) ∧ ¬ PeerUp made i := by
  obtain ⟨p, hp, hsocket, rfl⟩ := recreateSocket_eq_some hmade
  obtain rfl : i = p := Int.ofNat.inj hp
  rcases Kernel.made_of_socket hsocket with ⟨hnone, _⟩ | ⟨conn, hconn, rfl, _, _, hhas, _⟩
  · rw [Kernel.made, if_neg (by omega)] at hnone
    cases hnone
  have hledger : l.recreate k i conn.fd = (l.overwrite i).store i (some conn) := by
    rw [Ledger.recreate, hconn, Int.toNat_natCast]
  rw [hledger]
  refine ⟨⟨h.recreate hc hsocket hconn hclosed, fun j hj => ?_, fun j other _ _ hold => hold.socket hsocket,
    fun j hj => ?_⟩, ⟨conn, Function.update_self .., hhas⟩, ?_⟩
  · change Function.update (Function.update l.current i none) i (some conn) j = l.current j
    rw [Function.update_of_ne hj, Function.update_of_ne hj]
  · rw [peerUp_setFd, peerUp_setState hj.symm]
  · rintro ⟨c', hc', hstate⟩
    rw [getElem?_recreated, hc, Option.map_some, if_pos rfl, Option.some.injEq] at hc'
    rw [← hc'] at hstate
    cases hstate

/-- An entry whose state is set to 0 is not up. -/
theorem not_peerUp_setState (gconnList : List Con) (i : ℕ) : ¬ PeerUp (setState gconnList i 0) i := by
  rintro ⟨c, hc, hstate⟩
  rw [getElem?_setState] at hc
  obtain ⟨old, _, rfl⟩ := Option.map_eq_some_iff.mp hc
  rw [if_pos rfl] at hstate
  cases hstate

/-- `connect` is not a step of what an entry holds. -/
theorem Ledger.connect_current (l : Ledger) (s : Shared F P) (pid : ℤ) (connected : Bool) :
    (l.connect s pid connected).current = l.current := by
  unfold Ledger.connect
  split <;> rfl

/-- `recreate_conn` from `connect` on, with the descriptor still open. -/
theorem Ledger.Tidy.turn_connect {l : Ledger} {s : Shared F P} (h : l.Tidy s.gconnList s.kernel) {i : ℕ} {c : Con}
    (hc : s.gconnList[i]? = some c) (hholds : s.kernel.Holds (l.current i)) (connected : Bool) :
    l.Turn i s.gconnList s.kernel (l.connect s i connected) (s.connect i i connected).gconnList
      (s.connect i i connected).kernel := by
  have hopen := (h.isOpen hc hholds).1
  have hlist : l.connect s i connected = l.add (.used c.fd (s.kernel.isOpen c.fd) ::
      if connected then (l.current i).toList.map .connected else []) := by
    rw [Ledger.connect, Int.toNat_natCast, hc]
  rw [hlist]
  cases connected with
  | false => exact (h.turn i).add (h.used c.fd hopen)
  | true =>
    have hturn : l.Turn i s.gconnList s.kernel l (setState s.gconnList i 1) s.kernel := h.turn_setState i 1
    apply hturn.add
    rw [Ledger.add_cons]
    have hused := hturn.tidy.used c.fd hopen
    cases l.current i with
    | none => exact (Ledger.add_nil _).symm ▸ hused
    | some conn => exact hused.snoc (by simp) (by simp)

/-- The receive worker goes where it does not read. -/
theorem PairTidy.recvIdle {i : ℕ} {r r' : RecvPc} {t : SendPc} {entry : Option Connection} {k : Kernel}
    {isUp isUp' : Prop} (h : PairTidy i r t entry k isUp) (hreads : ¬ r'.Reads)
    (hconnect : ∀ pid, r' ≠ .connect pid) (hup : isUp' → r' ≠ .clear → k.Holds entry)
    (hdown : ∀ pid, t = .connect pid → ¬ isUp') : PairTidy i r' t entry k isUp' where
  reads hr := absurd hr hreads
  receiving conn hr := absurd (hr ▸ trivial) hreads
  up := hup
  sending := h.sending
  recvConnect pid hr := absurd hr (hconnect pid)
  sendConnect pid ht := by
    obtain ⟨hpid, hholds, _, _⟩ := h.sendConnect pid ht
    exact ⟨hpid, hholds, hdown pid ht, hreads⟩

/-- The receive worker goes on with a connection that is open while the send worker does not connect. -/
theorem PairTidy.recvReads {i : ℕ} {r r' : RecvPc} {t : SendPc} {entry : Option Connection} {k : Kernel}
    {isUp : Prop} (h : PairTidy i r t entry k isUp) (hholds : k.Holds entry)
    (hreceiving : ∀ conn, r' = .receiving conn → entry = some conn) (hconnect : ∀ pid, r' ≠ .connect pid)
    (hsend : ∀ pid, t ≠ .connect pid) : PairTidy i r' t entry k isUp where
  reads _ := hholds
  receiving := hreceiving
  up _ _ := hholds
  sending := h.sending
  recvConnect pid hr := absurd hr (hconnect pid)
  sendConnect pid ht := absurd ht (hsend pid)

/-- The send worker goes where it does not send. -/
theorem PairTidy.sendIdle {i : ℕ} {r : RecvPc} {t t' : SendPc} {entry : Option Connection} {k : Kernel}
    {isUp isUp' : Prop} (h : PairTidy i r t entry k isUp)
    (hsending : ∀ part x fd rest, t' ≠ .sending part x fd rest) (hconnect : ∀ pid, t' ≠ .connect pid)
    (hup : isUp' → r ≠ .clear → k.Holds entry) : PairTidy i r t' entry k isUp' where
  reads := h.reads
  receiving := h.receiving
  up := hup
  sending part x fd rest ht := absurd ht (hsending part x fd rest)
  recvConnect := h.recvConnect
  sendConnect pid ht := absurd ht (hconnect pid)

/-- The send worker goes on with a part, if its descriptor is open. -/
theorem PairTidy.sendingOrNext {i : ℕ} {r : RecvPc} {t : SendPc} {entry : Option Connection} {k : Kernel}
    {isUp : Prop} (h : PairTidy i r t entry k isUp) (part : Part) (x : Transfer) (fd : ℤ) (rest : List Char)
    (hsending : rest ≠ [] → ∃ conn, entry = some conn ∧ k.Has conn ∧ conn.fd = fd) :
    PairTidy i r (sendingOrNext part x fd rest) entry k isUp := by
  rcases sendingOrNext_cases part x fd rest with ⟨hrest, hpc⟩ | hpc | hpc
  · rw [hpc]
    refine ⟨h.reads, h.receiving, h.up, fun _ _ _ _ ht => ?_, h.recvConnect, by simp⟩
    cases ht
    exact hsending hrest
  · rw [hpc]
    exact h.sendIdle (by simp) (by simp) h.up
  · rw [hpc]
    exact h.sendIdle (by simp) (by simp) h.up

/-- After a message a receive worker is not in `receive_from_fd`. -/
theorem switchRc_ne_receiving (conn : Connection) (received : Received) (rc : ℤ) (conn' : Connection) :
    switchRc conn received rc ≠ .receiving conn' := by
  rcases switchRc_cases conn received rc with h | h | ⟨message, h⟩ <;> simp [h]

/-- Both workers of a pair are never in `recreate_conn`. -/
theorem System.Exclusive.pair {s : System F P} (hs : s.Exclusive) {i : ℕ} (hrecv : (s.recv i).pc.Locked)
    (hsend : (s.send i).pc.Locked) : False := by
  have hsame := hs.one (.inl i) (.inr i) hrecv hsend
  cases hsame

/-- A step of a receive worker that meets the condition. -/
theorem RecvStep.tidies {w : Watched F P} {i : ℕ} {c : Con} {a : RecvAction} {s' : Shared F P} {r : RecvWorker}
    (hstep : RecvStep w.sys.shared i c (w.sys.recv i) a s' r) (hc : w.sys.shared.gconnList[i]? = some c)
    (hw : w.Tidy) (hcond : a.Tidies w i c) :
    w.ledger.Turn i w.sys.shared.gconnList w.sys.shared.kernel
        (w.ledger.recv w.sys.shared c (w.sys.recv i) a) s'.gconnList s'.kernel ∧
      PairTidy i r.pc (w.sys.send i).pc ((w.ledger.recv w.sys.shared c (w.sys.recv i) a).current i) s'.kernel
        (PeerUp s'.gconnList i) := by
  have hledger := hw.ledger
  have hp := hw.pairs i
  have hpeer := hledger.named i c hc
  have hreading {pc : RecvPc} (hpc : (w.sys.recv i).pc = pc) (hreads : pc.Reads) :
      w.sys.shared.kernel.Holds (w.ledger.current i) ∧ ∀ pid, (w.sys.send i).pc ≠ .connect pid := by
    rw [hpc] at hp
    exact ⟨hp.reads hreads, fun pid ht => (hp.sendConnect pid ht).2.2.2 hreads⟩
  cases hstep with
  | test hpc =>
    refine ⟨hledger.turn i, ?_⟩
    have hup (hup : PeerUp w.sys.shared.gconnList i) : w.sys.shared.kernel.Holds (w.ledger.current i) :=
      hp.up hup (by simp [hpc])
    by_cases hstate : c.state = 1
    · simp only [if_pos hstate]
      have huptest : PeerUp w.sys.shared.gconnList i := ⟨c, hc, hstate⟩
      exact hp.recvReads (hup huptest) (by simp) (by simp) fun pid ht => (hp.sendConnect pid ht).2.2.1 huptest
    · simp only [if_neg hstate]
      exact hp.recvIdle id (by simp) (fun h _ => hup h) fun pid ht => (hp.sendConnect pid ht).2.2.1
  | lock hpc hfree =>
    refine ⟨hledger.turn i, hp.recvIdle id (by simp) (fun hup _ => ?_) fun pid ht => (hp.sendConnect pid ht).2.2.1⟩
    exact hp.up hup (by simp [hpc])
  | @recreate fd s' hpc hrecreate =>
    obtain ⟨⟨made, k⟩, hmade, rfl⟩ := Option.map_eq_some_iff.mp hrecreate
    obtain ⟨hfd, hclosed⟩ := hcond
    rw [hpeer] at hmade hclosed
    obtain ⟨hturn, hholds, hdown⟩ := hledger.turn_recreate hc hmade hfd hclosed
    simp only [Ledger.recv, hpeer]
    refine ⟨hturn, ⟨fun hr => absurd hr id, by simp, fun hup => absurd hup hdown, fun part x fd' rest ht => ?_,
      fun pid hr => ⟨(RecvPc.connect.inj hr).symm, hholds⟩, fun pid ht => ?_⟩⟩
    · obtain ⟨conn, hconn, hhas, _⟩ := hp.sending part x fd' rest ht
      exact absurd ⟨conn, hconn, hhas⟩ hclosed
    · exact absurd (hw.exclusive.pair (i := i) (hpc ▸ trivial) (ht ▸ trivial)) id
  | @connect pid connected hpc =>
    obtain ⟨rfl, hholds⟩ := hp.recvConnect pid hpc
    have hturn := hledger.turn_connect hc hholds connected
    simp only [Ledger.recv, hpc]
    refine ⟨hturn, ?_⟩
    rw [Ledger.connect_current, Shared.connect_kernel]
    refine hp.recvIdle id (by simp) (fun _ _ => hholds) fun pid ht => ?_
    exact absurd (hw.exclusive.pair (i := i) (hpc ▸ trivial) (ht ▸ trivial)) id
  | call hpc =>
    obtain ⟨hholds, hsend⟩ := hreading hpc trivial
    obtain ⟨hopen, hconn⟩ := hledger.isOpen hc hholds
    refine ⟨(hledger.turn i).add (hledger.used c.fd hopen), hp.recvReads hholds (fun conn hr => ?_) (by simp) hsend⟩
    cases hr
    exact hconn
  | @finish conn results rest received hpc hreceive =>
    obtain ⟨hholds, hsend⟩ := hreading hpc trivial
    have hconn := hp.receiving conn hpc
    have hopen := hholds.isOpen hconn
    simp only [Ledger.recv, hpc]
    refine ⟨hledger.turn_usedOrLost i conn.fd hopen conn _, ?_⟩
    apply hp.recvReads hholds _ (switchRc_ne_connect _ _ _) hsend
    exact fun conn' hr => absurd hr (switchRc_ne_receiving conn received _ conn')
  | remId tid hpc => exact ⟨hledger.turn i, hp⟩
  | dispatched hpc =>
    obtain ⟨hholds, hsend⟩ := hreading hpc trivial
    exact ⟨hledger.turn i, hp.recvReads hholds (by simp) (by simp) hsend⟩
  | @close lost hpc =>
    obtain ⟨hholds, hsend⟩ := hreading hpc trivial
    have hopen := (hledger.isOpen hc hholds).1
    have hturn := hledger.turn_close hc hholds
    simp only [Ledger.recv]
    rw [Ledger.add_cons]
    constructor
    · exact (hturn.add (hturn.tidy.used c.fd hopen)).add ((hturn.tidy.used c.fd hopen).snoc (by simp) (by simp))
    · exact ⟨fun hr => absurd hr id, by simp, fun _ hr => absurd rfl hr,
        fun part x fd rest ht => absurd ht (hcond part x fd rest), by simp, fun pid ht => absurd ht (hsend pid)⟩
  | clear hpc =>
    refine ⟨hledger.turn_setState i 0, ?_⟩
    have hdown := not_peerUp_setState w.sys.shared.gconnList i
    exact hp.recvIdle id (by simp) (fun hup => absurd hup hdown) fun _ _ => hdown

/-- A step of a send worker that meets the condition. -/
theorem SendStep.tidies {w : Watched F P} {i : ℕ} {c : Con} {a : SendAction} {s' : Shared F P} {r : SendWorker}
    (hstep : SendStep w.sys.shared i c (w.sys.send i) a s' r) (hc : w.sys.shared.gconnList[i]? = some c)
    (hw : w.Tidy) (hcond : a.Tidies w i c) :
    w.ledger.Turn i w.sys.shared.gconnList w.sys.shared.kernel
        (w.ledger.send w.sys.shared c (w.sys.send i) a) s'.gconnList s'.kernel ∧
      PairTidy i (w.sys.recv i).pc r.pc ((w.ledger.send w.sys.shared c (w.sys.send i) a).current i) s'.kernel
        (PeerUp s'.gconnList i) := by
  have hledger := hw.ledger
  have hp := hw.pairs i
  have hpeer := hledger.named i c hc
  have hcall {part : Part} {x : Transfer} {fd : ℤ} {rest : List Char} (r : SendResult)
      (hpc : (w.sys.send i).pc = .sending part x fd rest) :
      w.ledger.Turn i w.sys.shared.gconnList w.sys.shared.kernel
        (w.ledger.send w.sys.shared c (w.sys.send i) (.send r)) w.sys.shared.gconnList w.sys.shared.kernel := by
    obtain ⟨conn, _, hhas, hfd⟩ := hp.sending part x fd rest hpc
    simp only [Ledger.send, hpc]
    exact hledger.turn_usedOrLost i fd (hfd ▸ hhas.1) _ _
  cases hstep with
  | wait | goOn | wake | up | down | lock | popNone | pop | free =>
    exact ⟨hledger.turn i, hp.sendIdle (by simp) (by simp) hp.up⟩
  | @recreate fd s' hpc hrecreate =>
    obtain ⟨⟨made, k⟩, hmade, rfl⟩ := Option.map_eq_some_iff.mp hrecreate
    obtain ⟨hfd, hclosed⟩ := hcond
    rw [hpeer] at hmade hclosed
    obtain ⟨hturn, hholds, hdown⟩ := hledger.turn_recreate hc hmade hfd hclosed
    have hreads : ¬ (w.sys.recv i).pc.Reads := fun hr => hclosed (hp.reads hr)
    simp only [Ledger.send, hpeer]
    refine ⟨hturn, ⟨fun hr => absurd hr hreads, fun conn hr => ?_, fun hup => absurd hup hdown, by simp,
      fun pid hr => ?_, fun pid ht => ⟨(SendPc.connect.inj ht).symm, hholds, hdown, hreads⟩⟩⟩
    · exact absurd (hr ▸ trivial) hreads
    · exact absurd (hw.exclusive.pair (i := i) (hr ▸ trivial) (hpc ▸ trivial)) id
  | @connect pid connected hpc =>
    obtain ⟨rfl, hholds, _, hreads⟩ := hp.sendConnect pid hpc
    have hturn := hledger.turn_connect hc hholds connected
    simp only [Ledger.send, hpc]
    refine ⟨hturn, ?_⟩
    rw [Ledger.connect_current, Shared.connect_kernel]
    exact hp.sendIdle (by simp) (by simp) fun _ _ => hholds
  | @start part x text hpc htext =>
    refine ⟨hledger.turn i, hp.sendingOrNext part x c.fd text fun hne => ?_⟩
    obtain ⟨conn, hconn, hhas⟩ := hcond part x text hpc htext hne
    obtain ⟨c', hc', hfd⟩ := hledger.stored i conn hconn
    rw [hc, Option.some.injEq] at hc'
    exact ⟨conn, hconn, hhas, hc' ▸ hfd.symm⟩
  | @sendFails part x fd rest r hpc hsend =>
    refine ⟨hcall r hpc, ?_⟩
    simp only [Ledger.send, hpc]
    exact hp.sendIdle (by simp) (by simp) hp.up
  | @send part x fd rest left r hpc hsend =>
    refine ⟨hcall r hpc, ?_⟩
    simp only [Ledger.send, hpc]
    exact hp.sendingOrNext part _ fd left fun _ => hp.sending part x fd rest hpc
  | @failed part x hpc =>
    have hdown := not_peerUp_setState w.sys.shared.gconnList i
    refine ⟨hledger.turn_setState i 0, ?_⟩
    rcases part.next_cases x with hnext | hnext
    · rw [hnext]
      exact hp.sendIdle (by simp) (by simp) (absurd · hdown)
    · rw [hnext]
      exact hp.sendIdle (by simp) (by simp) (absurd · hdown)

/-- The turn of one pair leaves the others. -/
theorem Ledger.Turn.pair {i j : ℕ} {l l' : Ledger} {gconnList gconnList' : List Con} {k k' : Kernel}
    (h : l.Turn i gconnList k l' gconnList' k') (hj : j ≠ i) {r : RecvPc} {t : SendPc}
    (hp : PairTidy j r t (l.current j) k (PeerUp gconnList j)) :
    PairTidy j r t (l'.current j) k' (PeerUp gconnList' j) := by
  have hholds (hold : k.Holds (l.current j)) : k'.Holds (l.current j) := by
    obtain ⟨conn, hconn, hhas⟩ := hold
    exact ⟨conn, hconn, h.has j conn hj hconn hhas⟩
  rw [h.current j hj, h.up j hj]
  refine ⟨fun hr => hholds (hp.reads hr), hp.receiving, fun hup hr => hholds (hp.up hup hr),
    fun part x fd rest ht => ?_, fun pid hr => ?_, fun pid ht => ?_⟩
  · obtain ⟨conn, hconn, hhas, hfd⟩ := hp.sending part x fd rest ht
    exact ⟨conn, hconn, h.has j conn hj hconn hhas, hfd⟩
  · obtain ⟨hpid, hold⟩ := hp.recvConnect pid hr
    exact ⟨hpid, hholds hold⟩
  · obtain ⟨hpid, hold, hdown, hreads⟩ := hp.sendConnect pid ht
    exact ⟨hpid, hholds hold, hdown, hreads⟩

/-- A step that meets the condition keeps descriptors accounted for. -/
theorem watchStep_tidy {w w' : Watched F P} {a : Action F P} (hw : w.Tidy) (hcond : a.Tidies w)
    (hstep : watchStep w a = some w') : w'.Tidy := by
  have hexclusive := sysStep_exclusive hw.exclusive (watchStep_eq_some hstep).1
  cases a with
  | recv i b =>
    obtain ⟨c, shared, r, hc, hworker, rfl⟩ := watchStep_recv hstep
    obtain ⟨hturn, hpair⟩ := hworker.tidies hc hw (hcond c hc)
    refine ⟨hturn.tidy, fun j => ?_, hexclusive⟩
    by_cases hj : j = i
    · subst hj
      simp only [Function.update_self]
      exact hpair
    · simp only [Function.update_of_ne hj]
      exact hturn.pair hj (hw.pairs j)
  | send i b =>
    obtain ⟨c, shared, r, hc, hworker, rfl⟩ := watchStep_send hstep
    obtain ⟨hturn, hpair⟩ := hworker.tidies hc hw (hcond c hc)
    refine ⟨hturn.tidy, fun j => ?_, hexclusive⟩
    by_cases hj : j = i
    · subst hj
      simp only [Function.update_self]
      exact hpair
    · simp only [Function.update_of_ne hj]
      exact hturn.pair hj (hw.pairs j)
  | append | signal | sweep =>
    obtain ⟨hlist, hkernel, _, hledger, hrecv, hsend⟩ := watchStep_client hstep (by simp) (by simp)
    refine ⟨hlist ▸ hkernel ▸ hledger ▸ hw.ledger, fun i => ?_, hexclusive⟩
    rw [hlist, hkernel, hledger, hrecv]
    rcases hsend i with hsame | ⟨_, hwoken⟩
    · exact hsame ▸ hw.pairs i
    · rw [hwoken]
      exact (hw.pairs i).sendIdle (by simp) (by simp) (hw.pairs i).up

/-- A round of `create_peers` that connects at the first attempt. -/
theorem Ledger.Tidy.create {l : Ledger} {done : List Con} {k k' opened : Kernel} {peer : EndPeers}
    {start : PeerStart} {c : Con} (h : l.Tidy done k)
    (hlisted : ∀ j conn, l.current j = some conn → j < done.length)
    (hholds : ∀ j < done.length, k.Holds (l.current j))
    (hfirst : createPeer peer done.length start k = some (c, k')) (hsocket : k.socket done.length start.fd = some opened)
    (hconnected : start.connected = true) :
    (l.create done.length start opened).Tidy (done ++ [c]) k' ∧
      ∀ j < (done ++ [c]).length, k'.Holds ((l.create done.length start opened).current j) := by
  obtain ⟨opened', hsocket', hfd, hkernel⟩ := createPeer_socket hfirst
  obtain rfl : opened' = opened := Option.some.inj (hsocket'.symm.trans hsocket)
  rw [if_pos hconnected] at hkernel
  subst hkernel
  rcases Kernel.made_of_socket hsocket with ⟨hnone, _⟩ | ⟨conn, hconn, hconnfd, _, _, hhas, _⟩
  · rw [Kernel.made, if_neg (by omega)] at hnone
    cases hnone
  have hentry : c = ⟨conn.fd, 1, done.length⟩ := by
    rw [(createPeer_entry hfirst).2, PeerStart.entry, hconnected, Bool.true_or, if_pos rfl, hconnfd]
  have hnone : l.current done.length = none :=
    Option.eq_none_iff_forall_ne_some.mpr fun other hother => absurd (hlisted _ other hother) (Nat.lt_irrefl _)
  have hcreate : l.create done.length start k' =
      (l.store done.length (some conn)).add [.used start.fd (k'.isOpen start.fd), .connected conn] := by
    have hsame : k'.connection start.fd = conn := by rw [Kernel.connection, ← hconnfd, hhas.2]
    simp [Ledger.create, PeerStart.events, Ledger.add, Ledger.store, hconnected, hsame]
  rw [hcreate]
  constructor
  · rw [Ledger.add_cons]
    refine Ledger.Tidy.snoc (Ledger.Tidy.used ?_ _ (hconnfd ▸ hhas.1)) (by simp) (by simp)
    apply h.store hnone hsocket hconn
    · intro j c' hc'
      rcases Nat.lt_trichotomy j done.length with hlt | rfl | hgt
      · rw [List.getElem?_append_left hlt] at hc'
        exact h.named j c' hc'
      · rw [List.getElem?_concat_length, Option.some.injEq] at hc'
        rw [← hc', hentry]
      · have hlast := (List.getElem?_eq_some_iff.mp hc').1
        rw [List.length_append, List.length_singleton] at hlast
        omega
    · exact ⟨c, List.getElem?_concat_length, by rw [hentry]⟩
    · intro j c' _ hc'
      exact ⟨c', by rw [List.getElem?_append_left (List.getElem?_eq_some_iff.mp hc').1, hc'], rfl⟩
  · intro j hj
    rw [List.length_append, List.length_singleton] at hj
    change k'.Holds (Function.update l.current done.length (some conn) j)
    by_cases hlast : j = done.length
    · rw [hlast, Function.update_self]
      exact ⟨conn, rfl, hhas⟩
    · rw [Function.update_of_ne hlast]
      obtain ⟨old, hold, holdhas⟩ := hholds j (by omega)
      exact ⟨old, hold, holdhas.socket hsocket⟩

/-- `create_peers`, if it connects to every peer at the first attempt. -/
theorem watchPeersFrom_tidy {start : ℕ → PeerStart} {peers : List EndPeers} {done gconnList : List Con}
    {k k' : Kernel} {l l' : Ledger} (h : l.Tidy done k)
    (hlisted : ∀ j conn, l.current j = some conn → j < done.length)
    (hholds : ∀ j < done.length, k.Holds (l.current j))
    (hconnected : ∀ j < done.length + peers.length, (start j).connected = true)
    (hpeers : watchPeersFrom start done.length peers k l = some (gconnList, k', l')) :
    l'.Tidy (done ++ gconnList) k' ∧ ∀ j < (done ++ gconnList).length, k'.Holds (l'.current j) := by
  induction peers generalizing done gconnList k l with
  | nil =>
    cases hpeers
    rw [List.append_nil]
    exact ⟨h, hholds⟩
  | cons peer peers ih =>
    obtain ⟨⟨c, k₁⟩, hfirst, hpeers⟩ := Option.bind_eq_some_iff.mp hpeers
    obtain ⟨opened, hsocket, hpeers⟩ := Option.bind_eq_some_iff.mp hpeers
    obtain ⟨⟨others, k₂, l₂⟩, hothers, hpeers⟩ := Option.bind_eq_some_iff.mp hpeers
    cases hpeers
    rw [List.length_cons] at hconnected
    obtain ⟨htidy, hall⟩ := h.create hlisted hholds hfirst hsocket (hconnected _ (by omega))
    rw [List.append_cons]
    apply ih htidy (Ledger.create_listed _ _ c hlisted) hall
    · intro j hj
      rw [List.length_append, List.length_singleton] at hj
      exact hconnected j (by omega)
    · rw [List.length_append, List.length_singleton]
      exact hothers

/-- If `create_peers` connects to every peer at the first attempt, descriptors are accounted for in a run
of steps that meet the condition. -/
theorem accounted_of_tidies {cfg : Configurator} {start : ℕ → PeerStart} {w : Watched F P}
    (hmanage : watchManage cfg start = some w)
    (hconnected : ∀ i < cfg.peers.length, (start i).connected = true) (acts : List (Action F P))
    (hall : EachStep watchStep (fun w a => a.Tidies w) w acts) :
    manage cfg start = some w.sys ∧ Throughout watchStep Watched.Accounted w acts := by
  refine ⟨manage_of_watchManage hmanage, ?_⟩
  obtain ⟨⟨gconnList, k, l⟩, hpeers, rfl⟩ := Option.map_eq_some_iff.mp hmanage
  have hinitial : Ledger.initial.Tidy [] .initial := by constructor <;> simp [Ledger.initial]
  obtain ⟨htidy, hholds⟩ := watchPeersFrom_tidy hinitial (by simp [Ledger.initial]) (by simp)
    (fun j hj => hconnected j (by simpa using hj)) hpeers
  rw [List.nil_append] at htidy hholds
  have hpairs (i : ℕ) : PairTidy i .test .test (l.current i) k (PeerUp gconnList i) := by
    refine ⟨fun hr => absurd hr id, by simp, fun hup _ => ?_, by simp, by simp, by simp⟩
    obtain ⟨c, hc, _⟩ := hup
    exact hholds i (List.getElem?_eq_some_iff.mp hc).1
  have hfree (t : Worker) : ¬ System.Locked (System.start cfg gconnList k : System F P) t := by
    cases t <;> exact id
  exact throughout_of_eachStep watchStep (fun w a => a.Tidies w) Watched.Tidy Watched.Accounted
    (fun _ hw => hw.accounted) (fun _ _ _ hw hcond hstep => watchStep_tidy hw hcond hstep) _ acts
    ⟨htidy, hpairs, ⟨fun t ht => absurd ht (hfree t), fun t _ ht => absurd ht (hfree t)⟩⟩ hall

/-- The receive worker of the first pair answers the end of its stream while the send worker has nothing
to send. -/
theorem endOfStream_accounted : watchManage twoPeers bothConnect = some (twoPeersWatched : Watched Unit Unit) ∧
    manage twoPeers bothConnect = some (twoPeersUp : System Unit Unit) ∧
    Throughout watchStep Watched.Accounted (twoPeersWatched : Watched Unit Unit)
      [.recv 0 .test, .recv 0 .call, .recv 0 (.finish [.arrived [] (.other 0)]), .recv 0 .close, .recv 0 .clear,
        .recv 0 .test, .recv 0 .lock, .recv 0 (.recreate 5), .recv 0 (.connect true)] := by
  have hmanage : watchManage twoPeers bothConnect = some (twoPeersWatched : Watched Unit Unit) := rfl
  refine ⟨hmanage, accounted_of_tidies hmanage (fun _ _ => rfl) _ ?_⟩
  apply EachStep.cons rfl fun _ _ => trivial
  apply EachStep.cons rfl fun _ _ => trivial
  apply EachStep.cons rfl fun _ _ => trivial
  apply EachStep.cons rfl
  · intro c _ part x fd rest h
    cases h
  apply EachStep.cons rfl fun _ _ => trivial
  apply EachStep.cons rfl fun _ _ => trivial
  apply EachStep.cons rfl fun _ _ => trivial
  apply EachStep.cons rfl
  · intro c hc
    cases hc
    refine ⟨by decide, ?_⟩
    rintro ⟨conn, hconn, hopen, _⟩
    cases hconn
    cases hopen
  apply EachStep.cons rfl fun _ _ => trivial
  trivial

/-- The send worker of the first pair fails to send a message, and reconnects before it sends the next
one. -/
def sendErrorTwice : List (Action Unit Unit) :=
  [.append 0 ⟨some ['x', '\x00'], 1, 0, 0, oneCharId 'a'⟩ () () ⟨0, 0⟩,
    .append 1 ⟨some ['y', '\x00'], 1, 0, 0, oneCharId 'a'⟩ () () ⟨0, 0⟩, .send 0 .test, .send 0 .checkState,
    .send 0 .pop, .send 0 .start, .send 0 (.send (.failed (.other 32))),
    .send 0 .failed, .send 0 .start, .send 0 (.send (.failed (.other 32))), .send 0 .failed, .send 0 .free,
    .send 0 .test, .send 0 .checkState, .send 0 .lock, .send 0 (.recreate 5)]

/-- The old descriptor is never closed. -/
theorem sendErrorTwice_not_accounted :
    watchManage twoPeers bothConnect = some (twoPeersWatched : Watched Unit Unit) ∧
      ¬ Throughout watchStep Watched.Accounted (twoPeersWatched : Watched Unit Unit) sendErrorTwice := by
  refine ⟨rfl, fun hall => ?_⟩
  obtain ⟨final, hrun, hopened, hopen, hcount, hentry⟩ : ∃ final,
      runActions watchStep twoPeersWatched sendErrorTwice = some final ∧
        .opened 0 ⟨3, 1⟩ ∈ final.ledger.events ∧ final.sys.shared.kernel.isOpen 3 = true ∧
          final.sys.shared.kernel.opened 3 = 1 ∧ final.sys.shared.gconnList[0]? = some ⟨5, 0, 0⟩ :=
    ⟨_, rfl, List.mem_cons_self, rfl, rfl, rfl⟩
  obtain ⟨c, hc, hfd⟩ := (throughout_final watchStep _ _ _ _ hall hrun).held 0 ⟨3, 1⟩ hopened ⟨hopen, hcount⟩
  rw [hentry, Option.some.injEq] at hc
  rw [← hc] at hfd
  exact absurd hfd (by decide)

end TcpClb
