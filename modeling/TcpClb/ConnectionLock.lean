import TcpClb.ThreadSteps

/-!
# The lock around recreate_conn

A worker calls `recreate_conn` between locking and unlocking `conntex`, so at most one worker of all
pairs is in it at a time.
-/

namespace TcpClb

variable {F P : Type}

/-- The receive worker is between locking and unlocking `conntex`. -/
def RecvPc.Locked : RecvPc → Prop
  | .recreate | .connect _ => True
  | _ => False

/-- The send worker is between locking and unlocking `conntex`. -/
def SendPc.Locked : SendPc → Prop
  | .recreate | .connect _ => True
  | _ => False

/-- A worker: the receive worker or the send worker of a pair. -/
abbrev Worker := ℕ ⊕ ℕ

/-- The worker is between locking and unlocking `conntex`. -/
def System.Locked (s : System F P) : Worker → Prop
  | .inl i => (s.recv i).pc.Locked
  | .inr i => (s.send i).pc.Locked

/-- At most one worker is between locking and unlocking `conntex`, and it is locked then. -/
structure System.Exclusive (s : System F P) : Prop where
  locked : ∀ t, s.Locked t → s.shared.conntex = true
  one : ∀ t t', s.Locked t → s.Locked t' → t = t'

/-- A step that leaves the lock. -/
theorem System.Exclusive.keep {s s' : System F P} (hs : s.Exclusive) (hsame : ∀ t, s'.Locked t → s.Locked t)
    (hconntex : s'.shared.conntex = s.shared.conntex) : s'.Exclusive :=
  ⟨fun t ht => hconntex.trans (hs.locked t (hsame t ht)), fun t t' ht ht' => hs.one t t' (hsame t ht) (hsame t' ht')⟩

/-- A step that takes the lock while it is free. -/
theorem System.Exclusive.acquire {s s' : System F P} (hs : s.Exclusive) (me : Worker)
    (hfree : s.shared.conntex = false) (hothers : ∀ t, s'.Locked t → t = me ∨ s.Locked t)
    (hconntex : s'.shared.conntex = true) : s'.Exclusive := by
  have honly (t : Worker) (ht : s'.Locked t) : t = me := by
    apply (hothers t ht).resolve_right
    intro hold
    have hlocked := hs.locked t hold
    rw [hfree] at hlocked
    cases hlocked
  exact ⟨fun _ _ => hconntex, fun t t' ht ht' => (honly t ht).trans (honly t' ht').symm⟩

/-- A step of the worker that has the lock which gives it back. -/
theorem System.Exclusive.release {s s' : System F P} (hs : s.Exclusive) (me : Worker) (hme : s.Locked me)
    (hothers : ∀ t, s'.Locked t → t ≠ me ∧ s.Locked t) : s'.Exclusive := by
  have hnone (t : Worker) : ¬ s'.Locked t := by
    intro ht
    obtain ⟨hne, hold⟩ := hothers t ht
    exact hne (hs.one t me hold hme)
  exact ⟨fun t ht => absurd ht (hnone t), fun t _ ht => absurd ht (hnone t)⟩

/-- What a step of a receive worker does to the lock. -/
theorem System.locked_recv {s : System F P} {i : ℕ} {shared : Shared F P} {r : RecvWorker} {t : Worker}
    (ht : System.Locked { s with shared := shared, recv := Function.update s.recv i r } t) :
    t = .inl i ∧ r.pc.Locked ∨ t ≠ .inl i ∧ s.Locked t := by
  cases t with
  | inl j =>
    change (Function.update s.recv i r j).pc.Locked at ht
    by_cases hj : j = i
    · subst hj
      rw [Function.update_self] at ht
      exact Or.inl ⟨rfl, ht⟩
    · rw [Function.update_of_ne hj] at ht
      exact Or.inr ⟨fun h => hj (Sum.inl.inj h), ht⟩
  | inr j => exact Or.inr ⟨by simp, ht⟩

/-- What a step of a send worker does to the lock. -/
theorem System.locked_send {s : System F P} {i : ℕ} {shared : Shared F P} {w : SendWorker} {t : Worker}
    (ht : System.Locked { s with shared := shared, send := Function.update s.send i w } t) :
    t = .inr i ∧ w.pc.Locked ∨ t ≠ .inr i ∧ s.Locked t := by
  cases t with
  | inl j => exact Or.inr ⟨by simp, ht⟩
  | inr j =>
    change (Function.update s.send i w j).pc.Locked at ht
    by_cases hj : j = i
    · subst hj
      rw [Function.update_self] at ht
      exact Or.inl ⟨rfl, ht⟩
    · rw [Function.update_of_ne hj] at ht
      exact Or.inr ⟨fun h => hj (Sum.inr.inj h), ht⟩

/-- `recreate_conn` up to `socket` leaves the lock. -/
theorem Shared.recreate_conntex {s s' : Shared F P} {i : ℕ} {pid fd : ℤ} (h : s.recreate i pid fd = some s') :
    s'.conntex = s.conntex := by
  obtain ⟨made, _, rfl⟩ := Option.map_eq_some_iff.mp h
  rfl

/-- After a message a receive worker does not have the lock. -/
theorem switchRc_not_locked (conn : Connection) (received : Received) (rc : ℤ) :
    ¬ (switchRc conn received rc).Locked := by
  rcases switchRc_cases conn received rc with hclose | htest | ⟨message, hdispatch⟩
  · exact hclose ▸ id
  · exact htest ▸ id
  · exact hdispatch ▸ id

/-- In the middle of a message a send worker does not have the lock. -/
theorem sendingOrNext_not_locked (part : Part) (x : Transfer) (fd : ℤ) (rest : List Char) :
    ¬ (sendingOrNext part x fd rest).Locked := by
  rcases sendingOrNext_cases part x fd rest with ⟨-, hsending⟩ | hbody | hfree
  · exact hsending ▸ id
  · exact hbody ▸ id
  · exact hfree ▸ id

/-- A step of a receive worker keeps the lock to one worker. -/
theorem RecvStep.exclusive {s : System F P} {i : ℕ} {c : Con} {a : RecvAction} {shared : Shared F P}
    {r : RecvWorker} (hstep : RecvStep s.shared i c (s.recv i) a shared r) (hs : s.Exclusive) :
    System.Exclusive { s with shared := shared, recv := Function.update s.recv i r } := by
  have hidle (hpc : ¬ r.pc.Locked) (t : Worker)
      (ht : System.Locked { s with shared := shared, recv := Function.update s.recv i r } t) :
      t ≠ .inl i ∧ s.Locked t := (System.locked_recv ht).resolve_left fun h => hpc h.2
  cases hstep with
  | test hpc =>
    refine hs.keep (fun t ht => (hidle (fun h => ?_) t ht).2) rfl
    split at h <;> exact h
  | lock hpc hfree =>
    exact hs.acquire (.inl i) hfree (fun t ht => (System.locked_recv ht).imp And.left And.right) rfl
  | recreate hpc hrecreate =>
    have hlocked : s.Locked (.inl i) := by
      rw [System.Locked, hpc]
      trivial
    exact hs.keep (fun t ht => (System.locked_recv ht).elim (fun h => h.1 ▸ hlocked) And.right)
      (Shared.recreate_conntex hrecreate)
  | connect connected hpc =>
    have hlocked : s.Locked (.inl i) := by
      rw [System.Locked, hpc]
      trivial
    exact hs.release (.inl i) hlocked (hidle id)
  | finish hpc hreceive => exact hs.keep (fun t ht => (hidle (switchRc_not_locked _ _ _) t ht).2) rfl
  | remId tid hpc =>
    have hfree : ¬ (s.recv i).pc.Locked := by
      rw [hpc]
      exact id
    exact hs.keep (fun t ht => (hidle hfree t ht).2) rfl
  | call | dispatched | close | clear => exact hs.keep (fun t ht => (hidle id t ht).2) rfl

/-- A step of a send worker keeps the lock to one worker. -/
theorem SendStep.exclusive {s : System F P} {i : ℕ} {c : Con} {a : SendAction} {shared : Shared F P}
    {w : SendWorker} (hstep : SendStep s.shared i c (s.send i) a shared w) (hs : s.Exclusive) :
    System.Exclusive { s with shared := shared, send := Function.update s.send i w } := by
  have hidle (hpc : ¬ w.pc.Locked) (t : Worker)
      (ht : System.Locked { s with shared := shared, send := Function.update s.send i w } t) :
      t ≠ .inr i ∧ s.Locked t := (System.locked_send ht).resolve_left fun h => hpc h.2
  cases hstep with
  | lock hpc hfree =>
    exact hs.acquire (.inr i) hfree (fun t ht => (System.locked_send ht).imp And.left And.right) rfl
  | recreate hpc hrecreate =>
    have hlocked : s.Locked (.inr i) := by
      rw [System.Locked, hpc]
      trivial
    exact hs.keep (fun t ht => (System.locked_send ht).elim (fun h => h.1 ▸ hlocked) And.right)
      (Shared.recreate_conntex hrecreate)
  | connect connected hpc =>
    have hlocked : s.Locked (.inr i) := by
      rw [System.Locked, hpc]
      trivial
    exact hs.release (.inr i) hlocked (hidle id)
  | start | send =>
    exact hs.keep (fun t ht => (hidle (sendingOrNext_not_locked _ _ _ _) t ht).2) rfl
  | @failed part x hpc =>
    refine hs.keep (fun t ht => (hidle (fun h => ?_) t ht).2) rfl
    cases part <;> exact h
  | wait | goOn | wake | up | down | popNone | pop | sendFails | free =>
    exact hs.keep (fun t ht => (hidle id t ht).2) rfl

/-- At most one worker has the lock, after every step. -/
theorem sysStep_exclusive {s s' : System F P} {a : Action F P} (hs : s.Exclusive)
    (hstep : sysStep s a = some s') : s'.Exclusive := by
  cases a with
  | recv i b =>
    obtain ⟨c, shared, r, hc, hworker, rfl⟩ := sysStep_recv hstep
    exact hworker.exclusive hs
  | send i b =>
    obtain ⟨c, shared, w, hc, hworker, rfl⟩ := sysStep_send hstep
    exact hworker.exclusive hs
  | append | signal | sweep =>
    obtain ⟨store, hshared⟩ := sysStep_client_shared hstep (by simp) (by simp)
    refine hs.keep (fun t ht => ?_) (by rw [hshared])
    cases t with
    | inl i =>
      rw [System.Locked, sysStep_recv_eq hstep (by simp)] at ht
      exact ht
    | inr i =>
      rcases sysStep_send_eq hstep (by simp) i with hsame | ⟨_, hwoken⟩
      · rw [System.Locked, hsame] at ht
        exact ht
      · rw [System.Locked, hwoken] at ht
        exact absurd ht id

end TcpClb
