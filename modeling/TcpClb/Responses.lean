import TcpClb.Common.Runs
import TcpClb.IdTableRouting
import TcpClb.MessageQueue
import Mathlib.Logic.Function.Basic

/-!
# Response handling by several workers

A receive worker that gets a response looks its transaction id up under `qtex`, invokes the
callback it found with no lock held, and removes the id under `qtex` again. The three steps of
different workers interleave with each other, with calls of `sl_send_buf` from any thread or from
inside a callback, and with the expiry sweep.

Registrations are told apart by number: the parameter of a callback is paired with the number of
the push that registered it, which the table operations only copy. `renewed` remembers about a
worker's response whether its id has been pushed since the lookup and not been removed after that.
-/

namespace TcpClb

open TcpClb.Common

variable {n : ℕ} {F P : Type}

/-- A response between its lookup, which returned 1, and its `rem_id`. -/
structure Handling (F P : Type) where
  tid : List Char
  found : Found F (P × ℕ)
  invoked : Bool

/-- The registration that the lookup of a response returned. -/
def Handling.registration (h : Handling F P) : ℕ := h.found.callbackParam.2

/-- One call of a response callback: for which registration, with which flag and time. -/
structure Invocation where
  registration : ℕ
  isTimeout : Bool
  elapsedMsecs : ℤ
  deriving DecidableEq

/-- One `rem_id` of a response: the registration it had found, and the table before and after. -/
structure Removal (F P : Type) where
  found : ℕ
  before : List (Tsidque F (P × ℕ))
  after : List (Tsidque F (P × ℕ))

/-- The state all workers and clients share, what each worker is doing, and what has happened. -/
structure Responses (F P : Type) where
  store : Store F (P × ℕ)
  pushes : ℕ
  worker : ℕ → Option (Handling F P)
  renewed : ℕ → Bool
  called : List Invocation
  removals : List (Removal F P)

/-- Nothing has been sent and no worker handles a response. -/
def Responses.initial : Responses F P := ⟨.initial, 0, fun _ => none, fun _ => false, [], []⟩

/-- One atomic step. The connection table has an entry for each of the `n` peers. -/
inductive RespAction (n : ℕ) (F P : Type)
  | send (gconnList : List Con) (hlen : getPeers gconnList = n) (req : Request) (callbackF : F)
      (callbackParam : P) (now : Timeval)
  | lookup (w : ℕ) (tid : List Char) (curr : Timeval)
  | callback (w : ℕ)
  | remove (w : ℕ)
  | sweep (now : ℕ → Timeval) (printable : P → Bool)

/-- The id a worker's response is about, if it is handling one. -/
def Responses.tidOf (s : Responses F P) (w : ℕ) : Option (List Char) := (s.worker w).map Handling.tid

/-- Perform one step; impossible if the worker is not at that point of its response. -/
def respStep (s : Responses F P) : RespAction n F P → Option (Responses F P)
  | .send gconnList _ req callbackF callbackParam now =>
    (pushToMsgq s.store gconnList req.id.chars req.msgLen req callbackF (callbackParam, s.pushes)
      now).map fun store =>
        { s with
          store := store
          pushes := s.pushes + 1
          renewed := fun w => if s.tidOf w = some req.id.chars then true else s.renewed w }
  | .lookup w tid curr =>
    match s.worker w with
    | some _ => none
    | none =>
      match lookupIDIdq s.store.gtsidq tid curr with
      | none => some s
      | some found => some
        { s with
          worker := Function.update s.worker w (some ⟨tid, found, false⟩)
          renewed := Function.update s.renewed w false }
  | .callback w =>
    match s.worker w with
    | some ⟨tid, found, false⟩ => some
      { s with
        worker := Function.update s.worker w (some ⟨tid, found, true⟩)
        called := s.called ++ [⟨found.callbackParam.2, found.isExpired, found.elapsedMsecs⟩] }
    | _ => none
  | .remove w =>
    match s.worker w with
    | some ⟨tid, found, true⟩ => some
      { s with
        store := { s.store with gtsidq := remId s.store.gtsidq tid }
        worker := Function.update s.worker w none
        renewed := fun w' => if s.tidOf w' = some tid then false else s.renewed w'
        removals := s.removals ++
          [⟨found.callbackParam.2, s.store.gtsidq, remId s.store.gtsidq tid⟩] }
    | _ => none
  | .sweep now printable =>
    (listExpiredIdq (fun param => printable param.1) s.store.gtsidq now).map fun swept =>
      { s with store := { s.store with gtsidq := swept } }

/-- The number of the registration that the table holds for an id. -/
def regAt (table : List (Tsidque F (P × ℕ))) (t : List Char) : Option ℕ :=
  (entryOf table t).map fun e => e.callbackParam.2

/-- What holds in every reachable state: registrations are numbered in the order of the pushes, no
two ids share one, and a response under way belongs to the id its registration was made for. -/
structure Responses.Inv (n : ℕ) (s : Responses F P) : Prop where
  wf : TableWf n s.store.gtsidq
  tableLt : ∀ t r, regAt s.store.gtsidq t = some r → r < s.pushes
  unique : ∀ t t' r, regAt s.store.gtsidq t = some r → regAt s.store.gtsidq t' = some r → t = t'
  heldLt : ∀ w h, s.worker w = some h → h.registration < s.pushes
  heldId : ∀ w h, s.worker w = some h → h.tid ≠ []
  heldTid : ∀ w h t, s.worker w = some h → regAt s.store.gtsidq t = some h.registration → t = h.tid

/-- A lookup copies the registration that the table holds for the id. -/
theorem lookupIDIdq_regAt {table : List (Tsidque F (P × ℕ))} {tid : List Char} {curr : Timeval}
    {found : Found F (P × ℕ)} (hfound : lookupIDIdq table tid curr = some found) :
    tid ≠ [] ∧ regAt table tid = some found.callbackParam.2 := by
  unfold lookupIDIdq at hfound
  split at hfound
  · cases hfound
  · next htid =>
    obtain ⟨e, he, rfl⟩ := Option.map_eq_some_iff.mp hfound
    exact ⟨htid, by rw [regAt, entryOf, he, Option.map_some]⟩

/-- A removal takes the registration of its own id out of the table. -/
theorem regAt_remId {table : List (Tsidque F (P × ℕ))} (hwf : TableWf n table) (tid t : List Char) :
    regAt (remId table tid) t = if t = tid then none else regAt table t := by
  rw [regAt, entryOf_remId table tid t hwf.distinct]
  split
  · rfl
  · rfl

/-- A sweep changes no registration. -/
theorem regAt_sweptIdq (table : List (Tsidque F (P × ℕ))) (now : ℕ → Timeval) (t : List Char) :
    regAt (sweptIdq table now) t = regAt table t := by
  obtain ⟨flag, hflag⟩ := entryOf_sweptIdq table now t
  rw [regAt, hflag, Option.map_map]
  rfl

/-- A push gives its own id, if not empty, the new registration and leaves the others. -/
theorem regAt_pushToMsgq {s s' : Store F (P × ℕ)} {gconnList : List Con}
    (hwf : TableWf (getPeers gconnList) s.gtsidq) {tid : List Char} {len : ℤ} {data : Request}
    {callbackF : F} {callbackParam : P × ℕ} {now : Timeval}
    (hpush : pushToMsgq s gconnList tid len data callbackF callbackParam now = some s') :
    TableWf (getPeers gconnList) s'.gtsidq ∧
      ∀ t, regAt s'.gtsidq t =
        if t = tid ∧ tid ≠ [] then some callbackParam.2 else regAt s.gtsidq t := by
  rcases pushToMsgq_eq_some hpush with ⟨htid, rfl⟩ | ⟨htid, routed, linked, hrouted, _, rfl⟩
  · exact ⟨hwf, fun t => by rw [if_neg (fun h => h.2 htid)]⟩
  · have hroutes := routes_of_routeId hwf s.glastConRr tid htid callbackF callbackParam now routed hrouted
    refine ⟨hroutes.wf, fun t => ?_⟩
    obtain ⟨e, he, _, _, hparam⟩ := hroutes.entry
    by_cases ht : t = tid
    · subst ht
      rw [if_pos ⟨rfl, htid⟩, regAt, he, Option.map_some, hparam]
    · rw [if_neg (fun h => ht h.1), regAt, hroutes.others t ht, regAt]

/-- What a send does: it registers its id, if not empty, under a new number. -/
theorem respStep_send {s s' : Responses F P} {gconnList : List Con}
    {hlen : getPeers gconnList = n} {req : Request} {callbackF : F} {callbackParam : P} {now : Timeval}
    (hwf : TableWf n s.store.gtsidq)
    (hstep : respStep s (.send gconnList hlen req callbackF callbackParam now) = some s') :
    s'.worker = s.worker ∧ s'.called = s.called ∧ s'.removals = s.removals ∧
      s'.pushes = s.pushes + 1 ∧ TableWf n s'.store.gtsidq ∧
      (∀ t, regAt s'.store.gtsidq t =
        if t = req.id.chars ∧ req.id.chars ≠ [] then some s.pushes else regAt s.store.gtsidq t) ∧
      ∀ w, s'.renewed w = if s.tidOf w = some req.id.chars then true else s.renewed w := by
  obtain ⟨store, hpush, rfl⟩ := Option.map_eq_some_iff.mp hstep
  have htable := regAt_pushToMsgq (hlen ▸ hwf) hpush
  rw [hlen] at htable
  exact ⟨rfl, rfl, rfl, rfl, htable.1, htable.2, fun _ => rfl⟩

/-- What a lookup does: the worker was idle, and now handles the registration of the id, if any. -/
theorem respStep_lookup {s s' : Responses F P} {w : ℕ} {tid : List Char} {curr : Timeval}
    (hstep : respStep s (.lookup w tid curr : RespAction n F P) = some s') :
    s.worker w = none ∧ (s' = s ∨ ∃ found, lookupIDIdq s.store.gtsidq tid curr = some found ∧
      s' = { s with
        worker := Function.update s.worker w (some ⟨tid, found, false⟩)
        renewed := Function.update s.renewed w false }) := by
  simp only [respStep] at hstep
  cases hw : s.worker w with
  | some h => simp [hw] at hstep
  | none =>
    refine ⟨rfl, ?_⟩
    simp only [hw] at hstep
    cases hfound : lookupIDIdq s.store.gtsidq tid curr with
    | none =>
      simp only [hfound, Option.some.injEq] at hstep
      exact Or.inl hstep.symm
    | some found =>
      simp only [hfound, Option.some.injEq] at hstep
      exact Or.inr ⟨found, rfl, hstep.symm⟩

/-- What a callback step does: it follows the lookup, and is recorded as an invocation. -/
theorem respStep_callback {s s' : Responses F P} {w : ℕ}
    (hstep : respStep s (.callback w : RespAction n F P) = some s') :
    ∃ tid found, s.worker w = some ⟨tid, found, false⟩ ∧
      s' = { s with
        worker := Function.update s.worker w (some ⟨tid, found, true⟩)
        called := s.called ++ [⟨found.callbackParam.2, found.isExpired, found.elapsedMsecs⟩] } := by
  simp only [respStep] at hstep
  split at hstep
  · next tid found hw => exact ⟨tid, found, hw, (Option.some.inj hstep).symm⟩
  · cases hstep

/-- What a removal does: it follows the callback and deletes the entry of the id, whichever
registration that is by now. -/
theorem respStep_remove {s s' : Responses F P} {w : ℕ}
    (hstep : respStep s (.remove w : RespAction n F P) = some s') :
    ∃ tid found, s.worker w = some ⟨tid, found, true⟩ ∧
      s' = { s with
        store := { s.store with gtsidq := remId s.store.gtsidq tid }
        worker := Function.update s.worker w none
        renewed := fun w' => if s.tidOf w' = some tid then false else s.renewed w'
        removals := s.removals ++
          [⟨found.callbackParam.2, s.store.gtsidq, remId s.store.gtsidq tid⟩] } := by
  simp only [respStep] at hstep
  split at hstep
  · next tid found hw => exact ⟨tid, found, hw, (Option.some.inj hstep).symm⟩
  · cases hstep

/-- What a sweep does if it gets to its end. -/
theorem respStep_sweep {s s' : Responses F P} {now : ℕ → Timeval} {printable : P → Bool}
    (hstep : respStep s (.sweep now printable : RespAction n F P) = some s') :
    PrintsExpired (fun param : P × ℕ => printable param.1) s.store.gtsidq now ∧
      s' = { s with store := { s.store with gtsidq := sweptIdq s.store.gtsidq now } } := by
  obtain ⟨swept, hswept, rfl⟩ := Option.map_eq_some_iff.mp hstep
  obtain ⟨hprints, rfl⟩ := (listExpiredIdq_eq_some_iff _ _ _ now).mp hswept
  exact ⟨hprints, rfl⟩

/-- Initially there is no registration and no response. -/
theorem Responses.initial_inv : (Responses.initial : Responses F P).Inv n where
  wf := tableWf_nil n
  tableLt _ _ hr := by cases hr
  unique _ _ _ hr := by cases hr
  heldLt _ _ hw := by cases hw
  heldId _ _ hw := by cases hw
  heldTid _ _ _ hw := by cases hw

/-- The invariant survives a send. -/
theorem Responses.Inv.send {s s' : Responses F P} (hs : s.Inv n) {gconnList : List Con}
    {hlen : getPeers gconnList = n} {req : Request} {callbackF : F} {callbackParam : P} {now : Timeval}
    (hstep : respStep s (.send gconnList hlen req callbackF callbackParam now) = some s') : s'.Inv n := by
  obtain ⟨hworker, _, _, hpushes, hwf, hreg, _⟩ := respStep_send hs.wf hstep
  have hold (t : List Char) (r : ℕ) (hr : regAt s'.store.gtsidq t = some r) :
      (t = req.id.chars ∧ r = s.pushes) ∨ regAt s.store.gtsidq t = some r := by
    rw [hreg] at hr
    split at hr
    · next h => exact Or.inl ⟨h.1, (Option.some.inj hr).symm⟩
    · exact Or.inr hr
  refine ⟨hwf, fun t r hr => ?_, fun t t' r hr hr' => ?_, fun w h hw => ?_, fun w h hw => ?_,
    fun w h t hw hr => ?_⟩
  · rcases hold t r hr with ⟨_, rfl⟩ | hr
    · omega
    · have := hs.tableLt t r hr
      omega
  · rcases hold t r hr with ⟨rfl, rfl⟩ | hr
    · rcases hold t' _ hr' with ⟨rfl, _⟩ | hr'
      · rfl
      · exact absurd (hs.tableLt t' _ hr') (Nat.lt_irrefl _)
    · rcases hold t' r hr' with ⟨rfl, rfl⟩ | hr'
      · exact absurd (hs.tableLt t _ hr) (Nat.lt_irrefl _)
      · exact hs.unique t t' r hr hr'
  · rw [hworker] at hw
    have := hs.heldLt w h hw
    omega
  · rw [hworker] at hw
    exact hs.heldId w h hw
  · rw [hworker] at hw
    rcases hold t _ hr with ⟨_, hr⟩ | hr
    · have := hs.heldLt w h hw
      omega
    · exact hs.heldTid w h t hw hr

/-- The invariant depends on the table through its registrations, and survives when workers take
up only what the table holds. -/
theorem Responses.Inv.of_subtable {s s' : Responses F P} (hs : s.Inv n)
    (hwf : TableWf n s'.store.gtsidq) (hpushes : s'.pushes = s.pushes)
    (hreg : ∀ t r, regAt s'.store.gtsidq t = some r → regAt s.store.gtsidq t = some r)
    (hworker : ∀ w h, s'.worker w = some h →
      (∃ h', s.worker w = some h' ∧ h'.tid = h.tid ∧ h'.registration = h.registration) ∨
        (h.tid ≠ [] ∧ regAt s.store.gtsidq h.tid = some h.registration)) : s'.Inv n := by
  refine ⟨hwf, fun t r hr => ?_, fun t t' r hr hr' => ?_, fun w h hw => ?_, fun w h hw => ?_,
    fun w h t hw hr => ?_⟩
  · rw [hpushes]
    exact hs.tableLt t r (hreg t r hr)
  · exact hs.unique t t' r (hreg t r hr) (hreg t' r hr')
  · rw [hpushes]
    rcases hworker w h hw with ⟨h', hw', _, hreg'⟩ | ⟨_, hr⟩
    · exact hreg' ▸ hs.heldLt w h' hw'
    · exact hs.tableLt _ _ hr
  · rcases hworker w h hw with ⟨h', hw', htid, _⟩ | ⟨htid, _⟩
    · exact htid ▸ hs.heldId w h' hw'
    · exact htid
  · rcases hworker w h hw with ⟨h', hw', htid, hreg'⟩ | ⟨_, hr'⟩
    · rw [← htid]
      exact hs.heldTid w h' t hw' (hreg' ▸ hreg t _ hr)
    · exact hs.unique t h.tid _ (hreg t _ hr) hr'

/-- The invariant holds in every reachable state. -/
theorem Responses.Inv.step {s s' : Responses F P} (hs : s.Inv n) (a : RespAction n F P)
    (hstep : respStep s a = some s') : s'.Inv n := by
  cases a with
  | send gconnList hlen req callbackF callbackParam now => exact hs.send hstep
  | lookup w tid curr =>
    obtain ⟨_, rfl | ⟨found, hfound, rfl⟩⟩ := respStep_lookup hstep
    · exact hs
    · refine hs.of_subtable hs.wf rfl (fun _ _ hr => hr) fun w' h hw => ?_
      dsimp only at hw
      rw [Function.update_apply] at hw
      split at hw
      · cases hw
        exact Or.inr (lookupIDIdq_regAt hfound)
      · exact Or.inl ⟨h, hw, rfl, rfl⟩
  | callback w =>
    obtain ⟨tid, found, hw, rfl⟩ := respStep_callback hstep
    refine hs.of_subtable hs.wf rfl (fun _ _ hr => hr) fun w' h hw' => Or.inl ?_
    dsimp only at hw'
    rw [Function.update_apply] at hw'
    split at hw'
    · next heq =>
      cases hw'
      exact ⟨⟨tid, found, false⟩, heq ▸ hw, rfl, rfl⟩
    · exact ⟨h, hw', rfl, rfl⟩
  | remove w =>
    obtain ⟨tid, found, hw, rfl⟩ := respStep_remove hstep
    refine hs.of_subtable (hs.wf.remId tid) rfl (fun t r hr => ?_) fun w' h hw' => Or.inl ?_
    · rw [regAt_remId hs.wf] at hr
      split at hr
      · cases hr
      · exact hr
    · dsimp only at hw'
      rw [Function.update_apply] at hw'
      split at hw'
      · cases hw'
      · exact ⟨h, hw', rfl, rfl⟩
  | sweep now printable =>
    obtain ⟨_, rfl⟩ := respStep_sweep hstep
    refine hs.of_subtable (hs.wf.sweptIdq now) rfl (fun t r hr => ?_) fun w h hw =>
      Or.inl ⟨h, hw, rfl, rfl⟩
    rwa [regAt_sweptIdq] at hr

end TcpClb
