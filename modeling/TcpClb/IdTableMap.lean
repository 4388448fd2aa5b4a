import TcpClb.Common.Runs
import TcpClb.IdTableRouting
import TcpClb.MessageQueue

/-!
# The id table is a map with sticky routing

Runs of `push_to_msgq`, `lookup_ID_idq`, `list_expired_idq` and `rem_id` on any ids. The history
records each call of push with its callback and the connection of the message it queued, and each
removal. Against that history the table is a map: an id is present exactly from its push on
until its removal, with the callback of its latest push, and all its messages in between are
queued for the one connection stored in its entry.

A push with the empty id returns without registering or queueing anything, so the law is about
nonempty ids.
-/

namespace TcpClb

open TcpClb.Common

variable {F P : Type}

/-- One operation on the table of a library with `n` peers, some of which is up at every push. -/
inductive IdOp (n : ℕ) (F P : Type)
  | push (gconnList : List Con) (hlen : getPeers gconnList = n) (hany : AnyPeerUp gconnList)
      (req : Request) (callbackF : F) (callbackParam : P) (now : Timeval)
  | lookup (t : List Char) (now : Timeval)
  | listExpired (now : ℕ → Timeval)
  | rem (t : List Char)

/-- A call that matters to the map. A push also tells the connection of the message it queued. -/
inductive IdEvent (F P : Type)
  | pushed (t : List Char) (callbackF : F) (callbackParam : P) (conn : Option ℤ)
  | removed (t : List Char)

/-- The variables behind `qtex`, with the calls made so far. -/
structure IdRun (F P : Type) where
  store : Store F P
  log : List (IdEvent F P)

/-- Before the first call. -/
def IdRun.initial : IdRun F P := ⟨.initial, []⟩

/-- The connection of the message that a push has added to the queue. -/
def queuedConn (before after : Store F P) : Option ℤ :=
  (after.gmsgq.heap.get before.gmsgq.heap.size).map fun node => node.val.conn

/-- Perform one operation and record it. A lookup only reads, and the sweeps are those that return. -/
def idStep {n : ℕ} (s : IdRun F P) : IdOp n F P → Option (IdRun F P)
  | .push gconnList _ _ req callbackF callbackParam now =>
    (pushToMsgq s.store gconnList req.id.chars req.msgLen req callbackF callbackParam now).map fun store =>
      ⟨store, s.log ++ [.pushed req.id.chars callbackF callbackParam (queuedConn s.store store)]⟩
  | .lookup _ _ => some s
  | .listExpired now => some ⟨{ s.store with gtsidq := sweptIdq s.store.gtsidq now }, s.log⟩
  | .rem t => some ⟨{ s.store with gtsidq := remId s.store.gtsidq t }, s.log ++ [.removed t]⟩

/-- The callback of the most recent push of an id since its last removal. -/
def registeredAfter (t : List Char) (current : Option (F × P)) : IdEvent F P → Option (F × P)
  | .pushed t' callbackF callbackParam _ => if t' = t then some (callbackF, callbackParam) else current
  | .removed t' => if t' = t then none else current

/-- The map the table stands for. -/
def registered (t : List Char) (log : List (IdEvent F P)) : Option (F × P) :=
  log.foldl (registeredAfter t) none

/-- The connections of the messages pushed for an id since its last removal. -/
def connsAfter (t : List Char) (current : List (Option ℤ)) : IdEvent F P → List (Option ℤ)
  | .pushed t' _ _ conn => if t' = t then current ++ [conn] else current
  | .removed t' => if t' = t then [] else current

/-- Where the messages of an id went since its last removal. -/
def connsSince (t : List Char) (log : List (IdEvent F P)) : List (Option ℤ) :=
  log.foldl (connsAfter t) []

/-- The table is the map of its history, removal and update work as on a map, and the messages of
an id are all queued for the connection in its entry. The empty id is not found, and not taken. -/
structure IdRun.IsMap (n : ℕ) (s : IdRun F P) : Prop where
  distinct : (idsOf s.store.gtsidq).Nodup
  nonempty : [] ∉ idsOf s.store.gtsidq
  lookup : ∀ t, t ≠ [] → ∀ now, (lookupIDIdq s.store.gtsidq t now).map
    (fun found => (found.callbackF, found.callbackParam)) = registered t s.log
  removal : ∀ t, remId s.store.gtsidq t = s.store.gtsidq.filter fun e => e.id ≠ t
  noFallback : ∀ t conn, isIDPresentIdq s.store.gtsidq t = some conn →
    ∀ callbackF callbackParam now, (updateEntryIdq s.store.gtsidq t callbackF callbackParam now).2 ≠ -1
  sticky : ∀ t, t ≠ [] → ∀ e, entryOf s.store.gtsidq t = some e →
    ∀ conn ∈ connsSince t s.log, conn = some e.conn
  inRange : ∀ e ∈ s.store.gtsidq, 0 ≤ e.conn ∧ e.conn < n
  notFoundEmpty : ∀ now, lookupIDIdq s.store.gtsidq [] now = none
  notPushedEmpty : ∀ gconnList len data callbackF callbackParam now,
    pushToMsgq s.store gconnList [] len data callbackF callbackParam now = some s.store

/-- What every step preserves: a well-formed table and queue that agree with the history. -/
structure IdRun.Inv (n : ℕ) (s : IdRun F P) : Prop where
  wf : TableWf n s.store.gtsidq
  queue : ∃ nodes, s.store.gmsgq.Consists nodes
  callback : ∀ t, t ≠ [] → (entryOf s.store.gtsidq t).map (fun e => (e.callbackF, e.callbackParam)) =
    registered t s.log
  sticky : ∀ t, t ≠ [] → ∀ e, entryOf s.store.gtsidq t = some e →
    ∀ conn ∈ connsSince t s.log, conn = some e.conn

/-- A lookup finds the entry of the id and copies its callback. -/
theorem lookupIDIdq_callback (table : List (Tsidque F P)) (t : List Char) (ht : t ≠ []) (now : Timeval) :
    (lookupIDIdq table t now).map (fun found => (found.callbackF, found.callbackParam)) =
      (entryOf table t).map fun e => (e.callbackF, e.callbackParam) := by
  rw [lookupIDIdq, if_neg ht, Option.map_map]
  rfl

/-- An id without an entry has no messages since its last removal. -/
theorem connsSince_of_not_registered (t : List Char) (log : List (IdEvent F P))
    (hnone : registered t log = none) : connsSince t log = [] := by
  induction log using List.reverseRecOn with
  | nil => rfl
  | append_singleton log e ih =>
    simp only [registered, connsSince, List.foldl_append, List.foldl_cons, List.foldl_nil] at hnone ih ⊢
    cases e with
    | pushed t' callbackF callbackParam conn =>
      by_cases ht : t' = t
      · simp [registeredAfter, ht] at hnone
      · simp only [registeredAfter, connsAfter, if_neg ht] at hnone ⊢
        exact ih hnone
    | removed t' =>
      by_cases ht : t' = t
      · simp [connsAfter, ht]
      · simp only [registeredAfter, connsAfter, if_neg ht] at hnone ⊢
        exact ih hnone

/-- A push of the empty id changes nothing but the history. -/
theorem idStep_push_empty {n : ℕ} (s : IdRun F P) (hs : s.Inv n) (gconnList : List Con) (req : Request)
    (callbackF : F) (callbackParam : P) (now : Timeval) (hid : req.id.chars = []) (conn : Option ℤ) :
    pushToMsgq s.store gconnList req.id.chars req.msgLen req callbackF callbackParam now = some s.store ∧
      (⟨s.store, s.log ++ [.pushed req.id.chars callbackF callbackParam conn]⟩ : IdRun F P).Inv n := by
  refine ⟨by simp [pushToMsgq, hid], hs.wf, hs.queue, fun t ht => ?_, fun t ht => ?_⟩
  · rw [hs.callback t ht, registered, registered, List.foldl_append]
    simp [registeredAfter, hid, Ne.symm ht]
  · have hconns : connsSince t (s.log ++ [.pushed req.id.chars callbackF callbackParam conn]) =
        connsSince t s.log := by
      rw [connsSince, connsSince, List.foldl_append]
      simp [connsAfter, hid, Ne.symm ht]
    rw [hconns]
    exact hs.sticky t ht

/-- A push of a nonempty id is defined and keeps the invariant. -/
theorem idStep_push {n : ℕ} {s : IdRun F P} (hs : s.Inv n) {gconnList : List Con}
    (hlen : getPeers gconnList = n) (hany : AnyPeerUp gconnList) (req : Request) (callbackF : F)
    (callbackParam : P) (now : Timeval) (hid : req.id.chars ≠ []) :
    ∃ store, pushToMsgq s.store gconnList req.id.chars req.msgLen req callbackF callbackParam now =
        some store ∧
      (⟨store, s.log ++ [.pushed req.id.chars callbackF callbackParam (queuedConn s.store store)]⟩ :
        IdRun F P).Inv n := by
  subst hlen
  obtain ⟨nodes, hq⟩ := hs.queue
  obtain ⟨routed, hrouted⟩ := routeId_isSome s.store.gtsidq s.store.glastConRr gconnList req.id.chars
    callbackF callbackParam now hany
  have hroutes := routes_of_routeId hs.wf s.store.glastConRr req.id.chars hid callbackF callbackParam
    now routed hrouted
  obtain ⟨store, hpush, htable, _, hq'⟩ := pushToMsgq_consists s.store gconnList req callbackF
    callbackParam now hid nodes hq routed hrouted
  have hconn : queuedConn s.store store = some routed.2.2 := by
    obtain ⟨_, _, hget⟩ := hq'.segment.get_of_mem _ (List.mem_append_right nodes List.mem_cons_self)
    simp [queuedConn, hget]
  obtain ⟨e, he, heconn, hef, hep⟩ := hroutes.entry
  refine ⟨store, hpush, ?_, ⟨_, hq'⟩, fun t ht => ?_, fun t ht d hd => ?_⟩
  · rw [htable]
    exact hroutes.wf
  · rw [htable, registered, List.foldl_append, List.foldl_cons, List.foldl_nil, registeredAfter]
    by_cases htid : req.id.chars = t
    · rw [if_pos htid, ← htid, he, Option.map_some, hef, hep]
    · rw [if_neg htid, hroutes.others t (Ne.symm htid), hs.callback t ht, registered]
  · rw [htable] at hd
    rw [connsSince, List.foldl_append, List.foldl_cons, List.foldl_nil, connsAfter, hconn]
    by_cases htid : req.id.chars = t
    · subst htid
      rw [he, Option.some.injEq] at hd
      subst hd
      rw [if_pos rfl, heconn]
      intro conn hmem
      rcases List.mem_append.mp hmem with hmem | hmem
      · cases hold : entryOf s.store.gtsidq req.id.chars with
        | none =>
          have hnone := hs.callback req.id.chars ht
          rw [hold, Option.map_none] at hnone
          have hnil : connsSince req.id.chars s.log = [] := connsSince_of_not_registered _ _ hnone.symm
          rw [connsSince] at hnil
          rw [hnil] at hmem
          exact absurd hmem List.not_mem_nil
        | some old =>
          rw [hroutes.sticky old hold]
          exact hs.sticky req.id.chars ht old hold conn hmem
      · exact List.mem_singleton.mp hmem
    · rw [if_neg htid]
      rw [hroutes.others t (Ne.symm htid)] at hd
      exact hs.sticky t ht d hd

/-- A removal keeps the invariant. -/
theorem idStep_rem {n : ℕ} {s : IdRun F P} (hs : s.Inv n) (t' : List Char) :
    (⟨{ s.store with gtsidq := remId s.store.gtsidq t' }, s.log ++ [.removed t']⟩ : IdRun F P).Inv n := by
  refine ⟨hs.wf.remId t', hs.queue, fun t ht => ?_, fun t ht e he => ?_⟩
  · rw [entryOf_remId _ _ _ hs.wf.distinct, registered, List.foldl_append, List.foldl_cons,
      List.foldl_nil, registeredAfter]
    by_cases htid : t = t'
    · rw [if_pos htid, if_pos htid.symm, Option.map_none]
    · rw [if_neg htid, if_neg (Ne.symm htid), hs.callback t ht, registered]
  · rw [entryOf_remId _ _ _ hs.wf.distinct] at he
    rw [connsSince, List.foldl_append, List.foldl_cons, List.foldl_nil, connsAfter]
    by_cases htid : t = t'
    · rw [if_pos htid] at he
      cases he
    · rw [if_neg htid] at he
      rw [if_neg (Ne.symm htid)]
      exact hs.sticky t ht e he

/-- A sweep keeps the invariant. -/
theorem idStep_listExpired {n : ℕ} {s : IdRun F P} (hs : s.Inv n) (now : ℕ → Timeval) :
    (⟨{ s.store with gtsidq := sweptIdq s.store.gtsidq now }, s.log⟩ : IdRun F P).Inv n := by
  refine ⟨hs.wf.sweptIdq now, hs.queue, fun t ht => ?_, fun t ht e he => ?_⟩
  · obtain ⟨flag, hflag⟩ := entryOf_sweptIdq s.store.gtsidq now t
    rw [hflag, ← hs.callback t ht, Option.map_map]
    rfl
  · obtain ⟨flag, hflag⟩ := entryOf_sweptIdq s.store.gtsidq now t
    rw [hflag, Option.map_eq_some_iff] at he
    obtain ⟨d, hd, rfl⟩ := he
    exact hs.sticky t ht d hd

/-- Every operation is defined and keeps the invariant. -/
theorem idStep_inv {n : ℕ} (s : IdRun F P) (op : IdOp n F P) (hs : s.Inv n) :
    ∃ next, idStep s op = some next ∧ next.Inv n := by
  cases op with
  | push gconnList hlen hany req callbackF callbackParam now =>
    by_cases hid : req.id.chars = []
    · obtain ⟨hpush, hnext⟩ := idStep_push_empty s hs gconnList req callbackF callbackParam now hid
        (queuedConn s.store s.store)
      exact ⟨_, by rw [idStep, hpush, Option.map_some], hnext⟩
    · obtain ⟨store, hpush, hnext⟩ := idStep_push hs hlen hany req callbackF callbackParam now hid
      exact ⟨_, by rw [idStep, hpush, Option.map_some], hnext⟩
  | lookup t now => exact ⟨s, rfl, hs⟩
  | listExpired now => exact ⟨_, rfl, idStep_listExpired hs now⟩
  | rem t => exact ⟨_, rfl, idStep_rem hs t⟩

/-- The invariant implies the law. -/
theorem IdRun.Inv.isMap {n : ℕ} {s : IdRun F P} (hs : s.Inv n) : s.IsMap n where
  distinct := hs.wf.distinct
  nonempty := hs.wf.nonempty
  lookup t ht now := by rw [lookupIDIdq_callback _ t ht, hs.callback t ht]
  removal t := remId_eq_filter _ t hs.wf.distinct
  noFallback t conn hpresent callbackF callbackParam now := by
    have ht : t ≠ [] := by
      rintro rfl
      simp [isIDPresentIdq] at hpresent
    rw [isIDPresentIdq_eq _ t ht, Option.map_eq_some_iff] at hpresent
    obtain ⟨e, he, _⟩ := hpresent
    obtain ⟨hret, hconn⟩ := updateEntryIdq_ret hs.wf t callbackF callbackParam now e he
    rw [hret]
    exact hconn
  sticky := hs.sticky
  inRange := hs.wf.inRange
  notFoundEmpty _ := if_pos rfl
  notPushedEmpty _ _ _ _ _ _ := if_pos rfl

/-- Before the first call the invariant holds. -/
theorem IdRun.initial_inv (n : ℕ) : (IdRun.initial : IdRun F P).Inv n :=
  ⟨tableWf_nil n, ⟨[], represents_nil _⟩, fun _ _ => rfl, fun _ _ _ he => by cases he⟩

/-- Every sequence of operations can be performed, and after it the table is the map of its
history with sticky routing. -/
theorem idTable_isMap (n : ℕ) (ops : List (IdOp n F P)) :
    ∃ s, runActions idStep .initial ops = some s ∧ s.IsMap n := by
  obtain ⟨s, hrun, hs⟩ := exists_run_of_step idStep (IdRun.Inv n) idStep_inv .initial ops
    (IdRun.initial_inv n)
  exact ⟨s, hrun, hs.isMap⟩

/-- The empty id is not found after it was pushed: the push returns before it registers anything. -/
theorem emptyId_not_found :
    ¬ ∀ (ops : List (IdOp 1 Unit Unit)) (s : IdRun Unit Unit) (t : List Char) (now : Timeval),
      runActions idStep .initial ops = some s →
        (lookupIDIdq s.store.gtsidq t now).map (fun found => (found.callbackF, found.callbackParam)) =
          registered t s.log := by
  intro hall
  have h := hall [.push [⟨3, 1, 0⟩] rfl ⟨⟨3, 1, 0⟩, by simp, rfl⟩ ⟨none, 0, 0, 0, ⟨[], by decide⟩⟩ () () ⟨0, 0⟩]
    _ [] ⟨0, 0⟩ rfl
  exact absurd h (by decide)

end TcpClb
