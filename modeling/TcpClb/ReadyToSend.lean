import TcpClb.IdTableMap
import TcpClb.Threads

/-!
# What a call of `ready_to_send` says and does

A call by itself, without other threads between its critical sections. It returns 1 whatever
`push_to_msgq` has done: a request without an id is neither queued nor registered, and if the queue is
empty the test behind the push then reads through `NULL`.
-/

namespace TcpClb

open TcpClb.Common

variable {F P : Type}

/-- `ready_to_send`: the store after it and what it returns. The test of `gmsgq->next` decides about a
signal only, but needs a queue that is not empty. -/
def readyToSend (s : Store F P) (gconnList : List Con) (req : Request) (callbackF : F) (callbackParam : P)
    (now : Timeval) : Option (Store F P × ℤ) := do
  let store ← pushToMsgq s gconnList req.id.chars req.msgLen req callbackF callbackParam now
  let first ← store.gmsgq.head
  let _ ← store.gmsgq.heap.get first
  some (store, 1)

/-- The request is queued behind the given nodes, as exactly one node, and its id is registered with the
callback. -/
structure SendAccepted (s s' : Store F P) (nodes : List (ℕ × Msgque)) (req : Request) (callbackF : F)
    (callbackParam : P) : Prop where
  queued : ∃ a conn, s'.gmsgq.Consists (nodes ++ [(a, ⟨req, req.id.chars, req.msgLen, conn⟩)])
  registered : ∃ e, entryOf s'.gtsidq req.id.chars = some e ∧ e.callbackF = callbackF ∧
    e.callbackParam = callbackParam
  others : ∀ t, t ≠ req.id.chars → entryOf s'.gtsidq t = entryOf s.gtsidq t

/-- The call returns, and either it returns 1 and has accepted the request, or something else and has
changed neither the queue nor the table. -/
def SendTruthful (s : Store F P) (nodes : List (ℕ × Msgque)) (gconnList : List Con) (req : Request)
    (callbackF : F) (callbackParam : P) (now : Timeval) : Prop :=
  ∃ s' rc, readyToSend s gconnList req callbackF callbackParam now = some (s', rc) ∧
    (rc = 1 ∧ SendAccepted s s' nodes req callbackF callbackParam ∨
      rc ≠ 1 ∧ s'.gmsgq = s.gmsgq ∧ s'.gtsidq = s.gtsidq)

/-- An entry at the end answers for its id if no other does. -/
theorem entryOf_append (head : List (Tsidque F P)) (e : Tsidque F P) (t : List Char) :
    entryOf (head ++ [e]) t = (entryOf head t).or (if e.id = t then some e else none) := by
  rw [entryOf, List.find?_append, ← entryOf, ← entryOf, entryOf_cons, entryOf_nil]

/-- `add_entry_idq` appends an entry with the id and the callback. -/
theorem addEntryIdq_eq_some {head : List (Tsidque F P)} {glastConRr : ℕ} {gconnList : List Con}
    {t : List Char} (ht : t ≠ []) {callbackF : F} {callbackParam : P} {now : Timeval}
    {routed : List (Tsidque F P) × ℕ × ℤ}
    (hadd : addEntryIdq head glastConRr gconnList t callbackF callbackParam now = some routed) :
    ∃ e, routed.1 = head ++ [e] ∧ e.id = t ∧ e.callbackF = callbackF ∧ e.callbackParam = callbackParam := by
  rw [addEntryIdq, if_neg ht] at hadd
  obtain ⟨assigned, _, rfl⟩ := Option.map_eq_some_iff.mp hadd
  exact ⟨_, rfl, rfl, rfl, rfl⟩

/-- Whatever the table is, routing an id registers it with its callback and leaves the other ids alone. -/
theorem routeId_registers {table : List (Tsidque F P)} {glastConRr : ℕ} {gconnList : List Con}
    {t : List Char} (ht : t ≠ []) {callbackF : F} {callbackParam : P} {now : Timeval}
    {routed : List (Tsidque F P) × ℕ × ℤ}
    (hrouted : routeId table glastConRr gconnList t callbackF callbackParam now = some routed) :
    (∃ e, entryOf routed.1 t = some e ∧ e.callbackF = callbackF ∧ e.callbackParam = callbackParam) ∧
      ∀ t', t' ≠ t → entryOf routed.1 t' = entryOf table t' := by
  unfold routeId at hrouted
  rw [isIDPresentIdq_eq table t ht] at hrouted
  cases hentry : entryOf table t with
  | none =>
    rw [hentry] at hrouted
    obtain ⟨e, htable, hid, hcallback, hparam⟩ := addEntryIdq_eq_some ht hrouted
    rw [htable]
    refine ⟨⟨e, ?_, hcallback, hparam⟩, fun t' ht' => ?_⟩
    · rw [entryOf_append, hentry, Option.none_or, if_pos hid]
    · rw [entryOf_append, if_neg (hid ▸ Ne.symm ht'), Option.or_none]
  | some e =>
    rw [hentry, Option.map_some] at hrouted
    have hupdated (t' : List Char) := entryOf_updateFrom t callbackF callbackParam now table t'
    rw [hentry, Option.map_some] at hupdated
    dsimp only at hrouted
    rw [updateEntryIdq_eq table t callbackF callbackParam now e hentry] at hrouted
    split at hrouted
    · -- the entry has been renewed all the same, and answers before the one that is appended
      obtain ⟨added, htable, hid, _⟩ := addEntryIdq_eq_some ht hrouted
      rw [htable]
      refine ⟨⟨e.renew callbackF callbackParam now, ?_, rfl, rfl⟩, fun t' ht' => ?_⟩
      · rw [entryOf_append, hupdated, if_pos rfl, Option.some_or]
      · rw [entryOf_append, if_neg (hid ▸ Ne.symm ht'), Option.or_none, hupdated, if_neg ht']
    · cases hrouted
      refine ⟨⟨e.renew callbackF callbackParam now, ?_, rfl, rfl⟩, fun t' ht' => ?_⟩
      · rw [hupdated, if_pos rfl]
      · rw [hupdated, if_neg ht']

/-- A queue that is not empty has a head that is not freed. -/
theorem MsgList.Consists.head_get {q : MsgList} {nodes : List (ℕ × Msgque)} (hq : q.Consists nodes)
    (hne : nodes ≠ []) : ∃ first cell, q.head = some first ∧ q.heap.get first = some cell := by
  cases nodes with
  | nil => exact absurd rfl hne
  | cons x rest =>
    obtain ⟨hhead, next, hget, _⟩ := Represents.first hq
    exact ⟨x.1, _, hhead, hget⟩

/-- A request with an id is accepted if some peer is up. -/
theorem readyToSend_accepts {s : Store F P} {nodes : List (ℕ × Msgque)} {gconnList : List Con}
    {req : Request} (callbackF : F) (callbackParam : P) (now : Timeval) (hq : s.gmsgq.Consists nodes)
    (hany : AnyPeerUp gconnList) (hid : req.id.chars ≠ []) :
    ∃ s', readyToSend s gconnList req callbackF callbackParam now = some (s', 1) ∧
      SendAccepted s s' nodes req callbackF callbackParam := by
  obtain ⟨routed, hrouted⟩ := routeId_isSome s.gtsidq s.glastConRr gconnList req.id.chars callbackF
    callbackParam now hany
  obtain ⟨s', hpush, htable, _, hqueue⟩ := pushToMsgq_consists s gconnList req callbackF callbackParam now
    hid nodes hq routed hrouted
  obtain ⟨first, cell, hhead, hget⟩ := hqueue.head_get (List.append_ne_nil_of_right_ne_nil nodes (List.cons_ne_nil _ _))
  obtain ⟨hregistered, hothers⟩ := routeId_registers hid hrouted
  rw [← htable] at hregistered hothers
  refine ⟨s', ?_, ⟨_, _, hqueue⟩, hregistered, hothers⟩
  simp only [readyToSend, hpush, hhead, hget, Option.bind_eq_bind, Option.bind_some]

/-- A queue has no second list of nodes that is longer by one. -/
theorem MsgList.Consists.not_append {q : MsgList} {nodes : List (ℕ × Msgque)} (hq : q.Consists nodes)
    (a : ℕ) (m : Msgque) : ¬ q.Consists (nodes ++ [(a, m)]) := by
  intro hlonger
  have hreach : Reach q.heap q.head a := (hlonger.reach_iff a).mpr (by simp)
  have hmem := (hq.reach_iff a).mp hreach
  have hnodup := hlonger.nodup
  rw [List.map_append, List.nodup_append] at hnodup
  exact hnodup.2.2 a hmem a (by simp) rfl

/-- With some peer up, the call is truthful exactly if the request has an id. -/
theorem sendTruthful_iff (s : Store F P) (nodes : List (ℕ × Msgque)) (gconnList : List Con) (req : Request)
    (callbackF : F) (callbackParam : P) (now : Timeval) (hq : s.gmsgq.Consists nodes)
    (hany : AnyPeerUp gconnList) :
    SendTruthful s nodes gconnList req callbackF callbackParam now ↔ req.id.chars ≠ [] := by
  constructor
  · rintro ⟨s', rc, hsend, houtcome⟩ hid
    have hpush : pushToMsgq s gconnList req.id.chars req.msgLen req callbackF callbackParam now = some s := by
      rw [pushToMsgq, if_pos hid]
    simp only [readyToSend, hpush, Option.bind_eq_bind, Option.bind_some] at hsend
    obtain ⟨first, _, hsend⟩ := Option.bind_eq_some_iff.mp hsend
    obtain ⟨cell, _, hsend⟩ := Option.bind_eq_some_iff.mp hsend
    cases hsend
    rcases houtcome with ⟨_, haccepted⟩ | ⟨hrc, _⟩
    · obtain ⟨a, conn, hqueued⟩ := haccepted.queued
      exact hq.not_append a _ hqueued
    · exact hrc rfl
  · intro hid
    obtain ⟨s', hsend, haccepted⟩ := readyToSend_accepts callbackF callbackParam now hq hany hid
    exact ⟨s', 1, hsend, Or.inl ⟨rfl, haccepted⟩⟩

/-- A request with an id, to an empty queue with one peer up. -/
theorem named_sendTruthful : MsgList.Consists ⟨Heap.empty, none⟩ [] ∧ AnyPeerUp [⟨3, 1, 0⟩] ∧
    SendTruthful (Store.initial : Store Unit Unit) [] [⟨3, 1, 0⟩] ⟨some ['x', '\x00'], 1, 0, 0, oneCharId 'a'⟩ () ()
      ⟨0, 0⟩ := by
  have hq : MsgList.Consists ⟨Heap.empty, none⟩ [] := represents_nil Heap.empty
  have hany : AnyPeerUp [⟨3, 1, 0⟩] := ⟨⟨3, 1, 0⟩, by simp, rfl⟩
  exact ⟨hq, hany, (sendTruthful_iff _ _ _ _ _ _ _ hq hany).mpr (List.cons_ne_nil _ _)⟩

/-- A request with the empty id makes the call read through `NULL` on the empty queue. -/
theorem unnamed_not_truthful :
    readyToSend (Store.initial : Store Unit Unit) [⟨3, 1, 0⟩] ⟨some ['x', '\x00'], 1, 0, 0, ⟨[], by decide⟩⟩ () ()
        ⟨0, 0⟩ = none ∧
      ¬ SendTruthful (Store.initial : Store Unit Unit) [] [⟨3, 1, 0⟩]
        ⟨some ['x', '\x00'], 1, 0, 0, ⟨[], by decide⟩⟩ () () ⟨0, 0⟩ := by
  refine ⟨rfl, fun ⟨s', rc, hsend, _⟩ => ?_⟩
  cases hsend

/-- Some signal is possible in every state. -/
theorem System.exists_mayWake (s : System F P) : ∃ woken, s.MayWake woken := by
  by_cases hwaiting : ∃ w, w < s.shared.gconnList.length ∧ (s.send w).pc = .waiting
  · obtain ⟨w, hw⟩ := hwaiting
    exact ⟨some w, hw⟩
  · exact ⟨none, fun w hw hpc => hwaiting ⟨w, hw, hpc⟩⟩

/-- The test of `gmsgq->next` is possible if the queue has a head. -/
theorem exists_sysStep_signal {s : System F P} {k first : ℕ} {cell : Cell Msgque} (hpending : s.pending k = true)
    (hhead : s.shared.store.gmsgq.head = some first)
    (hget : s.shared.store.gmsgq.heap.get first = some cell) :
    ∃ woken s', sysStep s (.signal k woken) = some s' ∧ s'.shared = s.shared ∧ s'.pending k = false := by
  have hclear : Function.update s.pending k false k = false := Function.update_self ..
  by_cases hnext : cell.next = none
  · obtain ⟨woken, hmay⟩ := s.exists_mayWake
    refine ⟨woken, { s with pending := Function.update s.pending k false }.wake woken, ?_, ?_⟩
    · simp only [sysStep, hpending, if_true, hhead, hget, Option.bind_eq_bind, Option.bind_some, hnext]
      rw [if_pos hmay]
    · cases woken with
      | none | some w => exact ⟨rfl, hclear⟩
  · refine ⟨none, { s with pending := Function.update s.pending k false }, ?_, rfl, hclear⟩
    simp only [sysStep, hpending, if_true, hhead, hget, Option.bind_eq_bind, Option.bind_some, if_neg hnext]

/-- A client that no other thread interrupts makes the call in its two steps. -/
theorem readyToSend_run {s : System F P} {k : ℕ} {req : Request} {callbackF : F} {callbackParam : P}
    {now : Timeval} {store : Store F P} {rc : ℤ} (hpending : s.pending k = false)
    (hsend : readyToSend s.shared.store s.shared.gconnList req callbackF callbackParam now = some (store, rc)) :
    ∃ woken s', runActions sysStep s [.append k req callbackF callbackParam now, .signal k woken] = some s' ∧
      s'.shared.store = store ∧ s'.pending k = false := by
  obtain ⟨pushed, hpush, hsend⟩ := Option.bind_eq_some_iff.mp hsend
  obtain ⟨first, hhead, hsend⟩ := Option.bind_eq_some_iff.mp hsend
  obtain ⟨cell, hget, hsend⟩ := Option.bind_eq_some_iff.mp hsend
  obtain ⟨rfl, _⟩ := Prod.mk.inj (Option.some.inj hsend)
  let appended : System F P :=
    { s with shared := { s.shared with store := pushed }, pending := Function.update s.pending k true }
  have happend : sysStep s (.append k req callbackF callbackParam now) = some appended := by
    simp only [sysStep, hpending, Bool.false_eq_true, if_false, hpush, Option.map_some]
    rfl
  obtain ⟨woken, s', hsignal, hshared, hclear⟩ :=
    exists_sysStep_signal (show appended.pending k = true from Function.update_self ..) hhead hget
  refine ⟨woken, s', ?_, by rw [hshared], hclear⟩
  rw [runActions, happend, Option.bind_some, runActions, hsignal]
  rfl

end TcpClb
