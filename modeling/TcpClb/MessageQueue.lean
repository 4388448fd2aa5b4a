import TcpClb.Common.ListSurgery
import TcpClb.IdTableEntries

/-!
# The message queue

`push_to_msgq` and `pop_from_msgq` of `task.c` on the doubly linked list behind `gmsgq`. A result
is undefined when the code dereferences `NULL` or a freed node, overflows the id field of a node,
or never returns from the search for a connection.

The node that `push_to_msgq` allocates before it returns early for an empty id is leaked. Nothing
ever points to it, so the model leaves it out.

On a well-formed queue a push appends to the list of its messages. A pop removes the first message for
its connection, and keeps the queue well formed unless that message is the last of several: the node
before it is then left pointing to it.
-/

namespace TcpClb

open TcpClb.Common

variable {F P : Type}

/-- The heap of message nodes and the head pointer of their list. -/
structure MsgList where
  heap : Links Msgque
  head : Option ℕ
  deriving DecidableEq

/-- What the mutex `qtex` protects: the message queue, the id table and the round-robin cursor. -/
structure Store (F P : Type) where
  gmsgq : MsgList
  gtsidq : List (Tsidque F P)
  glastConRr : ℕ
  deriving DecidableEq

/-- The global variables before the first call. -/
def Store.initial : Store F P := ⟨⟨Heap.empty, none⟩, [], 0⟩

/-- Register the id of a message and append the message to the queue. -/
def pushToMsgq (s : Store F P) (gconnList : List Con) (tid : List Char) (len : ℤ) (data : Request)
    (callbackF : F) (callbackParam : P) (now : Timeval) : Option (Store F P) :=
  if tid = [] then some s
  -- `strcpy(temp->id, temp_id)` has to fit, with the terminator
  else if keySize ≤ tid.length then none
  else do
    let routed ← routeId s.gtsidq s.glastConRr gconnList tid callbackF callbackParam now
    let linked ← appendNode s.gmsgq.heap s.gmsgq.head ⟨data, tid, len, routed.2.2⟩
    some ⟨⟨linked.1, linked.2⟩, routed.1, routed.2.1⟩

/-- Unlink the first message for a connection and return its address, `none` for `NULL`. -/
def popFromMsgq (q : MsgList) (con : ℤ) : Option (MsgList × Option ℕ) :=
  match q.head with
  | none => some (q, none)
  | some first => do
    let temp ← q.heap.get first
    if temp.val.conn = con then
      let heap ← setPrevOf q.heap temp.next none
      let heap ← detach heap first
      some (⟨heap, temp.next⟩, some first)
    else
      match ← findFrom q.heap (fun m => m.conn = con) (q.heap.size + 1) q.head with
      | none => some (q, none)
      | some a =>
        let temp ← q.heap.get a
        let heap ← match temp.next with
          -- the node before is not touched when nothing follows
          | none => some q.heap
          | some b => do
            let heap ← setPrevOf q.heap (some b) temp.prev
            let before ← temp.prev
            heap.modify before fun cell => { cell with next := some b }
        let heap ← detach heap a
        some (⟨heap, q.head⟩, some a)

/-- `free(node)` by the caller of `pop_from_msgq`. -/
def MsgList.freeNode (q : MsgList) (a : ℕ) : Option MsgList :=
  (q.heap.free a).map fun heap => { q with heap := heap }

/-- The queue consists of exactly these nodes, in order, correctly linked. -/
def MsgList.Consists (q : MsgList) (nodes : List (ℕ × Msgque)) : Prop :=
  Represents q.heap q.head nodes

/-- The first message for the connection is the last node of a queue of several. -/
def TailFirst (con : ℤ) (waiting : List Msgque) : Prop :=
  2 ≤ waiting.length ∧ waiting.findIdx (fun m => m.conn = con) + 1 = waiting.length

instance (con : ℤ) (waiting : List Msgque) : Decidable (TailFirst con waiting) :=
  inferInstanceAs (Decidable (_ ∧ _))

/-- An id is routed whenever some peer is up. -/
theorem routeId_isSome (idhead : List (Tsidque F P)) (glastConRr : ℕ) (gconnList : List Con)
    (tid : List Char) (callbackF : F) (callbackParam : P) (now : Timeval)
    (hany : AnyPeerUp gconnList) :
    ∃ routed, routeId idhead glastConRr gconnList tid callbackF callbackParam now = some routed := by
  obtain ⟨con, next, hsearch, _⟩ := reassignConn_of_anyPeerUp gconnList glastConRr hany
  have hadd (head : List (Tsidque F P)) :
      ∃ routed, addEntryIdq head glastConRr gconnList tid callbackF callbackParam now = some routed := by
    unfold addEntryIdq
    by_cases ht : tid = []
    · exact ⟨_, if_pos ht⟩
    · rw [if_neg ht, hsearch]
      exact ⟨_, rfl⟩
  unfold routeId
  cases isIDPresentIdq idhead tid with
  | none => exact hadd idhead
  | some conn =>
    by_cases hret : (updateEntryIdq idhead tid callbackF callbackParam now).2 = -1
    · simp only [hret, if_true]
      exact hadd _
    · simp only [hret, if_false]
      exact ⟨_, rfl⟩

/-- A push with a routed id appends one message, for the connection the id was routed to. -/
theorem pushToMsgq_consists (s : Store F P) (gconnList : List Con) (req : Request) (callbackF : F)
    (callbackParam : P) (now : Timeval) (hid : req.id.chars ≠ []) (nodes : List (ℕ × Msgque))
    (hq : s.gmsgq.Consists nodes) (routed : List (Tsidque F P) × ℕ × ℤ)
    (hrouted : routeId s.gtsidq s.glastConRr gconnList req.id.chars callbackF callbackParam now =
      some routed) :
    ∃ s', pushToMsgq s gconnList req.id.chars req.msgLen req callbackF callbackParam now = some s' ∧
      s'.gtsidq = routed.1 ∧ s'.glastConRr = routed.2.1 ∧
      s'.gmsgq.Consists
        (nodes ++ [(s.gmsgq.heap.size, ⟨req, req.id.chars, req.msgLen, routed.2.2⟩)]) := by
  obtain ⟨heap, head, happend, hrep⟩ := appendNode_represents hq
    (⟨req, req.id.chars, req.msgLen, routed.2.2⟩ : Msgque)
  refine ⟨⟨⟨heap, head⟩, routed.1, routed.2.1⟩, ?_, rfl, rfl, hrep⟩
  have hfits : ¬ keySize ≤ req.id.chars.length := Nat.not_le_of_lt req.id.fits
  simp [pushToMsgq, hid, hfits, hrouted, happend]

/-- Whenever a push returns, it has routed its id, or done nothing because the id is empty. -/
theorem pushToMsgq_eq_some {s s' : Store F P} {gconnList : List Con} {tid : List Char} {len : ℤ}
    {data : Request} {callbackF : F} {callbackParam : P} {now : Timeval}
    (hpush : pushToMsgq s gconnList tid len data callbackF callbackParam now = some s') :
    (tid = [] ∧ s' = s) ∨ (tid ≠ [] ∧ ∃ routed linked,
      routeId s.gtsidq s.glastConRr gconnList tid callbackF callbackParam now = some routed ∧
      appendNode s.gmsgq.heap s.gmsgq.head ⟨data, tid, len, routed.2.2⟩ = some linked ∧
      s' = ⟨⟨linked.1, linked.2⟩, routed.1, routed.2.1⟩) := by
  unfold pushToMsgq at hpush
  split at hpush
  · next htid => exact Or.inl ⟨htid, (Option.some.inj hpush).symm⟩
  · next htid =>
    split at hpush
    · cases hpush
    · obtain ⟨routed, hrouted, hpush⟩ := Option.bind_eq_some_iff.mp hpush
      obtain ⟨linked, hlinked, hpush⟩ := Option.bind_eq_some_iff.mp hpush
      exact Or.inr ⟨htid, routed, linked, hrouted, hlinked, (Option.some.inj hpush).symm⟩

/-- Nothing is popped, and nothing changes, when no message is for the connection. -/
theorem popFromMsgq_none (q : MsgList) (con : ℤ) (nodes : List (ℕ × Msgque)) (hq : q.Consists nodes)
    (hnone : nodes.find? (fun x => x.2.conn = con) = none) : popFromMsgq q con = some (q, none) := by
  cases nodes with
  | nil =>
    have hhead : q.head = none := hq.segment
    simp [popFromMsgq, hhead]
  | cons x rest =>
    obtain ⟨hhead, next, hget, _⟩ := Represents.first hq
    have hx : x.2.conn ≠ con := by simpa using List.find?_eq_none.mp hnone x (by simp)
    have hfind := (Represents.chained hq).findFrom_eq fun m => m.conn = con
    rw [hnone, hhead] at hfind
    simp [popFromMsgq, hhead, hget, hx, hfind]

/-- Popping the first node of the queue. -/
theorem popFromMsgq_first (q : MsgList) (con : ℤ) (a : ℕ) (m : Msgque) (rest : List (ℕ × Msgque))
    (hq : q.Consists ((a, m) :: rest)) (hm : m.conn = con) :
    ∃ q', popFromMsgq q con = some (q', some a) ∧ q'.Consists rest ∧
      q'.heap.get a = some ⟨m, none, none⟩ := by
  obtain ⟨next, h1, h2, hget, hh1, hh2, hrep, hgone⟩ := Represents.unlink_first hq
  have hhead := (Represents.first hq).1
  refine ⟨⟨h2, next⟩, ?_, hrep, hgone⟩
  simp [popFromMsgq, hhead, hget, hm, hh1, hh2]

/-- The search of a pop that skips the first node. -/
theorem findFrom_skipped (q : MsgList) (con : ℤ) (front back : List (ℕ × Msgque)) (x : ℕ × Msgque)
    (hq : q.Consists (front ++ x :: back)) (hx : x.2.conn = con)
    (hfront : ∀ y ∈ front, y.2.conn ≠ con) :
    findFrom q.heap (fun m => m.conn = con) (q.heap.size + 1) q.head = some (some x.1) := by
  have hfind : (front ++ x :: back).find? (fun y => y.2.conn = con) = some x := by
    rw [List.find?_append, List.find?_eq_none.mpr (by simpa using hfront)]
    simp [hx]
  rw [(Represents.chained hq).findFrom_eq, hfind]
  rfl

/-- The first node of a queue is not for the connection, if none of those before another node is. -/
theorem MsgList.Consists.head_skipped {q : MsgList} {con : ℤ} {front back : List (ℕ × Msgque)}
    {p : ℕ × Msgque} (hq : q.Consists (front ++ [p] ++ back)) (hfront : ∀ z ∈ front ++ [p], z.2.conn ≠ con) :
    ∃ first m next, q.head = some first ∧ q.heap.get first = some ⟨m, none, next⟩ ∧ m.conn ≠ con := by
  cases front with
  | nil =>
    obtain ⟨hhead, next, hfirst, _⟩ := Represents.first hq
    exact ⟨_, _, next, hhead, hfirst, hfront p (by simp)⟩
  | cons z rest =>
    obtain ⟨hhead, next, hfirst, _⟩ := Represents.first hq
    exact ⟨_, _, next, hhead, hfirst, hfront z (by simp)⟩

/-- Popping a node between two others. -/
theorem popFromMsgq_inner (q : MsgList) (con : ℤ) (front back : List (ℕ × Msgque)) (p x y : ℕ × Msgque)
    (hq : q.Consists (front ++ [p] ++ x :: y :: back)) (hx : x.2.conn = con)
    (hfront : ∀ z ∈ front ++ [p], z.2.conn ≠ con) :
    ∃ q', popFromMsgq q con = some (q', some x.1) ∧ q'.Consists (front ++ [p] ++ y :: back) ∧
      q'.heap.get x.1 = some ⟨x.2, none, none⟩ := by
  obtain ⟨h1, h2, h3, hget, hh1, hh2, hh3, hrep, hgone⟩ := Represents.unlink_inner hq
  have hfind := findFrom_skipped q con (front ++ [p]) (y :: back) x hq hx hfront
  obtain ⟨first, m, next, hhead, hfirst, hne⟩ := hq.head_skipped hfront
  rw [hhead] at hfind
  refine ⟨⟨h3, q.head⟩, ?_, hrep, hgone⟩
  simp [popFromMsgq, hhead, hfirst, hne, hfind, hget, hh1, hh2, hh3]

/-- Popping the last of several nodes takes it out of no list: only its own pointers change. -/
theorem popFromMsgq_tail (q : MsgList) (con : ℤ) (front : List (ℕ × Msgque)) (p x : ℕ × Msgque)
    (hq : q.Consists (front ++ [p] ++ [x])) (hx : x.2.conn = con)
    (hfront : ∀ z ∈ front ++ [p], z.2.conn ≠ con) :
    ∃ q', popFromMsgq q con = some (q', some x.1) ∧ q'.head = q.head ∧
      q'.heap.get x.1 = some ⟨x.2, none, none⟩ ∧ ∀ b, b ≠ x.1 → q'.heap.get b = q.heap.get b := by
  have hfind := findFrom_skipped q con (front ++ [p]) [] x hq hx hfront
  obtain ⟨next, hget, hnext⟩ := Represents.neighbours hq
  rw [lastAddress_snoc] at hget
  obtain rfl : next = none := hnext
  obtain ⟨first, m, next, hhead, hfirst, hne⟩ := hq.head_skipped hfront
  obtain ⟨h1, hh1⟩ : ∃ h1, detach q.heap x.1 = some h1 := Heap.exists_modify _ hget
  rw [hhead] at hfind
  refine ⟨⟨h1, q.head⟩, ?_, rfl, ?_, ?_⟩
  · simp [popFromMsgq, hhead, hfirst, hne, hfind, hget, hh1]
  · rw [get_of_detach hh1, if_pos rfl, hget]
    rfl
  · intro b hb
    rw [get_of_detach hh1, if_neg hb]

end TcpClb
