import TcpClb.Common.ChainSurgery
import TcpClb.IdCalls

/-!
# The id table in memory

The functions of `task.c` that change `gtsidq`, on the doubly linked list of nodes that the source works on. All
their loops follow `next` only. A result is undefined when the code dereferences `NULL` or a freed node, prints
a parameter that is no string, or never returns from the search for a connection. In every run of calls the
entries along the chain are those of the table that is a list of entries, whatever has become of the `prev` pointers.

The node that `add_entry_idq` allocates before it returns early for an empty id is leaked. Nothing ever points to
it, so the model leaves it out.
-/

namespace TcpClb

open TcpClb.Common

variable {F P : Type}

/-- The heap of table nodes, the pointer `gtsidq` to the first of them, and the cursor of the round-robin
search. -/
structure IdLinks (F P : Type) where
  heap : Links (Tsidque F P)
  head : Option ℕ
  glastConRr : ℕ
  deriving DecidableEq

/-- No node has been allocated. -/
def IdLinks.empty : IdLinks F P := ⟨.empty, none, 0⟩

/-- Make a node for a new id and link it in behind the last one; returns the connection or -1. -/
def IdLinks.addEntryIdq (q : IdLinks F P) (gconnList : List Con) (tid : List Char) (callbackF : F)
    (callbackParam : P) (now : Timeval) : Option (IdLinks F P × ℤ) :=
  if tid = [] then some (q, -1) else
    (reassignConn gconnList (getPeers gconnList) q.glastConRr).bind fun assigned =>
      (appendNode q.heap q.head
        { id := tid, conn := assigned.1, isExpired := false, aTime := now,
          eTime := now.addExpiry, callbackF := callbackF, callbackParam := callbackParam }).map fun linked =>
        (⟨linked.1, linked.2, assigned.2⟩, assigned.1)

/-- Renew the first node of the id; returns its connection, -1 if there is none, 0 for an empty table. -/
def IdLinks.updateEntryIdq (q : IdLinks F P) (id : List Char) (callbackF : F) (callbackParam : P)
    (now : Timeval) : Option (IdLinks F P × ℤ) :=
  match q.head with
  | none => some (q, 0)
  | some _ =>
    (findFrom q.heap (fun temp => temp.id = id) (q.heap.size + 1) q.head).bind fun found =>
    match found with
    | none => some (q, -1)
    | some a =>
      (q.heap.get a).bind fun temp =>
      (q.heap.modify a fun temp => { temp with val := temp.val.renew callbackF callbackParam now }).map fun heap =>
        ({ q with heap := heap }, temp.val.conn)

/-- The loop of `list_expired_idq`, which reads the clock again for each node, and prints the parameter of a node
that has expired before it marks it. -/
def markFrom (printable : P → Bool) :
    ℕ → Links (Tsidque F P) → (ℕ → Timeval) → Option ℕ → Option (Links (Tsidque F P))
  | 0, _, _, _ => none
  | _ + 1, heap, _, none => some heap
  | fuel + 1, heap, now, some a =>
    (heap.get a).bind fun current =>
    if current.val.eTime.before (now 0) ∧ printable current.val.callbackParam = false then none
    else
      (heap.modify a fun current => { current with val := current.val.markExpired (now 0) }).bind fun heap =>
      markFrom printable fuel heap (fun i => now (i + 1)) current.next

/-- Mark every node that has expired. -/
def IdLinks.listExpiredIdq (q : IdLinks F P) (printable : P → Bool) (now : ℕ → Timeval) : Option (IdLinks F P) :=
  (markFrom printable (q.heap.size + 1) q.heap now q.head).map fun heap => { q with heap := heap }

/-- The loop of `rem_id`: bypass and free the first node of the id behind the node at `a`. -/
def remNext (heap : Links (Tsidque F P)) (tid : List Char) : ℕ → ℕ → Option (Links (Tsidque F P))
  | 0, _ => none
  | fuel + 1, a => (heap.get a).bind fun current =>
    match current.next with
    | none => some heap
    | some b => (heap.get b).bind fun temp =>
      if temp.val.id = tid then
        -- `prev` of the node behind `temp` is not touched
        (heap.modify a fun current => { current with next := temp.next }).bind fun heap => heap.free b
      else remNext heap tid fuel b

/-- Remove the first node of an id. -/
def IdLinks.remId (q : IdLinks F P) (tid : List Char) : Option (IdLinks F P) :=
  match q.head with
  | none => some q
  | some a => (q.heap.get a).bind fun current =>
    if current.val.id = tid then
      (q.heap.free a).map fun heap => { q with heap := heap, head := current.next }
    else (remNext q.heap tid (q.heap.size + 1) a).map fun heap => { q with heap := heap }

/-- Perform a call; impossible if it does not return. -/
def IdLinks.call (q : IdLinks F P) : IdCall F P → Option (IdLinks F P)
  | .addEntry gconnList tid callbackF callbackParam now =>
    (q.addEntryIdq gconnList tid callbackF callbackParam now).map Prod.fst
  | .updateEntry id callbackF callbackParam now => (q.updateEntryIdq id callbackF callbackParam now).map Prod.fst
  | .listExpired now printable => q.listExpiredIdq printable now
  | .remId tid => q.remId tid

/-- The table consists of exactly these nodes, linked by `next`. -/
def IdLinks.Consists (q : IdLinks F P) (nodes : List (ℕ × Tsidque F P)) : Prop := Chained q.heap q.head nodes

/-- Removal erases the first entry of the id. -/
theorem remId_eq_eraseP (head : List (Tsidque F P)) (tid : List Char) :
    remId head tid = head.eraseP fun current => current.id = tid := by
  induction head with
  | nil => rfl
  | cons current next ih =>
    rw [remId, List.eraseP_cons]
    by_cases hid : current.id = tid
    · rw [if_pos hid, decide_eq_true hid, cond_true]
    · rw [if_neg hid, decide_eq_false hid, cond_false, ih]

/-- A new id gets a node at the end of the chain, which points back to the one before. -/
theorem IdLinks.Consists.addEntryIdq {q : IdLinks F P} {nodes : List (ℕ × Tsidque F P)} (hq : q.Consists nodes)
    {gconnList : List Con} {tid : List Char} (callbackF : F) (callbackParam : P) (now : Timeval) (htid : tid ≠ [])
    {assigned : ℕ × ℕ} (hsearch : reassignConn gconnList (getPeers gconnList) q.glastConRr = some assigned) :
    ∃ q' : IdLinks F P, q.addEntryIdq gconnList tid callbackF callbackParam now = some (q', (assigned.1 : ℤ)) ∧
      q'.Consists (nodes ++ [(q.heap.size, ⟨tid, assigned.1, false, now, now.addExpiry, callbackF, callbackParam⟩)]) ∧
      q'.glastConRr = assigned.2 ∧
      ∀ b, prevAt q'.heap b = if b = q.heap.size then some (lastAddress none nodes) else prevAt q.heap b := by
  obtain ⟨heap, head, happend, hlist, hprev⟩ := appendNode_chained hq
    (⟨tid, assigned.1, false, now, now.addExpiry, callbackF, callbackParam⟩ : Tsidque F P)
  refine ⟨⟨heap, head, assigned.2⟩, ?_, hlist, rfl, hprev⟩
  rw [IdLinks.addEntryIdq, if_neg htid, hsearch, Option.bind_some, happend, Option.map_some]

/-- An update renews the entry of the first node of the id and keeps all nodes. -/
theorem IdLinks.Consists.updateEntryIdq {q : IdLinks F P} {nodes : List (ℕ × Tsidque F P)} (hq : q.Consists nodes)
    (id : List Char) (callbackF : F) (callbackParam : P) (now : Timeval) :
    ∃ q' nodes', q.updateEntryIdq id callbackF callbackParam now =
        some (q', (TcpClb.updateEntryIdq (nodes.map Prod.snd) id callbackF callbackParam now).2) ∧
      q'.Consists nodes' ∧ q'.glastConRr = q.glastConRr ∧ nodes'.map Prod.fst = nodes.map Prod.fst ∧
      nodes'.map Prod.snd = (TcpClb.updateEntryIdq (nodes.map Prod.snd) id callbackF callbackParam now).1 ∧
      ∀ b, prevAt q'.heap b = prevAt q.heap b := by
  have hfind := Chained.findFrom_eq hq fun temp => temp.id = id
  cases nodes with
  | nil =>
    have hhead : q.head = none := hq.chain
    exact ⟨q, [], by rw [IdLinks.updateEntryIdq, hhead]; rfl, hq, rfl, rfl, rfl, fun _ => rfl⟩
  | cons first rest =>
    have hhead : q.head = some first.1 := hq.chain.1
    rw [TcpClb.updateEntryIdq, if_neg (by simp)]
    cases hx : (first :: rest).find? (fun x => x.2.id = id) with
    | none =>
      have habsent : ∀ e ∈ (first :: rest).map Prod.snd, e.id ≠ id :=
        List.forall_mem_map.mpr fun y hy => by simpa using List.find?_eq_none.mp hx y hy
      rw [updateFrom_absent callbackF callbackParam now habsent]
      refine ⟨q, first :: rest, ?_, hq, rfl, rfl, rfl, fun _ => rfl⟩
      rw [IdLinks.updateEntryIdq, hfind, hx, hhead]
      rfl
    | some x =>
      obtain ⟨hid, front, back, hnodes, hfront⟩ := List.find?_eq_some_iff_append.mp hx
      have hskipped : ∀ e ∈ front.map Prod.snd, e.id ≠ id :=
        List.forall_mem_map.mpr fun y hy => by simpa using hfront y hy
      have hlist := updateFrom_skipped callbackF callbackParam now hskipped (x.2 :: back.map Prod.snd)
      rw [updateFrom, if_pos (of_decide_eq_true hid)] at hlist
      rw [hnodes] at hq ⊢
      rw [List.map_append, List.map_append, List.map_cons, List.map_cons, hlist]
      obtain ⟨_, _, hget⟩ := hq.chain.get_of_mem x (by simp)
      obtain ⟨heap, hheap, hq', hprev⟩ := Chained.set_val hq fun e => e.renew callbackF callbackParam now
      refine ⟨{ q with heap := heap }, front ++ (x.1, x.2.renew callbackF callbackParam now) :: back, ?_,
        hq', rfl, by simp, by simp, hprev⟩
      rw [IdLinks.updateEntryIdq, hfind, hx, hhead, Option.map_some, Option.bind_some]
      simp only [hget, hheap, Option.bind_some, Option.map_some]

/-- The sweep goes through the chain and marks the entry of every node, unless a parameter cannot be printed. -/
theorem markFrom_nextChain (printable : P → Bool) {heap : Links (Tsidque F P)} {p : Option ℕ}
    {nodes : List (ℕ × Tsidque F P)} (hchain : NextChain heap p nodes none) (hnodup : (nodes.map Prod.fst).Nodup)
    (now : ℕ → Timeval) (fuel : ℕ) (hfuel : nodes.length < fuel) :
    markFrom printable fuel heap now p = none ∧ listExpiredIdq printable (nodes.map Prod.snd) now = none ∨
    ∃ heap' nodes', markFrom printable fuel heap now p = some heap' ∧ NextChain heap' p nodes' none ∧
      nodes'.map Prod.fst = nodes.map Prod.fst ∧
      listExpiredIdq printable (nodes.map Prod.snd) now = some (nodes'.map Prod.snd) ∧
      (∀ b, b ∉ nodes.map Prod.fst → heap'.get b = heap.get b) ∧ ∀ b, prevAt heap' b = prevAt heap b := by
  induction nodes generalizing heap p now fuel with
  | nil =>
    obtain ⟨fuel, rfl⟩ := Nat.exists_eq_add_one_of_ne_zero (Nat.ne_zero_of_lt hfuel)
    obtain rfl : p = none := hchain
    exact Or.inr ⟨heap, [], rfl, rfl, rfl, rfl, fun _ _ => rfl, fun _ => rfl⟩
  | cons x rest ih =>
    obtain ⟨fuel, rfl⟩ := Nat.exists_eq_add_one_of_ne_zero (Nat.ne_zero_of_lt hfuel)
    obtain ⟨rfl, prev, next, hget, hrest⟩ := hchain
    obtain ⟨hx, hnodup⟩ := List.nodup_cons.mp hnodup
    rw [markFrom, List.map_cons, listExpiredIdq, hget, Option.bind_some]
    dsimp only
    by_cases hprints : x.2.eTime.before (now 0) = true ∧ printable x.2.callbackParam = false
    · rw [if_pos hprints, if_pos hprints]
      exact Or.inl ⟨rfl, rfl⟩
    rw [if_neg hprints, if_neg hprints]
    obtain ⟨marked, hmarked⟩ := Heap.exists_modify
      (fun current => { current with val := current.val.markExpired (now 0) }) hget
    have hget1 : marked.get x.1 = some ⟨x.2.markExpired (now 0), prev, next⟩ := by
      rw [Heap.get_of_modify hmarked, if_pos rfl, hget]
      rfl
    rw [hmarked, Option.bind_some]
    rcases ih (hrest.modify hx hmarked) hnodup (fun i => now (i + 1)) fuel (by simpa using hfuel) with
      ⟨hmark, hsweep⟩ | ⟨heap', nodes', hmark, hchain', haddr, hvals, hframe, hprev⟩
    · exact Or.inl ⟨hmark, by rw [hsweep]; rfl⟩
    refine Or.inr ⟨heap', (x.1, x.2.markExpired (now 0)) :: nodes', hmark, ⟨rfl, prev, next, ?_, hchain'⟩,
      congrArg (x.1 :: ·) haddr, by rw [hvals]; rfl, fun b hb => ?_, fun b => ?_⟩
    · rw [hframe x.1 hx, hget1]
    · rw [hframe b (List.not_mem_of_not_mem_cons hb), Heap.get_of_modify hmarked,
        if_neg (List.ne_of_not_mem_cons hb)]
    · rw [hprev, prevAt_of_modify hmarked fun _ => rfl]

/-- A sweep that returns marks the entries and keeps all nodes. -/
theorem IdLinks.Consists.listExpiredIdq {q : IdLinks F P} {nodes : List (ℕ × Tsidque F P)} (hq : q.Consists nodes)
    (printable : P → Bool) (now : ℕ → Timeval) :
    q.listExpiredIdq printable now = none ∧ TcpClb.listExpiredIdq printable (nodes.map Prod.snd) now = none ∨
    ∃ q' nodes', q.listExpiredIdq printable now = some q' ∧ q'.Consists nodes' ∧ q'.glastConRr = q.glastConRr ∧
      nodes'.map Prod.fst = nodes.map Prod.fst ∧
      TcpClb.listExpiredIdq printable (nodes.map Prod.snd) now = some (nodes'.map Prod.snd) ∧
      ∀ b, prevAt q'.heap b = prevAt q.heap b := by
  have hlen := Chained.length_le_size hq
  rw [IdLinks.listExpiredIdq]
  rcases markFrom_nextChain printable hq.chain hq.nodup now (q.heap.size + 1) (by omega) with
    ⟨hmark, hsweep⟩ | ⟨heap, nodes', hmark, hchain, haddr, hvals, _, hprev⟩
  · exact Or.inl ⟨by rw [hmark]; rfl, hsweep⟩
  · refine Or.inr ⟨{ q with heap := heap }, nodes', ?_, ⟨hchain, haddr ▸ hq.nodup⟩, rfl, haddr, hvals, hprev⟩
    rw [hmark, Option.map_some]

/-- The loop of the removal takes the first node of the id out of the chain and frees it. -/
theorem remNext_nextChain {heap : Links (Tsidque F P)} {a : ℕ} {v : Tsidque F P}
    {rest : List (ℕ × Tsidque F P)} (hchain : NextChain heap (some a) ((a, v) :: rest) none)
    (hnodup : (((a, v) :: rest).map Prod.fst).Nodup) (tid : List Char) (fuel : ℕ) (hfuel : rest.length < fuel) :
    ∃ heap', remNext heap tid fuel a = some heap' ∧
      NextChain heap' (some a) ((a, v) :: rest.eraseP fun x => x.2.id = tid) none ∧
      (∀ b, b ∉ ((a, v) :: rest).map Prod.fst → heap'.get b = heap.get b) ∧
      ∀ b, prevAt heap' b =
        if some b = (rest.find? fun x => x.2.id = tid).map Prod.fst then none else prevAt heap b := by
  induction rest generalizing a v fuel with
  | nil =>
    obtain ⟨fuel, rfl⟩ := Nat.exists_eq_add_one_of_ne_zero (Nat.ne_zero_of_lt hfuel)
    obtain ⟨_, prev, next, hget, hnext⟩ := id hchain
    obtain rfl : next = none := hnext
    exact ⟨heap, by rw [remNext, hget]; rfl, hchain, fun _ _ => rfl, fun b => (if_neg (by simp)).symm⟩
  | cons x rest ih =>
    obtain ⟨fuel, rfl⟩ := Nat.exists_eq_add_one_of_ne_zero (Nat.ne_zero_of_lt hfuel)
    by_cases hid : x.2.id = tid
    · obtain ⟨current, temp, h1, h2, ha, hnext, hx, hval, hh1, hh2, hchain', hframe, hprev⟩ :=
        hchain.free_next hnodup
      refine ⟨h2, ?_, ?_, fun b hb => ?_, fun b => ?_⟩
      · rw [remNext, ha, Option.bind_some, hnext]
        simp only [hx, hval, if_pos hid, hh1, Option.bind_some, hh2]
      · rwa [List.eraseP_cons, decide_eq_true hid, cond_true]
      · exact hframe b (List.ne_of_not_mem_cons hb)
          (List.ne_of_not_mem_cons (List.not_mem_of_not_mem_cons hb))
      · rw [hprev, List.find?_cons, decide_eq_true hid]
        simp only [Option.map_some, Option.some.injEq]
    · obtain ⟨_, prev, next, ha, hrest⟩ := id hchain
      obtain rfl : next = some x.1 := hrest.1
      obtain ⟨_, _, _, hx, _⟩ := id hrest
      obtain ⟨hanot, hnodup⟩ := List.nodup_cons.mp hnodup
      obtain ⟨heap', hrem, hchain', hframe, hprev⟩ := ih hrest hnodup fuel (by simpa using hfuel)
      refine ⟨heap', ?_, ?_, fun b hb => ?_, fun b => ?_⟩
      · rw [remNext, ha, Option.bind_some]
        simp only [hx, Option.bind_some, if_neg hid, hrem]
      · rw [List.eraseP_cons, decide_eq_false hid, cond_false]
        exact ⟨rfl, prev, some x.1, by rw [hframe a hanot, ha], hchain'⟩
      · exact hframe b (List.not_mem_of_not_mem_cons hb)
      · rw [hprev, List.find?_cons, decide_eq_false hid]

/-- A removal takes the first node of the id out of the chain and frees it. All nodes that stay keep their `prev`
pointers. -/
theorem IdLinks.Consists.remId {q : IdLinks F P} {nodes : List (ℕ × Tsidque F P)} (hq : q.Consists nodes)
    (tid : List Char) :
    ∃ q', q.remId tid = some q' ∧ q'.Consists (nodes.eraseP fun x => x.2.id = tid) ∧
      q'.glastConRr = q.glastConRr ∧
      ∀ b, prevAt q'.heap b =
        if some b = (nodes.find? fun x => x.2.id = tid).map Prod.fst then none else prevAt q.heap b := by
  have hlen := Chained.length_le_size hq
  cases nodes with
  | nil =>
    have hhead : q.head = none := hq.chain
    exact ⟨q, by rw [IdLinks.remId, hhead], hq, rfl, fun b => (if_neg (by simp)).symm⟩
  | cons x rest =>
    obtain ⟨current, heap, hhead, hget, hval, hfree, hlist, hprev⟩ := Chained.free_first hq
    rw [List.eraseP_cons, List.find?_cons]
    by_cases hid : x.2.id = tid
    · rw [decide_eq_true hid, cond_true]
      refine ⟨⟨heap, current.next, q.glastConRr⟩, ?_, hlist, rfl, fun b => ?_⟩
      · simp only [IdLinks.remId, hhead, hget, hval, Option.bind_some, if_pos hid, hfree, Option.map_some]
      · rw [hprev]
        simp only [Option.map_some, Option.some.injEq]
    · rw [decide_eq_false hid, cond_false]
      rw [List.length_cons] at hlen
      obtain ⟨heap', hrem, hchain, _, hprev'⟩ := remNext_nextChain (hhead ▸ hq.chain) hq.nodup tid
        (q.heap.size + 1) (by omega)
      refine ⟨{ q with heap := heap' }, ?_, ⟨hhead ▸ hchain, ?_⟩, rfl, hprev'⟩
      · simp only [IdLinks.remId, hhead, hget, hval, Option.bind_some, if_neg hid, hrem, Option.map_some]
      · exact ((List.eraseP_sublist.cons_cons x).map Prod.fst).nodup hq.nodup

/-- The entries along the chain are those of a table that is a list of entries. -/
def IdLinks.Holds (q : IdLinks F P) (s : IdTable F P) : Prop :=
  ∃ nodes, q.Consists nodes ∧ s = ⟨nodes.map Prod.snd, q.glastConRr⟩

/-- A call returns on the one if and only if it returns on the other, and does the same to the entries. -/
theorem IdLinks.call_rel (q : IdLinks F P) (s : IdTable F P) (a : IdCall F P) (hs : q.Holds s) :
    Option.Rel IdLinks.Holds (q.call a) (s.call a) := by
  obtain ⟨nodes, hq, rfl⟩ := hs
  cases a with
  | addEntry gconnList tid callbackF callbackParam now =>
    rw [IdLinks.call, IdTable.call, TcpClb.addEntryIdq]
    by_cases htid : tid = []
    · rw [IdLinks.addEntryIdq, if_pos htid, if_pos htid]
      exact .some ⟨nodes, hq, rfl⟩
    · rw [if_neg htid]
      cases hsearch : reassignConn gconnList (getPeers gconnList) q.glastConRr with
      | none =>
        rw [IdLinks.addEntryIdq, if_neg htid, hsearch]
        exact .none
      | some assigned =>
        obtain ⟨q', hadd, hq', hcursor, _⟩ := hq.addEntryIdq callbackF callbackParam now htid hsearch
        rw [hadd]
        exact .some ⟨_, hq', by simp [hcursor]⟩
  | updateEntry id callbackF callbackParam now =>
    obtain ⟨q', nodes', hupdate, hq', hcursor, _, hvals, _⟩ :=
      hq.updateEntryIdq id callbackF callbackParam now
    rw [IdLinks.call, hupdate]
    exact .some ⟨nodes', hq', by rw [hvals, hcursor]⟩
  | listExpired now printable =>
    rw [IdLinks.call, IdTable.call]
    rcases hq.listExpiredIdq printable now with ⟨hmark, hsweep⟩ | ⟨q', nodes', hmark, hq', hcursor, _, hvals, _⟩
    · rw [hmark, hsweep]
      exact .none
    · rw [hmark, hvals]
      exact .some ⟨nodes', hq', by rw [hcursor]⟩
  | remId tid =>
    obtain ⟨q', hrem, hq', hcursor, _⟩ := hq.remId tid
    rw [IdLinks.call, hrem]
    refine .some ⟨_, hq', ?_⟩
    rw [hcursor, remId_eq_eraseP, List.eraseP_map]
    rfl

/-- In every run of calls from an empty table the entries along the chain are those of the table. -/
theorem IdLinks.run_rel (calls : List (IdCall F P)) :
    Option.Rel IdLinks.Holds (runActions IdLinks.call .empty calls) (runActions IdTable.call .empty calls) :=
  runActions_rel IdLinks.call IdTable.call IdLinks.Holds (fun q s a hs => q.call_rel s a hs) calls
    ⟨[], ⟨rfl, List.nodup_nil⟩, rfl⟩

end TcpClb
