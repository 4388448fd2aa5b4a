import TcpClb.IdLinks

/-!
# The `prev` pointers of the id table

`add_entry_idq` links a new node in both ways. `rem_id` frees a node without a look at the one behind it, which
goes on pointing back to the freed one. As long as only the last node of the chain is ever removed, the table is
doubly linked.
-/

namespace TcpClb

open TcpClb.Common

variable {F P : Type}

/-- The call removes no node that has another one behind it. -/
def IdLinks.RemovesLast (q : IdLinks F P) : IdCall F P → Prop
  | .addEntry _ _ _ _ _ => True
  | .updateEntry _ _ _ _ => True
  | .listExpired _ _ => True
  | .remId tid => ∀ a cell,
    findFrom q.heap (fun current => current.id = tid) (q.heap.size + 1) q.head = some (some a) →
      q.heap.get a = some cell → cell.next = none

/-- The table consists of exactly these nodes, linked both ways, and no other nodes are live. -/
structure IdLinks.Linked (q : IdLinks F P) (nodes : List (ℕ × Tsidque F P)) : Prop where
  consists : q.Consists nodes
  back : BackChain q.heap none (nodes.map Prod.fst)
  only : ∀ a p, prevAt q.heap a = some p → a ∈ nodes.map Prod.fst

/-- Then the table is doubly linked. -/
theorem IdLinks.Linked.represents {q : IdLinks F P} {nodes : List (ℕ × Tsidque F P)} (hq : q.Linked nodes) :
    Represents q.heap q.head nodes :=
  (represents_iff q.heap q.head nodes).mpr ⟨hq.consists, hq.back⟩

/-- Nodes that stay where they are and keep their `prev` pointers stay linked. -/
theorem IdLinks.Linked.of_same {q q' : IdLinks F P} {nodes nodes' : List (ℕ × Tsidque F P)} (hq : q.Linked nodes)
    (hq' : q'.Consists nodes') (haddr : nodes'.map Prod.fst = nodes.map Prod.fst)
    (hprev : ∀ b, prevAt q'.heap b = prevAt q.heap b) : q'.Linked nodes' := by
  refine ⟨hq', ?_, fun a p ha => ?_⟩
  · rw [haddr]
    exact hq.back.congr fun a _ => hprev a
  · rw [hprev] at ha
    exact haddr ▸ hq.only a p ha

/-- A new node at the end that points back to the last one is linked. -/
theorem IdLinks.Linked.of_added {q q' : IdLinks F P} {nodes : List (ℕ × Tsidque F P)} {e : Tsidque F P}
    (hq : q.Linked nodes) (hq' : q'.Consists (nodes ++ [(q.heap.size, e)]))
    (hprev : ∀ b, prevAt q'.heap b = if b = q.heap.size then some (lastAddress none nodes) else prevAt q.heap b) :
    q'.Linked (nodes ++ [(q.heap.size, e)]) := by
  refine ⟨hq', hq.back.snoc (Chained.size_notMem hq.consists) e hprev, fun a p ha => ?_⟩
  rw [List.map_append, List.mem_append]
  rw [hprev] at ha
  by_cases hsize : a = q.heap.size
  · exact Or.inr (List.mem_singleton.mpr hsize)
  · rw [if_neg hsize] at ha
    exact Or.inl (hq.only a p ha)

/-- Without its last node, which is freed, the table stays linked. -/
theorem IdLinks.Linked.of_removed {q q' : IdLinks F P} {front : List (ℕ × Tsidque F P)} {x : ℕ × Tsidque F P}
    (hq : q.Linked (front ++ [x])) (hq' : q'.Consists front)
    (hprev : ∀ b, prevAt q'.heap b = if some b = some x.1 then none else prevAt q.heap b) : q'.Linked front := by
  have hx := Chained.disjoint hq.consists
  refine ⟨hq', ((backChain_append q.heap none front [x]).mp hq.back).1.congr fun a ha => ?_, fun a p ha => ?_⟩
  · rw [hprev, if_neg]
    exact fun heq => hx a ha (List.mem_singleton.mpr (Option.some.inj heq))
  · rw [hprev] at ha
    obtain ⟨hax, ha⟩ := Option.ite_none_left_eq_some.mp ha
    have hmem := hq.only a p ha
    rw [List.map_append, List.mem_append] at hmem
    rcases hmem with hfront | hlast
    · exact hfront
    · exact absurd (congrArg some (List.mem_singleton.mp hlast)) hax

/-- A node of the table is followed by the node its `next` pointer leads to, and by none if it is `NULL`. -/
theorem IdLinks.Linked.next_eq {q : IdLinks F P} {front back : List (ℕ × Tsidque F P)} {x : ℕ × Tsidque F P}
    (hq : q.Linked (front ++ x :: back)) {cell : Cell (Tsidque F P)} (hget : q.heap.get x.1 = some cell) :
    cell.next = back.head?.map Prod.fst := by
  obtain ⟨next, hcell, hback⟩ := hq.represents.neighbours
  obtain rfl := Option.some.inj (hcell.symm.trans hget)
  cases back with
  | nil => exact hback
  | cons y rest => exact hback.1

/-- A removal of the last node, or of none, keeps the table linked. -/
theorem IdLinks.Linked.remId {q q' : IdLinks F P} {nodes : List (ℕ × Tsidque F P)} {tid : List Char}
    (hq : q.Linked nodes) (hlast : q.RemovesLast (.remId tid)) (hrem : q.remId tid = some q') :
    ∃ nodes', q'.Linked nodes' := by
  obtain ⟨q', hrem', hq', _, hprev⟩ := hq.consists.remId tid
  cases hrem'.symm.trans hrem
  cases hx : nodes.find? (fun x => x.2.id = tid) with
  | none =>
    rw [List.eraseP_of_forall_not (List.find?_eq_none.mp hx)] at hq'
    exact ⟨nodes, hq.of_same hq' rfl fun b => by rw [hprev, hx]; exact if_neg (by simp)⟩
  | some x =>
    obtain ⟨hid, front, back, rfl, hfront⟩ := List.find?_eq_some_iff_append.mp hx
    obtain ⟨_, _, hget⟩ := hq.consists.chain.get_of_mem x (by simp)
    have hnext := hlast x.1 _ (by rw [Chained.findFrom_eq hq.consists, hx]; rfl) hget
    rw [hq.next_eq hget] at hnext
    obtain rfl : back = [] := by simpa using hnext
    rw [List.eraseP_append_right _ (by simpa using hfront), List.eraseP_cons, hid, cond_true,
      List.append_nil] at hq'
    rw [hx] at hprev
    exact ⟨front, hq.of_removed hq' hprev⟩

/-- A call keeps the table linked if it removes no node that has another one behind it. -/
theorem IdLinks.Linked.call {q q' : IdLinks F P} {nodes : List (ℕ × Tsidque F P)} {a : IdCall F P}
    (hq : q.Linked nodes) (hlast : q.RemovesLast a) (hcall : q.call a = some q') :
    ∃ nodes', q'.Linked nodes' := by
  cases a with
  | addEntry gconnList tid callbackF callbackParam now =>
    obtain ⟨added, hadd, rfl⟩ := Option.map_eq_some_iff.mp hcall
    by_cases htid : tid = []
    · rw [IdLinks.addEntryIdq, if_pos htid] at hadd
      cases hadd
      exact ⟨nodes, hq⟩
    · obtain ⟨assigned, hsearch, _⟩ := Option.bind_eq_some_iff.mp ((if_neg htid).symm.trans hadd)
      obtain ⟨q', hadd', hq', _, hprev⟩ := hq.consists.addEntryIdq callbackF callbackParam now htid hsearch
      cases hadd.symm.trans hadd'
      exact ⟨_, hq.of_added hq' hprev⟩
  | updateEntry id callbackF callbackParam now =>
    obtain ⟨q', nodes', hupdate, hq', _, haddr, _, hprev⟩ :=
      hq.consists.updateEntryIdq id callbackF callbackParam now
    rw [IdLinks.call, hupdate] at hcall
    cases hcall
    exact ⟨nodes', hq.of_same hq' haddr hprev⟩
  | listExpired now printable =>
    rcases hq.consists.listExpiredIdq printable now with ⟨hmark, _⟩ | ⟨q', nodes', hmark, hq', _, haddr, _, hprev⟩
    · cases hmark.symm.trans hcall
    · cases hmark.symm.trans hcall
      exact ⟨nodes', hq.of_same hq' haddr hprev⟩
  | remId tid =>
    exact hq.remId hlast hcall

/-- A linked table is what the property of its `prev` pointers asks for. -/
theorem IdLinks.Linked.backLinked {q : IdLinks F P} {nodes : List (ℕ × Tsidque F P)} (hq : q.Linked nodes) :
    BackLinked q.heap q.head :=
  hq.represents.backLinked hq.only

/-- Removing a node that has another one behind it leaves that one pointing back to a freed node. -/
theorem IdLinks.Linked.removesLast {q q' : IdLinks F P} {nodes : List (ℕ × Tsidque F P)} {a : IdCall F P}
    (hq : q.Linked nodes) (hcall : q.call a = some q') (hback : BackLinked q'.heap q'.head) :
    q.RemovesLast a := by
  cases a with
  | addEntry | updateEntry | listExpired => trivial
  | remId tid =>
    intro a cell hfound hget
    obtain ⟨q', hrem, _, _, hprev⟩ := hq.consists.remId tid
    cases hrem.symm.trans hcall
    rw [Chained.findFrom_eq hq.consists, Option.some.injEq] at hfound
    rw [hfound] at hprev
    obtain ⟨x, hx, rfl⟩ := Option.map_eq_some_iff.mp hfound
    obtain ⟨_, front, back, rfl, _⟩ := List.find?_eq_some_iff_append.mp hx
    cases hnext : cell.next with
    | none => rfl
    | some b =>
      -- the node behind still points back to the one that is gone
      have hb : prevAt q.heap b = some (some x.1) := hq.backLinked.back x.1 b cell
        ((hq.represents.reach_iff x.1).mpr (by simp)) hget hnext
      have hbx : some b ≠ some x.1 := by
        intro heq
        rw [hq.next_eq hget, heq] at hnext
        obtain ⟨y, hy, hyx⟩ := Option.map_eq_some_iff.mp hnext
        have hnodup := hq.consists.nodup
        rw [List.map_append, List.nodup_append, List.map_cons, List.nodup_cons] at hnodup
        exact hnodup.2.1.1 (List.mem_map.mpr ⟨y, List.mem_of_mem_head? hy, hyx⟩)
      have hlive := hback.live b x.1 (by rw [hprev, if_neg hbx, hb])
      have hgone : prevAt q'.heap x.1 = none := by rw [hprev, if_pos rfl]
      rw [prevAt, Option.map_eq_none_iff] at hgone
      rw [hgone] at hlive
      cases hlive

/-- In every run of calls on the empty table, the `prev` pointers are right throughout if and only if no call
removes a node that has another one behind it. -/
theorem backLinked_throughout_iff (calls : List (IdCall F P)) :
    Throughout IdLinks.call (fun q => BackLinked q.heap q.head) .empty calls ↔
      EachStep IdLinks.call IdLinks.RemovesLast .empty calls := by
  have hempty : (IdLinks.empty : IdLinks F P).Linked [] :=
    ⟨⟨rfl, List.nodup_nil⟩, trivial, fun a p ha => by cases ha⟩
  refine throughout_iff_eachStep IdLinks.call IdLinks.RemovesLast (fun q => ∃ nodes, q.Linked nodes)
    (fun q => BackLinked q.heap q.head) ?_ ?_ .empty calls ⟨[], hempty⟩ hempty.backLinked
  · rintro q a q' ⟨nodes, hq⟩ _ hlast hcall
    exact hq.call hlast hcall
  · rintro q a q' ⟨nodes, hq⟩ _ hcall
    refine ⟨hq.removesLast hcall, fun hlast => ?_⟩
    obtain ⟨nodes', hq'⟩ := hq.call hlast hcall
    exact hq'.backLinked

/-- Two ids are added and the first is removed. -/
def firstRemoved : List (IdCall Unit Unit) :=
  [.addEntry [⟨3, 1, 0⟩] ['a'] () () ⟨0, 0⟩, .addEntry [⟨3, 1, 0⟩] ['b'] () () ⟨1, 0⟩, .remId ['a']]

/-- The new head then points back to the node that has been freed. -/
theorem firstRemoved_not_backLinked :
    ¬ ∀ calls : List (IdCall Unit Unit),
      Throughout IdLinks.call (fun q => BackLinked q.heap q.head) .empty calls := by
  intro hall
  have hrun : runActions IdLinks.call .empty firstRemoved =
      some ⟨⟨[none, some ⟨⟨['b'], 0, false, ⟨1, 0⟩, ⟨31, 0⟩, (), ()⟩, some 0, none⟩]⟩, some 1, 0⟩ := by
    decide +kernel
  have hback := throughout_final IdLinks.call _ .empty _ firstRemoved (hall firstRemoved) hrun
  exact absurd (hback.live 1 0 rfl) (by decide)

end TcpClb
