import TcpClb.Common.LinkedList

/-!
# Linking and unlinking cells of a chain

A loop that only ever follows `next` works on the chain of a list, whatever the `prev` pointers are. Each update
of a chain comes with the chain it leaves behind and with the `prev` pointer of every cell afterwards, so that
a list for which `prev` is kept as well, and one for which it is not, can be reasoned about with the same
lemmas.
-/

namespace TcpClb.Common

variable {α : Type*}

/-- A chain depends on its own cells only. -/
theorem NextChain.congr {h h' : Links α} {p q : Option ℕ} {nodes : List (ℕ × α)}
    (hchain : NextChain h p nodes q) (hsame : ∀ a ∈ nodes.map Prod.fst, h'.get a = h.get a) :
    NextChain h' p nodes q := by
  induction nodes generalizing p with
  | nil => exact hchain
  | cons x rest ih =>
    obtain ⟨hp, prev, next, hget, hrest⟩ := hchain
    refine ⟨hp, prev, next, ?_, ih hrest fun a ha => hsame a (by simp [ha])⟩
    rw [hsame x.1 (by simp), hget]

/-- Updating a cell outside a chain leaves the chain. -/
theorem NextChain.modify {h h' : Links α} {p q : Option ℕ} {nodes : List (ℕ × α)} {a : ℕ}
    {f : Cell α → Cell α} (hchain : NextChain h p nodes q) (ha : a ∉ nodes.map Prod.fst)
    (hm : h.modify a f = some h') : NextChain h' p nodes q := by
  apply hchain.congr
  intro b hb
  rw [Heap.get_of_modify hm, if_neg]
  exact fun heq => ha (heq ▸ hb)

/-- Freeing a cell outside a chain leaves the chain. -/
theorem NextChain.free {h h' : Links α} {p q : Option ℕ} {nodes : List (ℕ × α)} {a : ℕ}
    (hchain : NextChain h p nodes q) (ha : a ∉ nodes.map Prod.fst) (hf : h.free a = some h') :
    NextChain h' p nodes q := by
  apply hchain.congr
  intro b hb
  rw [Heap.get_of_free hf, if_neg]
  exact fun heq => ha (heq ▸ hb)

/-- A chain through two lists of cells is a chain through each. -/
theorem nextChain_append (h : Links α) (p q : Option ℕ) (xs ys : List (ℕ × α)) :
    NextChain h p (xs ++ ys) q ↔ ∃ m, NextChain h p xs m ∧ NextChain h m ys q := by
  induction xs generalizing p with
  | nil => simp [NextChain]
  | cons x rest ih =>
    obtain ⟨a, v⟩ := x
    simp only [List.cons_append, NextChain, ih]
    constructor
    · rintro ⟨hp, prev, next, hget, m, hxs, hys⟩
      exact ⟨m, ⟨hp, prev, next, hget, hxs⟩, hys⟩
    · rintro ⟨m, ⟨hp, prev, next, hget, hxs⟩, hys⟩
      exact ⟨hp, prev, next, hget, m, hxs, hys⟩

/-- Leading back through two lists of cells. -/
theorem backChain_append (h : Links α) (before : Option ℕ) (xs ys : List (ℕ × α)) :
    BackChain h before ((xs ++ ys).map Prod.fst) ↔
      BackChain h before (xs.map Prod.fst) ∧ BackChain h (lastAddress before xs) (ys.map Prod.fst) := by
  induction xs generalizing before with
  | nil => simp [BackChain, lastAddress]
  | cons x rest ih =>
    change _ ∧ BackChain h (some x.1) ((rest ++ ys).map Prod.fst) ↔ (_ ∧ _) ∧ BackChain h (lastAddress _ rest) _
    rw [ih, ← and_assoc]

/-- Leading back depends on the `prev` pointers of the cells only. -/
theorem BackChain.congr {h h' : Links α} {before : Option ℕ} {as : List ℕ} (hback : BackChain h before as)
    (hsame : ∀ a ∈ as, prevAt h' a = prevAt h a) : BackChain h' before as := by
  induction as generalizing before with
  | nil => trivial
  | cons a rest ih =>
    obtain ⟨hprev, hrest⟩ := hback
    exact ⟨by rw [hsame a List.mem_cons_self, hprev], ih hrest fun b hb => hsame b (List.mem_cons_of_mem a hb)⟩

/-- A new cell that points back to the last one leads back as the others do. -/
theorem BackChain.snoc {h h' : Links α} {before : Option ℕ} {nodes : List (ℕ × α)} {a : ℕ}
    (hback : BackChain h before (nodes.map Prod.fst)) (ha : a ∉ nodes.map Prod.fst) (v : α)
    (hprev : ∀ b, prevAt h' b = if b = a then some (lastAddress before nodes) else prevAt h b) :
    BackChain h' before ((nodes ++ [(a, v)]).map Prod.fst) := by
  refine (backChain_append h' before nodes _).mpr ⟨hback.congr fun b hb => ?_, ?_, trivial⟩
  · rw [hprev, if_neg]
    exact fun heq => ha (heq ▸ hb)
  · rw [hprev, if_pos rfl]

/-- An update that keeps `prev` keeps it everywhere. -/
theorem prevAt_of_modify {h h' : Links α} {a : ℕ} {f : Cell α → Cell α} (hm : h.modify a f = some h')
    (hf : ∀ cell, (f cell).prev = cell.prev) (b : ℕ) : prevAt h' b = prevAt h b := by
  rw [prevAt, prevAt, Heap.get_of_modify hm]
  by_cases hb : b = a
  · rw [if_pos hb, hb, Option.map_map]
    exact congrArg (fun g => (h.get a).map g) (funext hf)
  · rw [if_neg hb]

/-- A new cell has the `prev` pointer it is made with. -/
theorem prevAt_alloc (h : Links α) (x : Cell α) (b : ℕ) :
    prevAt (h.alloc x) b = if b = h.size then some x.prev else prevAt h b := by
  rw [prevAt, prevAt, Heap.get_alloc]
  split <;> rfl

/-- A freed cell has no `prev` pointer any more, the others keep theirs. -/
theorem prevAt_of_free {h h' : Links α} {a : ℕ} (hf : h.free a = some h') (b : ℕ) :
    prevAt h' b = if b = a then none else prevAt h b := by
  rw [prevAt, prevAt, Heap.get_of_free hf]
  split <;> rfl

/-- Redirecting the `next` pointer of the last cell changes where the chain leads. -/
theorem NextChain.set_last_next {h h' : Links α} {p q : Option ℕ} {a : ℕ} {v : α} {front : List (ℕ × α)}
    (hchain : NextChain h p (front ++ [(a, v)]) q) (q' : Option ℕ) (ha : a ∉ front.map Prod.fst)
    (hm : h.modify a (fun cell => { cell with next := q' }) = some h') :
    NextChain h' p (front ++ [(a, v)]) q' := by
  obtain ⟨m, hfront, hm', prev, next, hget, _⟩ := (nextChain_append h p q front [(a, v)]).mp hchain
  refine (nextChain_append h' p q' front [(a, v)]).mpr ⟨m, hfront.modify ha hm, hm', prev, q', ?_, rfl⟩
  rw [Heap.get_of_modify hm, if_pos rfl, hget]
  rfl

/-- A fresh cell is none of the cells of a chain. -/
theorem Chained.size_notMem {h : Links α} {head : Option ℕ} {nodes : List (ℕ × α)}
    (hlist : Chained h head nodes) : h.size ∉ nodes.map Prod.fst := by
  intro hmem
  obtain ⟨x, hx, hsize⟩ := List.mem_map.mp hmem
  obtain ⟨_, _, hget⟩ := hlist.chain.get_of_mem x hx
  have := Heap.lt_size_of_get hget
  omega

/-- Two parts of a chain have no address in common. -/
theorem Chained.disjoint {h : Links α} {head : Option ℕ} {front back : List (ℕ × α)}
    (hlist : Chained h head (front ++ back)) (a : ℕ) (hfront : a ∈ front.map Prod.fst) :
    a ∉ back.map Prod.fst := by
  have hnodup := hlist.nodup
  rw [List.map_append, List.nodup_append] at hnodup
  exact fun hback => hnodup.2.2 a hfront a hback rfl

/-- Changing the contents of a cell changes the list of contents there. -/
theorem Chained.set_val {h : Links α} {head : Option ℕ} {x : ℕ × α} {front back : List (ℕ × α)}
    (hlist : Chained h head (front ++ x :: back)) (f : α → α) :
    ∃ h', h.modify x.1 (fun cell => { cell with val := f cell.val }) = some h' ∧
      Chained h' head (front ++ (x.1, f x.2) :: back) ∧ ∀ b, prevAt h' b = prevAt h b := by
  obtain ⟨m, hfront, hm, prev, next, hget, hback⟩ := (nextChain_append h head none front _).mp hlist.chain
  have hxfront : x.1 ∉ front.map Prod.fst := fun hmem => hlist.disjoint x.1 hmem (by simp)
  have hnodup := hlist.nodup
  rw [List.map_append, List.nodup_append, List.map_cons, List.nodup_cons] at hnodup
  obtain ⟨h', hh'⟩ := Heap.exists_modify (fun cell => { cell with val := f cell.val }) hget
  refine ⟨h', hh', ⟨?_, by simpa using hlist.nodup⟩, prevAt_of_modify hh' fun _ => rfl⟩
  refine (nextChain_append h' head none front _).mpr
    ⟨m, hfront.modify hxfront hh', hm, prev, next, ?_, hback.modify hnodup.2.1.1 hh'⟩
  rw [Heap.get_of_modify hh', if_pos rfl, hget]
  rfl

/-- The walk over a chain ends at its last cell. -/
theorem Chained.lastFrom_eq {h : Links α} {first p : ℕ} {u : α} {front : List (ℕ × α)}
    (hlist : Chained h (some first) (front ++ [(p, u)])) : lastFrom h h.size first = some p := by
  have hlen := hlist.length_le_size
  have hlast := lastAddress_snoc none front (p, u)
  cases hnodes : front ++ [(p, u)] with
  | nil => exact absurd hnodes (List.append_ne_nil_of_right_ne_nil front (List.cons_ne_nil _ _))
  | cons x rest =>
    rw [hnodes] at hlist hlast hlen
    obtain rfl : first = x.1 := Option.some.inj hlist.chain.1
    rw [List.length_cons] at hlen
    rw [← hlast]
    exact lastFrom_nextChain hlist.chain none h.size (by omega)

/-- Linking a new cell behind the last one makes it the last one, which points back to the one before. -/
theorem Chained.link_last {h h1 h2 : Links α} {head : Option ℕ} {p a : ℕ} {u v : α} {front : List (ℕ × α)}
    (hlist : Chained h head (front ++ [(p, u)])) (hnew : h.get a = some ⟨v, none, none⟩)
    (hfresh : a ∉ (front ++ [(p, u)]).map Prod.fst)
    (hh1 : h.modify p (fun cell => { cell with next := some a }) = some h1)
    (hh2 : h1.modify a (fun cell => { cell with prev := some p }) = some h2) :
    Chained h2 head (front ++ [(p, u)] ++ [(a, v)]) ∧
      ∀ b, prevAt h2 b = if b = a then some (some p) else prevAt h b := by
  have hpa : a ≠ p := fun heq => hfresh (heq ▸ by simp)
  have hpfront : p ∉ front.map Prod.fst := fun hmem => hlist.disjoint p hmem (by simp)
  have hnew1 : h1.get a = some ⟨v, none, none⟩ := by rw [Heap.get_of_modify hh1, if_neg hpa, hnew]
  refine ⟨⟨?_, ?_⟩, fun b => ?_⟩
  · refine (nextChain_append h2 head none _ _).mpr ⟨some a, ?_, rfl, some p, none, ?_, rfl⟩
    · exact (hlist.chain.set_last_next (some a) hpfront hh1).modify hfresh hh2
    · rw [Heap.get_of_modify hh2, if_pos rfl, hnew1]
      rfl
  · rw [List.map_append, List.nodup_append]
    refine ⟨hlist.nodup, by simp, fun b hb c hc hbc => ?_⟩
    obtain rfl : c = a := by simpa using hc
    exact hfresh (hbc ▸ hb)
  · rw [prevAt, Heap.get_of_modify hh2]
    by_cases hb : b = a
    · rw [if_pos hb, if_pos hb, hnew1]
      rfl
    · rw [if_neg hb, if_neg hb]
      exact prevAt_of_modify hh1 (fun _ => rfl) b

/-- Appending to a chain is defined and adds the new cell at its end, which points back to the last one. -/
theorem appendNode_chained {h : Links α} {head : Option ℕ} {nodes : List (ℕ × α)}
    (hlist : Chained h head nodes) (v : α) :
    ∃ h' head', appendNode h head v = some (h', head') ∧ Chained h' head' (nodes ++ [(h.size, v)]) ∧
      ∀ b, prevAt h' b = if b = h.size then some (lastAddress none nodes) else prevAt h b := by
  have hfresh := hlist.size_notMem
  have halloc : Chained (h.alloc ⟨v, none, none⟩) head nodes := by
    refine ⟨hlist.chain.congr fun b hb => ?_, hlist.nodup⟩
    rw [Heap.get_alloc, if_neg]
    exact fun heq => hfresh (heq ▸ hb)
  have hnew : (h.alloc ⟨v, none, none⟩).get h.size = some ⟨v, none, none⟩ := by
    rw [Heap.get_alloc, if_pos rfl]
  rcases List.eq_nil_or_concat nodes with rfl | ⟨front, ⟨p, u⟩, rfl⟩
  · obtain rfl : head = none := hlist.chain
    exact ⟨_, _, rfl, ⟨⟨rfl, none, none, hnew, rfl⟩, by simp⟩, prevAt_alloc h _⟩
  · rw [List.concat_eq_append] at halloc hfresh ⊢
    obtain ⟨first, rfl⟩ : ∃ first, head = some first := by
      cases front with
      | nil => exact ⟨_, halloc.chain.1⟩
      | cons x rest => exact ⟨_, halloc.chain.1⟩
    obtain ⟨_, _, hp⟩ := halloc.chain.get_of_mem (p, u) (by simp)
    obtain ⟨h1, hh1⟩ := Heap.exists_modify (fun cell : Cell α => { cell with next := some h.size }) hp
    have hpnew : h.size ≠ p := fun heq => hfresh (heq ▸ by simp)
    have hnew1 : h1.get h.size = some ⟨v, none, none⟩ := by
      rw [Heap.get_of_modify hh1, if_neg hpnew, hnew]
    obtain ⟨h2, hh2⟩ := Heap.exists_modify (fun cell : Cell α => { cell with prev := some p }) hnew1
    obtain ⟨hlinked, hprev⟩ := halloc.link_last hnew hfresh hh1 hh2
    refine ⟨h2, some first, ?_, hlinked, fun b => ?_⟩
    · simp only [appendNode, halloc.lastFrom_eq, hh1, hh2, Option.bind_some, Option.map_some]
    · rw [hprev, prevAt_alloc, lastAddress_snoc]
      split <;> rfl

/-- The first cell of a chain is freed: the chain goes on behind it. -/
theorem Chained.free_first {h : Links α} {head : Option ℕ} {a : ℕ} {v : α} {rest : List (ℕ × α)}
    (hlist : Chained h head ((a, v) :: rest)) : ∃ cell h', head = some a ∧ h.get a = some cell ∧ cell.val = v ∧
      h.free a = some h' ∧ Chained h' cell.next rest ∧ ∀ b, prevAt h' b = if b = a then none else prevAt h b := by
  obtain ⟨hhead, prev, next, hget, hrest⟩ := hlist.chain
  obtain ⟨ha, hnodup⟩ := List.nodup_cons.mp hlist.nodup
  obtain ⟨h', hh'⟩ := Heap.exists_free hget
  exact ⟨_, h', hhead, hget, rfl, hh', ⟨hrest.free ha hh', hnodup⟩, prevAt_of_free hh'⟩

/-- The cell behind another one is bypassed and freed: its own successor keeps its `prev` pointer. -/
theorem NextChain.free_next {h : Links α} {p a : ℕ} {u v : α} {rest : List (ℕ × α)} {q : Option ℕ}
    (hchain : NextChain h (some p) ((p, u) :: (a, v) :: rest) q)
    (hnodup : (((p, u) :: (a, v) :: rest).map Prod.fst).Nodup) :
    ∃ cell removed h1 h2, h.get p = some cell ∧ cell.next = some a ∧ h.get a = some removed ∧ removed.val = v ∧
      h.modify p (fun cell => { cell with next := removed.next }) = some h1 ∧ h1.free a = some h2 ∧
      NextChain h2 (some p) ((p, u) :: rest) q ∧ (∀ b, b ≠ p → b ≠ a → h2.get b = h.get b) ∧
      ∀ b, prevAt h2 b = if b = a then none else prevAt h b := by
  obtain ⟨_, prev, _, hp, rfl, prev', next, ha, hrest⟩ := hchain
  obtain ⟨hpnot, hnodup⟩ := List.nodup_cons.mp hnodup
  obtain ⟨hanot, _⟩ := List.nodup_cons.mp hnodup
  have hpa : p ≠ a := fun heq => hpnot (heq ▸ List.mem_cons_self)
  obtain ⟨h1, hh1⟩ := Heap.exists_modify (fun cell : Cell α => { cell with next := next }) hp
  have ha1 : h1.get a = some ⟨v, prev', next⟩ := by rw [Heap.get_of_modify hh1, if_neg hpa.symm, ha]
  obtain ⟨h2, hh2⟩ := Heap.exists_free ha1
  refine ⟨_, _, h1, h2, hp, rfl, ha, rfl, hh1, hh2, ⟨rfl, prev, next, ?_, ?_⟩, fun b hbp hba => ?_, fun b => ?_⟩
  · rw [Heap.get_of_free hh2, if_neg hpa, Heap.get_of_modify hh1, if_pos rfl, hp]
    rfl
  · exact (hrest.modify (fun hmem => hpnot (List.mem_cons_of_mem a hmem)) hh1).free hanot hh2
  · rw [Heap.get_of_free hh2, if_neg hba, Heap.get_of_modify hh1, if_neg hbp]
  · rw [prevAt_of_free hh2, prevAt_of_modify hh1 fun _ => rfl]

end TcpClb.Common
