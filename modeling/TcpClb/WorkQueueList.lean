import TcpClb.WorkQueue

/-!
# The lists of the work queue

`LL_REMOVE` is right for a list whose cells point back to the ones before them. `LL_ADD` never sets the `prev` pointer
of the cell that it puts a new one in front of, so no cell of a list it has built points back. From such a list
`LL_REMOVE` takes the first cell; used on a later one it leaves the cell in the list and loses those behind it.
-/

namespace TcpClb

open TcpClb.Common

variable {α : Type*}

/-- The list consists of exactly these distinct live cells, none of which points back. -/
structure HeadAdded (h : Links α) (list : Option ℕ) (nodes : List (ℕ × α)) : Prop where
  chained : Chained h list nodes
  unlinked : ∀ a ∈ nodes.map Prod.fst, prevAt h a = some none

/-- The empty list has no cells that point back. -/
theorem headAdded_nil (h : Links α) : HeadAdded h none [] where
  chained := ⟨rfl, List.nodup_nil⟩
  unlinked _ ha := absurd ha List.not_mem_nil

/-- Changes outside the cells of a list leave the list as it is. -/
theorem HeadAdded.congr {h h' : Links α} {list : Option ℕ} {nodes : List (ℕ × α)} (hlist : HeadAdded h list nodes)
    (hsame : ∀ a ∈ nodes.map Prod.fst, h'.get a = h.get a) : HeadAdded h' list nodes where
  chained := ⟨hlist.chained.chain.congr hsame, hlist.chained.nodup⟩
  unlinked a ha := by rw [prevAt, hsame a ha, ← prevAt, hlist.unlinked a ha]

/-- `LL_ADD` of a new cell is defined, puts the cell in front and changes no other. -/
theorem HeadAdded.llAdd {h : Links α} {list : Option ℕ} {nodes : List (ℕ × α)} (hlist : HeadAdded h list nodes)
    (v : α) : ∃ h', llAdd (h.alloc ⟨v, none, none⟩) h.size list = some (h', some h.size) ∧
      HeadAdded h' (some h.size) ((h.size, v) :: nodes) ∧ (∀ b, b ≠ h.size → h'.get b = h.get b) ∧
      h'.size = h.size + 1 := by
  have hnew : (h.alloc ⟨v, none, none⟩).get h.size = some ⟨v, none, none⟩ := by rw [Heap.get_alloc, if_pos rfl]
  obtain ⟨h', hh'⟩ := Heap.exists_modify (fun cell : Cell α => { cell with prev := none, next := list }) hnew
  have hother (b : ℕ) (hb : b ≠ h.size) : h'.get b = h.get b := by
    rw [Heap.get_of_modify hh', if_neg hb, Heap.get_alloc, if_neg hb]
  have hfirst : h'.get h.size = some ⟨v, none, list⟩ := by
    rw [Heap.get_of_modify hh', if_pos rfl, hnew]
    rfl
  have hfresh := hlist.chained.size_notMem
  have hold := hlist.congr fun a ha => hother a fun heq => hfresh (heq ▸ ha)
  refine ⟨h', by rw [TcpClb.llAdd, hh']; rfl, ⟨⟨⟨rfl, none, list, hfirst, hold.chained.chain⟩, ?_⟩, ?_⟩, hother, ?_⟩
  · exact List.nodup_cons.mpr ⟨hfresh, hold.chained.nodup⟩
  · refine List.forall_mem_cons.mpr ⟨?_, hold.unlinked⟩
    rw [prevAt, hfirst]
    rfl
  · obtain ⟨x, _, rfl⟩ := (Heap.modify_eq_some_iff _ _ _ _).mp hh'
    simp [Heap.size, Heap.alloc]

/-- Clearing the `prev` pointer of a cell that does not point back changes nothing. -/
theorem get_of_setPrevOf_none {h h' : Links α} {p : Option ℕ} (hset : setPrevOf h p none = some h')
    (hp : ∀ b, p = some b → prevAt h b = some none) (b : ℕ) : h'.get b = h.get b := by
  cases p with
  | none => rw [Option.some.inj hset]
  | some a =>
    rw [Heap.get_of_modify hset]
    split
    · next hb =>
      obtain ⟨⟨v, prev, next⟩, hget, hprev⟩ := Option.map_eq_some_iff.mp (hp a rfl)
      obtain rfl : prev = none := hprev
      rw [hb, hget]
      rfl
    · rfl

/-- `LL_REMOVE` of a cell of such a list only detaches the cell, and moves the pointer to the list if it is the first. -/
theorem HeadAdded.llRemove_eq {h : Links α} {list : Option ℕ} {front back : List (ℕ × α)} {x : ℕ × α}
    (hlist : HeadAdded h list (front ++ x :: back)) :
    ∃ h' next, h.get x.1 = some ⟨x.2, none, next⟩ ∧ NextChain h next back none ∧
      llRemove h x.1 list = some (h', if list = some x.1 then next else list) ∧
      h'.get x.1 = some ⟨x.2, none, none⟩ ∧ (∀ b, b ≠ x.1 → h'.get b = h.get b) ∧ h'.size = h.size := by
  obtain ⟨m, _, _, prev, next, hget, hback⟩ := (nextChain_append h list none front _).mp hlist.chained.chain
  have hprev := hlist.unlinked x.1 (by simp)
  rw [prevAt, hget] at hprev
  obtain rfl : prev = none := Option.some.inj hprev
  have hnext (b : ℕ) (hb : next = some b) : prevAt h b = some none ∧ ∃ cell, h.get b = some cell := by
    cases back with
    | nil => cases hback.symm.trans hb
    | cons y rest =>
      obtain ⟨hy, _, _, hgety, _⟩ := hback
      obtain rfl : y.1 = b := Option.some.inj (hy.symm.trans hb)
      exact ⟨hlist.unlinked y.1 (by simp), _, hgety⟩
  obtain ⟨h1, hh1⟩ : ∃ h1, setPrevOf h next none = some h1 := by
    cases next with
    | none => exact ⟨h, rfl⟩
    | some b => exact Heap.exists_modify _ (hnext b rfl).2.choose_spec
  have hsame := get_of_setPrevOf_none hh1 fun b hb => (hnext b hb).1
  obtain ⟨h2, hh2⟩ : ∃ h2, detach h1 x.1 = some h2 := Heap.exists_modify _ ((hsame x.1).trans hget)
  refine ⟨h2, next, hget, hback, ?_, ?_, fun b hb => ?_, ?_⟩
  · simp only [llRemove, hget, Option.bind_eq_bind, Option.bind_some, hh1, hh2]
  · rw [get_of_detach hh2, if_pos rfl, hsame, hget]
    rfl
  · rw [get_of_detach hh2, if_neg hb, hsame]
  · have hsize1 : h1.size = h.size := by
      cases next with
      | none => rw [Option.some.inj hh1]
      | some b =>
        obtain ⟨_, _, rfl⟩ := (Heap.modify_eq_some_iff _ _ _ _).mp hh1
        simp [Heap.size]
    obtain ⟨_, _, rfl⟩ := (Heap.modify_eq_some_iff _ _ _ _).mp hh2
    rw [← hsize1]
    simp [Heap.size]

/-- `LL_REMOVE` of the first cell takes it out of the list. -/
theorem HeadAdded.llRemove_first {h : Links α} {list : Option ℕ} {x : ℕ × α} {rest : List (ℕ × α)}
    (hlist : HeadAdded h list (x :: rest)) : ∃ h' next, list = some x.1 ∧ llRemove h x.1 list = some (h', next) ∧
      HeadAdded h' next rest ∧ h'.get x.1 = some ⟨x.2, none, none⟩ ∧ (∀ b, b ≠ x.1 → h'.get b = h.get b) ∧
      h'.size = h.size := by
  have hhead : list = some x.1 := hlist.chained.chain.1
  obtain ⟨hx, hnodup⟩ := List.nodup_cons.mp hlist.chained.nodup
  obtain ⟨h', next, _, hback, hremove, hgone, hother, hsize⟩ := @HeadAdded.llRemove_eq _ h list [] rest x hlist
  rw [if_pos hhead] at hremove
  have hrest : HeadAdded h next rest :=
    ⟨⟨hback, hnodup⟩, fun a ha => hlist.unlinked a (List.mem_cons_of_mem x.1 ha)⟩
  exact ⟨h', next, hhead, hremove, hrest.congr fun a ha => hother a fun heq => hx (heq ▸ ha), hgone, hother, hsize⟩

/-- `LL_REMOVE` of a later cell leaves it as the last one of the list. -/
theorem HeadAdded.llRemove_later {h : Links α} {list : Option ℕ} {front back : List (ℕ × α)} {x : ℕ × α}
    (hlist : HeadAdded h list (front ++ x :: back)) (hfront : front ≠ []) :
    ∃ h', llRemove h x.1 list = some (h', list) ∧ HeadAdded h' list (front ++ [x]) := by
  obtain ⟨h', next, _, _, hremove, hgone, hother, _⟩ := hlist.llRemove_eq
  obtain ⟨m, hchain, hm, _⟩ := (nextChain_append h list none front _).mp hlist.chained.chain
  have hnot : x.1 ∉ front.map Prod.fst := fun hmem => hlist.chained.disjoint x.1 hmem (by simp)
  have hsame (a : ℕ) (ha : a ∈ front.map Prod.fst) : h'.get a = h.get a := hother a fun heq => hnot (heq ▸ ha)
  have hhead : list ≠ some x.1 := by
    obtain ⟨y, rest, rfl⟩ := List.exists_cons_of_ne_nil hfront
    rw [hchain.1, ne_eq, Option.some.injEq]
    exact fun heq => hnot (heq ▸ List.mem_cons_self)
  rw [if_neg hhead] at hremove
  refine ⟨h', hremove, ⟨?_, ?_⟩, fun a ha => ?_⟩
  · exact (nextChain_append h' list none front [x]).mpr ⟨m, hchain.congr hsame, hm, none, none, hgone, rfl⟩
  · have hnodup := hlist.chained.nodup
    rw [List.map_append, List.map_cons, List.nodup_append, List.nodup_cons] at hnodup
    rw [List.map_append, List.nodup_append]
    refine ⟨hnodup.1, List.nodup_singleton _, fun a ha b hb => ?_⟩
    exact hnodup.2.2 a ha b (List.mem_singleton.mp hb ▸ List.mem_cons_self)
  · rw [List.map_append, List.mem_append] at ha
    rcases ha with ha | ha
    · rw [prevAt, hsame a ha, ← prevAt]
      exact hlist.unlinked a (by rw [List.map_append]; exact List.mem_append_left _ ha)
    · obtain rfl : a = x.1 := List.mem_singleton.mp ha
      rw [prevAt, hgone]
      rfl

/-- From a list that `LL_ADD` has built, `LL_REMOVE` takes the first cell; with any other it keeps the cell and what is
before it. -/
theorem llRemove_headAdded {h : Links α} {list : Option ℕ} {front back : List (ℕ × α)} {x : ℕ × α}
    (hlist : HeadAdded h list (front ++ x :: back)) : ∃ h' list', llRemove h x.1 list = some (h', list') ∧
      HeadAdded h' list' (if front = [] then back else front ++ [x]) := by
  by_cases hfront : front = []
  · subst hfront
    obtain ⟨h', next, _, hremove, hrest, _⟩ := HeadAdded.llRemove_first hlist
    exact ⟨h', next, hremove, by rw [if_pos rfl]; exact hrest⟩
  · obtain ⟨h', hremove, hkept⟩ := hlist.llRemove_later hfront
    exact ⟨h', list, hremove, by rw [if_neg hfront]; exact hkept⟩

/-- Three cells as `LL_ADD` leaves them. -/
def threeAdded : Links Unit := ⟨[some ⟨(), none, none⟩, some ⟨(), none, some 0⟩, some ⟨(), none, some 1⟩]⟩

/-- The first cell stays, the one that should have left stays as well, and the last one is lost. -/
theorem threeAdded_llRemove : ∃ h' list', llRemove threeAdded 1 (some 2) = some (h', list') ∧
    HeadAdded h' list' [(2, ()), (1, ())] := by
  have hchain : NextChain threeAdded (some 2) [(2, ()), (1, ()), (0, ())] none :=
    ⟨rfl, none, some 1, rfl, rfl, none, some 0, rfl, rfl, none, none, rfl, rfl⟩
  have hlist : HeadAdded threeAdded (some 2) ([(2, ())] ++ (1, ()) :: [(0, ())]) :=
    ⟨⟨hchain, by decide⟩, by decide⟩
  exact llRemove_headAdded hlist

end TcpClb
