import TcpClb.Common.ChainSurgery

/-!
# Linking and unlinking cells of a doubly linked list

The pointer updates by which a cell joins a list at its end or leaves it at the head or between
two neighbours, each with the list it leaves behind. The last theorem is about the cell that is
freed while the cell before it still points to it.
-/

namespace TcpClb.Common

variable {α : Type*}

/-- Redirect `prev` of the cell a pointer leads to, if it leads to one. -/
def setPrevOf (h : Links α) (p q : Option ℕ) : Option (Links α) :=
  match p with
  | none => some h
  | some b => h.modify b fun cell => { cell with prev := q }

/-- Clear both pointers of a cell. -/
def detach (h : Links α) (a : ℕ) : Option (Links α) :=
  h.modify a fun cell => { cell with prev := none, next := none }

/-- Detaching changes one cell only. -/
theorem get_of_detach {h h' : Links α} {a : ℕ} (hd : detach h a = some h') (b : ℕ) :
    h'.get b = if b = a then (h.get a).map (fun cell => { cell with prev := none, next := none })
      else h.get b :=
  Heap.get_of_modify hd b

/-- The head of a nonempty list points to its first cell, which has no cell before it. -/
theorem Represents.first {h : Links α} {head : Option ℕ} {a : ℕ} {v : α} {rest : List (ℕ × α)}
    (hrep : Represents h head ((a, v) :: rest)) :
    head = some a ∧ ∃ next, h.get a = some ⟨v, none, next⟩ ∧ Segment h (some a) next rest none :=
  hrep.segment

/-- Redirecting the `next` pointer of the last cell changes where the segment leads. -/
theorem Segment.set_last_next {h h' : Links α} {before p q : Option ℕ} {a : ℕ} {v : α}
    {front : List (ℕ × α)} (hseg : Segment h before p (front ++ [(a, v)]) q) (q' : Option ℕ)
    (ha : a ∉ front.map Prod.fst)
    (hm : h.modify a (fun cell => { cell with next := q' }) = some h') :
    Segment h' before p (front ++ [(a, v)]) q' := by
  obtain ⟨hchain, hback⟩ := (segment_iff h before p q _).mp hseg
  refine (segment_iff h' before p q' _).mpr ⟨hchain.set_last_next q' ha hm, hback.congr fun b _ => ?_⟩
  exact prevAt_of_modify hm (fun _ => rfl) b

/-- Changes outside the cells of a list leave the list as it is. -/
theorem Represents.congr {h h' : Links α} {head : Option ℕ} {nodes : List (ℕ × α)}
    (hrep : Represents h head nodes) (hsame : ∀ a ∈ nodes.map Prod.fst, h'.get a = h.get a) :
    Represents h' head nodes :=
  ⟨hrep.segment.congr hsame, hrep.nodup⟩

/-- Two parts of a list have no address in common. -/
theorem Represents.disjoint {h : Links α} {head : Option ℕ} {front back : List (ℕ × α)}
    (hrep : Represents h head (front ++ back)) (a : ℕ) (hfront : a ∈ front.map Prod.fst) :
    a ∉ back.map Prod.fst :=
  hrep.chained.disjoint a hfront

/-- The last cell of a part of a list is not one of those before it. -/
theorem Represents.last_notMem {h : Links α} {head : Option ℕ} {front back : List (ℕ × α)} {x : ℕ × α}
    (hrep : Represents h head (front ++ [x] ++ back)) : x.1 ∉ front.map Prod.fst := by
  rw [List.append_assoc] at hrep
  exact fun hfront => hrep.disjoint x.1 hfront (by simp)

/-- Appending to a well-formed list is defined and adds the new cell at its end. -/
theorem appendNode_represents {h : Links α} {head : Option ℕ} {nodes : List (ℕ × α)}
    (hrep : Represents h head nodes) (v : α) :
    ∃ h' head', appendNode h head v = some (h', head') ∧
      Represents h' head' (nodes ++ [(h.size, v)]) := by
  obtain ⟨hlist, hback⟩ := (represents_iff h head nodes).mp hrep
  obtain ⟨h', head', happend, hlist', hprev⟩ := appendNode_chained hlist v
  have hback' := hback.snoc hlist.size_notMem v hprev
  exact ⟨h', head', happend, (represents_iff h' head' _).mpr ⟨hlist', hback'⟩⟩

/-- The list behind its first cell is a list once it has lost its `prev` pointer. -/
theorem Represents.set_prev_rest {h : Links α} {head next : Option ℕ} {a : ℕ} {v : α}
    {rest : List (ℕ × α)} (hrep : Represents h head ((a, v) :: rest))
    (hget : h.get a = some ⟨v, none, next⟩) (hrest : Segment h (some a) next rest none) :
    ∃ h1, setPrevOf h next none = some h1 ∧ Represents h1 next rest ∧ h1.get a = some ⟨v, none, next⟩ := by
  have hnodup := hrep.nodup
  rw [List.map_cons, List.nodup_cons] at hnodup
  cases rest with
  | nil =>
    obtain rfl : next = none := hrest
    exact ⟨h, rfl, represents_nil h, hget⟩
  | cons x rest =>
    obtain ⟨b, w⟩ := x
    obtain rfl : next = some b := hrest.1
    obtain ⟨_, _, hb⟩ := hrest.get_of_mem (b, w) (by simp)
    obtain ⟨h1, hh1⟩ := Heap.exists_modify (fun cell : Cell α => { cell with prev := none }) hb
    have hbrest := (List.nodup_cons.mp hnodup.2).1
    have hab : a ≠ b := fun heq => hnodup.1 (heq ▸ by simp)
    refine ⟨h1, hh1, ⟨hrest.set_first_prev none hbrest hh1, hnodup.2⟩, ?_⟩
    rw [Heap.get_of_modify hh1, if_neg hab, hget]

/-- The first cell leaves a list: the next one becomes the head and loses its `prev` pointer. -/
theorem Represents.unlink_first {h : Links α} {head : Option ℕ} {a : ℕ} {v : α}
    {rest : List (ℕ × α)} (hrep : Represents h head ((a, v) :: rest)) :
    ∃ next h1 h2, h.get a = some ⟨v, none, next⟩ ∧ setPrevOf h next none = some h1 ∧
      detach h1 a = some h2 ∧ Represents h2 next rest ∧ h2.get a = some ⟨v, none, none⟩ := by
  obtain ⟨_, next, hget, hrest⟩ := hrep.first
  have harest : a ∉ rest.map Prod.fst := (List.nodup_cons.mp hrep.nodup).1
  obtain ⟨h1, hh1, hrep1, hget1⟩ := hrep.set_prev_rest hget hrest
  obtain ⟨h2, hh2⟩ : ∃ h2, detach h1 a = some h2 := Heap.exists_modify _ hget1
  refine ⟨next, h1, h2, hget, hh1, hh2, ⟨hrep1.segment.modify harest hh2, hrep1.nodup⟩, ?_⟩
  rw [get_of_detach hh2, if_pos rfl, hget1]
  rfl

/-- A cell between two others leaves a list: its neighbours are linked to each other. -/
theorem Represents.unlink_inner {h : Links α} {head : Option ℕ} {p a b : ℕ} {u v w : α}
    {front back : List (ℕ × α)}
    (hrep : Represents h head (front ++ [(p, u)] ++ (a, v) :: (b, w) :: back)) :
    ∃ h1 h2 h3, h.get a = some ⟨v, some p, some b⟩ ∧ setPrevOf h (some b) (some p) = some h1 ∧
      h1.modify p (fun cell => { cell with next := some b }) = some h2 ∧ detach h2 a = some h3 ∧
      Represents h3 head (front ++ [(p, u)] ++ (b, w) :: back) ∧ h3.get a = some ⟨v, none, none⟩ := by
  obtain ⟨m, hfront, hback⟩ := (segment_append h none head none _ _).mp hrep.segment
  rw [lastAddress_snoc] at hback
  obtain ⟨rfl, next, hget, hrest⟩ := hback
  obtain rfl : next = some b := hrest.1
  have hpfront : p ∉ front.map Prod.fst := hrep.last_notMem
  have hdisj := hrep.disjoint
  have hpback := hdisj p (by simp)
  have hafront : a ∉ (front ++ [(p, u)]).map Prod.fst := fun hmem => hdisj a hmem (by simp)
  have hbfront : b ∉ (front ++ [(p, u)]).map Prod.fst := fun hmem => hdisj b hmem (by simp)
  have hnback := (List.nodup_append.mp (List.map_append ▸ hrep.nodup)).2.1
  obtain ⟨haback, hnback⟩ := List.nodup_cons.mp hnback
  have hbback := (List.nodup_cons.mp hnback).1
  have hab : a ≠ b := fun heq => haback (heq ▸ List.mem_cons_self)
  have hap : a ≠ p := fun heq => hpback (heq ▸ List.mem_cons_self)
  have hpback' : p ∉ ((b, w) :: back).map Prod.fst := fun hmem => hpback (List.mem_cons_of_mem a hmem)
  -- `temp->next->prev = temp->prev`
  obtain ⟨_, _, hb⟩ := hrest.get_of_mem (b, w) (by simp)
  obtain ⟨h1, hh1⟩ := Heap.exists_modify (fun cell : Cell α => { cell with prev := some p }) hb
  have hfront1 := hfront.modify hbfront hh1
  have hrest1 := hrest.set_first_prev (some p) hbback hh1
  -- `temp->prev->next = temp->next`
  obtain ⟨_, _, hp⟩ := hfront1.get_of_mem (p, u) (by simp)
  obtain ⟨h2, hh2⟩ := Heap.exists_modify (fun cell : Cell α => { cell with next := some b }) hp
  have hfront2 := hfront1.set_last_next (some b) hpfront hh2
  have hrest2 := hrest1.modify hpback' hh2
  have hget2 : h2.get a = some ⟨v, some p, some b⟩ := by
    rw [Heap.get_of_modify hh2, if_neg hap, Heap.get_of_modify hh1, if_neg hab, hget]
  -- the cell itself is no longer part of the list
  obtain ⟨h3, hh3⟩ : ∃ h3, detach h2 a = some h3 := Heap.exists_modify _ hget2
  refine ⟨h1, h2, h3, hget, hh1, hh2, hh3, ⟨?_, ?_⟩, ?_⟩
  · refine (segment_append h3 none head none _ _).mpr ⟨some b, hfront2.modify hafront hh3, ?_⟩
    rw [lastAddress_snoc]
    exact hrest2.modify haback hh3
  · have hsub : ((front ++ [(p, u)] ++ (b, w) :: back).map Prod.fst).Sublist
        ((front ++ [(p, u)] ++ (a, v) :: (b, w) :: back).map Prod.fst) :=
      ((List.Sublist.refl _).append (List.sublist_cons_self _ _)).map _
    exact hsub.nodup hrep.nodup
  · rw [get_of_detach hh3, if_pos rfl, hget2]
    rfl

/-- A cell that is freed while the cell before it still points to it stays reachable. -/
theorem Represents.freed_last_reachable {h h' : Links α} {head : Option ℕ} {a : ℕ} {v : α}
    {front : List (ℕ × α)} (hrep : Represents h head (front ++ [(a, v)]))
    (hsame : ∀ b, b ≠ a → h'.get b = h.get b) : Reach h' head a := by
  obtain ⟨m, hfront, rfl, _⟩ := (segment_append h none head none _ _).mp hrep.segment
  have hfront' : Segment h' none head front (some a) := by
    refine hfront.congr fun b hb => hsame b ?_
    rintro rfl
    exact hrep.disjoint b hb (by simp)
  exact (hfront'.nextChain.reach_iff a).mpr (Or.inr (Reach.here a))

end TcpClb.Common
