import TcpClb.Common.Heap
import Mathlib.Data.Finset.Card
import Mathlib.Data.Finset.Range

/-!
# Doubly linked lists in a heap

A list is a pointer to its first cell; every cell points to the cells before and after it.
`Represents` says which cells a well-formed list consists of, in order. The walks below follow
the `next` pointers as a C loop does. They carry a bound on the number of cells visited: a walk
over more cells than were ever allocated has come back to a cell and would never end.
-/

namespace TcpClb.Common

/-- A list node: its contents, and the pointers to its neighbours (`none` is `NULL`). -/
structure Cell (α : Type*) where
  val : α
  prev : Option ℕ
  next : Option ℕ
  deriving DecidableEq

/-- The heap the nodes of a list live in. -/
abbrev Links (α : Type*) := Heap (Cell α)

variable {α : Type*}

/-- Follow `next` from the cell at `a` to the last cell of its list. -/
def lastFrom (h : Links α) : ℕ → ℕ → Option ℕ
  | 0, _ => none
  | fuel + 1, a => (h.get a).bind fun cell =>
    match cell.next with
    | none => some a
    | some b => lastFrom h fuel b

/-- Follow `next` up to the first cell whose contents satisfy the test, or to the end. -/
def findFrom (h : Links α) (test : α → Bool) : ℕ → Option ℕ → Option (Option ℕ)
  | 0, _ => none
  | _ + 1, none => some none
  | fuel + 1, some a => (h.get a).bind fun cell =>
    if test cell.val then some (some a) else findFrom h test fuel cell.next

/-- Link a new cell in after the last one, or make it the head of an empty list. -/
def appendNode (h : Links α) (head : Option ℕ) (v : α) : Option (Links α × Option ℕ) :=
  let allocated := h.alloc ⟨v, none, none⟩
  match head with
  | none => some (allocated, some h.size)
  | some first =>
    (lastFrom allocated allocated.size first).bind fun last =>
    (allocated.modify last fun cell => { cell with next := some h.size }).bind fun linked =>
    (linked.modify h.size fun cell => { cell with prev := some last }).map fun linked => (linked, head)

/-- From pointer `p` on, `next` leads through exactly these cells to pointer `q`, and `prev` leads
back through them to the cell `before`. -/
def Segment (h : Links α) : Option ℕ → Option ℕ → List (ℕ × α) → Option ℕ → Prop
  | _, p, [], q => p = q
  | before, p, (a, v) :: rest, q =>
    p = some a ∧ ∃ next, h.get a = some ⟨v, before, next⟩ ∧ Segment h (some a) next rest q

/-- From pointer `p` on, `next` leads through exactly these cells to pointer `q`, wherever `prev` leads. -/
def NextChain (h : Links α) : Option ℕ → List (ℕ × α) → Option ℕ → Prop
  | p, [], q => p = q
  | p, (a, v) :: rest, q => p = some a ∧ ∃ prev next, h.get a = some ⟨v, prev, next⟩ ∧ NextChain h next rest q

/-- The `prev` pointer of a live cell. -/
def prevAt (h : Links α) (a : ℕ) : Option (Option ℕ) := (h.get a).map Cell.prev

/-- `prev` leads back through the cells at these addresses to the cell `before`. -/
def BackChain (h : Links α) : Option ℕ → List ℕ → Prop
  | _, [] => True
  | before, a :: rest => prevAt h a = some before ∧ BackChain h (some a) rest

/-- Address of the last cell of a segment, or the cell before an empty one. -/
def lastAddress (before : Option ℕ) : List (ℕ × α) → Option ℕ
  | [] => before
  | (a, _) :: rest => lastAddress (some a) rest

/-- The list from `head` consists of exactly these distinct live cells, doubly linked. -/
structure Represents (h : Links α) (head : Option ℕ) (nodes : List (ℕ × α)) : Prop where
  segment : Segment h none head nodes none
  nodup : (nodes.map Prod.fst).Nodup

/-- The list from `head` consists of exactly these distinct live cells, linked by `next`. -/
structure Chained (h : Links α) (head : Option ℕ) (nodes : List (ℕ × α)) : Prop where
  chain : NextChain h head nodes none
  nodup : (nodes.map Prod.fst).Nodup

/-- Addresses reached from a pointer by following `next`, whether or not they are still live. -/
inductive Reach (h : Links α) : Option ℕ → ℕ → Prop
  | here (a : ℕ) : Reach h (some a) a
  | next {a b : ℕ} {cell : Cell α} (hget : h.get a = some cell) (hrest : Reach h cell.next b) :
    Reach h (some a) b

/-- Every cell reached from `head` points back to the one before it, the first to none, and no live cell points
back to a freed one. -/
structure BackLinked (h : Links α) (head : Option ℕ) : Prop where
  first : ∀ a, head = some a → prevAt h a = some none
  back : ∀ a b cell, Reach h head a → h.get a = some cell → cell.next = some b → prevAt h b = some (some a)
  live : ∀ a b, prevAt h a = some (some b) → (h.get b).isSome

/-- Nothing is reached from `NULL`. -/
theorem not_reach_none (h : Links α) (a : ℕ) : ¬ Reach h none a := by
  intro hreach
  cases hreach

/-- A segment is a chain that leads back as well. -/
theorem segment_iff (h : Links α) (before p q : Option ℕ) (nodes : List (ℕ × α)) :
    Segment h before p nodes q ↔ NextChain h p nodes q ∧ BackChain h before (nodes.map Prod.fst) := by
  induction nodes generalizing before p with
  | nil => simp [Segment, NextChain, BackChain]
  | cons x rest ih =>
    obtain ⟨a, v⟩ := x
    simp only [Segment, NextChain, List.map_cons, BackChain, ih]
    constructor
    · rintro ⟨hp, next, hget, hchain, hback⟩
      exact ⟨⟨hp, before, next, hget, hchain⟩, by rw [prevAt, hget]; rfl, hback⟩
    · rintro ⟨⟨hp, prev, next, hget, hchain⟩, hprev, hback⟩
      rw [prevAt, hget] at hprev
      cases hprev
      exact ⟨hp, next, hget, hchain, hback⟩

/-- A list is doubly linked if it is linked by `next` and leads back. -/
theorem represents_iff (h : Links α) (head : Option ℕ) (nodes : List (ℕ × α)) :
    Represents h head nodes ↔ Chained h head nodes ∧ BackChain h none (nodes.map Prod.fst) := by
  constructor
  · rintro ⟨hseg, hnodup⟩
    obtain ⟨hchain, hback⟩ := (segment_iff h none head none nodes).mp hseg
    exact ⟨⟨hchain, hnodup⟩, hback⟩
  · rintro ⟨⟨hchain, hnodup⟩, hback⟩
    exact ⟨(segment_iff h none head none nodes).mpr ⟨hchain, hback⟩, hnodup⟩

/-- What follows from the chain of a segment. -/
theorem Segment.nextChain {h : Links α} {before p q : Option ℕ} {nodes : List (ℕ × α)}
    (hseg : Segment h before p nodes q) : NextChain h p nodes q :=
  ((segment_iff h before p q nodes).mp hseg).1

/-- What follows from the chain of a doubly linked list. -/
theorem Represents.chained {h : Links α} {head : Option ℕ} {nodes : List (ℕ × α)}
    (hrep : Represents h head nodes) : Chained h head nodes :=
  ((represents_iff h head nodes).mp hrep).1

/-- The last address of a segment extended by one cell. -/
@[simp] theorem lastAddress_snoc (before : Option ℕ) (nodes : List (ℕ × α)) (x : ℕ × α) :
    lastAddress before (nodes ++ [x]) = some x.1 := by
  induction nodes generalizing before with
  | nil => rfl
  | cons y rest ih => exact ih (some y.1)

/-- A segment through two lists of cells is a segment through each. -/
theorem segment_append (h : Links α) (before p q : Option ℕ) (xs ys : List (ℕ × α)) :
    Segment h before p (xs ++ ys) q ↔
      ∃ m, Segment h before p xs m ∧ Segment h (lastAddress before xs) m ys q := by
  induction xs generalizing before p with
  | nil => simp [Segment, lastAddress]
  | cons x rest ih =>
    obtain ⟨a, v⟩ := x
    simp only [List.cons_append, Segment, lastAddress, ih]
    constructor
    · rintro ⟨hp, next, hget, m, hxs, hys⟩
      exact ⟨m, ⟨hp, next, hget, hxs⟩, hys⟩
    · rintro ⟨m, ⟨hp, next, hget, hxs⟩, hys⟩
      exact ⟨hp, next, hget, m, hxs, hys⟩

/-- A segment depends on its own cells only. -/
theorem Segment.congr {h h' : Links α} {before p q : Option ℕ} {nodes : List (ℕ × α)}
    (hseg : Segment h before p nodes q)
    (hsame : ∀ a ∈ nodes.map Prod.fst, h'.get a = h.get a) : Segment h' before p nodes q := by
  induction nodes generalizing before p with
  | nil => exact hseg
  | cons x rest ih =>
    obtain ⟨hp, next, hget, hrest⟩ := hseg
    refine ⟨hp, next, ?_, ih hrest fun a ha => hsame a (by simp [ha])⟩
    rw [hsame x.1 (by simp), hget]

/-- Updating a cell outside a segment leaves the segment. -/
theorem Segment.modify {h h' : Links α} {before p q : Option ℕ} {nodes : List (ℕ × α)} {a : ℕ}
    {f : Cell α → Cell α} (hseg : Segment h before p nodes q) (ha : a ∉ nodes.map Prod.fst)
    (hm : h.modify a f = some h') : Segment h' before p nodes q := by
  apply hseg.congr
  intro b hb
  rw [Heap.get_of_modify hm, if_neg]
  intro heq
  exact ha (heq ▸ hb)

/-- Every cell of a chain is live and has the listed contents. -/
theorem NextChain.get_of_mem {h : Links α} {p q : Option ℕ} {nodes : List (ℕ × α)}
    (hchain : NextChain h p nodes q) (x : ℕ × α) (hx : x ∈ nodes) :
    ∃ prev next, h.get x.1 = some ⟨x.2, prev, next⟩ := by
  induction nodes generalizing p with
  | nil => simp at hx
  | cons y rest ih =>
    obtain ⟨_, prev, next, hget, hrest⟩ := hchain
    rcases List.mem_cons.mp hx with rfl | hmem
    · exact ⟨prev, next, hget⟩
    · exact ih hrest hmem

/-- Every cell of a segment is live and has the listed contents. -/
theorem Segment.get_of_mem {h : Links α} {before p q : Option ℕ} {nodes : List (ℕ × α)}
    (hseg : Segment h before p nodes q) (x : ℕ × α) (hx : x ∈ nodes) :
    ∃ prev next, h.get x.1 = some ⟨x.2, prev, next⟩ :=
  hseg.nextChain.get_of_mem x hx

/-- Redirecting the `prev` pointer of the first cell moves the segment behind another cell. -/
theorem Segment.set_first_prev {h h' : Links α} {before p q : Option ℕ} {a : ℕ} {v : α}
    {rest : List (ℕ × α)} (hseg : Segment h before p ((a, v) :: rest) q) (before' : Option ℕ)
    (ha : a ∉ rest.map Prod.fst)
    (hm : h.modify a (fun cell => { cell with prev := before' }) = some h') :
    Segment h' before' p ((a, v) :: rest) q := by
  obtain ⟨hp, next, hget, hrest⟩ := hseg
  refine ⟨hp, next, ?_, hrest.modify ha hm⟩
  rw [Heap.get_of_modify hm, if_pos rfl, hget]
  rfl

/-- On a chain the walk for the last cell ends at its last address. -/
theorem lastFrom_nextChain {h : Links α} {a : ℕ} {v : α} {rest : List (ℕ × α)}
    (hchain : NextChain h (some a) ((a, v) :: rest) none) (before : Option ℕ) (fuel : ℕ)
    (hfuel : rest.length < fuel) : lastFrom h fuel a = lastAddress before ((a, v) :: rest) := by
  induction rest generalizing before a v fuel with
  | nil =>
    obtain ⟨_, _, next, hget, hnext⟩ := hchain
    obtain ⟨fuel, rfl⟩ := Nat.exists_eq_add_one_of_ne_zero (Nat.ne_zero_of_lt hfuel)
    change next = none at hnext
    simp [lastFrom, hget, hnext, lastAddress]
  | cons x rest ih =>
    obtain ⟨_, _, next, hget, hrest⟩ := hchain
    obtain ⟨fuel, rfl⟩ := Nat.exists_eq_add_one_of_ne_zero (Nat.ne_zero_of_lt hfuel)
    have hnext : next = some x.1 := hrest.1
    subst hnext
    simp only [lastFrom, hget, Option.bind_some]
    exact ih hrest (some a) fuel (by simpa using hfuel)

/-- On a chain the search returns the first listed cell that satisfies the test. -/
theorem findFrom_nextChain {h : Links α} {p : Option ℕ} {nodes : List (ℕ × α)}
    (hchain : NextChain h p nodes none) (test : α → Bool) (fuel : ℕ) (hfuel : nodes.length < fuel) :
    findFrom h test fuel p = some ((nodes.find? fun x => test x.2).map Prod.fst) := by
  induction nodes generalizing p fuel with
  | nil =>
    obtain ⟨fuel, rfl⟩ := Nat.exists_eq_add_one_of_ne_zero (Nat.ne_zero_of_lt hfuel)
    change p = none at hchain
    simp [hchain, findFrom]
  | cons x rest ih =>
    obtain ⟨rfl, _, next, hget, hrest⟩ := hchain
    obtain ⟨fuel, rfl⟩ := Nat.exists_eq_add_one_of_ne_zero (Nat.ne_zero_of_lt hfuel)
    simp only [findFrom, hget, Option.bind_some]
    by_cases htest : test x.2 = true
    · simp [htest]
    · rw [if_neg htest, ih hrest fuel (by simpa using hfuel)]
      simp [htest]

/-- A list has no more cells than were allocated, so the walks over it have enough fuel. -/
theorem Chained.length_le_size {h : Links α} {head : Option ℕ} {nodes : List (ℕ × α)}
    (hlist : Chained h head nodes) : nodes.length ≤ h.size := by
  have hsub : (nodes.map Prod.fst).toFinset ⊆ Finset.range h.size := by
    intro a ha
    obtain ⟨x, hx, rfl⟩ := List.mem_map.mp (List.mem_toFinset.mp ha)
    obtain ⟨_, _, hget⟩ := hlist.chain.get_of_mem x hx
    exact Finset.mem_range.mpr (Heap.lt_size_of_get hget)
  have hcard := Finset.card_le_card hsub
  rwa [List.toFinset_card_of_nodup hlist.nodup, List.length_map, Finset.card_range] at hcard

/-- A search through a whole list returns the first cell that satisfies the test. -/
theorem Chained.findFrom_eq {h : Links α} {head : Option ℕ} {nodes : List (ℕ × α)}
    (hlist : Chained h head nodes) (test : α → Bool) :
    findFrom h test (h.size + 1) head = some ((nodes.find? fun x => test x.2).map Prod.fst) :=
  findFrom_nextChain hlist.chain test (h.size + 1) (Nat.lt_succ_of_le hlist.length_le_size)

/-- The empty list is represented by the null pointer in any heap. -/
theorem represents_nil (h : Links α) : Represents h none [] := ⟨rfl, List.nodup_nil⟩

/-- Following `next` from the head of a chain reaches its cells and what lies behind it. -/
theorem NextChain.reach_iff {h : Links α} {p q : Option ℕ} {nodes : List (ℕ × α)}
    (hchain : NextChain h p nodes q) (b : ℕ) : Reach h p b ↔ b ∈ nodes.map Prod.fst ∨ Reach h q b := by
  induction nodes generalizing p with
  | nil =>
    change p = q at hchain
    simp [hchain]
  | cons x rest ih =>
    obtain ⟨rfl, _, next, hget, hrest⟩ := hchain
    rw [List.map_cons, List.mem_cons, or_assoc, ← ih hrest]
    constructor
    · intro hreach
      cases hreach with
      | here => exact Or.inl rfl
      | next hget' hreach =>
        rw [hget] at hget'
        cases hget'
        exact Or.inr hreach
    · rintro (rfl | hreach)
      · exact Reach.here _
      · exact Reach.next hget hreach

/-- The addresses reached from the head of a well-formed list are exactly its cells. -/
theorem Represents.reach_iff {h : Links α} {head : Option ℕ} {nodes : List (ℕ × α)}
    (hrep : Represents h head nodes) (b : ℕ) : Reach h head b ↔ b ∈ nodes.map Prod.fst := by
  rw [hrep.chained.chain.reach_iff, or_iff_left (not_reach_none h b)]

/-- No freed cell is reached from the head of a well-formed list. -/
theorem Represents.live {h : Links α} {head : Option ℕ} {nodes : List (ℕ × α)}
    (hrep : Represents h head nodes) (b : ℕ) (hreach : Reach h head b) : (h.get b).isSome := by
  obtain ⟨x, hx, rfl⟩ := List.mem_map.mp ((hrep.reach_iff b).mp hreach)
  obtain ⟨_, _, hget⟩ := hrep.segment.get_of_mem x hx
  simp [hget]

/-- Where a cell stands in a list, its `prev` and `next` pointers lead to the cells before and behind it. -/
theorem Represents.neighbours {h : Links α} {head : Option ℕ} {front back : List (ℕ × α)} {x : ℕ × α}
    (hrep : Represents h head (front ++ x :: back)) :
    ∃ next, h.get x.1 = some ⟨x.2, lastAddress none front, next⟩ ∧ Segment h (some x.1) next back none := by
  obtain ⟨_, _, _, next, hget, hback⟩ := (segment_append h none head none front (x :: back)).mp hrep.segment
  exact ⟨next, hget, hback⟩

/-- The cells of a doubly linked list are linked back, if no other cells are live. -/
theorem Represents.backLinked {h : Links α} {head : Option ℕ} {nodes : List (ℕ × α)}
    (hrep : Represents h head nodes) (honly : ∀ a p, prevAt h a = some p → a ∈ nodes.map Prod.fst) :
    BackLinked h head where
  first a hhead := by
    cases nodes with
    | nil => cases hrep.segment.symm.trans hhead
    | cons x rest =>
      obtain ⟨hx, next, hget, _⟩ := hrep.segment
      obtain rfl : x.1 = a := Option.some.inj (hx.symm.trans hhead)
      rw [prevAt, hget]
      rfl
  back a b cell hreach hget hnext := by
    obtain ⟨x, hx, rfl⟩ := List.mem_map.mp ((hrep.reach_iff a).mp hreach)
    obtain ⟨front, back, rfl⟩ := List.append_of_mem hx
    obtain ⟨next, hcell, hback⟩ := hrep.neighbours
    obtain rfl := Option.some.inj (hcell.symm.trans hget)
    obtain rfl : next = some b := hnext
    cases back with
    | nil => cases hback
    | cons y rest =>
      obtain ⟨hy, next', hgety, _⟩ := hback
      obtain rfl : b = y.1 := Option.some.inj hy
      rw [prevAt, hgety]
      rfl
  live a b hprev := by
    obtain ⟨cell, hget, hcell⟩ := Option.map_eq_some_iff.mp hprev
    obtain ⟨x, hx, rfl⟩ := List.mem_map.mp (honly a _ hprev)
    obtain ⟨front, back, rfl⟩ := List.append_of_mem hx
    obtain ⟨next, hcell', _⟩ := hrep.neighbours
    obtain rfl := Option.some.inj (hcell'.symm.trans hget)
    -- the cell before it is one of the list
    rcases List.eq_nil_or_concat front with rfl | ⟨front, y, rfl⟩
    · cases hcell
    · rw [List.concat_eq_append] at hcell hrep
      obtain rfl : y.1 = b := Option.some.inj ((lastAddress_snoc none front y).symm.trans hcell)
      obtain ⟨_, _, hy⟩ := hrep.segment.get_of_mem y (by simp)
      simp [hy]

end TcpClb.Common
