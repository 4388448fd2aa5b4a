import TcpClb.Common.ListSurgery

/-!
# What updates of cells keep

What an update of cells can add to the cells reached from a head pointer, when nothing is known
about the shape of the list: a set of addresses that is closed under `next` stays closed if every
pointer that is written leads into it, and values stay what they were. A cell that has left its list is
not looked at by these updates, but it stays live and keeps its contents until it is freed.
-/

namespace TcpClb.Common

variable {α : Type*}

/-- Following `next` from a live cell of the set stays in the set. -/
def NextClosed (h : Links α) (S : ℕ → Prop) : Prop :=
  ∀ a cell b, S a → h.get a = some cell → cell.next = some b → S b

/-- Every live cell has the value that it had before. -/
def ValuesFrom (h h' : Links α) : Prop :=
  ∀ a cell', h'.get a = some cell' → ∃ cell, h.get a = some cell ∧ cell.val = cell'.val

/-- A cell behind a reached one is reached. -/
theorem Reach.snoc {h : Links α} {head : Option ℕ} {a b : ℕ} {cell : Cell α} (hreach : Reach h head a)
    (hget : h.get a = some cell) (hnext : cell.next = some b) : Reach h head b := by
  induction hreach with
  | here a => exact Reach.next hget (hnext ▸ Reach.here b)
  | next hfirst _ ih => exact Reach.next hfirst (ih hget)

/-- The reached cells are closed under `next`. -/
theorem nextClosed_reach (h : Links α) (head : Option ℕ) : NextClosed h (Reach h head) :=
  fun _ _ _ hreach hget hnext => hreach.snoc hget hnext

/-- From a head in a closed set nothing outside it is reached. -/
theorem NextClosed.of_reach {h : Links α} {S : ℕ → Prop} (hclosed : NextClosed h S) {head : Option ℕ}
    (hhead : ∀ a, head = some a → S a) {b : ℕ} (hreach : Reach h head b) : S b := by
  induction hreach with
  | here a => exact hhead a rfl
  | next hget _ ih => exact ih fun b hb => hclosed _ _ b (hhead _ rfl) hget hb

/-- An update that writes only pointers into the set keeps it closed. -/
theorem NextClosed.modify {h h' : Links α} {S : ℕ → Prop} (hclosed : NextClosed h S) {a : ℕ}
    {f : Cell α → Cell α} (hm : h.modify a f = some h')
    (hf : ∀ cell b, (f cell).next = some b → cell.next = some b ∨ S b) : NextClosed h' S := by
  intro c cell b hc hget hnext
  rw [Heap.get_of_modify hm] at hget
  split at hget
  · next heq =>
    obtain ⟨old, hold, rfl⟩ := Option.map_eq_some_iff.mp hget
    rcases hf old b hnext with hsame | hb
    · exact hclosed a old b (heq ▸ hc) hold hsame
    · exact hb
  · exact hclosed c cell b hc hget hnext

/-- Freeing a cell keeps a set closed. -/
theorem NextClosed.free {h h' : Links α} {S : ℕ → Prop} (hclosed : NextClosed h S) {a : ℕ}
    (hfree : h.free a = some h') : NextClosed h' S := by
  intro c cell b hc hget hnext
  rw [Heap.get_of_free hfree] at hget
  split at hget
  · cases hget
  · exact hclosed c cell b hc hget hnext

/-- Nothing changes without an update. -/
theorem ValuesFrom.refl (h : Links α) : ValuesFrom h h := fun _ cell' hget => ⟨cell', hget, rfl⟩

/-- An update of the pointers of a cell keeps the values. -/
theorem ValuesFrom.modify {h h' h'' : Links α} (hvals : ValuesFrom h h') {a : ℕ} {f : Cell α → Cell α}
    (hm : h'.modify a f = some h'') (hf : ∀ cell, (f cell).val = cell.val) : ValuesFrom h h'' := by
  intro b cell'' hget
  rw [Heap.get_of_modify hm] at hget
  split at hget
  · next heq =>
    obtain ⟨cell', hcell', rfl⟩ := Option.map_eq_some_iff.mp hget
    obtain ⟨cell, hcell, hval⟩ := hvals a cell' hcell'
    exact ⟨cell, heq ▸ hcell, hval.trans (hf cell').symm⟩
  · exact hvals b cell'' hget

/-- Freeing a cell keeps the values of the others. -/
theorem ValuesFrom.free {h h' h'' : Links α} (hvals : ValuesFrom h h') {a : ℕ}
    (hfree : h'.free a = some h'') : ValuesFrom h h'' := by
  intro b cell'' hget
  rw [Heap.get_of_free hfree] at hget
  split at hget
  · cases hget
  · exact hvals b cell'' hget

/-- Redirecting a `prev` pointer keeps a set closed. -/
theorem NextClosed.setPrevOf {h h' : Links α} {S : ℕ → Prop} (hclosed : NextClosed h S) {p q : Option ℕ}
    (hset : setPrevOf h p q = some h') : NextClosed h' S := by
  cases p with
  | none => exact (Option.some.inj hset) ▸ hclosed
  | some b => exact hclosed.modify hset fun _ _ hnext => Or.inl hnext

/-- It keeps the values. -/
theorem ValuesFrom.setPrevOf {h h' h'' : Links α} (hvals : ValuesFrom h h') {p q : Option ℕ}
    (hset : setPrevOf h' p q = some h'') : ValuesFrom h h'' := by
  cases p with
  | none => exact (Option.some.inj hset) ▸ hvals
  | some b => exact hvals.modify hset fun _ => rfl

/-- Detaching a cell keeps a set closed. -/
theorem NextClosed.detach {h h' : Links α} {S : ℕ → Prop} (hclosed : NextClosed h S) {a : ℕ}
    (hdetach : detach h a = some h') : NextClosed h' S :=
  hclosed.modify hdetach fun _ _ hnext => nomatch hnext

/-- What a search finds is a reached cell that passes the test. -/
theorem findFrom_eq_some {h : Links α} {test : α → Bool} {fuel : ℕ} {p : Option ℕ} {a : ℕ}
    (hfind : findFrom h test fuel p = some (some a)) :
    Reach h p a ∧ ∃ cell, h.get a = some cell ∧ test cell.val = true := by
  induction fuel generalizing p with
  | zero => cases hfind
  | succ fuel ih =>
    cases p with
    | none => cases hfind
    | some first =>
      obtain ⟨cell, hget, hfind⟩ := Option.bind_eq_some_iff.mp hfind
      split at hfind
      · next htest =>
        cases hfind
        exact ⟨Reach.here a, cell, hget, htest⟩
      · obtain ⟨hreach, hcell⟩ := ih hfind
        exact ⟨Reach.next hget hreach, hcell⟩

/-- The contents of a live cell. -/
def valAt (h : Links α) (a : ℕ) : Option α := (h.get a).map Cell.val

/-- A live cell has its contents. -/
theorem valAt_of_get {h : Links α} {a : ℕ} {cell : Cell α} (hget : h.get a = some cell) :
    valAt h a = some cell.val := by
  rw [valAt, hget]
  rfl

/-- Contents are those of a live cell. -/
theorem exists_get_of_valAt {h : Links α} {a : ℕ} {v : α} (hval : valAt h a = some v) :
    ∃ cell, h.get a = some cell ∧ cell.val = v :=
  Option.map_eq_some_iff.mp hval

/-- A new cell has the contents it is made with. -/
theorem valAt_alloc (h : Links α) (x : Cell α) (b : ℕ) :
    valAt (h.alloc x) b = if b = h.size then some x.val else valAt h b := by
  rw [valAt, valAt, Heap.get_alloc]
  split <;> rfl

/-- An update that keeps the contents of a cell keeps all contents. -/
theorem valAt_of_modify {h h' : Links α} {a : ℕ} {f : Cell α → Cell α} (hm : h.modify a f = some h')
    (hf : ∀ cell, (f cell).val = cell.val) (b : ℕ) : valAt h' b = valAt h b := by
  rw [valAt, valAt, Heap.get_of_modify hm]
  by_cases hb : b = a
  · rw [if_pos hb, hb, Option.map_map]
    exact congrArg (fun g => (h.get a).map g) (funext hf)
  · rw [if_neg hb]

/-- A freed cell has no contents any more, the others keep theirs. -/
theorem valAt_of_free {h h' : Links α} {a : ℕ} (hf : h.free a = some h') (b : ℕ) :
    valAt h' b = if b = a then none else valAt h b := by
  rw [valAt, valAt, Heap.get_of_free hf]
  split <;> rfl

/-- Redirecting a `prev` pointer keeps the contents. -/
theorem valAt_of_setPrevOf {h h' : Links α} {p q : Option ℕ} (hset : setPrevOf h p q = some h') (b : ℕ) :
    valAt h' b = valAt h b := by
  cases p with
  | none => rw [Option.some.inj hset]
  | some a => exact valAt_of_modify hset (fun _ => rfl) b

/-- Detaching a cell keeps the contents. -/
theorem valAt_of_detach {h h' : Links α} {a : ℕ} (hd : detach h a = some h') (b : ℕ) : valAt h' b = valAt h b :=
  valAt_of_modify hd (fun _ => rfl) b

/-- Appending a cell keeps the contents of the others. -/
theorem valAt_of_appendNode {h h' : Links α} {head head' : Option ℕ} {v : α}
    (happend : appendNode h head v = some (h', head')) (b : ℕ) :
    valAt h' b = if b = h.size then some v else valAt h b := by
  unfold appendNode at happend
  cases head with
  | none =>
    cases happend
    exact valAt_alloc h _ b
  | some first =>
    obtain ⟨last, _, happend⟩ := Option.bind_eq_some_iff.mp happend
    obtain ⟨h1, hh1, happend⟩ := Option.bind_eq_some_iff.mp happend
    obtain ⟨h2, hh2, happend⟩ := Option.map_eq_some_iff.mp happend
    cases happend
    rw [valAt_of_modify hh2 fun _ => rfl, valAt_of_modify hh1 fun _ => rfl, valAt_alloc]

end TcpClb.Common
