import Mathlib.Data.List.Basic

/-!
# A heap of C objects

Addresses are numbered in the order of allocation and never handed out again, so reading or
writing through a pointer to a freed object is visible as an undefined result instead of
reaching whatever was allocated later in the same place.
-/

namespace TcpClb.Common

/-- Objects by address: `none` at an address whose object has been freed. -/
structure Heap (B : Type*) where
  cells : List (Option B)
  deriving DecidableEq

namespace Heap

variable {B : Type*}

/-- No object has been allocated. -/
def empty : Heap B := ⟨[]⟩

/-- Number of objects ever allocated, which is also the address of the next one. -/
def size (h : Heap B) : ℕ := h.cells.length

/-- Read the object at an address; undefined if it is freed or was never allocated. -/
def get (h : Heap B) (a : ℕ) : Option B := h.cells[a]?.join

/-- Allocate an object at the fresh address `h.size`. -/
def alloc (h : Heap B) (x : B) : Heap B := ⟨h.cells ++ [some x]⟩

/-- Update the live object at an address; undefined if there is none. -/
def modify (h : Heap B) (a : ℕ) (f : B → B) : Option (Heap B) :=
  (h.get a).map fun x => ⟨h.cells.set a (some (f x))⟩

/-- Free the live object at an address; undefined if there is none. -/
def free (h : Heap B) (a : ℕ) : Option (Heap B) :=
  (h.get a).map fun _ => ⟨h.cells.set a none⟩

/-- Only addresses already handed out can be read. -/
theorem lt_size_of_get {h : Heap B} {a : ℕ} {x : B} (hget : h.get a = some x) : a < h.size := by
  by_contra hlt
  have hnone : h.cells[a]? = none := List.getElem?_eq_none (Nat.le_of_not_lt hlt)
  simp [get, hnone] at hget

/-- Allocation adds the fresh address and changes no other. -/
theorem get_alloc (h : Heap B) (x : B) (b : ℕ) :
    (h.alloc x).get b = if b = h.size then some x else h.get b := by
  unfold get alloc size
  rcases Nat.lt_trichotomy b h.cells.length with hlt | rfl | hgt
  · rw [List.getElem?_append_left hlt, if_neg (by omega)]
  · simp
  · rw [List.getElem?_eq_none (by simp; omega), List.getElem?_eq_none (by omega), if_neg (by omega)]

/-- Setting one allocated cell changes that cell only. -/
theorem get_set (h : Heap B) (a b : ℕ) (x : Option B) (ha : a < h.size) :
    (⟨h.cells.set a x⟩ : Heap B).get b = if b = a then x else h.get b := by
  unfold get
  rw [List.getElem?_set]
  rcases eq_or_ne a b with rfl | hne
  · have hlen : a < h.cells.length := ha
    simp [hlen]
  · simp [hne, hne.symm]

/-- An update needs a live object, and changes that object only. -/
theorem modify_eq_some_iff (h h' : Heap B) (a : ℕ) (f : B → B) :
    h.modify a f = some h' ↔ ∃ x, h.get a = some x ∧ ⟨h.cells.set a (some (f x))⟩ = h' :=
  Option.map_eq_some_iff

/-- What an update changes, read back at every address. -/
theorem get_of_modify {h h' : Heap B} {a : ℕ} {f : B → B} (hm : h.modify a f = some h') (b : ℕ) :
    h'.get b = if b = a then (h.get a).map f else h.get b := by
  obtain ⟨x, hx, rfl⟩ := (modify_eq_some_iff h h' a f).mp hm
  rw [get_set h a b _ (lt_size_of_get hx), hx]
  rfl

/-- A live object can be updated. -/
theorem exists_modify {h : Heap B} {a : ℕ} {x : B} (f : B → B) (hx : h.get a = some x) :
    ∃ h', h.modify a f = some h' := by
  simp [modify, hx]

/-- Freeing removes one object and changes no other. -/
theorem get_of_free {h h' : Heap B} {a : ℕ} (hf : h.free a = some h') (b : ℕ) :
    h'.get b = if b = a then none else h.get b := by
  obtain ⟨x, hx, rfl⟩ := Option.map_eq_some_iff.mp hf
  exact get_set h a b none (lt_size_of_get hx)

/-- A live object can be freed. -/
theorem exists_free {h : Heap B} {a : ℕ} {x : B} (hx : h.get a = some x) :
    ∃ h', h.free a = some h' := by
  simp [free, hx]

end Heap

end TcpClb.Common
