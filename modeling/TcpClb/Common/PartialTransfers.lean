import Mathlib.Data.List.Basic

/-!
# Transfers in several calls

A call that moves bytes between a buffer and a descriptor may move fewer than it was asked for. A loop
around it goes on behind what was moved and asks for all that is left. Such calls stay within the
buffer; they write the bytes one behind the other, and read them in the same way.
-/

namespace TcpClb.Common

variable {α : Type}

/-- One call: where in the buffer it starts, how much it may move at most, and what it moves. -/
structure Chunk (α : Type) where
  offset : ℕ
  asked : ℕ
  moved : List α
  deriving DecidableEq

/-- What several calls move. -/
def movedBy (calls : List (Chunk α)) : List α := calls.flatMap Chunk.moved

/-- From position `start` on every call starts where the one before it has stopped, and asks for all that
is left of `size`. -/
def Consecutive (size : ℕ) : ℕ → List (Chunk α) → Prop
  | _, [] => True
  | start, call :: calls => call.offset = start ∧ start + call.asked = size ∧
      call.moved.length ≤ call.asked ∧ Consecutive size (start + call.moved.length) calls

/-- A buffer after a call that writes into it. -/
def writeAt (buf : List α) (call : Chunk α) : List α :=
  buf.take call.offset ++ call.moved ++ buf.drop (call.offset + call.moved.length)

@[simp] theorem movedBy_nil : movedBy ([] : List (Chunk α)) = [] := rfl

@[simp] theorem movedBy_cons (call : Chunk α) (calls : List (Chunk α)) :
    movedBy (call :: calls) = call.moved ++ movedBy calls := List.flatMap_cons

@[simp] theorem movedBy_append (calls calls' : List (Chunk α)) :
    movedBy (calls ++ calls') = movedBy calls ++ movedBy calls' := List.flatMap_append

/-- Every call starts behind what was moved before it, and ends at the end. -/
theorem Consecutive.call {size start : ℕ} {before after : List (Chunk α)} {call : Chunk α}
    (h : Consecutive size start (before ++ call :: after)) :
    call.offset = start + (movedBy before).length ∧ call.offset + call.asked = size := by
  induction before generalizing start with
  | nil =>
    obtain ⟨hoffset, hasked, _⟩ := h
    exact ⟨hoffset, hoffset ▸ hasked⟩
  | cons first before ih =>
    obtain ⟨_, _, _, hbehind⟩ := h
    obtain ⟨hoffset, hend⟩ := ih hbehind
    refine ⟨?_, hend⟩
    rw [hoffset, movedBy_cons, List.length_append, Nat.add_assoc]

/-- No call reaches behind the end. -/
theorem Consecutive.inBounds {size start : ℕ} {calls : List (Chunk α)} (h : Consecutive size start calls)
    (call : Chunk α) (hmem : call ∈ calls) : call.offset + call.asked = size := by
  obtain ⟨before, after, rfl⟩ := List.append_of_mem hmem
  exact h.call.2

/-- One more call behind consecutive ones. -/
theorem Consecutive.concat {size start : ℕ} {calls : List (Chunk α)} {call : Chunk α}
    (h : Consecutive size start calls) (hoffset : call.offset = start + (movedBy calls).length)
    (hasked : call.offset + call.asked = size) (hmoved : call.moved.length ≤ call.asked) :
    Consecutive size start (calls ++ [call]) := by
  induction calls generalizing start with
  | nil =>
    have hstart : call.offset = start := hoffset
    exact ⟨hstart, hstart ▸ hasked, hmoved, trivial⟩
  | cons first calls ih =>
    obtain ⟨hfirst, hfits, hshort, hbehind⟩ := h
    refine ⟨hfirst, hfits, hshort, ih hbehind ?_⟩
    rw [hoffset, movedBy_cons, List.length_append, Nat.add_assoc]

/-- The calls write what they move one behind the other, and leave the rest of the buffer alone. -/
theorem Consecutive.foldl_writeAt {size start : ℕ} {calls : List (Chunk α)}
    (h : Consecutive size start calls) (buf : List α) (hstart : start ≤ size) (hbuf : size ≤ buf.length) :
    calls.foldl writeAt buf =
      buf.take start ++ movedBy calls ++ buf.drop (start + (movedBy calls).length) := by
  induction calls generalizing start buf with
  | nil => simp
  | cons call calls ih =>
    obtain ⟨rfl, hasked, hmoved, hbehind⟩ := h
    have hfront : (buf.take call.offset ++ call.moved).length = call.offset + call.moved.length := by
      rw [List.length_append, List.length_take]
      omega
    have hwritten : size ≤ (writeAt buf call).length := by
      rw [writeAt, List.length_append, hfront, List.length_drop]
      omega
    rw [List.foldl_cons, ih hbehind _ (by omega) hwritten, writeAt, List.take_left' hfront,
      ← hfront, List.drop_length_add_append, List.drop_drop, hfront, movedBy_cons, List.length_append]
    simp only [List.append_assoc, Nat.add_assoc]

end TcpClb.Common
