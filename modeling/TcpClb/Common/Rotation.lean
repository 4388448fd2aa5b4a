import Mathlib.Algebra.Order.Floor.Div
import Mathlib.Data.List.Nodup

/-!
# Taking turns

The front of a queue has its turn and then goes to the back. Over any number of turns, every
member of a queue without repetitions has had its turn equally often, up to one.
-/

namespace TcpClb.Common

variable {α : Type*}

/-- Who has the first `k` turns. -/
def turns : ℕ → List α → List α
  | 0, _ => []
  | _ + 1, [] => []
  | k + 1, a :: rest => a :: turns k (rest ++ [a])

/-- Only members of the queue have a turn. -/
theorem mem_of_mem_turns {k : ℕ} {queue : List α} {a : α} (ha : a ∈ turns k queue) : a ∈ queue := by
  induction k generalizing queue with
  | zero => cases ha
  | succ k ih =>
    cases queue with
    | nil => cases ha
    | cons x rest =>
      rcases List.mem_cons.mp ha with rfl | ha
      · exact List.mem_cons_self
      · have hmem := ih ha
        rw [List.mem_append, List.mem_singleton] at hmem
        rw [List.mem_cons]
        exact hmem.symm

/-- As long as the queue has members, somebody has each turn. -/
theorem length_turns (k : ℕ) (queue : List α) (hqueue : queue ≠ []) : (turns k queue).length = k := by
  induction k generalizing queue with
  | zero => rfl
  | succ k ih =>
    cases queue with
    | nil => exact absurd rfl hqueue
    | cons a rest =>
      rw [turns, List.length_cons, ih (rest ++ [a]) (by simp)]

/-- A member at position `i` has had its turn when `i + 1` turns are over, and again after every
round of the queue. -/
theorem count_turns [DecidableEq α] (k : ℕ) (queue : List α) (hnodup : queue.Nodup) (a : α)
    (ha : a ∈ queue) :
    (turns k queue).count a = (k + queue.length - 1 - queue.idxOf a) / queue.length := by
  induction k generalizing queue with
  | zero =>
    have hlt := List.idxOf_lt_length_iff.mpr ha
    rw [turns, List.count_nil, Nat.div_eq_of_lt]
    omega
  | succ k ih =>
    cases queue with
    | nil => cases ha
    | cons x rest =>
      have hrotated : (rest ++ [x]).Nodup := (List.perm_append_singleton x rest).nodup_iff.mpr hnodup
      have hlength : (rest ++ [x]).length = (x :: rest).length := by simp
      have hrest := ih (rest ++ [x]) hrotated (by simpa [or_comm] using ha)
      rw [hlength] at hrest
      obtain ⟨hnotin, _⟩ := List.nodup_cons.mp hnodup
      rw [turns, List.count_cons, hrest]
      by_cases hx : x = a
      · subst hx
        have hidx : (rest ++ [x]).idxOf x = rest.length := by
          rw [List.idxOf_append_of_notMem hnotin, List.idxOf_cons_self, Nat.add_zero]
        have hlast : k + (x :: rest).length - 1 - rest.length = k := by
          rw [List.length_cons]
          omega
        have hround : k + 1 + (x :: rest).length - 1 - 0 = k + (x :: rest).length := by omega
        have hpos : 0 < (x :: rest).length := Nat.succ_pos _
        rw [hidx, hlast, List.idxOf_cons_self, hround, Nat.add_div_right k hpos, if_pos (by simp)]
      · have hmem : a ∈ rest := (List.mem_cons.mp ha).resolve_left (Ne.symm hx)
        have hlt := List.idxOf_lt_length_iff.mpr hmem
        rw [List.idxOf_append_of_mem hmem, List.idxOf_cons_ne rest hx, if_neg (by simpa using hx),
          Nat.add_zero, List.length_cons]
        congr 1
        omega

/-- After `k` turns in a queue of `u` members, each has had the floor or the ceiling of `k / u`. -/
theorem count_turns_balanced [DecidableEq α] (k : ℕ) (queue : List α) (hnodup : queue.Nodup) (a : α)
    (ha : a ∈ queue) :
    (turns k queue).count a = k / queue.length ∨ (turns k queue).count a = k ⌈/⌉ queue.length := by
  have hlt := List.idxOf_lt_length_iff.mpr ha
  have hpos : 0 < queue.length := Nat.zero_lt_of_lt hlt
  rw [count_turns k queue hnodup a ha, Nat.ceilDiv_eq_add_pred_div]
  have hlow : k / queue.length ≤ (k + queue.length - 1 - queue.idxOf a) / queue.length :=
    Nat.div_le_div_right (by omega)
  have hhigh : (k + queue.length - 1 - queue.idxOf a) / queue.length ≤
      (k + queue.length - 1) / queue.length := Nat.div_le_div_right (by omega)
  have hstep : (k + queue.length - 1) / queue.length ≤ k / queue.length + 1 := by
    rw [← Nat.add_div_right k hpos]
    exact Nat.div_le_div_right (by omega)
  omega

end TcpClb.Common
