import Mathlib.Algebra.BigOperators.Group.Finset.Basic
import Mathlib.Algebra.Group.Action.Defs
import Mathlib.Algebra.Order.BigOperators.Group.Finset

/-!
# Counting threads by where they stand

Each of `n` threads stands at a place, and each place has a weight. The census is the sum of the weights: with weights
0 and 1 it counts the threads at some places, with others it measures how far all threads still have to go. When one
thread moves, the census changes by the difference of two weights.
-/

namespace TcpClb.Common

open Finset

variable {A : Type*}

/-- The sum of the weights of the places where the first `n` threads stand. -/
def census (n : ℕ) (place : ℕ → A) (weight : A → ℕ) : ℕ := ∑ i ∈ range n, weight (place i)

/-- The weights that count the places in a set. -/
def indicator (p : A → Bool) (a : A) : ℕ := if p a then 1 else 0

/-- One thread moves. -/
theorem census_update {n i : ℕ} (hi : i < n) (place : ℕ → A) (weight : A → ℕ) (a : A) :
    census n (Function.update place i a) weight + weight (place i) = census n place weight + weight a := by
  have hmem : i ∈ range n := mem_range.mpr hi
  have hothers : ∑ j ∈ (range n).erase i, weight (Function.update place i a j) =
      ∑ j ∈ (range n).erase i, weight (place j) :=
    sum_congr rfl fun j hj => by rw [Function.update_of_ne (ne_of_mem_erase hj)]
  have hnew := add_sum_erase (range n) (fun j => weight (Function.update place i a j)) hmem
  have hold := add_sum_erase (range n) (fun j => weight (place j)) hmem
  rw [Function.update_self] at hnew
  unfold census
  omega

/-- A thread that is not counted yet may stand anywhere. -/
theorem census_update_of_le {n i : ℕ} (hi : n ≤ i) (place : ℕ → A) (weight : A → ℕ) (a : A) :
    census n (Function.update place i a) weight = census n place weight := by
  refine sum_congr rfl fun j hj => ?_
  have hlt := mem_range.mp hj
  rw [Function.update_of_ne (by omega)]

/-- One thread more. -/
theorem census_succ (n : ℕ) (place : ℕ → A) (weight : A → ℕ) :
    census (n + 1) place weight = census n place weight + weight (place n) :=
  sum_range_succ _ n

/-- A new thread is added at some place. -/
theorem census_spawn (n : ℕ) (place : ℕ → A) (weight : A → ℕ) (a : A) :
    census (n + 1) (Function.update place n a) weight = census n place weight + weight a := by
  rw [census_succ, census_update_of_le (Nat.le_refl n), Function.update_self]

/-- The census is 0 exactly if every thread stands at a place of weight 0. -/
theorem census_eq_zero_iff {n : ℕ} {place : ℕ → A} {weight : A → ℕ} :
    census n place weight = 0 ↔ ∀ i < n, weight (place i) = 0 := by
  rw [census, sum_eq_zero_iff]
  exact forall_congr' fun i => imp_congr_left mem_range

/-- Somebody stands at a place of positive weight if the census is positive. -/
theorem exists_of_census_pos {n : ℕ} {place : ℕ → A} {weight : A → ℕ} (h : 0 < census n place weight) :
    ∃ i < n, 0 < weight (place i) := by
  by_contra hnone
  have hzero : census n place weight = 0 := census_eq_zero_iff.mpr fun i hi => by
    by_contra hne
    exact hnone ⟨i, hi, Nat.pos_of_ne_zero hne⟩
  omega

/-- One thread weighs no more than all. -/
theorem le_census {n i : ℕ} (hi : i < n) (place : ℕ → A) (weight : A → ℕ) : weight (place i) ≤ census n place weight :=
  single_le_sum (f := fun j => weight (place j)) (fun _ _ => Nat.zero_le _) (mem_range.mpr hi)

/-- A bound on the weights bounds the census. -/
theorem census_le_mul {n bound : ℕ} {place : ℕ → A} {weight : A → ℕ} (h : ∀ i < n, weight (place i) ≤ bound) :
    census n place weight ≤ n * bound := by
  have hsum := sum_le_card_nsmul (range n) (fun i => weight (place i)) bound fun i hi => h i (mem_range.mp hi)
  rwa [card_range, smul_eq_mul] at hsum

end TcpClb.Common
