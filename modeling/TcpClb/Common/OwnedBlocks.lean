import Mathlib.Data.List.Perm.Basic
import Mathlib.Logic.Function.Basic
import TcpClb.Common.Runs

/-!
# Blocks of memory that a program has to free

A program makes blocks, frees them, hands them over to somebody else, and forgets pointers to them. Freeing or handing
over a block that is not its own any more is an error. Which variables hold a block of its own can be followed without
the memory; a program that passes this check makes no error from any state, leaves the blocks it finds alone, and ends
with one block more for each variable that still holds one. If nobody looks at these variables again, the blocks are
lost.
-/

namespace TcpClb.Common

variable {V : Type*} [DecidableEq V]

/-- What a program does with the blocks that its variables point to. -/
inductive MemOp (V : Type*)
  | calloc (v : V)
  | free (v : V)
  | give (v : V)
  | null (v : V)
  deriving DecidableEq

/-- The number of blocks made so far, those that the program has to free, and what its variables point to. -/
structure Memory (V : Type*) where
  made : ℕ
  mine : List ℕ
  var : V → Option ℕ

/-- No block has been made yet. -/
def Memory.empty : Memory V := ⟨0, [], fun _ => none⟩

/-- Give up a block, which has to be the program's own. -/
def Memory.drop (m : Memory V) (b : ℕ) : Option (Memory V) :=
  if b ∈ m.mine then some { m with mine := m.mine.erase b } else none

/-- Perform one operation. Freeing `NULL` does nothing, but it cannot be handed over. -/
def memStep (m : Memory V) : MemOp V → Option (Memory V)
  | .calloc v => some ⟨m.made + 1, m.made :: m.mine, Function.update m.var v (some m.made)⟩
  | .free v =>
    match m.var v with
    | none => some m
    | some b => m.drop b
  | .give v => (m.var v).bind m.drop
  | .null v => some { m with var := Function.update m.var v none }

/-- The variables that hold a block of the program's own, after one operation. An operation that would lose one of them
or use a variable that holds none is refused. -/
def ownStep (owned : List V) : MemOp V → Option (List V)
  | .calloc v => if v ∈ owned then none else some (v :: owned)
  | .free v | .give v => if v ∈ owned then some (owned.erase v) else none
  | .null v => if v ∈ owned then none else some owned

/-- The program's own blocks are the given ones and those that the variables hold. -/
structure Memory.Owns (base : List ℕ) (owned : List V) (m : Memory V) : Prop where
  held : ∀ v ∈ owned, (m.var v).isSome = true
  mine : m.mine.Perm (owned.filterMap m.var ++ base)
  made : ∀ b ∈ m.mine, b < m.made
  nodup : m.mine.Nodup

section Rules

variable {base : List ℕ} {owned owned' : List V} {m : Memory V}

/-- What is written to a variable that is not owned does not matter. -/
theorem filterMap_update {v : V} (hv : v ∉ owned) (b : Option ℕ) :
    owned.filterMap (Function.update m.var v b) = owned.filterMap m.var :=
  List.filterMap_congr fun _ hw => Function.update_of_ne (ne_of_mem_of_not_mem hw hv) b m.var

/-- A block that a variable holds can be given up. -/
theorem Memory.Owns.exists_drop (hm : m.Owns base owned) {v : V} (hv : v ∈ owned) :
    ∃ b m', m.var v = some b ∧ m.drop b = some m' ∧ m'.Owns base (owned.erase v) := by
  obtain ⟨b, hb⟩ := Option.isSome_iff_exists.mp (hm.held v hv)
  have hsplit : m.mine.Perm (b :: ((owned.erase v).filterMap m.var ++ base)) := by
    have hperm := ((List.perm_cons_erase hv).filterMap m.var).append_right base
    rw [List.filterMap_cons_some hb, List.cons_append] at hperm
    exact hm.mine.trans hperm
  have hmem : b ∈ m.mine := hsplit.mem_iff.mpr List.mem_cons_self
  refine ⟨b, { m with mine := m.mine.erase b }, hb, if_pos hmem, ?_, ?_, ?_, hm.nodup.erase b⟩
  · exact fun w hw => hm.held w (List.mem_of_mem_erase hw)
  · have herase := hsplit.erase b
    rwa [List.erase_cons_head] at herase
  · exact fun c hc => hm.made c (List.mem_of_mem_erase hc)

/-- An operation that passes the check is possible, and does to the variables what the check says. -/
theorem memStep_owns {op : MemOp V} (hm : m.Owns base owned) (hop : ownStep owned op = some owned') :
    ∃ m', memStep m op = some m' ∧ m'.Owns base owned' := by
  cases op with
  | calloc v =>
    obtain ⟨hv, h⟩ := Option.ite_none_left_eq_some.mp hop
    cases h
    refine ⟨_, rfl, fun w hw => ?_, ?_, fun b hb => ?_, List.nodup_cons.mpr ⟨fun hmem => ?_, hm.nodup⟩⟩
    · change (Function.update m.var v (some m.made) w).isSome = true
      rcases List.mem_cons.mp hw with rfl | hw
      · rw [Function.update_self]
        rfl
      · rw [Function.update_of_ne (ne_of_mem_of_not_mem hw hv)]
        exact hm.held w hw
    · rw [List.filterMap_cons_some (Function.update_self v (some m.made) m.var), filterMap_update hv]
      exact hm.mine.cons m.made
    · rcases List.mem_cons.mp hb with rfl | hb
      · exact Nat.lt_succ_self m.made
      · exact Nat.lt_succ_of_lt (hm.made b hb)
    · exact Nat.lt_irrefl m.made (hm.made m.made hmem)
  | free v =>
    obtain ⟨hv, h⟩ := Option.ite_none_right_eq_some.mp hop
    cases h
    obtain ⟨b, m', hb, hdrop, hm'⟩ := hm.exists_drop hv
    exact ⟨m', by rw [memStep, hb]; exact hdrop, hm'⟩
  | give v =>
    obtain ⟨hv, h⟩ := Option.ite_none_right_eq_some.mp hop
    cases h
    obtain ⟨b, m', hb, hdrop, hm'⟩ := hm.exists_drop hv
    exact ⟨m', by rw [memStep, hb]; exact hdrop, hm'⟩
  | null v =>
    obtain ⟨hv, h⟩ := Option.ite_none_left_eq_some.mp hop
    cases h
    refine ⟨_, rfl, fun w hw => ?_, ?_, hm.made, hm.nodup⟩
    · change (Function.update m.var v none w).isSome = true
      rw [Function.update_of_ne (ne_of_mem_of_not_mem hw hv)]
      exact hm.held w hw
    · rw [filterMap_update hv]
      exact hm.mine

/-- So is a program that passes it. -/
theorem runActions_owns {ops : List (MemOp V)} (hm : m.Owns base owned)
    (hops : runActions ownStep owned ops = some owned') :
    ∃ m', runActions memStep m ops = some m' ∧ m'.Owns base owned' := by
  induction ops generalizing m owned with
  | nil =>
    rw [runActions_nil, Option.some.injEq] at hops
    exact ⟨m, rfl, hops ▸ hm⟩
  | cons op ops ih =>
    obtain ⟨next, hop, hrest⟩ := (runActions_cons_eq_some ownStep owned owned' op ops).mp hops
    obtain ⟨m₁, hstep, hm₁⟩ := memStep_owns hm hop
    obtain ⟨m₂, hrun, hm₂⟩ := ih hm₁ hrest
    exact ⟨m₂, (runActions_cons_eq_some memStep m m₂ op ops).mpr ⟨m₁, hstep, hrun⟩, hm₂⟩

omit [DecidableEq V] in
/-- The number of the program's own blocks. -/
theorem Memory.Owns.length_mine (hm : m.Owns base owned) : m.mine.length = owned.length + base.length := by
  have hlen : (owned.filterMap m.var).length = owned.length := by
    rw [List.length_filterMap_eq_countP, List.countP_eq_length]
    exact hm.held
  rw [hm.mine.length_eq, List.length_append, hlen]

omit [DecidableEq V] in
/-- A program may forget which variables hold a block. -/
theorem Memory.Owns.forget (hm : m.Owns base owned) : m.Owns m.mine [] :=
  ⟨fun _ h => absurd h List.not_mem_nil, List.Perm.refl m.mine, hm.made, hm.nodup⟩

omit [DecidableEq V] in
/-- At the start there is nothing to free. -/
theorem Memory.empty_owns : (Memory.empty : Memory V).Owns [] [] :=
  ⟨fun _ h => absurd h List.not_mem_nil, List.Perm.refl [], fun _ h => absurd h List.not_mem_nil, List.nodup_nil⟩

end Rules

/-- Programs that are performed one after the other, each without a look at what the variables held before it, make no
error if each passes the check, and every variable that holds a block at the end of one of them is a block lost. -/
theorem runActions_flatMap_owns {A : Type*} (program : A → List (MemOp V)) (left : A → List V) {as : List A}
    (hall : ∀ a ∈ as, runActions ownStep [] (program a) = some (left a)) {m : Memory V} (hm : m.Owns m.mine []) :
    ∃ m', runActions memStep m (as.flatMap program) = some m' ∧ m'.Owns m'.mine [] ∧
      m'.mine.length = (as.flatMap left).length + m.mine.length := by
  induction as generalizing m with
  | nil => exact ⟨m, rfl, hm, (Nat.zero_add _).symm⟩
  | cons a as ih =>
    obtain ⟨ha, hrest⟩ := List.forall_mem_cons.mp hall
    obtain ⟨m₁, hfirst, hm₁⟩ := runActions_owns hm ha
    obtain ⟨m₂, hothers, hm₂, hlen⟩ := ih hrest hm₁.forget
    refine ⟨m₂, ?_, hm₂, ?_⟩
    · rw [List.flatMap_cons, runActions_append, hfirst, Option.bind_some, hothers]
    · rw [hlen, hm₁.length_mine, List.flatMap_cons, List.length_append, Nat.add_left_comm, Nat.add_assoc]

/-- A bound on what each of them loses bounds what all lose. -/
theorem length_flatMap_le {A B : Type*} (left : A → List B) {bound : ℕ} {as : List A}
    (hall : ∀ a ∈ as, (left a).length ≤ bound) : (as.flatMap left).length ≤ bound * as.length := by
  induction as with
  | nil => exact Nat.zero_le _
  | cons a as ih =>
    obtain ⟨ha, hrest⟩ := List.forall_mem_cons.mp hall
    rw [List.flatMap_cons, List.length_append, List.length_cons, Nat.mul_succ, Nat.add_comm]
    exact Nat.add_le_add (ih hrest) ha

end TcpClb.Common
