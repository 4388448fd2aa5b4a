import TcpClb.Common.Runs
import Mathlib.Data.List.Nodup

/-!
# The history of a stack

What has been pushed on a stack, popped from it and cleared. A history is that of a stack if it can be replayed: every
pop took what was pushed last and was still there. Then nothing is popped more often than it has been pushed.
-/

namespace TcpClb.Common

variable {α : Type*}

/-- One operation on the stack, with its outcome. -/
inductive StackEvent (α : Type*)
  | pushed (a : α)
  | popped (a : α)
  | cleared
  deriving DecidableEq

/-- What has been pushed, in order. -/
def pushedIn : List (StackEvent α) → List α
  | [] => []
  | .pushed a :: rest => a :: pushedIn rest
  | .popped _ :: rest => pushedIn rest
  | .cleared :: rest => pushedIn rest

/-- What has been popped, in order. -/
def poppedIn : List (StackEvent α) → List α
  | [] => []
  | .pushed _ :: rest => poppedIn rest
  | .popped a :: rest => a :: poppedIn rest
  | .cleared :: rest => poppedIn rest

variable [DecidableEq α]

/-- The stack after one operation; undefined if something else is on top. -/
def stackStep : List α → StackEvent α → Option (List α)
  | st, .pushed a => some (a :: st)
  | [], .popped _ => none
  | b :: st, .popped a => if a = b then some st else none
  | _, .cleared => some []

/-- The history is that of a stack, which now holds these elements, the last pushed first. -/
def Replays (log : List (StackEvent α)) (st : List α) : Prop := runActions stackStep [] log = some st

omit [DecidableEq α] in
/-- What has been pushed in two histories. -/
theorem pushedIn_append (first second : List (StackEvent α)) :
    pushedIn (first ++ second) = pushedIn first ++ pushedIn second := by
  induction first with
  | nil => rfl
  | cons e rest ih =>
    cases e with
    | pushed a => exact congrArg (a :: ·) ih
    | popped | cleared => exact ih

omit [DecidableEq α] in
/-- What has been popped in two histories. -/
theorem poppedIn_append (first second : List (StackEvent α)) :
    poppedIn (first ++ second) = poppedIn first ++ poppedIn second := by
  induction first with
  | nil => rfl
  | cons e rest ih =>
    cases e with
    | popped a => exact congrArg (a :: ·) ih
    | pushed | cleared => exact ih

/-- One more operation at the end of a history. -/
theorem Replays.snoc {log : List (StackEvent α)} {st st' : List α} (h : Replays log st) {e : StackEvent α}
    (hstep : stackStep st e = some st') : Replays (log ++ [e]) st' :=
  runActions_snoc stackStep [] st st' log e h hstep

/-- Whatever was there at first or has been pushed is popped, still there or has been cleared. -/
theorem count_popped_add_le {st st' : List α} {log : List (StackEvent α)}
    (h : runActions stackStep st log = some st') (a : α) :
    (poppedIn log).count a + st'.count a ≤ st.count a + (pushedIn log).count a := by
  induction log generalizing st with
  | nil =>
    obtain rfl : st = st' := Option.some.inj h
    simp [poppedIn, pushedIn]
  | cons e rest ih =>
    obtain ⟨next, hstep, hrest⟩ := (runActions_cons_eq_some stackStep st st' e rest).mp h
    have hle := ih hrest
    cases e with
    | pushed b =>
      obtain rfl : b :: st = next := Option.some.inj hstep
      rw [List.count_cons] at hle
      rw [poppedIn, pushedIn, List.count_cons]
      omega
    | popped b =>
      cases st with
      | nil => cases hstep
      | cons c st =>
        obtain ⟨rfl, hnext⟩ := Option.ite_none_right_eq_some.mp hstep
        obtain rfl : st = next := Option.some.inj hnext
        rw [poppedIn, pushedIn, List.count_cons, List.count_cons]
        omega
    | cleared =>
      obtain rfl : [] = next := Option.some.inj hstep
      rw [List.count_nil] at hle
      rw [poppedIn, pushedIn]
      omega

/-- If nothing has been pushed twice, nothing has been popped twice, and what is still there has not been popped. -/
theorem Replays.nodup {log : List (StackEvent α)} {st : List α} (h : Replays log st) (hnodup : (pushedIn log).Nodup) :
    (poppedIn log ++ st).Nodup := by
  rw [List.nodup_iff_count_le_one]
  intro a
  have hle := count_popped_add_le h a
  have hone := List.nodup_iff_count_le_one.mp hnodup a
  rw [List.count_append]
  rw [List.count_nil] at hle
  omega

end TcpClb.Common
