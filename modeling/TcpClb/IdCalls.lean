import TcpClb.Common.Runs
import TcpClb.IdTableRouting

/-!
# Calls on the id table

The functions of `task.c` that change `gtsidq`, called in any order and with any arguments, so also in orders
that the library itself never uses: an id can be added twice.
-/

namespace TcpClb

open TcpClb.Common

variable {F P : Type}

/-- A call, with what `gconn_list` holds and what `gettimeofday` returns during it, and which parameters lead to
strings. -/
inductive IdCall (F P : Type)
  | addEntry (gconnList : List Con) (tid : List Char) (callbackF : F) (callbackParam : P) (now : Timeval)
  | updateEntry (id : List Char) (callbackF : F) (callbackParam : P) (now : Timeval)
  | listExpired (now : ℕ → Timeval) (printable : P → Bool)
  | remId (tid : List Char)

/-- The table and the cursor of the round-robin search. -/
structure IdTable (F P : Type) where
  gtsidq : List (Tsidque F P)
  glastConRr : ℕ

/-- The empty table. -/
def IdTable.empty : IdTable F P := ⟨[], 0⟩

/-- Perform a call; impossible if it does not return. -/
def IdTable.call (s : IdTable F P) : IdCall F P → Option (IdTable F P)
  | .addEntry gconnList tid callbackF callbackParam now =>
    (addEntryIdq s.gtsidq s.glastConRr gconnList tid callbackF callbackParam now).map fun added =>
      ⟨added.1, added.2.1⟩
  | .updateEntry id callbackF callbackParam now =>
    some { s with gtsidq := (updateEntryIdq s.gtsidq id callbackF callbackParam now).1 }
  | .listExpired now printable =>
    (listExpiredIdq printable s.gtsidq now).map fun swept => { s with gtsidq := swept }
  | .remId tid => some { s with gtsidq := TcpClb.remId s.gtsidq tid }

/-- The clock reading that an entry gets from the call. -/
def IdCall.registers : IdCall F P → Option Timeval
  | .addEntry _ _ _ _ now => some now
  | .updateEntry _ _ _ now => some now
  | .listExpired _ _ => none
  | .remId _ => none

/-- Removal makes no entry. -/
theorem mem_of_mem_remId {head : List (Tsidque F P)} {tid : List Char} {e : Tsidque F P}
    (he : e ∈ remId head tid) : e ∈ head := by
  induction head with
  | nil => cases he
  | cons current next ih =>
    unfold remId at he
    by_cases hid : current.id = tid
    · rw [if_pos hid] at he
      exact List.mem_cons_of_mem current he
    · rw [if_neg hid] at he
      rcases List.mem_cons.mp he with rfl | he
      · exact List.mem_cons_self
      · exact List.mem_cons_of_mem current (ih he)

/-- After a call every entry has the times of an entry before it, or those of a registration by the call. -/
theorem IdTable.call_times {s s' : IdTable F P} {a : IdCall F P} (hcall : s.call a = some s')
    {e : Tsidque F P} (he : e ∈ s'.gtsidq) :
    (∃ d ∈ s.gtsidq, e.aTime = d.aTime ∧ e.eTime = d.eTime) ∨
      ∃ now, a.registers = some now ∧ e.aTime = now ∧ e.eTime = now.addExpiry := by
  cases a with
  | addEntry gconnList tid callbackF callbackParam now =>
    obtain ⟨added, hadded, rfl⟩ := Option.map_eq_some_iff.mp hcall
    unfold addEntryIdq at hadded
    split at hadded
    · cases hadded
      exact Or.inl ⟨e, he, rfl, rfl⟩
    · obtain ⟨assigned, _, rfl⟩ := Option.map_eq_some_iff.mp hadded
      rcases List.mem_append.mp he with hold | hnew
      · exact Or.inl ⟨e, hold, rfl, rfl⟩
      · rw [List.mem_singleton.mp hnew]
        exact Or.inr ⟨now, rfl, rfl, rfl⟩
  | updateEntry id callbackF callbackParam now =>
    cases hcall
    change e ∈ (updateEntryIdq s.gtsidq id callbackF callbackParam now).1 at he
    unfold updateEntryIdq at he
    split at he
    · cases he
    · rcases mem_updateFrom he with hold | ⟨d, _, rfl⟩
      · exact Or.inl ⟨e, hold, rfl, rfl⟩
      · exact Or.inr ⟨now, rfl, rfl, rfl⟩
  | listExpired now printable =>
    obtain ⟨swept, hswept, rfl⟩ := Option.map_eq_some_iff.mp hcall
    obtain ⟨_, rfl⟩ := (listExpiredIdq_eq_some_iff printable _ _ now).mp hswept
    obtain ⟨d, hd, i, rfl⟩ := mem_sweptIdq he
    exact Or.inl ⟨d, hd, by rw [markExpired_eq], by rw [markExpired_eq]⟩
  | remId tid =>
    cases hcall
    exact Or.inl ⟨e, mem_of_mem_remId he, rfl, rfl⟩

end TcpClb
