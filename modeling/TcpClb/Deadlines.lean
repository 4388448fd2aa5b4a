import TcpClb.Responses

/-!
# Registration times and deadlines

The clock counts microseconds, and `gettimeofday` splits it into seconds and microseconds. An
entry is registered together with the moment at which it expires, and a sweep marks it once the
clock is past that moment. The theorems say what a push and a sweep do to the deadline and to the
expiry flag of the entry of an id.
-/

namespace TcpClb

open TcpClb.Common

variable {n : ℕ} {F P : Type}

/-- `gettimeofday` when the clock shows a number of microseconds. -/
def gettimeofday (clock : ℕ) : Timeval := ⟨(clock / 1000000 : ℕ), (clock % 1000000 : ℕ)⟩

/-- `EXPIRY` in microseconds. -/
def expiryUsec : ℕ := expiry.toNat * 1000000

/-- The comparison of the sweep asks whether more than `EXPIRY` seconds have passed. -/
theorem before_gettimeofday (pushed now : ℕ) :
    (gettimeofday pushed).addExpiry.before (gettimeofday now) = true ↔ pushed + expiryUsec < now := by
  have hexpiry : expiryUsec = 30 * 1000000 := rfl
  have hlt := Nat.mod_lt pushed (show 0 < 1000000 by omega)
  have hlt' := Nat.mod_lt now (show 0 < 1000000 by omega)
  have hdiv := Nat.div_add_mod pushed 1000000
  have hdiv' := Nat.div_add_mod now 1000000
  rw [Timeval.before, Bool.or_eq_true, Bool.and_eq_true, decide_eq_true_iff, decide_eq_true_iff, beq_iff_eq]
  simp only [Timeval.addExpiry, gettimeofday, expiry]
  omega

/-- The sweep marks the entry of an id if its deadline is before the clock reading for it. -/
theorem entryOf_sweptIdq_markExpired (head : List (Tsidque F P)) (now : ℕ → Timeval)
    (t : List Char) (e : Tsidque F P) (he : entryOf head t = some e) :
    ∃ i < head.length, entryOf (sweptIdq head now) t = some (e.markExpired (now i)) := by
  induction head generalizing now with
  | nil => cases he
  | cons current next ih =>
    have hid : (current.markExpired (now 0)).id = current.id := by rw [markExpired_eq]
    rw [entryOf_cons] at he
    simp only [sweptIdq, entryOf_cons, hid]
    by_cases ht : current.id = t
    · rw [if_pos ht, Option.some.injEq] at he
      exact ⟨0, Nat.zero_lt_succ _, by rw [if_pos ht, he]⟩
    · rw [if_neg ht] at he
      obtain ⟨i, hi, hentry⟩ := ih (fun i => now (i + 1)) he
      exact ⟨i + 1, Nat.succ_lt_succ hi, by rw [if_neg ht, hentry]⟩

/-- A sweep makes no entry. -/
theorem entryOf_of_sweptIdq {head : List (Tsidque F P)} {now : ℕ → Timeval} {t : List Char}
    {e' : Tsidque F P} (he' : entryOf (sweptIdq head now) t = some e') :
    ∃ e, entryOf head t = some e ∧ ∃ i < head.length, e' = e.markExpired (now i) := by
  obtain ⟨flag, hflag⟩ := entryOf_sweptIdq head now t
  rw [hflag] at he'
  obtain ⟨e, he, _⟩ := Option.map_eq_some_iff.mp he'
  obtain ⟨i, hi, hmark⟩ := entryOf_sweptIdq_markExpired head now t e he
  rw [hflag, he'] at hmark
  exact ⟨e, he, i, hi, Option.some.inj hmark⟩

/-- A push sets the deadline of the entry of its id and leaves the flag as it was, unset in a new
entry. The entries of the other ids stay as they were. -/
theorem entryOf_pushToMsgq {s s' : Store F P} {gconnList : List Con}
    (hwf : TableWf (getPeers gconnList) s.gtsidq) {tid : List Char} {len : ℤ} {data : Request}
    {callbackF : F} {callbackParam : P} {now : Timeval}
    (hpush : pushToMsgq s gconnList tid len data callbackF callbackParam now = some s')
    (t : List Char) (e' : Tsidque F P) (he' : entryOf s'.gtsidq t = some e') :
    (t = tid ∧ e'.eTime = now.addExpiry ∧
      e'.isExpired = (entryOf s.gtsidq tid).any Tsidque.isExpired) ∨
    (t ≠ tid ∧ entryOf s.gtsidq t = some e') := by
  by_cases ht : t = tid
  · subst ht
    refine Or.inl ⟨rfl, ?_⟩
    rcases pushToMsgq_eq_some hpush with ⟨hempty, rfl⟩ | ⟨htid, routed, linked, hrouted, _, rfl⟩
    · -- the empty id has no entry
      refine absurd ?_ hwf.nonempty
      rw [← hempty, ← entryOf_isSome_iff, he']
      rfl
    · cases he : entryOf s.gtsidq t with
      | none =>
        obtain ⟨assigned, _, rfl⟩ := routeId_eq_append htid he hrouted
        have hnew : t ∉ idsOf s.gtsidq := by
          rw [← entryOf_isSome_iff, he]
          exact Bool.false_ne_true
        rw [entryOf_append_new _ _ _ hnew, if_pos rfl, Option.some.injEq] at he'
        rw [← he']
        exact ⟨rfl, rfl⟩
      | some e =>
        rw [routeId_eq_update hwf s.glastConRr gconnList t htid callbackF callbackParam now e he,
          Option.some.injEq] at hrouted
        rw [← hrouted, entryOf_updateFrom, if_pos rfl, he, Option.map_some, Option.some.injEq] at he'
        rw [← he']
        exact ⟨rfl, rfl⟩
  · refine Or.inr ⟨ht, ?_⟩
    rcases pushToMsgq_eq_some hpush with ⟨_, rfl⟩ | ⟨htid, routed, linked, hrouted, _, rfl⟩
    · exact he'
    · have hroutes := routes_of_routeId hwf s.glastConRr tid htid callbackF callbackParam now routed hrouted
      rw [← hroutes.others t ht]
      exact he'

end TcpClb
