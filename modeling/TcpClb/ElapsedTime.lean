import Mathlib.Algebra.Order.Group.Unbundled.Int
import TcpClb.IdCalls

/-!
# Elapsed times and deadlines

`lookup_ID_idq` subtracts seconds and microseconds apart and divides the microseconds, of which the difference
may be negative, by 1000. `list_expired_idq` compares the deadline `ETime` with the clock, seconds first. For
times with less than a million microseconds both agree with the time that has passed in microseconds. But the
sweep prints the parameter of an entry before it marks it, and gets to neither if that is no string.
-/

namespace TcpClb

open TcpClb.Common

variable {F P : Type}

/-- There is less than a second of microseconds. -/
def Timeval.Normalised (t : Timeval) : Prop := 0 ≤ t.tvUsec ∧ t.tvUsec < 1000000

instance (t : Timeval) : Decidable t.Normalised := inferInstanceAs (Decidable (_ ∧ _))

/-- The time in microseconds. -/
def Timeval.usec (t : Timeval) : ℤ := t.tvSec * 1000000 + t.tvUsec

/-- All clock readings of the call are normalised. -/
def IdCall.Normalised : IdCall F P → Prop
  | .addEntry _ _ _ _ now => now.Normalised
  | .updateEntry _ _ _ now => now.Normalised
  | .listExpired now _ => ∀ i, (now i).Normalised
  | .remId _ => True

/-- The times that are computed from the table are those that have passed. A lookup measures the time since
`ATime` in milliseconds. It is not negative, never decreases as the clock goes on, and is less than a
millisecond away from the true time. A sweep marks the entries for which more than `EXPIRY` seconds have passed,
and for these a lookup then measures at least as much. -/
structure IdTable.TimesAgree (s : IdTable F P) (now : ℕ → Timeval) (printable : P → Bool) : Prop where
  measured : ∀ tid curr found, lookupIDIdq s.gtsidq tid curr = some found →
    ∃ e ∈ s.gtsidq, e.id = tid ∧ found.elapsedMsecs = elapsedMsecs e.aTime curr
  nonneg : ∀ e ∈ s.gtsidq, ∀ curr : Timeval, curr.Normalised → e.aTime.usec ≤ curr.usec →
    0 ≤ elapsedMsecs e.aTime curr
  monotone : ∀ e ∈ s.gtsidq, ∀ curr later : Timeval, curr.Normalised → later.Normalised →
    e.aTime.usec ≤ curr.usec → curr.usec ≤ later.usec → elapsedMsecs e.aTime curr ≤ elapsedMsecs e.aTime later
  close : ∀ e ∈ s.gtsidq, ∀ curr : Timeval, curr.Normalised → e.aTime.usec ≤ curr.usec →
    |elapsedMsecs e.aTime curr * 1000 - (curr.usec - e.aTime.usec)| < 1000
  marks : ∃ swept, listExpiredIdq printable s.gtsidq now = some swept ∧
    ∀ i : ℕ, swept[i]? = s.gtsidq[i]?.map fun e => { e with
      isExpired := decide (expiry * 1000000 < (now i).usec - e.aTime.usec) || e.isExpired }
  marksLate : ∀ e ∈ s.gtsidq, ∀ now : Timeval, now.Normalised →
    expiry * 1000000 < now.usec - e.aTime.usec → expiry * 1000 ≤ elapsedMsecs e.aTime now

/-- An entry was registered at a normalised time and expires `EXPIRY` seconds later. -/
structure Tsidque.Timed (e : Tsidque F P) : Prop where
  normalised : e.aTime.Normalised
  deadline : e.eTime = e.aTime.addExpiry

section Times

variable {aTime curr later now : Timeval}

/-- The quotient of the microseconds is less than one away from the fraction, and not on the other side of
zero. -/
theorem tdiv_thousand (u : ℤ) : 0 ≤ u ∧ u.tdiv 1000 * 1000 ≤ u ∧ u < u.tdiv 1000 * 1000 + 1000 ∨
    u < 0 ∧ u ≤ u.tdiv 1000 * 1000 ∧ u.tdiv 1000 * 1000 - 1000 < u := by
  by_cases hu : 0 ≤ u
  · rw [Int.tdiv_eq_ediv_of_nonneg hu]
    omega
  · have hneg : u.tdiv 1000 = -((-u) / 1000) := by
      rw [← Int.tdiv_eq_ediv_of_nonneg (by omega), Int.neg_tdiv, Int.neg_neg]
    rw [hneg]
    omega

/-- A time that has passed is not measured as negative. -/
theorem elapsedMsecs_nonneg (ha : aTime.Normalised) (hc : curr.Normalised) (hle : aTime.usec ≤ curr.usec) :
    0 ≤ elapsedMsecs aTime curr := by
  obtain ⟨ha, ha'⟩ := ha
  obtain ⟨hc, hc'⟩ := hc
  simp only [Timeval.usec] at hle
  have hdiv := tdiv_thousand (curr.tvUsec - aTime.tvUsec)
  rw [elapsedMsecs]
  omega

/-- What is measured is less than a millisecond away from the true time. -/
theorem elapsedMsecs_close (aTime curr : Timeval) :
    |elapsedMsecs aTime curr * 1000 - (curr.usec - aTime.usec)| < 1000 := by
  have hdiv := tdiv_thousand (curr.tvUsec - aTime.tvUsec)
  rw [abs_lt, elapsedMsecs, Timeval.usec, Timeval.usec]
  omega

/-- What is measured does not decrease: when the clock passes the microseconds of `ATime`, the quotient goes from
below to above zero at a full second. -/
theorem elapsedMsecs_mono (ha : aTime.Normalised) (hc : curr.Normalised) (hl : later.Normalised)
    (hle : curr.usec ≤ later.usec) : elapsedMsecs aTime curr ≤ elapsedMsecs aTime later := by
  obtain ⟨ha, ha'⟩ := ha
  obtain ⟨hc, hc'⟩ := hc
  obtain ⟨hl, hl'⟩ := hl
  simp only [Timeval.usec] at hle
  have hdiv := tdiv_thousand (curr.tvUsec - aTime.tvUsec)
  have hdiv' := tdiv_thousand (later.tvUsec - aTime.tvUsec)
  rw [elapsedMsecs, elapsedMsecs]
  omega

/-- The deadline is before the clock exactly if more than `EXPIRY` seconds have passed. -/
theorem before_addExpiry_iff (ha : aTime.Normalised) (hn : now.Normalised) :
    aTime.addExpiry.before now = true ↔ expiry * 1000000 < now.usec - aTime.usec := by
  obtain ⟨ha, ha'⟩ := ha
  obtain ⟨hn, hn'⟩ := hn
  rw [Timeval.before, Bool.or_eq_true, Bool.and_eq_true, decide_eq_true_iff, decide_eq_true_iff, beq_iff_eq]
  simp only [Timeval.addExpiry, Timeval.usec, expiry]
  omega

/-- Then a lookup measures at least as much. -/
theorem le_elapsedMsecs_of_expired (hlate : expiry * 1000000 < now.usec - aTime.usec) :
    expiry * 1000 ≤ elapsedMsecs aTime now := by
  have hclose := abs_lt.mp (elapsedMsecs_close aTime now)
  rw [expiry] at hlate ⊢
  omega

end Times

/-- Entries that were registered by the clock have times that agree, in a sweep that gets to its end. -/
theorem IdTable.timesAgree_of_timed {s : IdTable F P} (hs : ∀ e ∈ s.gtsidq, e.Timed) {now : ℕ → Timeval}
    (hnow : ∀ i, (now i).Normalised) {printable : P → Bool} (hprints : PrintsExpired printable s.gtsidq now) :
    s.TimesAgree now printable where
  measured tid curr found hfound := by
    rw [lookupIDIdq] at hfound
    obtain ⟨_, hfound⟩ := Option.ite_none_left_eq_some.mp hfound
    obtain ⟨e, he, rfl⟩ := Option.map_eq_some_iff.mp hfound
    exact ⟨e, mem_of_entryOf he, id_of_entryOf he, rfl⟩
  nonneg e he curr hcurr hle := elapsedMsecs_nonneg (hs e he).normalised hcurr hle
  monotone e he curr later hcurr hlater _ hle := elapsedMsecs_mono (hs e he).normalised hcurr hlater hle
  close e _ curr _ _ := elapsedMsecs_close e.aTime curr
  marks := by
    refine ⟨_, (listExpiredIdq_eq_some_iff printable _ _ now).mpr ⟨hprints, rfl⟩, fun i => ?_⟩
    rw [getElem?_sweptIdq]
    refine Option.map_congr fun e he => ?_
    obtain ⟨hnormal, hdeadline⟩ := hs e (List.mem_of_getElem? he)
    have hbefore : e.eTime.before (now i) = decide (expiry * 1000000 < (now i).usec - e.aTime.usec) := by
      rw [Bool.eq_iff_iff, decide_eq_true_iff, hdeadline]
      exact before_addExpiry_iff hnormal (hnow i)
    rw [markExpired_eq, hbefore]
  marksLate e _ now _ hlate := le_elapsedMsecs_of_expired hlate

/-- A call whose clock readings are normalised keeps the entries so. -/
theorem IdTable.call_timed {s s' : IdTable F P} {a : IdCall F P} (hcall : s.call a = some s')
    (hclock : a.Normalised) (hs : ∀ e ∈ s.gtsidq, e.Timed) : ∀ e ∈ s'.gtsidq, e.Timed := by
  intro e he
  rcases IdTable.call_times hcall he with ⟨d, hd, haTime, heTime⟩ | ⟨now, hnow, haTime, heTime⟩
  · obtain ⟨hnormal, hdeadline⟩ := hs d hd
    exact ⟨haTime ▸ hnormal, by rw [heTime, haTime, hdeadline]⟩
  · refine ⟨?_, by rw [heTime, haTime]⟩
    rw [haTime]
    cases a with
    | addEntry | updateEntry =>
      cases hnow
      exact hclock
    | listExpired | remId => cases hnow

/-- In every run of calls on the empty table with a normalised clock, the entries are registered by it. -/
theorem IdTable.timed_of_run {calls : List (IdCall F P)} {s : IdTable F P}
    (hrun : runActions IdTable.call .empty calls = some s) (hclock : ∀ a ∈ calls, a.Normalised) :
    ∀ e ∈ s.gtsidq, e.Timed := by
  have hall : Throughout IdTable.call (fun s : IdTable F P => ∀ e ∈ s.gtsidq, e.Timed) .empty calls :=
    throughout_of_eachStep IdTable.call (fun _ a => a.Normalised) _ _ (fun _ hs => hs)
      (fun s a s' hs hnormal hcall => IdTable.call_timed hcall hnormal hs) .empty calls
      (fun e he => absurd he List.not_mem_nil) (eachStep_of_forall _ _ _ _ hclock)
  exact throughout_final IdTable.call _ _ _ calls hall hrun

/-- After every run of calls on the empty table with a normalised clock, the times agree in a sweep if and only if
the parameter of each entry that it finds expired is a string, or `NULL`. -/
theorem timesAgree_iff {calls : List (IdCall F P)} {s : IdTable F P}
    (hrun : runActions IdTable.call .empty calls = some s) (hclock : ∀ a ∈ calls, a.Normalised)
    {now : ℕ → Timeval} (hnow : ∀ i, (now i).Normalised) (printable : P → Bool) :
    s.TimesAgree now printable ↔ PrintsExpired printable s.gtsidq now := by
  constructor
  · intro hs
    obtain ⟨swept, hswept, _⟩ := hs.marks
    exact ((listExpiredIdq_eq_some_iff printable _ _ now).mp hswept).1
  · exact IdTable.timesAgree_of_timed (IdTable.timed_of_run hrun hclock) hnow

/-- An id is added just before a full second. The parameter says whether it can be printed. -/
def addedLate (callbackParam : Bool) : List (IdCall Unit Bool) :=
  [.addEntry [⟨3, 1, 0⟩] ['a'] () callbackParam ⟨0, 999999⟩]

/-- The table with it. -/
def addedLateTable (callbackParam : Bool) : IdTable Unit Bool :=
  ⟨[⟨['a'], 0, false, ⟨0, 999999⟩, ⟨30, 999999⟩, (), callbackParam⟩], 0⟩

/-- A sweep marks it where the parameter is a string. -/
theorem addedLate_timesAgree : (addedLateTable true).TimesAgree (fun _ => ⟨31, 0⟩) id := by
  have hrun : runActions IdTable.call .empty (addedLate true) = some (addedLateTable true) := rfl
  have hclock : ∀ a ∈ addedLate true, a.Normalised :=
    List.forall_mem_singleton.mpr (show Timeval.Normalised ⟨0, 999999⟩ from by decide)
  refine (timesAgree_iff hrun hclock (fun _ => by decide) id).mpr fun i e he _ => ?_
  obtain rfl := List.mem_singleton.mp (List.mem_of_getElem? he)
  rfl

/-- Where it is none, the sweep does not get to the mark. -/
theorem addedLate_not_timesAgree : runActions IdTable.call .empty (addedLate false) = some (addedLateTable false) ∧
    ¬ (addedLateTable false).TimesAgree (fun _ => ⟨31, 0⟩) id := by
  refine ⟨rfl, fun hs => ?_⟩
  obtain ⟨swept, hswept, _⟩ := hs.marks
  cases hswept

end TcpClb
