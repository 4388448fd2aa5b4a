import Mathlib.Data.Fintype.Card
import Mathlib.Data.Set.Finite.Basic
import Mathlib.Logic.Relation
import Mathlib.Order.WellFounded

/-!
# Threads that wait for mutexes

Which mutex each thread wants, and which thread owns each mutex. A thread waits for the owner of what it
wants, and for itself if it owns that already. Where nobody waits in a circle, a thread that owns nothing
may ask for any mutex, and a release does no harm; a thread that takes a mutex and then wants another one
closes a circle exactly if that is the one it has taken, or its owner waits for the one taken.
-/

namespace TcpClb.Common

open Relation

variable {T M : Type*}

/-- The mutex that each thread wants, and the owner of each mutex. -/
structure WaitGraph (T M : Type*) where
  wants : T → Option M
  owner : M → Option T

namespace WaitGraph

/-- The first thread wants a mutex of the second. -/
def Waits (g : WaitGraph T M) (t u : T) : Prop := ∃ m, g.wants t = some m ∧ g.owner m = some u

/-- No thread waits for itself, directly or through others. -/
def DeadlockFree (g : WaitGraph T M) : Prop := ∀ t, ¬ TransGen g.Waits t t

/-- A thread takes a mutex and then wants the next one, if any. -/
def acquire [DecidableEq T] [DecidableEq M] (g : WaitGraph T M) (t : T) (m : M) (next : Option M) :
    WaitGraph T M where
  wants := Function.update g.wants t next
  owner := Function.update g.owner m (some t)

/-- The next mutex is the one taken, or its owner waits for that, perhaps through others. -/
def Closes (g : WaitGraph T M) (m : M) (next : Option M) : Prop :=
  ∃ m', next = some m' ∧
    (m' = m ∨ ∃ u v, g.owner m' = some u ∧ ReflTransGen g.Waits u v ∧ g.wants v = some m)

/-- Who is waited for owns a mutex. -/
theorem owns_of_transGen {g : WaitGraph T M} {t u : T} (h : TransGen g.Waits t u) :
    ∃ m, g.owner m = some u := by
  obtain ⟨_, _, m, _, howner⟩ := TransGen.tail'_iff.mp h
  exact ⟨m, howner⟩

/-- Only threads that own something can be in a circle. -/
theorem DeadlockFree.of_owners {g g' : WaitGraph T M} (h : g.DeadlockFree)
    (hsub : ∀ t u, (∃ m, g'.owner m = some t) → g'.Waits t u → g.Waits t u) : g'.DeadlockFree := by
  intro t hcircle
  have howns := owns_of_transGen hcircle
  have hpath (u : T) (hpath : TransGen g'.Waits t u) : TransGen g.Waits t u := by
    induction hpath with
    | single hedge => exact TransGen.single (hsub _ _ howns hedge)
    | tail hbefore hedge ih => exact TransGen.tail ih (hsub _ _ (owns_of_transGen hbefore) hedge)
  exact h t (hpath t hcircle)

/-- Among finitely many threads some one waits for none of the others. -/
theorem DeadlockFree.exists_not_waits {g : WaitGraph T M} (h : g.DeadlockFree) {threads : Set T} (hfin : threads.Finite)
    (hne : threads.Nonempty) : ∃ t ∈ threads, ∀ u ∈ threads, ¬ g.Waits t u := by
  have : Finite threads := hfin
  let behind (u t : threads) : Prop := TransGen g.Waits t u
  have : IsTrans threads behind := ⟨fun _ _ _ hvu hut => TransGen.trans hut hvu⟩
  have : Std.Irrefl behind := ⟨fun t hcircle => h t hcircle⟩
  obtain ⟨t, ht⟩ := hne
  obtain ⟨first, _, hfirst⟩ := (Finite.wellFounded_of_trans_of_irrefl behind).has_min Set.univ ⟨⟨t, ht⟩, trivial⟩
  exact ⟨first, first.2, fun u hu hwaits => hfirst ⟨u, hu⟩ trivial (TransGen.single hwaits)⟩

section Acquire

variable [DecidableEq T] [DecidableEq M] {g : WaitGraph T M} {t : T} {m : M} {next : Option M}

/-- What the thread wants after it has taken the mutex. -/
theorem waits_acquire_self (u : T) : (g.acquire t m next).Waits t u ↔
    ∃ m', next = some m' ∧ (m' = m ∧ u = t ∨ m' ≠ m ∧ g.owner m' = some u) := by
  have hwants : (g.acquire t m next).wants t = next := Function.update_self ..
  rw [Waits, hwants]
  refine exists_congr fun m' => and_congr_right fun _ => ?_
  by_cases hm : m' = m
  · subst hm
    simp [acquire, eq_comm]
  · simp [acquire, hm]

/-- Another thread waits as before, or for the mutex that has been taken. -/
theorem waits_acquire_of_ne (hfree : g.owner m = none) {u v : T} (hu : u ≠ t) :
    (g.acquire t m next).Waits u v ↔ g.Waits u v ∨ g.wants u = some m ∧ v = t := by
  simp only [Waits, acquire, Function.update_of_ne hu]
  constructor
  · rintro ⟨m', hwants, howner⟩
    by_cases hm : m' = m
    · subst hm
      rw [Function.update_self, Option.some.injEq] at howner
      exact Or.inr ⟨hwants, howner.symm⟩
    · rw [Function.update_of_ne hm] at howner
      exact Or.inl ⟨m', hwants, howner⟩
  · rintro (⟨m', hwants, howner⟩ | ⟨hwants, rfl⟩)
    · have hm : m' ≠ m := by
        rintro rfl
        rw [hfree] at howner
        cases howner
      exact ⟨m', hwants, by rwa [Function.update_of_ne hm]⟩
    · exact ⟨m, hwants, Function.update_self ..⟩

omit [DecidableEq T] [DecidableEq M] in
/-- The thread has waited for nobody before, since nobody owned the mutex. -/
theorem not_waits_of_free (hwants : g.wants t = some m) (hfree : g.owner m = none) (u : T) : ¬ g.Waits t u := by
  rintro ⟨m', hwants', howner⟩
  rw [hwants, Option.some.injEq] at hwants'
  rw [← hwants', hfree] at howner
  cases howner

/-- Who has waited for somebody still does. -/
theorem waits_acquire_of_waits (hwants : g.wants t = some m) (hfree : g.owner m = none) {u v : T}
    (h : g.Waits u v) : (g.acquire t m next).Waits u v := by
  have hu : u ≠ t := by
    rintro rfl
    exact not_waits_of_free hwants hfree v h
  exact (waits_acquire_of_ne hfree hu).mpr (Or.inl h)

/-- Who waits for the thread afterwards has waited for it or for the mutex. -/
theorem exists_wants_of_reflTransGen (hwants : g.wants t = some m) (hfree : g.owner m = none) {u : T}
    (h : ReflTransGen (g.acquire t m next).Waits u t) :
    ∃ v, ReflTransGen g.Waits u v ∧ g.wants v = some m := by
  induction h using ReflTransGen.head_induction_on with
  | refl => exact ⟨t, .refl, hwants⟩
  | @head u w hedge _ ih =>
    by_cases hu : u = t
    · exact ⟨u, .refl, hu ▸ hwants⟩
    · rcases (waits_acquire_of_ne hfree hu).mp hedge with hedge | ⟨hu, _⟩
      · obtain ⟨v, hpath, hv⟩ := ih
        exact ⟨v, .head hedge hpath, hv⟩
      · exact ⟨u, .refl, hu⟩

/-- A new circle goes through the thread. -/
theorem transGen_acquire (hwants : g.wants t = some m) (hfree : g.owner m = none) {u v : T}
    (h : TransGen (g.acquire t m next).Waits u v) : TransGen g.Waits u v ∨
      ReflTransGen (g.acquire t m next).Waits u t ∧ ReflTransGen (g.acquire t m next).Waits t v := by
  induction h with
  | single hedge =>
    by_cases hu : u = t
    · subst hu
      exact Or.inr ⟨.refl, .single hedge⟩
    · rcases (waits_acquire_of_ne hfree hu).mp hedge with hedge' | ⟨_, rfl⟩
      · exact Or.inl (.single hedge')
      · exact Or.inr ⟨.single hedge, .refl⟩
  | @tail v w hbefore hedge ih =>
    rcases ih with hpath | ⟨hto, hfrom⟩
    · by_cases hv : v = t
      · subst hv
        exact Or.inr ⟨hbefore.to_reflTransGen, .single hedge⟩
      · rcases (waits_acquire_of_ne hfree hv).mp hedge with hedge' | ⟨_, rfl⟩
        · exact Or.inl (.tail hpath hedge')
        · exact Or.inr ⟨(TransGen.tail hbefore hedge).to_reflTransGen, .refl⟩
    · exact Or.inr ⟨hto, .tail hfrom hedge⟩

/-- Taking a mutex keeps the threads free of deadlocks exactly if it closes no circle. -/
theorem deadlockFree_acquire_iff (hwants : g.wants t = some m) (hfree : g.owner m = none)
    (h : g.DeadlockFree) : (g.acquire t m next).DeadlockFree ↔ ¬ g.Closes m next := by
  constructor
  · rintro hacquired ⟨m', rfl, hcloses⟩
    apply hacquired t
    rcases hcloses with rfl | ⟨u, v, howner, hpath, hv⟩
    · exact .single ((waits_acquire_self t).mpr ⟨m', rfl, Or.inl ⟨rfl, rfl⟩⟩)
    · have hne : m' ≠ m := by
        rintro rfl
        rw [hfree] at howner
        cases howner
      have hfirst : (g.acquire t m (some m')).Waits t u :=
        (waits_acquire_self u).mpr ⟨m', rfl, Or.inr ⟨hne, howner⟩⟩
      have hmiddle : ReflTransGen (g.acquire t m (some m')).Waits u v :=
        ReflTransGen.mono (fun _ _ => waits_acquire_of_waits hwants hfree) _ _ hpath
      by_cases hvt : v = t
      · exact .head' hfirst (hvt ▸ hmiddle)
      · exact .tail (.head' hfirst hmiddle) ((waits_acquire_of_ne hfree hvt).mpr (Or.inr ⟨hv, rfl⟩))
  · intro hopen u hcircle
    have hthread : TransGen (g.acquire t m next).Waits t t := by
      rcases transGen_acquire hwants hfree hcircle with hold | ⟨hto, hfrom⟩
      · exact absurd hold (h u)
      · exact (TransGen.trans_right hfrom hcircle).trans_left hto
    obtain ⟨w, hedge, hback⟩ := TransGen.head'_iff.mp hthread
    obtain ⟨m', rfl, ⟨rfl, rfl⟩ | ⟨_, howner⟩⟩ := (waits_acquire_self w).mp hedge
    · exact hopen ⟨m', rfl, Or.inl rfl⟩
    · obtain ⟨v, hpath, hv⟩ := exists_wants_of_reflTransGen hwants hfree hback
      exact hopen ⟨m', rfl, Or.inr ⟨w, v, howner, hpath, hv⟩⟩

end Acquire

end WaitGraph

end TcpClb.Common
