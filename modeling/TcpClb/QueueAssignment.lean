import TcpClb.Common.Runs
import TcpClb.Common.WaitGraph
import Mathlib.Data.List.Basic

/-!
# Assignment of queues between threads

`threadsafe_queue` of `safeqtempl.h` in any number of threads, each mutex taken in a step of its own. The
copy assignment locks the mutex of its source twice, so it waits for itself as soon as it has it, and
never copies anything. The move assignment locks its destination first and then its source, so two of
them can wait for each other. Where neither happens, no operation takes part in a deadlock.
-/

namespace TcpClb

open TcpClb.Common Relation

variable {Q T α : Type}

/-- The calls of member functions: `a = b`, `a = std::move(b)`, and the two that work on one queue. -/
inductive SafeQueueOp (Q α : Type)
  | copyAssign (a b : Q)
  | moveAssign (a b : Q)
  | pushBack (a : Q) (item : α)
  | popFront (a : Q)

/-- The queues whose `_mutex` is locked, in order. Assignment to itself does nothing. -/
def SafeQueueOp.locks [DecidableEq Q] : SafeQueueOp Q α → List Q
  -- `mlock` and `mlock1` are both for `rHnd._mutex`
  | .copyAssign a b => if a = b then [] else [b, b]
  | .moveAssign a b => if a = b then [] else [a, b]
  | .pushBack a _ => [a]
  | .popFront a => [a]

/-- What is done to the contents. A deque that was moved from is left empty. -/
def SafeQueueOp.apply [DecidableEq Q] (queue : Q → List α) : SafeQueueOp Q α → Q → List α
  | .copyAssign a b => if a = b then queue else Function.update queue a (queue b)
  | .moveAssign a b => if a = b then queue else Function.update (Function.update queue a (queue b)) b []
  | .pushBack a item => Function.update queue a (queue a ++ [item])
  | .popFront a => Function.update queue a (queue a).tail

/-- A pop that does not block finds something in its queue. -/
def SafeQueueOp.ready (queue : Q → List α) : SafeQueueOp Q α → Bool
  | .popFront a => !(queue a).isEmpty
  | _ => true

/-- The operation reads or changes the queue. -/
def SafeQueueOp.Uses (q : Q) : SafeQueueOp Q α → Prop
  | .copyAssign a b => a ≠ b ∧ (q = a ∨ q = b)
  | .moveAssign a b => a ≠ b ∧ (q = a ∨ q = b)
  | .pushBack a _ => q = a
  | .popFront a => q = a

/-- An operation that a thread is in, and how many of its mutexes it has locked. -/
structure InOp (Q α : Type) where
  op : SafeQueueOp Q α
  locked : ℕ

/-- The mutex that it locks next. -/
def InOp.wants [DecidableEq Q] (r : InOp Q α) : Option Q := r.op.locks[r.locked]?

/-- The contents of the queues, what the threads are doing, and which thread has locked which mutex. -/
structure QueueSystem (Q T α : Type) where
  queue : Q → List α
  thread : T → Option (InOp Q α)
  owner : Q → Option T

/-- The threads before they do anything. -/
def QueueSystem.start (queue : Q → List α) : QueueSystem Q T α := ⟨queue, fun _ => none, fun _ => none⟩

/-- A thread calls a function, locks the next mutex, or does its work and unlocks all of them. -/
inductive QueueAction (Q T α : Type)
  | call (t : T) (op : SafeQueueOp Q α)
  | lock (t : T)
  | finish (t : T)

variable [DecidableEq Q] [DecidableEq T]

/-- Perform one step; impossible if the thread is not at that point or the mutex is locked. -/
def safeQueueStep (s : QueueSystem Q T α) : QueueAction Q T α → Option (QueueSystem Q T α)
  | .call t op =>
    if (s.thread t).isNone then some { s with thread := Function.update s.thread t (some ⟨op, 0⟩) } else none
  | .lock t => do
    let r ← s.thread t
    let m ← r.wants
    if s.owner m = none ∧ r.op.ready s.queue = true then
      some { s with
        thread := Function.update s.thread t (some { r with locked := r.locked + 1 })
        owner := Function.update s.owner m (some t) }
    else none
  | .finish t => do
    let r ← s.thread t
    if r.wants = none then
      some
        { queue := r.op.apply s.queue
          thread := Function.update s.thread t none
          owner := fun m => if s.owner m = some t then none else s.owner m }
    else none

/-- Which thread waits for which. -/
def QueueSystem.waiting (s : QueueSystem Q T α) : WaitGraph T Q :=
  ⟨fun t => (s.thread t).bind InOp.wants, s.owner⟩

/-- The thread has locked all mutexes of the operation and is at its work. -/
def QueueSystem.Working (s : QueueSystem Q T α) (t : T) (op : SafeQueueOp Q α) : Prop :=
  ∃ locked, s.thread t = some ⟨op, locked⟩ ∧ op.locks.length ≤ locked

/-- No thread waits for a mutex that it has locked itself, nor do threads wait for each other in a circle.
While a thread copies `b` to `a`, no other is at work on either, and at the end of it `a` has the contents of
`b`. -/
structure QueueSystem.Sound (s : QueueSystem Q T α) : Prop where
  noDeadlock : s.waiting.DeadlockFree
  copiesWhole : ∀ t a b, a ≠ b → s.Working t (.copyAssign a b) → ∀ s', safeQueueStep s (.finish t) = some s' →
    s'.queue = Function.update s.queue a (s.queue b)
  copiesAlone : ∀ t a b, a ≠ b → s.Working t (.copyAssign a b) →
    ∀ u, u ≠ t → ∀ op, s.Working u op → ¬ op.Uses a ∧ ¬ op.Uses b

/-- The owner of the mutex of `b` waits for that of `a`, perhaps through others. -/
def QueueSystem.WaitsFor (s : QueueSystem Q T α) (b a : Q) : Prop :=
  ∃ u v, s.owner b = some u ∧ ReflTransGen s.waiting.Waits u v ∧ s.waiting.wants v = some a

/-- The first mutex of the operation can be locked without harm: it is not a copy assignment between two
queues, and not a move assignment to `a` while the owner of the other mutex waits for that of `a`. -/
def SafeQueueOp.SafeFirst (s : QueueSystem Q T α) : SafeQueueOp Q α → Prop
  | .copyAssign a b => a = b
  | .moveAssign a b => ¬ s.WaitsFor b a
  | _ => True

/-- The step does not lock the first mutex of an operation where that does harm. -/
def QueueAction.Safe (s : QueueSystem Q T α) : QueueAction Q T α → Prop
  | .lock t => ∀ r, s.thread t = some r → r.locked = 0 → r.op.SafeFirst s
  | _ => True

/-- Who has locked a mutex has got to it, and no thread gets behind the first mutex of a copy assignment. -/
structure QueueSystem.Inv (s : QueueSystem Q T α) : Prop where
  owned : ∀ m t, s.owner m = some t → ∃ r, s.thread t = some r ∧ m ∈ r.op.locks.take r.locked
  copies : ∀ t a b locked, s.thread t = some ⟨.copyAssign a b, locked⟩ → a ≠ b →
    locked = 0 ∨ locked = 1 ∧ s.owner b = some t

/-- What the steps do. -/
inductive SafeQueueStep (s : QueueSystem Q T α) : QueueAction Q T α → QueueSystem Q T α → Prop
  | call (t : T) (op : SafeQueueOp Q α) (hidle : s.thread t = none) :
      SafeQueueStep s (.call t op) { s with thread := Function.update s.thread t (some ⟨op, 0⟩) }
  | lock (t : T) (r : InOp Q α) (m : Q) (hthread : s.thread t = some r) (hwants : r.wants = some m)
      (hfree : s.owner m = none) : SafeQueueStep s (.lock t)
        { s with
          thread := Function.update s.thread t (some { r with locked := r.locked + 1 })
          owner := Function.update s.owner m (some t) }
  | finish (t : T) (r : InOp Q α) (hthread : s.thread t = some r) (hwants : r.wants = none) :
      SafeQueueStep s (.finish t)
        { queue := r.op.apply s.queue
          thread := Function.update s.thread t none
          owner := fun m => if s.owner m = some t then none else s.owner m }

/-- A step is one of these. -/
theorem safeQueueStep_cases {s s' : QueueSystem Q T α} {a : QueueAction Q T α}
    (hstep : safeQueueStep s a = some s') : SafeQueueStep s a s' := by
  cases a with
  | call t op =>
    obtain ⟨hidle, h⟩ := Option.ite_none_right_eq_some.mp hstep
    cases h
    exact .call t op (Option.isNone_iff_eq_none.mp hidle)
  | lock t =>
    obtain ⟨r, hthread, h⟩ := Option.bind_eq_some_iff.mp hstep
    obtain ⟨m, hwants, h⟩ := Option.bind_eq_some_iff.mp h
    obtain ⟨hlock, h⟩ := Option.ite_none_right_eq_some.mp h
    cases h
    exact .lock t r m hthread hwants hlock.1
  | finish t =>
    obtain ⟨r, hthread, h⟩ := Option.bind_eq_some_iff.mp hstep
    obtain ⟨hwants, h⟩ := Option.ite_none_right_eq_some.mp h
    cases h
    exact .finish t r hthread hwants

/-- The mutexes of a copy assignment between two queues. -/
theorem locks_copyAssign {a b : Q} (hne : a ≠ b) :
    (SafeQueueOp.copyAssign a b : SafeQueueOp Q α).locks = [b, b] := if_neg hne

/-- The mutexes of a move assignment between two queues. -/
theorem locks_moveAssign {a b : Q} (hne : a ≠ b) :
    (SafeQueueOp.moveAssign a b : SafeQueueOp Q α).locks = [a, b] := if_neg hne

/-- Calling a function keeps the invariant. -/
theorem QueueSystem.Inv.call {s : QueueSystem Q T α} (hs : s.Inv) {t : T} (op : SafeQueueOp Q α)
    (hidle : s.thread t = none) :
    QueueSystem.Inv { s with thread := Function.update s.thread t (some ⟨op, 0⟩) } where
  owned m u howner := by
    obtain ⟨r, hr, hm⟩ := hs.owned m u howner
    have hu : u ≠ t := by
      rintro rfl
      rw [hidle] at hr
      cases hr
    exact ⟨r, (Function.update_of_ne hu ..).trans hr, hm⟩
  copies u a b locked hthread hne := by
    change Function.update s.thread t (some ⟨op, 0⟩) u = _ at hthread
    by_cases hu : u = t
    · subst hu
      rw [Function.update_self] at hthread
      cases hthread
      exact Or.inl rfl
    · rw [Function.update_of_ne hu] at hthread
      exact hs.copies u a b locked hthread hne

/-- Locking a mutex keeps it: the second mutex of a copy assignment is never free. -/
theorem QueueSystem.Inv.lock {s : QueueSystem Q T α} (hs : s.Inv) {t : T} {r : InOp Q α} {m : Q}
    (hthread : s.thread t = some r) (hwants : r.wants = some m) (hfree : s.owner m = none) :
    QueueSystem.Inv { s with
      thread := Function.update s.thread t (some { r with locked := r.locked + 1 })
      owner := Function.update s.owner m (some t) } where
  owned m' u howner := by
    change Function.update s.owner m (some t) m' = some u at howner
    by_cases hm : m' = m
    · subst hm
      rw [Function.update_self, Option.some.injEq] at howner
      subst howner
      refine ⟨_, Function.update_self .., ?_⟩
      have hget : r.op.locks[r.locked]? = some m' := hwants
      rw [List.take_add_one, List.mem_append, hget]
      exact Or.inr (List.mem_singleton_self m')
    · rw [Function.update_of_ne hm] at howner
      obtain ⟨r', hr', hm'⟩ := hs.owned m' u howner
      by_cases hu : u = t
      · subst hu
        rw [hthread, Option.some.injEq] at hr'
        subst hr'
        exact ⟨_, Function.update_self .., List.take_subset_take_left _ (Nat.le_succ _) hm'⟩
      · exact ⟨r', (Function.update_of_ne hu ..).trans hr', hm'⟩
  copies u a b locked hu hne := by
    change Function.update s.thread t _ u = _ at hu
    change locked = 0 ∨ locked = 1 ∧ Function.update s.owner m (some t) b = some u
    by_cases hut : u = t
    · subst hut
      rw [Function.update_self, Option.some.injEq] at hu
      obtain ⟨op, taken⟩ := r
      obtain ⟨rfl, rfl⟩ := InOp.mk.inj hu
      rw [InOp.wants, locks_copyAssign hne] at hwants
      rcases hs.copies u a b taken hthread hne with rfl | ⟨rfl, howner⟩
      · obtain rfl : b = m := Option.some.inj hwants
        exact Or.inr ⟨rfl, Function.update_self ..⟩
      · obtain rfl : b = m := Option.some.inj hwants
        rw [hfree] at howner
        cases howner
    · rw [Function.update_of_ne hut] at hu
      refine (hs.copies u a b locked hu hne).imp_right fun ⟨hone, howner⟩ => ⟨hone, ?_⟩
      have hm : b ≠ m := by
        rintro rfl
        rw [hfree] at howner
        cases howner
      rw [Function.update_of_ne hm, howner]

/-- Finishing keeps it. -/
theorem QueueSystem.Inv.finish {s : QueueSystem Q T α} (hs : s.Inv) (t : T) (queue : Q → List α) :
    QueueSystem.Inv
      { queue := queue
        thread := Function.update s.thread t none
        owner := fun m => if s.owner m = some t then none else s.owner m } where
  owned m u howner := by
    obtain ⟨hother, hsame⟩ := Option.ite_none_left_eq_some.mp howner
    have hu : u ≠ t := by
      rintro rfl
      exact hother hsame
    obtain ⟨r, hr, hm⟩ := hs.owned m u hsame
    exact ⟨r, (Function.update_of_ne hu ..).trans hr, hm⟩
  copies u a b locked hthread hne := by
    change Function.update s.thread t none u = _ at hthread
    by_cases hu : u = t
    · subst hu
      rw [Function.update_self] at hthread
      cases hthread
    · rw [Function.update_of_ne hu] at hthread
      refine (hs.copies u a b locked hthread hne).imp_right fun ⟨hone, howner⟩ => ⟨hone, ?_⟩
      have hother : ¬ s.owner b = some t := by
        rw [howner]
        exact fun h => hu (Option.some.inj h)
      exact (if_neg hother).trans howner

/-- Every step keeps the invariant. -/
theorem SafeQueueStep.inv {s s' : QueueSystem Q T α} {a : QueueAction Q T α} (hstep : SafeQueueStep s a s')
    (hs : s.Inv) : s'.Inv := by
  cases hstep with
  | call t op hidle => exact hs.call op hidle
  | lock t r m hthread hwants hfree => exact hs.lock hthread hwants hfree
  | finish t r hthread hwants => exact hs.finish t _

omit [DecidableEq T] in
/-- No thread ever gets to copying, so none disturbs it. -/
theorem QueueSystem.Inv.not_copying {s : QueueSystem Q T α} (hs : s.Inv) (t : T) {a b : Q} (hne : a ≠ b) :
    ¬ s.Working t (.copyAssign a b) := by
  rintro ⟨locked, hthread, hall⟩
  rw [locks_copyAssign hne] at hall
  rcases hs.copies t a b locked hthread hne with rfl | ⟨rfl, _⟩
  · change 2 ≤ 0 at hall
    omega
  · change 2 ≤ 1 at hall
    omega

/-- A thread that is in no operation owns nothing, so its call closes no circle. -/
theorem QueueSystem.Inv.deadlockFree_call {s : QueueSystem Q T α} (hs : s.Inv) {t : T} (op : SafeQueueOp Q α)
    (hidle : s.thread t = none) (h : s.waiting.DeadlockFree) :
    (QueueSystem.waiting { s with thread := Function.update s.thread t (some ⟨op, 0⟩) }).DeadlockFree := by
  refine h.of_owners fun u v ⟨m, howner⟩ ⟨m', hwants, howner'⟩ => ⟨m', ?_, howner'⟩
  obtain ⟨r, hr, _⟩ := hs.owned m u howner
  have hu : u ≠ t := by
    rintro rfl
    rw [hidle] at hr
    cases hr
  change (Function.update s.thread t _ u).bind InOp.wants = some m' at hwants
  rwa [Function.update_of_ne hu] at hwants

/-- A thread that finishes only releases what others may wait for. -/
theorem QueueSystem.deadlockFree_finish {s : QueueSystem Q T α} (t : T) (queue : Q → List α)
    (h : s.waiting.DeadlockFree) : (QueueSystem.waiting
      { queue := queue
        thread := Function.update s.thread t none
        owner := fun m => if s.owner m = some t then none else s.owner m }).DeadlockFree := by
  refine h.of_owners fun u v _ ⟨m, hwants, howner⟩ => ⟨m, ?_, (Option.ite_none_left_eq_some.mp howner).2⟩
  change (Function.update s.thread t none u).bind InOp.wants = some m at hwants
  by_cases hu : u = t
  · subst hu
    rw [Function.update_self] at hwants
    cases hwants
  · rwa [Function.update_of_ne hu] at hwants

/-- A thread that locks a mutex then wants the next one of its operation. -/
theorem QueueSystem.waiting_lock (s : QueueSystem Q T α) (t : T) (r : InOp Q α) (m : Q) :
    QueueSystem.waiting { s with
      thread := Function.update s.thread t (some { r with locked := r.locked + 1 })
      owner := Function.update s.owner m (some t) } =
        s.waiting.acquire t m r.op.locks[r.locked + 1]? := by
  have hwants : (fun u =>
      (Function.update s.thread t (some { r with locked := r.locked + 1 }) u).bind InOp.wants) =
        Function.update (fun u => (s.thread u).bind InOp.wants) t r.op.locks[r.locked + 1]? := by
    funext u
    by_cases hu : u = t
    · subst hu
      rw [Function.update_self, Function.update_self]
      rfl
    · rw [Function.update_of_ne hu, Function.update_of_ne hu]
  exact congrArg (fun wants => WaitGraph.mk wants _) hwants

omit [DecidableEq T] in
/-- Nothing is closed by the last mutex. -/
theorem QueueSystem.not_closes_last (s : QueueSystem Q T α) (m : Q) {next : Option Q} (hlast : next = none) :
    ¬ s.waiting.Closes m next := by
  rintro ⟨m', hm', _⟩
  rw [hlast] at hm'
  cases hm'

omit [DecidableEq T] in
/-- The first mutex of a copy assignment between two queues closes a circle, and the second is never free. -/
theorem QueueSystem.Inv.closes_copyAssign {s : QueueSystem Q T α} (hs : s.Inv) {t : T} {a b m : Q} {locked : ℕ}
    (hthread : s.thread t = some ⟨.copyAssign a b, locked⟩)
    (hwants : (SafeQueueOp.copyAssign a b : SafeQueueOp Q α).locks[locked]? = some m) (hfree : s.owner m = none) :
    ¬ s.waiting.Closes m (SafeQueueOp.copyAssign a b : SafeQueueOp Q α).locks[locked + 1]? ↔
      (locked = 0 → a = b) := by
  have hne : a ≠ b := by
    rintro rfl
    rw [SafeQueueOp.locks, if_pos rfl] at hwants
    cases hwants
  rw [locks_copyAssign hne] at hwants ⊢
  rcases hs.copies t a b locked hthread hne with rfl | ⟨rfl, howner⟩
  · obtain rfl : b = m := Option.some.inj hwants
    exact iff_of_false (fun h => h ⟨b, rfl, Or.inl rfl⟩) fun h => hne (h rfl)
  · obtain rfl : b = m := Option.some.inj hwants
    rw [hfree] at howner
    cases howner

omit [DecidableEq T] in
/-- The first mutex of a move assignment closes a circle if the owner of the second waits for it. -/
theorem QueueSystem.closes_moveAssign (s : QueueSystem Q T α) {a b m : Q} {locked : ℕ}
    (hwants : (SafeQueueOp.moveAssign a b : SafeQueueOp Q α).locks[locked]? = some m) :
    ¬ s.waiting.Closes m (SafeQueueOp.moveAssign a b : SafeQueueOp Q α).locks[locked + 1]? ↔
      (locked = 0 → ¬ s.WaitsFor b a) := by
  have hne : a ≠ b := by
    rintro rfl
    rw [SafeQueueOp.locks, if_pos rfl] at hwants
    cases hwants
  rw [locks_moveAssign hne] at hwants ⊢
  cases locked with
  | zero =>
    obtain rfl : a = m := Option.some.inj hwants
    constructor
    · exact fun h _ hwaits => h ⟨b, rfl, Or.inr hwaits⟩
    · rintro h ⟨m', hm', hcloses⟩
      obtain rfl : b = m' := Option.some.inj hm'
      exact hcloses.elim (fun h => hne h.symm) (h rfl)
  | succ locked =>
    exact iff_of_true (s.not_closes_last m rfl) fun hzero => absurd hzero (Nat.succ_ne_zero locked)

omit [DecidableEq T] in
/-- The mutex closes a circle exactly if the step is not safe. -/
theorem QueueSystem.Inv.closes_iff {s : QueueSystem Q T α} (hs : s.Inv) {t : T} {r : InOp Q α} {m : Q}
    (hthread : s.thread t = some r) (hwants : r.wants = some m) (hfree : s.owner m = none) :
    ¬ s.waiting.Closes m r.op.locks[r.locked + 1]? ↔ (QueueAction.lock t).Safe s := by
  have hsafe : (QueueAction.lock t).Safe s ↔ (r.locked = 0 → r.op.SafeFirst s) := by
    constructor
    · exact fun h => h r hthread
    · rintro h r' hr'
      rw [hthread, Option.some.injEq] at hr'
      exact hr' ▸ h
  rw [hsafe]
  obtain ⟨op, locked⟩ := r
  cases op with
  | copyAssign a b => exact hs.closes_copyAssign hthread hwants hfree
  | moveAssign a b => exact s.closes_moveAssign hwants
  | pushBack a item => exact iff_of_true (s.not_closes_last m rfl) fun _ => trivial
  | popFront a => exact iff_of_true (s.not_closes_last m rfl) fun _ => trivial

/-- A step keeps the threads free of deadlocks exactly if it is safe. -/
theorem SafeQueueStep.deadlockFree_iff {s s' : QueueSystem Q T α} {a : QueueAction Q T α}
    (hstep : SafeQueueStep s a s') (hs : s.Inv) (h : s.waiting.DeadlockFree) : s'.waiting.DeadlockFree ↔ a.Safe s := by
  cases hstep with
  | call t op hidle => exact iff_of_true (hs.deadlockFree_call op hidle h) trivial
  | finish t r hthread hwants => exact iff_of_true (QueueSystem.deadlockFree_finish t _ h) trivial
  | lock t r m hthread hwants hfree =>
    have hwants' : s.waiting.wants t = some m := by
      change (s.thread t).bind InOp.wants = some m
      rw [hthread, Option.bind_some, hwants]
    rw [QueueSystem.waiting_lock, WaitGraph.deadlockFree_acquire_iff hwants' hfree h,
      hs.closes_iff hthread hwants hfree]

/-- No thread waits for itself and no copy is disturbed, in every run of any threads on any queues, exactly
if no step locks the first mutex of a copy assignment between two queues, or closes a circle with that of a
move assignment. -/
theorem queues_sound_iff (queue : Q → List α) (acts : List (QueueAction Q T α)) :
    Throughout safeQueueStep QueueSystem.Sound (.start queue) acts ↔
      EachStep safeQueueStep (fun s a => a.Safe s) (.start queue) acts := by
  have hinv : (QueueSystem.start queue : QueueSystem Q T α).Inv := by
    constructor
    · intro m t howner
      cases howner
    · intro t a b locked hthread
      cases hthread
  have hsound {s : QueueSystem Q T α} (hs : s.Inv) : s.Sound ↔ s.waiting.DeadlockFree :=
    ⟨fun h => h.noDeadlock, fun h => ⟨h, fun t a b hne hcopy => absurd hcopy (hs.not_copying t hne),
      fun t a b hne hcopy => absurd hcopy (hs.not_copying t hne)⟩⟩
  have hstart : (QueueSystem.start queue : QueueSystem Q T α).waiting.DeadlockFree := by
    intro t hcircle
    obtain ⟨_, howner⟩ := WaitGraph.owns_of_transGen hcircle
    cases howner
  refine throughout_iff_eachStep safeQueueStep _ QueueSystem.Inv QueueSystem.Sound ?_ ?_ _ acts hinv
    ((hsound hinv).mpr hstart)
  · exact fun s a s' hs _ _ hstep => (safeQueueStep_cases hstep).inv hs
  · intro s a s' hs hsafe hstep
    rw [hsound ((safeQueueStep_cases hstep).inv hs)]
    exact (safeQueueStep_cases hstep).deadlockFree_iff hs hsafe.noDeadlock

/-- One thread assigns one queue to another. -/
def oneCopy : List (QueueAction Bool ℕ Unit) := [.call 0 (.copyAssign false true), .lock 0]

/-- Two threads move two queues into each other. -/
def crossedMoves : List (QueueAction Bool ℕ Unit) :=
  [.call 0 (.moveAssign false true), .call 1 (.moveAssign true false), .lock 0, .lock 1]

/-- The first waits for itself, and the others wait for each other. -/
theorem oneCopy_not_sound :
    ¬ Throughout safeQueueStep QueueSystem.Sound (.start fun _ => []) oneCopy ∧
      ¬ Throughout safeQueueStep QueueSystem.Sound (.start fun _ => []) crossedMoves := by
  constructor
  · intro hall
    obtain ⟨s, hrun, hedge⟩ : ∃ s, runActions safeQueueStep (.start fun _ => []) oneCopy = some s ∧
        s.waiting.Waits 0 0 := ⟨_, rfl, true, rfl, rfl⟩
    exact (throughout_final safeQueueStep _ _ _ _ hall hrun).noDeadlock 0 (.single hedge)
  · intro hall
    obtain ⟨s, hrun, hfirst, hsecond⟩ : ∃ s, runActions safeQueueStep (.start fun _ => []) crossedMoves = some s ∧
        s.waiting.Waits 0 1 ∧ s.waiting.Waits 1 0 := ⟨_, rfl, ⟨true, rfl, rfl⟩, false, rfl, rfl⟩
    exact (throughout_final safeQueueStep _ _ _ _ hall hrun).noDeadlock 0 (.tail (.single hfirst) hsecond)

end TcpClb
