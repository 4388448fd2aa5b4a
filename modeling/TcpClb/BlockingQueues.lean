import TcpClb.QueueAssignment
import TcpClb.Common.Census

/-!
# Waiting for an item

`front` and `pop_front` of `threadsafe_queue` sleep while the queue is empty, and `push_back` wakes one sleeping thread
after it has unlocked the mutex. Here any number of threads call the functions of any number of queues. Every section
under one mutex is a step, and so is every notification, since other threads can get between the two. The move
assignment takes two steps, since it has locked one mutex when it waits for the other.

The functions were written for queues that threads only push to and pop from. Then as many threads are on their way to a
queue as it has items, unless no thread sleeps on it. Two functions can break this: `front` uses up the notification and
leaves the item, and the move assignment brings items without any notification.
-/

namespace TcpClb

open TcpClb.Common

/-- The calls that wait for an item: `front` leaves it in the queue, and both versions of `pop_front` take it. -/
inductive WaitingCall
  | front
  | popFront
  deriving DecidableEq

/-- Where a thread is: in no call, before `notify_one`, asleep in `_cond.wait`, woken and about to test again, or in
`a = std::move(b)` with the mutex of `a`. -/
inductive CallPc (Q : Type)
  | out
  | notify (a : Q)
  | asleep (a : Q) (call : WaitingCall)
  | woken (a : Q) (call : WaitingCall)
  | moving (a b : Q)
  deriving DecidableEq

/-- An item is pushed, a `pop_front` returns it, or a `front` returns it. -/
inductive ItemEvent (Q α : Type)
  | pushed (a : Q) (item : α)
  | popped (a : Q) (item : α)
  | seen (a : Q) (item : α)

/-- The contents of the queues, what the threads are doing, and what has happened to the items. -/
structure BlockingQueues (Q α : Type) where
  queue : Q → List α
  threads : ℕ
  pc : ℕ → CallPc Q
  log : List (ItemEvent Q α)

variable {Q α : Type}

/-- Empty queues, and threads that have called nothing. -/
def BlockingQueues.start (threads : ℕ) : BlockingQueues Q α := ⟨fun _ => [], threads, fun _ => .out, []⟩

/-- A thread goes on to another place. -/
def BlockingQueues.goto (s : BlockingQueues Q α) (t : ℕ) (pc : CallPc Q) : BlockingQueues Q α :=
  { s with pc := Function.update s.pc t pc }

/-- A step of a thread: a call gets the mutex, a thread notifies or is woken, for no reason or from its sleep, or a move
assignment gets the second mutex. -/
inductive BlockingAction (Q α : Type)
  | push (t : ℕ) (a : Q) (item : α)
  | notify (t : ℕ) (woken : Option ℕ)
  | wait (t : ℕ) (a : Q) (call : WaitingCall)
  | wakeUp (t : ℕ)
  | resume (t : ℕ)
  | clear (t : ℕ) (a : Q)
  | moveAssign (t : ℕ) (a b : Q)
  | assign (t : ℕ)

/-- The loop of `clear`. -/
def popAll : List α → List α
  | [] => []
  | _ :: rest => popAll rest

/-- It leaves nothing. -/
theorem popAll_eq_nil (items : List α) : popAll items = [] := by
  induction items with
  | nil => rfl
  | cons item rest ih => exact ih

variable [DecidableEq Q]

/-- The thread sleeps on the queue. -/
def CallPc.isAsleepAt (a : Q) : CallPc Q → Bool
  | .asleep b _ => a = b
  | _ => false

/-- The thread is about to test whether the queue has items, or to wake another. -/
def CallPc.isOnWayTo (a : Q) : CallPc Q → Bool
  | .notify b => a = b
  | .woken b _ => a = b
  | _ => false

/-- The thread holds the mutex of the queue between two steps. -/
def CallPc.holds (a : Q) : CallPc Q → Bool
  | .moving b _ => a = b
  | _ => false

/-- The number of threads that sleep on a queue. -/
def BlockingQueues.asleep (s : BlockingQueues Q α) (a : Q) : ℕ := census s.threads s.pc (indicator (CallPc.isAsleepAt a))

/-- The number of threads on their way to a queue. -/
def BlockingQueues.onWay (s : BlockingQueues Q α) (a : Q) : ℕ := census s.threads s.pc (indicator (CallPc.isOnWayTo a))

/-- No thread holds the mutex of the queue. -/
def BlockingQueues.Free (s : BlockingQueues Q α) (a : Q) : Prop :=
  census s.threads s.pc (indicator (CallPc.holds a)) = 0

instance BlockingQueues.instDecidableFree (s : BlockingQueues Q α) (a : Q) : Decidable (s.Free a) :=
  instDecidableEqNat _ _

/-- What a notification may wake: one thread that sleeps on the queue, or nothing if none does. -/
def BlockingQueues.MayWake (s : BlockingQueues Q α) (a : Q) : Option ℕ → Prop
  | some i => i < s.threads ∧ (s.pc i).isAsleepAt a = true
  | none => s.asleep a = 0

instance BlockingQueues.instDecidableMayWake (s : BlockingQueues Q α) (a : Q) :
    (woken : Option ℕ) → Decidable (s.MayWake a woken)
  | some _ => instDecidableAnd
  | none => instDecidableEqNat _ _

/-- A thread is woken if it sleeps. -/
def BlockingQueues.wake (s : BlockingQueues Q α) (i : ℕ) : BlockingQueues Q α :=
  match s.pc i with
  | .asleep a call => s.goto i (.woken a call)
  | _ => s

/-- The test in `front` and `pop_front` and what follows it. -/
def BlockingQueues.test (s : BlockingQueues Q α) (t : ℕ) (a : Q) (call : WaitingCall) : BlockingQueues Q α :=
  match s.queue a, call with
  | [], _ => s.goto t (.asleep a call)
  | item :: _, .front => { s.goto t .out with log := s.log ++ [.seen a item] }
  | item :: _, .popFront =>
    { s.goto t .out with
      queue := (SafeQueueOp.popFront a).apply s.queue
      log := s.log ++ [.popped a item] }

/-- Perform one step; impossible if the thread is not at that point, or the mutex is locked. -/
def blockingStep (s : BlockingQueues Q α) : BlockingAction Q α → Option (BlockingQueues Q α)
  | .push t a item =>
    if t < s.threads ∧ s.pc t = .out ∧ s.Free a then
      some { s.goto t (.notify a) with
        queue := (SafeQueueOp.pushBack a item).apply s.queue
        log := s.log ++ [.pushed a item] }
    else none
  | .notify t woken =>
    match s.pc t with
    | .notify a =>
      if t < s.threads ∧ s.MayWake a woken then some (woken.elim s s.wake |>.goto t .out) else none
    | _ => none
  | .wait t a call => if t < s.threads ∧ s.pc t = .out ∧ s.Free a then some (s.test t a call) else none
  | .wakeUp t =>
    match s.pc t with
    | .asleep _ _ => if t < s.threads then some (s.wake t) else none
    | _ => none
  | .resume t =>
    match s.pc t with
    | .woken a call => if t < s.threads ∧ s.Free a then some (s.test t a call) else none
    | _ => none
  | .clear t a =>
    if t < s.threads ∧ s.pc t = .out ∧ s.Free a then
      some { s with queue := Function.update s.queue a (popAll (s.queue a)) }
    else none
  | .moveAssign t a b =>
    if t < s.threads ∧ s.pc t = .out then
      if a = b then some s else if s.Free a then some (s.goto t (.moving a b)) else none
    else none
  | .assign t =>
    match s.pc t with
    | .moving a b =>
      if t < s.threads ∧ s.Free b then
        some { s.goto t .out with queue := (SafeQueueOp.moveAssign a b).apply s.queue }
      else none
    | _ => none

/-- What the steps do. -/
inductive BlockingStep (s : BlockingQueues Q α) : BlockingAction Q α → BlockingQueues Q α → Prop
  | push {t : ℕ} {a : Q} {item : α} (ht : t < s.threads) (hpc : s.pc t = .out) (hfree : s.Free a) :
      BlockingStep s (.push t a item) { s.goto t (.notify a) with
        queue := Function.update s.queue a (s.queue a ++ [item])
        log := s.log ++ [.pushed a item] }
  | notifyNone {t : ℕ} {a : Q} (ht : t < s.threads) (hpc : s.pc t = .notify a) (hnone : s.asleep a = 0) :
      BlockingStep s (.notify t none) (s.goto t .out)
  | notifyOne {t i : ℕ} {a : Q} {call : WaitingCall} (ht : t < s.threads) (hpc : s.pc t = .notify a)
      (hi : i < s.threads) (hasleep : s.pc i = .asleep a call) :
      BlockingStep s (.notify t (some i)) ((s.goto i (.woken a call)).goto t .out)
  | wakeUp {t : ℕ} {a : Q} {call : WaitingCall} (ht : t < s.threads) (hpc : s.pc t = .asleep a call) :
      BlockingStep s (.wakeUp t) (s.goto t (.woken a call))
  | sleep {act : BlockingAction Q α} {t : ℕ} {a : Q} {call : WaitingCall} (ht : t < s.threads)
      (hact : act = .wait t a call ∧ s.pc t = .out ∨ act = .resume t ∧ s.pc t = .woken a call) (hfree : s.Free a)
      (hempty : s.queue a = []) : BlockingStep s act (s.goto t (.asleep a call))
  | see {act : BlockingAction Q α} {t : ℕ} {a : Q} {item : α} {rest : List α} (ht : t < s.threads)
      (hact : act = .wait t a .front ∧ s.pc t = .out ∨ act = .resume t ∧ s.pc t = .woken a .front) (hfree : s.Free a)
      (hitem : s.queue a = item :: rest) :
      BlockingStep s act { s.goto t .out with log := s.log ++ [.seen a item] }
  | pop {act : BlockingAction Q α} {t : ℕ} {a : Q} {item : α} {rest : List α} (ht : t < s.threads)
      (hact : act = .wait t a .popFront ∧ s.pc t = .out ∨ act = .resume t ∧ s.pc t = .woken a .popFront)
      (hfree : s.Free a) (hitem : s.queue a = item :: rest) :
      BlockingStep s act { s.goto t .out with
        queue := Function.update s.queue a rest
        log := s.log ++ [.popped a item] }
  | clear {t : ℕ} {a : Q} (ht : t < s.threads) (hpc : s.pc t = .out) (hfree : s.Free a) :
      BlockingStep s (.clear t a) { s with queue := Function.update s.queue a [] }
  | assignSelf {t : ℕ} {a : Q} (ht : t < s.threads) (hpc : s.pc t = .out) : BlockingStep s (.moveAssign t a a) s
  | move {t : ℕ} {a b : Q} (ht : t < s.threads) (hpc : s.pc t = .out) (hab : a ≠ b) (hfree : s.Free a) :
      BlockingStep s (.moveAssign t a b) (s.goto t (.moving a b))
  | assign {t : ℕ} {a b : Q} (ht : t < s.threads) (hpc : s.pc t = .moving a b) (hab : a ≠ b) (hfree : s.Free b) :
      BlockingStep s (.assign t)
        { s.goto t .out with queue := Function.update (Function.update s.queue a (s.queue b)) b [] }

variable {s s' : BlockingQueues Q α}

/-- The test sends the thread to sleep, or lets it return with the first item. -/
theorem test_step {act : BlockingAction Q α} {t : ℕ} {a : Q} {call : WaitingCall} (ht : t < s.threads)
    (hact : act = .wait t a call ∧ s.pc t = .out ∨ act = .resume t ∧ s.pc t = .woken a call) (hfree : s.Free a) :
    BlockingStep s act (s.test t a call) := by
  unfold BlockingQueues.test
  cases hqueue : s.queue a with
  | nil => exact .sleep ht hact hfree hqueue
  | cons item rest =>
    cases call with
    | front => exact .see ht hact hfree hqueue
    | popFront =>
      have hpop : (SafeQueueOp.popFront a : SafeQueueOp Q α).apply s.queue = Function.update s.queue a rest := by
        rw [SafeQueueOp.apply, hqueue, List.tail_cons]
      rw [hpop]
      exact .pop ht hact hfree hqueue

/-- The mutex of the destination is locked between the steps of a move assignment. -/
theorem BlockingQueues.not_free_of_moving {t : ℕ} {a b : Q} (ht : t < s.threads) (hpc : s.pc t = .moving a b) :
    ¬ s.Free a := by
  intro hfree
  have hle := le_census ht s.pc (indicator (CallPc.holds a))
  rw [hpc, hfree, indicator, CallPc.holds, if_pos (decide_eq_true rfl)] at hle
  omega

/-- These are all the steps. -/
theorem blockingStep_cases {act : BlockingAction Q α} (hstep : blockingStep s act = some s') :
    BlockingStep s act s' := by
  cases act with
  | push t a item =>
    obtain ⟨⟨ht, hpc, hfree⟩, hs⟩ := Option.ite_none_right_eq_some.mp hstep
    cases hs
    exact .push ht hpc hfree
  | notify t woken =>
    cases hpc : s.pc t with
    | notify a =>
      simp only [blockingStep, hpc] at hstep
      obtain ⟨⟨ht, hmay⟩, hs⟩ := Option.ite_none_right_eq_some.mp hstep
      cases hs
      cases woken with
      | none => exact .notifyNone ht hpc hmay
      | some i =>
        obtain ⟨hi, hasleep⟩ := hmay
        cases hpci : s.pc i with
        | asleep b call =>
          rw [hpci] at hasleep
          obtain rfl : a = b := of_decide_eq_true hasleep
          simp only [Option.elim_some, BlockingQueues.wake, hpci]
          exact .notifyOne ht hpc hi hpci
        | out | notify b | woken b call | moving b c =>
          rw [hpci] at hasleep
          cases hasleep
    | out | asleep a call | woken a call | moving a b => simp [blockingStep, hpc] at hstep
  | wait t a call =>
    obtain ⟨⟨ht, hpc, hfree⟩, hs⟩ := Option.ite_none_right_eq_some.mp hstep
    cases hs
    exact test_step ht (Or.inl ⟨rfl, hpc⟩) hfree
  | wakeUp t =>
    cases hpc : s.pc t with
    | asleep a call =>
      simp only [blockingStep, BlockingQueues.wake, hpc] at hstep
      obtain ⟨ht, hs⟩ := Option.ite_none_right_eq_some.mp hstep
      cases hs
      exact .wakeUp ht hpc
    | out | notify a | woken a call | moving a b => simp [blockingStep, hpc] at hstep
  | resume t =>
    cases hpc : s.pc t with
    | woken a call =>
      simp only [blockingStep, hpc] at hstep
      obtain ⟨⟨ht, hfree⟩, hs⟩ := Option.ite_none_right_eq_some.mp hstep
      cases hs
      exact test_step ht (Or.inr ⟨rfl, hpc⟩) hfree
    | out | notify a | asleep a call | moving a b => simp [blockingStep, hpc] at hstep
  | clear t a =>
    obtain ⟨⟨ht, hpc, hfree⟩, hs⟩ := Option.ite_none_right_eq_some.mp hstep
    rw [popAll_eq_nil] at hs
    cases hs
    exact .clear ht hpc hfree
  | moveAssign t a b =>
    obtain ⟨⟨ht, hpc⟩, hs⟩ := Option.ite_none_right_eq_some.mp hstep
    split at hs
    · next hab =>
      subst hab
      cases hs
      exact .assignSelf ht hpc
    · next hab =>
      obtain ⟨hfree, hs⟩ := Option.ite_none_right_eq_some.mp hs
      cases hs
      exact .move ht hpc hab hfree
  | assign t =>
    cases hpc : s.pc t with
    | moving a b =>
      simp only [blockingStep, hpc] at hstep
      obtain ⟨⟨ht, hfree⟩, hs⟩ := Option.ite_none_right_eq_some.mp hstep
      cases hs
      have hab : a ≠ b := by
        rintro rfl
        exact BlockingQueues.not_free_of_moving ht hpc hfree
      have hmove : (SafeQueueOp.moveAssign a b : SafeQueueOp Q α).apply s.queue =
          Function.update (Function.update s.queue a (s.queue b)) b [] := by simp [SafeQueueOp.apply, hab]
      rw [hmove]
      exact .assign ht hpc hab hfree
    | out | notify a | asleep a call | woken a call => simp [blockingStep, hpc] at hstep

end TcpClb
