import TcpClb.MessageQueue
import TcpClb.WakeUp

/-!
# The test of `gmsgq->next`

A client appends its message in one critical section and reads `gmsgq->next` in another one, under a
different mutex. In between, the send workers may pop the message, and if it was the only one in the
queue the client reads through `NULL`. The test is safe exactly as long as no worker takes the only
message while a client is between its critical sections.
-/

namespace TcpClb

open TcpClb.Common

variable {F P : Type}

/-- `gmsgq` is not `NULL` when a client is about to evaluate `gmsgq->next`. -/
def System.SafeTest (s : System F P) : Prop := ∀ k, s.pending k = true → s.shared.store.gmsgq.head ≠ none

/-- The step does not pop the only message of the queue while a client is between its critical
sections. -/
def Action.KeepsForTest (s : System F P) : Action F P → Prop
  | .send i .pop => ∀ c, s.shared.gconnList[i]? = some c → s.shared.store.gmsgq.OnlyFor c.peerId →
      ∀ k, s.pending k = false
  | _ => True

/-- A client that makes a request gives it an id. -/
def Action.Named : Action F P → Prop
  | .append _ req _ _ _ => req.id.chars ≠ []
  | _ => True

/-- The condition without the assumption that requests have ids: one without an id is made only while
the queue is not empty. -/
def Action.KeepsOrQueued (s : System F P) (a : Action F P) : Prop :=
  a.KeepsForTest s ∧ (¬ a.Named → s.shared.store.gmsgq.head ≠ none)

/-- A pop that goes past the first message leaves the head where it is. -/
theorem popBehindFirst_head {q q' : MsgList} {con : ℤ} {first : ℕ} {temp : Cell Msgque} {popped : Option ℕ}
    (hhead : q.head = some first) (hget : q.heap.get first = some temp) (hcon : temp.val.conn ≠ con)
    (hpop : popFromMsgq q con = some (q', popped)) : q'.head = q.head := by
  simp only [popFromMsgq, hhead, hget, Option.bind_eq_bind, Option.bind_some, if_neg hcon] at hpop
  obtain ⟨found, _, hpop⟩ := Option.bind_eq_some_iff.mp hpop
  cases found with
  | none =>
    cases hpop
    rfl
  | some a =>
    obtain ⟨temp', _, hpop⟩ := Option.bind_eq_some_iff.mp hpop
    -- whether or not something follows, the head stays
    obtain ⟨h1, hpop⟩ : ∃ h1, ((detach h1 a).bind fun heap => some (⟨heap, some first⟩, some a)) =
        some (q', popped) := by
      split at hpop
      · exact ⟨q.heap, hpop⟩
      · obtain ⟨_, _, hpop⟩ := Option.bind_eq_some_iff.mp hpop
        obtain ⟨_, _, hpop⟩ := Option.bind_eq_some_iff.mp hpop
        obtain ⟨h1, _, hpop⟩ := Option.bind_eq_some_iff.mp hpop
        exact ⟨h1, hpop⟩
    obtain ⟨h2, _, hpop⟩ := Option.bind_eq_some_iff.mp hpop
    cases hpop
    exact hhead.symm

/-- A pop empties the queue exactly if it takes its only message. -/
theorem popFromMsgq_head_eq_none {q q' : MsgList} {con : ℤ} {popped : Option ℕ}
    (hpop : popFromMsgq q con = some (q', popped)) : q'.head = none ↔ q.head = none ∨ q.OnlyFor con := by
  have hwhole := hpop
  unfold popFromMsgq at hpop
  split at hpop
  · next hhead =>
    cases hpop
    exact iff_of_true hhead (Or.inl hhead)
  · next first hhead =>
    obtain ⟨temp, hget, hpop⟩ := Option.bind_eq_some_iff.mp hpop
    have honly : q.head = none ∨ q.OnlyFor con ↔ temp.next = none ∧ temp.val.conn = con := by
      constructor
      · rintro (hnone | ⟨first', cell, hfirst, hcell, hnext, hcon⟩)
        · rw [hhead] at hnone
          cases hnone
        · rw [hhead, Option.some.injEq] at hfirst
          rw [← hfirst, hget, Option.some.injEq] at hcell
          exact hcell ▸ ⟨hnext, hcon⟩
      · rintro ⟨hnext, hcon⟩
        exact Or.inr ⟨first, temp, hhead, hget, hnext, hcon⟩
    rw [honly]
    split at hpop
    · next hcon =>
      obtain ⟨h1, _, hpop⟩ := Option.bind_eq_some_iff.mp hpop
      obtain ⟨h2, _, hpop⟩ := Option.bind_eq_some_iff.mp hpop
      cases hpop
      exact (and_iff_left hcon).symm
    · next hcon =>
      rw [popBehindFirst_head hhead hget hcon hwhole, hhead]
      exact iff_of_false nofun fun h => hcon h.2

/-- A push of a message with an id leaves the queue not empty, and any other push leaves it alone. -/
theorem pushToMsgq_head {s s' : Store F P} {gconnList : List Con} {tid : List Char} {len : ℤ}
    {data : Request} {callbackF : F} {callbackParam : P} {now : Timeval}
    (hpush : pushToMsgq s gconnList tid len data callbackF callbackParam now = some s') :
    s'.gmsgq.head ≠ none ↔ (tid = [] → s.gmsgq.head ≠ none) := by
  rcases pushToMsgq_eq_some hpush with ⟨htid, rfl⟩ | ⟨htid, routed, linked, _, happend, rfl⟩
  · exact ⟨fun h _ => h, fun h => h htid⟩
  · refine iff_of_true ?_ fun h => absurd h htid
    unfold appendNode at happend
    split at happend
    · cases happend
      exact Option.some_ne_none _
    · next first hhead =>
      obtain ⟨last, _, happend⟩ := Option.bind_eq_some_iff.mp happend
      obtain ⟨linked', _, happend⟩ := Option.bind_eq_some_iff.mp happend
      obtain ⟨linked'', _, rfl⟩ := Option.map_eq_some_iff.mp happend
      rw [hhead]
      exact Option.some_ne_none first

/-- A send worker moves the head of the queue by popping only. -/
theorem SendStep.head {s s' : Shared F P} {i : ℕ} {c : Con} {w w' : SendWorker} {a : SendAction}
    (hstep : SendStep s i c w a s' w') : a ≠ .pop ∧ s'.store.gmsgq.head = s.store.gmsgq.head ∨
      a = .pop ∧ ∃ popped, popFromMsgq s.store.gmsgq c.peerId = some (s'.store.gmsgq, popped) := by
  cases hstep with
  | popNone hpc hpop => exact Or.inr ⟨rfl, _, hpop⟩
  | pop hpc hpop hcell => exact Or.inr ⟨rfl, _, hpop⟩
  | recreate hpc hrecreate => exact Or.inl ⟨nofun, by rw [Shared.recreate_store hrecreate]⟩
  | connect connected hpc => exact Or.inl ⟨nofun, by rw [Shared.connect_store]⟩
  | free hpc hfree =>
    obtain ⟨heap, _, rfl⟩ := Option.map_eq_some_iff.mp hfree
    exact Or.inl ⟨nofun, rfl⟩
  | wait | goOn | wake | up | down | lock | start | sendFails | send | failed => exact Or.inl ⟨nofun, rfl⟩

/-- Whatever a step of a send worker does, the test stays safe exactly if it meets the condition. -/
theorem SendStep.safe_iff_keepsForTest {s : System F P} {i : ℕ} {c : Con} {a : SendAction} {shared : Shared F P}
    {w : SendWorker} (hc : s.shared.gconnList[i]? = some c)
    (hstep : SendStep s.shared i c (s.send i) a shared w) (hs : s.SafeTest) :
    (∀ k, s.pending k = true → shared.store.gmsgq.head ≠ none) ↔ (Action.send i a).KeepsForTest s := by
  rcases hstep.head with ⟨hne, hhead⟩ | ⟨rfl, popped, hpop⟩
  · rw [hhead]
    refine iff_of_true hs ?_
    cases a with
    | pop => exact absurd rfl hne
    | test | wake | checkState | lock | recreate | connect | start | send | failed | free => trivial
  · have hempty := popFromMsgq_head_eq_none hpop
    constructor
    · intro hsafe c' hc' honly k
      rw [hc, Option.some.injEq] at hc'
      subst hc'
      exact Bool.eq_false_iff.mpr fun hk => hsafe k hk (hempty.mpr (Or.inr honly))
    · intro hkeeps k hk hnone
      rcases hempty.mp hnone with hhead | honly
      · exact hs k hk hhead
      · rw [hkeeps c hc honly k] at hk
        cases hk

/-- A step keeps the test safe exactly if it meets the condition. -/
theorem sysStep_safeTest_iff {s s' : System F P} (a : Action F P) (hs : s.SafeTest)
    (hstep : sysStep s a = some s') : s'.SafeTest ↔ a.KeepsOrQueued s := by
  have hnamed (a : Action F P) (h : a.Named) : a.KeepsOrQueued s ↔ a.KeepsForTest s :=
    and_iff_left fun hnot => absurd h hnot
  cases a with
  | recv i a =>
    obtain ⟨c, shared, w, _, hworker, rfl⟩ := sysStep_recv hstep
    refine iff_of_true (fun k hk => ?_) ((hnamed (.recv i a) trivial).mpr trivial)
    change shared.store.gmsgq.head ≠ none
    rw [hworker.gmsgq]
    exact hs k hk
  | send i a =>
    obtain ⟨c, shared, w, hc, hworker, rfl⟩ := sysStep_send hstep
    exact (hworker.safe_iff_keepsForTest hc hs).trans (hnamed (.send i a) trivial).symm
  | append k req callbackF callbackParam now =>
    obtain ⟨_, h⟩ := Option.ite_none_left_eq_some.mp hstep
    obtain ⟨store, hpush, rfl⟩ := Option.map_eq_some_iff.mp h
    have hhead := pushToMsgq_head hpush
    have hcond : (Action.append k req callbackF callbackParam now).KeepsOrQueued s ↔
        (req.id.chars = [] → s.shared.store.gmsgq.head ≠ none) := by
      change True ∧ (¬ req.id.chars ≠ [] → _) ↔ _
      rw [true_and, not_not]
    rw [hcond, ← hhead]
    constructor
    · intro hsafe
      exact hsafe k (Function.update_self ..)
    · intro hqueued k' _
      exact hqueued
  | signal k woken =>
    obtain ⟨hshared, hpending, _⟩ := sysStep_signal_waiting hstep
    refine iff_of_true (fun k' hk' => ?_) ((hnamed (.signal k woken) trivial).mpr trivial)
    rw [hshared]
    rw [hpending] at hk'
    by_cases hk : k' = k
    · rw [hk, Function.update_self] at hk'
      cases hk'
    · rw [Function.update_of_ne hk] at hk'
      exact hs k' hk'
  | sweep now printable =>
    obtain ⟨table, _, rfl⟩ := Option.map_eq_some_iff.mp hstep
    exact iff_of_true hs ((hnamed (.sweep now printable) trivial).mpr trivial)

/-- In a run of requests with ids the test is safe throughout exactly if no step of it pops the only
message while a client is between its critical sections. -/
theorem safeTest_iff (cfg : Configurator) (gconnList : List Con) (kernel : Kernel)
    (acts : List (Action F P)) (hnamed : ∀ a ∈ acts, a.Named) :
    Throughout sysStep System.SafeTest (.start cfg gconnList kernel) acts ↔
      EachStep sysStep (fun s a => a.KeepsForTest s) (.start cfg gconnList kernel) acts := by
  rw [throughout_iff_eachStep sysStep (fun s a => a.KeepsOrQueued s) (fun _ => True) System.SafeTest
    (fun _ _ _ _ _ _ _ => trivial) (fun _ a _ _ hs hstep => sysStep_safeTest_iff a hs hstep) _ acts trivial
    fun k hk => absurd hk Bool.false_ne_true]
  apply eachStep_congr
  intro s a ha
  exact and_iff_left fun hnot => absurd (hnamed a ha) hnot

/-- A client queues a message, and the worker it is for pops it before the client makes its test. -/
def poppedBeforeTest : List (Action Unit Unit) :=
  [.append 0 ⟨some ['x', '\x00'], 1, 0, 0, oneCharId 'a'⟩ () () ⟨0, 0⟩, .send 0 .test, .send 0 .checkState, .send 0 .pop]

/-- The client then reads through `NULL`. -/
theorem poppedBeforeTest_not_safe : (∀ a ∈ poppedBeforeTest, a.Named) ∧
    manage twoPeers bothConnect = some (twoPeersUp : System Unit Unit) ∧
    ¬ Throughout sysStep System.SafeTest twoPeersUp poppedBeforeTest := by
  refine ⟨?_, rfl, fun hall => ?_⟩
  · simp [poppedBeforeTest, Action.Named, oneCharId]
  obtain ⟨final, hrun, hpending, hhead⟩ : ∃ final, runActions sysStep twoPeersUp poppedBeforeTest = some final ∧
      final.pending 0 = true ∧ final.shared.store.gmsgq.head = none := ⟨_, rfl, rfl, rfl⟩
  exact throughout_final sysStep _ _ _ _ hall hrun 0 hpending hhead

/-- A client that makes its test before the worker pops. -/
def testedBeforePop : List (Action Unit Unit) :=
  [.append 0 ⟨some ['x', '\x00'], 1, 0, 0, oneCharId 'a'⟩ () () ⟨0, 0⟩, .signal 0 none, .send 0 .test, .send 0 .checkState,
    .send 0 .pop]

/-- It makes its test in a safe state. -/
theorem testedBeforePop_safe : (∀ a ∈ testedBeforePop, a.Named) ∧
    Throughout sysStep System.SafeTest (.start twoPeers [⟨3, 1, 0⟩, ⟨4, 1, 1⟩] .initial) testedBeforePop := by
  have hnamed : ∀ a ∈ testedBeforePop, a.Named := by simp [testedBeforePop, Action.Named, oneCharId]
  refine ⟨hnamed, (safeTest_iff _ _ _ _ hnamed).mpr ?_⟩
  refine .cons rfl trivial (.cons rfl trivial (.cons rfl trivial (.cons rfl trivial (.cons rfl ?_ trivial))))
  intro c _ _ k
  cases k with
  | zero => rfl
  | succ k => rfl

end TcpClb
