import TcpClb.Deadlines
import Mathlib.Order.Monotone.Defs

/-!
# The timeout flag of a response

Runs of the response handling under a clock that never goes back: every push, lookup and sweep
reads it. The history records the pushes and the start of each sweep, and every callback is judged
when it is invoked. The flag should be set only if more than `EXPIRY` seconds have passed since the
last push of the id, and must be set if a sweep ran after that and before the response was looked up.

`update_entry_idq` moves the deadline but does not clear the flag, so an id that is pushed again
after a sweep has marked it keeps the mark. Nor does a push reach the flag that a worker has copied
for the response it handles. The flags are right in the runs that push no id between the lookup of a
response and its callback, and invoke no callback within `EXPIRY` seconds of a push which found a mark.
-/

namespace TcpClb

open TcpClb.Common

variable {n : ℕ} {F P : Type}

/-- A push, with the expiry flag of the entry that it found, or the start of a sweep. -/
inductive TimedEvent
  | pushed (tid : List Char) (time : ℕ) (wasExpired : Bool)
  | swept (start : ℕ)
  deriving DecidableEq

/-- A callback with the time of its invocation, what had happened by then, and what of that by the lookup. -/
structure Answer where
  tid : List Char
  time : ℕ
  history : List TimedEvent
  arrived : List TimedEvent
  isTimeout : Bool

/-- The response handling with the clock and the history. Each worker remembers the history and the
time of its last lookup. -/
structure Timed (F P : Type) where
  responses : Responses F P
  clock : ℕ
  history : List TimedEvent
  arrival : ℕ → List TimedEvent × ℕ
  answers : List Answer

/-- Nothing has been sent. -/
def Timed.initial : Timed F P := ⟨.initial, 0, [], fun _ => ([], 0), []⟩

/-- One step, with the readings of the clock that it takes, and for a callback the time. -/
inductive TimedAction (n : ℕ) (F P : Type)
  | send (gconnList : List Con) (hlen : getPeers gconnList = n) (req : Request) (callbackF : F)
      (callbackParam : P) (now : ℕ)
  | lookup (w : ℕ) (tid : List Char) (now : ℕ)
  | callback (w : ℕ) (now : ℕ)
  | remove (w : ℕ)
  | sweep (now : ℕ → ℕ) (hnow : Monotone now) (printable : P → Bool)

/-- Perform one step; impossible if it would be at an earlier time. -/
def timedStep (s : Timed F P) : TimedAction n F P → Option (Timed F P)
  | .send gconnList hlen req callbackF callbackParam now =>
    if now < s.clock then none else
      (respStep s.responses (.send gconnList hlen req callbackF callbackParam (gettimeofday now))).map
        fun responses =>
          { s with
            responses := responses
            clock := now
            history := s.history ++ [.pushed req.id.chars now
              ((entryOf s.responses.store.gtsidq req.id.chars).any Tsidque.isExpired)] }
  | .lookup w tid now =>
    if now < s.clock then none else
      (respStep s.responses (.lookup w tid (gettimeofday now) : RespAction n F P)).map fun responses =>
        { s with
          responses := responses
          clock := now
          arrival := Function.update s.arrival w (s.history, now) }
  | .callback w now =>
    if now < s.clock then none else
      match s.responses.worker w with
      | none => none
      | some h =>
        (respStep s.responses (.callback w : RespAction n F P)).map fun responses =>
          { s with
            responses := responses
            clock := now
            answers := s.answers ++ [⟨h.tid, now, s.history, (s.arrival w).1, h.found.isExpired⟩] }
  | .remove w =>
    (respStep s.responses (.remove w : RespAction n F P)).map fun responses =>
      { s with responses := responses }
  | .sweep now _ printable =>
    if now 0 < s.clock then none else
      (respStep s.responses (.sweep (fun i => gettimeofday (now i)) printable : RespAction n F P)).map
        fun responses =>
          { s with
            responses := responses
            clock := now s.responses.store.gtsidq.length
            history := s.history ++ [.swept (now 0)] }

/-- What the last push of an id was, one event later. -/
def pushedAfter (tid : List Char) (last : Option (ℕ × Bool)) : TimedEvent → Option (ℕ × Bool)
  | .pushed tid' time wasExpired => if tid' = tid then some (time, wasExpired) else last
  | .swept _ => last

/-- Time of the last push of an id, and whether it found the entry of the id marked as expired. -/
def lastPush (tid : List Char) (history : List TimedEvent) : Option (ℕ × Bool) :=
  history.foldl (pushedAfter tid) none

/-- Some sweep has started more than `EXPIRY` seconds after a moment. -/
def SweptAfter (pushed : ℕ) (history : List TimedEvent) : Prop :=
  ∃ start, TimedEvent.swept start ∈ history ∧ pushed + expiryUsec < start

/-- The callback tells of a timeout only if the last push of the id was more than `EXPIRY` seconds
ago, and does tell of it if a sweep ran after that and before the lookup. -/
def Answer.Sound (a : Answer) : Prop :=
  ∃ pushed wasExpired, lastPush a.tid a.history = some (pushed, wasExpired) ∧
    (a.isTimeout = true → pushed + expiryUsec < a.time) ∧
    (SweptAfter pushed a.arrived → a.isTimeout = true)

/-- The callbacks are invoked with the flags of the answers, and these are sound. -/
def Timed.FlagsSound (s : Timed F P) : Prop :=
  s.answers.map Answer.isTimeout = s.responses.called.map Invocation.isTimeout ∧
    ∀ a ∈ s.answers, a.Sound

/-- The step is not a callback for a response whose id has been pushed since the lookup. -/
def TimedAction.Undisturbed (s : Timed F P) : TimedAction n F P → Prop
  | .callback w _ => ∀ h, s.responses.worker w = some h →
      ∀ time wasExpired, .pushed h.tid time wasExpired ∉ s.history.drop (s.arrival w).1.length
  | _ => True

/-- The step is not a callback within `EXPIRY` seconds of the last push of its id, if that push found the entry of
the id marked. -/
def TimedAction.NotReused (s : Timed F P) : TimedAction n F P → Prop
  | .callback w now => ∀ h, s.responses.worker w = some h →
      ∀ pushed, lastPush h.tid s.history = some (pushed, true) → pushed + expiryUsec < now
  | _ => True

/-- What a flag says about the history at some time: a set flag comes from before the last push or
from a sweep past the deadline, and it is set after either. -/
def Accounts (tid : List Char) (history : List TimedEvent) (time : ℕ) (flag : Bool) (pushed : ℕ) : Prop :=
  ∃ wasExpired, lastPush tid history = some (pushed, wasExpired) ∧
    (flag = true → wasExpired = true ∨ pushed + expiryUsec < time) ∧
    (wasExpired = true ∨ SweptAfter pushed history → flag = true)

/-- The flags in the table and those that workers have copied agree with the history. -/
structure Timed.Dated (n : ℕ) (s : Timed F P) : Prop where
  inv : s.responses.Inv n
  sweptLe : ∀ start, TimedEvent.swept start ∈ s.history → start ≤ s.clock
  entries : ∀ t e, entryOf s.responses.store.gtsidq t = some e → ∃ pushed,
    e.eTime = (gettimeofday pushed).addExpiry ∧ Accounts t s.history s.clock e.isExpired pushed
  held : ∀ w h, s.responses.worker w = some h → ∃ pushed,
    Accounts h.tid (s.arrival w).1 (s.arrival w).2 h.found.isExpired pushed
  arrived : ∀ w, (s.arrival w).1 <+: s.history ∧ (s.arrival w).2 ≤ s.clock
  flags : s.answers.map Answer.isTimeout = s.responses.called.map Invocation.isTimeout

/-- The last push after one more event. -/
theorem lastPush_snoc (tid : List Char) (history : List TimedEvent) (event : TimedEvent) :
    lastPush tid (history ++ [event]) = pushedAfter tid (lastPush tid history) event := by
  rw [lastPush, List.foldl_append]
  rfl

/-- The last push of an id after events of which none is a push of it. -/
theorem lastPush_append {tid : List Char} {since : List TimedEvent}
    (hnone : ∀ time wasExpired, .pushed tid time wasExpired ∉ since) (history : List TimedEvent) :
    lastPush tid (history ++ since) = lastPush tid history := by
  induction since generalizing history with
  | nil => rw [List.append_nil]
  | cons event since ih =>
    rw [List.append_cons, ih (fun time was hmem => hnone time was (List.mem_cons_of_mem event hmem)), lastPush_snoc]
    cases event with
    | pushed tid' time wasExpired =>
      refine if_neg fun htid => ?_
      subst htid
      exact hnone time wasExpired List.mem_cons_self
    | swept start => rfl

/-- A push is no sweep. -/
theorem sweptAfter_snoc_pushed (pushed : ℕ) (history : List TimedEvent) (tid : List Char) (time : ℕ)
    (wasExpired : Bool) :
    SweptAfter pushed (history ++ [.pushed tid time wasExpired]) ↔ SweptAfter pushed history := by
  simp [SweptAfter]

/-- A sweep counts if it starts after the deadline. -/
theorem sweptAfter_snoc_swept (pushed : ℕ) (history : List TimedEvent) (start : ℕ) :
    SweptAfter pushed (history ++ [.swept start]) ↔
      SweptAfter pushed history ∨ pushed + expiryUsec < start := by
  simp only [SweptAfter, List.mem_append, List.mem_singleton, TimedEvent.swept.injEq, or_and_right,
    exists_or, exists_eq_left]

/-- The account of a flag stays right as the clock goes on. -/
theorem Accounts.later {tid : List Char} {history : List TimedEvent} {time later : ℕ} {flag : Bool}
    {pushed : ℕ} (h : Accounts tid history time flag pushed) (hle : time ≤ later) :
    Accounts tid history later flag pushed := by
  obtain ⟨wasExpired, hlast, honly, hset⟩ := h
  exact ⟨wasExpired, hlast, fun hflag => (honly hflag).imp_right fun hlt => lt_of_lt_of_le hlt hle, hset⟩

/-- A push of another id does not change the account of a flag. -/
theorem Accounts.push_other {tid : List Char} {history : List TimedEvent} {time : ℕ} {flag : Bool}
    {pushed : ℕ} (h : Accounts tid history time flag pushed) {tid' : List Char} (hne : tid' ≠ tid)
    (now : ℕ) (wasExpired : Bool) :
    Accounts tid (history ++ [.pushed tid' now wasExpired]) time flag pushed := by
  obtain ⟨was, hlast, honly, hset⟩ := h
  refine ⟨was, ?_, honly, ?_⟩
  · rw [lastPush_snoc, pushedAfter, if_neg hne, hlast]
  · rwa [sweptAfter_snoc_pushed]

/-- A push accounts for the flag that it leaves in the entry: no sweep has come after it. -/
theorem accounts_push (tid : List Char) (history : List TimedEvent) (now : ℕ) (flag : Bool)
    (hswept : ∀ start, TimedEvent.swept start ∈ history → start ≤ now) :
    Accounts tid (history ++ [.pushed tid now flag]) now flag now := by
  refine ⟨flag, ?_, Or.inl, ?_⟩
  · rw [lastPush_snoc, pushedAfter, if_pos rfl]
  · rw [sweptAfter_snoc_pushed]
    rintro (hflag | ⟨start, hmem, hlt⟩)
    · exact hflag
    · have hle := hswept start hmem
      omega

/-- A sweep accounts for the marks that it makes: its reading of the clock for the entry lies
between its start and its end. -/
theorem Accounts.sweep {tid : List Char} {history : List TimedEvent} {time : ℕ} {pushed : ℕ}
    {e : Tsidque F P} (h : Accounts tid history time e.isExpired pushed)
    (htime : e.eTime = (gettimeofday pushed).addExpiry) {start now finish : ℕ} (hstart : start ≤ now)
    (hfinish : now ≤ finish) (hle : time ≤ finish) :
    Accounts tid (history ++ [.swept start]) finish (e.markExpired (gettimeofday now)).isExpired
      pushed := by
  obtain ⟨wasExpired, hlast, honly, hset⟩ := h
  have hmark : (e.markExpired (gettimeofday now)).isExpired = true ↔
      pushed + expiryUsec < now ∨ e.isExpired = true := by
    rw [markExpired_eq, Bool.or_eq_true, htime, before_gettimeofday]
  refine ⟨wasExpired, by rw [lastPush_snoc]; exact hlast, ?_, ?_⟩
  · rw [hmark]
    rintro (hlt | hflag)
    · exact Or.inr (by omega)
    · exact (honly hflag).imp_right fun hlt => lt_of_lt_of_le hlt hle
  · rw [hmark, sweptAfter_snoc_swept]
    rintro (hwas | hswept | hlt)
    · exact Or.inr (hset (Or.inl hwas))
    · exact Or.inr (hset (Or.inr hswept))
    · exact Or.inl (by omega)

/-- Initially nothing has been pushed. -/
theorem Timed.initial_dated : (Timed.initial : Timed F P).Dated n where
  inv := Responses.initial_inv
  sweptLe _ hmem := by cases hmem
  entries _ _ he := by cases he
  held _ _ hw := by cases hw
  arrived _ := ⟨List.nil_prefix, le_rfl⟩
  flags := rfl

/-- A step at some time is possible only if the clock has not passed it. -/
theorem of_reading {α : Type} {now clock : ℕ} {result : Option α} {y : α}
    (h : (if now < clock then none else result) = some y) : clock ≤ now ∧ result = some y := by
  by_cases hlt : now < clock
  · rw [if_pos hlt] at h
    cases h
  · rw [if_neg hlt] at h
    exact ⟨by omega, h⟩

/-- A push accounts for the flag in the entry of its id, whether it clears it or not. -/
theorem Timed.Dated.send {s s' : Timed F P} (hs : s.Dated n) {gconnList : List Con}
    {hlen : getPeers gconnList = n} {req : Request} {callbackF : F} {callbackParam : P} {now : ℕ}
    (hstep : timedStep s (.send gconnList hlen req callbackF callbackParam now) = some s') :
    s'.Dated n := by
  obtain ⟨hle, hstep⟩ := of_reading hstep
  obtain ⟨responses, hresp, rfl⟩ := Option.map_eq_some_iff.mp hstep
  obtain ⟨hworker, hcalled, _⟩ := respStep_send hs.inv.wf hresp
  have hinv := hs.inv.send hresp
  obtain ⟨store, hpush, rfl⟩ := Option.map_eq_some_iff.mp hresp
  have hswept : ∀ start, TimedEvent.swept start ∈ s.history → start ≤ now :=
    fun start hmem => le_trans (hs.sweptLe start hmem) hle
  refine ⟨hinv, fun start hmem => ?_, fun t e he => ?_, hs.held, fun w => ?_, hs.flags⟩
  · apply hswept
    simpa using hmem
  · rcases entryOf_pushToMsgq (hlen ▸ hs.inv.wf) hpush t e he with ⟨rfl, htime, hflag⟩ | ⟨ht, he⟩
    · rw [← hflag]
      exact ⟨now, htime, accounts_push _ _ _ _ hswept⟩
    · obtain ⟨pushed, htime, hacc⟩ := hs.entries t e he
      exact ⟨pushed, htime, (hacc.push_other (Ne.symm ht) now _).later hle⟩
  · exact ⟨(hs.arrived w).1.trans (List.prefix_append _ _), le_trans (hs.arrived w).2 hle⟩

/-- A lookup copies a flag that is accounted for at that moment. -/
theorem Timed.Dated.lookup {s s' : Timed F P} (hs : s.Dated n) {w : ℕ} {tid : List Char} {now : ℕ}
    (hstep : timedStep s (.lookup w tid now : TimedAction n F P) = some s') : s'.Dated n := by
  obtain ⟨hle, hstep⟩ := of_reading hstep
  obtain ⟨responses, hresp, rfl⟩ := Option.map_eq_some_iff.mp hstep
  have hinv := hs.inv.step _ hresp
  have hswept : ∀ start, TimedEvent.swept start ∈ s.history → start ≤ now :=
    fun start hmem => le_trans (hs.sweptLe start hmem) hle
  have hlater (t : List Char) (e : Tsidque F (P × ℕ)) (he : entryOf s.responses.store.gtsidq t = some e) :
      ∃ pushed, e.eTime = (gettimeofday pushed).addExpiry ∧
        Accounts t s.history now e.isExpired pushed := by
    obtain ⟨pushed, htime, hacc⟩ := hs.entries t e he
    exact ⟨pushed, htime, hacc.later hle⟩
  have harrived (w' : ℕ) : (Function.update s.arrival w (s.history, now) w').1 <+: s.history ∧
      (Function.update s.arrival w (s.history, now) w').2 ≤ now := by
    by_cases heq : w' = w
    · rw [heq, Function.update_self]
      exact ⟨List.prefix_refl _, le_rfl⟩
    · rw [Function.update_of_ne heq]
      exact ⟨(hs.arrived w').1, le_trans (hs.arrived w').2 hle⟩
  obtain ⟨hidle, rfl | ⟨found, hfound, rfl⟩⟩ := respStep_lookup hresp
  · refine ⟨hinv, hswept, hlater, fun w' h hw => ?_, harrived, hs.flags⟩
    have hne : w' ≠ w := fun heq => by rw [heq, hidle] at hw; cases hw
    dsimp only
    rw [Function.update_of_ne hne]
    exact hs.held w' h hw
  · refine ⟨hinv, hswept, hlater, fun w' h hw => ?_, harrived, hs.flags⟩
    by_cases heq : w' = w
    · subst heq
      simp only [Function.update_self, Option.some.injEq] at hw ⊢
      subst hw
      unfold lookupIDIdq at hfound
      split at hfound
      · cases hfound
      obtain ⟨e, he, rfl⟩ := Option.map_eq_some_iff.mp hfound
      obtain ⟨pushed, _, hacc⟩ := hlater tid e he
      exact ⟨pushed, hacc⟩
    · simp only [Function.update_of_ne heq] at hw ⊢
      exact hs.held w' h hw

/-- What a callback step does: it follows the lookup and answers with the flag found there. -/
theorem timedStep_callback {s s' : Timed F P} {w now : ℕ}
    (hstep : timedStep s (.callback w now : TimedAction n F P) = some s') :
    s.clock ≤ now ∧ ∃ tid found, s.responses.worker w = some ⟨tid, found, false⟩ ∧
      s' = { s with
        responses :=
          { s.responses with
            worker := Function.update s.responses.worker w (some ⟨tid, found, true⟩)
            called := s.responses.called ++
              [⟨found.callbackParam.2, found.isExpired, found.elapsedMsecs⟩] }
        clock := now
        answers := s.answers ++ [⟨tid, now, s.history, (s.arrival w).1, found.isExpired⟩] } := by
  obtain ⟨hle, hstep⟩ := of_reading hstep
  refine ⟨hle, ?_⟩
  split at hstep
  · cases hstep
  · next h hw =>
    obtain ⟨responses, hresp, rfl⟩ := Option.map_eq_some_iff.mp hstep
    obtain ⟨tid, found, hw', rfl⟩ := respStep_callback hresp
    rw [hw, Option.some.injEq] at hw'
    subst hw'
    exact ⟨tid, found, hw, rfl⟩

/-- A callback changes no entry and no copied flag. -/
theorem Timed.Dated.callback {s s' : Timed F P} (hs : s.Dated n) {w now : ℕ}
    (hstep : timedStep s (.callback w now : TimedAction n F P) = some s') : s'.Dated n := by
  obtain ⟨hle, tid, found, hw, rfl⟩ := timedStep_callback hstep
  refine ⟨hs.inv.step (.callback w : RespAction n F P) ?_, fun start hmem => le_trans (hs.sweptLe start hmem) hle,
    fun t e he => ?_, fun w' h hw' => ?_, fun w' => ⟨(hs.arrived w').1, le_trans (hs.arrived w').2 hle⟩, ?_⟩
  · simp only [respStep, hw]
  · obtain ⟨pushed, htime, hacc⟩ := hs.entries t e he
    exact ⟨pushed, htime, hacc.later hle⟩
  · dsimp only at hw'
    by_cases heq : w' = w
    · subst heq
      rw [Function.update_self, Option.some.injEq] at hw'
      subst hw'
      exact hs.held w' ⟨tid, found, false⟩ hw
    · rw [Function.update_of_ne heq] at hw'
      exact hs.held w' h hw'
  · simp only [List.map_append, List.map_cons, List.map_nil, hs.flags]

/-- A removal leaves the entries of the other ids, and the removing worker holds nothing. -/
theorem Timed.Dated.remove {s s' : Timed F P} (hs : s.Dated n) {w : ℕ}
    (hstep : timedStep s (.remove w : TimedAction n F P) = some s') : s'.Dated n := by
  obtain ⟨responses, hresp, rfl⟩ := Option.map_eq_some_iff.mp hstep
  have hinv := hs.inv.step _ hresp
  obtain ⟨tid, found, hw, rfl⟩ := respStep_remove hresp
  refine ⟨hinv, hs.sweptLe, fun t e he => ?_, fun w' h hw' => ?_, hs.arrived, hs.flags⟩
  · dsimp only at he
    rw [entryOf_remId _ _ _ hs.inv.wf.distinct] at he
    split at he
    · cases he
    · exact hs.entries t e he
  · dsimp only at hw'
    rw [Function.update_apply] at hw'
    split at hw'
    · cases hw'
    · exact hs.held w' h hw'

/-- A sweep accounts for the marks that it makes. -/
theorem Timed.Dated.sweep {s s' : Timed F P} (hs : s.Dated n) {now : ℕ → ℕ} {hnow : Monotone now}
    {printable : P → Bool} (hstep : timedStep s (.sweep now hnow printable : TimedAction n F P) = some s') :
    s'.Dated n := by
  obtain ⟨hle, hstep⟩ := of_reading hstep
  obtain ⟨responses, hresp, rfl⟩ := Option.map_eq_some_iff.mp hstep
  have hinv := hs.inv.step _ hresp
  obtain ⟨_, rfl⟩ := respStep_sweep hresp
  have hend : now 0 ≤ now s.responses.store.gtsidq.length := hnow (Nat.zero_le _)
  refine ⟨hinv, fun start hmem => ?_, fun t e' he' => ?_, hs.held, fun w => ?_, hs.flags⟩
  · rcases List.mem_append.mp hmem with hmem | hmem
    · exact le_trans (hs.sweptLe start hmem) (le_trans hle hend)
    · simp only [List.mem_singleton, TimedEvent.swept.injEq] at hmem
      exact hmem ▸ hend
  · obtain ⟨e, he, i, hi, rfl⟩ := entryOf_of_sweptIdq he'
    obtain ⟨pushed, htime, hacc⟩ := hs.entries t e he
    refine ⟨pushed, ?_, hacc.sweep htime (hnow (Nat.zero_le i)) (hnow hi.le) (le_trans hle hend)⟩
    rw [markExpired_eq]
    exact htime
  · exact ⟨(hs.arrived w).1.trans (List.prefix_append _ _), le_trans (hs.arrived w).2 (le_trans hle hend)⟩

/-- Every step keeps the flags accounted for. -/
theorem Timed.Dated.step {s s' : Timed F P} (hs : s.Dated n) (a : TimedAction n F P)
    (hstep : timedStep s a = some s') : s'.Dated n := by
  cases a with
  | send gconnList hlen req callbackF callbackParam now => exact hs.send hstep
  | lookup w tid now => exact hs.lookup hstep
  | callback w now => exact hs.callback hstep
  | remove w => exact hs.remove hstep
  | sweep now hnow printable => exact hs.sweep hstep

/-- A flag that was accounted for at the lookup, with no push of the id since, is sound exactly if it does not come
from before the last push, or the deadline is over all the same. -/
theorem Accounts.sound_iff {a : Answer} {time pushed : ℕ} (h : Accounts a.tid a.arrived time a.isTimeout pushed)
    (hle : time ≤ a.time) (hsame : lastPush a.tid a.history = lastPush a.tid a.arrived) :
    a.Sound ↔ ∀ pushed, lastPush a.tid a.history = some (pushed, true) → pushed + expiryUsec < a.time := by
  obtain ⟨wasExpired, hlast, honly, hset⟩ := h.later hle
  rw [← hsame] at hlast
  constructor
  · rintro ⟨pushed', was', hlast', honly', _⟩ pushed'' hlast''
    rw [hlast, Option.some.injEq, Prod.mk.injEq] at hlast' hlast''
    obtain ⟨rfl, _⟩ := hlast'
    obtain ⟨rfl, hwas⟩ := hlast''
    exact honly' (hset (Or.inl hwas))
  · intro hreused
    refine ⟨pushed, wasExpired, hlast, fun hflag => ?_, fun hswept => hset (Or.inr hswept)⟩
    rcases honly hflag with rfl | hlt
    · exact hreused pushed hlast
    · exact hlt

/-- After one step that is no disturbed callback, the callbacks have been invoked with sound flags exactly if it
meets the condition. -/
theorem timedStep_flagsSound_iff {s s' : Timed F P} (hs : s.Dated n) (a : TimedAction n F P)
    (hsound : s.FlagsSound) (hwhole : a.Undisturbed s) (hstep : timedStep s a = some s') :
    s'.FlagsSound ↔ a.NotReused s := by
  have hflags := (hs.step a hstep).flags
  rw [Timed.FlagsSound, and_iff_right hflags]
  have hsame (heq : s'.answers = s.answers) : ∀ a ∈ s'.answers, a.Sound := by
    rw [heq]
    exact hsound.2
  cases a with
  | send gconnList hlen req callbackF callbackParam now =>
    obtain ⟨responses, _, rfl⟩ := Option.map_eq_some_iff.mp (of_reading hstep).2
    exact iff_of_true (hsame rfl) trivial
  | lookup w tid now =>
    obtain ⟨responses, _, rfl⟩ := Option.map_eq_some_iff.mp (of_reading hstep).2
    exact iff_of_true (hsame rfl) trivial
  | callback w now =>
    obtain ⟨hle, tid, found, hw, rfl⟩ := timedStep_callback hstep
    obtain ⟨pushed, hacc⟩ := hs.held w _ hw
    obtain ⟨⟨since, hsince⟩, htime⟩ := hs.arrived w
    have hnone := hwhole _ hw
    rw [← hsince, List.drop_left] at hnone
    have hlast : lastPush tid s.history = lastPush tid (s.arrival w).1 := by
      rw [← hsince, lastPush_append hnone]
    have hiff := Accounts.sound_iff (a := ⟨tid, now, s.history, (s.arrival w).1, found.isExpired⟩) hacc
      (le_trans htime hle) hlast
    simp only [List.forall_mem_append, List.forall_mem_singleton]
    rw [and_iff_right hsound.2, hiff]
    simp only [TimedAction.NotReused, hw, Option.some.injEq, forall_eq']
  | remove w =>
    obtain ⟨responses, _, rfl⟩ := Option.map_eq_some_iff.mp hstep
    exact iff_of_true (hsame rfl) trivial
  | sweep now hnow printable =>
    obtain ⟨responses, _, rfl⟩ := Option.map_eq_some_iff.mp (of_reading hstep).2
    exact iff_of_true (hsame rfl) trivial

/-- In a run that pushes no id between the lookup of a response and its callback, the timeout flags are sound exactly
when no callback is invoked within `EXPIRY` seconds of a push that found the entry of its id already marked. -/
theorem timeoutFlags_iff (acts : List (TimedAction n F P))
    (hwhole : EachStep timedStep (fun s a => a.Undisturbed s) .initial acts) :
    Throughout timedStep Timed.FlagsSound .initial acts ↔
      EachStep timedStep (fun s a => a.NotReused s) .initial acts := by
  apply throughout_iff_of_allowed timedStep (fun s a => a.Undisturbed s) (fun s a => a.NotReused s)
    (fun s => s.Dated n) Timed.FlagsSound
  · intro s a next hs _ _ hstep
    exact hs.step a hstep
  · intro s a next hs hsound hwhole hstep
    exact timedStep_flagsSound_iff hs a hsound hwhole hstep
  · exact Timed.initial_dated
  · exact ⟨rfl, fun a ha => by cases ha⟩
  · exact hwhole

/-- An id is pushed, and marked by a sweep 31 seconds later. -/
def pushedAndMarked : List (TimedAction 1 Unit Unit) :=
  [.send [⟨5, 1, 0⟩] rfl ⟨some ['x', '\x00'], 1, 0, 0, oneCharId 'b'⟩ () () 0,
    .sweep (fun _ => 31000000) monotone_const fun _ => true]

/-- A second request under the id. -/
def pushedAgain (now : ℕ) : TimedAction 1 Unit Unit :=
  .send [⟨5, 1, 0⟩] rfl ⟨some ['y', '\x00'], 1, 0, 0, oneCharId 'b'⟩ () () now

/-- The response to the first request is told of the timeout. -/
theorem pushedAndMarked_sound : Throughout timedStep Timed.FlagsSound .initial
    (pushedAndMarked ++ [.lookup 0 ['b'] 32000000, .callback 0 33000000, .remove 0]) := by
  have hwhole : EachStep timedStep (fun s a => a.Undisturbed s) .initial
      (pushedAndMarked ++ [.lookup 0 ['b'] 32000000, .callback 0 33000000, .remove 0]) := by
    apply EachStep.cons rfl trivial
    apply EachStep.cons rfl trivial
    apply EachStep.cons rfl trivial
    apply EachStep.cons rfl
    · intro h _ time was hmem
      cases hmem
    apply EachStep.cons rfl trivial
    trivial
  refine (timeoutFlags_iff _ hwhole).mpr ?_
  apply EachStep.cons rfl trivial
  apply EachStep.cons rfl trivial
  apply EachStep.cons rfl trivial
  apply EachStep.cons rfl
  · intro h hw pushed hlast
    cases hw
    cases hlast
  apply EachStep.cons rfl trivial
  trivial

/-- After a second request, whether it comes before the response is looked up or behind, the callback is told of a
timeout that has not come. -/
theorem reused_not_sound :
    ¬ Throughout timedStep Timed.FlagsSound .initial
      (pushedAndMarked ++ [pushedAgain 32000000, .lookup 0 ['b'] 33000000, .callback 0 33000000]) ∧
    ¬ Throughout timedStep Timed.FlagsSound .initial
      (pushedAndMarked ++ [.lookup 0 ['b'] 32000000, pushedAgain 33000000, .callback 0 33000000]) := by
  have hfails {acts : List (TimedAction 1 Unit Unit)} (pushed : ℕ) (was : Bool) (htime : 33000000 ≤ pushed + expiryUsec)
      (hrun : ∃ final, runActions timedStep .initial acts = some final ∧ ∃ a, a ∈ final.answers ∧
        lastPush a.tid a.history = some (pushed, was) ∧ a.time = 33000000 ∧ a.isTimeout = true) :
      ¬ Throughout timedStep Timed.FlagsSound .initial acts := by
    intro hall
    obtain ⟨final, hrun, a, ha, hlast, hnow, hflag⟩ := hrun
    obtain ⟨pushed', was', hlast', honly, _⟩ := (throughout_final timedStep _ _ _ _ hall hrun).2 a ha
    rw [hlast, Option.some.injEq, Prod.mk.injEq] at hlast'
    have hlt := honly hflag
    omega
  exact ⟨hfails 32000000 true (by decide) ⟨_, rfl, _, List.mem_cons_self, rfl, rfl, rfl⟩,
    hfails 33000000 true (by decide) ⟨_, rfl, _, List.mem_cons_self, rfl, rfl, rfl⟩⟩

end TcpClb
