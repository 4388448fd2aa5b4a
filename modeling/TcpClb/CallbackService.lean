import TcpClb.Common.Runs
import TcpClb.Dispatch
import Mathlib.Logic.Function.Basic

/-!
# What receiving is for

The receiving half of the library as a service. Clients register a callback under an id with every request, a sweep
marks what has expired, and every peer sends bodies. A worker takes the next body of its peer, calls the callback that
the fields of the body and the registrations decide on, and ends the registration if it was a response.

Here the registrations are a map and the peers' bodies are lists: there are no bytes, no frames and no list nodes.
-/

namespace TcpClb

open TcpClb.Common

variable {F P : Type}

/-- What is registered for an id. -/
structure Registration (F P : Type) where
  isExpired : Bool
  aTime : Timeval
  eTime : Timeval
  callbackF : F
  callbackParam : P

/-- The registration after a sweep has come to it. -/
def Registration.expireAt (r : Registration F P) (now : Timeval) : Registration F P :=
  { r with isExpired := r.eTime.before now || r.isExpired }

/-- What a worker does next: take a message, call a callback with one, or end the registration that it has answered. -/
inductive WorkerDuty (F P : Type)
  | receive
  | call (call : Call F P) (message : List Char)
  | remove (tid : List Char)

/-- A call that a worker has made, with the text that came with it. -/
structure MadeCall (F P : Type) where
  worker : ℕ
  call : Call F P
  message : List Char

/-- What is to be done about a message that leads to the call. -/
def Call.duty (message : List Char) : Call F P → WorkerDuty F P
  | .none => .receive
  | call => .call call message

/-- What is to be done after the call. -/
def Call.afterwards : Call F P → WorkerDuty F P
  | .response _ _ _ id _ _ => .remove id
  | _ => .receive

/-- The text that a worker is about to call a callback with. -/
def WorkerDuty.message : WorkerDuty F P → Option (List Char)
  | .call _ message => some message
  | _ => none

/-- What is registered, what each peer has still to say, what the workers do next, and the calls they have made. -/
structure CallbackService (F P : Type) where
  registered : List Char → Option (Registration F P)
  inbox : ℕ → List XmlBody
  duty : ℕ → WorkerDuty F P
  calls : List (MadeCall F P)

/-- Nothing is registered, and the peers have said nothing yet. -/
def CallbackService.start (messages : ℕ → List XmlBody) : CallbackService F P :=
  ⟨fun _ => none, messages, fun _ => .receive, []⟩

/-- What happens to the service: a client registers an id, a worker does the next thing, registrations expire, or
something happens elsewhere. -/
inductive ServiceEvent (F P : Type)
  | register (id : List Char) (callbackF : F) (callbackParam : P) (now : Timeval)
  | receive (w : ℕ) (curr : Timeval)
  | call (w : ℕ)
  | remove (w : ℕ)
  | expire (now : List Char → Timeval)
  | elsewhere

/-- What is found for an id. -/
def CallbackService.lookup (s : CallbackService F P) (curr : Timeval) (tid : List Char) : Option (Found F P) :=
  (s.registered tid).map fun r => ⟨elapsedMsecs r.aTime curr, tid, r.isExpired, r.callbackF, r.callbackParam⟩

/-- A response goes to the callback found for its id, if any. -/
def Fields.answerFor (fields : Fields) (lookup : List Char → Option (Found F P)) : Call F P :=
  match lookup (fields.tid.getD []) with
  | some n => .response n.callbackF (if n.isExpired then 1 else 0) n.callbackParam (fields.tid.getD [])
      (atoiInt (fields.replyCode.getD [])) n.elapsedMsecs
  | none => .none

/-- The call that the fields of a body and what is found for ids decide on. -/
def Fields.callFor (fields : Fields) (lookup : List Char → Option (Found F P)) : Call F P :=
  match fields.type with
  | none => .none
  | some type =>
    if fields.event = true then
      if atoiInt type = 1 then
        match lookup (fields.tid.getD []) with
        | some n => .request 1 1 1 [] n.elapsedMsecs
        | none => .request 0 0 0 [] 0
      else fields.answerFor lookup
    else if fields.sid.isSome = true then .request 0 0 1 [] 0
    else if atoiInt type = 1 then .none
    else fields.answerFor lookup

/-- One step of the service. A new registration for a registered id keeps the mark. -/
def serviceStep (s : CallbackService F P) : ServiceEvent F P → Option (CallbackService F P)
  | .register id callbackF callbackParam now => some
    { s with registered := if id = [] then s.registered else Function.update s.registered id (some
        ⟨(s.registered id).any Registration.isExpired, now, now.addExpiry, callbackF, callbackParam⟩) }
  | .receive w curr =>
    match s.duty w, s.inbox w with
    | .receive, body :: rest => some
      { s with
        inbox := Function.update s.inbox w rest
        duty := Function.update s.duty w ((body.fields.callFor (s.lookup curr)).duty body.text) }
    | _, _ => none
  | .call w =>
    match s.duty w with
    | .call call message => some
      { s with
        duty := Function.update s.duty w call.afterwards
        calls := s.calls ++ [⟨w, call, message⟩] }
    | _ => none
  | .remove w =>
    match s.duty w with
    | .remove tid => some
      { s with
        registered := Function.update s.registered tid none
        duty := Function.update s.duty w .receive }
    | _ => none
  | .expire now => some { s with registered := fun id => (s.registered id).map fun r => r.expireAt (now id) }
  | .elsewhere => some s

/-- The id that an event registers. -/
def ServiceEvent.registers : ServiceEvent F P → Option (List Char)
  | .register id _ _ _ => some id
  | _ => none

/-- The last registration of the id was made with this callback and parameter at this time. -/
def RegisteredLast (events : List (ServiceEvent F P)) (id : List Char) (callbackF : F) (callbackParam : P)
    (now : Timeval) : Prop :=
  ∃ before after, events = before ++ .register id callbackF callbackParam now :: after ∧
    ∀ e ∈ after, e.registers ≠ some id

/-- The worker takes a message. -/
def ServiceEvent.takes (w : ℕ) : ServiceEvent F P → Bool
  | .receive w' _ => w' == w
  | _ => false

/-- Some worker calls a callback. -/
def ServiceEvent.calls : ServiceEvent F P → Bool
  | .call _ => true
  | _ => false

/-- The call is for the message that the worker took last, and this is the next one of its peer. If it is a response,
the callback is from the last registration of its id before the worker took it. -/
def CallsFor (done : List (ServiceEvent F P)) (messages : List XmlBody) (w : ℕ) (call : Call F P)
    (text : List Char) : Prop :=
  ∃ before curr after body, done = before ++ .receive w curr :: after ∧ (∀ e ∈ after, e.takes w = false) ∧
    messages[before.countP (ServiceEvent.takes w)]? = some body ∧ text = body.text ∧
      ∀ callbackF isTimeout callbackParam id retcode elapsed,
        call = .response callbackF isTimeout callbackParam id retcode elapsed →
          id = body.fields.tid.getD [] ∧ retcode = atoiInt (body.fields.replyCode.getD []) ∧
            ∃ now, RegisteredLast before id callbackF callbackParam now ∧ elapsed = elapsedMsecs now curr

/-- The call with this number was made for the message that the worker had taken last. -/
def AnswersMessage (events : List (ServiceEvent F P)) (messages : List XmlBody) (j : ℕ) (c : MadeCall F P) : Prop :=
  ∃ done rest, events = done ++ .call c.worker :: rest ∧ done.countP ServiceEvent.calls = j ∧
    CallsFor done messages c.worker c.call c.message

/-- The texts that a worker has called with, and the one it is about to call with. -/
def textsOf (w : ℕ) (calls : List (MadeCall F P)) (duty : WorkerDuty F P) : List (List Char) :=
  (calls.filter fun c => c.worker = w).map MadeCall.message ++ duty.message.toList

/-- Every registration is from the last time its id was registered, all calls are answers to messages, and every worker
calls at most once for each message of its peer, in their order. -/
structure CallbackService.Traced (messages : ℕ → List XmlBody) (events : List (ServiceEvent F P))
    (s : CallbackService F P) : Prop where
  nonempty : s.registered [] = none
  registered : ∀ id r, s.registered id = some r → RegisteredLast events id r.callbackF r.callbackParam r.aTime
  coming : ∀ w, s.inbox w = (messages w).drop (events.countP (ServiceEvent.takes w))
  due : ∀ w call text, s.duty w = .call call text → CallsFor events (messages w) w call text
  counted : s.calls.length = events.countP ServiceEvent.calls
  made : ∀ (j : ℕ) c, s.calls[j]? = some c → AnswersMessage events (messages c.worker) j c
  ordered : ∀ w, (textsOf w s.calls (s.duty w)).Sublist
    (((messages w).take (events.countP (ServiceEvent.takes w))).map XmlBody.text)

/-- An event that registers something else leaves the last registration the last one. -/
theorem RegisteredLast.snoc {events : List (ServiceEvent F P)} {id : List Char} {callbackF : F} {callbackParam : P}
    {now : Timeval} (hs : RegisteredLast events id callbackF callbackParam now) {e : ServiceEvent F P}
    (he : e.registers ≠ some id) : RegisteredLast (events ++ [e]) id callbackF callbackParam now := by
  obtain ⟨before, after, rfl, hafter⟩ := hs
  refine ⟨before, after ++ [e], by simp, fun d hd => ?_⟩
  rcases List.mem_append.mp hd with hd | hd
  · exact hafter d hd
  · exact List.mem_singleton.mp hd ▸ he

/-- What is due stays due until the worker takes another message. -/
theorem CallsFor.snoc {done : List (ServiceEvent F P)} {messages : List XmlBody} {w : ℕ} {call : Call F P}
    {text : List Char} (hs : CallsFor done messages w call text) {e : ServiceEvent F P} (he : e.takes w = false) :
    CallsFor (done ++ [e]) messages w call text := by
  obtain ⟨before, curr, after, body, rfl, hafter, hrest⟩ := hs
  refine ⟨before, curr, after ++ [e], body, by simp, fun d hd => ?_, hrest⟩
  rcases List.mem_append.mp hd with hd | hd
  · exact hafter d hd
  · exact List.mem_singleton.mp hd ▸ he

/-- What has answered a message goes on doing so. -/
theorem AnswersMessage.snoc {events : List (ServiceEvent F P)} {messages : List XmlBody} {j : ℕ} {c : MadeCall F P}
    (hs : AnswersMessage events messages j c) (e : ServiceEvent F P) : AnswersMessage (events ++ [e]) messages j c := by
  obtain ⟨done, rest, rfl, hcount, hcalls⟩ := hs
  exact ⟨done, rest ++ [e], by simp, hcount, hcalls⟩

/-- An event in which no worker takes a message is none of those that are counted. -/
theorem countP_takes_snoc {events : List (ServiceEvent F P)} {e : ServiceEvent F P} {w : ℕ} (he : e.takes w = false) :
    (events ++ [e]).countP (ServiceEvent.takes w) = events.countP (ServiceEvent.takes w) := by
  rw [List.countP_append, List.countP_singleton, he]
  rfl

/-- A response is called for with the fields of the body and what is found for its id. -/
theorem Fields.callFor_eq_response {fields : Fields} {lookup : List Char → Option (Found F P)} {callbackF : F}
    {isTimeout : ℤ} {callbackParam : P} {id : List Char} {retcode elapsed : ℤ}
    (h : fields.callFor lookup = .response callbackF isTimeout callbackParam id retcode elapsed) :
    id = fields.tid.getD [] ∧ retcode = atoiInt (fields.replyCode.getD []) ∧ ∃ n, lookup id = some n ∧
      callbackF = n.callbackF ∧ callbackParam = n.callbackParam ∧ elapsed = n.elapsedMsecs := by
  have hanswer (h : fields.answerFor lookup = .response callbackF isTimeout callbackParam id retcode elapsed) :
      id = fields.tid.getD [] ∧ retcode = atoiInt (fields.replyCode.getD []) ∧ ∃ n, lookup id = some n ∧
        callbackF = n.callbackF ∧ callbackParam = n.callbackParam ∧ elapsed = n.elapsedMsecs := by
    unfold Fields.answerFor at h
    split at h
    · next n hn =>
      cases h
      exact ⟨rfl, rfl, n, hn, rfl, rfl, rfl⟩
    · cases h
  unfold Fields.callFor at h
  split at h
  · cases h
  · split at h
    · split at h
      · split at h <;> cases h
      · exact hanswer h
    · split at h
      · cases h
      · split at h
        · cases h
        · exact hanswer h

/-- A worker that is about to call has been told so by the message. -/
theorem Call.duty_eq_call {call call' : Call F P} {message text : List Char} (h : call.duty message = .call call' text) :
    call = call' ∧ message = text := by
  cases call with
  | none => cases h
  | request | response =>
    cases h
    exact ⟨rfl, rfl⟩

/-- After a call no other is due. -/
theorem Call.message_afterwards (call : Call F P) : call.afterwards.message = Option.none := by
  cases call <;> rfl

/-- A message leads to at most one call with its text. -/
theorem Call.message_duty (call : Call F P) (message : List Char) :
    (call.duty message).message.toList.Sublist [message] := by
  cases call with
  | none => exact List.nil_sublist _
  | request | response => exact List.Sublist.refl _

section Steps

variable {messages : ℕ → List XmlBody} {events : List (ServiceEvent F P)} {s s' : CallbackService F P}

/-- An event in which nobody takes a message or calls. -/
theorem CallbackService.Traced.quiet (hs : s.Traced messages events) {e : ServiceEvent F P}
    (htakes : ∀ w, e.takes w = false) (hcalls : e.calls = false) (hnonempty : s'.registered [] = none)
    (hregistered : ∀ id r, s'.registered id = some r →
      RegisteredLast (events ++ [e]) id r.callbackF r.callbackParam r.aTime)
    (hinbox : s'.inbox = s.inbox) (hmade : s'.calls = s.calls)
    (hdue : ∀ w call text, s'.duty w = .call call text → s.duty w = .call call text)
    (hnone : ∀ w, (s'.duty w).message = none → (s.duty w).message = none) : s'.Traced messages (events ++ [e]) := by
  refine ⟨hnonempty, hregistered, fun w => ?_, fun w call text hw => (hs.due w call text (hdue w call text hw)).snoc
    (htakes w), ?_, fun j c hj => ?_, fun w => ?_⟩
  · rw [hinbox, countP_takes_snoc (htakes w)]
    exact hs.coming w
  · rw [hmade, List.countP_append, List.countP_singleton, hcalls]
    exact hs.counted
  · rw [hmade] at hj
    exact (hs.made j c hj).snoc e
  · have hsame : (s'.duty w).message = (s.duty w).message := by
      cases hduty : s'.duty w with
      | call call text => rw [hdue w call text hduty]
      | receive | remove => exact (hnone w (by rw [hduty]; rfl)).symm
    rw [countP_takes_snoc (htakes w), textsOf, hmade, hsame]
    exact hs.ordered w

/-- A registration is the last one of its id. -/
theorem CallbackService.Traced.register (hs : s.Traced messages events) {id : List Char} {callbackF : F}
    {callbackParam : P} {now : Timeval} (hstep : serviceStep s (.register id callbackF callbackParam now) = some s') :
    s'.Traced messages (events ++ [.register id callbackF callbackParam now]) := by
  cases hstep
  refine hs.quiet (fun _ => rfl) rfl ?_ (fun id' r hr => ?_) rfl rfl (fun _ _ _ hw => hw) fun _ hw => hw
  · dsimp only
    split
    · exact hs.nonempty
    · next hid => rw [Function.update_of_ne (Ne.symm hid), hs.nonempty]
  · dsimp only at hr
    split at hr
    · next hempty =>
      refine (hs.registered id' r hr).snoc fun h => ?_
      rw [← Option.some.inj h, hempty, hs.nonempty] at hr
      cases hr
    · by_cases hid : id' = id
      · rw [hid, Function.update_self] at hr
        cases hr
        exact ⟨events, [], by rw [hid], fun e he => absurd he List.not_mem_nil⟩
      · rw [Function.update_of_ne hid] at hr
        exact (hs.registered id' r hr).snoc fun h => hid (Option.some.inj h).symm

/-- A message that is taken is the next one of the peer, and a response to it is for the last registration. -/
theorem CallbackService.Traced.receive (hs : s.Traced messages events) {w : ℕ} {curr : Timeval}
    (hstep : serviceStep s (.receive w curr) = some s') : s'.Traced messages (events ++ [.receive w curr]) := by
  rw [serviceStep] at hstep
  split at hstep
  · next body rest hduty hinbox =>
    cases hstep
    have hother {w' : ℕ} (hw' : w' ≠ w) : (ServiceEvent.receive w curr : ServiceEvent F P).takes w' = false :=
      beq_eq_false_iff_ne.mpr (Ne.symm hw')
    have hself : (ServiceEvent.receive w curr : ServiceEvent F P).takes w = true := beq_self_eq_true w
    have hcount : (events ++ [ServiceEvent.receive w curr]).countP (ServiceEvent.takes w) =
        events.countP (ServiceEvent.takes w) + 1 := by
      rw [List.countP_append, List.countP_singleton, hself, if_pos rfl]
    have hdrop := hs.coming w
    rw [hinbox] at hdrop
    have hnext : (messages w)[events.countP (ServiceEvent.takes w)]? = some body := by
      rw [← List.head?_drop, ← hdrop, List.head?_cons]
    refine ⟨hs.nonempty, fun id r hr => (hs.registered id r hr).snoc nofun, fun w' => ?_, fun w' call text hw => ?_,
      ?_, fun j c hj => (hs.made j c hj).snoc _, fun w' => ?_⟩
    · dsimp only
      by_cases hw' : w' = w
      · rw [hw', hcount, Function.update_self, ← List.tail_drop, ← hdrop, List.tail_cons]
      · rw [countP_takes_snoc (hother hw'), Function.update_of_ne hw']
        exact hs.coming w'
    · dsimp only at hw
      by_cases hw' : w' = w
      · subst hw'
        rw [Function.update_self] at hw
        obtain ⟨hcall, rfl⟩ := Call.duty_eq_call hw
        refine ⟨events, curr, [], body, rfl, by simp, hnext, rfl,
          fun callbackF isTimeout callbackParam id retcode elapsed hresponse => ?_⟩
        obtain ⟨hid, hretcode, n, hn, rfl, rfl, rfl⟩ := Fields.callFor_eq_response (hcall.trans hresponse)
        obtain ⟨r, hr, rfl⟩ := Option.map_eq_some_iff.mp hn
        exact ⟨hid, hretcode, r.aTime, hs.registered id r hr, rfl⟩
      · rw [Function.update_of_ne hw'] at hw
        exact (hs.due w' call text hw).snoc (hother hw')
    · rw [List.countP_append, List.countP_singleton]
      exact hs.counted
    · dsimp only
      have htexts := hs.ordered w'
      by_cases hw' : w' = w
      · subst hw'
        have hnone : (WorkerDuty.receive : WorkerDuty F P).message = none := rfl
        rw [hduty, textsOf, hnone, Option.toList_none, List.append_nil] at htexts
        rw [hcount, List.take_add_one, hnext, List.map_append, Function.update_self, textsOf]
        exact htexts.append (Call.message_duty _ _)
      · rw [countP_takes_snoc (hother hw'), Function.update_of_ne hw']
        exact htexts
  · cases hstep

/-- A call that is made was due. -/
theorem CallbackService.Traced.call (hs : s.Traced messages events) {w : ℕ}
    (hstep : serviceStep s (.call w) = some s') : s'.Traced messages (events ++ [.call w]) := by
  rw [serviceStep] at hstep
  split at hstep
  · next call message hduty =>
    cases hstep
    refine ⟨hs.nonempty, fun id r hr => (hs.registered id r hr).snoc nofun, fun w' => ?_, fun w' call' text hw => ?_,
      ?_, fun j c hj => ?_, fun w' => ?_⟩
    · rw [countP_takes_snoc rfl]
      exact hs.coming w'
    · dsimp only at hw
      by_cases hw' : w' = w
      · rw [hw', Function.update_self] at hw
        have hnone := call.message_afterwards
        rw [hw] at hnone
        cases hnone
      · rw [Function.update_of_ne hw'] at hw
        exact (hs.due w' call' text hw).snoc rfl
    · rw [List.length_append, List.length_singleton, hs.counted, List.countP_append]
      rfl
    · dsimp only at hj
      by_cases hlt : j < s.calls.length
      · rw [List.getElem?_append_left hlt] at hj
        exact (hs.made j c hj).snoc _
      · rw [List.getElem?_append_right (Nat.le_of_not_lt hlt), List.getElem?_singleton] at hj
        obtain ⟨hlast, hc⟩ := Option.ite_none_right_eq_some.mp hj
        obtain rfl := Option.some.inj hc
        exact ⟨events, [], rfl, by rw [← hs.counted]; omega, hs.due w call message hduty⟩
    · have hsame : textsOf w' (s.calls ++ [⟨w, call, message⟩]) (Function.update s.duty w call.afterwards w') =
          textsOf w' s.calls (s.duty w') := by
        by_cases hw' : w' = w
        · rw [hw', Function.update_self, textsOf, call.message_afterwards, hduty]
          simp [textsOf, WorkerDuty.message]
        · rw [Function.update_of_ne hw', textsOf, textsOf]
          simp [Ne.symm hw']
      dsimp only
      rw [hsame, countP_takes_snoc rfl]
      exact hs.ordered w'
  · cases hstep

/-- The end of a registration changes nothing else. -/
theorem CallbackService.Traced.remove (hs : s.Traced messages events) {w : ℕ}
    (hstep : serviceStep s (.remove w) = some s') : s'.Traced messages (events ++ [.remove w]) := by
  rw [serviceStep] at hstep
  split at hstep
  · next tid hduty =>
    cases hstep
    refine hs.quiet (fun _ => rfl) rfl ?_ (fun id r hr => ?_) rfl rfl (fun w' call text hw => ?_) fun w' hw => ?_
    · dsimp only
      rw [Function.update_apply, hs.nonempty, ite_self]
    · dsimp only at hr
      rw [Function.update_apply] at hr
      exact (hs.registered id r (Option.ite_none_left_eq_some.mp hr).2).snoc nofun
    · dsimp only at hw
      rw [Function.update_apply] at hw
      split at hw
      · cases hw
      · exact hw
    · dsimp only at hw
      rw [Function.update_apply] at hw
      split at hw
      · next hw' => rw [hw', hduty]; rfl
      · exact hw
  · cases hstep

/-- A sweep changes no callback. -/
theorem CallbackService.Traced.expire (hs : s.Traced messages events) {now : List Char → Timeval}
    (hstep : serviceStep s (.expire now) = some s') : s'.Traced messages (events ++ [.expire now]) := by
  cases hstep
  refine hs.quiet (fun _ => rfl) rfl ?_ (fun id r hr => ?_) rfl rfl (fun _ _ _ hw => hw) fun _ hw => hw
  · change (s.registered []).map _ = none
    rw [hs.nonempty]
    rfl
  · obtain ⟨old, hold, rfl⟩ := Option.map_eq_some_iff.mp hr
    exact (hs.registered id old hold).snoc nofun

end Steps

/-- Every run of the service can be traced back. -/
theorem traced_of_run {messages : ℕ → List XmlBody} {events : List (ServiceEvent F P)} {s : CallbackService F P}
    (hrun : runActions serviceStep (.start messages) events = some s) : s.Traced messages events := by
  refine history_of_run serviceStep (fun events s => s.Traced messages events)
    (fun events s e next hs hstep => ?_) ?_ hrun
  · cases e with
    | register id callbackF callbackParam now => exact hs.register hstep
    | receive w curr => exact hs.receive hstep
    | call w => exact hs.call hstep
    | remove w => exact hs.remove hstep
    | expire now => exact hs.expire hstep
    | elsewhere =>
      cases hstep
      exact hs.quiet (fun _ => rfl) rfl hs.nonempty (fun id r hr => (hs.registered id r hr).snoc nofun) rfl rfl
        (fun _ _ _ hw => hw) fun _ hw => hw
  · exact ⟨rfl, fun _ _ hr => (by cases hr), fun _ => rfl, fun _ _ _ hw => (by cases hw), rfl,
      fun _ _ hc => (by cases hc), fun _ => List.Sublist.refl _⟩

end TcpClb
