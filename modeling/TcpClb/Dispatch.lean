import TcpClb.Bodies
import TcpClb.Common.CText
import TcpClb.IdTable

/-!
# Dispatch of a received message

What `recv_worker_thread` does with a message after `receive_from_fd` has returned it: the scans for
the attributes, the classification, and the callback it ends in. The callback for a response is the
one found in the id table, which the worker removes afterwards. A message without NUL is assumed, so
that copies of its parts are strings; its length is the `rc` of the source.

For a well-formed body the outcome depends on its elements only through the presence of `EVENT` and
the values of the fields.
-/

namespace TcpClb

open TcpClb.Common

variable {F P : Type}

/-- `response_t`. -/
structure Response where
  id : CString keySize
  retcode : ℤ
  queryRes : List Char
  deriving DecidableEq

/-- What becomes of a message: it is freed or forgotten, or goes to the callback for requests or to
that of a registration. -/
inductive Dispatched (F P : Type)
  | dropped
  | request (isTimeout : ℤ) (req : Request) (elapsedMsecs : ℤ)
  | response (callbackF : F) (isTimeout : ℤ) (callbackParam : P) (res : Response) (elapsedMsecs : ℤ)

/-- The empty id of a request that comes from a peer. -/
def noId : CString keySize := ⟨[], by change 0 < 256; omega⟩

/-- The request made of a message: its block is one byte longer, for the terminator. -/
def requestOf (message : List Char) (noTransaction pickedUp : ℤ) : Request :=
  ⟨some (message ++ ['\x00']), message.length, pickedUp, noTransaction, noId⟩

/-- The end of both response branches, and the table after `rem_id`. The id has to fit its field. -/
def respond (message : List Char) (gtsidq : List (Tsidque F P)) (curr : Timeval) (retcode : ℤ)
    (tid : List Char) : Option (Dispatched F P × List (Tsidque F P)) :=
  if hfits : tid.length < keySize then
    match lookupIDIdq gtsidq tid curr with
    | some n => some (.response n.callbackF (if n.isExpired then 1 else 0) n.callbackParam
        ⟨⟨tid, hfits⟩, retcode, message⟩ n.elapsedMsecs, remId gtsidq tid)
    | none => some (.dropped, gtsidq)
  else none

/-- The branch for event based messages, given what the scans write to `out`. -/
def dispatchEvent (message : List Char) (gtsidq : List (Tsidque F P)) (curr : Timeval)
    (typ replyCode tid : Xchar) : Option (Dispatched F P × List (Tsidque F P)) :=
  if 0 < typ.len then
    if atoiInt (typ.chars message) = 1 then
      match lookupIDIdq gtsidq (tid.chars message) curr with
      | some n => some (.request 1 (requestOf message 1 1) n.elapsedMsecs, gtsidq)
      | none => some (.request 0 (requestOf message 0 0) 0, gtsidq)
    else respond message gtsidq curr (atoiInt (replyCode.chars message)) (tid.chars message)
  else some (.dropped, gtsidq)

/-- The branch for session based messages. -/
def dispatchSession (message : List Char) (gtsidq : List (Tsidque F P)) (curr : Timeval)
    (typ replyCode sid tid : Xchar) : Option (Dispatched F P × List (Tsidque F P)) :=
  if 0 < typ.len then
    if atoiInt (typ.chars message) = 1 then
      if 0 < sid.len then some (.request 0 (requestOf message 0 1) 0, gtsidq)
      -- on a timeout no callback is called
      else some (.dropped, gtsidq)
    else if 0 < sid.len then some (.request 0 (requestOf message 0 1) 0, gtsidq)
    else respond message gtsidq curr (atoiInt (replyCode.chars message)) (tid.chars message)
  else some (.dropped, gtsidq)

/-- The handling of a message between two calls of `receive_from_fd`. -/
def dispatch (message : List Char) (gtsidq : List (Tsidque F P)) (curr : Timeval) :
    Option (Dispatched F P × List (Tsidque F P)) :=
  let typ := outOf message typeName.toTagName
  let replyCode := outOf message replyCodeName.toTagName
  let sid := outOf message sidName.toTagName
  let tid := outOf message tidName.toTagName
  if 0 < (outOf message eventName.toTagName).len then dispatchEvent message gtsidq curr typ replyCode tid
  else dispatchSession message gtsidq curr typ replyCode sid tid

/-- What a callback is called with, apart from the text of the message. -/
inductive Call (F P : Type)
  | none
  | request (isTimeout noTransaction pickedUp : ℤ) (id : List Char) (elapsedMsecs : ℤ)
  | response (callbackF : F) (isTimeout : ℤ) (callbackParam : P) (id : List Char) (retcode : ℤ)
      (elapsedMsecs : ℤ)
  deriving DecidableEq

/-- The call that a message leads to. -/
def Dispatched.call : Dispatched F P → Call F P
  | .dropped => .none
  | .request isTimeout req elapsedMsecs =>
    .request isTimeout req.noTransaction req.pickedUp req.id.chars elapsedMsecs
  | .response callbackF isTimeout callbackParam res elapsedMsecs =>
    .response callbackF isTimeout callbackParam res.id.chars res.retcode elapsedMsecs

/-- The message text that the callback gets: of a request, the bytes that its length counts. -/
def Dispatched.message : Dispatched F P → Option (List Char)
  | .dropped => none
  | .request _ req _ => some (req.readable.take req.msgLen.toNat)
  | .response _ _ _ res _ => some res.queryRes

/-- What a body says: whether it is an event, and the values of the fields. -/
structure Fields where
  event : Bool
  type : Option (List Char)
  tid : Option (List Char)
  sid : Option (List Char)
  replyCode : Option (List Char)
  deriving DecidableEq

/-- What the body says. -/
def XmlBody.fields (body : XmlBody) : Fields :=
  ⟨body.event, body.value typeName.chars, body.value tidName.chars, body.value sidName.chars,
    body.value replyCodeName.chars⟩

/-- A response goes to the callback registered for its id, if any, and ends the registration. -/
def Fields.respond (fields : Fields) (gtsidq : List (Tsidque F P)) (curr : Timeval) :
    Call F P × List (Tsidque F P) :=
  match lookupIDIdq gtsidq (fields.tid.getD []) curr with
  | some n => (.response n.callbackF (if n.isExpired then 1 else 0) n.callbackParam (fields.tid.getD [])
      (atoiInt (fields.replyCode.getD [])) n.elapsedMsecs, remId gtsidq (fields.tid.getD []))
  | none => (.none, gtsidq)

/-- The call for an event, or for a session, of a type, and the table after it. -/
def Fields.outcome (fields : Fields) (gtsidq : List (Tsidque F P)) (curr : Timeval) :
    Call F P × List (Tsidque F P) :=
  match fields.type with
  | none => (.none, gtsidq)
  | some type =>
    if fields.event = true then
      if atoiInt type = 1 then
        match lookupIDIdq gtsidq (fields.tid.getD []) curr with
        | some n => (.request 1 1 1 [] n.elapsedMsecs, gtsidq)
        | none => (.request 0 0 0 [] 0, gtsidq)
      else fields.respond gtsidq curr
    else if fields.sid.isSome = true then (.request 0 0 1 [] 0, gtsidq)
    else if atoiInt type = 1 then (.none, gtsidq)
    else fields.respond gtsidq curr

/-- The dispatch of a message ends in an outcome, and the callback gets the message. -/
def EndsIn (message : List Char) (outcome : Call F P × List (Tsidque F P))
    (result : Option (Dispatched F P × List (Tsidque F P))) : Prop :=
  ∃ dispatched, result = some (dispatched, outcome.2) ∧ dispatched.call = outcome.1 ∧
    ∀ text, dispatched.message = some text → text = message

/-- Freeing the message ends in no call. -/
theorem endsIn_dropped (message : List Char) (gtsidq : List (Tsidque F P)) :
    EndsIn message (.none, gtsidq) (some (.dropped, gtsidq)) :=
  ⟨.dropped, rfl, rfl, fun text htext => by cases htext⟩

/-- The length of the request counts the bytes of the message. -/
theorem requestOf_text (message : List Char) (noTransaction pickedUp : ℤ) :
    (requestOf message noTransaction pickedUp).readable.take
      (requestOf message noTransaction pickedUp).msgLen.toNat = message :=
  List.take_left' (Int.toNat_natCast message.length).symm

/-- Giving the message to the callback for requests ends in that call. -/
theorem endsIn_request (message : List Char) (gtsidq : List (Tsidque F P))
    (isTimeout noTransaction pickedUp elapsedMsecs : ℤ) :
    EndsIn message (.request isTimeout noTransaction pickedUp [] elapsedMsecs, gtsidq)
      (some (.request isTimeout (requestOf message noTransaction pickedUp) elapsedMsecs, gtsidq)) :=
  ⟨_, rfl, rfl, fun _ htext => (Option.some.inj htext).symm.trans (requestOf_text message noTransaction pickedUp)⟩

/-- The response branches end in what the id and the reply code say. -/
theorem endsIn_respond (message : List Char) (gtsidq : List (Tsidque F P)) (curr : Timeval)
    (fields : Fields) (hfits : (fields.tid.getD []).length < keySize) :
    EndsIn message (fields.respond gtsidq curr)
      (respond message gtsidq curr (atoiInt (fields.replyCode.getD [])) (fields.tid.getD [])) := by
  rw [respond, dif_pos hfits, Fields.respond]
  cases hlookup : lookupIDIdq gtsidq (fields.tid.getD []) curr with
  | none => exact endsIn_dropped message gtsidq
  | some n => exact ⟨_, rfl, rfl, fun _ htext => (Option.some.inj htext).symm⟩

/-- The branch for events ends in the outcome for an event. -/
theorem XmlBody.dispatchEvent (body : XmlBody) (hevent : body.event = true) (gtsidq : List (Tsidque F P))
    (curr : Timeval) :
    EndsIn body.text (body.fields.outcome gtsidq curr) (dispatchEvent body.text gtsidq curr
      (outOf body.text typeName.toTagName) (outOf body.text replyCodeName.toTagName)
      (outOf body.text tidName.toTagName)) := by
  have hpos := body.outOf_field_pos typeName (by decide)
  rw [TcpClb.dispatchEvent, (body.outOf_field typeName (by decide)).2,
    (body.outOf_field replyCodeName (by decide)).2, (body.outOf_field tidName (by decide)).2, Fields.outcome]
  have htype : body.fields.type = body.value typeName.chars := rfl
  cases hvalue : body.value typeName.chars with
  | none =>
    rw [hvalue] at hpos
    rw [htype, hvalue, if_neg (by simpa using hpos)]
    exact endsIn_dropped _ _
  | some type =>
    rw [hvalue] at hpos
    rw [htype, hvalue, if_pos (hpos.mpr rfl), Option.getD_some]
    simp only [show body.fields.event = true from hevent, if_true]
    split
    · change EndsIn _ (match lookupIDIdq gtsidq ((body.value tidName.chars).getD []) curr with
        | some n => _
        | none => _) _
      cases lookupIDIdq gtsidq ((body.value tidName.chars).getD []) curr with
      | none => exact endsIn_request _ _ _ _ _ _
      | some n => exact endsIn_request _ _ _ _ _ _
    · exact endsIn_respond _ _ _ body.fields body.tid_fits

/-- The branch for sessions ends in the outcome for a session. -/
theorem XmlBody.dispatchSession (body : XmlBody) (hevent : ¬ body.event = true) (gtsidq : List (Tsidque F P))
    (curr : Timeval) :
    EndsIn body.text (body.fields.outcome gtsidq curr) (dispatchSession body.text gtsidq curr
      (outOf body.text typeName.toTagName) (outOf body.text replyCodeName.toTagName)
      (outOf body.text sidName.toTagName) (outOf body.text tidName.toTagName)) := by
  have hpos := body.outOf_field_pos typeName (by decide)
  have hsid := body.outOf_field_pos sidName (by decide)
  rw [TcpClb.dispatchSession, (body.outOf_field typeName (by decide)).2,
    (body.outOf_field replyCodeName (by decide)).2, (body.outOf_field tidName (by decide)).2, Fields.outcome]
  have htype : body.fields.type = body.value typeName.chars := rfl
  have hfieldSid : body.fields.sid = body.value sidName.chars := rfl
  cases hvalue : body.value typeName.chars with
  | none =>
    rw [hvalue] at hpos
    rw [htype, hvalue, if_neg (by simpa using hpos)]
    exact endsIn_dropped _ _
  | some type =>
    rw [hvalue] at hpos
    rw [htype, hvalue, if_pos (hpos.mpr rfl), Option.getD_some]
    simp only [if_neg (show ¬ body.fields.event = true from hevent), hfieldSid]
    by_cases hsome : (body.value sidName.chars).isSome = true
    · -- with an `SID` the type does not matter
      rw [if_pos hsome, if_pos (hsid.mpr hsome), if_pos (hsid.mpr hsome), ite_self]
      exact endsIn_request _ _ _ _ _ _
    · have hzero := fun hlen => hsome (hsid.mp hlen)
      rw [if_neg hsome, if_neg hzero, if_neg hzero]
      split
      · exact endsIn_dropped _ _
      · exact endsIn_respond _ _ _ body.fields body.tid_fits

/-- A body ends in the outcome that its fields determine. -/
theorem XmlBody.dispatch (body : XmlBody) (gtsidq : List (Tsidque F P)) (curr : Timeval) :
    EndsIn body.text (body.fields.outcome gtsidq curr) (dispatch body.text gtsidq curr) := by
  unfold TcpClb.dispatch
  by_cases hevent : body.event = true
  · rw [if_pos (body.outOf_event_pos.mpr hevent)]
    exact body.dispatchEvent hevent gtsidq curr
  · rw [if_neg (fun hlen => hevent (body.outOf_event_pos.mp hlen))]
    exact body.dispatchSession hevent gtsidq curr

/-- Every well-formed body leads to the call that the presence of `EVENT` and the values of the fields
determine, and two bodies that agree in these lead to the same call and the same table. -/
theorem dispatch_by_fields (gtsidq : List (Tsidque F P)) (curr : Timeval) :
    (∀ body : XmlBody, EndsIn body.text (body.fields.outcome gtsidq curr) (dispatch body.text gtsidq curr)) ∧
    ∀ body body' : XmlBody, body.fields = body'.fields →
      (dispatch body.text gtsidq curr).map (fun r => (r.1.call, r.2)) =
        (dispatch body'.text gtsidq curr).map (fun r => (r.1.call, r.2)) := by
  refine ⟨fun body => body.dispatch gtsidq curr, fun body body' hfields => ?_⟩
  obtain ⟨d, hd, hcall, _⟩ := body.dispatch gtsidq curr
  obtain ⟨d', hd', hcall', _⟩ := body'.dispatch gtsidq curr
  rw [hd, hd', Option.map_some, Option.map_some, hcall, hcall', hfields]

/-- An event request with the id `a`. -/
def eventRequest : XmlBody where
  event := true
  elements := [⟨typeName, ['1'], by decide⟩, ⟨tidName, ['a'], by decide⟩]
  nonempty := by decide
  once := by decide
  tidFits := by decide
  noEvent := by decide
  inside := by decide

/-- The same with its elements the other way round and an empty element `X` before them. -/
def eventRequestReordered : XmlBody where
  event := true
  elements := [⟨⟨⟨['X'], by decide⟩, by decide, by decide⟩, [], by decide⟩, ⟨tidName, ['a'], by decide⟩,
    ⟨typeName, ['1'], by decide⟩]
  nonempty := by decide
  once := by decide
  tidFits := by decide
  noEvent := by decide
  inside := by decide

/-- Both lead to the same call. -/
theorem reordered_sameCall :
    (dispatch eventRequest.text ([] : List (Tsidque Unit Unit)) ⟨0, 0⟩).map (fun r => (r.1.call, r.2)) =
      (dispatch eventRequestReordered.text [] ⟨0, 0⟩).map (fun r => (r.1.call, r.2)) :=
  (dispatch_by_fields [] ⟨0, 0⟩).2 eventRequest eventRequestReordered (by decide)

end TcpClb
