import TcpClb.Dispatch

/-!
# What a pass does with the buffers

One pass of `recv_worker_thread` over a received message, with the memory it frees, the ids it copies
and the callbacks it calls, in order. The message may contain any bytes. A copy that does not fit its
field ends the trace, as nothing is known of what follows.

For a message without NUL the calls are those of `dispatch`.
-/

namespace TcpClb

open TcpClb.Common

variable {F P : Type}

/-- The local variables of `recv_worker_thread` that point to memory. -/
inductive Pointer
  | message
  | typ
  | tid
  | resp
  | res
  deriving DecidableEq

/-- What a pass does that can be seen outside it. -/
inductive PassEvent (F P : Type)
  | free (p : Pointer)
  /-- `strcpy(res->id, tid)`. -/
  | copyId (tid : List Char)
  /-- A call of `req_cb.reg_req_cb`, with the members of `*req`. -/
  | regReqCb (isTimeout : ℤ) (reqBuf : Pointer) (msgLen pickedUp noTransaction elapsedMsecs : ℤ)
  /-- A call of `n.callback_f`, with the members of `*res`. -/
  | callbackF (callbackF : F) (isTimeout : ℤ) (callbackParam : P) (id : List Char) (retcode : ℤ)
      (queryRes : Pointer) (elapsedMsecs : ℤ)
  | remId (tid : List Char)
  deriving DecidableEq

/-- `parse_xml_attribute` on a buffer that may contain NUL, which looks at nothing if it begins with it. -/
def parseXmlBytes (text startKey endKey : List Char) : ℤ × Xchar :=
  if text.head? = some '\x00' then (0, ⟨0, none⟩) else parseXmlAttribute text startKey endKey

/-- What a call writes to `out`. -/
def outIn (message : List Char) (tag : TagName) : Xchar :=
  (parseXmlBytes message tag.startKey tag.endKey).2

/-- The value of a tag, copied into memory that ends in NUL, as a string. -/
def valueIn (message : List Char) (tag : TagName) : List Char :=
  cString ((outIn message tag).chars message)

/-- The end of both response branches. -/
def respondPass (gtsidq : List (Tsidque F P)) (curr : Timeval) (retcode : ℤ) (tid : List Char) :
    List (PassEvent F P) :=
  .copyId tid :: if tid.length < keySize then
    match lookupIDIdq gtsidq tid curr with
    | some n => [.callbackF n.callbackF (if n.isExpired then 1 else 0) n.callbackParam tid retcode .message
        n.elapsedMsecs, .remId tid, .free .tid]
    | none => [.free .message, .free .res, .free .tid]
  else []

/-- The branch for event based messages. -/
def eventPass (message : List Char) (gtsidq : List (Tsidque F P)) (curr : Timeval) : List (PassEvent F P) :=
  if 0 < (outIn message typeName.toTagName).len then
    if atoiInt (valueIn message typeName.toTagName) = 1 then
      match lookupIDIdq gtsidq (valueIn message tidName.toTagName) curr with
      | some n => [.regReqCb 1 .message message.length 1 1 n.elapsedMsecs, .free .typ, .free .tid]
      | none => [.regReqCb 0 .message message.length 0 0 0, .free .typ, .free .tid]
    else .free .resp :: respondPass gtsidq curr (atoiInt (valueIn message replyCodeName.toTagName))
      (valueIn message tidName.toTagName)
  else [.free .message]

/-- The branch for session based messages. -/
def sessionPass (message : List Char) (gtsidq : List (Tsidque F P)) (curr : Timeval) : List (PassEvent F P) :=
  if 0 < (outIn message typeName.toTagName).len then
    if atoiInt (valueIn message typeName.toTagName) = 1 then
      if 0 < (outIn message sidName.toTagName).len then [.regReqCb 0 .message message.length 1 0 0]
      -- on a timeout no callback is called
      else [.free .message]
    else .free .resp :: if 0 < (outIn message sidName.toTagName).len then
        [.regReqCb 0 .message message.length 1 0 0]
      else respondPass gtsidq curr (atoiInt (valueIn message replyCodeName.toTagName))
        (valueIn message tidName.toTagName)
  -- without a `TYPE` nothing is done, not even with the message
  else []

/-- One pass of `recv_worker_thread` over a message. -/
def recvPass (message : List Char) (gtsidq : List (Tsidque F P)) (curr : Timeval) : List (PassEvent F P) :=
  if 0 < (outIn message eventName.toTagName).len then eventPass message gtsidq curr
  else sessionPass message gtsidq curr

/-- The callback that a pass calls, if the ids it copies fit. -/
def passCall : List (PassEvent F P) → Option (Call F P)
  | [] => some .none
  | .copyId tid :: events => if tid.length < keySize then passCall events else none
  | .regReqCb isTimeout _ _ pickedUp noTransaction elapsedMsecs :: _ =>
    some (.request isTimeout noTransaction pickedUp [] elapsedMsecs)
  | .callbackF callbackF isTimeout callbackParam id retcode _ elapsedMsecs :: _ =>
    some (.response callbackF isTimeout callbackParam id retcode elapsedMsecs)
  | .free _ :: events | .remId _ :: events => passCall events

/-- Every id that was copied fits into its field. -/
def IdsFit (events : List (PassEvent F P)) : Prop :=
  ∀ tid, .copyId tid ∈ events → tid.length < keySize

/-- The message goes to one of the branches for responses. -/
def IsResponse (message : List Char) : Prop :=
  0 < (outIn message typeName.toTagName).len ∧ atoiInt (valueIn message typeName.toTagName) ≠ 1 ∧
    (0 < (outIn message eventName.toTagName).len ∨ ¬ 0 < (outIn message sidName.toTagName).len)

/-- The outcomes of a pass: a response is answered, a request is handed over, the message is freed, or
nothing is done. Something else may be freed before or behind. -/
inductive PassCases (message : List Char) (gtsidq : List (Tsidque F P)) (curr : Timeval) :
    List (PassEvent F P) → Prop
  | respond (hresponse : IsResponse message) : PassCases message gtsidq curr
      (.free .resp :: respondPass gtsidq curr (atoiInt (valueIn message replyCodeName.toTagName))
        (valueIn message tidName.toTagName))
  | request (hrequest : ¬ IsResponse message) (htype : 0 < (outIn message typeName.toTagName).len)
    (isTimeout pickedUp noTransaction elapsedMsecs : ℤ) {before after : List (PassEvent F P)}
    (hbefore : before = [] ∨ before = [.free .resp]) (hafter : after = [] ∨ after = [.free .typ, .free .tid]) :
    PassCases message gtsidq curr (before ++
      .regReqCb isTimeout .message message.length pickedUp noTransaction elapsedMsecs :: after)
  | freed (hrequest : ¬ IsResponse message) (htag : 0 < (outIn message eventName.toTagName).len ∨
    0 < (outIn message typeName.toTagName).len) : PassCases message gtsidq curr [.free .message]
  | forgotten (hevent : ¬ 0 < (outIn message eventName.toTagName).len)
    (htype : ¬ 0 < (outIn message typeName.toTagName).len) : PassCases message gtsidq curr []

/-- A pass has no other outcomes. -/
theorem recvPass_cases (message : List Char) (gtsidq : List (Tsidque F P)) (curr : Timeval) :
    PassCases message gtsidq curr (recvPass message gtsidq curr) := by
  unfold recvPass
  by_cases hevent : 0 < (outIn message eventName.toTagName).len
  · rw [if_pos hevent, eventPass]
    by_cases htype : 0 < (outIn message typeName.toTagName).len
    · rw [if_pos htype]
      by_cases hone : atoiInt (valueIn message typeName.toTagName) = 1
      · have hrequest : ¬ IsResponse message := fun h => h.2.1 hone
        rw [if_pos hone]
        split
        · exact .request hrequest htype _ _ _ _ (Or.inl rfl) (Or.inr rfl)
        · exact .request hrequest htype _ _ _ _ (Or.inl rfl) (Or.inr rfl)
      · rw [if_neg hone]
        exact .respond ⟨htype, hone, Or.inl hevent⟩
    · rw [if_neg htype]
      exact .freed (fun h => htype h.1) (Or.inl hevent)
  · rw [if_neg hevent, sessionPass]
    by_cases htype : 0 < (outIn message typeName.toTagName).len
    · rw [if_pos htype]
      by_cases hone : atoiInt (valueIn message typeName.toTagName) = 1
      · have hrequest : ¬ IsResponse message := fun h => h.2.1 hone
        rw [if_pos hone]
        split
        · exact .request hrequest htype _ _ _ _ (Or.inl rfl) (Or.inl rfl)
        · exact .freed hrequest (Or.inr htype)
      · rw [if_neg hone]
        by_cases hsid : 0 < (outIn message sidName.toTagName).len
        · have hrequest : ¬ IsResponse message := fun h => h.2.2.elim hevent fun hnot => hnot hsid
          rw [if_pos hsid]
          exact .request hrequest htype _ _ _ _ (Or.inr rfl) (Or.inl rfl)
        · rw [if_neg hsid]
          exact .respond ⟨htype, hone, Or.inr hsid⟩
    · rw [if_neg htype]
      exact .forgotten hevent htype

section Strings

variable {message : List Char} (hnul : '\x00' ∉ message)
include hnul

/-- Without NUL a buffer is a string. -/
theorem outIn_eq_outOf (tag : TagName) : outIn message tag = outOf message tag := by
  rw [outIn, parseXmlBytes, if_neg, outOf]
  intro hhead
  exact hnul (List.mem_of_mem_head? hhead)

/-- So are its parts. -/
theorem valueIn_eq_chars (tag : TagName) : valueIn message tag = (outOf message tag).chars message := by
  have hsub : ∀ c ∈ (outOf message tag).chars message, c ∈ message := by
    unfold Xchar.chars
    split
    · exact fun c hc => List.drop_subset _ _ (List.take_subset _ _ hc)
    · nofun
  rw [valueIn, outIn_eq_outOf hnul, cString, List.takeWhile_eq_self_iff]
  intro c hc
  exact decide_eq_true fun hzero => hnul (hzero ▸ hsub c hc)

omit hnul in
/-- The call in both response branches. -/
theorem passCall_respondPass (gtsidq : List (Tsidque F P)) (curr : Timeval) (retcode : ℤ) (tid : List Char) :
    passCall (respondPass gtsidq curr retcode tid) =
      (respond message gtsidq curr retcode tid).map fun r => r.1.call := by
  unfold respondPass respond
  by_cases hfits : tid.length < keySize
  · rw [if_pos hfits, dif_pos hfits]
    cases hlookup : lookupIDIdq gtsidq tid curr with
    | none => simp [passCall, hfits, Dispatched.call]
    | some n => simp [passCall, hfits, Dispatched.call]
  · rw [if_neg hfits, dif_neg hfits]
    simp [passCall, hfits]

/-- The call in the branch for events. -/
theorem passCall_eventPass (gtsidq : List (Tsidque F P)) (curr : Timeval) :
    passCall (eventPass message gtsidq curr) = (dispatchEvent message gtsidq curr
      (outOf message typeName.toTagName) (outOf message replyCodeName.toTagName)
      (outOf message tidName.toTagName)).map fun r => r.1.call := by
  rw [eventPass, dispatchEvent, outIn_eq_outOf hnul, valueIn_eq_chars hnul, valueIn_eq_chars hnul,
    valueIn_eq_chars hnul]
  split
  · split
    · cases lookupIDIdq gtsidq ((outOf message tidName.toTagName).chars message) curr with
      | none => rfl
      | some n => rfl
    · exact passCall_respondPass gtsidq curr _ _
  · rfl

/-- The call in the branch for sessions. -/
theorem passCall_sessionPass (gtsidq : List (Tsidque F P)) (curr : Timeval) :
    passCall (sessionPass message gtsidq curr) = (dispatchSession message gtsidq curr
      (outOf message typeName.toTagName) (outOf message replyCodeName.toTagName)
      (outOf message sidName.toTagName) (outOf message tidName.toTagName)).map fun r => r.1.call := by
  rw [sessionPass, dispatchSession, outIn_eq_outOf hnul, outIn_eq_outOf hnul, valueIn_eq_chars hnul,
    valueIn_eq_chars hnul, valueIn_eq_chars hnul]
  split
  · split
    · split
      · rfl
      · rfl
    · rw [passCall]
      split
      · rfl
      · exact passCall_respondPass gtsidq curr _ _
  · rfl

/-- A pass over a message without NUL calls the callback that the message is dispatched to. -/
theorem passCall_recvPass (gtsidq : List (Tsidque F P)) (curr : Timeval) :
    passCall (recvPass message gtsidq curr) = (dispatch message gtsidq curr).map fun r => r.1.call := by
  unfold recvPass dispatch
  rw [outIn_eq_outOf hnul]
  split
  · exact passCall_eventPass hnul gtsidq curr
  · exact passCall_sessionPass hnul gtsidq curr

end Strings

end TcpClb
