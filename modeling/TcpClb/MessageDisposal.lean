import TcpClb.MessagePass

/-!
# Disposal of received buffers

Each pass of `recv_worker_thread` has to free its message or give it to one callback, and every id it
copies has to fit. The branch for sessions forgets a message without a `TYPE`, and no branch looks at
the length of a `TID` before it copies it.
-/

namespace TcpClb

open TcpClb.Common

variable {F P : Type}

/-- The event frees the message or gives it to a callback. -/
def PassEvent.disposes : PassEvent F P → Bool
  | .free p => p = .message
  | .regReqCb _ reqBuf _ _ _ _ => reqBuf = .message
  | .callbackF _ _ _ _ _ queryRes _ => queryRes = .message
  | _ => false

/-- The event gives a response to a callback. -/
def PassEvent.isResponse : PassEvent F P → Bool
  | .callbackF .. => true
  | _ => false

/-- The message is freed or given to a callback exactly once, and a response is given to a callback
exactly if the message is given to it through the response. -/
structure DisposedOnce (events : List (PassEvent F P)) : Prop where
  once : events.countP PassEvent.disposes = 1
  together : (∃ e ∈ events, e.isResponse = true) ↔ ∃ e ∈ events, e.isResponse = true ∧ e.disposes = true

/-- The `TID` of a message that is taken for a response is shorter than its field. -/
def TidFits (message : List Char) : Prop :=
  IsResponse message → (valueIn message tidName.toTagName).length < keySize

/-- The message has an `EVENT` or a `TYPE` that is not empty. -/
def HasKind (message : List Char) : Prop :=
  0 < (outIn message eventName.toTagName).len ∨ 0 < (outIn message typeName.toTagName).len

/-- The ids copied by a pass fit exactly if the `TID` of a response does. -/
theorem idsFit_recvPass_iff (message : List Char) (gtsidq : List (Tsidque F P)) (curr : Timeval) :
    IdsFit (recvPass message gtsidq curr) ↔ TidFits message := by
  have hcases := recvPass_cases message gtsidq curr
  generalize recvPass message gtsidq curr = events at hcases ⊢
  cases hcases with
  | respond hresponse =>
    constructor
    · intro hfit _
      exact hfit _ (List.mem_cons_of_mem _ List.mem_cons_self)
    · intro htid tid hmem
      have hcopied : tid = valueIn message tidName.toTagName := by
        rw [respondPass, List.mem_cons, List.mem_cons] at hmem
        rcases hmem with hfree | hcopy | hrest
        · cases hfree
        · exact PassEvent.copyId.inj hcopy
        · split at hrest
          · split at hrest <;> simp at hrest
          · cases hrest
      exact hcopied ▸ htid hresponse
  | request hrequest htype isTimeout pickedUp noTransaction elapsedMsecs hbefore hafter =>
    refine iff_of_true (fun tid hmem => ?_) fun hresponse => absurd hresponse hrequest
    rcases hbefore with rfl | rfl <;> rcases hafter with rfl | rfl <;> simp at hmem
  | freed hrequest htag =>
    exact iff_of_true (fun tid hmem => by simp at hmem) fun hresponse => absurd hresponse hrequest
  | forgotten hevent htype =>
    exact iff_of_true (fun tid hmem => by simp at hmem) fun hresponse => absurd hresponse.1 htype

/-- A response is disposed of once if its id fits, and not at all otherwise. -/
theorem disposedOnce_respondPass_iff (gtsidq : List (Tsidque F P)) (curr : Timeval) (retcode : ℤ)
    (tid : List Char) :
    DisposedOnce (.free .resp :: respondPass gtsidq curr retcode tid) ↔ tid.length < keySize := by
  unfold respondPass
  by_cases hfits : tid.length < keySize
  · rw [if_pos hfits]
    refine iff_of_true ?_ hfits
    split
    · exact ⟨rfl, by simp [PassEvent.isResponse, PassEvent.disposes]⟩
    · exact ⟨rfl, by simp [PassEvent.isResponse, PassEvent.disposes]⟩
  · rw [if_neg hfits]
    refine iff_of_false (fun h => ?_) hfits
    exact absurd h.once (by simp [PassEvent.disposes])

/-- A pass disposes of its message exactly once if and only if the message says what kind it is of, and
the `TID` of a response fits. -/
theorem recvPass_disposedOnce_iff (message : List Char) (gtsidq : List (Tsidque F P)) (curr : Timeval) :
    DisposedOnce (recvPass message gtsidq curr) ↔ HasKind message ∧ TidFits message := by
  have hcases := recvPass_cases message gtsidq curr
  generalize recvPass message gtsidq curr = events at hcases ⊢
  cases hcases with
  | respond hresponse =>
    rw [disposedOnce_respondPass_iff]
    constructor
    · exact fun hfits => ⟨Or.inr hresponse.1, fun _ => hfits⟩
    · exact fun h => h.2 hresponse
  | request hrequest htype isTimeout pickedUp noTransaction elapsedMsecs hbefore hafter =>
    refine iff_of_true ?_ ⟨Or.inr htype, fun hresponse => absurd hresponse hrequest⟩
    rcases hbefore with rfl | rfl <;> rcases hafter with rfl | rfl <;>
      exact ⟨rfl, by simp [PassEvent.isResponse]⟩
  | freed hrequest htag =>
    exact iff_of_true ⟨rfl, by simp [PassEvent.isResponse]⟩ ⟨htag, fun hresponse => absurd hresponse hrequest⟩
  | forgotten hevent htype =>
    refine iff_of_false (fun h => ?_) fun h => h.1.elim hevent htype
    exact absurd h.once (by simp)

/-- A session message without a `TYPE`. -/
def sessionWithoutType : List Char := "<SID>1</SID>".toList

/-- It is neither freed nor given to a callback. -/
theorem sessionWithoutType_forgotten : 1 ≤ sessionWithoutType.length ∧ sessionWithoutType.length ≤ 9999 ∧
    ¬ DisposedOnce (recvPass sessionWithoutType ([] : List (Tsidque Unit Unit)) ⟨0, 0⟩) := by
  have hpass : recvPass sessionWithoutType ([] : List (Tsidque Unit Unit)) ⟨0, 0⟩ = [] := by decide +kernel
  refine ⟨by decide, by decide, fun h => ?_⟩
  rw [hpass] at h
  exact absurd h.once (by decide)

/-- The ids that `push_to_msgq` copies into the field of a node. -/
def pushedIds (tid : List Char) : List (List Char) := if tid = [] then [] else [tid]

/-- Every id copied into a field of `KEY_SIZE` bytes fits with its terminator, in a pass over a message and
in `push_to_msgq` for a request. -/
structure IdsFitTheirFields (message : List Char) (gtsidq : List (Tsidque F P)) (curr : Timeval)
    (req : Request) : Prop where
  received : ∀ tid, .copyId tid ∈ recvPass message gtsidq curr → tid.length + 1 ≤ keySize
  pushed : ∀ tid ∈ pushedIds req.id.chars, tid.length + 1 ≤ keySize

/-- The ids of requests fit, and those of messages exactly if the `TID` of a response does. -/
theorem idsFitTheirFields_iff (message : List Char) (gtsidq : List (Tsidque F P)) (curr : Timeval)
    (req : Request) : IdsFitTheirFields message gtsidq curr req ↔ TidFits message := by
  rw [← idsFit_recvPass_iff message gtsidq curr]
  refine ⟨fun h => h.received, fun h => ⟨h, fun tid hmem => ?_⟩⟩
  unfold pushedIds at hmem
  split at hmem
  · cases hmem
  · rw [List.mem_singleton.mp hmem]
    exact req.id.fits

/-- A response with an id of 256 bytes. -/
def longTid : List Char :=
  "<TYPE>2</TYPE><TID>".toList ++ List.replicate 256 'a' ++ "</TID>".toList

/-- The id is copied with its terminator into a field of 256 bytes. -/
theorem longTid_not_fits : longTid.length ≤ 9999 ∧
    ¬ IdsFitTheirFields longTid ([] : List (Tsidque Unit Unit)) ⟨0, 0⟩ ⟨none, 0, 0, 0, oneCharId 'a'⟩ := by
  have hcopied : .copyId (List.replicate 256 'a') ∈ recvPass longTid ([] : List (Tsidque Unit Unit)) ⟨0, 0⟩ := by
    decide +kernel
  refine ⟨by decide +kernel, fun h => ?_⟩
  have hle := h.received _ hcopied
  rw [List.length_replicate] at hle
  exact absurd hle (by decide)

end TcpClb
