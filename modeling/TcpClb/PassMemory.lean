import TcpClb.Common.OwnedBlocks
import TcpClb.MessageDisposal

/-!
# What the receive worker loses

`recv_worker_thread` allocates the buffer of a message, copies of some of its fields, and the structure that it hands to
a callback with the message; `lookup_ID_idq` allocates a copy of the id. Over any sequence of messages nothing is freed
twice or after it has been handed over. But `typ` is freed in one branch only, `tid` not in the branches that hand over
a request of a session, and the copy of an id only if it is found, so that almost every message loses memory. An empty
message is freed as if the connection had been lost.
-/

namespace TcpClb

open TcpClb.Common

variable {F P : Type}

/-- The variables of `recv_worker_thread` that point to memory, and `temp_id` of `lookup_ID_idq`. -/
inductive LocalPointer
  | message
  | typ
  | tid
  | resp
  | req
  | res
  | tempId
  deriving DecidableEq

/-- What `lookup_ID_idq` does. -/
def lookupMemory (gtsidq : List (Tsidque F P)) (curr : Timeval) (tid : List Char) : List (MemOp LocalPointer) :=
  if gtsidq = [] ∨ tid = [] then []
  else match lookupIDIdq gtsidq tid curr with
    | some _ => [.calloc .tempId, .free .tempId]
    | none => [.calloc .tempId]

/-- The end of both response branches, from the copy of `TID` on. -/
def respondMemory (gtsidq : List (Tsidque F P)) (curr : Timeval) (tid : List Char) : List (MemOp LocalPointer) :=
  .calloc .tid :: (lookupMemory gtsidq curr tid ++ .calloc .res :: if tid.length < keySize then
    match lookupIDIdq gtsidq tid curr with
    | some _ => [.give .message, .give .res, .free .tid, .null .tid]
    | none => [.free .message, .null .message, .free .res, .null .res, .free .tid, .null .tid]
  else [])

/-- The branch for event based messages. -/
def eventMemory (message : List Char) (gtsidq : List (Tsidque F P)) (curr : Timeval) : List (MemOp LocalPointer) :=
  if 0 < (outIn message typeName.toTagName).len then
    .calloc .typ :: if atoiInt (valueIn message typeName.toTagName) = 1 then
      .calloc .tid :: (lookupMemory gtsidq curr (valueIn message tidName.toTagName) ++
        [.calloc .req, .give .message, .give .req, .free .typ, .free .tid, .null .typ, .null .tid])
    else .calloc .resp :: .free .resp :: .null .resp ::
      respondMemory gtsidq curr (valueIn message tidName.toTagName)
  else [.free .message, .null .message]

/-- The branch for session based messages. -/
def sessionMemory (message : List Char) (gtsidq : List (Tsidque F P)) (curr : Timeval) : List (MemOp LocalPointer) :=
  if 0 < (outIn message typeName.toTagName).len then
    .calloc .typ :: if atoiInt (valueIn message typeName.toTagName) = 1 then
      .calloc .tid :: if 0 < (outIn message sidName.toTagName).len then [.calloc .req, .give .message, .give .req]
        else [.free .message, .null .message]
    else .calloc .resp :: .free .resp :: .null .resp :: if 0 < (outIn message sidName.toTagName).len then
        [.calloc .tid, .calloc .req, .give .message, .give .req]
      else respondMemory gtsidq curr (valueIn message tidName.toTagName)
  else []

/-- A pass of `recv_worker_thread` over a message, from the top of the loop on. After an empty message the source
goes on behind the first three assignments, which then have nothing to change. -/
def passMemory (message : List Char) (gtsidq : List (Tsidque F P)) (curr : Timeval) : List (MemOp LocalPointer) :=
  .null .tid :: .null .req :: .null .res :: .calloc .message ::
    -- `rc` is 0
    if message = [] then [.free .message, .null .message]
    else if 0 < (outIn message eventName.toTagName).len then eventMemory message gtsidq curr
    else sessionMemory message gtsidq curr

/-- A message that the worker receives, and the table and the time at which it looks up the id. -/
structure ReceivedPass (F P : Type) where
  message : List Char
  gtsidq : List (Tsidque F P)
  curr : Timeval

/-- What the worker does with memory in a pass. -/
def ReceivedPass.memory (p : ReceivedPass F P) : List (MemOp LocalPointer) := passMemory p.message p.gtsidq p.curr

/-- The message is empty, an event without a `TYPE`, or an event request whose id is not looked for in vain. -/
def ReceivedPass.LosesNothing (p : ReceivedPass F P) : Prop :=
  p.message = [] ∨ 0 < (outIn p.message eventName.toTagName).len ∧ (¬ 0 < (outIn p.message typeName.toTagName).len ∨
    atoiInt (valueIn p.message typeName.toTagName) = 1 ∧
      (p.gtsidq = [] ∨ valueIn p.message tidName.toTagName = [] ∨
        (lookupIDIdq p.gtsidq (valueIn p.message tidName.toTagName) p.curr).isSome = true))

/-- The variable that a pointer of a pass is. -/
def LocalPointer.pointer : LocalPointer → Option Pointer
  | .message => some .message
  | .typ => some .typ
  | .tid => some .tid
  | .resp => some .resp
  | .res => some .res
  | .req | .tempId => none

/-- What an operation shows of the frees and of the handing over of the message. -/
def shownOp : MemOp LocalPointer → Option (MemOp Pointer)
  | .free v => v.pointer.map .free
  | .give .message => some (.give .message)
  | _ => none

/-- What an event shows of them. -/
def PassEvent.shown : PassEvent F P → Option (MemOp Pointer)
  | .free p => some (.free p)
  | .regReqCb _ reqBuf _ _ _ _ => some (.give reqBuf)
  | .callbackF _ _ _ _ _ queryRes _ => some (.give queryRes)
  | _ => none

section Traces

variable (message : List Char) (gtsidq : List (Tsidque F P)) (curr : Timeval)

/-- A lookup shows nothing. -/
theorem filterMap_lookupMemory (tid : List Char) : (lookupMemory gtsidq curr tid).filterMap shownOp = [] := by
  unfold lookupMemory
  split
  · rfl
  · split <;> rfl

/-- The response branches free and hand over what the events of the pass say they do. -/
theorem filterMap_respondMemory (retcode : ℤ) (tid : List Char) :
    (respondMemory gtsidq curr tid).filterMap shownOp =
      (respondPass gtsidq curr retcode tid).filterMap PassEvent.shown := by
  rw [respondMemory, respondPass, List.filterMap_cons_none rfl, List.filterMap_append, filterMap_lookupMemory,
    List.nil_append, List.filterMap_cons_none rfl, List.filterMap_cons_none rfl]
  by_cases hfits : tid.length < keySize
  · rw [if_pos hfits, if_pos hfits]
    cases lookupIDIdq gtsidq tid curr <;> rfl
  · rw [if_neg hfits, if_neg hfits]
    rfl

/-- So does the branch for events. -/
theorem filterMap_eventMemory : (eventMemory message gtsidq curr).filterMap shownOp =
    (eventPass message gtsidq curr).filterMap PassEvent.shown := by
  unfold eventMemory eventPass
  by_cases htype : 0 < (outIn message typeName.toTagName).len
  · rw [if_pos htype, if_pos htype, List.filterMap_cons_none rfl]
    by_cases hone : atoiInt (valueIn message typeName.toTagName) = 1
    · rw [if_pos hone, if_pos hone, List.filterMap_cons_none rfl, List.filterMap_append, filterMap_lookupMemory]
      cases lookupIDIdq gtsidq (valueIn message tidName.toTagName) curr <;> rfl
    · rw [if_neg hone, if_neg hone]
      exact congrArg (.free .resp :: ·) (filterMap_respondMemory gtsidq curr _ _)
  · rw [if_neg htype, if_neg htype]
    rfl

/-- So does the branch for sessions. -/
theorem filterMap_sessionMemory : (sessionMemory message gtsidq curr).filterMap shownOp =
    (sessionPass message gtsidq curr).filterMap PassEvent.shown := by
  unfold sessionMemory sessionPass
  by_cases htype : 0 < (outIn message typeName.toTagName).len
  · rw [if_pos htype, if_pos htype, List.filterMap_cons_none rfl]
    by_cases hone : atoiInt (valueIn message typeName.toTagName) = 1
    · rw [if_pos hone, if_pos hone, List.filterMap_cons_none rfl]
      split <;> rfl
    · rw [if_neg hone, if_neg hone]
      by_cases hsid : 0 < (outIn message sidName.toTagName).len
      · rw [if_pos hsid, if_pos hsid]
        rfl
      · rw [if_neg hsid, if_neg hsid]
        exact congrArg (.free .resp :: ·) (filterMap_respondMemory gtsidq curr _ _)
  · rw [if_neg htype, if_neg htype]
    rfl

/-- A pass frees and hands over what its events say. -/
theorem filterMap_passMemory (hne : message ≠ []) :
    (passMemory message gtsidq curr).filterMap shownOp = (recvPass message gtsidq curr).filterMap PassEvent.shown := by
  unfold passMemory recvPass
  rw [if_neg hne]
  by_cases hevent : 0 < (outIn message eventName.toTagName).len
  · rw [if_pos hevent, if_pos hevent]
    exact filterMap_eventMemory message gtsidq curr
  · rw [if_neg hevent, if_neg hevent]
    exact filterMap_sessionMemory message gtsidq curr

end Traces

/-- The copy of an id that is looked for in vain. -/
def lookupLeft (gtsidq : List (Tsidque F P)) (curr : Timeval) (tid : List Char) : List LocalPointer :=
  if gtsidq = [] ∨ tid = [] ∨ (lookupIDIdq gtsidq tid curr).isSome = true then [] else [.tempId]

/-- The variables that hold a block nobody frees when a pass ends. -/
def ReceivedPass.left (p : ReceivedPass F P) : List LocalPointer :=
  if p.message = [] then []
  else if 0 < (outIn p.message eventName.toTagName).len then
    if 0 < (outIn p.message typeName.toTagName).len then
      if atoiInt (valueIn p.message typeName.toTagName) = 1 then
        lookupLeft p.gtsidq p.curr (valueIn p.message tidName.toTagName)
      else lookupLeft p.gtsidq p.curr (valueIn p.message tidName.toTagName) ++ [.typ]
    else []
  else if 0 < (outIn p.message typeName.toTagName).len then
    if atoiInt (valueIn p.message typeName.toTagName) = 1 ∨ 0 < (outIn p.message sidName.toTagName).len then
      [.tid, .typ]
    else lookupLeft p.gtsidq p.curr (valueIn p.message tidName.toTagName) ++ [.typ]
  else [.message]

/-- A lookup leaves the copy of an id that it does not find. -/
theorem run_lookupMemory (gtsidq : List (Tsidque F P)) (curr : Timeval) (tid : List Char) (owned : List LocalPointer)
    (howned : .tempId ∉ owned) :
    runActions ownStep owned (lookupMemory gtsidq curr tid) = some (lookupLeft gtsidq curr tid ++ owned) := by
  have hcalloc : ownStep owned (.calloc .tempId) = some (.tempId :: owned) := if_neg howned
  by_cases hnone : gtsidq = [] ∨ tid = []
  · rw [lookupMemory, if_pos hnone, lookupLeft, if_pos (by tauto)]
    rfl
  · rw [lookupMemory, if_neg hnone, lookupLeft]
    cases lookupIDIdq gtsidq tid curr with
    | some n =>
      have hfree : ownStep (.tempId :: owned) (.free .tempId) = some owned := by
        rw [ownStep, if_pos List.mem_cons_self, List.erase_cons_head]
      rw [if_pos (by simp)]
      simp only [runActions, hcalloc, hfree, Option.bind_some, List.nil_append]
    | none =>
      rw [if_neg (by simpa using hnone)]
      simp only [runActions, hcalloc, Option.bind_some, List.singleton_append]

/-- What a lookup leaves is the copy or nothing. -/
theorem lookupLeft_cases (gtsidq : List (Tsidque F P)) (curr : Timeval) (tid : List Char) :
    lookupLeft gtsidq curr tid = [] ∨ lookupLeft gtsidq curr tid = [.tempId] := by
  unfold lookupLeft
  split
  · exact .inl rfl
  · exact .inr rfl

/-- The copy of `TID` that all branches make. -/
theorem run_calloc_tid (ops : List (MemOp LocalPointer)) :
    runActions ownStep [.typ, .message] (.calloc .tid :: ops) = runActions ownStep [.tid, .typ, .message] ops := rfl

/-- A response that fits its field leaves `typ`, and the copy of an id that is not found. -/
theorem run_respondMemory (gtsidq : List (Tsidque F P)) (curr : Timeval) {tid : List Char}
    (hfits : tid.length < keySize) :
    runActions ownStep [.typ, .message] (respondMemory gtsidq curr tid) =
      some (lookupLeft gtsidq curr tid ++ [.typ]) := by
  have hlookup := run_lookupMemory gtsidq curr tid [.tid, .typ, .message] (by decide)
  rw [respondMemory, if_pos hfits, run_calloc_tid, runActions_append, hlookup, Option.bind_some]
  rcases lookupLeft_cases gtsidq curr tid with hleft | hleft <;> rw [hleft] <;>
    cases lookupIDIdq gtsidq tid curr <;> rfl

/-- The check of a pass whose id fits succeeds. -/
theorem ReceivedPass.run_memory (p : ReceivedPass F P) (hfits : TidFits p.message) :
    runActions ownStep [] p.memory = some p.left := by
  have htop (ops : List (MemOp LocalPointer)) :
      runActions ownStep [] (.null .tid :: .null .req :: .null .res :: .calloc .message :: ops) =
        runActions ownStep [.message] ops := rfl
  have htyp (ops : List (MemOp LocalPointer)) :
      runActions ownStep [.message] (.calloc .typ :: ops) = runActions ownStep [.typ, .message] ops := rfl
  have hresp (ops : List (MemOp LocalPointer)) :
      runActions ownStep [.typ, .message] (.calloc .resp :: .free .resp :: .null .resp :: ops) =
        runActions ownStep [.typ, .message] ops := rfl
  rw [ReceivedPass.memory, passMemory, htop, ReceivedPass.left]
  by_cases hempty : p.message = []
  · rw [if_pos hempty, if_pos hempty]
    rfl
  rw [if_neg hempty, if_neg hempty]
  by_cases hevent : 0 < (outIn p.message eventName.toTagName).len
  · rw [if_pos hevent, if_pos hevent, eventMemory]
    by_cases htype : 0 < (outIn p.message typeName.toTagName).len
    · rw [if_pos htype, if_pos htype, htyp]
      by_cases hone : atoiInt (valueIn p.message typeName.toTagName) = 1
      · have hlookup := run_lookupMemory p.gtsidq p.curr (valueIn p.message tidName.toTagName)
          [.tid, .typ, .message] (by decide)
        rw [if_pos hone, if_pos hone, run_calloc_tid, runActions_append, hlookup, Option.bind_some]
        rcases lookupLeft_cases p.gtsidq p.curr (valueIn p.message tidName.toTagName) with hleft | hleft <;>
          rw [hleft] <;> rfl
      · rw [if_neg hone, if_neg hone, hresp, run_respondMemory _ _ (hfits ⟨htype, hone, Or.inl hevent⟩)]
    · rw [if_neg htype, if_neg htype]
      rfl
  · rw [if_neg hevent, if_neg hevent, sessionMemory]
    by_cases htype : 0 < (outIn p.message typeName.toTagName).len
    · rw [if_pos htype, if_pos htype, htyp]
      by_cases hone : atoiInt (valueIn p.message typeName.toTagName) = 1
      · have hrequest : atoiInt (valueIn p.message typeName.toTagName) = 1 ∨
            0 < (outIn p.message sidName.toTagName).len := Or.inl hone
        rw [if_pos hone, if_pos hrequest]
        split <;> rfl
      · rw [if_neg hone, hresp]
        by_cases hsid : 0 < (outIn p.message sidName.toTagName).len
        · rw [if_pos hsid, if_pos (Or.inr hsid)]
          rfl
        · rw [if_neg hsid, if_neg (not_or.mpr ⟨hone, hsid⟩), run_respondMemory _ _ (hfits ⟨htype, hone, Or.inr hsid⟩)]
    · rw [if_neg htype, if_neg htype]
      rfl

/-- A pass leaves at most two blocks, and none exactly in the cases named. -/
theorem ReceivedPass.length_left (p : ReceivedPass F P) : p.left.length ≤ 2 ∧ (p.left.length = 0 ↔ p.LosesNothing) := by
  have hlookup (tid : List Char) : (lookupLeft p.gtsidq p.curr tid).length ≤ 1 ∧
      ((lookupLeft p.gtsidq p.curr tid).length = 0 ↔
        p.gtsidq = [] ∨ tid = [] ∨ (lookupIDIdq p.gtsidq tid p.curr).isSome = true) := by
    unfold lookupLeft
    split
    · next h => exact ⟨Nat.zero_le 1, iff_of_true rfl h⟩
    · next h => exact ⟨le_refl 1, iff_of_false (by simp) h⟩
  unfold ReceivedPass.left ReceivedPass.LosesNothing
  by_cases hempty : p.message = []
  · rw [if_pos hempty]
    exact ⟨Nat.zero_le 2, iff_of_true rfl (.inl hempty)⟩
  rw [if_neg hempty, or_iff_right hempty]
  by_cases hevent : 0 < (outIn p.message eventName.toTagName).len
  · rw [if_pos hevent, and_iff_right hevent]
    by_cases htype : 0 < (outIn p.message typeName.toTagName).len
    · rw [if_pos htype, or_iff_right (not_not.mpr htype)]
      obtain ⟨hle, hzero⟩ := hlookup (valueIn p.message tidName.toTagName)
      by_cases hone : atoiInt (valueIn p.message typeName.toTagName) = 1
      · rw [if_pos hone, and_iff_right hone]
        exact ⟨hle.trans (by decide), hzero⟩
      · rw [if_neg hone, List.length_append]
        exact ⟨Nat.add_le_add_right hle 1, iff_of_false (by simp) fun h => hone h.1⟩
    · rw [if_neg htype]
      exact ⟨Nat.zero_le 2, iff_of_true rfl (.inl htype)⟩
  · rw [if_neg hevent]
    refine ⟨?_, iff_of_false ?_ fun h => hevent h.1⟩
    · split
      · split
        · exact le_refl 2
        · rw [List.length_append]
          exact Nat.add_le_add_right (hlookup _).1 1
      · exact Nat.le_succ 1
    · split
      · split <;> simp
      · simp

/-- Over any sequence of messages whose ids fit, whatever the table is at each of them, the receive worker frees nothing
twice and nothing that it has handed over. At most two blocks are lost for each message, and none exactly if every
message is empty, an event without a `TYPE` or an event request whose id is not looked for in vain. What it frees and
hands over of a message are the events of the pass over it. -/
theorem passes_loseNothing_iff (passes : List (ReceivedPass F P)) (hfits : ∀ p ∈ passes, TidFits p.message) :
    (∃ m, runActions memStep Memory.empty (passes.flatMap ReceivedPass.memory) = some m ∧
      m.mine.length ≤ 2 * passes.length ∧ (m.mine = [] ↔ ∀ p ∈ passes, p.LosesNothing)) ∧
    ∀ p ∈ passes, p.message ≠ [] →
      p.memory.filterMap shownOp = (recvPass p.message p.gtsidq p.curr).filterMap PassEvent.shown := by
  refine ⟨?_, fun p _ hne => filterMap_passMemory p.message p.gtsidq p.curr hne⟩
  obtain ⟨m, hrun, _, hlen⟩ := runActions_flatMap_owns ReceivedPass.memory ReceivedPass.left
    (fun p hp => p.run_memory (hfits p hp)) (m := Memory.empty) Memory.empty_owns
  refine ⟨m, hrun, ?_, ?_⟩
  · rw [hlen]
    exact length_flatMap_le ReceivedPass.left fun p _ => p.length_left.1
  · rw [← List.length_eq_zero_iff, hlen]
    change (passes.flatMap ReceivedPass.left).length = 0 ↔ _
    rw [List.length_eq_zero_iff, List.flatMap_eq_nil_iff]
    exact forall₂_congr fun p _ => List.length_eq_zero_iff.symm.trans p.length_left.2

/-- An empty message, and then twice one that no branch looks at. -/
def twiceForgotten : List (ReceivedPass Unit Unit) :=
  ⟨[], [], ⟨0, 0⟩⟩ :: List.replicate 2 ⟨sessionWithoutType, [], ⟨0, 0⟩⟩

/-- The buffer of the latter is lost each time. -/
theorem twiceForgotten_lost : ∃ m, runActions memStep Memory.empty (twiceForgotten.flatMap ReceivedPass.memory) =
    some m ∧ m.mine.length ≤ 6 ∧ m.mine ≠ [] := by
  have htype : ¬ 0 < (outIn sessionWithoutType typeName.toTagName).len := by decide
  have hevent : ¬ 0 < (outIn sessionWithoutType eventName.toTagName).len := by decide
  have hfits : ∀ p ∈ twiceForgotten, TidFits p.message := by
    intro p hp hresponse
    rcases List.mem_cons.mp hp with rfl | hp
    · exact absurd hresponse.1 (by decide)
    · rw [List.eq_of_mem_replicate hp] at hresponse
      exact absurd hresponse.1 htype
  obtain ⟨⟨m, hrun, hle, hlost⟩, _⟩ := passes_loseNothing_iff twiceForgotten hfits
  refine ⟨m, hrun, hle, fun h => ?_⟩
  have hmem : ⟨sessionWithoutType, [], ⟨0, 0⟩⟩ ∈ twiceForgotten :=
    List.mem_cons_of_mem _ (List.mem_replicate.mpr ⟨two_ne_zero, rfl⟩)
  rcases hlost.mp h _ hmem with hempty | hnothing
  · exact absurd hempty (by decide)
  · exact hevent hnothing.1

end TcpClb
