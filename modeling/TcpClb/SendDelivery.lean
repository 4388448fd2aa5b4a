import TcpClb.Common.Runs
import TcpClb.ThreadSteps

/-!
# What a send worker has sent of a message it frees

A send worker frees a message once it has called `send_to_fd` for the header and for the body,
whatever the calls returned. The message has been sent completely, on one connection, exactly if no
call of `send` for it failed, the connection was not replaced between two of them that accepted
something, and the header is four digits.
-/

namespace TcpClb

open TcpClb.Common

variable {F P : Type}

/-- The length can be written with four digits. -/
def HasFourDigits (len : ℤ) : Prop := 0 ≤ len ∧ len ≤ 9999

/-- The bytes of the body that are to be sent. -/
def Msgque.body (msg : Msgque) : List Char := msg.data.readable.take msg.len.toNat

/-- The complete frame of a message. -/
def Msgque.wire (msg : Msgque) : List Char := lengthHeader msg.len ++ msg.body

/-- The bytes that a call has accepted. -/
def SendCall.accepted (call : SendCall) : List Char := call.result.accepted call.offered

/-- The bytes of a message that have been accepted, in order. -/
def Transfer.accepted (x : Transfer) : List Char := x.calls.flatMap SendCall.accepted

/-- All calls that accepted something were on the same connection. -/
def Transfer.OneConnection (x : Transfer) : Prop :=
  ∀ a ∈ x.calls, ∀ b ∈ x.calls, a.accepted ≠ [] → b.accepted ≠ [] → a.conn = b.conn

/-- The complete frame, with a header of four digits, has been accepted on one connection. -/
def Transfer.Complete (x : Transfer) : Prop :=
  HasFourDigits x.msg.len ∧ x.OneConnection ∧ x.accepted = x.msg.wire

/-- No call failed, the connection stayed the same, and the length has four digits. -/
def Transfer.Undisturbed (x : Transfer) : Prop :=
  HasFourDigits x.msg.len ∧ x.OneConnection ∧ ∀ call ∈ x.calls, call.result.Harmless

/-- The bytes of a part of a message. -/
def Part.bytes (msg : Msgque) : Part → List Char
  | .header => lengthHeader msg.len
  | .body => msg.body

/-- The bytes of a message behind a part of it. -/
def Part.after (msg : Msgque) : Part → List Char
  | .header => msg.body
  | .body => []

/-- The message a worker has in hand, and what it has not offered to `send` yet. -/
def SendPc.inHand : SendPc → Option (Transfer × List Char)
  | .start part x => some (x, part.bytes x.msg ++ part.after x.msg)
  | .sending part x _ rest => some (x, rest ++ part.after x.msg)
  | .failed part x => some (x, part.after x.msg)
  | .free x => some (x, [])
  | _ => none

/-- Every message popped is in hand or has been sent completely before it was freed. -/
structure SendWorker.NoneLost (w : SendWorker) : Prop where
  accounted : w.taken = w.finished.map Transfer.msg ++ (w.pc.inHand.map fun hand => hand.1.msg).toList
  complete : ∀ x ∈ w.finished, x.Complete

/-- No send worker has lost a message. -/
def System.NoneLost (s : System F P) : Prop := ∀ i, (s.send i).NoneLost

/-- The step does not free a message whose sending was disturbed. -/
def Action.FreesUndisturbed (s : System F P) : Action F P → Prop
  | .send i .free => ∀ x, (s.send i).pc = .free x → x.Undisturbed
  | _ => True

/-- Either everything up to the given rest has been accepted, or a call has failed and a byte is
missing for good. -/
def Transfer.Progress (x : Transfer) (rest : List Char) : Prop :=
  ((∀ call ∈ x.calls, call.result.Harmless) ∧ x.accepted ++ rest = x.msg.wire) ∨
    ((¬ ∀ call ∈ x.calls, call.result.Harmless) ∧ x.accepted.length + rest.length < x.msg.wire.length)

/-- The message in hand has progressed to what is not offered yet, and a call always offers
something. -/
structure SendWorker.Tracked (w : SendWorker) : Prop where
  progress : ∀ x rest, w.pc.inHand = some (x, rest) → x.Progress rest
  offers : ∀ part x fd rest, w.pc = .sending part x fd rest → rest ≠ []

/-- A round of the loop that goes on has accepted what is no longer left. -/
theorem sendOnce_eq_some {rest left : List Char} {r : SendResult} (h : sendOnce rest r = some left) :
    r.Harmless ∧ r.accepted rest ++ left = rest := by
  cases r with
  | sent count =>
    obtain ⟨hne, h⟩ := Option.ite_none_left_eq_some.mp h
    cases h
    exact ⟨hne, List.take_append_drop count rest⟩
  | failed errno =>
    obtain ⟨hblock, h⟩ := Option.ite_none_right_eq_some.mp h
    cases h
    exact ⟨hblock, rfl⟩

/-- A round that ends it with -1 has accepted nothing. -/
theorem sendOnce_eq_none {rest : List Char} {r : SendResult} (h : sendOnce rest r = none) :
    ¬ r.Harmless ∧ r.accepted rest = [] := by
  cases r with
  | sent count =>
    by_cases hzero : count = 0
    · subst hzero
      exact ⟨fun hne => hne rfl, rfl⟩
    · rw [sendOnce, if_neg hzero] at h
      cases h
  | failed errno =>
    by_cases hblock : errno.wouldBlock = true
    · rw [sendOnce, if_pos hblock] at h
      cases h
    · exact ⟨hblock, rfl⟩

/-- What a message has accepted after one more call. -/
theorem Transfer.accepted_record (x : Transfer) (call : SendCall) :
    (x.record call).accepted = x.accepted ++ call.accepted := by
  simp [Transfer.record, Transfer.accepted]

/-- Whether all calls were harmless, after one more. -/
theorem Transfer.harmless_record (x : Transfer) (call : SendCall) :
    (∀ c ∈ (x.record call).calls, c.result.Harmless) ↔
      (∀ c ∈ x.calls, c.result.Harmless) ∧ call.result.Harmless := by
  simp only [Transfer.record, List.forall_mem_append, List.forall_mem_singleton]

/-- A call that goes on is progress. -/
theorem Transfer.Progress.go_on {x : Transfer} {rest left behind : List Char} {conn : Connection}
    {r : SendResult} (hx : x.Progress (rest ++ behind)) (h : sendOnce rest r = some left) :
    (x.record ⟨conn, rest, r⟩).Progress (left ++ behind) := by
  obtain ⟨hharmless, haccepted⟩ := sendOnce_eq_some h
  have hmsg : (x.record ⟨conn, rest, r⟩).msg = x.msg := rfl
  unfold Transfer.Progress at hx ⊢
  rw [x.accepted_record, x.harmless_record, and_iff_left hharmless, hmsg, List.append_assoc,
    ← List.append_assoc _ left, SendCall.accepted, haccepted]
  refine hx.imp_right fun hshort => ⟨hshort.1, ?_⟩
  have hlen := congrArg List.length haccepted
  simp only [List.length_append] at hlen hshort ⊢
  omega

/-- After a call that fails a byte is missing. -/
theorem Transfer.Progress.fail {x : Transfer} {rest behind : List Char} {conn : Connection}
    {r : SendResult} (hx : x.Progress (rest ++ behind)) (hrest : rest ≠ []) (h : sendOnce rest r = none) :
    (x.record ⟨conn, rest, r⟩).Progress behind := by
  obtain ⟨hharmful, haccepted⟩ := sendOnce_eq_none h
  have hpos : 0 < rest.length := List.length_pos_iff.mpr hrest
  refine Or.inr ⟨fun hall => hharmful ((x.harmless_record _).mp hall).2, ?_⟩
  rw [x.accepted_record, SendCall.accepted, haccepted, List.append_nil]
  change x.accepted.length + behind.length < x.msg.wire.length
  rcases hx with ⟨_, hall⟩ | ⟨_, hshort⟩
  · have hlen := congrArg List.length hall
    simp only [List.length_append] at hlen
    omega
  · rw [List.length_append] at hshort
    omega

/-- A message with nothing left to offer is complete exactly if it was undisturbed. -/
theorem Transfer.Progress.complete_iff {x : Transfer} (hx : x.Progress []) : x.Complete ↔ x.Undisturbed := by
  refine and_congr_right fun _ => and_congr_right fun _ => ?_
  rcases hx with ⟨hharmless, hall⟩ | ⟨hharmful, hshort⟩
  · rw [List.append_nil] at hall
    exact iff_of_true hall hharmless
  · refine iff_of_false (fun heq => ?_) hharmful
    rw [heq, List.length_nil] at hshort
    omega

/-- A message in hand stays in hand at the loop test of `send_to_fd`. -/
theorem inHand_sendingOrNext (part : Part) (x : Transfer) (fd : ℤ) (rest : List Char) :
    (sendingOrNext part x fd rest).inHand = some (x, rest ++ part.after x.msg) := by
  unfold sendingOrNext
  by_cases hrest : rest = []
  · rw [if_pos hrest, hrest]
    cases part
    · simp [Part.next, SendPc.inHand, Part.bytes, Part.after]
    · rfl
  · rw [if_neg hrest]
    rfl

/-- It stays in hand between its two parts. -/
theorem inHand_next (part : Part) (x : Transfer) :
    (part.next x).inHand = some (x, part.after x.msg) :=
  inHand_sendingOrNext part x 0 []

/-- The bytes that are read for a part are the bytes of the part. -/
theorem Part.text_eq_some {part : Part} {msg : Msgque} {text : List Char} (h : part.text msg = some text) :
    text = part.bytes msg := by
  cases part with
  | header | body => exact (Option.some.inj (Option.ite_none_right_eq_some.mp h).2).symm

/-- The loop test goes on only with something to send. -/
theorem rest_ne_nil_of_sending {part part' : Part} {x x' : Transfer} {fd fd' : ℤ} {rest rest' : List Char}
    (h : sendingOrNext part x fd rest = .sending part' x' fd' rest') : rest' ≠ [] := by
  rcases sendingOrNext_cases part x fd rest with ⟨hrest, hsending⟩ | hbody | hfree
  · rw [hsending] at h
    cases h
    exact hrest
  · rw [hbody] at h
    cases h
  · rw [hfree] at h
    cases h

/-- There is nothing to track if there is nothing in hand. -/
theorem SendWorker.Tracked.of_idle {w : SendWorker} (hidle : w.pc.inHand = none) : w.Tracked := by
  refine ⟨fun x rest h => ?_, fun part x fd rest h => ?_⟩
  · rw [hidle] at h
    cases h
  · rw [h] at hidle
    cases hidle

/-- A worker is tracked if the message it has in hand is. -/
theorem SendWorker.Tracked.of_hand {w : SendWorker} {x : Transfer} {rest : List Char}
    (hhand : w.pc.inHand = some (x, rest)) (hprogress : x.Progress rest)
    (hoffers : ∀ part y fd left, w.pc = .sending part y fd left → left ≠ []) : w.Tracked := by
  refine ⟨fun y left h => ?_, hoffers⟩
  rw [hhand] at h
  cases h
  exact hprogress

/-- A step of a send worker keeps track of the message in hand. -/
theorem SendStep.tracked {s s' : Shared F P} {i : ℕ} {c : Con} {w w' : SendWorker} {a : SendAction}
    (hstep : SendStep s i c w a s' w') (hw : w.Tracked) : w'.Tracked := by
  cases hstep with
  | wait | goOn | wake | up | down | lock | recreate | connect | popNone | free => exact .of_idle rfl
  | pop => exact .of_hand rfl (Or.inl ⟨fun _ h => absurd h List.not_mem_nil, rfl⟩) nofun
  | @start part x text hpc htext =>
    apply SendWorker.Tracked.of_hand (inHand_sendingOrNext part x c.fd text)
    · rw [Part.text_eq_some htext]
      exact hw.progress x _ (by rw [hpc]; rfl)
    · exact fun _ _ _ _ h => rest_ne_nil_of_sending h
  | @sendFails part x fd rest r hpc hsend =>
    have hprogress := hw.progress x (rest ++ part.after x.msg) (by rw [hpc]; rfl)
    exact .of_hand rfl (hprogress.fail (hw.offers part x fd rest hpc) hsend) nofun
  | @send part x fd rest left r hpc hsend =>
    have hprogress := hw.progress x (rest ++ part.after x.msg) (by rw [hpc]; rfl)
    exact .of_hand (inHand_sendingOrNext part _ fd left) (hprogress.go_on hsend)
      fun _ _ _ _ h => rest_ne_nil_of_sending h
  | @failed part x hpc =>
    apply SendWorker.Tracked.of_hand (inHand_next part x) (hw.progress x _ (by rw [hpc]; rfl))
    intro _ _ _ _ h
    cases part <;> cases h

/-- A step of the system keeps track of the messages in hand. -/
theorem sysStep_tracked {s s' : System F P} {a : Action F P} (hstep : sysStep s a = some s')
    (hs : ∀ i, (s.send i).Tracked) : ∀ i, (s'.send i).Tracked := by
  cases a with
  | send i b =>
    obtain ⟨c, shared, w, _, hworker, rfl⟩ := sysStep_send hstep
    exact (Function.forall_update_iff s.send fun _ w => w.Tracked).mpr
      ⟨hworker.tracked (hs i), fun j _ => hs j⟩
  | recv | append | signal | sweep =>
    intro i
    rcases sysStep_send_eq hstep nofun i with hsame | ⟨_, hwoken⟩
    · exact hsame ▸ hs i
    · rw [hwoken]
      exact .of_idle rfl

/-- A worker that has nothing in hand, and takes or frees nothing, has lost nothing. -/
theorem SendWorker.NoneLost.idle {w w' : SendWorker} (hw : w.NoneLost) (hold : w.pc.inHand = none)
    (hnew : w'.pc.inHand = none) (htaken : w'.taken = w.taken) (hfinished : w'.finished = w.finished) :
    w'.NoneLost := by
  constructor
  · rw [htaken, hfinished, hnew, hw.accounted, hold]
  · rw [hfinished]
    exact hw.complete

/-- A worker that goes on with the message it has in hand has lost nothing. -/
theorem SendWorker.NoneLost.busy {w w' : SendWorker} (hw : w.NoneLost) {x x' : Transfer}
    {rest rest' : List Char} (hold : w.pc.inHand = some (x, rest)) (hnew : w'.pc.inHand = some (x', rest'))
    (hmsg : x'.msg = x.msg) (htaken : w'.taken = w.taken) (hfinished : w'.finished = w.finished) :
    w'.NoneLost := by
  constructor
  · rw [htaken, hfinished, hnew, hw.accounted, hold, Option.map_some, Option.map_some, hmsg]
  · rw [hfinished]
    exact hw.complete

/-- Freeing a message loses nothing exactly if its sending was not disturbed. -/
theorem SendWorker.NoneLost.free_iff {w w' : SendWorker} (hw : w.NoneLost) (htracked : w.Tracked) {x : Transfer}
    (hpc : w.pc = .free x) (hafter : w' = { w with pc := .test, finished := w.finished ++ [x] }) :
    w'.NoneLost ↔ x.Undisturbed := by
  subst hafter
  have hhand : w.pc.inHand = some (x, []) := by rw [hpc]; rfl
  have hcomplete := (htracked.progress x [] hhand).complete_iff
  refine ⟨fun hnew => ?_, fun hcond => ⟨?_, ?_⟩⟩
  · exact hcomplete.mp (hnew.complete x (List.mem_append_right _ List.mem_cons_self))
  · change w.taken = (w.finished ++ [x]).map Transfer.msg ++ []
    rw [hw.accounted, hhand]
    simp
  · intro y hy
    rcases List.mem_append.mp hy with hy | hy
    · exact hw.complete y hy
    · rw [List.mem_singleton.mp hy]
      exact hcomplete.mpr hcond

/-- The condition on a step of a send worker. -/
def SendAction.FreesUndisturbed (w : SendWorker) : SendAction → Prop
  | .free => ∀ x, w.pc = .free x → x.Undisturbed
  | _ => True

/-- A step of a send worker loses no message exactly if it meets the condition. -/
theorem SendStep.accounts_iff {s s' : Shared F P} {i : ℕ} {c : Con} {w w' : SendWorker} {a : SendAction}
    (hstep : SendStep s i c w a s' w') (htracked : w.Tracked) (hw : w.NoneLost) :
    w'.NoneLost ↔ a.FreesUndisturbed w := by
  cases hstep with
  | wait hpc | goOn hpc | wake hpc | up hpc | down hpc | lock hpc | recreate hpc | popNone hpc =>
    exact iff_of_true (hw.idle (by rw [hpc]; rfl) rfl rfl rfl) trivial
  | connect connected hpc => exact iff_of_true (hw.idle (by rw [hpc]; rfl) rfl rfl rfl) trivial
  | @pop q node cell hpc hpop hcell =>
    refine iff_of_true ⟨?_, hw.complete⟩ trivial
    change w.taken ++ [cell.val] = w.finished.map Transfer.msg ++ [cell.val]
    rw [hw.accounted, hpc]
    simp [SendPc.inHand]
  | @start part x text hpc htext =>
    have hhand : w.pc.inHand = some (x, part.bytes x.msg ++ part.after x.msg) := by rw [hpc]; rfl
    exact iff_of_true (hw.busy hhand (inHand_sendingOrNext part x c.fd text) rfl rfl rfl) trivial
  | @sendFails part x fd rest r hpc hsend =>
    have hhand : w.pc.inHand = some (x, rest ++ part.after x.msg) := by rw [hpc]; rfl
    exact iff_of_true (hw.busy hhand rfl rfl rfl rfl) trivial
  | @send part x fd rest left r hpc hsend =>
    have hhand : w.pc.inHand = some (x, rest ++ part.after x.msg) := by rw [hpc]; rfl
    exact iff_of_true (hw.busy hhand (inHand_sendingOrNext part _ fd left) rfl rfl rfl) trivial
  | @failed part x hpc =>
    have hhand : w.pc.inHand = some (x, part.after x.msg) := by rw [hpc]; rfl
    exact iff_of_true (hw.busy hhand (inHand_next part x) rfl rfl rfl) trivial
  | @free x q hpc hfree =>
    have hcond : SendAction.free.FreesUndisturbed w ↔ x.Undisturbed := by
      rw [SendAction.FreesUndisturbed, hpc]
      refine ⟨fun h => h x rfl, fun h y hy => ?_⟩
      cases hy
      exact h
    rw [hcond]
    exact hw.free_iff htracked hpc rfl

/-- A step of another thread leaves the messages in hand. -/
theorem sysStep_noneLost_other {s s' : System F P} {a : Action F P} (hstep : sysStep s a = some s')
    (ha : ∀ i b, a ≠ .send i b) (hs : s.NoneLost) : s'.NoneLost := by
  intro i
  rcases sysStep_send_eq hstep ha i with hsame | ⟨hwait, hwoken⟩
  · rw [hsame]
    exact hs i
  · rw [hwoken]
    exact (hs i).idle (by rw [hwait]; rfl) rfl rfl rfl

/-- A step of the system loses no message exactly if it meets the condition. -/
theorem sysStep_noneLost_iff {s s' : System F P} (a : Action F P) (htracked : ∀ i, (s.send i).Tracked)
    (hs : s.NoneLost) (hstep : sysStep s a = some s') : s'.NoneLost ↔ a.FreesUndisturbed s := by
  cases a with
  | send i b =>
    obtain ⟨c, shared, w, _, hworker, rfl⟩ := sysStep_send hstep
    have hcond : (Action.send i b : Action F P).FreesUndisturbed s ↔ b.FreesUndisturbed (s.send i) := by
      cases b <;> exact Iff.rfl
    rw [hcond, ← hworker.accounts_iff (htracked i) (hs i)]
    exact (Function.forall_update_iff s.send fun _ w => w.NoneLost).trans (and_iff_left fun j _ => hs j)
  | recv | append | signal | sweep =>
    exact iff_of_true (sysStep_noneLost_other hstep nofun hs) trivial

/-- In a run no send worker loses a message exactly if every message is freed undisturbed. -/
theorem noneLost_iff (cfg : Configurator) (gconnList : List Con) (kernel : Kernel)
    (acts : List (Action F P)) :
    Throughout sysStep System.NoneLost (.start cfg gconnList kernel) acts ↔
      EachStep sysStep (fun s a => a.FreesUndisturbed s) (.start cfg gconnList kernel) acts :=
  throughout_iff_eachStep sysStep (fun s a => a.FreesUndisturbed s) (fun s => ∀ i, (s.send i).Tracked)
    System.NoneLost (fun _ _ _ hw _ _ hstep => sysStep_tracked hstep hw)
    (fun _ a _ hw hs hstep => sysStep_noneLost_iff a hw hs hstep)
    _ acts (fun _ => .of_idle rfl) fun _ => ⟨rfl, fun _ h => absurd h List.not_mem_nil⟩

/-- The connection breaks before the header of a message is sent. -/
def brokenSend : List (Action Unit Unit) :=
  [.append 0 ⟨some ['x', '\x00'], 1, 0, 0, oneCharId 'a'⟩ () () ⟨0, 0⟩, .send 0 .test, .send 0 .checkState,
    .send 0 .pop, .send 0 .start, .send 0 (.send (.failed (.other 32))), .send 0 .failed,
    .send 0 .start, .send 0 (.send (.failed (.other 32))), .send 0 .failed, .send 0 .free]

/-- The message is freed although nothing of it has been accepted. -/
theorem brokenSend_lost : manage twoPeers bothConnect = some (twoPeersUp : System Unit Unit) ∧
    ¬ Throughout sysStep System.NoneLost twoPeersUp brokenSend := by
  refine ⟨rfl, fun hall => ?_⟩
  obtain ⟨final, hrun, x, hx, hnothing⟩ : ∃ final, runActions sysStep twoPeersUp brokenSend = some final ∧
      ∃ x, x ∈ (final.send 0).finished ∧ x.accepted ≠ x.msg.wire :=
    ⟨_, rfl, _, List.mem_cons_self, by decide⟩
  exact hnothing ((throughout_final sysStep _ _ _ _ hall hrun 0).complete x hx).2.2

end TcpClb
