import TcpClb.Common.PartialTransfers
import TcpClb.SendDelivery

/-!
# The calls of `send_to_fd`

`send_to_fd` as a loop that takes one result of `send` after the other, with what every call offers and
accepts. It offers what is left each time, so the bytes accepted are the beginning of the buffer, and all
of it exactly if the function returns the length.
-/

namespace TcpClb

open TcpClb.Common

/-- The loop of `send_to_fd`: its `total_sent`, the calls of `send` so far, and the value returned, if it
is over. -/
structure SendLoop where
  totalSent : ℕ
  calls : List (Chunk Char)
  ret : Option ℤ

/-- The test `total_sent < len` of the loop. -/
def SendLoop.test (len : ℕ) (s : SendLoop) : SendLoop :=
  { s with ret := if s.totalSent < len then none else some s.totalSent }

/-- The call of `send` that is due, with what it accepts if it has the given result. -/
def SendLoop.call (buf : List Char) (len : ℕ) (s : SendLoop) (r : SendResult) : Chunk Char where
  offset := s.totalSent
  asked := len - s.totalSent
  moved := r.accepted ((buf.drop s.totalSent).take (len - s.totalSent))

/-- One round of the loop, if it is not over. -/
def sendRound (buf : List Char) (len : ℕ) (s : SendLoop) (r : SendResult) : SendLoop :=
  match s.ret with
  | some _ => s
  | none =>
    let called : SendLoop := { s with calls := s.calls ++ [s.call buf len r] }
    match r with
    | .failed errno => if errno.wouldBlock then called.test len else { called with ret := some (-1) }
    | .sent count =>
      if count = 0 then { called with ret := some (-1) }
      else { called with totalSent := called.totalSent + count }.test len

/-- `send_to_fd`, as far as it gets with the given results of `send`. -/
def sendRounds (buf : List Char) (len : ℕ) (results : List SendResult) : SendLoop :=
  results.foldl (sendRound buf len) (SendLoop.test len ⟨0, [], none⟩)

/-- What holds in every round: the calls are consecutive and read from the buffer, `total_sent` counts
what they have accepted, and the loop ends when this is all or a call has failed. -/
structure SendLoop.Valid (buf : List Char) (len : ℕ) (r : ℕ → SendResult) (n : ℕ) (s : SendLoop) : Prop where
  consecutive : Consecutive len 0 s.calls
  read : ∀ call ∈ s.calls, call.moved <+: (buf.take len).drop call.offset
  counted : (movedBy s.calls).length = s.totalSent
  goesOn : s.ret = none → s.totalSent < len ∧ s.calls.length = n
  ends : ∀ v, s.ret = some v → v = len ∧ s.totalSent = len ∨
    v = -1 ∧ s.totalSent < len ∧ ∃ k, s.calls.length = k + 1 ∧ ¬ (r k).Harmless

/-- After its test the loop goes on or has sent everything. -/
theorem SendLoop.valid_test {buf : List Char} {len n : ℕ} {r : ℕ → SendResult} {s : SendLoop}
    (hconsecutive : Consecutive len 0 s.calls)
    (hread : ∀ call ∈ s.calls, call.moved <+: (buf.take len).drop call.offset)
    (hcounted : (movedBy s.calls).length = s.totalSent) (hle : s.totalSent ≤ len)
    (hlength : s.calls.length = n) : (s.test len).Valid buf len r n := by
  unfold SendLoop.test
  by_cases hlt : s.totalSent < len
  · rw [if_pos hlt]
    exact ⟨hconsecutive, hread, hcounted, fun _ => ⟨hlt, hlength⟩, nofun⟩
  · rw [if_neg hlt]
    have hall : s.totalSent = len := by omega
    refine ⟨hconsecutive, hread, hcounted, nofun, fun v hv => Or.inl ⟨?_, hall⟩⟩
    rw [← Option.some.inj hv, hall]

/-- The calls after one more round. -/
theorem SendLoop.Valid.call {buf : List Char} {len n : ℕ} {r : ℕ → SendResult} {s : SendLoop}
    (h : s.Valid buf len r n) (hret : s.ret = none) (result : SendResult) :
    Consecutive len 0 (s.calls ++ [s.call buf len result]) ∧
      ∀ call ∈ s.calls ++ [s.call buf len result], call.moved <+: (buf.take len).drop call.offset := by
  have hlt := (h.goesOn hret).1
  have haccepted : (s.call buf len result).moved <+: (buf.drop s.totalSent).take (len - s.totalSent) := by
    cases result with
    | sent count => exact List.take_prefix _ _
    | failed errno => exact List.nil_prefix
  constructor
  · refine h.consecutive.concat ?_ (Nat.add_sub_of_le (Nat.le_of_lt hlt)) ?_
    · rw [h.counted, Nat.zero_add]
      rfl
    · exact haccepted.length_le.trans (List.length_take_le _ _)
  · intro call hcall
    rcases List.mem_append.mp hcall with hcall | hcall
    · exact h.read call hcall
    · rw [List.mem_singleton.mp hcall, List.drop_take]
      exact haccepted

/-- A round that gets a result keeps this. -/
theorem SendLoop.Valid.round {buf : List Char} {len n : ℕ} {r : ℕ → SendResult} {s : SendLoop}
    (hbuf : len ≤ buf.length) (h : s.Valid buf len r n)
    (hfit : ∀ count, s.ret = none → r n = .sent count → count ≤ len - s.totalSent) :
    (sendRound buf len s (r n)).Valid buf len r (n + 1) := by
  cases hret : s.ret with
  | some v =>
    have hround : sendRound buf len s (r n) = s := by simp only [sendRound, hret]
    rw [hround]
    exact ⟨h.consecutive, h.read, h.counted, fun hnone => absurd (hret.symm.trans hnone) nofun, h.ends⟩
  | none =>
    obtain ⟨hlt, hlength⟩ := h.goesOn hret
    obtain ⟨hconsecutive, hread⟩ := h.call hret (r n)
    have hcalls : (s.calls ++ [s.call buf len (r n)]).length = n + 1 := by
      rw [List.length_append, hlength]
      rfl
    have hmoved : movedBy (s.calls ++ [s.call buf len (r n)]) = movedBy s.calls ++ (s.call buf len (r n)).moved := by
      rw [movedBy_append, movedBy_cons, movedBy_nil, List.append_nil]
    -- a call that ends the loop has accepted nothing
    have hfails (hnothing : (s.call buf len (r n)).moved = []) (hnot : ¬ (r n).Harmless) :
        SendLoop.Valid buf len r (n + 1) ⟨s.totalSent, s.calls ++ [s.call buf len (r n)], some (-1)⟩ := by
      refine ⟨hconsecutive, hread, ?_, nofun, fun v hv => ?_⟩
      · rw [hmoved, hnothing, List.append_nil]
        exact h.counted
      · exact Or.inr ⟨(Option.some.inj hv).symm, hlt, n, hcalls, hnot⟩
    cases hr : r n with
    | failed errno =>
      rw [hr] at hconsecutive hread hcalls hmoved hfails
      have hnothing : (s.call buf len (.failed errno)).moved = [] := rfl
      by_cases hblock : errno.wouldBlock = true
      · simp only [sendRound, hret, if_pos hblock]
        refine SendLoop.valid_test hconsecutive hread ?_ (Nat.le_of_lt hlt) hcalls
        rw [hmoved, hnothing, List.append_nil]
        exact h.counted
      · simp only [sendRound, hret, if_neg hblock]
        exact hfails hnothing hblock
    | sent count =>
      have hcount := hfit count hret hr
      rw [hr] at hconsecutive hread hcalls hmoved hfails
      by_cases hzero : count = 0
      · simp only [sendRound, hret, if_pos hzero]
        subst hzero
        exact hfails rfl fun hne => hne rfl
      · simp only [sendRound, hret, if_neg hzero]
        have hsent : (movedBy (s.calls ++ [s.call buf len (.sent count)])).length = s.totalSent + count := by
          have htake : (s.call buf len (.sent count)).moved.length = count := by
            change (((buf.drop s.totalSent).take (len - s.totalSent)).take count).length = count
            rw [List.length_take, List.length_take, List.length_drop]
            omega
          rw [hmoved, List.length_append, h.counted, htake]
        exact SendLoop.valid_test hconsecutive hread hsent (by change s.totalSent + count ≤ len; omega) hcalls

/-- Rounds after the end change nothing. -/
theorem foldl_sendRound_of_ret {buf : List Char} {len : ℕ} {s : SendLoop} {v : ℤ} (hret : s.ret = some v)
    (results : List SendResult) : results.foldl (sendRound buf len) s = s := by
  induction results with
  | nil => rfl
  | cons r results ih =>
    have hround : sendRound buf len s r = s := by simp only [sendRound, hret]
    rw [List.foldl_cons, hround, ih]

/-- A round in which `send_to_fd` returns -1. -/
theorem sendRound_of_fails {buf rest : List Char} {len : ℕ} {s : SendLoop} (hlt : s.totalSent < len)
    {r : SendResult} (hfails : sendOnce rest r = none) : sendRound buf len (s.test len) r =
      ⟨s.totalSent, s.calls ++ [s.call buf len r], some (-1)⟩ := by
  rw [SendLoop.test, if_pos hlt]
  cases r with
  | failed errno =>
    have hblock : ¬ errno.wouldBlock = true := (sendOnce_eq_none hfails).1
    simp only [sendRound, if_neg hblock]
    rfl
  | sent count =>
    have hzero : count = 0 := not_not.mp (sendOnce_eq_none hfails).1
    simp only [sendRound, if_pos hzero]
    rfl

/-- A round in which it goes on with what is left. -/
theorem sendRound_of_goesOn {buf rest left : List Char} {len : ℕ} {s : SendLoop} (hlt : s.totalSent < len)
    (hrest : rest = (buf.take len).drop s.totalSent) {r : SendResult} (hgoes : sendOnce rest r = some left) :
    ∃ sent, sendRound buf len (s.test len) r =
      SendLoop.test len ⟨sent, s.calls ++ [s.call buf len r], none⟩ ∧ left = (buf.take len).drop sent := by
  rw [SendLoop.test, if_pos hlt]
  cases r with
  | failed errno =>
    obtain ⟨hblock, hleft⟩ := Option.ite_none_right_eq_some.mp hgoes
    simp only [sendRound, if_pos hblock]
    exact ⟨s.totalSent, rfl, by rw [← hrest, Option.some.inj hleft]⟩
  | sent count =>
    obtain ⟨hzero, hleft⟩ := Option.ite_none_left_eq_some.mp hgoes
    simp only [sendRound, if_neg hzero]
    exact ⟨s.totalSent + count, rfl, by rw [← Option.some.inj hleft, hrest, List.drop_drop]⟩

/-- If nothing is left to send, the loop is over. -/
theorem sendLoop_nil_rounds {buf bytes : List Char} {len : ℕ} {s s' : SendLoop}
    {results left : List SendResult} {failed : Bool} (hlt : ¬ s.totalSent < len)
    (hloop : sendLoop [] results = some (bytes, failed, left))
    (hrounds : results.foldl (sendRound buf len) (s.test len) = s') :
    movedBy s'.calls = movedBy s.calls ++ bytes ∧ s'.ret ≠ none ∧ (s'.ret = some (-1) ↔ failed = true) := by
  have hends : sendLoop [] results = some ([], false, results) := by
    cases results <;> rfl
  rw [hends] at hloop
  cases hloop
  rw [SendLoop.test, if_neg hlt, foldl_sendRound_of_ret rfl] at hrounds
  subst hrounds
  refine ⟨(List.append_nil _).symm, nofun, iff_of_false (fun h => ?_) Bool.false_ne_true⟩
  have := Option.some.inj h
  omega

/-- The loop on what is left to send goes through the rounds. -/
theorem sendLoop_rounds {buf : List Char} {len : ℕ} (hbuf : len ≤ buf.length) {s s' : SendLoop}
    {rest bytes : List Char} {results left : List SendResult} {failed : Bool}
    (hloop : sendLoop rest results = some (bytes, failed, left))
    (hrest : rest = (buf.take len).drop s.totalSent)
    (hrounds : results.foldl (sendRound buf len) (s.test len) = s') :
    movedBy s'.calls = movedBy s.calls ++ bytes ∧ s'.ret ≠ none ∧ (s'.ret = some (-1) ↔ failed = true) := by
  have hempty : rest = [] ↔ ¬ s.totalSent < len := by
    rw [hrest, List.drop_eq_nil_iff, List.length_take_of_le hbuf, Nat.not_lt]
  induction results generalizing s rest bytes with
  | nil =>
    cases rest with
    | nil => exact sendLoop_nil_rounds (hempty.mp rfl) hloop hrounds
    | cons b rest => cases hloop
  | cons r results ih =>
    cases rest with
    | nil => exact sendLoop_nil_rounds (hempty.mp rfl) hloop hrounds
    | cons b rest =>
      have hlt : s.totalSent < len := not_not.mp fun hnot => List.cons_ne_nil b rest (hempty.mpr hnot)
      have hmoved : (s.call buf len r).moved = r.accepted (b :: rest) := by
        rw [hrest, List.drop_take]
        rfl
      rw [List.foldl_cons] at hrounds
      cases honce : sendOnce (b :: rest) r with
      | none =>
        rw [sendLoop, honce] at hloop
        cases hloop
        rw [sendRound_of_fails hlt honce, foldl_sendRound_of_ret rfl] at hrounds
        subst hrounds
        refine ⟨?_, nofun, iff_of_true rfl rfl⟩
        rw [movedBy_append, movedBy_cons, hmoved, (sendOnce_eq_none honce).2]
        rfl
      | some left =>
        rw [sendLoop, honce] at hloop
        obtain ⟨⟨more, failed', left'⟩, hmore, hbytes⟩ := Option.map_eq_some_iff.mp hloop
        cases hbytes
        obtain ⟨sent, hround, hleft⟩ := sendRound_of_goesOn hlt hrest honce
        rw [hround] at hrounds
        obtain ⟨hcalls, hret, hfailed⟩ := ih hmore hleft hrounds
          (by rw [hleft, List.drop_eq_nil_iff, List.length_take_of_le hbuf, Nat.not_lt])
        refine ⟨?_, hret, hfailed⟩
        rw [hcalls, movedBy_append, movedBy_cons, movedBy_nil, List.append_nil, hmoved, List.append_assoc]

/-- `send_to_fd` accepts and returns what the rounds do. -/
theorem sendToFd_rounds {buf bytes : List Char} {len : ℕ} {results left : List SendResult} {failed : Bool}
    (h : sendToFd buf len results = some (bytes, failed, left)) :
    movedBy (sendRounds buf len results).calls = bytes ∧ (sendRounds buf len results).ret ≠ none ∧
      ((sendRounds buf len results).ret = some (-1) ↔ failed = true) := by
  obtain ⟨hbuf, hloop⟩ := Option.ite_none_right_eq_some.mp h
  rw [Int.toNat_natCast] at hloop
  have hbuf : len ≤ buf.length := by omega
  exact sendLoop_rounds hbuf hloop (List.drop_zero ..).symm rfl

end TcpClb
