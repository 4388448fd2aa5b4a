import TcpClb.ReceiveCalls

/-!
# The buffer that `receive_from_fd` returns

The length of a body is what `atoi` makes of the header. The buffer is valid exactly if the header does
not read as a negative number, and is complete or reads as zero: the bytes that are missing in a header
that has ended early are taken for the first bytes of the body.
-/

namespace TcpClb

open TcpClb.Common

/-- The memory from `calloc(n + 1)`, after the calls for the body. -/
def readBufMemory (results : List RecvResult) (n : ℤ) : List Char :=
  (readBufCalls results).foldl writeAt (List.replicate (n + 1).toNat '\x00')

/-- The result is a buffer of `n + 1` bytes with the `n` bytes of the stream behind a header of four, each
from its own place, and a terminator, and no call was asked to write behind them. -/
structure ValidBuffer (results : List RecvResult) (received : Received) (n : ℤ) : Prop where
  nonneg : 0 ≤ n
  notNull : received.message = some ((readBufMemory results n).take n.toNat)
  size : (readBufMemory results n).length = n.toNat + 1
  content : (readBufMemory results n).take n.toNat = ((delivered results).drop headerSize).take n.toNat
  inPlace : ∀ before call after, readBufCalls results = before ++ call :: after → call.moved ≠ [] →
    (movedBy (lenbufCalls results) ++ movedBy before).length = headerSize + call.offset
  terminated : (readBufMemory results n)[n.toNat]? = some '\x00'
  inBounds : ∀ call ∈ readBufCalls results, call.offset + call.asked ≤ n.toNat

/-- What has been read when `*ret` is set: a header, and a body of the length that it says, unless the
`calloc` of a negative size has failed. -/
theorem receiveFromFd_ret {results rest : List RecvResult} {received : Received} {n : ℤ}
    (hreceive : receiveFromFd results = some (received, rest)) (hret : received.ret = some n) :
    ∃ header middle, readHeader [] results = some (some header, middle) ∧ n = atoi header ∧
      (n + 1 < 0 ∧ received.message = none ∨ 0 ≤ n + 1 ∧ ∃ body, received.message = some body ∧
        readBody n.toNat [] middle = some (some body, rest)) := by
  obtain ⟨⟨header, middle⟩, hheader, _⟩ := Option.bind_eq_some_iff.mp hreceive
  cases header with
  | none =>
    simp only [receiveFromFd, hheader, Option.bind_eq_bind, Option.bind_some] at hreceive
    cases hreceive
    cases hret
  | some header =>
    simp only [receiveFromFd, hheader, Option.bind_eq_bind, Option.bind_some] at hreceive
    by_cases hneg : atoi header + 1 < 0
    · rw [if_pos hneg] at hreceive
      cases hreceive
      obtain rfl := Option.some.inj hret
      exact ⟨header, _, hheader, rfl, Or.inl ⟨hneg, rfl⟩⟩
    · rw [if_neg hneg] at hreceive
      obtain ⟨⟨body, left⟩, hread, hbody⟩ := Option.bind_eq_some_iff.mp hreceive
      cases body with
      | none =>
        cases hbody
        cases hret
      | some body =>
        cases hbody
        obtain rfl := Option.some.inj hret
        exact ⟨header, middle, hheader, rfl, Or.inr ⟨Int.not_lt.mp hneg, body, rfl, hread⟩⟩

/-- The memory of the buffer after the calls: the body and a terminator. -/
theorem readBufMemory_eq {results middle rest : List RecvResult} {header body : List Char}
    (hheader : readHeader [] results = some (some header, middle)) (hnonneg : 0 ≤ atoi header)
    (hbody : readBody (atoi header).toNat [] middle = some (some body, rest)) :
    body.length = (atoi header).toNat ∧ movedBy (readBufCalls results) = body ∧
      Consecutive (atoi header).toNat 0 (readBufCalls results) ∧
      readBufMemory results (atoi header) = body ++ ['\x00'] := by
  obtain ⟨hmoved, _, hlength, hconsecutive⟩ := bodyCalls_readBody (Nat.zero_le _) hbody
  have hcalls : readBufCalls results = bodyCalls (atoi header).toNat 0 middle := by
    rw [readBufCalls, hheader]
  rw [List.nil_append, List.length_nil, ← hcalls] at hmoved
  rw [List.length_nil, ← hcalls] at hconsecutive
  refine ⟨hlength, hmoved, hconsecutive, ?_⟩
  have hsize : (atoi header + 1).toNat = (atoi header).toNat + 1 := by omega
  rw [readBufMemory, hconsecutive.foldl_writeAt _ (Nat.zero_le _) (by rw [List.length_replicate]; omega),
    hmoved, hlength, hsize, List.take_zero, List.nil_append, List.drop_replicate, Nat.zero_add,
    Nat.add_sub_cancel_left]
  rfl

/-- The calls for the header have taken it from the stream, and those for the body what follows. -/
theorem receivedStream {results middle rest : List RecvResult} {header body : List Char}
    (hheader : readHeader [] results = some (some header, middle))
    (hbody : readBody (atoi header).toNat [] middle = some (some body, rest)) :
    movedBy (lenbufCalls results) = header ∧ delivered results = header ++ body ++ delivered rest := by
  obtain ⟨hmoved, hstream, _⟩ := headerCalls_readHeader (show [].length < headerSize by decide) hheader
  obtain ⟨_, hbehind, _⟩ := bodyCalls_readBody (Nat.zero_le _) hbody
  rw [List.nil_append] at hmoved hstream hbehind
  exact ⟨hmoved, by rw [hstream, hbehind, List.append_assoc]⟩

/-- A header that does not read as a negative number makes the buffer valid, if it is complete or reads as
zero. -/
theorem validBuffer_of_header {results middle rest : List RecvResult} {received : Received}
    {header body : List Char} (hheader : readHeader [] results = some (some header, middle))
    (hmessage : received.message = some body)
    (hbody : readBody (atoi header).toNat [] middle = some (some body, rest)) (hnonneg : 0 ≤ atoi header)
    (hcomplete : 0 < atoi header → header.length = headerSize) :
    ValidBuffer results received (atoi header) := by
  obtain ⟨hlength, hmoved, hconsecutive, hmemory⟩ := readBufMemory_eq hheader hnonneg hbody
  obtain ⟨hlenbuf, hstream⟩ := receivedStream hheader hbody
  have htake : (body ++ ['\x00']).take (atoi header).toNat = body := by
    rw [← hlength, List.take_left]
  refine ⟨hnonneg, ?_, ?_, ?_, ?_, ?_, ?_⟩
  · rw [hmemory, htake, hmessage]
  · rw [hmemory, List.length_append, hlength]
    rfl
  · rw [hmemory, htake]
    by_cases hzero : atoi header = 0
    · rw [hzero] at hlength ⊢
      exact List.eq_nil_of_length_eq_zero hlength
    · have hsize := hcomplete (by omega)
      rw [hstream, List.append_assoc, ← hsize, List.drop_left, ← hlength, List.take_left]
  · intro before call after hcalls hsome
    have hpos : 0 < atoi header := by
      by_contra hnot
      have hnothing : body = [] := List.eq_nil_of_length_eq_zero (by omega)
      rw [hnothing, hcalls, movedBy_append, movedBy_cons] at hmoved
      exact hsome (List.append_eq_nil_iff.mp (List.append_eq_nil_iff.mp hmoved).2).1
    rw [hcalls] at hconsecutive
    rw [List.length_append, hlenbuf, hcomplete hpos, hconsecutive.call.1, Nat.zero_add]
  · rw [hmemory, ← hlength, List.getElem?_append_right (Nat.le_refl _), Nat.sub_self]
    rfl
  · exact fun call hcall => (hconsecutive.inBounds call hcall).le

/-- A header that has ended early is not in place, unless it reads as zero. -/
theorem length_of_validBuffer {results middle rest : List RecvResult} {received : Received}
    {header body : List Char} (hheader : readHeader [] results = some (some header, middle))
    (hbody : readBody (atoi header).toNat [] middle = some (some body, rest)) (hpos : 0 < atoi header)
    (hvalid : ValidBuffer results received (atoi header)) : header.length = headerSize := by
  obtain ⟨hlength, hmoved, hconsecutive, _⟩ := readBufMemory_eq hheader (Int.le_of_lt hpos) hbody
  obtain ⟨hlenbuf, _⟩ := receivedStream hheader hbody
  have hsome : ∃ call ∈ readBufCalls results, call.moved ≠ [] := by
    by_contra hnone
    have hnothing : movedBy (readBufCalls results) = [] :=
      List.flatMap_eq_nil_iff.mpr fun call hcall => not_not.mp fun hne => hnone ⟨call, hcall, hne⟩
    rw [hmoved] at hnothing
    rw [hnothing, List.length_nil] at hlength
    omega
  obtain ⟨call, hcall, hne⟩ := hsome
  obtain ⟨before, after, hcalls⟩ := List.append_of_mem hcall
  have hplace := hvalid.inPlace before call after hcalls hne
  rw [hcalls] at hconsecutive
  rw [List.length_append, hlenbuf, hconsecutive.call.1] at hplace
  omega

/-- When `*ret` is set, the buffer is valid exactly if the header is not negative, and is complete unless it
is zero. -/
theorem receiveFromFd_validBuffer_iff (results rest : List RecvResult) (received : Received) (n : ℤ)
    (hreceive : receiveFromFd results = some (received, rest)) (hret : received.ret = some n) :
    ValidBuffer results received n ↔ ∀ header, HeaderText [] results header →
      ¬ ReadsNegative header ∧ (ReadsPositive header → header.length = headerSize) := by
  obtain ⟨header, middle, hheader, rfl, hread⟩ := receiveFromFd_ret hreceive hret
  have hone : (∀ text, HeaderText [] results text →
      ¬ ReadsNegative text ∧ (ReadsPositive text → text.length = headerSize)) ↔
      ¬ atoi header < 0 ∧ (0 < atoi header → header.length = headerSize) := by
    rw [atoi_neg_iff, atoi_pos_iff]
    constructor
    · exact fun hall => hall header ((headerText_iff [] results header (by decide)).mpr ⟨middle, hheader⟩)
    · intro hcond text htext
      obtain ⟨rest', htext⟩ := (headerText_iff [] results text (by decide)).mp htext
      rw [hheader] at htext
      cases htext
      exact hcond
  rw [hone]
  rcases hread with ⟨hneg, hnull⟩ | ⟨_, body, hmessage, hbody⟩
  · refine iff_of_false (fun hvalid => ?_) fun hcond => hcond.1 (by omega)
    have := hvalid.nonneg
    omega
  · constructor
    · exact fun hvalid => ⟨Int.not_lt.mpr hvalid.nonneg, fun hpos => length_of_validBuffer hheader hbody hpos hvalid⟩
    · exact fun hcond => validBuffer_of_header hheader hmessage hbody (Int.not_lt.mp hcond.1) hcond.2

/-- A frame that arrives in two pieces. -/
def pieces : List RecvResult :=
  [.arrived ['0', '0', '0', '3', 'a'] (.other 0), .arrived ['b', 'c'] (.other 0)]

/-- It is received in a valid buffer. -/
theorem pieces_validBuffer : receiveFromFd pieces = some (⟨some ['a', 'b', 'c'], some 3⟩, []) ∧
    ValidBuffer pieces ⟨some ['a', 'b', 'c'], some 3⟩ 3 := by
  have hreceive : receiveFromFd pieces = some (⟨some ['a', 'b', 'c'], some 3⟩, []) := by decide
  refine ⟨hreceive, (receiveFromFd_validBuffer_iff _ _ _ _ hreceive rfl).mpr fun header htext => ?_⟩
  obtain ⟨rest, htext⟩ := (headerText_iff [] pieces header (by decide)).mp htext
  have hread : readHeader [] pieces = some (some ['0', '0', '0', '3'],
      [.arrived ['a'] (.other 0), .arrived ['b', 'c'] (.other 0)]) := by decide
  rw [hread] at htext
  cases htext
  rw [← atoi_neg_iff]
  exact ⟨by decide, fun _ => rfl⟩

/-- A header with a minus sign. -/
def negativeHeader : List RecvResult := [.arrived ['-', '0', '0', '5'] (.other 0)]

/-- The length that is returned with `NULL` is -5. -/
theorem negativeHeader_not_valid : receiveFromFd negativeHeader = some (⟨none, some (-5)⟩, []) ∧
    ¬ ValidBuffer negativeHeader ⟨none, some (-5)⟩ (-5) :=
  ⟨by decide, fun hvalid => absurd hvalid.nonneg (by decide)⟩

end TcpClb
