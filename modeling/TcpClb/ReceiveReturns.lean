import TcpClb.ReceiveCalls

/-!
# When `receive_from_fd` returns

The loop for the header ends with any error that is not worth another call, the loop for the body with
none: it is left when the stream ends or the body is complete. On a socket that is dead the function
returns exactly if one of the two happens.
-/

namespace TcpClb

open TcpClb.Common

/-- The function returns after finitely many of the results. -/
def ReceiveReturns (r : ℕ → RecvResult) : Prop := ∃ n, (receiveFromFd (firstResults r n)).isSome = true

/-- From some point on every call gives 0 or an error that is not worth another call. -/
def DeadSocket (r : ℕ → RecvResult) : Prop :=
  ∃ n, ∀ k, n ≤ k → (∃ errno, r k = .arrived [] errno) ∨ ∃ errno, r k = .failed errno ∧ errno.retry = false

/-- Some result is the end of the stream. -/
def StreamEnds (results : List RecvResult) : Prop := ∃ errno, .arrived [] errno ∈ results

/-- As many bytes arrive behind the header as it says. -/
def BodyArrives (results : List RecvResult) : Prop :=
  ∃ header, HeaderText [] results header ∧ header.length + atoi header ≤ (delivered results).length

/-- If the stream ends, the calls for the header find that out or leave it to those for the body. -/
theorem readHeader_of_streamEnds {lenbuf : List Char} {results : List RecvResult}
    (hlt : lenbuf.length < headerSize) (hends : StreamEnds results) :
    ∃ header rest, readHeader lenbuf results = some (header, rest) ∧ (header = none ∨ StreamEnds rest) := by
  induction results generalizing lenbuf with
  | nil => exact absurd hends.choose_spec List.not_mem_nil
  | cons r results ih =>
    obtain ⟨errno, hmem⟩ := hends
    have hround := readHeader_round lenbuf r results hlt
    generalize headerCalls lenbuf.length (r :: results) = calls at hround
    generalize readHeader lenbuf (r :: results) = read at hround ⊢
    cases hround with
    | streamEnds => exact ⟨none, results, rfl, Or.inl rfl⟩
    | headerEnds _ rest hnotEnd _ _ _ hlater =>
      have hbehind := (List.mem_cons.mp hmem).resolve_left (hnotEnd errno).symm
      exact ⟨_, rest, rfl, Or.inr ⟨errno, (hlater errno).mpr hbehind⟩⟩
    | goesOn _ _ hnotEnd hshort =>
      exact ih hshort ⟨errno, (List.mem_cons.mp hmem).resolve_left (hnotEnd errno).symm⟩

/-- Only if it does. -/
theorem streamEnds_of_readHeader {lenbuf : List Char} {results rest : List RecvResult}
    {header : Option (List Char)} (hlt : lenbuf.length < headerSize)
    (hread : readHeader lenbuf results = some (header, rest)) (hends : header = none ∨ StreamEnds rest) :
    StreamEnds results := by
  induction results generalizing lenbuf with
  | nil => cases hread
  | cons r results ih =>
    have hround := readHeader_round lenbuf r results hlt
    generalize headerCalls lenbuf.length (r :: results) = calls at hround
    generalize readHeader lenbuf (r :: results) = read at hround hread
    cases hround with
    | streamEnds errno => exact ⟨errno, List.mem_cons_self⟩
    | headerEnds _ _ _ _ _ _ hlater =>
      cases hread
      obtain ⟨errno, hmem⟩ := hends.resolve_left nofun
      exact ⟨errno, List.mem_cons_of_mem r ((hlater errno).mp hmem)⟩
    | goesOn _ _ _ hshort =>
      obtain ⟨errno, hmem⟩ := ih hshort hread
      exact ⟨errno, List.mem_cons_of_mem r hmem⟩

/-- A stream ends at its first result or behind it. -/
theorem streamEnds_cons (r : RecvResult) (results : List RecvResult) :
    StreamEnds (r :: results) ↔ (∃ errno, r = .arrived [] errno) ∨ StreamEnds results := by
  simp only [StreamEnds, List.mem_cons, exists_or, eq_comm]

/-- The loop for the body ends exactly if the stream does or enough bytes arrive. -/
theorem readBody_isSome_iff (received : ℕ) (readBuf : List Char) (results : List RecvResult)
    (hle : readBuf.length ≤ received) : (readBody received readBuf results).isSome = true ↔
      StreamEnds results ∨ received ≤ readBuf.length + (delivered results).length := by
  induction results generalizing readBuf with
  | nil =>
    have hnotEnd : ¬ StreamEnds [] := fun h => absurd h.choose_spec List.not_mem_nil
    rw [or_iff_right hnotEnd, readBody, delivered, List.flatMap_nil, List.length_nil, Nat.add_zero]
    split <;> simp <;> omega
  | cons r results ih =>
    by_cases hlt : readBuf.length < received
    · cases r with
      | failed errno =>
        have hcons : StreamEnds (.failed errno :: results) ↔ StreamEnds results := by
          rw [streamEnds_cons, or_iff_right fun h => failed_ne_streamEnd errno _ h.choose_spec]
        rw [readBody, if_pos hlt, hcons]
        exact ih readBuf hle
      | arrived bytes errno =>
        rw [readBody, if_pos hlt]
        by_cases hend : bytes = []
        · rw [if_pos hend]
          exact iff_of_true rfl (Or.inl ⟨errno, by rw [hend]; exact List.mem_cons_self⟩)
        have hcons : StreamEnds (.arrived bytes errno :: results) ↔ StreamEnds results := by
          rw [streamEnds_cons, or_iff_right fun h => hend (RecvResult.arrived.inj h.choose_spec).1]
        have hlength : (delivered (.arrived bytes errno :: results)).length =
            bytes.length + (delivered results).length := List.length_append
        rw [if_neg hend, hcons, hlength, ← Nat.add_assoc]
        by_cases hshort : bytes.length < received - readBuf.length
        · rw [if_pos hshort, ← List.length_append]
          apply ih
          rw [List.length_append]
          omega
        · rw [if_neg hshort]
          exact iff_of_true rfl (Or.inr (by omega))
    · rw [readBody_full received (r :: results) readBuf (by omega)]
      exact iff_of_true rfl (Or.inr (by omega))

/-- Behind the header, the body arrives exactly if as many bytes do. -/
theorem bodyArrives_iff {results middle : List RecvResult} {header : List Char}
    (hread : readHeader [] results = some (some header, middle)) :
    BodyArrives results ↔ atoi header ≤ (delivered middle).length := by
  obtain ⟨_, hstream, _⟩ := headerCalls_readHeader (show [].length < headerSize by decide) hread
  have hlength := congrArg List.length hstream
  rw [List.nil_append, List.length_append] at hlength
  constructor
  · rintro ⟨text, htext, henough⟩
    obtain ⟨rest, htext⟩ := (headerText_iff [] results text (by decide)).mp htext
    rw [hread] at htext
    cases htext
    omega
  · exact fun henough => ⟨header, (headerText_iff [] results header (by decide)).mpr ⟨middle, hread⟩, by omega⟩

/-- With the header read, the function returns exactly if the stream ends later or the body arrives. -/
theorem receiveFromFd_isSome_of_header {results middle : List RecvResult} {header : List Char}
    (hread : readHeader [] results = some (some header, middle)) :
    (receiveFromFd results).isSome = true ↔ StreamEnds middle ∨ BodyArrives results := by
  rw [bodyArrives_iff hread]
  simp only [receiveFromFd, hread, Option.bind_eq_bind, Option.bind_some]
  by_cases hneg : atoi header + 1 < 0
  · rw [if_pos hneg]
    exact iff_of_true rfl (Or.inr (by omega))
  · have henough : atoi header ≤ (delivered middle).length ↔
        (atoi header).toNat ≤ ([] : List Char).length + (delivered middle).length := by
      rw [List.length_nil, Nat.zero_add]
      omega
    rw [if_neg hneg, henough, ← readBody_isSome_iff _ [] middle (Nat.zero_le _)]
    cases readBody (atoi header).toNat [] middle with
    | none => exact Iff.rfl
    | some body =>
      rw [Option.bind_some]
      cases body.1 with
      | none | some => exact iff_of_true rfl rfl

/-- The function returns exactly if the stream ends or the body arrives. -/
theorem receiveFromFd_isSome_iff (results : List RecvResult) :
    (receiveFromFd results).isSome = true ↔ StreamEnds results ∨ BodyArrives results := by
  cases hread : readHeader [] results with
  | none =>
    refine iff_of_false (fun h => ?_) ?_
    · rw [receiveFromFd, hread] at h
      cases h
    · rintro (hends | ⟨header, htext, _⟩)
      · obtain ⟨_, _, h, _⟩ := readHeader_of_streamEnds (show [].length < headerSize by decide) hends
        cases hread.symm.trans h
      · obtain ⟨_, h⟩ := (headerText_iff [] results header (by decide)).mp htext
        cases hread.symm.trans h
  | some read =>
    obtain ⟨header, middle⟩ := read
    cases header with
    | none =>
      refine iff_of_true ?_ (Or.inl (streamEnds_of_readHeader (by decide) hread (Or.inl rfl)))
      rw [receiveFromFd, hread]
      rfl
    | some header =>
      have hlater : StreamEnds middle ↔ StreamEnds results := by
        constructor
        · exact fun hends => streamEnds_of_readHeader (by decide) hread (Or.inr hends)
        · intro hends
          obtain ⟨_, _, h, hlater⟩ := readHeader_of_streamEnds (show [].length < headerSize by decide) hends
          cases hread.symm.trans h
          exact hlater.resolve_left (Option.some_ne_none header)
      rw [receiveFromFd_isSome_of_header hread, hlater]

/-- Whatever `recv` gives, the function returns exactly if some call gives 0 or as many bytes arrive behind
the header as it says. -/
theorem receiveReturns_iff (r : ℕ → RecvResult) : ReceiveReturns r ↔
    (∃ k errno, r k = .arrived [] errno) ∨ ∃ n, BodyArrives (firstResults r n) := by
  have hends : (∃ n, StreamEnds (firstResults r n)) ↔ ∃ k errno, r k = .arrived [] errno := by
    constructor
    · rintro ⟨n, errno, hmem⟩
      obtain ⟨k, _, hk⟩ := List.mem_map.mp hmem
      exact ⟨k, errno, hk⟩
    · rintro ⟨k, errno, hk⟩
      exact ⟨k + 1, errno, List.mem_map.mpr ⟨k, List.mem_range.mpr (Nat.lt_succ_self k), hk⟩⟩
  rw [← hends, ← exists_or]
  exact exists_congr fun n => receiveFromFd_isSome_iff (firstResults r n)

/-- A header for one byte arrives, and then the descriptor is closed. -/
def closedBeforeBody : ℕ → RecvResult
  | 0 => .arrived ['0', '0', '0', '1'] (.other 0)
  | _ => .failed (.other 9)

/-- The socket is dead, and the function does not return. -/
theorem closedBeforeBody_not_returns : DeadSocket closedBeforeBody ∧ ¬ ReceiveReturns closedBeforeBody := by
  refine ⟨⟨1, fun k hk => Or.inr ⟨.other 9, ?_, rfl⟩⟩, fun ⟨n, hreturns⟩ => ?_⟩
  · obtain ⟨j, rfl⟩ := Nat.exists_eq_add_of_le' hk
    rfl
  · cases n with
    | zero => cases hreturns
    | succ n =>
      have hresults : firstResults closedBeforeBody (n + 1) = .arrived ['0', '0', '0', '1'] (.other 0) ::
          (List.range n).map fun _ => .failed (.other 9) := by
        rw [firstResults, List.range_succ_eq_map, List.map_cons, List.map_map]
        rfl
      have hread : readHeader [] (firstResults closedBeforeBody (n + 1)) =
          some (some ['0', '0', '0', '1'], (List.range n).map fun _ => .failed (.other 9)) := by
        rw [hresults]
        rfl
      rcases (receiveFromFd_isSome_of_header hread).mp hreturns with ⟨errno, hmem⟩ | hbody
      · obtain ⟨_, _, hfailed⟩ := List.mem_map.mp hmem
        cases hfailed
      · have hnothing : delivered ((List.range n).map fun _ => .failed (.other 9)) = [] := by
          simp [delivered]
        rw [bodyArrives_iff hread, hnothing] at hbody
        exact absurd hbody (by decide)

end TcpClb
