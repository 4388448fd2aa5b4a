import TcpClb.Common.PartialTransfers
import TcpClb.Fragmentation

/-!
# The calls of `receive_from_fd`

What every call of `recv` is asked to write, where, and what it writes. The calls for the header fill
`lenbuf` and those for the body the buffer that was allocated for it, each behind the one before. What the
code takes for the header is described on the results of the calls alone: it ends early where a call is
not repeated.
-/

namespace TcpClb

open TcpClb.Common

/-- What a call writes that is asked for so many bytes. -/
def RecvResult.taken (asked : ℕ) : RecvResult → List Char
  | .arrived bytes _ => bytes.take asked
  | .failed _ => []

/-- A call for the header that bytes are missing after is repeated if it has such a result. -/
def RecvResult.repeats : RecvResult → Bool
  | .arrived bytes errno => bytes ≠ [] && errno.retry
  | .failed errno => errno.retry

/-- The calls that fill `lenbuf`, when `total_read` bytes are there already. -/
def headerCalls (totalRead : ℕ) : List RecvResult → List (Chunk Char)
  | [] => []
  | r :: results =>
    let taken := r.taken (headerSize - totalRead)
    ⟨totalRead, headerSize - totalRead, taken⟩ ::
      if totalRead + taken.length < headerSize ∧ r.repeats = true then
        headerCalls (totalRead + taken.length) results
      else []

/-- The calls that fill `read_buf`, when `read_bytes` bytes are there already. -/
def bodyCalls (received readBytes : ℕ) : List RecvResult → List (Chunk Char)
  | [] => []
  | r :: results =>
    if readBytes < received then
      let taken := r.taken (received - readBytes)
      ⟨readBytes, received - readBytes, taken⟩ ::
        match r with
        | .arrived [] _ => []
        | _ => bodyCalls received (readBytes + taken.length) results
    else []

/-- The calls of `receive_from_fd` for the header. -/
def lenbufCalls (results : List RecvResult) : List (Chunk Char) := headerCalls 0 results

/-- Its calls for the body, whose length is in the header. -/
def readBufCalls (results : List RecvResult) : List (Chunk Char) :=
  match readHeader [] results with
  | some (some lenbuf, middle) => bodyCalls (atoi lenbuf).toNat 0 middle
  | _ => []

/-- What is taken for the header, when the bytes of `lenbuf` are there already: what arrives up to a result
that completes it or after which the call is not repeated, and which is not the end of the stream. -/
def HeaderText (lenbuf : List Char) (results : List RecvResult) (header : List Char) : Prop :=
  ∃ front last rest, results = front ++ last :: rest ∧ (∀ r ∈ front, r.repeats = true) ∧
    (lenbuf ++ delivered front).length < headerSize ∧ (∀ errno, last ≠ .arrived [] errno) ∧
    (headerSize ≤ (lenbuf ++ delivered (front ++ [last])).length ∨ last.repeats = false) ∧
    header = (lenbuf ++ delivered (front ++ [last])).take headerSize

/-- What one call for the header leads to, when the bytes of `lenbuf` are there already: the end of the
stream, the end of the header, or another call. -/
inductive HeaderRound (lenbuf : List Char) (results : List RecvResult) :
    RecvResult → List (Chunk Char) → Option (Option (List Char) × List RecvResult) → Prop
  | streamEnds (errno : Errno) (calls : List (Chunk Char)) :
      HeaderRound lenbuf results (.arrived [] errno) calls (some (none, results))
  | headerEnds (r : RecvResult) (rest : List RecvResult) (hnotEnd : ∀ errno, r ≠ .arrived [] errno)
      (hends : headerSize ≤ (lenbuf ++ delivered [r]).length ∨ r.repeats = false)
      (htaken : lenbuf ++ r.taken (headerSize - lenbuf.length) = (lenbuf ++ delivered [r]).take headerSize)
      (hrest : delivered (r :: results) = r.taken (headerSize - lenbuf.length) ++ delivered rest)
      (hlater : ∀ errno, .arrived [] errno ∈ rest ↔ .arrived [] errno ∈ results) :
      HeaderRound lenbuf results r
        [⟨lenbuf.length, headerSize - lenbuf.length, r.taken (headerSize - lenbuf.length)⟩]
        (some (some ((lenbuf ++ delivered [r]).take headerSize), rest))
  | goesOn (r : RecvResult) (hrepeats : r.repeats = true) (hnotEnd : ∀ errno, r ≠ .arrived [] errno)
      (hshort : (lenbuf ++ delivered [r]).length < headerSize)
      (htaken : r.taken (headerSize - lenbuf.length) = delivered [r]) :
      HeaderRound lenbuf results r
        (⟨lenbuf.length, headerSize - lenbuf.length, delivered [r]⟩ ::
          headerCalls (lenbuf ++ delivered [r]).length results)
        (readHeader (lenbuf ++ delivered [r]) results)

/-- A failed call is not the end of the stream. -/
theorem failed_ne_streamEnd (errno errno' : Errno) : RecvResult.failed errno ≠ .arrived [] errno' := by
  intro h
  cases h

/-- What is left over is delivered. -/
theorem delivered_leaveOver (bytes : List Char) (errno : Errno) (results : List RecvResult) :
    delivered (leaveOver bytes errno results) = bytes ++ delivered results := by
  unfold leaveOver
  split
  · next h => rw [h, List.nil_append]
  · rfl

/-- It is not the end of the stream. -/
theorem streamEnd_mem_leaveOver (bytes : List Char) (errno errno' : Errno) (results : List RecvResult) :
    .arrived [] errno ∈ leaveOver bytes errno' results ↔ .arrived [] errno ∈ results := by
  unfold leaveOver
  split
  · exact Iff.rfl
  · next hne =>
    rw [List.mem_cons]
    exact or_iff_right fun h => hne (RecvResult.arrived.inj h).1.symm

/-- The last call for the header. -/
theorem headerCalls_ends {totalRead : ℕ} {r : RecvResult} (results : List RecvResult)
    (hends : headerSize ≤ totalRead + (r.taken (headerSize - totalRead)).length ∨ r.repeats = false) :
    headerCalls totalRead (r :: results) =
      [⟨totalRead, headerSize - totalRead, r.taken (headerSize - totalRead)⟩] := by
  rw [headerCalls, if_neg]
  rintro ⟨hlt, hrepeats⟩
  rcases hends with hall | hnot
  · omega
  · exact Bool.false_ne_true (hnot.symm.trans hrepeats)

/-- A call for the header that is repeated. -/
theorem headerCalls_goesOn {totalRead : ℕ} {r : RecvResult} (results : List RecvResult)
    (hlt : totalRead + (r.taken (headerSize - totalRead)).length < headerSize) (hrepeats : r.repeats = true) :
    headerCalls totalRead (r :: results) =
      ⟨totalRead, headerSize - totalRead, r.taken (headerSize - totalRead)⟩ ::
        headerCalls (totalRead + (r.taken (headerSize - totalRead)).length) results := by
  rw [headerCalls, if_pos ⟨hlt, hrepeats⟩]

/-- A call for the header that bytes have arrived for. -/
theorem readHeader_arrived (lenbuf bytes : List Char) (errno : Errno) (results : List RecvResult)
    (hlt : lenbuf.length < headerSize) (hne : bytes ≠ []) :
    readHeader lenbuf (.arrived bytes errno :: results) =
      if headerSize ≤ lenbuf.length + bytes.length then
        some (some ((lenbuf ++ bytes).take headerSize),
          leaveOver (bytes.drop (headerSize - lenbuf.length)) errno results)
      else if errno.retry then readHeader (lenbuf ++ bytes) results
      else some (some (lenbuf ++ bytes), results) := by
  rw [readHeader, if_neg hne]
  simp only [List.length_take]
  by_cases hall : headerSize ≤ lenbuf.length + bytes.length
  · rw [if_pos hall, if_pos (by omega), List.take_append, List.take_of_length_le (Nat.le_of_lt hlt)]
  · rw [if_neg hall, if_neg (by omega), List.take_of_length_le (by omega)]

/-- A failed call for the header. -/
theorem readHeader_failed_round (lenbuf : List Char) (errno : Errno) (results : List RecvResult)
    (hlt : lenbuf.length < headerSize) : HeaderRound lenbuf results (.failed errno)
      (headerCalls lenbuf.length (.failed errno :: results)) (readHeader lenbuf (.failed errno :: results)) := by
  have hnothing : lenbuf ++ delivered [.failed errno] = lenbuf := List.append_nil lenbuf
  rw [readHeader]
  by_cases hretry : errno.retry = true
  · have hrepeats : (RecvResult.failed errno).repeats = true := hretry
    have hround := @HeaderRound.goesOn lenbuf results _ hrepeats (failed_ne_streamEnd errno)
      (by rwa [hnothing]) rfl
    rw [hnothing] at hround
    rw [headerCalls_goesOn results (by exact hlt) hrepeats, if_pos hretry]
    exact hround
  · have hstops : (RecvResult.failed errno).repeats = false := Bool.eq_false_iff.mpr hretry
    have htake : (lenbuf ++ delivered [.failed errno]).take headerSize = lenbuf := by
      rw [hnothing, List.take_of_length_le (Nat.le_of_lt hlt)]
    have hround := HeaderRound.headerEnds (.failed errno) results (failed_ne_streamEnd errno)
      (Or.inr hstops) ((List.append_nil lenbuf).trans htake.symm) rfl fun _ => Iff.rfl
    rw [htake] at hround
    rw [headerCalls_ends results (Or.inr hstops), if_neg hretry]
    exact hround

/-- A call for the header that bytes have arrived for. -/
theorem readHeader_arrived_round (lenbuf bytes : List Char) (errno : Errno) (results : List RecvResult)
    (hlt : lenbuf.length < headerSize) (hne : bytes ≠ []) : HeaderRound lenbuf results (.arrived bytes errno)
      (headerCalls lenbuf.length (.arrived bytes errno :: results))
      (readHeader lenbuf (.arrived bytes errno :: results)) := by
  have hbytes : delivered [.arrived bytes errno] = bytes := List.append_nil bytes
  have hnotEnd (errno' : Errno) : RecvResult.arrived bytes errno ≠ .arrived [] errno' :=
    fun h => hne (RecvResult.arrived.inj h).1
  rw [readHeader_arrived lenbuf bytes errno results hlt hne]
  by_cases hall : headerSize ≤ lenbuf.length + bytes.length
  · have htaken : ((RecvResult.arrived bytes errno).taken (headerSize - lenbuf.length)).length =
        headerSize - lenbuf.length := by
      change (bytes.take _).length = _
      rw [List.length_take]
      omega
    have hround := @HeaderRound.headerEnds lenbuf results (.arrived bytes errno)
      (leaveOver (bytes.drop (headerSize - lenbuf.length)) errno results) hnotEnd
      (Or.inl (by rwa [hbytes, List.length_append]))
      (by rw [hbytes, List.take_append, List.take_of_length_le (Nat.le_of_lt hlt)]; rfl)
      (by rw [delivered_leaveOver, ← List.append_assoc, RecvResult.taken, List.take_append_drop]; rfl)
      fun errno' => streamEnd_mem_leaveOver _ errno' _ _
    rw [hbytes] at hround
    rw [headerCalls_ends results (Or.inl (by omega)), if_pos hall]
    exact hround
  · have hwhole : (RecvResult.arrived bytes errno).taken (headerSize - lenbuf.length) = bytes :=
      List.take_of_length_le (by omega)
    have hshort : (lenbuf ++ delivered [.arrived bytes errno]).length < headerSize := by
      rw [hbytes, List.length_append]
      omega
    rw [if_neg hall]
    by_cases hretry : errno.retry = true
    · have hrepeats : (RecvResult.arrived bytes errno).repeats = true := by
        simp [RecvResult.repeats, hne, hretry]
      have hround := @HeaderRound.goesOn lenbuf results _ hrepeats hnotEnd hshort (hwhole.trans hbytes.symm)
      rw [hbytes, List.length_append] at hround
      rw [headerCalls_goesOn results (by rw [hwhole]; omega) hrepeats, hwhole, if_pos hretry]
      exact hround
    · have hstops : (RecvResult.arrived bytes errno).repeats = false := by
        simp [RecvResult.repeats, hretry]
      have htake : (lenbuf ++ delivered [.arrived bytes errno]).take headerSize = lenbuf ++ bytes := by
        rw [List.take_of_length_le (Nat.le_of_lt hshort), hbytes]
      have hround := HeaderRound.headerEnds (.arrived bytes errno) results hnotEnd (Or.inr hstops)
        (by rw [hwhole, htake]) (by rw [hwhole]; rfl) fun _ => Iff.rfl
      rw [htake] at hround
      rw [headerCalls_ends results (Or.inr hstops), if_neg hretry]
      exact hround

/-- Every call for the header leads to one of these. -/
theorem readHeader_round (lenbuf : List Char) (r : RecvResult) (results : List RecvResult)
    (hlt : lenbuf.length < headerSize) : HeaderRound lenbuf results r
      (headerCalls lenbuf.length (r :: results)) (readHeader lenbuf (r :: results)) := by
  cases r with
  | failed errno => exact readHeader_failed_round lenbuf errno results hlt
  | arrived bytes errno =>
    by_cases hend : bytes = []
    · subst hend
      exact .streamEnds errno _
    · exact readHeader_arrived_round lenbuf bytes errno results hlt hend

/-- The header ends with the first result or goes on behind it. -/
theorem headerText_cons (lenbuf : List Char) (r : RecvResult) (results : List RecvResult)
    (header : List Char) (hlt : lenbuf.length < headerSize) : HeaderText lenbuf (r :: results) header ↔
      ((∀ errno, r ≠ .arrived [] errno) ∧
        (headerSize ≤ (lenbuf ++ delivered [r]).length ∨ r.repeats = false) ∧
        header = (lenbuf ++ delivered [r]).take headerSize) ∨
      (r.repeats = true ∧ (lenbuf ++ delivered [r]).length < headerSize ∧
        HeaderText (lenbuf ++ delivered [r]) results header) := by
  constructor
  · rintro ⟨front, last, rest, hresults, hfront, hshort, hnotEnd, hends, rfl⟩
    cases front with
    | nil =>
      obtain ⟨rfl, rfl⟩ := List.cons.inj hresults
      exact Or.inl ⟨hnotEnd, hends, rfl⟩
    | cons first front =>
      obtain ⟨rfl, rfl⟩ := List.cons.inj hresults
      obtain ⟨hrepeats, hothers⟩ := List.forall_mem_cons.mp hfront
      rw [delivered_cons r front, ← List.append_assoc] at hshort
      rw [List.cons_append, delivered_cons r (front ++ [last]), ← List.append_assoc] at hends ⊢
      refine Or.inr ⟨hrepeats, ?_, front, last, rest, rfl, hothers, hshort, hnotEnd, hends, rfl⟩
      rw [List.length_append] at hshort
      omega
  · rintro (⟨hnotEnd, hends, rfl⟩ | ⟨hrepeats, hshort, front, last, rest, rfl, hfront, hmore, hnotEnd, hends, rfl⟩)
    · refine ⟨[], r, results, rfl, fun _ h => absurd h List.not_mem_nil, ?_, hnotEnd, hends, rfl⟩
      rwa [show delivered [] = [] from rfl, List.append_nil]
    · refine ⟨r :: front, last, rest, rfl, List.forall_mem_cons.mpr ⟨hrepeats, hfront⟩, ?_, hnotEnd, ?_, ?_⟩
      · rwa [delivered_cons r front, ← List.append_assoc]
      · rwa [List.cons_append, delivered_cons r (front ++ [last]), ← List.append_assoc]
      · rw [List.cons_append, delivered_cons r (front ++ [last]), ← List.append_assoc]

/-- What the code takes for the header. -/
theorem headerText_iff (lenbuf : List Char) (results : List RecvResult) (header : List Char)
    (hlt : lenbuf.length < headerSize) :
    HeaderText lenbuf results header ↔ ∃ rest, readHeader lenbuf results = some (some header, rest) := by
  induction results generalizing lenbuf with
  | nil =>
    refine iff_of_false ?_ (fun ⟨_, h⟩ => nomatch h)
    rintro ⟨front, last, rest, hresults, _⟩
    exact List.cons_ne_nil _ _ (List.append_eq_nil_iff.mp hresults.symm).2
  | cons r results ih =>
    rw [headerText_cons lenbuf r results header hlt]
    have hround := readHeader_round lenbuf r results hlt
    generalize headerCalls lenbuf.length (r :: results) = calls at hround
    generalize readHeader lenbuf (r :: results) = read at hround ⊢
    cases hround with
    | streamEnds errno =>
      refine iff_of_false ?_ (fun ⟨_, h⟩ => nomatch h)
      rintro (⟨hnotEnd, _⟩ | ⟨hrepeats, _⟩)
      · exact hnotEnd errno rfl
      · cases hrepeats
    | headerEnds _ rest hnotEnd hends =>
      constructor
      · rintro (⟨_, _, rfl⟩ | ⟨hrepeats, hshort, _⟩)
        · exact ⟨rest, rfl⟩
        · rcases hends with hall | hstops
          · exact absurd hall (Nat.not_le.mpr hshort)
          · exact absurd (hstops.symm.trans hrepeats) Bool.false_ne_true
      · rintro ⟨rest', hrest⟩
        obtain ⟨hheader, _⟩ := Prod.mk.inj (Option.some.inj hrest)
        exact Or.inl ⟨hnotEnd, hends, (Option.some.inj hheader).symm⟩
    | goesOn _ hrepeats _ hshort =>
      rw [← ih _ hshort]
      constructor
      · rintro (⟨_, hends, _⟩ | ⟨_, _, hrest⟩)
        · rcases hends with hall | hstops
          · exact absurd hall (Nat.not_le.mpr hshort)
          · exact absurd (hstops.symm.trans hrepeats) Bool.false_ne_true
        · exact hrest
      · exact fun hrest => Or.inr ⟨hrepeats, hshort, hrest⟩

/-- The calls for the header write it one behind the other, and leave the stream behind it. -/
theorem headerCalls_readHeader {lenbuf header : List Char} {results rest : List RecvResult}
    (hlt : lenbuf.length < headerSize) (hread : readHeader lenbuf results = some (some header, rest)) :
    lenbuf ++ movedBy (headerCalls lenbuf.length results) = header ∧
      lenbuf ++ delivered results = header ++ delivered rest ∧
      Consecutive headerSize lenbuf.length (headerCalls lenbuf.length results) := by
  induction results generalizing lenbuf with
  | nil => cases hread
  | cons r results ih =>
    have hround := readHeader_round lenbuf r results hlt
    generalize headerCalls lenbuf.length (r :: results) = calls at hround ⊢
    generalize readHeader lenbuf (r :: results) = read at hround hread
    cases hround with
    | streamEnds => cases hread
    | headerEnds _ _ hnotEnd hends htaken hrest =>
      cases hread
      have hfits : (r.taken (headerSize - lenbuf.length)).length ≤ headerSize - lenbuf.length := by
        cases r with
        | arrived bytes errno => exact List.length_take_le _ _
        | failed errno => exact Nat.zero_le _
      refine ⟨?_, ?_, rfl, Nat.add_sub_of_le (Nat.le_of_lt hlt), hfits, trivial⟩
      · rw [← htaken, movedBy_cons, movedBy_nil, List.append_nil]
      · rw [← htaken, hrest, List.append_assoc]
    | goesOn _ hrepeats _ hshort =>
      obtain ⟨hheader, hstream, hconsecutive⟩ := ih hshort hread
      rw [List.append_assoc] at hheader hstream
      rw [List.length_append] at hconsecutive hshort
      refine ⟨?_, by rwa [delivered_cons], rfl, Nat.add_sub_of_le (Nat.le_of_lt hlt), ?_, ?_⟩
      · rwa [movedBy_cons]
      · change (delivered [r]).length ≤ headerSize - lenbuf.length
        omega
      · rwa [List.length_append]

/-- A buffer that is full takes no more calls. -/
theorem bodyCalls_full (received : ℕ) (results : List RecvResult) : bodyCalls received received results = [] := by
  cases results with
  | nil => rfl
  | cons r results => rw [bodyCalls, if_neg (Nat.lt_irrefl received)]

/-- A call for the body behind which the loop goes on. -/
theorem bodyCalls_cons {received readBytes : ℕ} (r : RecvResult) (results : List RecvResult)
    (hlt : readBytes < received) (hnotEnd : ∀ errno, r ≠ .arrived [] errno) :
    bodyCalls received readBytes (r :: results) =
      ⟨readBytes, received - readBytes, r.taken (received - readBytes)⟩ ::
        bodyCalls received (readBytes + (r.taken (received - readBytes)).length) results := by
  rw [bodyCalls, if_pos hlt]
  split
  · next errno => exact absurd rfl (hnotEnd errno)
  · rfl

/-- The calls for the body write it one behind the other, and leave the stream behind it. -/
theorem bodyCalls_readBody {received : ℕ} {readBuf body : List Char} {results rest : List RecvResult}
    (hle : readBuf.length ≤ received) (hread : readBody received readBuf results = some (some body, rest)) :
    readBuf ++ movedBy (bodyCalls received readBuf.length results) = body ∧
      readBuf ++ delivered results = body ++ delivered rest ∧ body.length = received ∧
      Consecutive received readBuf.length (bodyCalls received readBuf.length results) := by
  have hfull {readBuf : List Char} {results : List RecvResult} (hall : readBuf.length = received)
      (hread : readBody received readBuf results = some (some body, rest)) :
      readBuf ++ movedBy (bodyCalls received readBuf.length results) = body ∧
        readBuf ++ delivered results = body ++ delivered rest ∧ body.length = received ∧
        Consecutive received readBuf.length (bodyCalls received readBuf.length results) := by
    rw [readBody_full received results readBuf hall] at hread
    cases hread
    rw [hall, bodyCalls_full]
    exact ⟨List.append_nil _, rfl, rfl, trivial⟩
  induction results generalizing readBuf with
  | nil =>
    by_cases hlt : readBuf.length < received
    · rw [readBody, if_pos hlt] at hread
      cases hread
    · exact hfull (by omega) hread
  | cons r results ih =>
    by_cases hlt : readBuf.length < received
    · cases r with
      | failed errno =>
        rw [readBody, if_pos hlt] at hread
        rw [bodyCalls_cons (.failed errno) results hlt (failed_ne_streamEnd errno)]
        obtain ⟨hbody, hstream, hlength, hconsecutive⟩ := ih hle hread
        exact ⟨hbody, hstream, hlength, rfl, Nat.add_sub_of_le hle, Nat.zero_le _, hconsecutive⟩
      | arrived bytes errno =>
        rw [readBody, if_pos hlt] at hread
        by_cases hend : bytes = []
        · rw [if_pos hend] at hread
          cases hread
        rw [if_neg hend] at hread
        rw [bodyCalls_cons (.arrived bytes errno) results hlt fun _ h => hend (RecvResult.arrived.inj h).1,
          movedBy_cons, RecvResult.taken, ← List.append_assoc]
        by_cases hshort : bytes.length < received - readBuf.length
        · rw [if_pos hshort] at hread
          rw [List.take_of_length_le (Nat.le_of_lt hshort)]
          obtain ⟨hbody, hstream, hlength, hconsecutive⟩ := ih (by rw [List.length_append]; omega) hread
          rw [List.length_append] at hbody hconsecutive
          rw [List.append_assoc] at hstream
          exact ⟨hbody, hstream, hlength, rfl, Nat.add_sub_of_le hle, Nat.le_of_lt hshort, hconsecutive⟩
        · rw [if_neg hshort] at hread
          cases hread
          have htaken : (bytes.take (received - readBuf.length)).length = received - readBuf.length := by
            rw [List.length_take]
            omega
          rw [htaken, Nat.add_sub_of_le hle, bodyCalls_full]
          refine ⟨List.append_nil _, ?_, ?_, rfl, Nat.add_sub_of_le hle, htaken.le, trivial⟩
          · rw [delivered_leaveOver, List.append_assoc, ← List.append_assoc _ _ (delivered results),
              List.take_append_drop]
            rfl
          · rw [List.length_append, htaken, Nat.add_sub_of_le hle]
    · exact hfull (by omega) hread

end TcpClb
