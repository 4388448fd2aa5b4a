import TcpClb.Framing

/-!
# Receiving a stream that arrives in pieces

The bytes of a stream of frames may arrive in pieces cut anywhere, with errors between them after
which the call is repeated. `receive_from_fd` puts a body together again wherever it was cut. A
header that was cut is completed only if `errno` happens to say that the call should be repeated;
otherwise the digits that have arrived so far are taken for the length.
-/

namespace TcpClb

open TcpClb.Common

/-- A body that a frame can carry and that is not empty. -/
structure Body where
  bytes : List Char
  pos : 1 ≤ bytes.length
  le : bytes.length ≤ 9999

/-- What arrives in the calls of `recv` to come. -/
def delivered (results : List RecvResult) : List Char :=
  results.flatMap fun r => match r with
    | .arrived bytes _ => bytes
    | .failed _ => []

/-- What arrives in the first call is in front of the rest. -/
theorem delivered_cons (r : RecvResult) (results : List RecvResult) :
    delivered (r :: results) = delivered [r] ++ delivered results := by
  simp only [delivered, List.flatMap_cons, List.flatMap_nil, List.append_nil]

/-- Neither the end of the stream nor an error that is not worth another call. -/
def RecvResult.Ordinary : RecvResult → Prop
  | .arrived bytes _ => bytes ≠ []
  | .failed errno => errno.retry = true

/-- The calls deliver the given bytes, in order and without a failure. -/
structure Delivers (results : List RecvResult) (bytes : List Char) : Prop where
  ordinary : ∀ r ∈ results, r.Ordinary
  bytes_eq : delivered results = bytes

/-- A schedule on which the frames of the bodies arrive. -/
structure Delivery (bodies : List Body) where
  results : List RecvResult
  delivers : Delivers results (bodies.flatMap fun body => frame body.bytes)

/-- A position of the stream strictly inside the header of a frame. -/
def InsideHeader : List Body → ℕ → Prop
  | [], _ => False
  | body :: bodies, p =>
    if p < headerSize then 0 < p
    else if p < headerSize + body.bytes.length then False
    else InsideHeader bodies (p - (headerSize + body.bytes.length))

/-- From position `p` on, wherever the stream is cut at one of the given positions, `errno` says
after the short count that the call should be repeated. -/
def CutsRetry (inside : ℕ → Prop) (p : ℕ) : List RecvResult → Prop
  | [] => True
  | .failed _ :: results => CutsRetry inside p results
  | .arrived bytes errno :: results =>
    (inside (p + bytes.length) → errno.retry = true) ∧ CutsRetry inside (p + bytes.length) results

/-- An error changes nothing about what is delivered. -/
theorem Delivers.of_failed {errno : Errno} {results : List RecvResult} {bytes : List Char}
    (h : Delivers (.failed errno :: results) bytes) : errno.retry = true ∧ Delivers results bytes :=
  ⟨h.ordinary _ List.mem_cons_self, fun r hr => h.ordinary r (List.mem_cons_of_mem _ hr), h.bytes_eq⟩

/-- An arrival delivers the first bytes. -/
theorem Delivers.of_arrived {arrived bytes : List Char} {errno : Errno} {results : List RecvResult}
    (h : Delivers (.arrived arrived errno :: results) bytes) :
    arrived ≠ [] ∧ ∃ more, bytes = arrived ++ more ∧ Delivers results more :=
  ⟨h.ordinary _ List.mem_cons_self, delivered results, h.bytes_eq.symm,
    fun r hr => h.ordinary r (List.mem_cons_of_mem _ hr), rfl⟩

/-- What a call leaves over is delivered to the next one. -/
theorem Delivers.leaveOver {results : List RecvResult} {more : List Char} (h : Delivers results more)
    (bytes : List Char) (errno : Errno) : Delivers (leaveOver bytes errno results) (bytes ++ more) := by
  unfold TcpClb.leaveOver
  by_cases hbytes : bytes = []
  · rwa [if_pos hbytes, hbytes, List.nil_append]
  · rw [if_neg hbytes]
    refine ⟨fun r hr => ?_, ?_⟩
    · rcases List.mem_cons.mp hr with rfl | hr
      · exact hbytes
      · exact h.ordinary r hr
    · rw [← h.bytes_eq]
      rfl

/-- What a call leaves over is cut where the whole was. -/
theorem cutsRetry_leaveOver (inside : ℕ → Prop) (p k : ℕ) (bytes : List Char) (errno : Errno)
    (results : List RecvResult) (hk : k ≤ bytes.length) (hend : ¬ inside (p + k)) :
    CutsRetry inside p (.arrived bytes errno :: results) ↔
      CutsRetry inside (p + k) (leaveOver (bytes.drop k) errno results) := by
  have hend' : p + k + (bytes.drop k).length = p + bytes.length := by
    rw [List.length_drop]
    omega
  unfold leaveOver
  by_cases hdrop : bytes.drop k = []
  · have hall : bytes.length = k := by
      have := List.drop_eq_nil_iff.mp hdrop
      omega
    rw [if_pos hdrop, CutsRetry, hall]
    exact and_iff_right fun h => absurd h hend
  · rw [if_neg hdrop, CutsRetry, CutsRetry, hend']

/-- A stream that arrives in two parts is cut before the end of a given first part, or not before. -/
theorem cut_cases {header more bytes rest : List Char} (h : header ++ more = bytes ++ rest) :
    (∃ left, bytes = header ++ left ∧ more = left ++ rest) ∨
      (∃ missing, missing ≠ [] ∧ header = bytes ++ missing ∧ rest = missing ++ more) := by
  rcases List.append_eq_append_iff.mp h with ⟨left, hbytes, hmore⟩ | ⟨missing, hheader, hrest⟩
  · exact Or.inl ⟨left, hbytes, hmore⟩
  · by_cases hmissing : missing = []
    · subst hmissing
      exact Or.inl ⟨[], by rw [List.append_nil] at hheader ⊢; exact hheader.symm, hrest.symm⟩
    · exact Or.inr ⟨missing, hmissing, hheader, hrest⟩

/-- The header is read to its end exactly if it is cut nowhere without a retry; otherwise the loop
ends with the part of it that has arrived. -/
theorem readHeader_delivers {inside : ℕ → Prop} (hinside : ∀ p, 0 < p → p < headerSize → inside p)
    (hend : ¬ inside headerSize) (results : List RecvResult) (lenbuf header more : List Char)
    (hpos : 0 < header.length) (hsize : lenbuf.length + header.length = headerSize)
    (hdelivers : Delivers results (header ++ more)) :
    (∃ results', readHeader lenbuf results = some (some (lenbuf ++ header), results') ∧
        Delivers results' more ∧
        (CutsRetry inside lenbuf.length results ↔ CutsRetry inside headerSize results')) ∨
      (¬ CutsRetry inside lenbuf.length results ∧ ∃ j < header.length, ∃ results',
        readHeader lenbuf results = some (some (lenbuf ++ header.take j), results')) := by
  induction results generalizing lenbuf header with
  | nil =>
    have hnil : header ++ more = [] := hdelivers.bytes_eq.symm
    rw [(List.append_eq_nil_iff.mp hnil).1] at hpos
    exact absurd hpos (Nat.lt_irrefl 0)
  | cons r results ih =>
    cases r with
    | failed errno =>
      obtain ⟨hretry, hdelivers⟩ := hdelivers.of_failed
      rw [readHeader, if_pos hretry]
      exact ih lenbuf header hpos hsize hdelivers
    | arrived bytes errno =>
      obtain ⟨hne, rest, hbytes, hrest⟩ := hdelivers.of_arrived
      have htotal : headerSize - lenbuf.length = header.length := by omega
      rw [readHeader, if_neg hne]
      simp only [htotal]
      rcases cut_cases hbytes with ⟨left, rfl, rfl⟩ | ⟨missing, hmissing, rfl, rfl⟩
      · have hle : header.length ≤ (header ++ left).length := by
          rw [List.length_append]
          omega
        have hcuts := cutsRetry_leaveOver inside lenbuf.length header.length (header ++ left) errno
          results hle (hsize ▸ hend)
        rw [hsize, List.drop_left] at hcuts
        rw [List.take_left, if_pos rfl, List.drop_left]
        exact Or.inl ⟨_, rfl, hrest.leaveOver left errno, hcuts⟩
      · have hlong : 0 < missing.length := List.length_pos_iff.mpr hmissing
        have hshort : 0 < bytes.length := List.length_pos_iff.mpr hne
        rw [List.length_append] at hsize
        have htake : bytes.take (bytes ++ missing).length = bytes := by
          apply List.take_of_length_le
          rw [List.length_append]
          omega
        rw [htake, List.length_append, if_neg (by omega)]
        by_cases hretry : errno.retry = true
        · rw [if_pos hretry]
          have hcuts : CutsRetry inside lenbuf.length (.arrived bytes errno :: results) ↔
              CutsRetry inside (lenbuf ++ bytes).length results := by
            rw [CutsRetry, List.length_append]
            exact and_iff_right fun _ => hretry
          rcases ih (lenbuf ++ bytes) missing hlong (by rw [List.length_append]; omega) hrest with
            ⟨results', hread, hdelivers', hiff⟩ | ⟨hnot, j, hj, results', hread⟩
          · rw [List.append_assoc] at hread
            exact Or.inl ⟨results', hread, hdelivers', hcuts.trans hiff⟩
          · refine Or.inr ⟨fun h => hnot (hcuts.mp h), bytes.length + j, by omega, results', ?_⟩
            rw [hread, List.append_assoc, List.take_length_add_append]
        · rw [if_neg hretry]
          refine Or.inr ⟨fun h => ?_, bytes.length, by omega, results, by rw [List.take_left]⟩
          exact hretry (h.1 (hinside _ (by omega) (by omega)))

/-- A body is put together however it was cut. -/
theorem readBody_delivers {inside : ℕ → Prop} (received p : ℕ) (results : List RecvResult)
    (readBuf body more : List Char) (hsize : readBuf.length + body.length = received)
    (houtside : ∀ k ≤ body.length, ¬ inside (p + k)) (hdelivers : Delivers results (body ++ more)) :
    ∃ results', readBody received readBuf results = some (some (readBuf ++ body), results') ∧
      Delivers results' more ∧
      (CutsRetry inside p results ↔ CutsRetry inside (p + body.length) results') := by
  by_cases hbody : body = []
  · subst hbody
    rw [List.append_nil]
    exact ⟨results, readBody_full received results readBuf hsize, hdelivers, Iff.rfl⟩
  have hpos : 0 < body.length := List.length_pos_iff.mpr hbody
  induction results generalizing readBuf body p with
  | nil =>
    have hnil : body ++ more = [] := hdelivers.bytes_eq.symm
    exact absurd (List.append_eq_nil_iff.mp hnil).1 hbody
  | cons r results ih =>
    cases r with
    | failed errno =>
      rw [readBody, if_pos (by omega)]
      exact ih p readBuf body hsize houtside hdelivers.of_failed.2 hbody hpos
    | arrived bytes errno =>
      obtain ⟨hne, rest, hbytes, hrest⟩ := hdelivers.of_arrived
      have htotal : received - readBuf.length = body.length := by omega
      rw [readBody, if_pos (by omega), if_neg hne, htotal]
      rcases cut_cases hbytes with ⟨left, rfl, rfl⟩ | ⟨missing, hmissing, rfl, rfl⟩
      · have hle : body.length ≤ (body ++ left).length := by
          rw [List.length_append]
          omega
        have hcuts := cutsRetry_leaveOver inside p body.length (body ++ left) errno results hle
          (houtside _ (Nat.le_refl _))
        rw [List.drop_left] at hcuts
        rw [if_neg (Nat.not_lt.mpr hle), List.take_left, List.drop_left]
        exact ⟨_, rfl, hrest.leaveOver left errno, hcuts⟩
      · have hlong : 0 < missing.length := List.length_pos_iff.mpr hmissing
        rw [List.length_append] at hsize houtside ⊢
        rw [if_pos (by omega)]
        obtain ⟨results', hread, hdelivers', hiff⟩ := ih (p + bytes.length) (readBuf ++ bytes) missing
          (by rw [List.length_append]; omega)
          (fun k hk => by rw [Nat.add_assoc]; exact houtside _ (by omega)) hrest hmissing hlong
        rw [List.append_assoc] at hread
        refine ⟨results', hread, hdelivers', ?_⟩
        rw [← Nat.add_assoc, ← hiff, CutsRetry]
        exact and_iff_right fun h => absurd h (houtside bytes.length (by omega))

/-- Positions of a later frame, counted from where the first frame ends. -/
theorem insideHeader_add (body : Body) (bodies : List Body) (p : ℕ) :
    InsideHeader (body :: bodies) (headerSize + body.bytes.length + p) ↔ InsideHeader bodies p := by
  rw [InsideHeader, if_neg (by omega), if_neg (by omega), Nat.add_sub_cancel_left]

/-- No position at or behind the end of a stream of frames is inside a header. -/
theorem not_insideHeader_zero (bodies : List Body) : ¬ InsideHeader bodies 0 := by
  cases bodies with
  | nil => exact id
  | cons body bodies =>
    rw [InsideHeader, if_pos (by decide)]
    exact Nat.lt_irrefl 0

/-- The cuts in the later frames are cuts of the stream that is left after the first one. -/
theorem cutsRetry_insideHeader_add (body : Body) (bodies : List Body) (results : List RecvResult) (p : ℕ) :
    CutsRetry (InsideHeader (body :: bodies)) (headerSize + body.bytes.length + p) results ↔
      CutsRetry (InsideHeader bodies) p results := by
  induction results generalizing p with
  | nil => exact Iff.rfl
  | cons r results ih =>
    cases r with
    | failed errno => exact ih p
    | arrived bytes errno =>
      rw [CutsRetry, CutsRetry, Nat.add_assoc, insideHeader_add, ih]

/-- A length that is read from a part of the header is too small. -/
theorem receiveFromFd_of_partial_header (results results' : List RecvResult) (lenbuf : List Char) (n : ℤ)
    (hlt : atoi lenbuf < n) (hread : readHeader [] results = some (some lenbuf, results'))
    (received : Received) (rest : List RecvResult) (hreceive : receiveFromFd results = some (received, rest)) :
    received.ret ≠ some n := by
  have hne : some (atoi lenbuf) ≠ some n := fun h => by
    have := Option.some.inj h
    omega
  simp only [receiveFromFd, hread, Option.bind_eq_bind, Option.bind_some] at hreceive
  split at hreceive
  · cases hreceive
    exact hne
  · obtain ⟨body, _, hbody⟩ := Option.bind_eq_some_iff.mp hreceive
    split at hbody
    · cases hbody
      intro hret
      cases hret
    · cases hbody
      exact hne

/-- The next call returns the body of the first frame and leaves the others, if the header of the
frame is cut nowhere without a retry; otherwise it returns a smaller length, if anything. -/
theorem receiveFromFd_delivers (body : Body) (bodies : List Body) (results : List RecvResult)
    (more : List Char) (hdelivers : Delivers results (frame body.bytes ++ more)) :
    (∃ results', receiveFromFd results = some (⟨some body.bytes, some body.bytes.length⟩, results') ∧
        Delivers results' more ∧
        (CutsRetry (InsideHeader (body :: bodies)) 0 results ↔
          CutsRetry (InsideHeader bodies) 0 results')) ∨
      (¬ CutsRetry (InsideHeader (body :: bodies)) 0 results ∧
        ∀ received results', receiveFromFd results = some (received, results') →
          received.ret ≠ some (body.bytes.length : ℤ)) := by
  have hpos := body.pos
  have hheader : (lengthHeader body.bytes.length).length = headerSize :=
    (length_lengthHeader_eq_iff _).mpr body.le
  have hinside (p : ℕ) (hp : 0 < p) (hlt : p < headerSize) : InsideHeader (body :: bodies) p := by
    rwa [InsideHeader, if_pos hlt]
  have houtside (k : ℕ) (hk : k ≤ body.bytes.length) : ¬ InsideHeader (body :: bodies) (headerSize + k) := by
    rcases Nat.lt_or_eq_of_le hk with hlt | rfl
    · rw [InsideHeader, if_neg (by omega), if_pos (by omega)]
      exact id
    · rw [← Nat.add_zero (headerSize + body.bytes.length), insideHeader_add]
      exact not_insideHeader_zero bodies
  rw [frame, List.append_assoc] at hdelivers
  rcases readHeader_delivers hinside (houtside 0 (Nat.zero_le _)) results [] (lengthHeader body.bytes.length)
      (body.bytes ++ more) (by rw [hheader]; decide) (by rw [hheader]; rfl) hdelivers with
    ⟨middle, hread, hmiddle, hcuts⟩ | ⟨hnot, j, hj, middle, hread⟩
  · obtain ⟨results', hbody, hrest, hcuts'⟩ := readBody_delivers body.bytes.length headerSize middle []
      body.bytes more (Nat.zero_add _) houtside hmiddle
    refine Or.inl ⟨results', ?_, hrest, ?_⟩
    · simp only [receiveFromFd, hread, Option.bind_eq_bind, Option.bind_some, List.nil_append, lengthHeader,
        atoi_printPadded, if_neg (show ¬ (body.bytes.length : ℤ) + 1 < 0 by omega), Int.toNat_natCast, hbody]
    · rw [← Nat.add_zero (headerSize + body.bytes.length), cutsRetry_insideHeader_add] at hcuts'
      exact hcuts.trans hcuts'
  · rw [List.nil_append] at hread
    refine Or.inr ⟨hnot, fun received results' hreceive => ?_⟩
    apply receiveFromFd_of_partial_header results middle _ _ ?_ hread received results' hreceive
    have hlt := atoi_take_lt (lengthHeader body.bytes.length) j
      (isDigit_of_mem_printPadded headerSize body.bytes.length) hj
    rw [lengthHeader, ofDigitChars_printPadded] at hlt
    exact hlt hpos

/-- Where no position counts, every schedule is fine. -/
theorem cutsRetry_of_nowhere (results : List RecvResult) (p : ℕ) : CutsRetry (InsideHeader []) p results := by
  induction results generalizing p with
  | nil => trivial
  | cons r results ih =>
    cases r with
    | failed errno => exact ih p
    | arrived bytes errno => exact ⟨False.elim, ih _⟩

/-- The bodies are received one after the other, however their frames arrive, exactly if no header
is cut without a retry. -/
theorem receive_bodies_iff (bodies : List Body) (delivery : Delivery bodies) :
    (receiveTimes bodies.length delivery.results).map Prod.fst =
        some (bodies.map fun body => ⟨some body.bytes, some body.bytes.length⟩) ↔
      CutsRetry (InsideHeader bodies) 0 delivery.results := by
  obtain ⟨results, hdelivers⟩ := delivery
  change (receiveTimes bodies.length results).map Prod.fst = _ ↔ CutsRetry (InsideHeader bodies) 0 results
  induction bodies generalizing results with
  | nil => exact iff_of_true rfl (cutsRetry_of_nowhere results 0)
  | cons body bodies ih =>
    rw [List.flatMap_cons] at hdelivers
    rw [List.length_cons, receiveTimes, List.map_cons]
    rcases receiveFromFd_delivers body bodies results _ hdelivers with
      ⟨results', hfirst, hrest, hcuts⟩ | ⟨hnot, hwrong⟩
    · rw [hcuts, ← ih results' hrest, hfirst]
      simp only [Option.bind_eq_bind, Option.bind_some]
      cases receiveTimes bodies.length results' with
      | none => simp
      | some others => simp
    · refine iff_of_false (fun hall => ?_) hnot
      cases hfirst : receiveFromFd results with
      | none => simp [hfirst] at hall
      | some first =>
        have hret := hwrong first.1 first.2 hfirst
        cases hothers : receiveTimes bodies.length first.2 with
        | none => simp [hfirst, hothers] at hall
        | some others =>
          simp only [hfirst, hothers, Option.bind_eq_bind, Option.bind_some, Option.map_some,
            Option.some.injEq, List.cons.injEq] at hall
          rw [hall.1] at hret
          exact hret rfl

/-- A body of five bytes. -/
def hello : Body := ⟨['h', 'e', 'l', 'l', 'o'], by decide, by decide⟩

/-- Its frame, cut inside the header, with `errno` as no call has left it. -/
def cutHello : Delivery [hello] where
  results := [.arrived ['0', '0'] (.other 0), .arrived ['0', '5', 'h', 'e', 'l', 'l', 'o'] (.other 0)]
  delivers := ⟨by simp [RecvResult.Ordinary], by decide⟩

/-- The digits before the cut are taken for a length of 0. -/
theorem cutHello_not_received : (receiveTimes 1 cutHello.results).map Prod.fst ≠
    some ([hello].map fun body => ⟨some body.bytes, some body.bytes.length⟩) := by
  decide

end TcpClb
