import TcpClb.PeerList

/-!
# Validation of endpoints

`validateIpPort` takes the text before the colon as the address and the text behind it as the port. `chkIP`
counts tokens, so dots may stand together and at both ends, and `atoi` wraps octets at 2³²; in a port it skips
blanks, signs and what follows the digits. A missing token is a null pointer. So the function does what it is
for exactly on the texts where none of this matters.
-/

namespace TcpClb

open TcpClb.Common

/-- A text of digits, not empty, of value at most `k`. -/
def NumberUpTo (k : ℕ) (s : List Char) : Prop :=
  s ≠ [] ∧ (∀ c ∈ s, c.isDigit = true) ∧ Nat.ofDigitChars 10 s 0 ≤ k

instance (k : ℕ) (s : List Char) : Decidable (NumberUpTo k s) :=
  decidable_of_iff (s ≠ [] ∧ s.all Char.isDigit = true ∧ Nat.ofDigitChars 10 s 0 ≤ k) <| by
    rw [List.all_eq_true, NumberUpTo]

/-- `A.B.C.D`, with nothing before, between or after the octets but single dots. -/
def IsAddress (addr : List Char) : Prop :=
  ∃ a b c d, addr = a ++ '.' :: (b ++ '.' :: (c ++ '.' :: d)) ∧ ∀ octet ∈ [a, b, c, d], NumberUpTo 255 octet

/-- The endpoint is an address and a port, perhaps with a newline. -/
structure EndpointOf (endpt addr digits : List Char) : Prop where
  address : IsAddress addr
  port : NumberUpTo 65535 digits
  text : ∃ ending ∈ [[], ['\n']], endpt = addr ++ ':' :: (digits ++ ending)

/-- What `validateIpPort` is for: it follows no null pointer, accepts addresses with a port and nothing else,
and stores them. -/
structure ExactlyIpPort (endpt : List Char) : Prop where
  noCrash : validateIpPort endpt ≠ .error .crash
  accepted : (∃ ip port, validateIpPort endpt = .ok (ip, port)) ↔ ∃ addr digits, EndpointOf endpt addr digits
  stored : ∀ ip port, validateIpPort endpt = .ok (ip, port) → ∃ addr digits, EndpointOf endpt addr digits ∧
    ∀ p : PeerBytes, (p.store ip port).Holds addr (Nat.ofDigitChars 10 digits 0)

/-- Four texts of digits between dots, of which there may be too many, whose values are small up to multiples
of 2³². -/
structure LooseAddress (addr : List Char) : Prop where
  four : (tokens (· == '.') addr).length = 4
  octets : ∀ tok ∈ tokens (· == '.') addr, (∀ c ∈ tok, c.isDigit = true) ∧
    Nat.ofDigitChars 10 tok 0 < 2 ^ 63 ∧ Nat.ofDigitChars 10 tok 0 % 2 ^ 32 ≤ 255

/-- A text that reads as a number that is small up to multiples of 2³², or that no `long` reaches down to. -/
def LoosePort (port : List Char) : Prop := atoi port < 2 ^ 63 ∧ max (-2 ^ 63) (atoi port) % 2 ^ 32 ≤ 65535

/-- Digits, perhaps with a newline, of a value that is not cut to 32 bits. -/
def PlainPort (port : List Char) : Prop :=
  ∃ digits, NumberUpTo (2 ^ 32 - 1) digits ∧ ∃ ending ∈ [[], ['\n']], port = digits ++ ending

/-- Something stands before or behind the colon, and no address behind it alone. If the address and the port pass
the checks, no dots stand together or at an end, the address has room, and the port is all digits. -/
structure PlainEndpoint (addr port : List Char) : Prop where
  token : addr ≠ [] ∨ port ≠ []
  notAlone : addr = [] → ¬ LooseAddress port
  address : LooseAddress addr → LoosePort port → addr.count '.' = 3 ∧ addr.length < 16
  port : LooseAddress addr → LoosePort port → PlainPort port

section Texts

variable {addr digits port : List Char} {k : ℕ}

/-- A text of digits has no other characters. -/
theorem NumberUpTo.not_mem (h : NumberUpTo k digits) {c : Char} (hc : c.isDigit = false) : c ∉ digits := by
  intro hmem
  rw [h.2.1 c hmem] at hc
  cases hc

/-- An octet is a token. -/
theorem NumberUpTo.tokens_append (h : NumberUpTo k digits) (rest : List Char) :
    tokens (· == '.') (digits ++ '.' :: rest) = digits :: tokens (· == '.') rest := by
  exact tokens_append_cons h.1 (beq_eq_false_of_notMem (h.not_mem (by decide))) (by decide) rest

/-- The tokens of an address are its octets. -/
theorem IsAddress.exists_tokens (h : IsAddress addr) : ∃ octets, tokens (· == '.') addr = octets ∧
    octets.length = 4 ∧ ∀ octet ∈ octets, NumberUpTo 255 octet := by
  obtain ⟨a, b, c, d, rfl, hoctets⟩ := h
  have hlast := hoctets d (by simp)
  have hnone : ∀ e ∈ d, (e == '.') = false := beq_eq_false_of_notMem (hlast.not_mem (by decide))
  refine ⟨[a, b, c, d], ?_, rfl, hoctets⟩
  rw [(hoctets a (by simp)).tokens_append, (hoctets b (by simp)).tokens_append,
    (hoctets c (by simp)).tokens_append, tokens_of_noDelimiter hlast.1 hnone]

/-- An address looks like one. -/
theorem IsAddress.loose (h : IsAddress addr) : LooseAddress addr := by
  obtain ⟨octets, htokens, hfour, hoctets⟩ := h.exists_tokens
  refine ⟨by rw [htokens, hfour], fun tok htok => ?_⟩
  rw [htokens] at htok
  obtain ⟨-, hdigits, hle⟩ := hoctets tok htok
  exact ⟨hdigits, by omega, by omega⟩

/-- There is an address only where there is text. -/
theorem LooseAddress.ne_nil (h : LooseAddress addr) : addr ≠ [] := by
  rintro rfl
  cases h.four

/-- It has no colon. -/
theorem IsAddress.not_mem (h : IsAddress addr) : ':' ∉ addr := by
  obtain ⟨a, b, c, d, rfl, hoctets⟩ := h
  have hnone (octet : List Char) (hmem : octet ∈ [a, b, c, d]) : ':' ∉ octet :=
    (hoctets octet hmem).not_mem (by decide)
  simp only [List.mem_append, List.mem_cons, not_or]
  exact ⟨hnone a (by simp), by decide, hnone b (by simp), by decide, hnone c (by simp), by decide, hnone d (by simp)⟩

/-- It has three dots. -/
theorem IsAddress.count_dots (h : IsAddress addr) : addr.count '.' = 3 := by
  obtain ⟨a, b, c, d, rfl, hoctets⟩ := h
  have hnone (octet : List Char) (hmem : octet ∈ [a, b, c, d]) : octet.count '.' = 0 :=
    List.count_eq_zero.mpr ((hoctets octet hmem).not_mem (by decide))
  simp only [List.count_append, List.count_cons_self, hnone a (by simp), hnone b (by simp), hnone c (by simp),
    hnone d (by simp)]

/-- What looks like an address is one if there are three dots and room for it: then no octet has ten digits. -/
theorem LooseAddress.isAddress (h : LooseAddress addr) (hdots : addr.count '.' = 3) (hroom : addr.length < 16) :
    IsAddress addr := by
  have hfull : ∀ piece ∈ addr.splitOnP (· == '.'), piece ≠ [] :=
    (length_tokens_eq_iff _ addr).mp (h.four.trans (congrArg (· + 1) hdots).symm)
  have htokens := tokens_eq_splitOnP hfull
  have hjoin : ['.'].intercalate (tokens (· == '.') addr) = addr := by
    rw [htokens, ← List.splitOn_eq_splitOnP, List.intercalate_splitOn]
  rw [← htokens] at hfull
  obtain ⟨a, b, c, d, hfour⟩ := List.length_eq_four.mp h.four
  rw [hfour] at hjoin hfull
  have htext : a ++ '.' :: (b ++ '.' :: (c ++ '.' :: d)) = addr := by
    rw [← hjoin]
    simp [List.intercalate]
  have hlength : a.length + b.length + c.length + d.length + 3 < 16 := by
    rw [← htext] at hroom
    simp only [List.length_append, List.length_cons] at hroom
    omega
  have hpos (octet : List Char) (hmem : octet ∈ [a, b, c, d]) : 0 < octet.length :=
    List.length_pos_iff.mpr (hfull octet hmem)
  have ha := hpos a (by simp)
  have hb := hpos b (by simp)
  have hc := hpos c (by simp)
  have hd := hpos d (by simp)
  refine ⟨a, b, c, d, htext.symm, fun octet hmem => ?_⟩
  obtain ⟨hdigits, -, hwrapped⟩ := h.octets octet (hfour ▸ hmem)
  have hshort : octet.length ≤ 9 := by
    simp only [List.mem_cons, List.not_mem_nil, or_false] at hmem
    rcases hmem with rfl | rfl | rfl | rfl <;> omega
  have hlt := Nat.lt_of_lt_of_le (ofDigitChars_lt octet hdigits) (Nat.pow_le_pow_right (by decide) hshort)
  exact ⟨hfull octet hmem, hdigits, by omega⟩

/-- `chkIP` accepts what looks like an address. -/
theorem chkIP_iff (addr : List Char) : chkIP addr = true ↔ LooseAddress addr := by
  have hoctet (tok : List Char) : (validateNumber tok && decide (0 ≤ atoiInt tok ∧ atoiInt tok ≤ 255)) = true ↔
      (∀ c ∈ tok, c.isDigit = true) ∧ Nat.ofDigitChars 10 tok 0 < 2 ^ 63 ∧
        Nat.ofDigitChars 10 tok 0 % 2 ^ 32 ≤ 255 := by
    rw [Bool.and_eq_true, validateNumber, List.all_eq_true, decide_eq_true_iff, atoiInt_range_iff tok (by decide)]
    refine and_congr_right fun hdigits => ?_
    rw [atoi_of_digits tok hdigits]
    omega
  have hiff : chkIP addr = true ↔ (tokens (· == '.') addr).length = 4 ∧ ∀ tok ∈ tokens (· == '.') addr,
      (validateNumber tok && decide (0 ≤ atoiInt tok ∧ atoiInt tok ≤ 255)) = true := by
    rw [chkIP]
    cases tokens (· == '.') addr with
    | nil => simp
    | cons ptr rest =>
      rw [Bool.and_eq_true, List.all_eq_true, beq_iff_eq, List.length_cons, and_comm]
      exact and_congr_left' (by omega)
  rw [hiff]
  constructor
  · rintro ⟨hfour, hall⟩
    exact ⟨hfour, fun tok htok => (hoctet tok).mp (hall tok htok)⟩
  · rintro ⟨hfour, hall⟩
    exact ⟨hfour, fun tok htok => (hoctet tok).mpr (hall tok htok)⟩

/-- `chkPort` accepts what looks like a port. -/
theorem chkPort_iff (port : List Char) : chkPort (atoiInt port) = true ↔ LoosePort port := by
  rw [chkPort, decide_eq_true_iff, atoiInt_range_iff port (by decide), LoosePort]

/-- A newline behind the digits does not count. -/
theorem atoi_digits_ending {ending : List Char} (hne : digits ≠ []) (hdigits : ∀ c ∈ digits, c.isDigit = true)
    (hending : ending ∈ [[], ['\n']]) : atoi (digits ++ ending) = Nat.ofDigitChars 10 digits 0 := by
  refine atoi_digits_append hne hdigits ?_
  rcases List.mem_pair.mp hending with rfl | rfl <;> simp

/-- The text of a port reads as its value. -/
theorem atoiInt_port (h : NumberUpTo 65535 digits) {ending : List Char} (hending : ending ∈ [[], ['\n']]) :
    atoiInt (digits ++ ending) = Nat.ofDigitChars 10 digits 0 := by
  obtain ⟨hne, hdigits, hle⟩ := h
  have hread := atoi_digits_ending hne hdigits hending
  rw [atoiInt_eq_self (by omega) (by omega), hread]

/-- What reads as a port is one if it is all digits. -/
theorem LoosePort.numberUpTo {ending : List Char} (h : LoosePort (digits ++ ending))
    (hport : NumberUpTo (2 ^ 32 - 1) digits) (hending : ending ∈ [[], ['\n']]) : NumberUpTo 65535 digits := by
  obtain ⟨hne, hdigits, hle⟩ := hport
  obtain ⟨-, hwrapped⟩ := h
  rw [atoi_digits_ending hne hdigits hending] at hwrapped
  exact ⟨hne, hdigits, by omega⟩

end Texts

section Endpoints

variable {endpt addr port : List Char}

/-- With one colon there is one way to part the text. -/
theorem EndpointOf.parts {addr' digits : List Char} (h : EndpointOf (addr ++ ':' :: port) addr' digits)
    (haddr : ':' ∉ addr) (hport : ':' ∉ port) : addr = addr' ∧ ∃ ending ∈ [[], ['\n']], port = digits ++ ending := by
  obtain ⟨ending, hending, hparts⟩ := h.text
  obtain ⟨rfl, -, hrest⟩ := (List.append_cons_inj_of_notMem haddr hport).mp hparts
  exact ⟨rfl, ending, hending, hrest⟩

/-- The parts of an endpoint pass the checks, and the port reads as its value. -/
theorem EndpointOf.passes {addr' digits : List Char} (h : EndpointOf (addr ++ ':' :: port) addr' digits)
    (haddr : ':' ∉ addr) (hport : ':' ∉ port) : addr = addr' ∧ LooseAddress addr ∧ LoosePort port ∧
      atoiInt port = Nat.ofDigitChars 10 digits 0 := by
  obtain ⟨rfl, ending, hending, rfl⟩ := h.parts haddr hport
  have hread := atoiInt_port h.port hending
  have hle := h.port.2.2
  refine ⟨rfl, h.address.loose, ?_, hread⟩
  rw [← chkPort_iff, chkPort, decide_eq_true_iff, hread]
  omega

/-- Parts that pass the checks are an endpoint exactly if they are plain. -/
theorem exists_endpointOf_iff (haddr : ':' ∉ addr) (hport : ':' ∉ port) (haddress : LooseAddress addr)
    (hread : LoosePort port) :
    (addr.length < 16 ∧ ∃ digits, EndpointOf (addr ++ ':' :: port) addr digits) ↔
      (addr.count '.' = 3 ∧ addr.length < 16) ∧ PlainPort port := by
  constructor
  · rintro ⟨hroom, digits, h⟩
    obtain ⟨-, ending, hending, rfl⟩ := h.parts haddr hport
    obtain ⟨hne, hdigits, hle⟩ := h.port
    exact ⟨⟨h.address.count_dots, hroom⟩, digits, ⟨hne, hdigits, by omega⟩, ending, hending, rfl⟩
  · rintro ⟨⟨hdots, hroom⟩, digits, hnumber, ending, hending, rfl⟩
    exact ⟨hroom, digits, haddress.isAddress hdots hroom, hread.numberUpTo hnumber hending, ending, hending, rfl⟩

/-- It is right to reject what is no endpoint. -/
theorem exactlyIpPort_of_invalid (h : validateIpPort endpt = .error .invalid)
    (hno : ∀ addr digits, ¬ EndpointOf endpt addr digits) : ExactlyIpPort endpt where
  noCrash := by
    rw [h]
    decide
  accepted := by
    refine iff_of_false ?_ fun ⟨addr, digits, hendpt⟩ => hno addr digits hendpt
    rintro ⟨ip, n, hok⟩
    rw [h] at hok
    cases hok
  stored ip n hok := by
    rw [h] at hok
    cases hok

/-- It is right to accept an endpoint whose address has room. -/
theorem exactlyIpPort_iff_of_ok {n : ℤ} (h : validateIpPort endpt = .ok (addr, n))
    (hvalue : ∀ addr' digits, EndpointOf endpt addr' digits → addr = addr' ∧ n = Nat.ofDigitChars 10 digits 0) :
    ExactlyIpPort endpt ↔ addr.length < 16 ∧ ∃ digits, EndpointOf endpt addr digits := by
  constructor
  · intro hexactly
    obtain ⟨addr', digits, hendpt, hholds⟩ := hexactly.stored addr n h
    obtain ⟨rfl, -⟩ := hvalue addr' digits hendpt
    exact ⟨(hholds ⟨0, List.replicate 16 '\x00', List.length_replicate⟩).length_lt, digits, hendpt⟩
  · rintro ⟨hroom, digits, hendpt⟩
    refine ⟨?_, iff_of_true ⟨addr, n, h⟩ ⟨addr, digits, hendpt⟩, fun ip port hok => ⟨addr, digits, hendpt, fun p => ?_⟩⟩
    · rw [h]
      intro hcrash
      cases hcrash
    · rw [h] at hok
      obtain ⟨rfl, rfl⟩ := Prod.mk.inj (Except.ok.inj hok)
      rw [← (hvalue addr digits hendpt).2]
      exact p.store_holds n hroom

/-- Without an address before the colon, what matters is that no null pointer is followed. -/
theorem exactlyIpPort_nil_iff (hport : ':' ∉ port) : ExactlyIpPort (':' :: port) ↔ PlainEndpoint [] port := by
  have hvalue := validateIpPort_nil hport
  by_cases hempty : port = []
  · rw [if_pos hempty] at hvalue
    exact iff_of_false (fun h => h.noCrash hvalue) fun h => h.token.elim (fun hne => hne rfl) fun hne => hne hempty
  · rw [if_neg hempty] at hvalue
    by_cases hloose : LooseAddress port
    · rw [if_pos ((chkIP_iff port).mpr hloose)] at hvalue
      exact iff_of_false (fun h => h.noCrash hvalue) fun h => h.notAlone rfl hloose
    · rw [if_neg fun h => hloose ((chkIP_iff port).mp h)] at hvalue
      refine iff_of_true (exactlyIpPort_of_invalid hvalue fun addr digits h => ?_)
        ⟨Or.inr hempty, fun _ => hloose, fun haddress => absurd rfl haddress.ne_nil,
          fun haddress => absurd rfl haddress.ne_nil⟩
      have hpasses := @EndpointOf.passes [] port addr digits h List.not_mem_nil hport
      exact hpasses.2.1.ne_nil rfl

/-- With one, an address and a port that pass the checks are to be plain. -/
theorem exactlyIpPort_append_iff (hne : addr ≠ []) (haddr : ':' ∉ addr) (hport : ':' ∉ port) :
    ExactlyIpPort (addr ++ ':' :: port) ↔ PlainEndpoint addr port := by
  have hvalue := validateIpPort_append_cons hne haddr hport
  have hrejected (hinvalid : validateIpPort (addr ++ ':' :: port) = .error .invalid)
      (hno : ¬ (LooseAddress addr ∧ LoosePort port)) :
      ExactlyIpPort (addr ++ ':' :: port) ↔ PlainEndpoint addr port := by
    refine iff_of_true (exactlyIpPort_of_invalid hinvalid fun addr' digits h => ?_)
      ⟨Or.inl hne, fun hnil => absurd hnil hne, fun haddress hread => absurd ⟨haddress, hread⟩ hno,
        fun haddress hread => absurd ⟨haddress, hread⟩ hno⟩
    obtain ⟨-, haddress, hread, -⟩ := h.passes haddr hport
    exact hno ⟨haddress, hread⟩
  by_cases haddress : LooseAddress addr
  · rw [if_pos ((chkIP_iff addr).mpr haddress)] at hvalue
    by_cases hempty : port = []
    · rw [if_pos hempty] at hvalue
      refine iff_of_false (fun h => h.noCrash hvalue) fun h => ?_
      -- the empty text reads as 0
      obtain ⟨digits, hnumber, ending, -, hdigits⟩ := h.port haddress (hempty ▸ ⟨by decide, by decide⟩)
      exact hnumber.1 (List.append_eq_nil_iff.mp (hdigits.symm.trans hempty)).1
    · rw [if_neg hempty] at hvalue
      by_cases hread : LoosePort port
      · rw [if_pos ((chkPort_iff port).mpr hread)] at hvalue
        rw [exactlyIpPort_iff_of_ok hvalue fun addr' digits h =>
          ⟨(h.passes haddr hport).1, (h.passes haddr hport).2.2.2⟩,
          exists_endpointOf_iff haddr hport haddress hread]
        constructor
        · exact fun h => ⟨Or.inl hne, fun hnil => absurd hnil hne, fun _ _ => h.1, fun _ _ => h.2⟩
        · exact fun h => ⟨h.address haddress hread, h.port haddress hread⟩
      · rw [if_neg fun h => hread ((chkPort_iff port).mp h)] at hvalue
        exact hrejected hvalue fun h => hread h.2
  · rw [if_neg fun h => haddress ((chkIP_iff addr).mp h)] at hvalue
    exact hrejected hvalue fun h => haddress h.1

end Endpoints

/-- Of a text with one colon, exactly the endpoints are accepted, and stored as they are, without a crash, if and
only if its parts are plain. -/
theorem validateIpPort_exactly_iff (endpt : List Char) (hcolon : chkCnt endpt ':' = 1) :
    ExactlyIpPort endpt ↔ ∀ addr port, endpt = addr ++ ':' :: port → PlainEndpoint addr port := by
  have hparts {addr port : List Char} (htext : endpt = addr ++ ':' :: port) :
      ExactlyIpPort endpt ↔ PlainEndpoint addr port := by
    subst htext
    obtain ⟨haddr, hport⟩ := notMem_of_chkCnt hcolon
    by_cases hempty : addr = []
    · subst hempty
      exact exactlyIpPort_nil_iff hport
    · exact exactlyIpPort_append_iff hempty haddr hport
  constructor
  · exact fun h addr port htext => (hparts htext).mp h
  · intro h
    obtain ⟨addr, port, htext⟩ := exists_parts hcolon
    exact (hparts htext).mpr (h addr port htext)

/-- An endpoint on this machine. -/
theorem local_exactlyIpPort : ExactlyIpPort "127.0.0.1:80".toList := by
  refine (validateIpPort_exactly_iff _ (by decide)).mpr fun addr port htext => ?_
  obtain ⟨rfl, -, rfl⟩ := (@List.append_cons_inj_of_notMem _ "127.0.0.1".toList addr "80".toList port ':' ':'
    (by decide) (by decide)).mp htext
  exact ⟨Or.inl (by decide), fun hnil => absurd hnil (by decide), fun _ _ => by decide,
    fun _ _ => ⟨"80".toList, by decide, [], by decide, rfl⟩⟩

/-- Two dots together are accepted, and without a port a null pointer is followed. -/
theorem twoDots_not_exactlyIpPort :
    ¬ ExactlyIpPort "1..2.3.4:80".toList ∧ ¬ ExactlyIpPort "1.2.3.4:".toList := by
  constructor
  · intro h
    obtain ⟨addr, digits, hendpt⟩ := h.accepted.mp ⟨"1..2.3.4".toList, 80, rfl⟩
    have hpasses := @EndpointOf.parts "1..2.3.4".toList "80".toList addr digits hendpt (by decide) (by decide)
    have hdots := (hpasses.1 ▸ hendpt.address).count_dots
    exact absurd hdots (by decide)
  · exact fun h => h.noCrash rfl

end TcpClb
