import TcpClb.EndpointValidation

/-!
# The text of a configuration

A configuration written as it stands in `tcp_clb.cfg`: a line with the endpoints of the peers and a line with the number
of worker threads. `main` reads lines into a buffer of 1024 characters, so it finds the first line whole exactly if there
is room for it.
-/

namespace TcpClb

open TcpClb.Common

/-- The address and the port of a peer. -/
structure Endpoint where
  a : Fin 256
  b : Fin 256
  c : Fin 256
  d : Fin 256
  port : Fin 65536

/-- The address between dots. -/
def Endpoint.address (e : Endpoint) : List Char :=
  printPadded 0 e.a ++ '.' :: (printPadded 0 e.b ++ '.' :: (printPadded 0 e.c ++ '.' :: printPadded 0 e.d))

/-- The text of the port. -/
def Endpoint.digits (e : Endpoint) : List Char := printPadded 0 e.port

/-- An endpoint as text. -/
def Endpoint.text (e : Endpoint) : List Char := e.address ++ ':' :: e.digits

/-- What a configuration says: all peers but the last, the last, and the number of worker threads. -/
structure Settings where
  front : List Endpoint
  last : Endpoint
  numWorkerThreads : Fin 33

/-- The endpoints of all peers. -/
def Settings.endpoints (c : Settings) : List Endpoint := c.front ++ [c.last]

/-- All endpoints but the last, with the commas behind them. -/
def Settings.frontText (c : Settings) : List Char := (c.front.map Endpoint.text).flatMap fun t => t ++ [',']

/-- The line with the endpoints, up to its newline. -/
def Settings.gwText (c : Settings) : List Char := ['G', 'W'] ++ '=' :: (c.frontText ++ c.last.text)

/-- The line with the number of worker threads. -/
def Settings.wtText (c : Settings) : List Char := ['W', 'T'] ++ '=' :: printPadded 0 c.numWorkerThreads

/-- The file. -/
def Settings.content (c : Settings) : List Char := c.gwText ++ '\n' :: (c.wtText ++ ['\n'])

section Numbers

/-- A number is printed in digits. -/
theorem numberUpTo_printPadded {k n : ℕ} (h : n ≤ k) : NumberUpTo k (printPadded 0 n) := by
  refine ⟨fun hnil => ?_, isDigit_of_mem_printPadded 0 n, by rw [ofDigitChars_printPadded]; exact h⟩
  have hvalue := ofDigitChars_printPadded 0 n
  rw [hnil] at hvalue
  obtain rfl : n = 0 := hvalue.symm
  cases hnil

/-- A number below 256 has at most three digits. -/
theorem length_octet_le (n : Fin 256) : (printPadded 0 (n : ℕ)).length ≤ 3 := by
  have hlt := (length_printPadded_zero_lt_iff 3 n (by decide)).mpr (by omega)
  omega

end Numbers

section Endpoints

variable (e : Endpoint)

/-- The address has room in an entry. -/
theorem Endpoint.length_address_lt : e.address.length < 16 := by
  have ha := length_octet_le e.a
  have hb := length_octet_le e.b
  have hc := length_octet_le e.c
  have hd := length_octet_le e.d
  simp only [Endpoint.address, List.length_append, List.length_cons]
  omega

/-- It is an address. -/
theorem Endpoint.isAddress : IsAddress e.address := by
  refine ⟨_, _, _, _, rfl, ?_⟩
  simp only [List.forall_mem_cons, List.not_mem_nil, false_imp_iff, implies_true, and_true]
  exact ⟨numberUpTo_printPadded (by omega), numberUpTo_printPadded (by omega), numberUpTo_printPadded (by omega),
    numberUpTo_printPadded (by omega)⟩

/-- The port is printed in digits. -/
theorem Endpoint.numberUpTo_digits : NumberUpTo 65535 e.digits := numberUpTo_printPadded (by omega)

/-- An endpoint has one colon. -/
theorem Endpoint.notMem_colon {ending : List Char} (hending : ending ∈ [[], ['\n']]) :
    ':' ∉ e.address ∧ ':' ∉ e.digits ++ ending := by
  refine ⟨e.isAddress.not_mem, ?_⟩
  rw [List.mem_append, not_or]
  refine ⟨e.numberUpTo_digits.not_mem (by decide), ?_⟩
  rcases List.mem_pair.mp hending with rfl | rfl <;> decide

/-- `validateIpPort` reads an endpoint back. -/
theorem Endpoint.validate {ending : List Char} (hending : ending ∈ [[], ['\n']]) :
    chkCnt (e.text ++ ending) ':' = 1 ∧ validateIpPort (e.text ++ ending) = .ok (e.address, e.port) := by
  obtain ⟨haddr, hport⟩ := e.notMem_colon hending
  have htext : e.text ++ ending = e.address ++ ':' :: (e.digits ++ ending) := by simp [Endpoint.text]
  have hendpoint : EndpointOf (e.address ++ ':' :: (e.digits ++ ending)) e.address e.digits :=
    ⟨e.isAddress, e.numberUpTo_digits, ending, hending, rfl⟩
  obtain ⟨_, hloose, hread, hvalue⟩ := hendpoint.passes haddr hport
  have hne : e.digits ++ ending ≠ [] := List.append_ne_nil_of_left_ne_nil e.numberUpTo_digits.1 ending
  have hdigits : Nat.ofDigitChars 10 e.digits 0 = e.port := ofDigitChars_printPadded 0 e.port
  rw [htext, validateIpPort_append_cons hloose.ne_nil haddr hport, if_pos ((chkIP_iff _).mpr hloose), if_neg hne,
    if_pos ((chkPort_iff _).mpr hread), hvalue, hdigits, chkCnt]
  simp [List.count_eq_zero.mpr haddr, List.count_eq_zero.mpr hport]

/-- An endpoint consists of digits, dots and its colon. -/
theorem Endpoint.notMem_text {x : Char} (hdigit : x.isDigit = false) (hdot : x ≠ '.') (hcolon : x ≠ ':') :
    x ∉ e.text := by
  have hnumber (n : ℕ) : x ∉ printPadded 0 n := by
    intro hmem
    rw [isDigit_of_mem_printPadded 0 n x hmem] at hdigit
    cases hdigit
  simp [Endpoint.text, Endpoint.address, Endpoint.digits, hnumber, hdot, hcolon]

end Endpoints

section Lines

/-- A line that has room is read with its newline. -/
theorem fgetsFrom_line {size : ℕ} {cur t : List Char} (rest : List Char) (ht : '\n' ∉ t)
    (hroom : cur.length + t.length + 1 < size) :
    fgetsFrom size cur (t ++ '\n' :: rest) = (cur ++ t ++ ['\n']) :: fgetsFrom size [] rest := by
  induction t generalizing cur with
  | nil => rw [List.nil_append, fgetsFrom, if_pos (Or.inl rfl), List.append_nil]
  | cons c t ih =>
    obtain ⟨hc, ht⟩ := List.ne_and_not_mem_of_not_mem_cons ht
    rw [List.length_cons] at hroom
    have hgoesOn : ¬ (c = '\n' ∨ cur.length + 2 = size) := fun h => h.elim (fun h => hc h.symm) fun h => by omega
    have hrest := @ih (cur ++ [c]) ht (by rw [List.length_append, List.length_singleton]; omega)
    rw [List.cons_append, fgetsFrom, if_neg hgoesOn, hrest, List.append_assoc cur, List.singleton_append]

/-- A longer line is cut where the buffer is full. -/
theorem fgetsFrom_full {size : ℕ} {cur t : List Char} (rest : List Char) (ht : '\n' ∉ t) (hne : t ≠ [])
    (hfull : cur.length + t.length + 1 = size) :
    fgetsFrom size cur (t ++ rest) = (cur ++ t) :: fgetsFrom size [] rest := by
  induction t generalizing cur with
  | nil => exact absurd rfl hne
  | cons c t ih =>
    obtain ⟨hc, ht⟩ := List.ne_and_not_mem_of_not_mem_cons ht
    rw [List.length_cons] at hfull
    by_cases hlast : t = []
    · subst hlast
      have hstop : c = '\n' ∨ cur.length + 2 = size := Or.inr hfull
      rw [List.cons_append, fgetsFrom, if_pos hstop, List.nil_append]
    · have hpos := List.length_pos_of_ne_nil hlast
      have hgoesOn : ¬ (c = '\n' ∨ cur.length + 2 = size) := fun h => h.elim (fun h => hc h.symm) fun h => by omega
      have hrest := @ih (cur ++ [c]) ht hlast (by rw [List.length_append, List.length_singleton]; omega)
      rw [List.cons_append, fgetsFrom, if_neg hgoesOn, hrest, List.append_assoc, List.singleton_append]

/-- Lines contain nothing that is not in the file. -/
theorem mem_of_mem_fgetsFrom {size : ℕ} {cur text line : List Char} (hline : line ∈ fgetsFrom size cur text) :
    ∀ c ∈ line, c ∈ cur ∨ c ∈ text := by
  induction text generalizing cur with
  | nil =>
    intro c hc
    rw [fgetsFrom] at hline
    split at hline
    · cases hline
    · rw [List.mem_singleton.mp hline] at hc
      exact Or.inl hc
  | cons d rest ih =>
    intro c hc
    rw [fgetsFrom] at hline
    split at hline
    · rcases List.mem_cons.mp hline with rfl | hline
      · refine (List.mem_append.mp hc).imp_right fun h => ?_
        rw [List.mem_singleton.mp h]
        exact List.mem_cons_self
      · exact Or.inr (List.mem_cons_of_mem _ ((ih hline c hc).resolve_left List.not_mem_nil))
    · rcases ih hline c hc with h | h
      · refine (List.mem_append.mp h).imp_right fun h => ?_
        rw [List.mem_singleton.mp h]
        exact List.mem_cons_self
      · exact Or.inr (List.mem_cons_of_mem _ h)

/-- A text without NUL is a string. -/
theorem cString_eq_self {t : List Char} (ht : '\x00' ∉ t) : cString t = t := by
  refine List.takeWhile_eq_self_iff.mpr fun c hc => decide_eq_true ?_
  rintro rfl
  exact ht hc

end Lines

section Content

variable (c : Settings)

/-- What stands behind the `=` consists of digits, dots, colons and commas. -/
theorem Settings.notMem_value {x : Char} (hdigit : x.isDigit = false) (hdot : x ≠ '.') (hcolon : x ≠ ':')
    (hcomma : x ≠ ',') : x ∉ c.frontText ++ c.last.text := by
  simp [Settings.frontText, Endpoint.notMem_text _ hdigit hdot hcolon, hcomma]

/-- The line with the endpoints has no newline and no NUL. -/
theorem Settings.notMem_gwText : '\n' ∉ c.gwText ∧ '\x00' ∉ c.gwText := by
  have hnewline := c.notMem_value (x := '\n') (by decide) (by decide) (by decide) (by decide)
  have hnul := c.notMem_value (x := '\x00') (by decide) (by decide) (by decide) (by decide)
  rw [Settings.gwText]
  constructor
  · simpa using hnewline
  · simpa using hnul

/-- The line with the number of threads has no newline, no NUL and no `G`. -/
theorem Settings.notMem_wtText : '\n' ∉ c.wtText ∧ '\x00' ∉ c.wtText ∧ 'G' ∉ c.wtText := by
  have hnumber (x : Char) (hdigit : x.isDigit = false) : x ∉ printPadded 0 (c.numWorkerThreads : ℕ) := by
    intro hmem
    rw [isDigit_of_mem_printPadded 0 _ x hmem] at hdigit
    cases hdigit
  simp [Settings.wtText, hnumber]

/-- The line with the number of threads has room. -/
theorem Settings.length_wtText : c.wtText.length < 1023 := by
  have hlt := (length_printPadded_zero_lt_iff 2 (c.numWorkerThreads : ℕ) (by decide)).mpr (by omega)
  simp only [Settings.wtText, List.length_append, List.length_cons, List.length_nil]
  omega

/-- The last line is read with its newline. -/
theorem Settings.fgets_wtText : fgetsFrom 1024 [] (c.wtText ++ ['\n']) = [c.wtText ++ ['\n']] := by
  have hroom := c.length_wtText
  rw [fgetsFrom_line [] c.notMem_wtText.1 (by rw [List.length_nil]; omega), List.nil_append]
  rfl

/-- If there is room for the line with the endpoints, it is read whole, with its newline or without. -/
theorem Settings.configLines_whole (hroom : c.gwText.length < 1024) : ∃ ending ∈ [[], ['\n']],
    ∃ between ∈ [[], [['\n']]], configLines c.content = (c.gwText ++ ending) :: (between ++ [c.wtText ++ ['\n']]) := by
  obtain ⟨hnewline, hnul⟩ := c.notMem_gwText
  have hwt : cString (c.wtText ++ ['\n']) = c.wtText ++ ['\n'] :=
    cString_eq_self (by simpa using c.notMem_wtText.2.1)
  by_cases hfull : c.gwText.length + 1 = 1024
  · refine ⟨[], by simp, [['\n']], by simp, ?_⟩
    have hne : c.gwText ≠ [] := List.cons_ne_nil _ _
    have hempty := @fgetsFrom_line 1024 [] [] (c.wtText ++ ['\n']) List.not_mem_nil (by decide)
    rw [configLines, Settings.content, fgetsFrom_full _ hnewline hne (by rw [List.length_nil]; omega)]
    rw [List.nil_append] at hempty
    rw [hempty, c.fgets_wtText]
    simp only [List.map_cons, List.map_nil, List.nil_append, List.append_nil, hwt, cString_eq_self hnul]
    rfl
  · refine ⟨['\n'], by simp, [], by simp, ?_⟩
    rw [configLines, Settings.content, fgetsFrom_line _ hnewline (by rw [List.length_nil]; omega), c.fgets_wtText]
    have hline : cString (c.gwText ++ ['\n']) = c.gwText ++ ['\n'] := cString_eq_self (by simpa using hnul)
    simp only [List.map_cons, List.map_nil, List.nil_append, hwt, hline]

/-- If there is no room, it is cut, and what is left of it looks like no line with endpoints. -/
theorem Settings.configLines_cut (hlong : 1024 ≤ c.gwText.length) : ∃ later,
    configLines c.content = c.gwText.take 1023 :: later ∧ ∀ line ∈ later, 'G' ∉ line := by
  obtain ⟨hnewline, hnul⟩ := c.notMem_gwText
  have hsplit : c.content = c.gwText.take 1023 ++ (c.gwText.drop 1023 ++ '\n' :: (c.wtText ++ ['\n'])) := by
    rw [Settings.content, ← List.append_assoc, List.take_append_drop]
  have hlength : (c.gwText.take 1023).length = 1023 := by
    rw [List.length_take]
    omega
  have hne : c.gwText.take 1023 ≠ [] := List.ne_nil_of_length_pos (by omega)
  have hfirst := @fgetsFrom_full 1024 [] _ (c.gwText.drop 1023 ++ '\n' :: (c.wtText ++ ['\n']))
    (fun h => hnewline (List.take_subset _ _ h)) hne (by rw [List.length_nil]; omega)
  rw [configLines, hsplit, hfirst, List.map_cons, List.nil_append,
    cString_eq_self fun h => hnul (List.take_subset _ _ h)]
  refine ⟨_, rfl, fun line hline hmem => ?_⟩
  obtain ⟨read, hread, rfl⟩ := List.mem_map.mp hline
  have hrest := (mem_of_mem_fgetsFrom hread 'G' ((List.takeWhile_sublist _).subset hmem)).resolve_left List.not_mem_nil
  have hvalue := c.notMem_value (x := 'G') (by decide) (by decide) (by decide) (by decide)
  rw [List.mem_append, List.mem_cons, List.mem_append] at hrest
  rcases hrest with hdrop | heq | hwt | hlast
  · have hthree : c.gwText.drop 1023 = (c.frontText ++ c.last.text).drop 1020 := rfl
    rw [hthree] at hdrop
    exact hvalue (List.drop_subset _ _ hdrop)
  · cases heq
  · exact c.notMem_wtText.2.2 hwt
  · cases List.mem_singleton.mp hlast

end Content

end TcpClb
