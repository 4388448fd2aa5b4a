import TcpClb.MessagePass

/-!
# What `parse_xml_attribute` reads

The function again, now on the buffer as it is in memory, with a NUL behind the message, and with every
position of it that is read. `strncmp` stops at the first difference, and as no key has a NUL, it stops at the
NUL of the buffer at the latest. The index moves on twice behind a start key, but it only gets to the place
after that NUL, and there the loop ends.
-/

namespace TcpClb

open TcpClb.Common

/-- `strncmp(&in[i], key, strlen(key))`: the positions that are read, and whether the key is found there. -/
def strncmpAt (buf : List Char) : ℕ → List Char → List ℕ × Bool
  | _, [] => ([], true)
  | i, c :: key =>
    if buf[i]? = some c then
      let rest := strncmpAt buf (i + 1) key
      (i :: rest.1, rest.2)
    else ([i], false)

/-- The positions that `printf("%.*s", n, in + j)` reads: `n` characters, or up to a NUL. -/
def printfReads (buf : List Char) : ℕ → ℕ → List ℕ
  | 0, _ => []
  | n + 1, j => j :: if buf[j]? = some '\x00' then [] else printfReads buf n (j + 1)

/-- A round of the loop: the index at its test, and the positions that are read in it. -/
structure ScanRound where
  i : ℕ
  reads : List ℕ
  deriving DecidableEq

/-- The loop: its rounds, and where it returns, `i` and `j`. -/
def scanRounds (buf : List Char) (inLen : ℕ) (startKey endKey : List Char) :
    ℕ → ℕ → ℕ → Option (List ScanRound × Option (ℕ × ℕ))
  | 0, _, _ => none
  | rounds + 1, i, j =>
    if i < inLen then
      let start := strncmpAt buf i startKey
      if start.2 then
        (scanRounds buf inLen startKey endKey rounds (i + startKey.length + 1) (i + startKey.length)).map
          fun rest => (⟨i, start.1⟩ :: rest.1, rest.2)
      else
        let stop := strncmpAt buf i endKey
        if stop.2 then
          -- a negative precision would be as none at all
          let precision := if j ≤ i then i - j else buf.length
          some ([⟨i, start.1 ++ stop.1 ++ printfReads buf precision j⟩], some (i, j))
        else
          (scanRounds buf inLen startKey endKey rounds (i + 1) j).map
            fun rest => (⟨i, start.1 ++ stop.1⟩ :: rest.1, rest.2)
    else some ([⟨i, []⟩], none)

/-- `parse_xml_attribute` on a buffer: the rounds, before them that of `*in`, and the result. -/
def parseXmlTrace (buf : List Char) (inLen : ℕ) (startKey endKey : List Char) :
    Option (List ScanRound × ℤ × Xchar) :=
  if buf[0]? = some '\x00' then some ([⟨0, [0]⟩], 0, ⟨0, none⟩)
  else (scanRounds buf inLen startKey endKey (inLen + 1) 0 0).map fun run =>
    (⟨0, [0]⟩ :: run.1, match run.2 with
      | some (i, j) => (1, ⟨(i : ℤ) - j, some j⟩)
      | none => (0, ⟨0, none⟩))

/-- The message in memory. -/
def terminated (text : List Char) : List Char := text ++ ['\x00']

/-- The function returns what the workers get of the message, reads nothing behind the NUL of the buffer, and the
span that it finds lies in the message, so there are as many characters to copy as its length says. -/
structure StaysInBounds (text startKey endKey : List Char) : Prop where
  returns : (parseXmlTrace (terminated text) text.length startKey endKey).isSome
  result : ∀ trace result, parseXmlTrace (terminated text) text.length startKey endKey = some (trace, result) →
    parseXmlBytes text startKey endKey = result
  reads : ∀ trace result, parseXmlTrace (terminated text) text.length startKey endKey = some (trace, result) →
    ∀ round ∈ trace, ∀ k ∈ round.reads, k ≤ text.length
  index : ∀ trace result, parseXmlTrace (terminated text) text.length startKey endKey = some (trace, result) →
    ∀ round ∈ trace, round.i ≤ text.length + 1
  span : ∀ trace out, parseXmlTrace (terminated text) text.length startKey endKey = some (trace, 1, out) →
    ∃ j : ℕ, out.s = some j ∧ 0 ≤ out.len ∧ j + out.len ≤ text.length ∧ (out.chars text).length = out.len

section Reads

variable {text key startKey endKey : List Char} {i j : ℕ}

/-- In the buffer there is the message up to the NUL. -/
theorem getElem?_terminated (text : List Char) (i : ℕ) :
    (terminated text)[i]? = if i = text.length then some '\x00' else text[i]? := by
  unfold terminated
  rcases Nat.lt_trichotomy i text.length with hlt | rfl | hgt
  · rw [List.getElem?_append_left hlt, if_neg (Nat.ne_of_lt hlt)]
  · rw [List.getElem?_concat_length, if_pos rfl]
  · rw [List.getElem?_eq_none (by simp; omega), List.getElem?_eq_none (Nat.le_of_lt hgt),
      if_neg (Nat.ne_of_gt hgt)]

/-- A character of a key is only found before the NUL. -/
theorem lt_length_of_terminated {c : Char} (hi : i ≤ text.length) (hc : c ≠ '\x00')
    (hget : (terminated text)[i]? = some c) : i < text.length ∧ text[i]? = some c := by
  rw [getElem?_terminated] at hget
  by_cases hend : i = text.length
  · rw [if_pos hend] at hget
    exact absurd (Option.some.inj hget).symm hc
  · rw [if_neg hend] at hget
    exact ⟨by omega, hget⟩

/-- A comparison reads nothing behind the NUL. -/
theorem strncmpAt_reads (hi : i ≤ text.length) (hkey : '\x00' ∉ key) :
    ∀ k ∈ (strncmpAt (terminated text) i key).1, k ≤ text.length := by
  induction key generalizing i with
  | nil => exact fun k hk => absurd hk List.not_mem_nil
  | cons c key ih =>
    obtain ⟨hc, hrest⟩ := not_or.mp (mt List.mem_cons.mpr hkey)
    unfold strncmpAt
    by_cases hget : (terminated text)[i]? = some c
    · have hlt := (lt_length_of_terminated hi (Ne.symm hc) hget).1
      rw [if_pos hget]
      exact List.forall_mem_cons.mpr ⟨hi, ih hlt hrest⟩
    · rw [if_neg hget]
      exact fun k hk => (List.mem_singleton.mp hk).symm ▸ hi

/-- It finds the key where the key occurs in the message. -/
theorem strncmpAt_iff (hi : i ≤ text.length) (hkey : '\x00' ∉ key) :
    (strncmpAt (terminated text) i key).2 = true ↔ OccursAt key text i := by
  induction key generalizing i with
  | nil => exact iff_of_true rfl List.nil_prefix
  | cons c key ih =>
    obtain ⟨hc, hrest⟩ := not_or.mp (mt List.mem_cons.mpr hkey)
    unfold strncmpAt OccursAt
    by_cases hlt : i < text.length
    · have hhead : (terminated text)[i]? = some text[i] := by
        rw [getElem?_terminated, if_neg (Nat.ne_of_lt hlt), List.getElem?_eq_getElem hlt]
      rw [List.drop_eq_getElem_cons hlt, List.cons_prefix_cons]
      by_cases hsame : text[i] = c
      · rw [if_pos (hhead.trans (congrArg some hsame))]
        exact (ih hlt hrest).trans (and_iff_right hsame.symm).symm
      · rw [if_neg fun h => hsame (Option.some.inj (hhead.symm.trans h))]
        exact iff_of_false Bool.false_ne_true fun h => hsame h.1.symm
    · have hend : i = text.length := by omega
      have hnul : ¬ (terminated text)[i]? = some c := by
        rw [getElem?_terminated, if_pos hend]
        exact fun h => hc (Option.some.inj h)
      rw [if_neg hnul, List.drop_of_length_le (Nat.le_of_not_lt hlt)]
      exact iff_of_false Bool.false_ne_true fun h => absurd (List.prefix_nil.mp h) (List.cons_ne_nil c key)

/-- What is printed lies in the message. -/
theorem printfReads_lt (buf : List Char) (n j : ℕ) : ∀ k ∈ printfReads buf n j, k < j + n := by
  induction n generalizing j with
  | zero => exact fun k hk => absurd hk List.not_mem_nil
  | succ n ih =>
    rw [printfReads]
    refine List.forall_mem_cons.mpr ⟨by omega, fun k hk => ?_⟩
    split at hk
    · cases hk
    · have hlt := ih (j + 1) k hk
      omega

/-- A round ends the loop behind the message, goes on behind a start key, returns at an end key, or goes on by one
place. -/
theorem scanRounds_succ {buf : List Char} {inLen rounds : ℕ} {trace : List ScanRound} {found : Option (ℕ × ℕ)}
    (hrun : scanRounds buf inLen startKey endKey (rounds + 1) i j = some (trace, found)) :
    (¬ i < inLen ∧ trace = [⟨i, []⟩] ∧ found = none) ∨
      i < inLen ∧
        (((strncmpAt buf i startKey).2 = true ∧ ∃ more, trace = ⟨i, (strncmpAt buf i startKey).1⟩ :: more ∧
            scanRounds buf inLen startKey endKey rounds (i + startKey.length + 1) (i + startKey.length) =
              some (more, found)) ∨
          ¬ (strncmpAt buf i startKey).2 = true ∧
            (((strncmpAt buf i endKey).2 = true ∧ found = some (i, j) ∧
                trace = [⟨i, (strncmpAt buf i startKey).1 ++ (strncmpAt buf i endKey).1 ++
                  printfReads buf (if j ≤ i then i - j else buf.length) j⟩]) ∨
              ¬ (strncmpAt buf i endKey).2 = true ∧
                ∃ more, trace = ⟨i, (strncmpAt buf i startKey).1 ++ (strncmpAt buf i endKey).1⟩ :: more ∧
                  scanRounds buf inLen startKey endKey rounds (i + 1) j = some (more, found))) := by
  rw [scanRounds] at hrun
  dsimp only at hrun
  split at hrun
  · next hlt =>
    refine Or.inr ⟨hlt, ?_⟩
    split at hrun
    · next hstart =>
      obtain ⟨⟨more, found'⟩, hrest, heq⟩ := Option.map_eq_some_iff.mp hrun
      obtain ⟨rfl, rfl⟩ := Prod.mk.inj heq
      exact Or.inl ⟨hstart, more, rfl, hrest⟩
    · next hstart =>
      refine Or.inr ⟨hstart, ?_⟩
      split at hrun
      · next hstop =>
        obtain ⟨rfl, rfl⟩ := Prod.mk.inj (Option.some.inj hrun)
        exact Or.inl ⟨hstop, rfl, rfl⟩
      · next hstop =>
        obtain ⟨⟨more, found'⟩, hrest, heq⟩ := Option.map_eq_some_iff.mp hrun
        obtain ⟨rfl, rfl⟩ := Prod.mk.inj heq
        exact Or.inr ⟨hstop, more, rfl, hrest⟩
  · next hlt =>
    obtain ⟨rfl, rfl⟩ := Prod.mk.inj (Option.some.inj hrun)
    exact Or.inl ⟨hlt, rfl, rfl⟩

/-- What the loop does from a round on, with `j` behind no later round: it reads nothing behind the NUL, gets no
further than the place after it, and returns inside the message. -/
theorem scanRounds_inBounds {rounds : ℕ} {trace : List ScanRound} {found : Option (ℕ × ℕ)}
    (hstart : '\x00' ∉ startKey) (hend : '\x00' ∉ endKey) (hji : j ≤ i) (hi : i ≤ text.length + 1)
    (hrun : scanRounds (terminated text) text.length startKey endKey rounds i j = some (trace, found)) :
    (∀ round ∈ trace, round.i ≤ text.length + 1 ∧ ∀ k ∈ round.reads, k ≤ text.length) ∧
      ∀ i' j', found = some (i', j') → j' ≤ i' ∧ i' < text.length := by
  induction rounds generalizing i j trace with
  | zero => cases hrun
  | succ rounds ih =>
    rcases scanRounds_succ hrun with ⟨_, rfl, rfl⟩ | ⟨hlt, hround⟩
    · refine ⟨List.forall_mem_singleton.mpr ⟨hi, fun k hk => absurd hk List.not_mem_nil⟩, fun i' j' h => ?_⟩
      cases h
    · have hreads := strncmpAt_reads (Nat.le_of_lt hlt) hstart
      have hreads' := strncmpAt_reads (Nat.le_of_lt hlt) hend
      rcases hround with ⟨hfound, more, rfl, hrest⟩ | ⟨_, ⟨_, rfl, rfl⟩ | ⟨_, more, rfl, hrest⟩⟩
      · have hinside := ((strncmpAt_iff (Nat.le_of_lt hlt) hstart).mp hfound).end_le (Nat.le_of_lt hlt)
        obtain ⟨hrounds, hspan⟩ := ih (by omega) (by omega) hrest
        exact ⟨List.forall_mem_cons.mpr ⟨⟨hi, hreads⟩, hrounds⟩, hspan⟩
      · refine ⟨List.forall_mem_singleton.mpr ⟨hi, fun k hk => ?_⟩, fun i' j' h => ?_⟩
        · rcases List.mem_append.mp hk with hcompared | hprinted
          · exact (List.mem_append.mp hcompared).elim (hreads k) (hreads' k)
          · rw [if_pos hji] at hprinted
            have hbefore := printfReads_lt _ _ _ k hprinted
            omega
        · obtain ⟨rfl, rfl⟩ := Prod.mk.inj (Option.some.inj h)
          exact ⟨hji, hlt⟩
      · obtain ⟨hrounds, hspan⟩ := ih (by omega) (by omega) hrest
        refine ⟨List.forall_mem_cons.mpr ⟨⟨hi, fun k hk => ?_⟩, hrounds⟩, hspan⟩
        exact (List.mem_append.mp hk).elim (hreads k) (hreads' k)

/-- Every round moves on, so as many rounds as there are characters and one more are enough. -/
theorem scanRounds_isSome (buf : List Char) (inLen rounds i j : ℕ) (hrounds : inLen - i < rounds) :
    (scanRounds buf inLen startKey endKey rounds i j).isSome := by
  induction rounds generalizing i j with
  | zero => exact absurd hrounds (Nat.not_lt_zero _)
  | succ rounds ih =>
    rw [scanRounds]
    split
    · dsimp only
      split
      · rw [Option.isSome_map]
        exact ih _ _ (by omega)
      · split
        · rfl
        · rw [Option.isSome_map]
          exact ih _ _ (by omega)
    · rfl

/-- The loop finds what it finds in the message by itself. -/
theorem xmlScan_of_scanRounds {rounds : ℕ} {trace : List ScanRound} {found : Option (ℕ × ℕ)}
    (hstart : '\x00' ∉ startKey) (hend : '\x00' ∉ endKey)
    (hrun : scanRounds (terminated text) text.length startKey endKey rounds i j = some (trace, found)) :
    xmlScan text startKey endKey rounds i j = found := by
  induction rounds generalizing i j trace with
  | zero => cases hrun
  | succ rounds ih =>
    rw [xmlScan]
    rcases scanRounds_succ hrun with ⟨hlt, _, rfl⟩ | ⟨hlt, hround⟩
    · rw [if_neg hlt]
    · have hstarts := strncmpAt_iff (Nat.le_of_lt hlt) hstart
      have hends := strncmpAt_iff (Nat.le_of_lt hlt) hend
      rw [if_pos hlt]
      rcases hround with ⟨hfound, more, _, hrest⟩ | ⟨hnot, ⟨hfound, rfl, _⟩ | ⟨hnot', more, _, hrest⟩⟩
      · rw [if_pos (hstarts.mp hfound)]
        exact ih hrest
      · rw [if_neg fun h => hnot (hstarts.mpr h), if_pos (hends.mp hfound)]
      · rw [if_neg fun h => hnot (hstarts.mpr h), if_neg fun h => hnot' (hends.mpr h)]
        exact ih hrest

/-- What the function does: nothing but look at the first byte, or go through the rounds of its loop. -/
theorem parseXmlTrace_cases {trace : List ScanRound} {result : ℤ × Xchar}
    (hparse : parseXmlTrace (terminated text) text.length startKey endKey = some (trace, result)) :
    (terminated text)[0]? = some '\x00' ∧ trace = [⟨0, [0]⟩] ∧ result = (0, ⟨0, none⟩) ∨
      ¬ (terminated text)[0]? = some '\x00' ∧ ∃ more found, trace = ⟨0, [0]⟩ :: more ∧
        scanRounds (terminated text) text.length startKey endKey (text.length + 1) 0 0 = some (more, found) ∧
        result = match found with
          | some (i, j) => (1, ⟨(i : ℤ) - j, some j⟩)
          | none => (0, ⟨0, none⟩) := by
  unfold parseXmlTrace at hparse
  split at hparse
  · next hnul =>
    cases hparse
    exact Or.inl ⟨hnul, rfl, rfl⟩
  · next hnul =>
    obtain ⟨⟨more, found⟩, hrun, heq⟩ := Option.map_eq_some_iff.mp hparse
    obtain ⟨rfl, rfl⟩ := Prod.mk.inj heq
    exact Or.inr ⟨hnul, more, found, rfl, hrun, rfl⟩

/-- It returns and stores what it does in the model that has no buffer. -/
theorem parseXmlBytes_of_parseXmlTrace {trace : List ScanRound} {result : ℤ × Xchar}
    (hstart : '\x00' ∉ startKey) (hend : '\x00' ∉ endKey)
    (hparse : parseXmlTrace (terminated text) text.length startKey endKey = some (trace, result)) :
    parseXmlBytes text startKey endKey = result := by
  have hfirst : (terminated text)[0]? = if text = [] then some '\x00' else text.head? := by
    rw [getElem?_terminated, List.head?_eq_getElem?]
    cases text <;> simp
  unfold parseXmlBytes parseXmlAttribute
  rcases parseXmlTrace_cases hparse with ⟨hnul, _, rfl⟩ | ⟨hnul, more, found, _, hrun, rfl⟩
  · rw [hfirst] at hnul
    split
    · rfl
    · next hother =>
      by_cases hempty : text = []
      · rw [if_pos hempty]
      · rw [if_neg hempty] at hnul
        exact absurd hnul hother
  · rw [hfirst] at hnul
    have hne : text ≠ [] := by
      rintro rfl
      exact hnul rfl
    rw [if_neg hne] at hnul
    have hscan := xmlScan_of_scanRounds hstart hend hrun
    rw [xmlScan_rounds text startKey endKey (text.length + 1) 0 0 (by omega), Nat.sub_zero] at hscan
    rw [if_neg hnul, if_neg hne]
    cases found with
    | none => simp only [hscan]
    | some place => simp only [hscan]

end Reads

/-- For every message, whatever bytes it has, and all keys, the function stays in bounds. -/
theorem parseXmlAttribute_staysInBounds (text startKey endKey : List Char) (hstart : '\x00' ∉ startKey)
    (hend : '\x00' ∉ endKey) : StaysInBounds text startKey endKey := by
  have hrounds {more : List ScanRound} {found : Option (ℕ × ℕ)}
      (hrun : scanRounds (terminated text) text.length startKey endKey (text.length + 1) 0 0 = some (more, found)) :=
    scanRounds_inBounds hstart hend le_rfl (Nat.zero_le _) hrun
  have htrace {trace : List ScanRound} {result : ℤ × Xchar}
      (hparse : parseXmlTrace (terminated text) text.length startKey endKey = some (trace, result)) :
      ∀ round ∈ trace, round.i ≤ text.length + 1 ∧ ∀ k ∈ round.reads, k ≤ text.length := by
    have hfirst : (0 ≤ text.length + 1) ∧ ∀ k ∈ [0], k ≤ text.length :=
      ⟨Nat.zero_le _, List.forall_mem_singleton.mpr (Nat.zero_le _)⟩
    rcases parseXmlTrace_cases hparse with ⟨_, rfl, _⟩ | ⟨_, more, found, rfl, hrun, _⟩
    · exact List.forall_mem_singleton.mpr hfirst
    · exact List.forall_mem_cons.mpr ⟨hfirst, (hrounds hrun).1⟩
  refine ⟨?_, fun trace result => parseXmlBytes_of_parseXmlTrace hstart hend,
    fun trace result hparse round hround => (htrace hparse round hround).2,
    fun trace result hparse round hround => (htrace hparse round hround).1, fun trace out hparse => ?_⟩
  · unfold parseXmlTrace
    split
    · rfl
    · rw [Option.isSome_map]
      exact scanRounds_isSome _ _ _ _ _ (by omega)
  · rcases parseXmlTrace_cases hparse with ⟨_, _, hresult⟩ | ⟨_, more, found, _, hrun, hresult⟩
    · cases hresult
    · cases found with
      | none => cases hresult
      | some place =>
        obtain ⟨i, j⟩ := place
        obtain ⟨-, rfl⟩ := Prod.mk.inj hresult
        obtain ⟨hji, hi⟩ := (hrounds hrun).2 i j rfl
        refine ⟨j, rfl, by dsimp only; omega, by dsimp only; omega, ?_⟩
        change (((text.drop j).take ((i : ℤ) - j).toNat).length : ℤ) = (i : ℤ) - j
        rw [List.length_take, List.length_drop]
        omega

/-- The keys of a transaction id, in a message with NUL. -/
theorem tid_staysInBounds : StaysInBounds "x\x00<TID>7</TID>".toList "<TID>".toList "</TID>".toList :=
  parseXmlAttribute_staysInBounds _ _ _ (by decide) (by decide)

end TcpClb
