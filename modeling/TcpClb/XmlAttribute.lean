import TcpClb.Common.Occurrences
import Mathlib.Data.Int.Notation

/-!
# The scan of `parse_xml_attribute`

The loop looks for both keys at one position after the other. Where the start key occurs it moves
behind the key, remembers that place, and then the loop header skips one more character. The first
end key it comes upon ends it. The start and end key of a tag have a `<` at the front and nowhere
else, so their occurrences do not overlap.

The model follows the loop for as many rounds as the text has characters, which is enough because
every round moves on. The theorems state its rounds without that bound.
-/

namespace TcpClb

open TcpClb.Common

/-- A tag name. -/
structure TagName where
  chars : List Char
  plain : '<' ∉ chars

/-- `<TAG>`. -/
def TagName.startKey (tag : TagName) : List Char := '<' :: (tag.chars ++ ['>'])

/-- `</TAG>`. -/
def TagName.endKey (tag : TagName) : List Char := '<' :: '/' :: (tag.chars ++ ['>'])

/-- `xchar`; the pointer is a position in the message, `none` for `NULL`. -/
structure Xchar where
  len : ℤ
  s : Option ℕ
  deriving DecidableEq

/-- The loop of `parse_xml_attribute`: where it returns, `i` and `j`. -/
def xmlScan (text startKey endKey : List Char) : ℕ → ℕ → ℕ → Option (ℕ × ℕ)
  | 0, _, _ => none
  | rounds + 1, i, j =>
    if i < text.length then
      if OccursAt startKey text i then
        xmlScan text startKey endKey rounds (i + startKey.length + 1) (i + startKey.length)
      else if OccursAt endKey text i then some (i, j)
      else xmlScan text startKey endKey rounds (i + 1) j
    else none

/-- `parse_xml_attribute`: the return value and what is written to `out`. -/
def parseXmlAttribute (text startKey endKey : List Char) : ℤ × Xchar :=
  if text = [] then (0, ⟨0, none⟩) else
    match xmlScan text startKey endKey text.length 0 0 with
    | some (i, j) => (1, ⟨(i : ℤ) - j, some j⟩)
    | none => (0, ⟨0, none⟩)

/-- The characters that the pointer and the length of `out` stand for. -/
def Xchar.chars (out : Xchar) (text : List Char) : List Char :=
  match out.s with
  | some j => (text.drop j).take out.len.toNat
  | none => []

variable (text : List Char) (tag : TagName)

/-- The loop from a round on, with as many rounds as are left. -/
def scanFrom (i j : ℕ) : Option (ℕ × ℕ) := xmlScan text tag.startKey tag.endKey (text.length - i) i j

/-- A start key begins with the mark of all keys. -/
theorem TagName.startKey_marked : MarkedBy '<' tag.startKey :=
  ⟨_, rfl, by simpa using tag.plain⟩

/-- An end key does too. -/
theorem TagName.endKey_marked : MarkedBy '<' tag.endKey :=
  ⟨_, rfl, by simpa using tag.plain⟩

/-- The start key has one character less than the end key. -/
theorem TagName.length_endKey : tag.endKey.length = tag.startKey.length + 1 := by
  simp [TagName.startKey, TagName.endKey]

/-- The end key does not begin with the start key. -/
theorem TagName.startKey_not_prefix : ¬ tag.startKey <+: tag.endKey := by
  rintro ⟨rest, h⟩
  have hlength := congrArg List.length h
  rw [List.length_append, tag.length_endKey] at hlength
  obtain ⟨c, rfl⟩ : ∃ c, rest = [c] := List.length_eq_one_iff.mp (by omega)
  have hcount := congrArg (List.count '>') h
  have hlast := congrArg List.getLast? h
  rw [List.getLast?_append] at hlast
  simp only [TagName.endKey, TagName.startKey, List.count_append, List.count_cons, List.count_nil] at hcount
  have hc : c = '>' := by simpa [TagName.endKey, List.getLast?_cons] using hlast
  subst hc
  simp at hcount

/-- The keys do not occur at the same position. -/
theorem TagName.not_both {i : ℕ} (hstart : OccursAt tag.startKey text i)
    (hend : OccursAt tag.endKey text i) : False := by
  refine tag.startKey_not_prefix (List.prefix_of_prefix_length_le hstart hend ?_)
  rw [tag.length_endKey]
  omega

/-- More rounds than characters left make no difference. -/
theorem xmlScan_rounds (startKey endKey : List Char) (rounds i j : ℕ) (h : text.length - i ≤ rounds) :
    xmlScan text startKey endKey rounds i j = xmlScan text startKey endKey (text.length - i) i j := by
  induction rounds using Nat.strong_induction_on generalizing i j with
  | _ rounds ih =>
    by_cases hi : i < text.length
    · obtain ⟨more, rfl⟩ := Nat.exists_eq_add_one_of_ne_zero (show rounds ≠ 0 by omega)
      obtain ⟨left, hleft⟩ := Nat.exists_eq_add_one_of_ne_zero (show text.length - i ≠ 0 by omega)
      rw [hleft]
      have hagain (i' j' : ℕ) (hi' : i < i') :
          xmlScan text startKey endKey more i' j' = xmlScan text startKey endKey left i' j' := by
        rw [ih more (by omega) i' j' (by omega)]
        by_cases hlt : left < more + 1
        · rw [ih left hlt i' j' (by omega)]
        · omega
      simp only [xmlScan, if_pos hi]
      split
      · exact hagain _ _ (by omega)
      · split
        · rfl
        · exact hagain _ _ (by omega)
    · rw [show text.length - i = 0 by omega]
      cases rounds with
      | zero => rfl
      | succ more => simp only [xmlScan, if_neg hi]

/-- Behind the text nothing is found. -/
theorem scanFrom_of_le {i : ℕ} (j : ℕ) (hi : text.length ≤ i) : scanFrom text tag i j = none := by
  rw [scanFrom, show text.length - i = 0 by omega, xmlScan]

/-- The function in terms of its loop. -/
theorem parseXmlAttribute_eq : parseXmlAttribute text tag.startKey tag.endKey =
    match scanFrom text tag 0 0 with
    | some (i, j) => (1, ⟨(i : ℤ) - j, some j⟩)
    | none => (0, ⟨0, none⟩) := by
  unfold parseXmlAttribute
  split
  · next hempty =>
    rw [scanFrom_of_le text tag 0 (by simp [hempty])]
  · rfl

/-- A round at a start key: remember the place behind it, and skip a character. -/
theorem scanFrom_start {i : ℕ} (j : ℕ) (hstart : OccursAt tag.startKey text i) :
    scanFrom text tag i j =
      scanFrom text tag (i + tag.startKey.length + 1) (i + tag.startKey.length) := by
  have hle := hstart.le_length tag.startKey_marked.length_pos
  have hpos := tag.startKey_marked.length_pos
  obtain ⟨left, hleft⟩ := Nat.exists_eq_add_one_of_ne_zero (show text.length - i ≠ 0 by omega)
  rw [scanFrom, hleft, xmlScan, if_pos (by omega), if_pos hstart]
  exact xmlScan_rounds text _ _ _ _ _ (by omega)

/-- A round at an end key returns. -/
theorem scanFrom_end {i : ℕ} (j : ℕ) (hend : OccursAt tag.endKey text i) :
    scanFrom text tag i j = some (i, j) := by
  have hle := hend.le_length tag.endKey_marked.length_pos
  have hpos := tag.endKey_marked.length_pos
  obtain ⟨left, hleft⟩ := Nat.exists_eq_add_one_of_ne_zero (show text.length - i ≠ 0 by omega)
  rw [scanFrom, hleft, xmlScan, if_pos (by omega), if_neg fun hstart => tag.not_both text hstart hend,
    if_pos hend]

/-- Any other round goes on to the next character. -/
theorem scanFrom_other {i : ℕ} (j : ℕ) (hstart : ¬ OccursAt tag.startKey text i)
    (hend : ¬ OccursAt tag.endKey text i) : scanFrom text tag i j = scanFrom text tag (i + 1) j := by
  by_cases hi : i < text.length
  · obtain ⟨left, hleft⟩ := Nat.exists_eq_add_one_of_ne_zero (show text.length - i ≠ 0 by omega)
    rw [scanFrom, hleft, xmlScan, if_pos hi, if_neg hstart, if_neg hend, scanFrom,
      show text.length - (i + 1) = left by omega]
  · rw [scanFrom_of_le text tag j (by omega), scanFrom_of_le text tag j (by omega)]

/-- Rounds without a key move on. -/
theorem scanFrom_skip {i i' : ℕ} (j : ℕ) (hle : i ≤ i')
    (hstart : ∀ p, i ≤ p → p < i' → ¬ OccursAt tag.startKey text p)
    (hend : ∀ p, i ≤ p → p < i' → ¬ OccursAt tag.endKey text p) :
    scanFrom text tag i j = scanFrom text tag i' j := by
  induction hle using Nat.decreasingInduction with
  | self => rfl
  | of_succ k hk ih =>
    rw [scanFrom_other text tag j (hstart k le_rfl hk) (hend k le_rfl hk)]
    exact ih (fun p hp => hstart p (by omega)) fun p hp => hend p (by omega)

/-- Without an end key from here on, the loop runs to its end. -/
theorem scanFrom_none (i j : ℕ) (hend : ∀ p, i ≤ p → ¬ OccursAt tag.endKey text p) :
    scanFrom text tag i j = none := by
  induction hn : text.length - i using Nat.strong_induction_on generalizing i j with
  | _ n ih =>
    by_cases hi : i < text.length
    · by_cases hstart : OccursAt tag.startKey text i
      · rw [scanFrom_start text tag j hstart]
        exact ih _ (by omega) _ _ (fun p hp => hend p (by omega)) rfl
      · rw [scanFrom_other text tag j hstart (hend i le_rfl)]
        exact ih _ (by omega) _ _ (fun p hp => hend p (by omega)) rfl
    · exact scanFrom_of_le text tag j (by omega)

/-- What is found lies at or behind the round it is looked for from. -/
theorem scanFrom_ge {i j : ℕ} {found : ℕ × ℕ} (hfound : scanFrom text tag i j = some found) :
    i ≤ found.1 := by
  induction hn : text.length - i using Nat.strong_induction_on generalizing i j with
  | _ n ih =>
    by_cases hi : i < text.length
    · by_cases hstart : OccursAt tag.startKey text i
      · rw [scanFrom_start text tag j hstart] at hfound
        have hle := ih _ (by omega) hfound rfl
        omega
      · by_cases hend : OccursAt tag.endKey text i
        · rw [scanFrom_end text tag j hend, Option.some.injEq] at hfound
          rw [← hfound]
        · rw [scanFrom_other text tag j hstart hend] at hfound
          have hle := ih _ (by omega) hfound rfl
          omega
    · rw [scanFrom_of_le text tag j (by omega)] at hfound
      cases hfound

end TcpClb
