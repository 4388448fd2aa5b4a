import Mathlib.Algebra.Order.Ring.Int
import Mathlib.Data.Int.Notation
import Mathlib.Algebra.Group.Nat.Defs
import Mathlib.Data.List.TakeWhile

/-!
# Decimal text as the C library reads and prints it

`atoi`, and the `printf` conversion `%0kd`, on lists of characters. Numbers print and read back as
they are, whatever the width; a text that is cut before its end reads as a smaller number.
-/

namespace TcpClb.Common

/-- `isspace` in the C locale. -/
def isSpace (c : Char) : Bool := c = ' ' || ('\t' ≤ c && c ≤ '\r')

/-- The value of the digits at the front of a text. -/
def leadingDigits (s : List Char) : ℕ := Nat.ofDigitChars 10 (s.takeWhile Char.isDigit) 0

/-- `atoi`, for values that an `int` can hold. -/
def atoi (s : List Char) : ℤ :=
  match s.dropWhile isSpace with
  | '-' :: digits => -(leadingDigits digits : ℤ)
  | '+' :: digits => leadingDigits digits
  | digits => leadingDigits digits

/-- `atoi`: `strtol` keeps to the range of a `long`, and the conversion to `int` wraps. -/
def atoiInt (s : List Char) : ℤ := (max (-2 ^ 63) (min (2 ^ 63 - 1) (atoi s))).bmod (2 ^ 32)

/-- What string functions see of a buffer. -/
def cString (buf : List Char) : List Char := buf.takeWhile (· ≠ '\x00')

/-- `printf("%0kd", n)`: a sign if negative, then zeros up to the width, then the digits. -/
def printPadded (k : ℕ) (n : ℤ) : List Char :=
  let sign := if n < 0 then ['-'] else []
  let digits := Nat.toDigits 10 n.natAbs
  sign ++ List.replicate (k - sign.length - digits.length) '0' ++ digits

/-- A number that is not negative prints without a sign. -/
theorem printPadded_natCast (k n : ℕ) : printPadded k n =
    List.replicate (k - (Nat.toDigits 10 n).length) '0' ++ Nat.toDigits 10 n := by
  rw [printPadded, if_neg (by omega)]
  simp

/-- It fills the width exactly if it has no more digits than that. -/
theorem length_printPadded_eq_iff (k n : ℕ) (hk : 0 < k) :
    (printPadded k n).length = k ↔ n < 10 ^ k := by
  have hdigits := Nat.length_toDigits_le_iff (b := 10) (n := n) (k := k) (by decide) hk
  rw [printPadded_natCast, List.length_append, List.length_replicate, ← hdigits]
  omega

/-- Without a width, it prints as few digits as the number has. -/
theorem length_printPadded_zero_lt_iff (k n : ℕ) (hk : 0 < k) :
    (printPadded 0 n).length < k + 1 ↔ n < 10 ^ k := by
  rw [← Nat.length_toDigits_le_iff (b := 10) (n := n) (k := k) (by decide) hk, printPadded_natCast,
    List.length_append, List.length_replicate]
  omega

/-- It never prints less than the width. -/
theorem le_length_printPadded (k n : ℕ) : k ≤ (printPadded k n).length := by
  rw [printPadded_natCast, List.length_append, List.length_replicate]
  omega

/-- It prints digits only. -/
theorem isDigit_of_mem_printPadded (k n : ℕ) (c : Char) (hc : c ∈ printPadded k n) : c.isDigit = true := by
  rw [printPadded_natCast, List.mem_append] at hc
  rcases hc with hc | hc
  · rw [List.eq_of_mem_replicate hc]
    decide
  · exact Nat.isDigit_of_mem_toDigits (by decide) (by decide) hc

/-- The padded text has the value of the number. -/
theorem ofDigitChars_printPadded (k n : ℕ) : Nat.ofDigitChars 10 (printPadded k n) 0 = n := by
  rw [printPadded_natCast, Nat.ofDigitChars_append, Nat.ofDigitChars_replicate_zero, Nat.mul_zero,
    Nat.ofDigitChars_ten_toDigits]

/-- A digit is neither a space nor a sign. -/
theorem isDigit_not_lead (c : Char) (hc : c.isDigit = true) :
    isSpace c = false ∧ c ≠ '-' ∧ c ≠ '+' := by
  have hlow : '0' ≤ c := by
    rw [Char.isDigit, Bool.and_eq_true] at hc
    exact of_decide_eq_true hc.1
  have hlt (d : Char) (hd : d < '0') : c ≠ d := by
    rintro rfl
    exact Char.not_le.mpr hd hlow
  refine ⟨?_, hlt '-' (by decide), hlt '+' (by decide)⟩
  have hspace : ¬ c ≤ '\r' := fun h => absurd (Char.le_trans hlow h) (by decide)
  simp [isSpace, hlt ' ' (by decide), hspace]

/-- What follows the digits does not count. -/
theorem atoi_digits_append {s t : List Char} (hne : s ≠ []) (hs : ∀ c ∈ s, c.isDigit = true)
    (ht : ∀ c ∈ t.head?, c.isDigit = false) : atoi (s ++ t) = Nat.ofDigitChars 10 s 0 := by
  have hall : leadingDigits (s ++ t) = Nat.ofDigitChars 10 s 0 := by
    rw [leadingDigits, List.takeWhile_append_of_pos hs]
    cases t with
    | nil => rw [List.takeWhile_nil, List.append_nil]
    | cons d rest => rw [List.takeWhile_cons_of_neg (by simp [ht d rfl]), List.append_nil]
  cases s with
  | nil => exact absurd rfl hne
  | cons c rest =>
    obtain ⟨hspace, hminus, hplus⟩ := isDigit_not_lead c (hs c List.mem_cons_self)
    rw [atoi, List.cons_append, List.dropWhile_cons_of_neg (by simp [hspace]), ← hall]
    split
    · next h => exact absurd (List.cons.inj h).1 hminus
    · next h => exact absurd (List.cons.inj h).1 hplus
    · rfl

/-- A text of digits reads as their value. -/
theorem atoi_of_digits (s : List Char) (hs : ∀ c ∈ s, c.isDigit = true) :
    atoi s = Nat.ofDigitChars 10 s 0 := by
  cases s with
  | nil => rfl
  | cons c rest =>
    have hread := atoi_digits_append (t := []) (List.cons_ne_nil c rest) hs (by simp)
    rwa [List.append_nil] at hread

/-- What is printed reads back as the number. -/
theorem atoi_printPadded (k n : ℕ) : atoi (printPadded k n) = n := by
  rw [atoi_of_digits _ (isDigit_of_mem_printPadded k n), ofDigitChars_printPadded]

/-- A text of digits that is cut before its end reads as a smaller number, unless it is zero. -/
theorem atoi_take_lt (s : List Char) (j : ℕ) (hs : ∀ c ∈ s, c.isDigit = true) (hj : j < s.length)
    (hpos : 0 < Nat.ofDigitChars 10 s 0) : atoi (s.take j) < Nat.ofDigitChars 10 s 0 := by
  have hcut : Nat.ofDigitChars 10 s 0 = 10 ^ (s.drop j).length * Nat.ofDigitChars 10 (s.take j) 0 +
      Nat.ofDigitChars 10 (s.drop j) 0 := by
    rw [← Nat.ofDigitChars_eq_ofDigitChars_zero, ← Nat.ofDigitChars_append, List.take_append_drop]
  have hten : 10 ≤ 10 ^ (s.drop j).length := by
    rw [List.length_drop]
    exact Nat.le_self_pow (by omega) 10
  have hmul := Nat.mul_le_mul_right (Nat.ofDigitChars 10 (s.take j) 0) hten
  rw [atoi_of_digits _ fun c hc => hs c (List.mem_of_mem_take hc)]
  omega

/-- Zeros, if any, and behind them another digit. -/
def StartsNonzero (s : List Char) : Prop := ∃ c ∈ (s.dropWhile (· = '0')).head?, c.isDigit = true

/-- Blanks, if any, a minus sign, and a number that is not zero. -/
def ReadsNegative (s : List Char) : Prop :=
  ∃ digits, s.dropWhile isSpace = '-' :: digits ∧ StartsNonzero digits

/-- Blanks, if any, perhaps a plus sign, and a number that is not zero. -/
def ReadsPositive (s : List Char) : Prop :=
  (∃ digits, s.dropWhile isSpace = '+' :: digits ∧ StartsNonzero digits) ∨ StartsNonzero (s.dropWhile isSpace)

/-- A digit is one of ten. -/
theorem digit_lt {c : Char} (hc : c.isDigit = true) : c.toNat - '0'.toNat < 10 := by
  rw [Char.isDigit, Bool.and_eq_true] at hc
  have hhigh : c.toNat ≤ 57 := of_decide_eq_true hc.2
  change c.toNat - 48 < 10
  omega

/-- A digit other than zero is not zero. -/
theorem digit_pos {c : Char} (hc : c.isDigit = true) (hne : c ≠ '0') : 0 < c.toNat - '0'.toNat := by
  rw [Char.isDigit, Bool.and_eq_true] at hc
  have hlow : 48 ≤ c.toNat := of_decide_eq_true hc.1
  have hne' : c.toNat ≠ 48 := fun h => hne (Char.toNat_inj.mp h)
  change 0 < c.toNat - 48
  omega

/-- A digit in front counts for as much as digits follow. -/
theorem leadingDigits_cons {c : Char} (rest : List Char) (hc : c.isDigit = true) : leadingDigits (c :: rest) =
    10 ^ (rest.takeWhile Char.isDigit).length * (c.toNat - '0'.toNat) + leadingDigits rest := by
  rw [leadingDigits, List.takeWhile_cons_of_pos hc, Nat.ofDigitChars_cons, Nat.mul_zero, Nat.zero_add,
    Nat.ofDigitChars_eq_ofDigitChars_zero]
  rfl

/-- A text without a digit in front counts for nothing. -/
theorem leadingDigits_of_not_digit {c : Char} (rest : List Char) (hc : ¬ c.isDigit = true) :
    leadingDigits (c :: rest) = 0 := by
  rw [leadingDigits, List.takeWhile_cons_of_neg hc, Nat.ofDigitChars_nil]

/-- A number has no more digits than there are. -/
theorem ofDigitChars_lt (digits : List Char) (hdigits : ∀ c ∈ digits, c.isDigit = true) :
    Nat.ofDigitChars 10 digits 0 < 10 ^ digits.length := by
  induction digits with
  | nil => decide
  | cons c digits ih =>
    obtain ⟨hc, hrest⟩ := List.forall_mem_cons.mp hdigits
    have hlt := ih hrest
    have hmul := Nat.mul_le_mul_left (10 ^ digits.length) (Nat.le_of_lt_succ (digit_lt hc))
    rw [Nat.ofDigitChars_cons, Nat.mul_zero, Nat.zero_add, Nat.ofDigitChars_eq_ofDigitChars_zero,
      List.length_cons, Nat.pow_succ]
    omega

/-- The number at the front of a text is not zero exactly if another digit than zero comes first. -/
theorem leadingDigits_pos_iff (s : List Char) : 0 < leadingDigits s ↔ StartsNonzero s := by
  induction s with
  | nil => exact iff_of_false (Nat.lt_irrefl 0) fun ⟨c, hc, _⟩ => absurd hc (by simp)
  | cons c rest ih =>
    by_cases hzero : c = '0'
    · subst hzero
      have hskip : leadingDigits ('0' :: rest) = leadingDigits rest := by
        simp [leadingDigits, Nat.ofDigitChars_cons]
      rw [hskip, ih, StartsNonzero, StartsNonzero, List.dropWhile_cons_of_pos (by simp)]
    · rw [StartsNonzero, List.dropWhile_cons_of_neg (by simpa using hzero)]
      by_cases hc : c.isDigit = true
      · refine iff_of_true ?_ ⟨c, rfl, hc⟩
        have hpos := Nat.mul_pos (Nat.pow_pos (n := (rest.takeWhile Char.isDigit).length) (show 0 < 10 by decide))
          (digit_pos hc hzero)
        rw [leadingDigits_cons rest hc]
        omega
      · rw [leadingDigits_of_not_digit rest hc]
        refine iff_of_false (Nat.lt_irrefl 0) ?_
        rintro ⟨d, hd, hdigit⟩
        exact hc (Option.some.inj hd ▸ hdigit)

/-- A text reads as a negative number exactly if it says one. -/
theorem atoi_neg_iff (s : List Char) : atoi s < 0 ↔ ReadsNegative s := by
  unfold atoi ReadsNegative
  split
  · next digits h =>
    simp [h, ← leadingDigits_pos_iff]
  · next digits h =>
    refine iff_of_false (by omega) ?_
    rintro ⟨d, hd, _⟩
    rw [h] at hd
    exact absurd (List.cons.inj hd).1 (by decide)
  · next digits hminus hplus =>
    refine iff_of_false (by omega) ?_
    rintro ⟨d, hd, _⟩
    exact hminus d hd

/-- It reads as a positive number exactly if it says one. -/
theorem atoi_pos_iff (s : List Char) : 0 < atoi s ↔ ReadsPositive s := by
  have hsign (c : Char) (digits : List Char) (hc : c.isDigit = false) (hzero : c ≠ '0') :
      ¬ StartsNonzero (c :: digits) := by
    rintro ⟨d, hd, hdigit⟩
    rw [List.dropWhile_cons_of_neg (by simpa using hzero)] at hd
    rw [← Option.some.inj hd, hc] at hdigit
    cases hdigit
  unfold atoi ReadsPositive
  split
  · next digits h =>
    refine iff_of_false (by omega) ?_
    rw [h]
    rintro (⟨d, hd, _⟩ | hstarts)
    · exact absurd (List.cons.inj hd).1 (by decide)
    · exact hsign '-' digits rfl (by decide) hstarts
  · next digits h =>
    rw [h, Int.natCast_pos, leadingDigits_pos_iff]
    constructor
    · exact fun hstarts => Or.inl ⟨digits, rfl, hstarts⟩
    · rintro (⟨d, hd, hstarts⟩ | hstarts)
      · rwa [(List.cons.inj hd).2]
      · exact absurd hstarts (hsign '+' digits rfl (by decide))
  · next digits hminus hplus =>
    rw [Int.natCast_pos, leadingDigits_pos_iff]
    constructor
    · exact Or.inr
    · rintro (⟨d, hd, _⟩ | hstarts)
      · exact absurd hd (hplus d)
      · exact hstarts

/-- The conversion to `int` gives a number from 0 to a small bound exactly if the text reads as one that fits a
`long` and whose last 32 bits are such a number. -/
theorem atoiInt_range_iff (s : List Char) {k : ℤ} (hk : k < 2 ^ 31) :
    0 ≤ atoiInt s ∧ atoiInt s ≤ k ↔ atoi s < 2 ^ 63 ∧ max (-2 ^ 63) (atoi s) % 2 ^ 32 ≤ k := by
  rw [atoiInt, Int.bmod_def]
  split <;> omega

/-- It keeps a number that an `int` can hold. -/
theorem atoiInt_eq_self {s : List Char} (hlow : 0 ≤ atoi s) (hhigh : atoi s < 2 ^ 31) : atoiInt s = atoi s := by
  rw [atoiInt, Int.bmod_def]
  split <;> omega

end TcpClb.Common
