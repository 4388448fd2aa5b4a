import TcpClb.XmlAttribute
import Mathlib.Data.Nat.Find

/-!
# Exact extraction of an element

What `parse_xml_attribute` should return is the text between the first end key that has a start key
before it and the nearest start key before that. It goes wrong where an end key comes before any
start key, which ends the loop as well, and where a key stands directly behind a start key, because
the loop skips the character there. Of start keys that follow one another directly it therefore
sees every other one.
-/

namespace TcpClb

open TcpClb.Common

variable (text : List Char) (tag : TagName)

/-- Some start key is followed by an end key, at or after its end. -/
def Enclosed : Prop :=
  ∃ p e, OccursAt tag.startKey text p ∧ OccursAt tag.endKey text e ∧ p + tag.startKey.length ≤ e

/-- The text from `j` to `e` stands between the first end key that has a start key before it and the
nearest start key before that end key. -/
structure Extraction (j e : ℕ) : Prop where
  endKey : OccursAt tag.endKey text e
  first : ∀ e' < e, OccursAt tag.endKey text e' →
    ∀ p, OccursAt tag.startKey text p → ¬ p + tag.startKey.length ≤ e'
  startKey : ∃ p, OccursAt tag.startKey text p ∧ j = p + tag.startKey.length
  before : j ≤ e
  nearest : ∀ p, OccursAt tag.startKey text p → p + tag.startKey.length ≤ e → p + tag.startKey.length ≤ j

/-- The function returns 1 exactly if there is something to extract, and then that; and otherwise 0
with length 0. -/
structure ExtractsExactly (result : ℤ × Xchar) : Prop where
  found : result.1 = 1 ↔ Enclosed text tag
  between : result.1 = 1 → ∃ j e, Extraction text tag j e ∧ result.2 = ⟨(e : ℤ) - j, some j⟩
  absent : result.1 ≠ 1 → result.1 = 0 ∧ result.2.len = 0

/-- Up to the first end key, if there is one, the text ends in an odd number of start keys that
follow one another directly, and a nonempty value without start keys. -/
def OddStarts : Prop :=
  ∀ e, OccursAt tag.endKey text e → (∀ e' < e, ¬ OccursAt tag.endKey text e') →
    ∃ pre k value, text.take e = pre ++ (List.replicate (2 * k + 1) tag.startKey).flatten ++ value ∧
      ¬ tag.startKey <:+ pre ∧ value ≠ [] ∧ ¬ tag.startKey <:+: value

/-- The first end key is at `e`, and the last start keys before it that follow one another directly
are `k + 1` of them from `q` on. -/
structure LastStarts (e q k : ℕ) : Prop where
  endKey : OccursAt tag.endKey text e
  firstEnd : ∀ e' < e, ¬ OccursAt tag.endKey text e'
  starts : ∀ m ≤ k, OccursAt tag.startKey text (q + m * tag.startKey.length)
  before : q + (k + 1) * tag.startKey.length ≤ e
  notBefore : ∀ p, p + tag.startKey.length = q → ¬ OccursAt tag.startKey text p
  last : ∀ p, q + k * tag.startKey.length < p → p < e → ¬ OccursAt tag.startKey text p

variable {text tag}

/-- The place behind one more copy of a key. -/
theorem next_copy (q m length : ℕ) : q + m * length + length = q + (m + 1) * length := by
  rw [Nat.succ_mul, Nat.add_assoc]

/-- The text before an end key contains every start key that begins before it. -/
theorem startKey_before_end {p e : ℕ} (hend : OccursAt tag.endKey text e)
    (hstart : OccursAt tag.startKey text p) (hlt : p < e) :
    p + tag.startKey.length ≤ e ∧ OccursAt tag.startKey (text.take e) p := by
  have hle := hstart.apart tag.startKey_marked tag.endKey_marked hend hlt
  exact ⟨hle, (occursAt_take hle).mpr hstart⟩

/-- The position of the last start keys, read off from the text before the end key. -/
theorem lastStarts_of_take {e : ℕ} (hend : OccursAt tag.endKey text e)
    (hfirst : ∀ e' < e, ¬ OccursAt tag.endKey text e') {pre value : List Char} {k : ℕ}
    (htake : text.take e = pre ++ (List.replicate (k + 1) tag.startKey).flatten ++ value)
    (hpre : ¬ tag.startKey <:+ pre) (hvalue : ¬ tag.startKey <:+: value) :
    LastStarts text tag e pre.length k ∧
      e = pre.length + (k + 1) * tag.startKey.length + value.length := by
  have hcopies (m : ℕ) : (List.replicate m tag.startKey).flatten.length = m * tag.startKey.length := by
    simp
  have hlength : e = pre.length + (k + 1) * tag.startKey.length + value.length := by
    have hle := hend.le_length tag.endKey_marked.length_pos
    have hsum := congrArg List.length htake
    rw [List.length_take, Nat.min_eq_left (by omega), List.length_append, List.length_append,
      hcopies] at hsum
    exact hsum
  have hafter : (text.take e).drop (pre.length + (k + 1) * tag.startKey.length) = value := by
    rw [htake, ← hcopies, ← List.length_append, List.drop_left]
  refine ⟨⟨hend, hfirst, fun m hm => ?_, by omega, fun p hp hstart => ?_, fun p hp hlt hstart => ?_⟩,
    hlength⟩
  · have hsplit : text.take e = (pre ++ (List.replicate m tag.startKey).flatten) ++
        (tag.startKey ++ ((List.replicate (k - m) tag.startKey).flatten ++ value)) := by
      rw [htake, show k + 1 = m + (1 + (k - m)) by omega, List.replicate_add, List.replicate_add]
      simp
    have hoccurs := occursAt_length tag.startKey (pre ++ (List.replicate m tag.startKey).flatten)
      ((List.replicate (k - m) tag.startKey).flatten ++ value)
    rw [← hsplit, List.length_append, hcopies] at hoccurs
    refine (occursAt_take ?_).mp hoccurs
    have hmul : (m + 1) * tag.startKey.length ≤ (k + 1) * tag.startKey.length :=
      Nat.mul_le_mul_right _ (by omega)
    rw [Nat.add_mul, Nat.one_mul] at hmul
    omega
  · have hpos := tag.startKey_marked.length_pos
    obtain ⟨_, hoccurs⟩ := startKey_before_end hend hstart (by
      have hmul := Nat.mul_le_mul_right tag.startKey.length (show 1 ≤ k + 1 by omega)
      omega)
    rw [htake, List.append_assoc, occursAt_append_left _ _ _ _ (by omega)] at hoccurs
    have hsame : tag.startKey = pre.drop p := by
      refine List.IsPrefix.eq_of_length
        (List.prefix_of_prefix_length_le hoccurs (List.prefix_append _ _) ?_) ?_
      · rw [List.length_drop]
        omega
      · rw [List.length_drop]
        omega
    exact hpre (hsame ▸ List.drop_suffix p pre)
  · obtain ⟨_, hoccurs⟩ := startKey_before_end hend hstart hlt
    have hlastStart : OccursAt tag.startKey (text.take e) (pre.length + k * tag.startKey.length) := by
      have hsplit : text.take e = (pre ++ (List.replicate k tag.startKey).flatten) ++
          (tag.startKey ++ value) := by
        rw [htake, List.replicate_succ', List.flatten_append]
        simp
      have hoccurs := occursAt_length tag.startKey (pre ++ (List.replicate k tag.startKey).flatten) value
      rwa [← hsplit, List.length_append, hcopies] at hoccurs
    have hbehind := hlastStart.apart tag.startKey_marked tag.startKey_marked hoccurs hp
    rw [next_copy] at hbehind
    exact hvalue (hafter ▸ hoccurs.infix_of_le hbehind)

/-- What stands between the last start keys and their end key is the extraction. -/
theorem LastStarts.extraction {e q k : ℕ} (h : LastStarts text tag e q k) :
    Extraction text tag (q + (k + 1) * tag.startKey.length) e where
  endKey := h.endKey
  first e' he' hend := absurd hend (h.firstEnd e' he')
  startKey := ⟨q + k * tag.startKey.length, h.starts k le_rfl, (next_copy _ _ _).symm⟩
  before := h.before
  nearest p hstart hle := by
    have hpos := tag.startKey_marked.length_pos
    by_contra hlt
    rw [Nat.succ_mul] at hlt
    exact h.last p (by omega) (by omega) hstart

/-- There is only one thing to extract. -/
theorem Extraction.unique {j e j' e' : ℕ} (h : Extraction text tag j e) (h' : Extraction text tag j' e') :
    j = j' ∧ e = e' := by
  obtain ⟨p, hp, rfl⟩ := h.startKey
  obtain ⟨p', hp', rfl⟩ := h'.startKey
  have hle := h.before
  have hle' := h'.before
  have hend : e = e' := by
    rcases Nat.lt_trichotomy e e' with hlt | heq | hlt
    · exact absurd hle (h'.first e hlt h.endKey p hp)
    · exact heq
    · exact absurd hle' (h.first e' hlt h'.endKey p' hp')
  subst hend
  have hnear := h.nearest p' hp' hle'
  have hnear' := h'.nearest p hp hle
  exact ⟨by omega, rfl⟩

/-- What can be extracted is enclosed. -/
theorem Extraction.enclosed {j e : ℕ} (h : Extraction text tag j e) : Enclosed text tag := by
  obtain ⟨p, hp, rfl⟩ := h.startKey
  exact ⟨p, e, hp, h.endKey, h.before⟩

/-- Without an end key on the way, the loop gets to a start key that does not follow another one
directly. -/
theorem scanFrom_reach {i q : ℕ} (j : ℕ) (hle : i ≤ q) (hq : OccursAt tag.startKey text q)
    (hend : ∀ p < q, ¬ OccursAt tag.endKey text p)
    (hbefore : ∀ p, p + tag.startKey.length = q → ¬ OccursAt tag.startKey text p) :
    ∃ j', scanFrom text tag i j = scanFrom text tag q j' := by
  induction hn : q - i using Nat.strong_induction_on generalizing i j with
  | _ n ih =>
    by_cases hlt : i < q
    · by_cases hstart : OccursAt tag.startKey text i
      · have hapart := hstart.apart tag.startKey_marked tag.startKey_marked hq hlt
        have hne : i + tag.startKey.length ≠ q := fun heq => hbefore i heq hstart
        rw [scanFrom_start text tag j hstart]
        exact ih _ (by omega) _ (by omega) rfl
      · rw [scanFrom_other text tag j hstart (hend i hlt)]
        exact ih _ (by omega) _ (by omega) rfl
    · obtain rfl : i = q := by omega
      exact ⟨j, rfl⟩

/-- Of the last start keys the loop sees the first, the third and so on, and remembers the place
behind the one before. -/
theorem LastStarts.scan {e q k : ℕ} (h : LastStarts text tag e q k) (m : ℕ) (hm : 2 * m ≤ k + 1) :
    ∃ j, scanFrom text tag 0 0 = scanFrom text tag (q + 2 * m * tag.startKey.length) j ∧
      (0 < m → j = q + (2 * m - 1) * tag.startKey.length) := by
  have hpos := tag.startKey_marked.length_pos
  have hfits (m : ℕ) (hm : m ≤ k + 1) : q + m * tag.startKey.length ≤ e := by
    have hmul := Nat.mul_le_mul_right tag.startKey.length hm
    have hle := h.before
    omega
  induction m with
  | zero =>
    have hq : OccursAt tag.startKey text q := by simpa using h.starts 0 (Nat.zero_le k)
    have hle := hfits 0 (Nat.zero_le _)
    obtain ⟨j, hreach⟩ := scanFrom_reach 0 (Nat.zero_le q) hq
      (fun p hp => h.firstEnd p (by omega)) h.notBefore
    exact ⟨j, by simpa using hreach, fun hlt => absurd hlt (Nat.lt_irrefl 0)⟩
  | succ m ih =>
    obtain ⟨j, hreach, _⟩ := ih (by omega)
    refine ⟨q + (2 * (m + 1) - 1) * tag.startKey.length, ?_, fun _ => rfl⟩
    have hsum : q + 2 * m * tag.startKey.length + tag.startKey.length =
        q + (2 * (m + 1) - 1) * tag.startKey.length := next_copy _ _ _
    have hsum' : q + (2 * (m + 1) - 1) * tag.startKey.length + tag.startKey.length =
        q + 2 * (m + 1) * tag.startKey.length := next_copy _ _ _
    have hnext := h.starts (2 * (m + 1) - 1) (by omega)
    have hlast := hfits (2 * (m + 1)) hm
    rw [hreach, scanFrom_start text tag j (h.starts (2 * m) (by omega)), hsum]
    refine scanFrom_skip text tag _ (by omega) (fun p hp hlt hstart => ?_) fun p hp hlt => h.firstEnd p (by omega)
    -- the start key that is skipped covers these positions
    have hapart := hnext.apart tag.startKey_marked tag.startKey_marked hstart (by omega)
    omega

/-- Behind the last start key nothing but the end key is found. -/
theorem LastStarts.scan_to_end {e q k : ℕ} (h : LastStarts text tag e q k) {i : ℕ} (j : ℕ)
    (hi : q + (k + 1) * tag.startKey.length ≤ i) (hle : i ≤ e) :
    scanFrom text tag i j = some (e, j) := by
  have hpos := tag.startKey_marked.length_pos
  rw [Nat.succ_mul] at hi
  rw [scanFrom_skip text tag j hle (fun p hp hlt => h.last p (by omega) hlt)
    fun p _ hlt => h.firstEnd p hlt]
  exact scanFrom_end text tag j h.endKey

/-- The last of an odd number of start keys is seen, and the value behind it is found. -/
theorem LastStarts.scan_odd {e q k : ℕ} (h : LastStarts text tag e q (2 * k))
    (hvalue : q + (2 * k + 1) * tag.startKey.length < e) :
    scanFrom text tag 0 0 = some (e, q + (2 * k + 1) * tag.startKey.length) := by
  obtain ⟨j, hreach, _⟩ := h.scan k (by omega)
  rw [hreach, scanFrom_start text tag j (h.starts (2 * k) le_rfl), next_copy]
  exact h.scan_to_end _ (by omega) hvalue

/-- Behind an empty value the loop has gone past the end key. -/
theorem LastStarts.scan_empty {e q k : ℕ} (h : LastStarts text tag e q (2 * k))
    (hvalue : q + (2 * k + 1) * tag.startKey.length = e) {found : ℕ × ℕ}
    (hfound : scanFrom text tag 0 0 = some found) : e < found.1 := by
  obtain ⟨j, hreach, _⟩ := h.scan k (by omega)
  rw [hreach, scanFrom_start text tag j (h.starts (2 * k) le_rfl), next_copy, hvalue] at hfound
  exact scanFrom_ge text tag hfound

/-- The last of an even number of start keys is not seen, and counts as part of the value. -/
theorem LastStarts.scan_even {e q k : ℕ} (h : LastStarts text tag e q (2 * k + 1)) :
    scanFrom text tag 0 0 = some (e, q + (2 * k + 1) * tag.startKey.length) := by
  obtain ⟨j, hreach, hj⟩ := h.scan (k + 1) (by omega)
  rw [hreach, hj (Nat.succ_pos k)]
  exact h.scan_to_end _ le_rfl h.before

/-- If the loop finds the extraction, the function is exact. -/
theorem extractsExactly_of_scan {j e : ℕ} (h : Extraction text tag j e)
    (hscan : scanFrom text tag 0 0 = some (e, j)) :
    ExtractsExactly text tag (parseXmlAttribute text tag.startKey tag.endKey) := by
  rw [parseXmlAttribute_eq text tag, hscan]
  exact ⟨iff_of_true rfl h.enclosed, fun _ => ⟨j, e, h, rfl⟩, fun hne => absurd rfl hne⟩

/-- If the function is exact and there is an extraction, the loop finds it. -/
theorem ExtractsExactly.scan {j e : ℕ}
    (hexact : ExtractsExactly text tag (parseXmlAttribute text tag.startKey tag.endKey))
    (h : Extraction text tag j e) : scanFrom text tag 0 0 = some (e, j) := by
  rw [parseXmlAttribute_eq text tag] at hexact
  cases hscan : scanFrom text tag 0 0 with
  | none =>
    rw [hscan] at hexact
    have hret := hexact.found.mpr h.enclosed
    exact absurd hret (by decide)
  | some found =>
    rw [hscan] at hexact
    obtain ⟨j', e', h', hout⟩ := hexact.between rfl
    obtain ⟨rfl, rfl⟩ := h.unique h'
    simp only [Xchar.mk.injEq, Option.some.injEq] at hout
    obtain ⟨hlen, hplace⟩ := hout
    rw [Option.some.injEq]
    exact Prod.ext (by omega) hplace

/-- Without an end key the function returns 0, as it should. -/
theorem extractsExactly_of_no_endKey (hnone : ∀ e, ¬ OccursAt tag.endKey text e) :
    ExtractsExactly text tag (parseXmlAttribute text tag.startKey tag.endKey) := by
  rw [parseXmlAttribute_eq, scanFrom_none text tag 0 0 fun p _ => hnone p]
  refine ⟨iff_of_false (by decide) ?_, fun hret => absurd hret (by decide), fun _ => ⟨rfl, rfl⟩⟩
  rintro ⟨_, e, _, hend, _⟩
  exact hnone e hend

/-- With an end key before every start key the function returns the text before it. -/
theorem not_extractsExactly_of_no_startKey {e : ℕ} (hend : OccursAt tag.endKey text e)
    (hfirst : ∀ e' < e, ¬ OccursAt tag.endKey text e') (hhas : ¬ tag.startKey <:+: text.take e) :
    ¬ ExtractsExactly text tag (parseXmlAttribute text tag.startKey tag.endKey) := by
  have hstart : ∀ p < e, ¬ OccursAt tag.startKey text p := by
    intro p hp hoccurs
    apply hhas
    exact (startKey_before_end hend hoccurs hp).2.infix_of_le (Nat.zero_le p)
  have hscan : scanFrom text tag 0 0 = some (e, 0) := by
    rw [scanFrom_skip text tag 0 (Nat.zero_le e) (fun p _ hp => hstart p hp) fun p _ hp => hfirst p hp]
    exact scanFrom_end text tag 0 hend
  intro hexact
  rw [parseXmlAttribute_eq text tag, hscan] at hexact
  obtain ⟨j, e', h, hout⟩ := hexact.between rfl
  obtain ⟨p, _, rfl⟩ := h.startKey
  have hpos := tag.startKey_marked.length_pos
  simp only [Xchar.mk.injEq, Option.some.injEq] at hout
  omega

/-- `parse_xml_attribute` extracts exactly if the text up to the first end key, if there is one, ends
in an odd number of start keys following one another directly and a nonempty value. -/
theorem extractsExactly_iff (text : List Char) (tag : TagName) :
    ExtractsExactly text tag (parseXmlAttribute text tag.startKey tag.endKey) ↔ OddStarts text tag := by
  by_cases hsome : ∃ e, OccursAt tag.endKey text e
  · classical
    have hend := Nat.find_spec hsome
    have hfirst : ∀ e' < Nat.find hsome, ¬ OccursAt tag.endKey text e' := fun _ => Nat.find_min hsome
    generalize Nat.find hsome = e at hend hfirst
    constructor
    · intro hexact e' hend' hfirst'
      obtain rfl : e = e' := by
        rcases Nat.lt_trichotomy e e' with hlt | heq | hlt
        · exact absurd hend (hfirst' e hlt)
        · exact heq
        · exact absurd hend' (hfirst e' hlt)
      have hhas : tag.startKey <:+: text.take e := by
        by_contra hhas
        exact not_extractsExactly_of_no_startKey hend hfirst hhas hexact
      obtain ⟨pre, k, value, htake, hpre, hvalue⟩ :=
        exists_last_copies _ _ tag.startKey_marked.length_pos hhas
      obtain ⟨hlast, hlength⟩ := lastStarts_of_take hend hfirst htake hpre hvalue
      have hscan := hexact.scan hlast.extraction
      obtain ⟨m, rfl | rfl⟩ : ∃ m, k = 2 * m ∨ k = 2 * m + 1 := ⟨k / 2, by omega⟩
      · refine ⟨pre, m, value, htake, hpre, ?_, hvalue⟩
        rintro rfl
        have hlt := hlast.scan_empty (by simpa using hlength.symm) hscan
        exact absurd hlt (Nat.lt_irrefl e)
      · have heven := hlast.scan_even
        rw [hscan, Option.some.injEq, Prod.mk.injEq, Nat.succ_mul] at heven
        have hpos := tag.startKey_marked.length_pos
        omega
    · intro hodd
      obtain ⟨pre, k, value, htake, hpre, hne, hvalue⟩ := hodd e hend hfirst
      obtain ⟨hlast, hlength⟩ := lastStarts_of_take hend hfirst htake hpre hvalue
      have hpos := List.length_pos_iff.mpr hne
      exact extractsExactly_of_scan hlast.extraction (hlast.scan_odd (by omega))
  · have hnone : ∀ e, ¬ OccursAt tag.endKey text e := fun e he => hsome ⟨e, he⟩
    exact iff_of_true (extractsExactly_of_no_endKey hnone) fun e he => absurd he (hnone e)

/-- The tag `A`. -/
def oneCharTag : TagName := ⟨['A'], by decide⟩

/-- The empty element `<A></A>` is not found. -/
theorem emptyElement_not_extracted : ¬ ExtractsExactly (oneCharTag.startKey ++ oneCharTag.endKey)
    oneCharTag (parseXmlAttribute (oneCharTag.startKey ++ oneCharTag.endKey) oneCharTag.startKey
      oneCharTag.endKey) := by
  intro hexact
  have hret := hexact.found.mpr ⟨0, 3, by decide, by decide, by decide⟩
  exact absurd hret (by decide)

end TcpClb
