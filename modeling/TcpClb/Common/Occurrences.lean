import Mathlib.Data.List.Basic
import Mathlib.Data.List.Infix

/-!
# Occurrences of keys in a text

A key that begins with a mark and has no other mark inside cannot overlap another such key. Hence
any number of copies of it at the end of a text can be told from what stands before them.
-/

namespace TcpClb.Common

variable {α : Type*}

/-- The key stands in the text at a position. -/
def OccursAt (key text : List α) (i : ℕ) : Prop := key <+: text.drop i

instance [DecidableEq α] (key text : List α) (i : ℕ) : Decidable (OccursAt key text i) :=
  inferInstanceAs (Decidable (key <+: text.drop i))

/-- The key begins with the mark, and has no other mark. -/
def MarkedBy (c : α) (key : List α) : Prop := ∃ rest, key = c :: rest ∧ c ∉ rest

/-- No occurrence of the key begins in the first part of a text in two parts. -/
def NoneWithin (key pre post : List α) : Prop := ∀ i < pre.length, ¬ OccursAt key (pre ++ post) i

/-- A marked key is not empty. -/
theorem MarkedBy.length_pos {c : α} {key : List α} (h : MarkedBy c key) : 0 < key.length := by
  obtain ⟨rest, rfl, _⟩ := h
  exact Nat.succ_pos _

/-- Where the key occurs the text has its characters. -/
theorem OccursAt.getElem? {key text : List α} {i : ℕ} (h : OccursAt key text i) {k : ℕ}
    (hk : k < key.length) : text[i + k]? = some key[k] := by
  have hchar := List.prefix_iff_getElem?.mp h k hk
  rwa [List.getElem?_drop] at hchar

/-- An occurrence of a nonempty key lies inside the text. -/
theorem OccursAt.le_length {key text : List α} {i : ℕ} (h : OccursAt key text i)
    (hkey : 0 < key.length) : i + key.length ≤ text.length := by
  have hle := h.length_le
  rw [List.length_drop] at hle
  omega

/-- An occurrence in the text or at its end lies inside the text. -/
theorem OccursAt.end_le {key text : List α} {i : ℕ} (h : OccursAt key text i) (hi : i ≤ text.length) :
    i + key.length ≤ text.length := by
  have hle := List.IsPrefix.length_le h
  rw [List.length_drop] at hle
  omega

/-- The text begins with a key exactly if the key occurs at its beginning. -/
theorem occursAt_append_left (key pre post : List α) (i : ℕ) (hi : i ≤ pre.length) :
    OccursAt key (pre ++ post) i ↔ key <+: pre.drop i ++ post := by
  rw [OccursAt, List.drop_append_of_le_length hi]

/-- What occurs behind the first part of a text occurs in the rest. -/
theorem occursAt_append_right (key pre post : List α) (i : ℕ) :
    OccursAt key (pre ++ post) (pre.length + i) ↔ OccursAt key post i := by
  rw [OccursAt, OccursAt, ← List.drop_drop, List.drop_left]

/-- A key that stands behind the first part occurs at its end. -/
theorem occursAt_length (key pre post : List α) : OccursAt key (pre ++ (key ++ post)) pre.length := by
  rw [occursAt_append_left key pre _ _ le_rfl, List.drop_length]
  exact List.prefix_append key post

/-- Marked keys do not overlap. -/
theorem OccursAt.apart {c : α} {first second text : List α} {i j : ℕ} (hfirst : MarkedBy c first)
    (hsecond : MarkedBy c second) (hi : OccursAt first text i) (hj : OccursAt second text j)
    (hlt : i < j) : i + first.length ≤ j := by
  by_contra hover
  obtain ⟨rest, rfl, hrest⟩ := hfirst
  obtain ⟨rest', rfl, _⟩ := hsecond
  rw [List.length_cons] at hover
  have hinside : j - i < (c :: rest).length := by
    rw [List.length_cons]
    omega
  have hfirstChar := hi.getElem? hinside
  have hsecondChar := hj.getElem? (k := 0) (Nat.succ_pos _)
  rw [show i + (j - i) = j + 0 by omega, hsecondChar, Option.some.injEq, List.getElem_cons_zero] at hfirstChar
  refine hrest ?_
  rw [hfirstChar, List.getElem_cons, dif_neg (by omega)]
  exact List.getElem_mem _

/-- An occurrence that ends before a cut is an occurrence in the part before it. -/
theorem occursAt_take {key text : List α} {i e : ℕ} (hend : i + key.length ≤ e) :
    OccursAt key (text.take e) i ↔ OccursAt key text i := by
  rw [OccursAt, OccursAt, List.drop_take, List.prefix_take_iff, and_iff_left]
  omega

/-- A part of the text is an infix. -/
theorem OccursAt.infix_of_le {key text : List α} {i from' : ℕ} (h : OccursAt key text i)
    (hle : from' ≤ i) : key <:+: text.drop from' := by
  have hsuffix : text.drop i <:+ text.drop from' := by
    rw [show i = from' + (i - from') by omega, ← List.drop_drop]
    exact List.drop_suffix _ _
  exact h.isInfix.trans hsuffix.isInfix

/-- A text that has no key at its end, and any number of copies of the key behind it. -/
theorem exists_copies (key text : List α) (hkey : 0 < key.length) :
    ∃ pre k, text = pre ++ (List.replicate k key).flatten ∧ ¬ key <:+ pre := by
  induction hn : text.length using Nat.strong_induction_on generalizing text with
  | _ n ih =>
    by_cases hsuffix : key <:+ text
    · obtain ⟨before, rfl⟩ := hsuffix
      have hlt : before.length < n := by
        rw [← hn, List.length_append]
        omega
      obtain ⟨pre, k, rfl, hpre⟩ := ih before.length hlt before rfl
      refine ⟨pre, k + 1, ?_, hpre⟩
      rw [List.replicate_succ', List.flatten_append, List.flatten_singleton, List.append_assoc]
    · exact ⟨text, 0, by simp, hsuffix⟩

/-- If a key occurs in a text, the last copies of it that follow one another directly stand between
a text without the key at its end and a text without the key. -/
theorem exists_last_copies (key text : List α) (hkey : 0 < key.length) (hhas : key <:+: text) :
    ∃ pre k value, text = pre ++ (List.replicate (k + 1) key).flatten ++ value ∧
      ¬ key <:+ pre ∧ ¬ key <:+: value := by
  induction hn : text.length using Nat.strong_induction_on generalizing text with
  | _ n ih =>
    obtain ⟨before, value, rfl⟩ := hhas
    by_cases hvalue : key <:+: value
    · have hlt : value.length < n := by
        rw [← hn, List.length_append, List.length_append]
        omega
      obtain ⟨inner, k, last, rfl, hinner, hlast⟩ := ih value.length hlt value hvalue rfl
      obtain ⟨pre, j, hpre, hnot⟩ := exists_copies key (before ++ key ++ inner) hkey
      refine ⟨pre, j + k, last, ?_, hnot, hlast⟩
      have hsum : (List.replicate (j + k + 1) key).flatten =
          (List.replicate j key).flatten ++ (List.replicate (k + 1) key).flatten := by
        rw [Nat.add_assoc, List.replicate_add, List.flatten_append]
      rw [hsum, ← List.append_assoc, ← List.append_assoc, hpre, ← List.append_assoc]
    · obtain ⟨pre, k, rfl, hpre⟩ := exists_copies key before hkey
      refine ⟨pre, k, value, ?_, hpre, hvalue⟩
      rw [List.replicate_succ', List.flatten_append, List.flatten_singleton, ← List.append_assoc]

/-- What stands before the first separator is determined by the text. -/
theorem eq_of_append_cons {c : α} {a b x y : List α} (h : a ++ c :: x = b ++ c :: y) (ha : c ∉ a)
    (hb : c ∉ b) : a = b := by
  induction a generalizing b with
  | nil =>
    cases b with
    | nil => rfl
    | cons d b =>
      obtain ⟨rfl, _⟩ := List.cons.inj h
      exact absurd List.mem_cons_self hb
  | cons d a ih =>
    cases b with
    | nil =>
      obtain ⟨rfl, _⟩ := List.cons.inj h
      exact absurd List.mem_cons_self ha
    | cons d' b =>
      obtain ⟨rfl, htail⟩ := List.cons.inj h
      rw [ih htail (fun hmem => ha (List.mem_cons_of_mem d hmem)) fun hmem => hb (List.mem_cons_of_mem d hmem)]

/-- A marked key begins only at its mark. -/
theorem OccursAt.mark {c : α} {key text : List α} {i : ℕ} (hkey : MarkedBy c key)
    (h : OccursAt key text i) : text[i]? = some c := by
  obtain ⟨rest, rfl, _⟩ := hkey
  exact h.getElem? (Nat.succ_pos _)

/-- Nothing begins in two parts exactly if nothing begins in either. -/
theorem noneWithin_append (key pre pre' post : List α) :
    NoneWithin key (pre ++ pre') post ↔ NoneWithin key pre (pre' ++ post) ∧ NoneWithin key pre' post := by
  unfold NoneWithin
  rw [List.append_assoc, List.length_append]
  constructor
  · intro h
    refine ⟨fun i hi => h i (by omega), fun i hi hoccurs => ?_⟩
    exact h (pre.length + i) (by omega) ((occursAt_append_right key pre _ i).mpr hoccurs)
  · rintro ⟨hpre, hpre'⟩ i hi hoccurs
    by_cases hlt : i < pre.length
    · exact hpre i hlt hoccurs
    · refine hpre' (i - pre.length) (by omega) ((occursAt_append_right key pre _ _).mp ?_)
      rwa [show pre.length + (i - pre.length) = i by omega]

/-- No marked key begins in a part without marks. -/
theorem noneWithin_of_not_mem {c : α} {key pre : List α} (hkey : MarkedBy c key) (hpre : c ∉ pre)
    (post : List α) : NoneWithin key pre post := by
  intro i hi hoccurs
  have hmark := hoccurs.mark hkey
  rw [List.getElem?_append_left hi] at hmark
  exact hpre (List.mem_of_getElem? hmark)

/-- No marked key begins in a marked part unless it begins with that part. -/
theorem noneWithin_of_marked {c : α} {key pre : List α} (hkey : MarkedBy c key) (hpre : MarkedBy c pre)
    (post : List α) (hfront : ¬ key <+: pre ++ post) : NoneWithin key pre post := by
  intro i hi hoccurs
  obtain ⟨rest, rfl, hrest⟩ := hpre
  have hmark := hoccurs.mark hkey
  rw [List.getElem?_append_left hi] at hmark
  cases i with
  | zero => exact hfront hoccurs
  | succ i => exact hrest (List.mem_of_getElem? hmark)

end TcpClb.Common
