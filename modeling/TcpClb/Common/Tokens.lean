import Mathlib.Data.List.Basic
import Mathlib.Data.List.TakeWhile

/-!
# Tokens between delimiters

`strtok` skips delimiters and takes what stands before the next one. The tokens that repeated calls find are
the pieces between the delimiters that are not empty, so adjacent delimiters count once. There are as many
tokens as delimiters and one more exactly if no piece is empty.
-/

namespace TcpClb.Common

variable {α : Type*} {p q : α → Bool}

/-- A call of `strtok`: the next token and what follows the delimiter behind it. -/
def strtok (p : α → Bool) (s : List α) : Option (List α × List α) :=
  match s.dropWhile p with
  | [] => none
  | c :: rest =>
    some ((c :: rest).takeWhile fun d => !p d, ((c :: rest).dropWhile fun d => !p d).drop 1)

/-- The tokens that repeated calls of `strtok` find. -/
def tokens (p : α → Bool) (s : List α) : List (List α) := (s.splitOnP p).filter fun piece => !piece.isEmpty

/-- A character that is not in a text delimits nothing in it. -/
theorem beq_eq_false_of_notMem [BEq α] [LawfulBEq α] {s : List α} {d : α} (h : d ∉ s) :
    ∀ c ∈ s, (c == d) = false := by
  intro c hc
  rw [beq_eq_false_iff_ne]
  rintro rfl
  exact h hc

/-- There is one more piece than there are delimiters. -/
theorem length_splitOnP (p : α → Bool) (s : List α) : (s.splitOnP p).length = s.countP p + 1 := by
  induction s with
  | nil => rfl
  | cons c rest ih =>
    rw [List.splitOnP_cons_eq_if_modifyHead]
    by_cases hc : p c
    · rw [if_pos hc, List.length_cons, ih, List.countP_cons_of_pos hc]
    · rw [if_neg hc, List.length_modifyHead, ih, List.countP_cons_of_neg hc]

/-- There is at most one more token than there are delimiters. -/
theorem length_tokens_le (p : α → Bool) (s : List α) : (tokens p s).length ≤ s.countP p + 1 := by
  rw [← length_splitOnP]
  exact List.length_filter_le _ _

/-- There is one more token than there are delimiters exactly if no piece is empty. -/
theorem length_tokens_eq_iff (p : α → Bool) (s : List α) :
    (tokens p s).length = s.countP p + 1 ↔ ∀ piece ∈ s.splitOnP p, piece ≠ [] := by
  rw [← length_splitOnP, tokens, List.length_filter_eq_length_iff]
  simp

/-- If no piece is empty the tokens are the pieces. -/
theorem tokens_eq_splitOnP {s : List α} (h : ∀ piece ∈ s.splitOnP p, piece ≠ []) :
    tokens p s = s.splitOnP p := by
  rw [tokens, List.filter_eq_self]
  simpa using h

/-- Delimiters in front are skipped. -/
theorem tokens_cons_delimiter {c : α} (hc : p c = true) (s : List α) : tokens p (c :: s) = tokens p s := by
  simp [tokens, List.splitOnP_cons_eq_if_modifyHead, hc]

/-- The delimiters in front do not matter. -/
theorem tokens_dropWhile (p : α → Bool) (s : List α) : tokens p (s.dropWhile p) = tokens p s := by
  induction s with
  | nil => rfl
  | cons c rest ih =>
    by_cases hc : p c
    · rw [List.dropWhile_cons_of_pos hc, tokens_cons_delimiter hc, ih]
    · rw [List.dropWhile_cons_of_neg hc]

/-- A text without delimiters is one token. -/
theorem tokens_of_noDelimiter {s : List α} (hs : s ≠ []) (hnone : ∀ c ∈ s, p c = false) : tokens p s = [s] := by
  simp [tokens, List.splitOnP_eq_singleton hnone, hs]

/-- The first token ends at the first delimiter. -/
theorem tokens_append_cons {t : List α} (ht : t ≠ []) (hnone : ∀ c ∈ t, p c = false) {d : α} (hd : p d = true)
    (s : List α) : tokens p (t ++ d :: s) = t :: tokens p s := by
  simp [tokens, List.splitOnP_append_cons_of_forall_mem hnone d hd, ht]

/-- Tokens that each end at a delimiter come before those of the rest. -/
theorem tokens_flatMap_append {ts : List (List α)} {d : α} (hd : p d = true)
    (hts : ∀ t ∈ ts, t ≠ [] ∧ ∀ c ∈ t, p c = false) (s : List α) :
    tokens p (ts.flatMap (fun t => t ++ [d]) ++ s) = ts ++ tokens p s := by
  induction ts with
  | nil => rfl
  | cons t rest ih =>
    obtain ⟨⟨hne, hnone⟩, hrest⟩ := List.forall_mem_cons.mp hts
    rw [List.flatMap_cons, List.append_assoc, List.append_assoc, List.singleton_append,
      tokens_append_cons hne hnone hd, ih hrest, List.cons_append]

/-- A character in front that is no delimiter belongs to the first piece. -/
theorem exists_splitOnP_cons {c : α} (hc : p c = false) (s : List α) :
    ∃ piece pieces, s.splitOnP p = piece :: pieces ∧ (c :: s).splitOnP p = (c :: piece) :: pieces := by
  obtain ⟨piece, pieces, hsplit⟩ := List.exists_cons_of_ne_nil (List.splitOnP_ne_nil p s)
  refine ⟨piece, pieces, hsplit, ?_⟩
  rw [List.splitOnP_cons_eq_if_modifyHead, if_neg (by simp [hc]), hsplit]
  rfl

/-- Every character that is no delimiter is in a token. -/
theorem exists_mem_tokens {s : List α} {c : α} (hc : c ∈ s) (hp : p c = false) : ∃ t ∈ tokens p s, c ∈ t := by
  induction s with
  | nil => cases hc
  | cons d rest ih =>
    by_cases hd : p d = true
    · rw [tokens_cons_delimiter hd]
      refine ih ((List.mem_cons.mp hc).resolve_left ?_)
      rintro rfl
      rw [hp] at hd
      cases hd
    · obtain ⟨piece, pieces, hrest, hsplit⟩ := exists_splitOnP_cons (Bool.eq_false_iff.mpr hd) rest
      have htokens : tokens p (d :: rest) = (d :: piece) :: pieces.filter fun t => !t.isEmpty := by
        rw [tokens, hsplit, List.filter_cons_of_pos rfl]
      rw [htokens]
      rcases List.mem_cons.mp hc with rfl | hmem
      · exact ⟨_, List.mem_cons_self, List.mem_cons_self⟩
      · obtain ⟨t, ht, hct⟩ := ih hmem
        rw [tokens, hrest] at ht
        obtain ⟨hmem, hne⟩ := List.mem_filter.mp ht
        rcases List.mem_cons.mp hmem with rfl | hlater
        · exact ⟨_, List.mem_cons_self, List.mem_cons_of_mem d hct⟩
        · exact ⟨t, List.mem_cons_of_mem _ (List.mem_filter.mpr ⟨hlater, hne⟩), hct⟩

/-- `strtok` skips delimiters, takes what stands before the next one and leaves what is behind it. -/
theorem strtok_eq_some {s t rest : List α} (h : strtok p s = some (t, rest)) :
    ∃ c tail, s.dropWhile p = c :: tail ∧ t = (c :: tail).takeWhile (fun d => !p d) ∧
      rest = ((c :: tail).dropWhile fun d => !p d).drop 1 := by
  rw [strtok] at h
  cases hs : s.dropWhile p with
  | nil => simp [hs] at h
  | cons c tail =>
    rw [hs] at h
    obtain ⟨rfl, rfl⟩ := Prod.mk.inj (Option.some.inj h)
    exact ⟨c, tail, rfl, rfl, rfl⟩

/-- What `strtok` finds is the first token, and the rest has the others. -/
theorem tokens_of_strtok {s t rest : List α} (h : strtok p s = some (t, rest)) :
    tokens p s = t :: tokens p rest := by
  obtain ⟨c, tail, hs, rfl, rfl⟩ := strtok_eq_some h
  rw [← tokens_dropWhile, hs]
  have hc : p c = false := by
    have hhead := List.head_dropWhile_not (p := p) (l := s) (by simp [hs])
    simpa [hs] using hhead
  have hnone : ∀ d ∈ (c :: tail).takeWhile fun d => !p d, p d = false := by
    intro d hd
    simpa using List.mem_takeWhile_imp hd
  have hfull : (c :: tail).takeWhile (fun d => !p d) ≠ [] := by simp [hc]
  have hsplit := List.takeWhile_append_dropWhile (p := fun d => !p d) (l := c :: tail)
  cases hrest : (c :: tail).dropWhile fun d => !p d with
  | nil =>
    rw [hrest, List.append_nil] at hsplit
    have hone := tokens_of_noDelimiter hfull hnone
    rw [hsplit] at hone ⊢
    exact hone
  | cons d after =>
    have hd : p d = true := by
      have hhead := List.head_dropWhile_not (p := fun d => !p d) (l := c :: tail) (by simp [hrest])
      simpa [hrest] using hhead
    have hfirst := tokens_append_cons hfull hnone hd after
    rw [hrest] at hsplit
    rw [hsplit] at hfirst
    exact hfirst

/-- What `strtok` leaves is the end of the text. -/
theorem suffix_of_strtok {s t rest : List α} (h : strtok p s = some (t, rest)) : rest <:+ s := by
  obtain ⟨c, tail, hs, -, rfl⟩ := strtok_eq_some h
  have htail : c :: tail <:+ s := hs ▸ List.dropWhile_suffix p
  exact ((List.drop_suffix 1 _).trans (List.dropWhile_suffix _)).trans htail

/-- `strtok` finds nothing if there are only delimiters. -/
theorem strtok_eq_none_iff (s : List α) : strtok p s = none ↔ ∀ c ∈ s, p c = true := by
  rw [strtok, ← List.dropWhile_eq_nil_iff]
  cases s.dropWhile p with
  | nil => simp
  | cons c rest => simp

/-- There is no token if there are only delimiters. -/
theorem tokens_eq_nil_iff (p : α → Bool) (s : List α) : tokens p s = [] ↔ ∀ c ∈ s, p c = true := by
  rw [← strtok_eq_none_iff]
  cases h : strtok p s with
  | none =>
    have hall := (strtok_eq_none_iff s).mp h
    rw [← tokens_dropWhile, List.dropWhile_eq_nil_iff.mpr hall]
    simp [tokens]
  | some found =>
    obtain ⟨t, rest⟩ := found
    rw [tokens_of_strtok h]
    simp

/-- Only the characters of the text matter. -/
theorem tokens_congr {s : List α} (h : ∀ c ∈ s, p c = q c) : tokens p s = tokens q s := by
  have hsplit : s.splitOnP p = s.splitOnP q := by
    induction s with
    | nil => rfl
    | cons c rest ih =>
      rw [List.splitOnP_cons_eq_if_modifyHead, List.splitOnP_cons_eq_if_modifyHead,
        h c List.mem_cons_self, ih fun d hd => h d (List.mem_cons_of_mem c hd)]
  rw [tokens, tokens, hsplit]

/-- The text before a delimiter that stands alone is the first token, unless it is empty. -/
theorem strtok_append_cons {s rest : List α} {d : α} (hs : s ≠ []) (hnone : ∀ c ∈ s, p c = false)
    (hd : p d = true) : strtok p (s ++ d :: rest) = some (s, rest) := by
  cases s with
  | nil => exact absurd rfl hs
  | cons c tail =>
    have hc : p c = false := hnone c List.mem_cons_self
    have htake : ((c :: tail) ++ d :: rest).takeWhile (fun e => !p e) = c :: tail := by
      rw [List.takeWhile_append_of_pos fun e he => by simp [hnone e he]]
      simp [hd]
    have hdrop : ((c :: tail) ++ d :: rest).dropWhile (fun e => !p e) = d :: rest := by
      rw [List.dropWhile_append_of_pos fun e he => by simp [hnone e he]]
      simp [hd]
    rw [strtok, List.cons_append, List.dropWhile_cons_of_neg (by simp [hc])]
    change some (((c :: tail) ++ d :: rest).takeWhile _, (((c :: tail) ++ d :: rest).dropWhile _).drop 1) = _
    rw [htake, hdrop]
    rfl

/-- A delimiter at the beginning is skipped. -/
theorem strtok_cons {s : List α} {d : α} (hd : p d = true) : strtok p (d :: s) = strtok p s := by
  rw [strtok, strtok, List.dropWhile_cons_of_pos hd]

/-- A text without delimiters is found as a whole, and nothing is left. -/
theorem strtok_of_noDelimiter {s : List α} (hs : s ≠ []) (hnone : ∀ c ∈ s, p c = false) :
    strtok p s = some (s, []) := by
  cases s with
  | nil => exact absurd rfl hs
  | cons c tail =>
    have htake : (c :: tail).takeWhile (fun e => !p e) = c :: tail :=
      List.takeWhile_eq_self_iff.mpr fun e he => by simp [hnone e he]
    have hdrop : (c :: tail).dropWhile (fun e => !p e) = [] :=
      List.dropWhile_eq_nil_iff.mpr fun e he => by simp [hnone e he]
    rw [strtok, List.dropWhile_cons_of_neg (by simp [hnone c List.mem_cons_self])]
    change some ((c :: tail).takeWhile _, ((c :: tail).dropWhile _).drop 1) = _
    rw [htake, hdrop]
    rfl

end TcpClb.Common
