import TcpClb.XmlAttribute
import TcpClb.Records
import Mathlib.Data.List.Nodup

/-!
# Well-formed message bodies

A body is a sequence of elements `<TAG>text</TAG>`, all of them inside one `EVENT` element or none.
The known elements occur at most once and are not empty; nothing is assumed of the others but that
their names and texts have no `<`. The theorems say where in such a text the keys of a tag can
occur: nowhere but in the elements of that name.
-/

namespace TcpClb

open TcpClb.Common

/-- The name of an element. A `/` at the front would make its start tag an end tag. -/
structure ElementName extends TagName where
  unclosed : '>' ∉ chars
  opening : chars.head? ≠ some '/'

/-- `TYPE`. -/
def typeName : ElementName := ⟨⟨['T', 'Y', 'P', 'E'], by decide⟩, by decide, by decide⟩

/-- `TID`. -/
def tidName : ElementName := ⟨⟨['T', 'I', 'D'], by decide⟩, by decide, by decide⟩

/-- `SID`. -/
def sidName : ElementName := ⟨⟨['S', 'I', 'D'], by decide⟩, by decide, by decide⟩

/-- `REPLY_CODE`. -/
def replyCodeName : ElementName :=
  ⟨⟨['R', 'E', 'P', 'L', 'Y', '_', 'C', 'O', 'D', 'E'], by decide⟩, by decide, by decide⟩

/-- `EVENT`. -/
def eventName : ElementName := ⟨⟨['E', 'V', 'E', 'N', 'T'], by decide⟩, by decide, by decide⟩

/-- The names whose values the receive worker reads. -/
def fieldNames : List (List Char) := [typeName.chars, tidName.chars, sidName.chars, replyCodeName.chars]

/-- An element with a text that contains no markup. -/
structure Element where
  name : ElementName
  text : List Char
  plain : '<' ∉ text

/-- The element as it is written. -/
def Element.written (e : Element) : List Char := e.name.startKey ++ e.text ++ e.name.endKey

/-- The elements as they are written, one after the other. -/
def writtenAll (elements : List Element) : List Char := (elements.map Element.written).flatten

/-- A well-formed body. -/
structure XmlBody where
  event : Bool
  elements : List Element
  nonempty : ∀ e ∈ elements, e.name.chars ∈ fieldNames → e.text ≠ []
  once : ((elements.map fun e => e.name.chars).filter fun name => name ∈ fieldNames).Nodup
  tidFits : ∀ e ∈ elements, e.name.chars = tidName.chars → e.text.length < keySize
  noEvent : ∀ e ∈ elements, e.name.chars ≠ eventName.chars
  inside : event = true → elements ≠ []

/-- The body as it is written. -/
def XmlBody.text (body : XmlBody) : List Char :=
  if body.event then eventName.startKey ++ writtenAll body.elements ++ eventName.endKey
  else writtenAll body.elements

/-- The value of a tag in the body. -/
def XmlBody.value (body : XmlBody) (name : List Char) : Option (List Char) :=
  (body.elements.find? fun e => e.name.chars = name).map Element.text

/-- Neither key of a tag begins in the first part of a text in two parts. -/
def NoKeys (tag : TagName) (pre post : List Char) : Prop :=
  NoneWithin tag.startKey pre post ∧ NoneWithin tag.endKey pre post

/-- No key begins in two parts exactly if none begins in either. -/
theorem noKeys_append (tag : TagName) (pre pre' post : List Char) :
    NoKeys tag (pre ++ pre') post ↔ NoKeys tag pre (pre' ++ post) ∧ NoKeys tag pre' post := by
  rw [NoKeys, noneWithin_append, noneWithin_append, NoKeys, NoKeys]
  exact and_and_and_comm

/-- No key begins in a text without markup. -/
theorem noKeys_of_plain (tag : TagName) {pre : List Char} (hpre : '<' ∉ pre) (post : List Char) :
    NoKeys tag pre post :=
  ⟨noneWithin_of_not_mem tag.startKey_marked hpre post, noneWithin_of_not_mem tag.endKey_marked hpre post⟩

/-- A start tag has no key of another tag. -/
theorem noKeys_startKey {tag name : ElementName} (hne : name.chars ≠ tag.chars) (post : List Char) :
    NoKeys tag.toTagName name.startKey post := by
  refine ⟨noneWithin_of_marked tag.startKey_marked name.startKey_marked post ?_,
    noneWithin_of_marked tag.endKey_marked name.startKey_marked post ?_⟩
  · rintro ⟨rest, h⟩
    simp only [TagName.startKey, List.cons_append, List.append_assoc, List.cons.injEq, true_and] at h
    exact hne (eq_of_append_cons h tag.unclosed name.unclosed).symm
  · rintro ⟨rest, h⟩
    simp only [TagName.startKey, TagName.endKey, List.cons_append, List.append_assoc, List.cons.injEq,
      true_and] at h
    have hopening := name.opening
    cases hchars : name.chars with
    | nil =>
      simp only [hchars, List.nil_append, List.cons.injEq] at h
      exact absurd h.1 (by decide)
    | cons c chars =>
      rw [hchars, List.cons_append, List.cons.injEq] at h
      rw [hchars, List.head?_cons, ← h.1] at hopening
      exact hopening rfl

/-- Nor does an end tag. -/
theorem noKeys_endKey {tag name : ElementName} (hne : name.chars ≠ tag.chars) (post : List Char) :
    NoKeys tag.toTagName name.endKey post := by
  refine ⟨noneWithin_of_marked tag.startKey_marked name.endKey_marked post ?_,
    noneWithin_of_marked tag.endKey_marked name.endKey_marked post ?_⟩
  · rintro ⟨rest, h⟩
    simp only [TagName.startKey, TagName.endKey, List.cons_append, List.append_assoc, List.cons.injEq,
      true_and] at h
    have hopening := tag.opening
    cases hchars : tag.chars with
    | nil =>
      simp only [hchars, List.nil_append, List.cons.injEq] at h
      exact absurd h.1 (by decide)
    | cons c chars =>
      rw [hchars, List.cons_append, List.cons.injEq] at h
      rw [hchars, List.head?_cons, h.1] at hopening
      exact hopening rfl
  · rintro ⟨rest, h⟩
    simp only [TagName.endKey, List.cons_append, List.append_assoc, List.cons.injEq, true_and] at h
    exact hne (eq_of_append_cons h tag.unclosed name.unclosed).symm

/-- An element of another name has no key of the tag. -/
theorem noKeys_written {tag : ElementName} {e : Element} (hne : e.name.chars ≠ tag.chars)
    (post : List Char) : NoKeys tag.toTagName e.written post := by
  rw [Element.written, noKeys_append, noKeys_append]
  exact ⟨⟨noKeys_startKey hne _, noKeys_of_plain _ e.plain _⟩, noKeys_endKey hne _⟩

/-- Elements of other names have no key of the tag. -/
theorem noKeys_writtenAll {tag : ElementName} {elements : List Element}
    (hne : ∀ e ∈ elements, e.name.chars ≠ tag.chars) (post : List Char) :
    NoKeys tag.toTagName (writtenAll elements) post := by
  induction elements with
  | nil => exact noKeys_of_plain _ List.not_mem_nil post
  | cons e rest ih =>
    rw [writtenAll, List.map_cons, List.flatten_cons, noKeys_append]
    refine ⟨noKeys_written (hne e List.mem_cons_self) _, ih fun e' he' => ?_⟩
    exact hne e' (List.mem_cons_of_mem e he')

/-- The loop finds an element that is not empty, if nothing before it and nothing in it looks like
one of its keys. -/
theorem parseXmlAttribute_found (tag : TagName) (pre post : List Char) {value : List Char}
    (hvalue : value ≠ []) (hpre : NoKeys tag pre (tag.startKey ++ value ++ tag.endKey ++ post))
    (hinside : NoKeys tag value (tag.endKey ++ post)) :
    parseXmlAttribute (pre ++ (tag.startKey ++ value ++ tag.endKey ++ post)) tag.startKey tag.endKey =
      (1, ⟨value.length, some (pre.length + tag.startKey.length)⟩) := by
  have hpos := List.length_pos_iff.mpr hvalue
  have hstart := occursAt_length tag.startKey pre (value ++ (tag.endKey ++ post))
  have hend := (occursAt_append_right tag.endKey (pre ++ tag.startKey) _ _).mpr
    (occursAt_length tag.endKey value post)
  simp only [List.append_assoc] at hstart hend hpre ⊢
  rw [List.length_append] at hend
  rw [parseXmlAttribute_eq, scanFrom_skip _ tag 0 (Nat.zero_le pre.length) (fun p _ hp => hpre.1 p hp)
    (fun p _ hp => hpre.2 p hp), scanFrom_start _ tag 0 hstart,
    scanFrom_skip _ tag _ (show _ ≤ pre.length + tag.startKey.length + value.length by omega)]
  · have hlen : ((pre.length + tag.startKey.length + value.length : ℕ) : ℤ) -
        ((pre.length + tag.startKey.length : ℕ) : ℤ) = value.length := by omega
    simp only [scanFrom_end _ tag _ hend, hlen]
  all_goals
    intro p hp hlt hoccurs
    obtain ⟨i, rfl⟩ := Nat.exists_eq_add_of_le (show pre.length + tag.startKey.length ≤ p by omega)
    rw [← List.append_assoc, ← List.length_append, occursAt_append_right] at hoccurs
  · exact hinside.1 i (by omega) hoccurs
  · exact hinside.2 i (by omega) hoccurs

/-- Where no key of a tag occurs, nothing is found. -/
theorem parseXmlAttribute_absent {text : List Char} {tag : TagName} (h : NoKeys tag text []) :
    parseXmlAttribute text tag.startKey tag.endKey = (0, ⟨0, none⟩) := by
  have hend : ∀ p, 0 ≤ p → ¬ OccursAt tag.endKey text p := by
    intro p _ hoccurs
    have hle := hoccurs.le_length tag.endKey_marked.length_pos
    have hpos := tag.endKey_marked.length_pos
    have hnone := h.2 p (by omega)
    rw [List.append_nil] at hnone
    exact hnone hoccurs
  rw [parseXmlAttribute_eq, scanFrom_none text tag 0 0 hend]

/-- What a call writes to `out`. -/
def outOf (text : List Char) (tag : TagName) : Xchar := (parseXmlAttribute text tag.startKey tag.endKey).2

/-- The characters of a value that is found. -/
theorem chars_found (pre startKey value endKey post : List Char) :
    Xchar.chars ⟨value.length, some (pre.length + startKey.length)⟩
      (pre ++ (startKey ++ value ++ endKey ++ post)) = value := by
  have hsplit : pre ++ (startKey ++ value ++ endKey ++ post) =
      (pre ++ startKey) ++ (value ++ (endKey ++ post)) := by simp only [List.append_assoc]
  rw [hsplit, ← List.length_append]
  change ((pre ++ startKey ++ (value ++ (endKey ++ post))).drop (pre ++ startKey).length).take
    (value.length : ℤ).toNat = value
  rw [List.drop_left, Int.toNat_natCast, List.take_left]

/-- Splitting off the first element of a name. -/
theorem writtenAll_find {elements : List Element} {name : List Char} {e : Element}
    (hfind : elements.find? (fun e => e.name.chars = name) = some e) :
    ∃ before after, writtenAll elements = writtenAll before ++ (e.written ++ writtenAll after) ∧
      e.name.chars = name ∧ e ∈ elements ∧ ∀ e' ∈ before, e'.name.chars ≠ name := by
  obtain ⟨hname, before, after, rfl, hbefore⟩ := List.find?_eq_some_iff_append.mp hfind
  refine ⟨before, after, ?_, by simpa using hname, by simp, by simpa using hbefore⟩
  simp [writtenAll]

/-- Among elements, in a surrounding that has no key of the tag, the first element of that name is
found if it is not empty. -/
theorem outOf_some {tag : ElementName} {elements : List Element} {front back : List Char} {e : Element}
    (hfront : ∀ post, NoKeys tag.toTagName front post)
    (hfind : elements.find? (fun e => e.name.chars = tag.chars) = some e) (hne : e.text ≠ []) :
    (outOf (front ++ writtenAll elements ++ back) tag.toTagName).len = e.text.length ∧
      (outOf (front ++ writtenAll elements ++ back) tag.toTagName).chars
        (front ++ writtenAll elements ++ back) = e.text := by
  obtain ⟨before, after, hsplit, hname, _, hbefore⟩ := writtenAll_find hfind
  have hstart : e.name.startKey = tag.startKey := by rw [TagName.startKey, hname, TagName.startKey]
  have hend : e.name.endKey = tag.endKey := by rw [TagName.endKey, hname, TagName.endKey]
  have htext : front ++ writtenAll elements ++ back = (front ++ writtenAll before) ++
      (tag.startKey ++ e.text ++ tag.endKey ++ (writtenAll after ++ back)) := by
    rw [hsplit, Element.written, hstart, hend]
    simp only [List.append_assoc]
  have hfound := parseXmlAttribute_found tag.toTagName (front ++ writtenAll before)
    (writtenAll after ++ back) hne ((noKeys_append _ _ _ _).mpr ⟨hfront _, noKeys_writtenAll hbefore _⟩)
    (noKeys_of_plain _ e.plain _)
  rw [htext, outOf, hfound]
  exact ⟨rfl, chars_found _ _ _ _ _⟩

/-- Without an element of that name, nothing is found. -/
theorem outOf_none {tag : ElementName} {elements : List Element} {front back : List Char}
    (hfront : ∀ post, NoKeys tag.toTagName front post) (hback : ∀ post, NoKeys tag.toTagName back post)
    (hfind : elements.find? (fun e => e.name.chars = tag.chars) = none) :
    outOf (front ++ writtenAll elements ++ back) tag.toTagName = ⟨0, none⟩ := by
  have hnone : ∀ e ∈ elements, e.name.chars ≠ tag.chars := by simpa using hfind
  rw [outOf, parseXmlAttribute_absent]
  rw [noKeys_append, noKeys_append]
  exact ⟨⟨hfront _, noKeys_writtenAll hnone _⟩, hback _⟩

/-- A value of a field is not empty. -/
theorem XmlBody.value_ne_nil (body : XmlBody) {name : List Char} (hname : name ∈ fieldNames)
    {value : List Char} (hvalue : body.value name = some value) : value ≠ [] := by
  obtain ⟨e, he, rfl⟩ := Option.map_eq_some_iff.mp hvalue
  have hchars : e.name.chars = name := by simpa using List.find?_some he
  exact body.nonempty e (List.mem_of_find?_eq_some he) (hchars ▸ hname)

/-- A transaction id fits the id field of a response. -/
theorem XmlBody.tid_fits (body : XmlBody) : ((body.value tidName.chars).getD []).length < keySize := by
  cases hvalue : body.value tidName.chars with
  | none =>
    change 0 < 256
    omega
  | some value =>
    obtain ⟨e, he, rfl⟩ := Option.map_eq_some_iff.mp hvalue
    have hchars : e.name.chars = tidName.chars := by simpa using List.find?_some he
    exact body.tidFits e (List.mem_of_find?_eq_some he) hchars

/-- The value of a field is what the scan for its tag finds, wherever it stands in the body. -/
theorem XmlBody.outOf_field (body : XmlBody) (tag : ElementName) (hfield : tag.chars ∈ fieldNames) :
    (outOf body.text tag.toTagName).len = ((body.value tag.chars).getD []).length ∧
      (outOf body.text tag.toTagName).chars body.text = (body.value tag.chars).getD [] := by
  have hevent : eventName.chars ≠ tag.chars := by
    intro heq
    rw [← heq] at hfield
    revert hfield
    decide
  obtain ⟨front, back, htext, hfront, hback⟩ : ∃ front back,
      body.text = front ++ writtenAll body.elements ++ back ∧
        (∀ post, NoKeys tag.toTagName front post) ∧ ∀ post, NoKeys tag.toTagName back post := by
    by_cases hinside : body.event = true
    · exact ⟨eventName.startKey, eventName.endKey, by rw [XmlBody.text, if_pos hinside],
        noKeys_startKey hevent, noKeys_endKey hevent⟩
    · exact ⟨[], [], by rw [XmlBody.text, if_neg hinside]; simp,
        noKeys_of_plain _ List.not_mem_nil, noKeys_of_plain _ List.not_mem_nil⟩
  rw [htext]
  cases hfind : body.elements.find? (fun e => e.name.chars = tag.chars) with
  | none =>
    rw [outOf_none hfront hback hfind, XmlBody.value, hfind]
    exact ⟨rfl, rfl⟩
  | some e =>
    have hvalue : body.value tag.chars = some e.text := by rw [XmlBody.value, hfind, Option.map_some]
    rw [hvalue, Option.getD_some]
    exact outOf_some hfront hfind (body.value_ne_nil hfield hvalue)

/-- The scan for a field finds something exactly if the body has it. -/
theorem XmlBody.outOf_field_pos (body : XmlBody) (tag : ElementName) (hfield : tag.chars ∈ fieldNames) :
    0 < (outOf body.text tag.toTagName).len ↔ (body.value tag.chars).isSome = true := by
  rw [(body.outOf_field tag hfield).1]
  cases hvalue : body.value tag.chars with
  | none => simp
  | some value => simpa [List.length_pos_iff] using body.value_ne_nil hfield hvalue

/-- Elements are not written as nothing. -/
theorem writtenAll_ne_nil {elements : List Element} (hne : elements ≠ []) : writtenAll elements ≠ [] := by
  cases elements with
  | nil => exact absurd rfl hne
  | cons e rest => simp [writtenAll, Element.written, TagName.startKey]

/-- The scan for `EVENT` finds something exactly if the elements are inside of it. -/
theorem XmlBody.outOf_event_pos (body : XmlBody) :
    0 < (outOf body.text eventName.toTagName).len ↔ body.event = true := by
  by_cases hinside : body.event = true
  · have hne := writtenAll_ne_nil (body.inside hinside)
    have hfound := parseXmlAttribute_found eventName.toTagName [] [] hne
      (noKeys_of_plain eventName.toTagName List.not_mem_nil _) (noKeys_writtenAll body.noEvent _)
    rw [XmlBody.text, if_pos hinside, outOf]
    simp only [List.nil_append, List.append_nil] at hfound
    rw [hfound]
    exact iff_of_true (by simpa [List.length_pos_iff] using hne) hinside
  · have hnone := parseXmlAttribute_absent (noKeys_writtenAll body.noEvent [])
    rw [XmlBody.text, if_neg hinside, outOf, hnone]
    exact iff_of_false (by decide) hinside

end TcpClb
