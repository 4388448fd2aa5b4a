import TcpClb.RoundRobin
import Mathlib.Data.List.Nodup

/-!
# What the table operations do to the entry of an id

The presence test, the update and the append are three separate traversals. Each theorem says
what one of them does to `entryOf`, the first entry of an id, and to the list of ids in the
table, so that later proofs need neither the loops nor their order.
-/

namespace TcpClb

variable {F P : Type}

/-- The first entry of an id, which is the one every operation works on. -/
def entryOf (head : List (Tsidque F P)) (t : List Char) : Option (Tsidque F P) :=
  head.find? fun temp => temp.id = t

/-- The ids in the table, in order. -/
def idsOf (head : List (Tsidque F P)) : List (List Char) := head.map Tsidque.id

@[simp] theorem entryOf_nil (t : List Char) : entryOf ([] : List (Tsidque F P)) t = none := rfl

/-- The head entry answers for its own id, and the rest of the table for the others. -/
theorem entryOf_cons (temp : Tsidque F P) (next : List (Tsidque F P)) (t : List Char) :
    entryOf (temp :: next) t = if temp.id = t then some temp else entryOf next t := by
  unfold entryOf
  rw [List.find?_cons]
  by_cases h : temp.id = t <;> simp [h]

/-- An entry that is found has the id it was looked up under. -/
theorem id_of_entryOf {head : List (Tsidque F P)} {t : List Char} {e : Tsidque F P}
    (h : entryOf head t = some e) : e.id = t := by
  simpa using List.find?_some h

/-- With distinct ids, every entry is the first of its id. -/
theorem entryOf_of_mem {head : List (Tsidque F P)} {e : Tsidque F P} (hnodup : (idsOf head).Nodup)
    (he : e ∈ head) : entryOf head e.id = some e := by
  induction head with
  | nil => cases he
  | cons temp next ih =>
    obtain ⟨hnotin, hnodup⟩ := List.nodup_cons.mp hnodup
    rw [entryOf_cons]
    rcases List.mem_cons.mp he with rfl | he
    · rw [if_pos rfl]
    · have hne : temp.id ≠ e.id := fun heq => hnotin (heq ▸ List.mem_map_of_mem he)
      rw [if_neg hne, ih hnodup he]

/-- The presence test reports the connection stored in the entry. -/
theorem isIDPresentIdq_eq (head : List (Tsidque F P)) (t : List Char) (ht : t ≠ []) :
    isIDPresentIdq head t = (entryOf head t).map Tsidque.conn := by
  rw [isIDPresentIdq, if_neg ht, entryOf]

/-- An id has an entry exactly when it is among the ids of the table. -/
theorem entryOf_isSome_iff (head : List (Tsidque F P)) (t : List Char) :
    (entryOf head t).isSome ↔ t ∈ idsOf head := by
  simp [entryOf, idsOf, List.find?_isSome]

/-- The loop of the update passes the entries of other ids. -/
theorem updateFrom_skipped {id : List Char} (callbackF : F) (callbackParam : P) (now : Timeval)
    {front : List (Tsidque F P)} (hfront : ∀ e ∈ front, e.id ≠ id) (head : List (Tsidque F P)) :
    updateFrom id callbackF callbackParam now (front ++ head) =
      (front ++ (updateFrom id callbackF callbackParam now head).1,
        (updateFrom id callbackF callbackParam now head).2) := by
  induction front with
  | nil => rfl
  | cons temp next ih =>
    obtain ⟨htemp, hnext⟩ := List.forall_mem_cons.mp hfront
    rw [List.cons_append, updateFrom, if_neg htemp, ih hnext]
    rfl

/-- Without an entry of the id the loop goes to the end. -/
theorem updateFrom_absent {id : List Char} (callbackF : F) (callbackParam : P) (now : Timeval)
    {head : List (Tsidque F P)} (habsent : ∀ e ∈ head, e.id ≠ id) :
    updateFrom id callbackF callbackParam now head = (head, -1) := by
  have hskipped := updateFrom_skipped callbackF callbackParam now habsent []
  rwa [List.append_nil, updateFrom, List.append_nil] at hskipped

/-- The loop changes nothing of a table that lacks the id, and else renews the first entry of the id. -/
theorem updateFrom_cases (id : List Char) (callbackF : F) (callbackParam : P) (now : Timeval)
    (head : List (Tsidque F P)) :
    entryOf head id = none ∧ updateFrom id callbackF callbackParam now head = (head, -1) ∨
      ∃ front temp back, entryOf head id = some temp ∧ head = front ++ temp :: back ∧
        updateFrom id callbackF callbackParam now head =
          (front ++ temp.renew callbackF callbackParam now :: back, temp.conn) := by
  cases he : entryOf head id with
  | none =>
    refine Or.inl ⟨rfl, updateFrom_absent callbackF callbackParam now fun e hmem => ?_⟩
    simpa using List.find?_eq_none.mp he e hmem
  | some temp =>
    obtain ⟨hid, front, back, rfl, hfront⟩ := List.find?_eq_some_iff_append.mp he
    have hskipped : ∀ e ∈ front, e.id ≠ id := fun e hmem => by simpa using hfront e hmem
    refine Or.inr ⟨front, temp, back, rfl, rfl, ?_⟩
    rw [updateFrom_skipped callbackF callbackParam now hskipped, updateFrom, if_pos (of_decide_eq_true hid)]

/-- The update changes the entry of its own id only, by renewing it. -/
theorem entryOf_updateFrom (id : List Char) (callbackF : F) (callbackParam : P) (now : Timeval)
    (head : List (Tsidque F P)) (t : List Char) :
    entryOf (updateFrom id callbackF callbackParam now head).1 t =
      if t = id then (entryOf head id).map fun temp => temp.renew callbackF callbackParam now
      else entryOf head t := by
  induction head with
  | nil => simp [updateFrom]
  | cons temp next ih =>
    unfold updateFrom
    by_cases hid : temp.id = id
    · have hrenew : (temp.renew callbackF callbackParam now).id = id := hid
      simp only [entryOf_cons, hrenew, hid, if_true, Option.map_some]
      by_cases ht : t = id
      · simp [ht]
      · simp [ht, Ne.symm ht]
    · simp only [if_neg hid, entryOf_cons, ih]
      by_cases ht : t = id
      · simp [ht, hid]
      · simp [ht]

/-- The update keeps the ids of the table and their order. -/
theorem idsOf_updateFrom (id : List Char) (callbackF : F) (callbackParam : P) (now : Timeval)
    (head : List (Tsidque F P)) :
    idsOf (updateFrom id callbackF callbackParam now head).1 = idsOf head := by
  rcases updateFrom_cases id callbackF callbackParam now head with ⟨_, hsame⟩ | ⟨_, _, _, _, rfl, hrenewed⟩
  · rw [hsame]
  · simp [hrenewed, idsOf, Tsidque.renew]

/-- The update returns the connection of the entry, or -1 when the id has none. -/
theorem updateFrom_ret (id : List Char) (callbackF : F) (callbackParam : P) (now : Timeval)
    (head : List (Tsidque F P)) :
    (updateFrom id callbackF callbackParam now head).2 =
      ((entryOf head id).map Tsidque.conn).getD (-1) := by
  rcases updateFrom_cases id callbackF callbackParam now head with ⟨he, hsame⟩ | ⟨_, _, _, he, _, hrenewed⟩
  · rw [he, hsame]
    rfl
  · rw [he, hrenewed]
    rfl

/-- On a table that has the id, `update_entry_idq` is its loop. -/
theorem updateEntryIdq_eq (head : List (Tsidque F P)) (id : List Char) (callbackF : F)
    (callbackParam : P) (now : Timeval) (e : Tsidque F P) (he : entryOf head id = some e) :
    updateEntryIdq head id callbackF callbackParam now =
      updateFrom id callbackF callbackParam now head := by
  unfold updateEntryIdq
  rw [if_neg]
  rintro rfl
  simp at he

/-- Appending an entry for a new id leaves the entries of all other ids alone. -/
theorem entryOf_append_new (head : List (Tsidque F P)) (e : Tsidque F P) (t : List Char)
    (hnew : e.id ∉ idsOf head) :
    entryOf (head ++ [e]) t = if t = e.id then some e else entryOf head t := by
  induction head with
  | nil =>
    simp only [List.nil_append, entryOf_cons, entryOf_nil]
    by_cases ht : t = e.id
    · simp [ht]
    · simp [ht, Ne.symm ht]
  | cons temp next ih =>
    simp only [idsOf, List.map_cons, List.mem_cons, not_or] at hnew
    simp only [List.cons_append, entryOf_cons, ih hnew.2]
    by_cases ht : t = e.id
    · simp [ht, Ne.symm hnew.1]
    · simp [ht]

/-- With distinct ids, removal deletes exactly the entries of the given id, in place. -/
theorem remId_eq_filter (head : List (Tsidque F P)) (t : List Char) (hnodup : (idsOf head).Nodup) :
    remId head t = head.filter fun temp => temp.id ≠ t := by
  induction head with
  | nil => rfl
  | cons current next ih =>
    obtain ⟨hnotin, hnodup⟩ := List.nodup_cons.mp hnodup
    unfold remId
    by_cases hid : current.id = t
    · subst hid
      rw [if_pos rfl, List.filter_cons_of_neg (by simp), List.filter_eq_self.mpr]
      intro e he
      have hne : e.id ≠ current.id := fun heq => hnotin (heq ▸ List.mem_map_of_mem he)
      simpa using hne
    · rw [if_neg hid, ih hnodup, List.filter_cons_of_pos (by simpa using hid)]

/-- After removal the id has no entry, and every other id still has its own. -/
theorem entryOf_remId (head : List (Tsidque F P)) (t t' : List Char) (hnodup : (idsOf head).Nodup) :
    entryOf (remId head t) t' = if t' = t then none else entryOf head t' := by
  induction head with
  | nil => simp [remId]
  | cons current next ih =>
    obtain ⟨hnotin, hnodup⟩ := List.nodup_cons.mp hnodup
    unfold remId
    by_cases hid : current.id = t
    · subst hid
      rw [if_pos rfl, entryOf_cons]
      by_cases ht : t' = current.id
      · subst ht
        have hnone : entryOf next current.id = none := by
          rw [← Option.not_isSome_iff_eq_none, entryOf_isSome_iff]
          exact hnotin
        rw [if_pos rfl, hnone]
      · rw [if_neg ht, if_neg (Ne.symm ht)]
    · rw [if_neg hid, entryOf_cons, entryOf_cons, ih hnodup]
      by_cases ht : t' = t
      · subst ht
        simp [hid]
      · simp [ht]

/-- Removal keeps the order of the remaining ids. -/
theorem idsOf_remId_sublist (head : List (Tsidque F P)) (t : List Char) :
    (idsOf (remId head t)).Sublist (idsOf head) := by
  induction head with
  | nil => exact List.Sublist.refl _
  | cons current next ih =>
    unfold remId
    by_cases hid : current.id = t
    · rw [if_pos hid]
      exact List.sublist_cons_self _ _
    · rw [if_neg hid]
      exact List.Sublist.cons_cons _ ih

/-- The sweep changes nothing of an entry but its expiry flag. -/
theorem markExpired_eq (current : Tsidque F P) (now : Timeval) :
    current.markExpired now =
      { current with isExpired := current.eTime.before now || current.isExpired } := by
  unfold Tsidque.markExpired
  cases current.eTime.before now <;> rfl

/-- The parameter of every entry that a sweep finds expired can be printed. -/
def PrintsExpired (printable : P → Bool) (head : List (Tsidque F P)) (now : ℕ → Timeval) : Prop :=
  ∀ (i : ℕ) (e : Tsidque F P), head[i]? = some e → e.eTime.before (now i) = true → printable e.callbackParam = true

/-- The first entry is looked at with the first reading of the clock, the others with those after it. -/
theorem printsExpired_cons (printable : P → Bool) (current : Tsidque F P) (next : List (Tsidque F P))
    (now : ℕ → Timeval) : PrintsExpired printable (current :: next) now ↔
      (current.eTime.before (now 0) = true → printable current.callbackParam = true) ∧
        PrintsExpired printable next fun i => now (i + 1) := by
  constructor
  · exact fun h => ⟨h 0 current rfl, fun i e he => h (i + 1) e he⟩
  · rintro ⟨hfirst, hrest⟩ i e he
    cases i with
    | zero => exact Option.some.inj he ▸ hfirst
    | succ i => exact hrest i e he

/-- A sweep returns exactly if the parameters it prints lead to strings, and it marks what has expired. -/
theorem listExpiredIdq_eq_some_iff (printable : P → Bool) (head swept : List (Tsidque F P)) (now : ℕ → Timeval) :
    listExpiredIdq printable head now = some swept ↔
      PrintsExpired printable head now ∧ swept = sweptIdq head now := by
  induction head generalizing now swept with
  | nil =>
    rw [listExpiredIdq, sweptIdq, Option.some.injEq, eq_comm, and_iff_right]
    exact fun i e he => absurd he (by simp)
  | cons current next ih =>
    rw [listExpiredIdq, sweptIdq, printsExpired_cons, Option.ite_none_left_eq_some, Option.map_eq_some_iff,
      not_and, Bool.not_eq_false, and_assoc]
    refine and_congr_right fun _ => ?_
    constructor
    · rintro ⟨rest, hrest, rfl⟩
      obtain ⟨hprints, rfl⟩ := (ih rest _).mp hrest
      exact ⟨hprints, rfl⟩
    · rintro ⟨hprints, rfl⟩
      exact ⟨_, (ih _ _).mpr ⟨hprints, rfl⟩, rfl⟩

/-- The sweep keeps the ids of the table and their order. -/
theorem idsOf_sweptIdq (head : List (Tsidque F P)) (now : ℕ → Timeval) :
    idsOf (sweptIdq head now) = idsOf head := by
  induction head generalizing now with
  | nil => rfl
  | cons current next ih =>
    have htail := ih fun i => now (i + 1)
    simp only [idsOf, sweptIdq, List.map_cons, markExpired_eq] at htail ⊢
    rw [htail]

/-- The entry of an id keeps its connection and its callback in a sweep. -/
theorem entryOf_sweptIdq (head : List (Tsidque F P)) (now : ℕ → Timeval) (t : List Char) :
    ∃ flag : Tsidque F P → Bool, entryOf (sweptIdq head now) t =
      (entryOf head t).map fun temp => { temp with isExpired := flag temp } := by
  induction head generalizing now with
  | nil => exact ⟨fun _ => false, rfl⟩
  | cons current next ih =>
    simp only [sweptIdq, entryOf_cons, markExpired_eq]
    by_cases hid : current.id = t
    · refine ⟨fun temp => temp.eTime.before (now 0) || temp.isExpired, ?_⟩
      simp only [if_pos hid, Option.map_some]
    · obtain ⟨flag, hflag⟩ := ih fun i => now (i + 1)
      exact ⟨flag, by simp only [if_neg hid, hflag]⟩

/-- An entry of the updated table was in the table or is one of its entries renewed. -/
theorem mem_updateFrom {head : List (Tsidque F P)} {id : List Char} {callbackF : F} {callbackParam : P}
    {now : Timeval} {e : Tsidque F P} (he : e ∈ (updateFrom id callbackF callbackParam now head).1) :
    e ∈ head ∨ ∃ d ∈ head, e = d.renew callbackF callbackParam now := by
  rcases updateFrom_cases id callbackF callbackParam now head with ⟨_, hsame⟩ | ⟨front, temp, back, _, rfl, hrenewed⟩
  · rw [hsame] at he
    exact Or.inl he
  · rw [hrenewed] at he
    rcases List.mem_append.mp he with hfront | hrest
    · exact Or.inl (List.mem_append_left _ hfront)
    · rcases List.mem_cons.mp hrest with rfl | hback
      · exact Or.inr ⟨temp, List.mem_append_right front List.mem_cons_self, rfl⟩
      · exact Or.inl (List.mem_append_right front (List.mem_cons_of_mem temp hback))

/-- The sweep takes the entries one by one, each with a clock reading of its own. -/
theorem getElem?_sweptIdq (head : List (Tsidque F P)) (now : ℕ → Timeval) (i : ℕ) :
    (sweptIdq head now)[i]? = head[i]?.map fun e => e.markExpired (now i) := by
  induction head generalizing now i with
  | nil => rfl
  | cons current next ih =>
    cases i with
    | zero => rfl
    | succ i => exact ih (fun i => now (i + 1)) i

/-- An entry of the swept table is one of the table, marked or not. -/
theorem mem_sweptIdq {head : List (Tsidque F P)} {now : ℕ → Timeval} {e : Tsidque F P}
    (he : e ∈ sweptIdq head now) : ∃ d ∈ head, ∃ i, e = d.markExpired (now i) := by
  obtain ⟨i, hget⟩ := List.mem_iff_getElem?.mp he
  rw [getElem?_sweptIdq] at hget
  obtain ⟨d, hd, rfl⟩ := Option.map_eq_some_iff.mp hget
  exact ⟨d, List.mem_of_getElem? hd, i, rfl⟩

end TcpClb
