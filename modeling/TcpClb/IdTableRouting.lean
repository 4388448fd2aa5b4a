import TcpClb.IdTableEntries

/-!
# Well-formed id tables and the routing of an id

The ids of a well-formed table are distinct and nonempty, and every entry is assigned to an
existing connection. All operations keep the table well formed. On such a table the update that
follows a successful presence test always succeeds, and routing an id changes its own entry only.
-/

namespace TcpClb

variable {F P : Type}

/-- Distinct, nonempty ids, each assigned to one of `n` connections. -/
structure TableWf (n : ℕ) (table : List (Tsidque F P)) : Prop where
  distinct : (idsOf table).Nodup
  nonempty : [] ∉ idsOf table
  inRange : ∀ e ∈ table, 0 ≤ e.conn ∧ e.conn < n

/-- An entry that is found is in the table. -/
theorem mem_of_entryOf {table : List (Tsidque F P)} {t : List Char} {e : Tsidque F P}
    (he : entryOf table t = some e) : e ∈ table := List.mem_of_find?_eq_some he

/-- The empty table is well formed. -/
theorem tableWf_nil (n : ℕ) : TableWf n ([] : List (Tsidque F P)) :=
  ⟨List.nodup_nil, List.not_mem_nil, fun _ he => absurd he List.not_mem_nil⟩

/-- The update keeps the connections of all entries. -/
theorem conn_of_mem_updateFrom {table : List (Tsidque F P)} {id : List Char} {callbackF : F}
    {callbackParam : P} {now : Timeval} {e : Tsidque F P}
    (he : e ∈ (updateFrom id callbackF callbackParam now table).1) : ∃ d ∈ table, e.conn = d.conn := by
  rcases mem_updateFrom he with hold | ⟨d, hd, rfl⟩
  · exact ⟨e, hold, rfl⟩
  · exact ⟨d, hd, rfl⟩

/-- The sweep does too. -/
theorem conn_of_mem_sweptIdq {table : List (Tsidque F P)} {now : ℕ → Timeval} {e : Tsidque F P}
    (he : e ∈ sweptIdq table now) : ∃ d ∈ table, e.conn = d.conn := by
  obtain ⟨d, hd, i, rfl⟩ := mem_sweptIdq he
  exact ⟨d, hd, by rw [markExpired_eq]⟩

/-- Renewing an entry keeps the table well formed. -/
theorem TableWf.updateFrom {n : ℕ} {table : List (Tsidque F P)} (hwf : TableWf n table)
    (id : List Char) (callbackF : F) (callbackParam : P) (now : Timeval) :
    TableWf n (updateFrom id callbackF callbackParam now table).1 where
  distinct := by
    rw [idsOf_updateFrom]
    exact hwf.distinct
  nonempty := by
    rw [idsOf_updateFrom]
    exact hwf.nonempty
  inRange e he := by
    obtain ⟨d, hd, hconn⟩ := conn_of_mem_updateFrom he
    exact hconn ▸ hwf.inRange d hd

/-- Registering a new id keeps the table well formed. -/
theorem TableWf.append {n : ℕ} {table : List (Tsidque F P)} (hwf : TableWf n table) (e : Tsidque F P)
    (hnew : e.id ∉ idsOf table) (hid : e.id ≠ []) (hconn : 0 ≤ e.conn ∧ e.conn < n) :
    TableWf n (table ++ [e]) where
  distinct := by
    rw [idsOf, List.map_append, List.nodup_append]
    refine ⟨hwf.distinct, by simp, fun a ha b hb hab => ?_⟩
    obtain rfl : b = e.id := by simpa using hb
    exact hnew (hab ▸ ha)
  nonempty := by
    rw [idsOf, List.map_append, List.mem_append, not_or]
    exact ⟨hwf.nonempty, by simpa using Ne.symm hid⟩
  inRange := by
    intro d hd
    rcases List.mem_append.mp hd with hd | hd
    · exact hwf.inRange d hd
    · exact List.mem_singleton.mp hd ▸ hconn

/-- Removal keeps the table well formed. -/
theorem TableWf.remId {n : ℕ} {table : List (Tsidque F P)} (hwf : TableWf n table) (t : List Char) :
    TableWf n (remId table t) where
  distinct := (idsOf_remId_sublist table t).nodup hwf.distinct
  nonempty := fun hmem => hwf.nonempty ((idsOf_remId_sublist table t).subset hmem)
  inRange := by
    intro e he
    rw [remId_eq_filter table t hwf.distinct] at he
    exact hwf.inRange e (List.mem_of_mem_filter he)

/-- The sweep keeps the table well formed. -/
theorem TableWf.sweptIdq {n : ℕ} {table : List (Tsidque F P)} (hwf : TableWf n table)
    (now : ℕ → Timeval) : TableWf n (sweptIdq table now) where
  distinct := by
    rw [idsOf_sweptIdq]
    exact hwf.distinct
  nonempty := by
    rw [idsOf_sweptIdq]
    exact hwf.nonempty
  inRange e he := by
    obtain ⟨d, hd, hconn⟩ := conn_of_mem_sweptIdq he
    exact hconn ▸ hwf.inRange d hd

/-- On a well-formed table a found entry makes the update succeed, so `goto add` is not taken. -/
theorem updateEntryIdq_ret {n : ℕ} {table : List (Tsidque F P)} (hwf : TableWf n table)
    (id : List Char) (callbackF : F) (callbackParam : P) (now : Timeval) (e : Tsidque F P)
    (he : entryOf table id = some e) :
    (updateEntryIdq table id callbackF callbackParam now).2 = e.conn ∧ e.conn ≠ -1 := by
  have hrange := hwf.inRange e (mem_of_entryOf he)
  rw [updateEntryIdq_eq table id callbackF callbackParam now e he, updateFrom_ret, he]
  exact ⟨rfl, by omega⟩

/-- What routing an id does: afterwards its entry has the new callback and the connection of the
message, which is the old one if the id was registered; all other entries are as before. -/
structure Routes (n : ℕ) (table : List (Tsidque F P)) (t : List Char) (callbackF : F)
    (callbackParam : P) (routed : List (Tsidque F P) × ℕ × ℤ) : Prop where
  wf : TableWf n routed.1
  entry : ∃ e, entryOf routed.1 t = some e ∧ e.conn = routed.2.2 ∧ e.callbackF = callbackF ∧
    e.callbackParam = callbackParam
  others : ∀ t', t' ≠ t → entryOf routed.1 t' = entryOf table t'
  sticky : ∀ e, entryOf table t = some e → routed.2.2 = e.conn

/-- Routing a registered id is the update of its entry; the cursor stays where it is. -/
theorem routeId_eq_update {n : ℕ} {table : List (Tsidque F P)} (hwf : TableWf n table)
    (glastConRr : ℕ) (gconnList : List Con) (t : List Char) (ht : t ≠ []) (callbackF : F)
    (callbackParam : P) (now : Timeval) (e : Tsidque F P) (he : entryOf table t = some e) :
    routeId table glastConRr gconnList t callbackF callbackParam now =
      some ((updateFrom t callbackF callbackParam now table).1, glastConRr, e.conn) := by
  obtain ⟨hret, hconn⟩ := updateEntryIdq_ret hwf t callbackF callbackParam now e he
  rw [updateEntryIdq_eq table t callbackF callbackParam now e he] at hret
  simp only [routeId, isIDPresentIdq_eq table t ht, he, Option.map_some,
    updateEntryIdq_eq table t callbackF callbackParam now e he, hret, if_neg hconn]

/-- Routing a new id appends an entry for the connection that the search finds. -/
theorem routeId_eq_append {table : List (Tsidque F P)} {glastConRr : ℕ} {gconnList : List Con}
    {t : List Char} (ht : t ≠ []) {callbackF : F} {callbackParam : P} {now : Timeval}
    (hnone : entryOf table t = none) {routed : List (Tsidque F P) × ℕ × ℤ}
    (hrouted : routeId table glastConRr gconnList t callbackF callbackParam now = some routed) :
    ∃ assigned, reassignConn gconnList (getPeers gconnList) glastConRr = some assigned ∧
      routed = (table ++ [⟨t, assigned.1, false, now, now.addExpiry, callbackF, callbackParam⟩],
        assigned.2, (assigned.1 : ℤ)) := by
  simp only [routeId, isIDPresentIdq_eq table t ht, hnone, Option.map_none, addEntryIdq, if_neg ht,
    Option.map_eq_some_iff] at hrouted
  obtain ⟨assigned, hsearch, rfl⟩ := hrouted
  exact ⟨assigned, hsearch, rfl⟩

/-- Routing a registered id renews its entry. -/
theorem routeId_present {n : ℕ} {table : List (Tsidque F P)} (hwf : TableWf n table)
    (glastConRr : ℕ) (gconnList : List Con) (t : List Char) (ht : t ≠ []) (callbackF : F)
    (callbackParam : P) (now : Timeval) (e : Tsidque F P) (he : entryOf table t = some e) :
    ∃ routed, routeId table glastConRr gconnList t callbackF callbackParam now = some routed ∧
      Routes n table t callbackF callbackParam routed := by
  refine ⟨_, routeId_eq_update hwf glastConRr gconnList t ht callbackF callbackParam now e he,
    hwf.updateFrom t callbackF callbackParam now, ⟨e.renew callbackF callbackParam now, ?_, rfl, rfl, rfl⟩,
    fun t' ht' => ?_, fun e' he' => ?_⟩
  · rw [entryOf_updateFrom, if_pos rfl, he]
    rfl
  · rw [entryOf_updateFrom, if_neg ht']
  · rw [he, Option.some.injEq] at he'
    rw [he']

/-- Routing a new id assigns it to a connection and appends an entry. -/
theorem routeId_absent {table : List (Tsidque F P)} {gconnList : List Con}
    (hwf : TableWf (getPeers gconnList) table) (glastConRr : ℕ) (t : List Char) (ht : t ≠ [])
    (callbackF : F) (callbackParam : P) (now : Timeval) (hnone : entryOf table t = none)
    (routed : List (Tsidque F P) × ℕ × ℤ)
    (hrouted : routeId table glastConRr gconnList t callbackF callbackParam now = some routed) :
    Routes (getPeers gconnList) table t callbackF callbackParam routed := by
  have hnew : t ∉ idsOf table := by
    rw [← entryOf_isSome_iff, hnone]
    exact Bool.false_ne_true
  obtain ⟨assigned, hsearch, rfl⟩ := routeId_eq_append ht hnone hrouted
  have hcon := (reassignConn_found gconnList _ glastConRr assigned.1 assigned.2 hsearch).1
  let e : Tsidque F P := ⟨t, assigned.1, false, now, now.addExpiry, callbackF, callbackParam⟩
  refine ⟨hwf.append e hnew ht ⟨by simp [e], by simpa [e] using hcon⟩, ⟨e, ?_, rfl, rfl, rfl⟩,
    fun t' ht' => ?_, fun e he => ?_⟩
  · exact (entryOf_append_new table e t hnew).trans (if_pos rfl)
  · exact (entryOf_append_new table e t' hnew).trans (if_neg ht')
  · rw [hnone] at he
    cases he

/-- On a well-formed table, routing does what `Routes` says whenever it returns. -/
theorem routes_of_routeId {table : List (Tsidque F P)} {gconnList : List Con}
    (hwf : TableWf (getPeers gconnList) table) (glastConRr : ℕ) (t : List Char) (ht : t ≠ [])
    (callbackF : F) (callbackParam : P) (now : Timeval) (routed : List (Tsidque F P) × ℕ × ℤ)
    (hrouted : routeId table glastConRr gconnList t callbackF callbackParam now = some routed) :
    Routes (getPeers gconnList) table t callbackF callbackParam routed := by
  cases he : entryOf table t with
  | none => exact routeId_absent hwf glastConRr t ht callbackF callbackParam now he routed hrouted
  | some e =>
    obtain ⟨routed', hrouted', hroutes⟩ := routeId_present hwf glastConRr gconnList t ht callbackF
      callbackParam now e he
    rw [hrouted, Option.some.injEq] at hrouted'
    exact hrouted' ▸ hroutes

end TcpClb
