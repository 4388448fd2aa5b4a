import TcpClb.Responses

/-!
# A removal deletes the registration it belongs to

While a response is handled, its transaction id can be registered again: the entry is still in the
table, so the push renews it in place. The removal that ends the handling then deletes the renewed
entry. Removals delete nothing else in exactly the runs in which no id is pushed between the lookup
and the removal of one of its responses, unless another removal of the id comes after that push.
-/

namespace TcpClb

open TcpClb.Common

variable {n : ℕ} {F P : Type}

/-- Every registration but the one that was looked up is still in the table after the removal, and
a response to its request still finds its callback. -/
def Removal.Keeps (x : Removal F P) : Prop :=
  ∀ e ∈ x.before, e.callbackParam.2 ≠ x.found → e ∈ x.after ∧
    ∀ curr, (lookupIDIdq x.after e.id curr).map (fun found => (found.callbackF, found.callbackParam)) =
      some (e.callbackF, e.callbackParam)

/-- No removal has deleted a registration that its response did not look up. -/
def Responses.KeepsOthers (s : Responses F P) : Prop := ∀ x ∈ s.removals, x.Keeps

/-- The step does not remove an id that was pushed after the lookup and not removed since. -/
def RespAction.NotRenewed (s : Responses F P) : RespAction n F P → Prop
  | .remove w => s.renewed w = false
  | _ => True

/-- The flag of a response says whether the table now holds another registration of its id. -/
structure Responses.TracksRenewal (n : ℕ) (s : Responses F P) : Prop where
  inv : s.Inv n
  renewed : ∀ w h, s.worker w = some h →
    (s.renewed w = true ↔ ∃ r, regAt s.store.gtsidq h.tid = some r ∧ r ≠ h.registration)

/-- Initially no response is handled. -/
theorem Responses.initial_tracksRenewal : (Responses.initial : Responses F P).TracksRenewal n :=
  ⟨Responses.initial_inv, fun _ _ hw => nomatch hw⟩

/-- A push renews the responses that are about its id. -/
theorem Responses.TracksRenewal.send {s s' : Responses F P} (hs : s.TracksRenewal n)
    {gconnList : List Con} {hlen : getPeers gconnList = n} {req : Request} {callbackF : F}
    {callbackParam : P} {now : Timeval}
    (hstep : respStep s (.send gconnList hlen req callbackF callbackParam now) = some s') :
    s'.TracksRenewal n := by
  have hinv := hs.inv.send hstep
  obtain ⟨hworker, _, _, _, _, hreg, hrenewed⟩ := respStep_send hs.inv.wf hstep
  refine ⟨hinv, fun w h hw => ?_⟩
  rw [hworker] at hw
  have htid : s.tidOf w = some h.tid := by rw [Responses.tidOf, hw, Option.map_some]
  simp only [hrenewed, hreg, htid, Option.some.injEq]
  by_cases hid : h.tid = req.id.chars
  · have hlt := hs.inv.heldLt w h hw
    rw [if_pos hid, if_pos ⟨hid, hid ▸ hs.inv.heldId w h hw⟩]
    exact ⟨fun _ => ⟨s.pushes, rfl, by omega⟩, fun _ => rfl⟩
  · rw [if_neg hid, if_neg (fun h => hid h.1)]
    exact hs.renewed w h hw

/-- Every step keeps track of renewals. -/
theorem Responses.TracksRenewal.step {s s' : Responses F P} (hs : s.TracksRenewal n)
    (a : RespAction n F P) (hstep : respStep s a = some s') : s'.TracksRenewal n := by
  have hinv := hs.inv.step a hstep
  cases a with
  | send gconnList hlen req callbackF callbackParam now => exact hs.send hstep
  | lookup w tid curr =>
    obtain ⟨_, rfl | ⟨found, hfound, rfl⟩⟩ := respStep_lookup hstep
    · exact hs
    refine ⟨hinv, fun w' h hw' => ?_⟩
    simp only [Function.update_apply] at hw' ⊢
    split at hw'
    · next heq =>
      cases hw'
      rw [if_pos heq, (lookupIDIdq_regAt hfound).2]
      simp [Handling.registration]
    · next hne =>
      rw [if_neg hne]
      exact hs.renewed w' h hw'
  | callback w =>
    obtain ⟨tid, found, hw, rfl⟩ := respStep_callback hstep
    refine ⟨hinv, fun w' h hw' => ?_⟩
    simp only [Function.update_apply] at hw'
    split at hw'
    · next heq =>
      cases hw'
      exact hs.renewed w' ⟨tid, found, false⟩ (heq ▸ hw)
    · exact hs.renewed w' h hw'
  | remove w =>
    obtain ⟨tid, found, hw, rfl⟩ := respStep_remove hstep
    refine ⟨hinv, fun w' h hw' => ?_⟩
    simp only [Function.update_apply] at hw'
    split at hw'
    · cases hw'
    have htid : s.tidOf w' = some h.tid := by rw [Responses.tidOf, hw', Option.map_some]
    simp only [htid, Option.some.injEq, regAt_remId hs.inv.wf]
    split
    · simp
    · exact hs.renewed w' h hw'
  | sweep now printable =>
    obtain ⟨_, rfl⟩ := respStep_sweep hstep
    refine ⟨hinv, fun w h hw => ?_⟩
    simp only [regAt_sweptIdq]
    exact hs.renewed w h hw

/-- A removal keeps all other registrations exactly if the table holds no other one for its id. -/
theorem keeps_remId_iff {table : List (Tsidque F (P × ℕ))} (hwf : TableWf n table) (tid : List Char)
    (r : ℕ) : (⟨r, table, remId table tid⟩ : Removal F P).Keeps ↔
      ∀ r', regAt table tid = some r' → r' = r := by
  constructor
  · intro hkeeps r' hreg
    by_contra hne
    obtain ⟨e, he, rfl⟩ := Option.map_eq_some_iff.mp hreg
    have hmem := (hkeeps e (mem_of_entryOf he) hne).1
    rw [remId_eq_filter table tid hwf.distinct] at hmem
    exact absurd (id_of_entryOf he) (by simpa using List.of_mem_filter hmem)
  · intro hsame e he hne
    have hentry := entryOf_of_mem hwf.distinct he
    have hid : e.id ≠ tid := by
      rintro rfl
      exact hne (hsame _ (by rw [regAt, hentry, Option.map_some]))
    have hnonempty : e.id ≠ [] := fun h => hwf.nonempty (h ▸ List.mem_map_of_mem he)
    have hafter : entryOf (remId table tid) e.id = some e := by
      rw [entryOf_remId table tid e.id hwf.distinct, if_neg hid, hentry]
    refine ⟨mem_of_entryOf hafter, fun curr => ?_⟩
    rw [entryOf] at hafter
    simp only [lookupIDIdq, if_neg hnonempty, hafter, Option.map_some]

/-- One step deletes no registration but its own exactly if it meets the condition. -/
theorem respStep_keepsOthers_iff {s s' : Responses F P} (hs : s.TracksRenewal n) (a : RespAction n F P)
    (hkeeps : s.KeepsOthers) (hstep : respStep s a = some s') : s'.KeepsOthers ↔ a.NotRenewed s := by
  cases a with
  | send gconnList hlen req callbackF callbackParam now =>
    obtain ⟨_, _, hremovals, _⟩ := respStep_send hs.inv.wf hstep
    exact iff_of_true (by rwa [Responses.KeepsOthers, hremovals]) trivial
  | lookup w tid curr =>
    obtain ⟨_, rfl | ⟨found, _, rfl⟩⟩ := respStep_lookup hstep
    · exact iff_of_true hkeeps trivial
    · exact iff_of_true hkeeps trivial
  | callback w =>
    obtain ⟨tid, found, _, rfl⟩ := respStep_callback hstep
    exact iff_of_true hkeeps trivial
  | remove w =>
    obtain ⟨tid, found, hw, rfl⟩ := respStep_remove hstep
    have hrenewed := hs.renewed w _ hw
    simp only [Responses.KeepsOthers, List.forall_mem_append, List.forall_mem_singleton] at hkeeps ⊢
    rw [and_iff_right hkeeps, keeps_remId_iff hs.inv.wf, RespAction.NotRenewed, ← Bool.not_eq_true,
      hrenewed]
    simp [Handling.registration]
  | sweep now printable =>
    obtain ⟨_, rfl⟩ := respStep_sweep hstep
    exact iff_of_true hkeeps trivial

/-- No removal of a run deletes a registration that its response did not look up, exactly when no
id is removed by a response whose lookup was before the last push of the id. -/
theorem removals_keep_iff (acts : List (RespAction n F P)) :
    Throughout respStep Responses.KeepsOthers .initial acts ↔
      EachStep respStep (fun s a => a.NotRenewed s) .initial acts :=
  throughout_iff_eachStep respStep (fun s a => a.NotRenewed s) (fun s => s.TracksRenewal n)
    Responses.KeepsOthers (fun _ a _ hs _ _ hstep => hs.step a hstep)
    (fun _ a _ hs hkeeps hstep => respStep_keepsOthers_iff hs a hkeeps hstep)
    Responses.initial acts Responses.initial_tracksRenewal (fun _ hx => nomatch hx)

/-- A second request under the same id is sent while the response to the first is handled. -/
def renewedOps : List (RespAction 1 Unit Unit) :=
  [.send [⟨4, 1, 0⟩] rfl ⟨some ['x', '\x00'], 1, 0, 0, oneCharId 'a'⟩ () () ⟨0, 0⟩, .lookup 0 ['a'] ⟨1, 0⟩,
    .callback 0, .send [⟨4, 1, 0⟩] rfl ⟨some ['y', '\x00'], 1, 0, 0, oneCharId 'a'⟩ () () ⟨2, 0⟩, .remove 0]

/-- The registration of the second request is deleted. -/
theorem renewed_not_kept : ¬ Throughout respStep Responses.KeepsOthers .initial renewedOps := by
  intro hall
  obtain ⟨final, hrun, x, hx, e, he, hne, hafter⟩ : ∃ final,
      runActions respStep .initial renewedOps = some final ∧ ∃ x, x ∈ final.removals ∧
        ∃ e, e ∈ x.before ∧ e.callbackParam.2 ≠ x.found ∧ x.after = [] :=
    ⟨_, rfl, _, List.mem_cons_self, _, List.mem_cons_self, by decide, rfl⟩
  have hkept := (throughout_final respStep _ _ _ _ hall hrun x hx e he hne).1
  rw [hafter] at hkept
  exact List.not_mem_nil hkept

end TcpClb
