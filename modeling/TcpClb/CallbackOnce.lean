import TcpClb.Responses

/-!
# A response callback is invoked at most once

Two responses with one transaction id can both look it up before either removes it, and then both
invoke the callback that was registered once. A run is free of this if no lookup returns a
registration that another worker has found and not yet removed.
-/

namespace TcpClb

open TcpClb.Common

variable {n : ℕ} {F P : Type}

/-- No registration has had its callback invoked twice. -/
def Responses.AtMostOnce (s : Responses F P) : Prop := (s.called.map Invocation.registration).Nodup

/-- The step is not a lookup that finds what another worker holds between its lookup and its removal. -/
def RespAction.Exclusive (s : Responses F P) : RespAction n F P → Prop
  | .lookup _ tid _ => ∀ r, regAt s.store.gtsidq tid = some r →
      ∀ w h, s.worker w = some h → h.registration ≠ r
  | _ => True

/-- What exclusive lookups maintain: no two workers hold one registration, and one whose callback
has been invoked is held by the worker that is about to remove it, if it is still in the table. -/
structure Responses.CallOnce (n : ℕ) (s : Responses F P) : Prop where
  inv : s.Inv n
  exclusive : ∀ w w' h h', s.worker w = some h → s.worker w' = some h' →
    h.registration = h'.registration → w = w'
  notYet : ∀ w h, s.worker w = some h → h.invoked = false →
    h.registration ∉ s.called.map Invocation.registration
  invoked : ∀ w h, s.worker w = some h → h.invoked = true →
    h.registration ∈ s.called.map Invocation.registration
  leaving : ∀ t r, regAt s.store.gtsidq t = some r → r ∈ s.called.map Invocation.registration →
    ∃ w h, s.worker w = some h ∧ h.registration = r
  calledLt : ∀ r ∈ s.called.map Invocation.registration, r < s.pushes
  once : s.AtMostOnce

/-- Initially nothing has been invoked. -/
theorem Responses.initial_callOnce : (Responses.initial : Responses F P).CallOnce n where
  inv := Responses.initial_inv
  exclusive _ _ _ _ hw := by cases hw
  notYet _ _ hw := by cases hw
  invoked _ _ hw := by cases hw
  leaving _ _ hr := by cases hr
  calledLt _ hr := by cases hr
  once := List.nodup_nil

/-- A send registers its id under a number that has not been invoked. -/
theorem Responses.CallOnce.send {s s' : Responses F P} (hs : s.CallOnce n) {gconnList : List Con}
    {hlen : getPeers gconnList = n} {req : Request} {callbackF : F} {callbackParam : P} {now : Timeval}
    (hstep : respStep s (.send gconnList hlen req callbackF callbackParam now) = some s') :
    s'.CallOnce n := by
  have hinv := hs.inv.send hstep
  obtain ⟨hworker, hcalled, _, hpushes, _, hreg, _⟩ := respStep_send hs.inv.wf hstep
  refine ⟨hinv, ?_, ?_, ?_, fun t r hr hmem => ?_, fun r hmem => ?_, ?_⟩
  · rw [hworker]
    exact hs.exclusive
  · rw [hworker, hcalled]
    exact hs.notYet
  · rw [hworker, hcalled]
    exact hs.invoked
  · rw [hcalled] at hmem
    rw [hworker]
    rw [hreg] at hr
    split at hr
    · have hlt := hs.calledLt r hmem
      rw [Option.some.injEq] at hr
      omega
    · exact hs.leaving t r hr hmem
  · rw [hcalled] at hmem
    have hlt := hs.calledLt r hmem
    omega
  · rw [AtMostOnce, hcalled]
    exact hs.once

/-- An exclusive lookup finds a registration whose callback has not been invoked. -/
theorem Responses.CallOnce.lookup {s s' : Responses F P} (hs : s.CallOnce n) {w : ℕ}
    {tid : List Char} {curr : Timeval}
    (hcond : (RespAction.lookup w tid curr : RespAction n F P).Exclusive s)
    (hstep : respStep s (.lookup w tid curr : RespAction n F P) = some s') : s'.CallOnce n := by
  have hinv := hs.inv.step (.lookup w tid curr) hstep
  obtain ⟨hidle, rfl | ⟨found, hfound, rfl⟩⟩ := respStep_lookup hstep
  · exact hs
  obtain ⟨_, hreg⟩ := lookupIDIdq_regAt hfound
  have hfree := hcond _ hreg
  refine ⟨hinv, fun w₁ w₂ h₁ h₂ hw₁ hw₂ heq => ?_, fun w' h hw' hnot => ?_, fun w' h hw' hdone => ?_,
    fun t r hr hmem => ?_, hs.calledLt, hs.once⟩
  · simp only [Function.update_apply] at hw₁ hw₂
    split at hw₁ <;> split at hw₂
    · next h₁ h₂ => rw [h₁, h₂]
    · cases hw₁
      exact absurd heq.symm (hfree w₂ h₂ hw₂)
    · cases hw₂
      exact absurd heq (hfree w₁ h₁ hw₁)
    · exact hs.exclusive w₁ w₂ h₁ h₂ hw₁ hw₂ heq
  · simp only [Function.update_apply] at hw'
    split at hw'
    · cases hw'
      intro hmem
      obtain ⟨w'', h'', hw'', heq⟩ := hs.leaving tid _ hreg hmem
      exact hfree w'' h'' hw'' heq
    · exact hs.notYet w' h hw' hnot
  · simp only [Function.update_apply] at hw'
    split at hw'
    · cases hw'
      cases hdone
    · exact hs.invoked w' h hw' hdone
  · obtain ⟨w', h', hw', heq⟩ := hs.leaving t r hr hmem
    refine ⟨w', h', ?_, heq⟩
    have hne : w' ≠ w := by
      rintro rfl
      rw [hidle] at hw'
      cases hw'
    simpa only [Function.update_of_ne hne] using hw'

/-- The worker that invokes a callback is the only one to hold its registration. -/
theorem Responses.CallOnce.callback {s s' : Responses F P} (hs : s.CallOnce n) {w : ℕ}
    (hstep : respStep s (.callback w : RespAction n F P) = some s') : s'.CallOnce n := by
  have hinv := hs.inv.step (.callback w) hstep
  obtain ⟨tid, found, hw, rfl⟩ := respStep_callback hstep
  have hown (w' : ℕ) (h' : Handling F P)
      (hw' : Function.update s.worker w (some ⟨tid, found, true⟩) w' = some h') :
      ∃ h, s.worker w' = some h ∧ h.registration = h'.registration ∧
        (h'.invoked = false → w' ≠ w ∧ h = h') := by
    rw [Function.update_apply] at hw'
    split at hw'
    · next heq =>
      cases hw'
      exact ⟨⟨tid, found, false⟩, heq ▸ hw, rfl, fun h => by cases h⟩
    · next hne => exact ⟨h', hw', rfl, fun _ => ⟨hne, rfl⟩⟩
  have hfresh := hs.notYet w _ hw rfl
  refine ⟨hinv, fun w₁ w₂ h₁ h₂ hw₁ hw₂ heq => ?_, fun w' h hw' hnot => ?_, fun w' h hw' hdone => ?_,
    fun t r hr hmem => ?_, fun r hmem => ?_, ?_⟩
  · obtain ⟨h₁', hw₁', heq₁, _⟩ := hown w₁ h₁ hw₁
    obtain ⟨h₂', hw₂', heq₂, _⟩ := hown w₂ h₂ hw₂
    exact hs.exclusive w₁ w₂ h₁' h₂' hw₁' hw₂' (by rw [heq₁, heq₂, heq])
  · obtain ⟨h', hw'', _, hrest⟩ := hown w' h hw'
    obtain ⟨hne, rfl⟩ := hrest hnot
    have hold := hs.notYet w' h' hw'' hnot
    simp only [List.map_append, List.map_cons, List.map_nil, List.mem_append, List.mem_singleton, not_or]
    exact ⟨hold, fun heq => hne (hs.exclusive w' w h' _ hw'' hw heq)⟩
  · simp only [List.map_append, List.map_cons, List.map_nil, List.mem_append, List.mem_singleton]
    dsimp only at hw'
    rw [Function.update_apply] at hw'
    split at hw'
    · cases hw'
      exact Or.inr rfl
    · exact Or.inl (hs.invoked w' h hw' hdone)
  · rw [List.map_append, List.mem_append] at hmem
    rcases hmem with hmem | hmem
    · obtain ⟨w', h', hw', heq⟩ := hs.leaving t r hr hmem
      by_cases hne : w' = w
      · subst hne
        rw [hw, Option.some.injEq] at hw'
        subst hw'
        exact ⟨w', ⟨tid, found, true⟩, Function.update_self .., heq⟩
      · exact ⟨w', h', by simpa only [Function.update_of_ne hne] using hw', heq⟩
    · refine ⟨w, ⟨tid, found, true⟩, Function.update_self .., ?_⟩
      exact (List.mem_singleton.mp hmem).symm
  · rw [List.map_append, List.mem_append] at hmem
    rcases hmem with hmem | hmem
    · exact hs.calledLt r hmem
    · rw [List.mem_singleton.mp hmem]
      exact hs.inv.heldLt w _ hw
  · rw [AtMostOnce, List.map_append]
    exact List.Nodup.append hs.once (List.nodup_singleton _) (List.disjoint_singleton.mpr hfresh)

/-- A removal takes the registration out of the table that its worker held. -/
theorem Responses.CallOnce.remove {s s' : Responses F P} (hs : s.CallOnce n) {w : ℕ}
    (hstep : respStep s (.remove w : RespAction n F P) = some s') : s'.CallOnce n := by
  have hinv := hs.inv.step (.remove w) hstep
  obtain ⟨tid, found, hw, rfl⟩ := respStep_remove hstep
  have hkeep (w' : ℕ) (h : Handling F P) (hw' : Function.update s.worker w none w' = some h) :
      s.worker w' = some h := by
    rw [Function.update_apply] at hw'
    split at hw'
    · cases hw'
    · exact hw'
  refine ⟨hinv, fun w₁ w₂ h₁ h₂ hw₁ hw₂ heq => ?_, fun w' h hw' hnot => ?_, fun w' h hw' hdone => ?_,
    fun t r hr hmem => ?_, hs.calledLt, hs.once⟩
  · exact hs.exclusive w₁ w₂ h₁ h₂ (hkeep w₁ h₁ hw₁) (hkeep w₂ h₂ hw₂) heq
  · exact hs.notYet w' h (hkeep w' h hw') hnot
  · exact hs.invoked w' h (hkeep w' h hw') hdone
  · simp only [regAt_remId hs.inv.wf] at hr
    split at hr
    · cases hr
    · next hne =>
      obtain ⟨w', h', hw', rfl⟩ := hs.leaving t r hr hmem
      refine ⟨w', h', ?_, rfl⟩
      have hother : w' ≠ w := by
        rintro rfl
        rw [hw, Option.some.injEq] at hw'
        exact hne (hs.inv.heldTid w' _ t hw (hw' ▸ hr))
      simpa only [Function.update_of_ne hother] using hw'

/-- Every step that meets the condition keeps the invariant. -/
theorem Responses.CallOnce.step {s s' : Responses F P} (hs : s.CallOnce n) (a : RespAction n F P)
    (hcond : a.Exclusive s) (hstep : respStep s a = some s') : s'.CallOnce n := by
  cases a with
  | send gconnList hlen req callbackF callbackParam now => exact hs.send hstep
  | lookup w tid curr => exact hs.lookup hcond hstep
  | callback w => exact hs.callback hstep
  | remove w => exact hs.remove hstep
  | sweep now printable =>
    have hinv := hs.inv.step _ hstep
    obtain ⟨_, rfl⟩ := respStep_sweep hstep
    refine ⟨hinv, hs.exclusive, hs.notYet, hs.invoked, fun t r hr hmem => ?_, hs.calledLt, hs.once⟩
    rw [regAt_sweptIdq] at hr
    exact hs.leaving t r hr hmem

/-- In a run of which no lookup finds what another worker holds, no callback is invoked twice. -/
theorem callback_atMostOnce (acts : List (RespAction n F P))
    (hacts : EachStep respStep (fun s a => a.Exclusive s) .initial acts) :
    Throughout respStep Responses.AtMostOnce .initial acts :=
  throughout_of_eachStep respStep (fun s a => a.Exclusive s) (fun s => s.CallOnce n)
    Responses.AtMostOnce (fun _ hs => hs.once) (fun _ a _ hs hcond hstep => hs.step a hcond hstep)
    Responses.initial acts Responses.initial_callOnce hacts

/-- One request and its response, handled to the end. -/
def oneResponse : List (RespAction 1 Unit Unit) :=
  [.send [⟨3, 1, 0⟩] rfl ⟨some ['x', '\x00'], 1, 0, 0, oneCharId 'a'⟩ () () ⟨0, 0⟩, .lookup 0 ['a'] ⟨1, 0⟩,
    .callback 0, .remove 0]

/-- It invokes the callback once. -/
theorem oneResponse_atMostOnce : Throughout respStep Responses.AtMostOnce .initial oneResponse := by
  apply callback_atMostOnce
  apply EachStep.cons rfl trivial
  apply EachStep.cons rfl
  · intro _ _ _ _ hw
    cases hw
  apply EachStep.cons rfl trivial
  exact EachStep.cons rfl trivial trivial

/-- The response to one request, received by two workers that both look it up first. -/
def twoResponses : List (RespAction 2 Unit Unit) :=
  [.send [⟨3, 1, 0⟩, ⟨4, 1, 1⟩] rfl ⟨some ['x', '\x00'], 1, 0, 0, oneCharId 'a'⟩ () () ⟨0, 0⟩,
    .lookup 0 ['a'] ⟨1, 0⟩, .lookup 1 ['a'] ⟨1, 0⟩, .callback 0, .callback 1]

/-- The callback registered once is invoked twice. -/
theorem twoResponses_not_atMostOnce :
    ¬ Throughout respStep Responses.AtMostOnce .initial twoResponses := by
  intro hall
  obtain ⟨final, hrun, hcalled⟩ : ∃ final, runActions respStep .initial twoResponses = some final ∧
      final.called.map Invocation.registration = [0, 0] := ⟨_, rfl, rfl⟩
  have honce := throughout_final respStep _ _ _ _ hall hrun
  simp [Responses.AtMostOnce, hcalled] at honce

end TcpClb
