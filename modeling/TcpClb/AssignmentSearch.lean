import TcpClb.MessageQueue
import TcpClb.Threads

/-!
# The end of the search for a connection

The search of `add_entry_idq` as the backward `goto` that it is, one probe after the other, without a
bound and without a way to report a failure. It ends within one probe for each peer if some peer is up;
if none is, it goes round for ever, and with no peers at all it divides by zero. `push_to_msgq` calls it
while `ready_to_send` holds `qtex`.
-/

namespace TcpClb

open TcpClb.Common

variable {F P : Type}

/-- Where the search stands: before a probe, behind the one that has found a connection, or at a division
by a number of peers that is zero. -/
inductive Search
  | reassign (glastConRr : ℕ)
  | assigned (con glastConRr : ℕ)
  | divided
  deriving DecidableEq

/-- One probe, from `reassign_conn` to the `goto` back or to the end of the search. -/
def probe (gconnList : List Con) : Search → Search
  | .reassign glastConRr =>
    let con := glastConRr % getPeers gconnList
    match gconnList[con]? with
    -- an entry is missing only if there are no peers, and then `%` divides by zero
    | none => .divided
    | some c =>
      if c.state = 1 then .assigned con (advanceRr (getPeers gconnList) glastConRr)
      else .reassign (advanceRr (getPeers gconnList) glastConRr)
  | s => s

/-- The search ends within one probe for each peer and never divides by zero, and a push of a new id by
`ready_to_send` returns and releases `qtex`. -/
structure AssignmentEnds (F P : Type) (gconnList : List Con) (glastConRr : ℕ) : Prop where
  assigns : ∃ probes ≤ getPeers gconnList, ∃ con next,
    (probe gconnList)^[probes] (.reassign glastConRr) = .assigned con next ∧ PeerUp gconnList con
  noDivision : ∀ probes, (probe gconnList)^[probes] (.reassign glastConRr) ≠ .divided
  pushReturns : ∀ (s : System F P) (nodes : List (ℕ × Msgque)) (k : ℕ) (req : Request) (callbackF : F)
    (callbackParam : P) (now : Timeval), s.shared.gconnList = gconnList →
    s.shared.store.glastConRr = glastConRr → s.shared.store.gmsgq.Consists nodes → s.pending k = false →
    req.id.chars ≠ [] → entryOf s.shared.store.gtsidq req.id.chars = none →
    ∃ s', sysStep s (.append k req callbackF callbackParam now) = some s'

/-- A probe looks at the peer that the cursor stands for. -/
theorem probe_reassign {gconnList : List Con} {glastConRr : ℕ} {c : Con}
    (hc : gconnList[glastConRr % getPeers gconnList]? = some c) :
    probe gconnList (.reassign glastConRr) =
      if c.state = 1 then .assigned (glastConRr % getPeers gconnList) (advanceRr (getPeers gconnList) glastConRr)
      else .reassign (advanceRr (getPeers gconnList) glastConRr) := by
  simp only [probe, hc]

/-- A search that has ended stays where it is. -/
theorem probe_iterate_assigned (gconnList : List Con) (con next probes : ℕ) :
    (probe gconnList)^[probes] (.assigned con next) = .assigned con next :=
  Function.iterate_fixed rfl probes

/-- The search with a bound is the search up to so many probes. -/
theorem probe_iterate_eq_assigned_iff (gconnList : List Con) (probes glastConRr con next : ℕ) :
    (probe gconnList)^[probes] (.reassign glastConRr) = .assigned con next ↔
      reassignConn gconnList probes glastConRr = some (con, next) := by
  induction probes generalizing glastConRr with
  | zero =>
    constructor
    · intro h
      cases h
    · intro h
      cases h
  | succ probes ih =>
    rw [Function.iterate_succ_apply, reassignConn]
    cases hc : gconnList[glastConRr % getPeers gconnList]? with
    | none =>
      have hdivided : probe gconnList (.reassign glastConRr) = .divided := by
        simp only [probe, hc]
      rw [hdivided, Function.iterate_fixed rfl]
      constructor
      · intro h
        cases h
      · intro h
        cases h
    | some c =>
      rw [probe_reassign hc]
      dsimp only
      by_cases hstate : c.state = 1
      · rw [if_pos hstate, if_pos hstate, probe_iterate_assigned, Option.some.injEq, Prod.mk.injEq,
          Search.assigned.injEq]
      · rw [if_neg hstate, if_neg hstate]
        exact ih _

/-- The search divides by zero only if there are no peers. -/
theorem probe_iterate_ne_divided {gconnList : List Con} (hpos : 0 < getPeers gconnList)
    (probes glastConRr : ℕ) : (probe gconnList)^[probes] (.reassign glastConRr) ≠ .divided := by
  induction probes generalizing glastConRr with
  | zero => exact nofun
  | succ probes ih =>
    have hc := List.getElem?_eq_getElem (show glastConRr % getPeers gconnList < gconnList.length from
      Nat.mod_lt _ hpos)
    rw [Function.iterate_succ_apply, probe_reassign hc]
    split
    · rw [probe_iterate_assigned]
      exact nofun
    · exact ih _

/-- A push of a message with an id returns if some peer is up. -/
theorem sysStep_append_of_anyPeerUp {s : System F P} (nodes : List (ℕ × Msgque)) (k : ℕ) (req : Request)
    (callbackF : F) (callbackParam : P) (now : Timeval) (hany : AnyPeerUp s.shared.gconnList)
    (hq : s.shared.store.gmsgq.Consists nodes) (hpending : s.pending k = false) (hid : req.id.chars ≠ []) :
    ∃ s', sysStep s (.append k req callbackF callbackParam now) = some s' := by
  obtain ⟨routed, hrouted⟩ := routeId_isSome s.shared.store.gtsidq s.shared.store.glastConRr
    s.shared.gconnList req.id.chars callbackF callbackParam now hany
  obtain ⟨store, hpush, _⟩ := pushToMsgq_consists s.shared.store s.shared.gconnList req callbackF
    callbackParam now hid nodes hq routed hrouted
  simp only [sysStep, hpending, Bool.false_eq_true, if_false, hpush, Option.map_some, Option.some.injEq,
    exists_eq']

/-- The search ends, for any cursor, exactly if some peer is up. -/
theorem assignmentEnds_iff (F P : Type) (gconnList : List Con) (glastConRr : ℕ) :
    AssignmentEnds F P gconnList glastConRr ↔ AnyPeerUp gconnList := by
  constructor
  · intro hends
    obtain ⟨_, _, _, _, _, c, hc, hstate⟩ := hends.assigns
    exact ⟨c, List.mem_of_getElem? hc, hstate⟩
  · intro hany
    have hpos : 0 < getPeers gconnList := by
      obtain ⟨c, hmem, _⟩ := hany
      exact List.length_pos_of_mem hmem
    obtain ⟨con, next, hsearch, _⟩ := reassignConn_of_anyPeerUp gconnList glastConRr hany
    refine ⟨⟨getPeers gconnList, Nat.le_refl _, con, next, (probe_iterate_eq_assigned_iff ..).mpr hsearch,
      (reassignConn_found gconnList _ _ _ _ hsearch).2⟩, fun probes => probe_iterate_ne_divided hpos probes _, ?_⟩
    rintro s nodes k req callbackF callbackParam now rfl _ hq hpending hid _
    exact sysStep_append_of_anyPeerUp nodes k req callbackF callbackParam now hany hq hpending hid

/-- With a single peer that is down the search is at its first probe for ever, and with no peers it divides
by zero. -/
theorem onePeerDown_not_ends :
    (∀ probes, (probe [⟨3, 0, 0⟩])^[probes] (.reassign 0) = .reassign 0) ∧
      ¬ AssignmentEnds Unit Unit [⟨3, 0, 0⟩] 0 ∧
      probe [] (.reassign 0) = .divided ∧ ¬ AssignmentEnds Unit Unit [] 0 := by
  have hround (probes : ℕ) : (probe [⟨3, 0, 0⟩])^[probes] (.reassign 0) = .reassign 0 :=
    Function.iterate_fixed (by decide) probes
  refine ⟨hround, fun hends => ?_, rfl, fun hends => hends.noDivision 1 rfl⟩
  obtain ⟨probes, _, con, next, hassigned, _⟩ := hends.assigns
  rw [hround] at hassigned
  cases hassigned

end TcpClb
