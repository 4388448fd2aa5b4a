import TcpClb.IdTable
import Mathlib.Data.Nat.Find

/-!
# The round-robin search

Starting at the cursor, `add_entry_idq` probes the peers in cyclic order and takes the first one
whose connection is up. The probe at distance `k` from the cursor looks at peer
`(cursor + k) % num_peers`, wherever the cursor stands and however often it wraps around.
-/

namespace TcpClb

/-- The connection entry of a peer exists and is in state 1. -/
def PeerUp (gconnList : List Con) (i : ℕ) : Prop := ∃ c, gconnList[i]? = some c ∧ c.state = 1

/-- Some peer is up. -/
def AnyPeerUp (gconnList : List Con) : Prop := ∃ c ∈ gconnList, c.state = 1

/-- Advancing the cursor moves to the next peer in cyclic order. -/
theorem advanceRr_mod (n cursor : ℕ) : advanceRr n cursor % n = (cursor + 1) % n := by
  unfold advanceRr
  split
  · next h => rw [h, Nat.mod_self, Nat.zero_mod]
  · rfl

/-- A cursor inside the table stays inside it. -/
theorem advanceRr_lt (n cursor : ℕ) (h : cursor < n) : advanceRr n cursor < n := by
  unfold advanceRr
  split <;> omega

/-- The search takes the first peer that is up at or cyclically after the cursor. -/
theorem reassignConn_first_up (gconnList : List Con) (k probes cursor : ℕ) (hk : k < probes)
    (hup : PeerUp gconnList ((cursor + k) % getPeers gconnList))
    (hdown : ∀ j < k, ¬ PeerUp gconnList ((cursor + j) % getPeers gconnList)) :
    ∃ next, reassignConn gconnList probes cursor = some ((cursor + k) % getPeers gconnList, next) ∧
      next % getPeers gconnList = (cursor + k + 1) % getPeers gconnList ∧
      (cursor < getPeers gconnList → next < getPeers gconnList) := by
  induction k generalizing probes cursor with
  | zero =>
    obtain ⟨probes, rfl⟩ := Nat.exists_eq_add_one_of_ne_zero (Nat.ne_zero_of_lt hk)
    obtain ⟨c, hc, hstate⟩ := hup
    rw [Nat.add_zero] at hc
    refine ⟨advanceRr (getPeers gconnList) cursor, ?_, advanceRr_mod _ _, advanceRr_lt _ _⟩
    simp only [reassignConn, hc, hstate, if_true, Nat.add_zero]
  | succ k ih =>
    obtain ⟨probes, rfl⟩ := Nat.exists_eq_add_one_of_ne_zero (Nat.ne_zero_of_lt hk)
    have hshift (j : ℕ) : (advanceRr (getPeers gconnList) cursor + j) % getPeers gconnList =
        (cursor + (j + 1)) % getPeers gconnList := by
      rw [Nat.add_mod, advanceRr_mod, ← Nat.add_mod]
      congr 1
      omega
    have hpeers : cursor % getPeers gconnList < gconnList.length := by
      obtain ⟨c, hc, _⟩ := hup
      obtain ⟨hlt, _⟩ := List.getElem?_eq_some_iff.mp hc
      exact Nat.mod_lt _ (Nat.zero_lt_of_lt hlt)
    have hfirst : gconnList[cursor % getPeers gconnList].state ≠ 1 := by
      intro hstate
      exact hdown 0 (by omega) ⟨_, List.getElem?_eq_getElem hpeers, hstate⟩
    obtain ⟨next, hrest, hmod, hlt⟩ := ih probes (advanceRr (getPeers gconnList) cursor) (by omega)
      (by rw [hshift]; exact hup) (fun j hj => by rw [hshift]; exact hdown (j + 1) (by omega))
    refine ⟨next, ?_, ?_, fun h => hlt (advanceRr_lt _ _ h)⟩
    · simp only [reassignConn, List.getElem?_eq_getElem hpeers, if_neg hfirst, hrest, hshift]
    · rw [hmod, Nat.add_assoc, hshift]
      rfl

/-- Whatever the search returns is an existing peer that is up. -/
theorem reassignConn_found (gconnList : List Con) (probes cursor con next : ℕ)
    (hsearch : reassignConn gconnList probes cursor = some (con, next)) :
    con < getPeers gconnList ∧ PeerUp gconnList con := by
  induction probes generalizing cursor with
  | zero => cases hsearch
  | succ probes ih =>
    unfold reassignConn at hsearch
    cases hc : gconnList[cursor % getPeers gconnList]? with
    | none => simp [hc] at hsearch
    | some c =>
      simp only [hc] at hsearch
      by_cases hstate : c.state = 1
      · rw [if_pos hstate, Option.some.injEq, Prod.mk.injEq] at hsearch
        obtain ⟨rfl, _⟩ := hsearch
        obtain ⟨hlt, _⟩ := List.getElem?_eq_some_iff.mp hc
        exact ⟨hlt, c, hc, hstate⟩
      · rw [if_neg hstate] at hsearch
        exact ih _ hsearch

/-- If some peer is up, one is met within one round from any cursor. -/
theorem exists_first_up (gconnList : List Con) (cursor : ℕ) (hany : AnyPeerUp gconnList) :
    ∃ k < getPeers gconnList, PeerUp gconnList ((cursor + k) % getPeers gconnList) ∧
      ∀ j < k, ¬ PeerUp gconnList ((cursor + j) % getPeers gconnList) := by
  classical
  obtain ⟨c, hmem, hstate⟩ := hany
  obtain ⟨i, hi, rfl⟩ := List.mem_iff_getElem.mp hmem
  have hpos : 0 < getPeers gconnList := Nat.zero_lt_of_lt hi
  have hround : (cursor + (i + (getPeers gconnList - cursor % getPeers gconnList))) %
      getPeers gconnList = i := by
    have hlt := Nat.mod_lt cursor hpos
    have hdiv := Nat.div_add_mod cursor (getPeers gconnList)
    have hsum : cursor + (i + (getPeers gconnList - cursor % getPeers gconnList)) =
        i + getPeers gconnList * (cursor / getPeers gconnList + 1) := by
      rw [Nat.mul_add, Nat.mul_one]
      omega
    rw [hsum, Nat.add_mul_mod_self_left]
    exact Nat.mod_eq_of_lt hi
  have hexists : ∃ k, PeerUp gconnList ((cursor + k) % getPeers gconnList) :=
    ⟨_, by rw [hround]; exact ⟨_, List.getElem?_eq_getElem hi, hstate⟩⟩
  refine ⟨Nat.find hexists, ?_, Nat.find_spec hexists, fun j hj => Nat.find_min hexists hj⟩
  -- the first distance is less than any distance in the same residue class
  have hle : Nat.find hexists ≤ (i + (getPeers gconnList - cursor % getPeers gconnList)) %
      getPeers gconnList := by
    apply Nat.find_min'
    rw [Nat.add_mod_mod, hround]
    exact ⟨_, List.getElem?_eq_getElem hi, hstate⟩
  exact lt_of_le_of_lt hle (Nat.mod_lt _ hpos)

/-- With some peer up the search ends, and keeps the cursor in the table. -/
theorem reassignConn_of_anyPeerUp (gconnList : List Con) (cursor : ℕ) (hany : AnyPeerUp gconnList) :
    ∃ con next, reassignConn gconnList (getPeers gconnList) cursor = some (con, next) ∧
      (cursor < getPeers gconnList → next < getPeers gconnList) := by
  obtain ⟨k, hk, hup, hdown⟩ := exists_first_up gconnList cursor hany
  obtain ⟨next, hsearch, _, hlt⟩ := reassignConn_first_up gconnList k _ cursor hk hup hdown
  exact ⟨_, next, hsearch, hlt⟩

end TcpClb
