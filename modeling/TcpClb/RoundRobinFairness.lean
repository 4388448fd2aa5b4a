import TcpClb.Common.Rotation
import TcpClb.RoundRobin
import Mathlib.Data.List.Rotate

/-!
# Fairness of the round-robin assignment

Read in cyclic order from the cursor, the peers that are up form a queue. A search skips peers that
are down, which leaves the queue as it is, takes its front, and leaves a cursor from which the
queue is read with that peer at the back. As long as the connection table does not change, new ids
are therefore shared out in turns.
-/

namespace TcpClb

open TcpClb.Common

variable {F P : Type}

/-- Whether a peer is up. -/
def isUp (gconnList : List Con) (i : ℕ) : Bool := (gconnList[i]?).any fun c => c.state = 1

/-- The number of peers that are up. -/
def upCount (gconnList : List Con) : ℕ := gconnList.countP fun c => c.state = 1

/-- The peers in cyclic order from the cursor. -/
def peersFrom (gconnList : List Con) (cursor : ℕ) : List ℕ :=
  (List.range (getPeers gconnList)).rotate cursor

/-- The peers that are up, in cyclic order from the cursor. -/
def upFrom (gconnList : List Con) (cursor : ℕ) : List ℕ := (peersFrom gconnList cursor).filter (isUp gconnList)

/-- One `add_entry_idq` call for a nonempty id, on the table as it is at that moment. -/
structure Addition (F P : Type) where
  head : List (Tsidque F P)
  tid : List Char
  nonempty : tid ≠ []
  callbackF : F
  callbackParam : P
  now : Timeval

/-- The call, with the cursor it finds. -/
def Addition.add (x : Addition F P) (gconnList : List Con) (cursor : ℕ) :
    Option (List (Tsidque F P) × ℕ × ℤ) :=
  addEntryIdq x.head cursor gconnList x.tid x.callbackF x.callbackParam x.now

/-- Consecutive calls: the cursor they leave and the connections they assign. -/
def addAll (gconnList : List Con) : ℕ → List (Addition F P) → Option (ℕ × List ℤ)
  | cursor, [] => some (cursor, [])
  | cursor, x :: rest => do
    let added ← x.add gconnList cursor
    let later ← addAll gconnList added.2.1 rest
    some (later.1, added.2.2 :: later.2)

/-- The test of the search. -/
theorem isUp_iff (gconnList : List Con) (i : ℕ) : isUp gconnList i = true ↔ PeerUp gconnList i := by
  simp [isUp, PeerUp, Option.any_eq_true]

/-- Cursors with the same remainder read the peers in the same order. -/
theorem peersFrom_congr (gconnList : List Con) {cursor cursor' : ℕ}
    (h : cursor % getPeers gconnList = cursor' % getPeers gconnList) :
    peersFrom gconnList cursor = peersFrom gconnList cursor' := by
  have hmod (c : ℕ) : peersFrom gconnList (c % getPeers gconnList) = peersFrom gconnList c := by
    have hlength : (List.range (getPeers gconnList)).length = getPeers gconnList := List.length_range
    rw [peersFrom, peersFrom, ← List.rotate_mod _ c, hlength]
  rw [← hmod, h, hmod]

/-- The next cursor reads the peers with the first one at the back. -/
theorem peersFrom_advanceRr (gconnList : List Con) (cursor : ℕ) (hpos : 0 < getPeers gconnList) :
    ∃ rest, peersFrom gconnList cursor = (cursor % getPeers gconnList) :: rest ∧
      peersFrom gconnList (advanceRr (getPeers gconnList) cursor) =
        rest ++ [cursor % getPeers gconnList] := by
  have hnext : peersFrom gconnList (advanceRr (getPeers gconnList) cursor) =
      (peersFrom gconnList cursor).rotate 1 := by
    rw [peersFrom_congr gconnList (advanceRr_mod _ _), peersFrom, peersFrom, List.rotate_rotate]
  have hlength : 0 < (peersFrom gconnList cursor).length := by
    rwa [peersFrom, List.length_rotate, List.length_range]
  have hfront : (peersFrom gconnList cursor)[0] = cursor % getPeers gconnList := by
    simp [peersFrom, List.getElem_rotate]
  rw [hnext]
  generalize peersFrom gconnList cursor = peers at hlength hfront
  cases peers with
  | nil => cases hlength
  | cons front rest =>
    refine ⟨rest, by rw [← hfront]; rfl, ?_⟩
    rw [List.rotate_cons_succ, List.rotate_zero, ← hfront]
    rfl

/-- Skipping a peer that is down leaves the queue of the peers that are up. -/
theorem upFrom_advanceRr_of_down (gconnList : List Con) (cursor : ℕ) (hpos : 0 < getPeers gconnList)
    (hdown : isUp gconnList (cursor % getPeers gconnList) = false) :
    upFrom gconnList (advanceRr (getPeers gconnList) cursor) = upFrom gconnList cursor := by
  obtain ⟨rest, hcursor, hnext⟩ := peersFrom_advanceRr gconnList cursor hpos
  rw [upFrom, upFrom, hcursor, hnext, List.filter_append, List.filter_cons_of_neg (by simp [hdown]),
    List.filter_cons_of_neg (by simp [hdown]), List.filter_nil, List.append_nil]

/-- Taking a peer that is up sends it from the front of the queue to the back. -/
theorem upFrom_advanceRr_of_up (gconnList : List Con) (cursor : ℕ) (hpos : 0 < getPeers gconnList)
    (hup : isUp gconnList (cursor % getPeers gconnList) = true) :
    ∃ rest, upFrom gconnList cursor = (cursor % getPeers gconnList) :: rest ∧
      upFrom gconnList (advanceRr (getPeers gconnList) cursor) =
        rest ++ [cursor % getPeers gconnList] := by
  obtain ⟨rest, hcursor, hnext⟩ := peersFrom_advanceRr gconnList cursor hpos
  refine ⟨rest.filter (isUp gconnList), ?_, ?_⟩
  · rw [upFrom, hcursor, List.filter_cons_of_pos hup]
  · rw [upFrom, hnext, List.filter_append, List.filter_cons_of_pos hup, List.filter_nil]

/-- The search takes the front of the queue and leaves it at the back. -/
theorem upFrom_reassignConn (gconnList : List Con) (probes cursor con next : ℕ)
    (hsearch : reassignConn gconnList probes cursor = some (con, next)) :
    ∃ rest, upFrom gconnList cursor = con :: rest ∧ upFrom gconnList next = rest ++ [con] := by
  induction probes generalizing cursor with
  | zero => cases hsearch
  | succ probes ih =>
    unfold reassignConn at hsearch
    cases hc : gconnList[cursor % getPeers gconnList]? with
    | none => simp [hc] at hsearch
    | some c =>
      have hpos : 0 < getPeers gconnList :=
        Nat.zero_lt_of_lt (List.getElem?_eq_some_iff.mp hc).1
      simp only [hc] at hsearch
      by_cases hstate : c.state = 1
      · rw [if_pos hstate, Option.some.injEq, Prod.mk.injEq] at hsearch
        obtain ⟨rfl, rfl⟩ := hsearch
        exact upFrom_advanceRr_of_up gconnList cursor hpos (by simp [isUp, hc, hstate])
      · rw [if_neg hstate] at hsearch
        rw [← upFrom_advanceRr_of_down gconnList cursor hpos (by simp [isUp, hc, hstate])]
        exact ih _ hsearch

/-- No peer is in the queue twice. -/
theorem upFrom_nodup (gconnList : List Con) (cursor : ℕ) : (upFrom gconnList cursor).Nodup :=
  (List.nodup_rotate.mpr List.nodup_range).filter _

/-- The queue holds exactly the peers that are up. -/
theorem mem_upFrom (gconnList : List Con) (cursor i : ℕ) :
    i ∈ upFrom gconnList cursor ↔ PeerUp gconnList i := by
  rw [upFrom, List.mem_filter, isUp_iff, peersFrom, List.mem_rotate, List.mem_range, and_iff_right_iff_imp]
  rintro ⟨c, hc, _⟩
  exact (List.getElem?_eq_some_iff.mp hc).1

/-- The queue is as long as there are peers up. -/
theorem length_upFrom (gconnList : List Con) (cursor : ℕ) :
    (upFrom gconnList cursor).length = upCount gconnList := by
  have hentries : (List.range (getPeers gconnList)).map (fun i => gconnList[i]?) = gconnList.map some := by
    apply List.ext_getElem
    · simp [getPeers]
    · intro i hi hi'
      simp
  have hperm := (List.rotate_perm (List.range (getPeers gconnList)) cursor).countP_eq (isUp gconnList)
  rw [upFrom, ← List.countP_eq_length_filter, peersFrom, hperm]
  change (List.range (getPeers gconnList)).countP
    ((fun c : Option Con => c.any fun c => c.state = 1) ∘ fun i => gconnList[i]?) = _
  rw [← List.countP_map, hentries, List.countP_map]
  rfl

/-- What one call does: the id goes to the first peer up at or cyclically after the cursor, found
with no more probes than there are peers, and the cursor is left just behind that peer. -/
structure Assigns (gconnList : List Con) (cursor : ℕ) (x : Addition F P) (peer next : ℕ) : Prop where
  firstUp : ∃ k < getPeers gconnList, peer = (cursor + k) % getPeers gconnList ∧
    PeerUp gconnList peer ∧ (∀ j < k, ¬ PeerUp gconnList ((cursor + j) % getPeers gconnList)) ∧
    ∀ probes, k < probes → reassignConn gconnList probes cursor = some (peer, next)
  added : x.add gconnList cursor = some (x.head ++
    [⟨x.tid, peer, false, x.now, x.now.addExpiry, x.callbackF, x.callbackParam⟩], next, (peer : ℤ))
  inTable : next < getPeers gconnList
  behind : next = (peer + 1) % getPeers gconnList

/-- A call returns what its search finds. -/
theorem Addition.add_eq (x : Addition F P) {gconnList : List Con} {cursor peer next : ℕ}
    (hsearch : reassignConn gconnList (getPeers gconnList) cursor = some (peer, next)) :
    x.add gconnList cursor = some (x.head ++
      [⟨x.tid, peer, false, x.now, x.now.addExpiry, x.callbackF, x.callbackParam⟩], next, (peer : ℤ)) := by
  rw [Addition.add, addEntryIdq, if_neg x.nonempty, hsearch, Option.map_some]

/-- With some peer up, every call finds the first one. -/
theorem exists_assigns (gconnList : List Con) (hany : AnyPeerUp gconnList) (cursor : ℕ)
    (hcursor : cursor < getPeers gconnList) (x : Addition F P) :
    ∃ peer next, Assigns gconnList cursor x peer next := by
  obtain ⟨k, hk, hup, hdown⟩ := exists_first_up gconnList cursor hany
  obtain ⟨next, hsearch, hmod, hlt⟩ := reassignConn_first_up gconnList k _ cursor hk hup hdown
  have hprobes : ∀ probes, k < probes →
      reassignConn gconnList probes cursor = some ((cursor + k) % getPeers gconnList, next) := by
    intro probes hprobes
    obtain ⟨next', hsearch', hmod', hlt'⟩ := reassignConn_first_up gconnList k probes cursor hprobes hup hdown
    have hnext : next' = next := by
      rw [← Nat.mod_eq_of_lt (hlt hcursor), ← Nat.mod_eq_of_lt (hlt' hcursor), hmod, hmod']
    rw [hsearch', hnext]
  refine ⟨_, next, ⟨k, hk, rfl, hup, hdown, hprobes⟩, x.add_eq hsearch, hlt hcursor, ?_⟩
  rw [Nat.mod_add_mod, ← hmod, Nat.mod_eq_of_lt (hlt hcursor)]

/-- Consecutive calls assign the peers that are up in turns. -/
theorem addAll_eq_turns (gconnList : List Con) (hany : AnyPeerUp gconnList) (cursor : ℕ)
    (hcursor : cursor < getPeers gconnList) (xs : List (Addition F P)) :
    ∃ next, addAll gconnList cursor xs =
        some (next, (turns xs.length (upFrom gconnList cursor)).map Nat.cast) ∧
      next < getPeers gconnList := by
  induction xs generalizing cursor with
  | nil => exact ⟨cursor, rfl, hcursor⟩
  | cons x rest ih =>
    obtain ⟨peer, next, hsearch, hlt⟩ := reassignConn_of_anyPeerUp gconnList cursor hany
    obtain ⟨queue, hfront, hback⟩ := upFrom_reassignConn gconnList _ cursor peer next hsearch
    obtain ⟨last, hrest, hlast⟩ := ih next (hlt hcursor)
    refine ⟨last, ?_, hlast⟩
    rw [addAll, x.add_eq hsearch, Option.bind_eq_bind, Option.bind_some, hrest, hfront, hback]
    rfl

/-- The assignment is fair: each id goes to the next peer that is up, and of `k` new ids every
peer that is up gets `k / u` of them, rounded down or up, and no other peer gets any. -/
theorem roundRobin_fair (gconnList : List Con) (hany : AnyPeerUp gconnList) (cursor : ℕ)
    (hcursor : cursor < getPeers gconnList) :
    (∀ x : Addition F P, ∃ peer next, Assigns gconnList cursor x peer next) ∧
    ∀ xs : List (Addition F P), ∃ next conns, addAll gconnList cursor xs = some (next, conns) ∧
      next < getPeers gconnList ∧ conns.length = xs.length ∧
      ∀ i : ℕ, (PeerUp gconnList i → conns.count (i : ℤ) = xs.length / upCount gconnList ∨
          conns.count (i : ℤ) = xs.length ⌈/⌉ upCount gconnList) ∧
        (¬ PeerUp gconnList i → (i : ℤ) ∉ conns) := by
  refine ⟨exists_assigns gconnList hany cursor hcursor, fun xs => ?_⟩
  obtain ⟨next, hrun, hnext⟩ := addAll_eq_turns gconnList hany cursor hcursor xs
  refine ⟨next, _, hrun, hnext, ?_, fun i => ⟨fun hup => ?_, fun hdown hmem => ?_⟩⟩
  · obtain ⟨c, hc, hstate⟩ := hany
    rw [List.length_map, length_turns]
    obtain ⟨i, hi, rfl⟩ := List.mem_iff_getElem.mp hc
    exact List.ne_nil_of_mem ((mem_upFrom gconnList cursor i).mpr
      ⟨_, List.getElem?_eq_getElem hi, hstate⟩)
  · rw [List.count_map_of_injective _ _ Nat.cast_injective, ← length_upFrom gconnList cursor]
    exact count_turns_balanced _ _ (upFrom_nodup gconnList cursor) i ((mem_upFrom gconnList cursor i).mpr hup)
  · obtain ⟨j, hj, hji⟩ := List.mem_map.mp hmem
    rw [Nat.cast_inj] at hji
    exact hdown ((mem_upFrom gconnList cursor i).mp (hji ▸ mem_of_mem_turns hj))

/-- The first and the third of three peers are up, and the cursor is at the second. -/
theorem twoOfThreeUp_fair :
    (∀ x : Addition Unit Unit, ∃ peer next, Assigns [⟨3, 1, 0⟩, ⟨4, 0, 1⟩, ⟨5, 1, 2⟩] 1 x peer next) ∧
    ∀ xs : List (Addition Unit Unit), ∃ next conns,
      addAll [⟨3, 1, 0⟩, ⟨4, 0, 1⟩, ⟨5, 1, 2⟩] 1 xs = some (next, conns) ∧
      next < getPeers [⟨3, 1, 0⟩, ⟨4, 0, 1⟩, ⟨5, 1, 2⟩] ∧ conns.length = xs.length ∧
      ∀ i : ℕ, (PeerUp [⟨3, 1, 0⟩, ⟨4, 0, 1⟩, ⟨5, 1, 2⟩] i →
          conns.count (i : ℤ) = xs.length / upCount [⟨3, 1, 0⟩, ⟨4, 0, 1⟩, ⟨5, 1, 2⟩] ∨
          conns.count (i : ℤ) = xs.length ⌈/⌉ upCount [⟨3, 1, 0⟩, ⟨4, 0, 1⟩, ⟨5, 1, 2⟩]) ∧
        (¬ PeerUp [⟨3, 1, 0⟩, ⟨4, 0, 1⟩, ⟨5, 1, 2⟩] i → (i : ℤ) ∉ conns) :=
  roundRobin_fair _ ⟨⟨3, 1, 0⟩, List.mem_cons_self, rfl⟩ 1 (by decide)

end TcpClb
