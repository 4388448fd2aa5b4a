import Mathlib.Data.List.Nodup
import Mathlib.Data.List.Pairwise
import Mathlib.Data.List.Range
import Mathlib.Logic.Function.Basic

/-!
# Tasks in lanes

Tasks with keys are put into lanes. A lane is a queue of which at most the head is running, and the tasks
with one key that are waiting or running are all in one lane. Tasks are numbered in the order in which they
are put in. Then every task runs at most once, tasks with one key run one after the other in the order of
their numbers, and whenever all lanes are empty every task has run.

The log records what happens to tasks, and marks that the user of the lanes sets.
-/

namespace TcpClb.Common

variable {K M : Type*}

/-- Something that happens to a task, or a mark. -/
inductive LaneEvent (K M : Type*)
  | enqueued (ticket : ℕ) (key : K)
  | began (ticket : ℕ)
  | ended (ticket : ℕ)
  | mark (m : M)
  deriving DecidableEq

/-- The number of the task that is put into a lane. -/
def LaneEvent.enqueuedTicket : LaneEvent K M → Option ℕ
  | .enqueued t _ => some t
  | _ => none

/-- The number of the task that begins to run. -/
def LaneEvent.beganTicket : LaneEvent K M → Option ℕ
  | .began t => some t
  | _ => none

/-- The number of the task that ends. -/
def LaneEvent.endedTicket : LaneEvent K M → Option ℕ
  | .ended t => some t
  | _ => none

/-- How often a task has begun to run. -/
def timesBegan (log : List (LaneEvent K M)) (t : ℕ) : ℕ := (log.filterMap LaneEvent.beganTicket).count t

/-- How often a task has ended. -/
def timesEnded (log : List (LaneEvent K M)) (t : ℕ) : ℕ := (log.filterMap LaneEvent.endedTicket).count t

/-- A task begins to run only after all tasks with its key that were put in earlier have ended. -/
def RunInOrder (log : List (LaneEvent K M)) : Prop :=
  ∀ before t t' k, before ++ [.began t'] <+: log → [.enqueued t k, .enqueued t' k].Sublist before →
    .ended t ∈ before

/-- The tasks in each lane, with the running one at the head, which lanes have a running task, the number
of the next task, and the log. -/
structure Lanes (K M : Type*) where
  pending : ℕ → List (ℕ × K)
  busy : ℕ → Bool
  tickets : ℕ
  log : List (LaneEvent K M)

/-- Nothing has happened. -/
def Lanes.initial : Lanes K M := ⟨fun _ => [], fun _ => false, 0, []⟩

/-- A task is put into a lane. -/
def Lanes.enqueue (s : Lanes K M) (i : ℕ) (k : K) : Lanes K M where
  pending := Function.update s.pending i (s.pending i ++ [(s.tickets, k)])
  busy := s.busy
  tickets := s.tickets + 1
  log := s.log ++ [.enqueued s.tickets k]

/-- The task at the head of a lane begins to run. -/
def Lanes.begin (s : Lanes K M) (i t : ℕ) : Lanes K M :=
  { s with busy := Function.update s.busy i true, log := s.log ++ [.began t] }

/-- The running task of a lane ends. -/
def Lanes.finish (s : Lanes K M) (i t : ℕ) : Lanes K M where
  pending := Function.update s.pending i (s.pending i).tail
  busy := Function.update s.busy i false
  tickets := s.tickets
  log := s.log ++ [.ended t]

/-- A mark is set. -/
def Lanes.note (s : Lanes K M) (m : M) : Lanes K M := { s with log := s.log ++ [.mark m] }

/-- The steps of lanes. -/
inductive LaneStep (s : Lanes K M) : Lanes K M → Prop
  | enqueue (i : ℕ) (k : K) (hlane : ∀ j t, (t, k) ∈ s.pending j → j = i) : LaneStep s (s.enqueue i k)
  | begin {i t : ℕ} {k : K} (hhead : (s.pending i).head? = some (t, k)) (hidle : s.busy i = false) :
    LaneStep s (s.begin i t)
  | finish {i t : ℕ} {k : K} (hhead : (s.pending i).head? = some (t, k)) (hbusy : s.busy i = true) :
    LaneStep s (s.finish i t)
  | note (m : M) : LaneStep s (s.note m)

/-- What holds of lanes after every step. -/
structure Lanes.Sound (s : Lanes K M) : Prop where
  numbered : s.log.filterMap LaneEvent.enqueuedTicket = List.range s.tickets
  queued : ∀ i t k, (t, k) ∈ s.pending i → .enqueued t k ∈ s.log ∧ .ended t ∉ s.log
  kept : ∀ t k, .enqueued t k ∈ s.log → .ended t ∈ s.log ∨ ∃ i, (t, k) ∈ s.pending i
  sorted : ∀ i, (s.pending i).Pairwise fun x y => x.1 < y.1
  sameLane : ∀ i j t t' k, (t, k) ∈ s.pending i → (t', k) ∈ s.pending j → i = j
  running : ∀ i t k, (t, k) ∈ s.pending i →
    (.began t ∈ s.log ↔ s.busy i = true ∧ (s.pending i).head? = some (t, k))
  busyFull : ∀ i, s.busy i = true → s.pending i ≠ []
  known : ∀ t, .began t ∈ s.log → t < s.tickets
  finished : ∀ t, .ended t ∈ s.log → .began t ∈ s.log
  beganOnce : (s.log.filterMap LaneEvent.beganTicket).Nodup
  endedOnce : (s.log.filterMap LaneEvent.endedTicket).Nodup
  ordered : RunInOrder s.log

@[simp] theorem mem_filterMap_enqueuedTicket {log : List (LaneEvent K M)} {t : ℕ} :
    t ∈ log.filterMap LaneEvent.enqueuedTicket ↔ ∃ k, .enqueued t k ∈ log := by
  rw [List.mem_filterMap]
  constructor
  · rintro ⟨e, he, ht⟩
    cases e with
    | enqueued t' k =>
      cases ht
      exact ⟨k, he⟩
    | began | ended | mark => cases ht
  · rintro ⟨k, hk⟩
    exact ⟨_, hk, rfl⟩

@[simp] theorem mem_filterMap_beganTicket {log : List (LaneEvent K M)} {t : ℕ} :
    t ∈ log.filterMap LaneEvent.beganTicket ↔ .began t ∈ log := by
  rw [List.mem_filterMap]
  constructor
  · rintro ⟨e, he, ht⟩
    cases e with
    | began t' =>
      cases ht
      exact he
    | enqueued | ended | mark => cases ht
  · exact fun h => ⟨_, h, rfl⟩

@[simp] theorem mem_filterMap_endedTicket {log : List (LaneEvent K M)} {t : ℕ} :
    t ∈ log.filterMap LaneEvent.endedTicket ↔ .ended t ∈ log := by
  rw [List.mem_filterMap]
  constructor
  · rintro ⟨e, he, ht⟩
    cases e with
    | ended t' =>
      cases ht
      exact he
    | enqueued | began | mark => cases ht
  · exact fun h => ⟨_, h, rfl⟩

/-- Two elements that a partial function sends to one value are the same if it has no value twice. -/
theorem eq_of_nodup_filterMap {A B : Type*} {f : A → Option B} {xs : List A} (h : (xs.filterMap f).Nodup)
    {x y : A} {b : B} (hx : x ∈ xs) (hy : y ∈ xs) (hxb : f x = some b) (hyb : f y = some b) : x = y := by
  induction xs with
  | nil => exact absurd hx List.not_mem_nil
  | cons a rest ih =>
    have hrest : (rest.filterMap f).Nodup := h.sublist ((List.sublist_cons_self a rest).filterMap f)
    have hfirst (z : A) (hz : z ∈ rest) (hzb : f z = some b) : f a ≠ some b := by
      intro hab
      rw [List.filterMap_cons_some hab] at h
      exact (List.nodup_cons.mp h).1 (List.mem_filterMap.mpr ⟨z, hz, hzb⟩)
    rcases List.mem_cons.mp hx with hxa | hxrest
    · rcases List.mem_cons.mp hy with hya | hyrest
      · rw [hxa, hya]
      · exact absurd (hxa ▸ hxb) (hfirst y hyrest hyb)
    · rcases List.mem_cons.mp hy with hya | hyrest
      · exact absurd (hya ▸ hyb) (hfirst x hxrest hxb)
      · exact ih hrest hxrest hyrest

/-- One more event. -/
theorem RunInOrder.snoc {log : List (LaneEvent K M)} {e : LaneEvent K M} (h : RunInOrder log)
    (he : ∀ t t' k, e = .began t' → [.enqueued t k, .enqueued t' k].Sublist log → .ended t ∈ log) :
    RunInOrder (log ++ [e]) := by
  intro before t t' k hprefix hsublist
  rcases List.prefix_concat_iff.mp hprefix with hall | hold
  · obtain ⟨rfl, hlast⟩ := List.append_inj' hall rfl
    exact he t t' k (List.cons.inj hlast).1.symm hsublist
  · exact h before t t' k hold hsublist

/-- A task that was put in has one of the numbers given out. -/
theorem Lanes.Sound.lt_tickets {s : Lanes K M} (h : s.Sound) {t : ℕ} {k : K} (ht : .enqueued t k ∈ s.log) :
    t < s.tickets := by
  have hmem : t ∈ s.log.filterMap LaneEvent.enqueuedTicket := mem_filterMap_enqueuedTicket.mpr ⟨k, ht⟩
  rw [h.numbered] at hmem
  exact List.mem_range.mp hmem

/-- A number belongs to one task. -/
theorem Lanes.Sound.key_unique {s : Lanes K M} (h : s.Sound) {t : ℕ} {k k' : K} (hk : .enqueued t k ∈ s.log)
    (hk' : .enqueued t k' ∈ s.log) : k = k' := by
  have hnodup : (s.log.filterMap LaneEvent.enqueuedTicket).Nodup := h.numbered ▸ List.nodup_range
  have hsame := eq_of_nodup_filterMap hnodup hk hk' rfl rfl
  cases hsame
  rfl

/-- Tasks that were put in one after the other have numbers in that order. -/
theorem Lanes.Sound.lt_of_sublist {s : Lanes K M} (h : s.Sound) {t t' : ℕ} {k k' : K}
    (hsublist : [.enqueued t k, .enqueued t' k'].Sublist s.log) : t < t' := by
  have htickets : [t, t'].Sublist (s.log.filterMap LaneEvent.enqueuedTicket) :=
    hsublist.filterMap LaneEvent.enqueuedTicket
  rw [h.numbered] at htickets
  exact List.rel_of_pairwise_cons (List.pairwise_lt_range.sublist htickets) List.mem_cons_self

/-- A waiting or running task is in one lane. -/
theorem Lanes.Sound.lane_unique {s : Lanes K M} (h : s.Sound) {i j t : ℕ} {k k' : K}
    (hi : (t, k) ∈ s.pending i) (hj : (t, k') ∈ s.pending j) : k = k' ∧ i = j := by
  obtain rfl : k = k' := h.key_unique (h.queued i t k hi).1 (h.queued j t k' hj).1
  exact ⟨rfl, h.sameLane i j t t k hi hj⟩

/-- The head of a lane has the smallest number in it. -/
theorem Lanes.Sound.head_le {s : Lanes K M} (h : s.Sound) {i t t' : ℕ} {k k' : K}
    (hhead : (s.pending i).head? = some (t, k)) (ht' : (t', k') ∈ s.pending i) : t ≤ t' := by
  obtain ⟨rest, hrest⟩ := List.head?_eq_some_iff.mp hhead
  have hsorted := h.sorted i
  rw [hrest] at ht' hsorted
  rcases List.mem_cons.mp ht' with hsame | hlater
  · cases hsame
    exact le_rfl
  · exact (List.rel_of_pairwise_cons hsorted hlater).le

/-- A mark changes nothing. -/
theorem Lanes.Sound.note {s : Lanes K M} (h : s.Sound) (m : M) : (s.note m).Sound where
  numbered := by simpa [Lanes.note, List.filterMap_cons, LaneEvent.enqueuedTicket] using h.numbered
  queued := by simpa [Lanes.note] using h.queued
  kept := by simpa [Lanes.note] using h.kept
  sorted := h.sorted
  sameLane := h.sameLane
  running := by simpa [Lanes.note] using h.running
  busyFull := h.busyFull
  known := by simpa [Lanes.note] using h.known
  finished := by simpa [Lanes.note] using h.finished
  beganOnce := by simpa [Lanes.note, List.filterMap_cons, LaneEvent.beganTicket] using h.beganOnce
  endedOnce := by simpa [Lanes.note, List.filterMap_cons, LaneEvent.endedTicket] using h.endedOnce
  ordered := h.ordered.snoc fun _ _ _ he => by simp at he

/-- The tasks in the lanes after one is put in. -/
theorem Lanes.mem_enqueue {s : Lanes K M} {i j t : ℕ} {k k' : K} :
    (t, k') ∈ (s.enqueue i k).pending j ↔ (t, k') ∈ s.pending j ∨ j = i ∧ t = s.tickets ∧ k' = k := by
  by_cases hj : j = i
  · subst hj
    simp [Lanes.enqueue]
  · simp [Lanes.enqueue, hj]

/-- A task that is put in gets a number that no task has had. -/
theorem Lanes.Sound.enqueue {s : Lanes K M} (h : s.Sound) {i : ℕ} {k : K}
    (hlane : ∀ j t, (t, k) ∈ s.pending j → j = i) : (s.enqueue i k).Sound where
  numbered := by simp [Lanes.enqueue, LaneEvent.enqueuedTicket, h.numbered, List.range_succ]
  queued := by
    intro j t k' ht
    rcases Lanes.mem_enqueue.mp ht with hold | ⟨-, rfl, rfl⟩
    · simpa [Lanes.enqueue] using ⟨Or.inl (h.queued j t k' hold).1, (h.queued j t k' hold).2⟩
    · have hfresh : .ended s.tickets ∉ s.log := fun he => lt_irrefl _ (h.known _ (h.finished _ he))
      simpa [Lanes.enqueue] using hfresh
  kept := by
    intro t k' ht
    have ht' : .enqueued t k' ∈ s.log ∨ t = s.tickets ∧ k' = k := by simpa [Lanes.enqueue] using ht
    rcases ht' with hold | hnew
    · rcases h.kept t k' hold with hended | ⟨j, hj⟩
      · exact .inl (List.mem_append_left _ hended)
      · exact .inr ⟨j, Lanes.mem_enqueue.mpr (.inl hj)⟩
    · exact .inr ⟨i, Lanes.mem_enqueue.mpr (.inr ⟨rfl, hnew⟩)⟩
  sorted := by
    intro j
    by_cases hj : j = i
    · subst hj
      have hbelow (x : ℕ × K) (hx : x ∈ s.pending j) : x.1 < s.tickets :=
        h.lt_tickets (h.queued j x.1 x.2 hx).1
      simpa [Lanes.enqueue, List.pairwise_append] using ⟨h.sorted j, fun t k' => hbelow (t, k')⟩
    · simpa [Lanes.enqueue, hj] using h.sorted j
  sameLane := by
    intro j j' t t' k' ht ht'
    rcases Lanes.mem_enqueue.mp ht with hold | ⟨rfl, -, rfl⟩
    · rcases Lanes.mem_enqueue.mp ht' with hold' | ⟨rfl, -, rfl⟩
      · exact h.sameLane j j' t t' k' hold hold'
      · exact hlane j t hold
    · rcases Lanes.mem_enqueue.mp ht' with hold' | ⟨rfl, -, -⟩
      · exact (hlane j' t' hold').symm
      · rfl
  running := by
    intro j t k' ht
    have hbegan : .began t ∈ (s.enqueue i k).log ↔ .began t ∈ s.log := by simp [Lanes.enqueue]
    rw [hbegan]
    change _ ↔ s.busy j = true ∧ _
    rcases Lanes.mem_enqueue.mp ht with hold | ⟨rfl, rfl, rfl⟩
    · rw [h.running j t k' hold]
      have hfull := List.ne_nil_of_mem hold
      by_cases hj : j = i
      · subst hj
        simp [Lanes.enqueue, List.head?_append_of_ne_nil _ hfull]
      · simp [Lanes.enqueue, hj]
    · refine iff_of_false (fun hbegan => lt_irrefl _ (h.known _ hbegan)) fun hrunning => ?_
      have hhead : (s.pending j).head? = some (s.tickets, k') := by
        simpa [Lanes.enqueue, List.head?_append_of_ne_nil _ (h.busyFull j hrunning.1)] using hrunning.2
      exact lt_irrefl _ (h.lt_tickets (h.queued j _ _ (List.mem_of_mem_head? hhead)).1)
  busyFull := by
    intro j hbusy
    by_cases hj : j = i
    · subst hj
      simp [Lanes.enqueue]
    · simpa [Lanes.enqueue, hj] using h.busyFull j hbusy
  known := by
    intro t ht
    have hold : .began t ∈ s.log := by simpa [Lanes.enqueue] using ht
    exact (h.known t hold).trans (Nat.lt_succ_self _)
  finished := by simpa [Lanes.enqueue] using h.finished
  beganOnce := by simpa [Lanes.enqueue, List.filterMap_cons, LaneEvent.beganTicket] using h.beganOnce
  endedOnce := by simpa [Lanes.enqueue, List.filterMap_cons, LaneEvent.endedTicket] using h.endedOnce
  ordered := h.ordered.snoc fun _ _ _ he => by simp at he

/-- A task begins once, and after the earlier tasks with its key have ended. -/
theorem Lanes.Sound.begin {s : Lanes K M} (h : s.Sound) {i t : ℕ} {k : K}
    (hhead : (s.pending i).head? = some (t, k)) (hidle : s.busy i = false) : (s.begin i t).Sound where
  numbered := by simpa [Lanes.begin, List.filterMap_cons, LaneEvent.enqueuedTicket] using h.numbered
  queued := by simpa [Lanes.begin] using h.queued
  kept := by simpa [Lanes.begin] using h.kept
  sorted := h.sorted
  sameLane := h.sameLane
  running := by
    intro j t' k' ht'
    have hbegan : .began t' ∈ (s.begin i t).log ↔ .began t' ∈ s.log ∨ t' = t := by simp [Lanes.begin]
    rw [hbegan, h.running j t' k' ht']
    by_cases hj : j = i
    · subst hj
      have hkey : t' = t → k' = k := fun hsame =>
        (h.lane_unique (hsame ▸ ht') (List.mem_of_mem_head? hhead)).1
      simp only [Lanes.begin, hidle, hhead, Function.update_self, Option.some.injEq, Prod.mk.injEq]
      simp only [Bool.false_eq_true, false_and, false_or, true_and]
      exact ⟨fun hsame => ⟨hsame.symm, (hkey hsame).symm⟩, fun hsame => hsame.1.symm⟩
    · have hother : t' ≠ t := fun hsame =>
        hj (h.lane_unique (hsame ▸ ht') (List.mem_of_mem_head? hhead)).2
      simp [Lanes.begin, hj, hother]
  busyFull := by
    intro j hbusy
    by_cases hj : j = i
    · subst hj
      exact List.ne_nil_of_mem (List.mem_of_mem_head? hhead)
    · exact h.busyFull j (by simpa [Lanes.begin, hj] using hbusy)
  known := by
    intro t' ht'
    have hcases : .began t' ∈ s.log ∨ t' = t := by simpa [Lanes.begin] using ht'
    rcases hcases with hold | rfl
    · exact h.known t' hold
    · exact h.lt_tickets (h.queued i t' k (List.mem_of_mem_head? hhead)).1
  finished := by
    intro t' ht'
    have hold : .ended t' ∈ s.log := by simpa [Lanes.begin] using ht'
    exact List.mem_append_left _ (h.finished t' hold)
  beganOnce := by
    have hfirst : .began t ∉ s.log := by
      rw [h.running i t k (List.mem_of_mem_head? hhead), hidle]
      simp
    have hnodup : (s.log.filterMap LaneEvent.beganTicket ++ [t]).Nodup :=
      List.nodup_append.mpr ⟨h.beganOnce, List.nodup_singleton t, by
        intro x hx y hy
        rw [List.mem_singleton.mp hy]
        exact fun hsame => hfirst (mem_filterMap_beganTicket.mp (hsame ▸ hx))⟩
    simpa [Lanes.begin, LaneEvent.beganTicket] using hnodup
  endedOnce := by simpa [Lanes.begin, List.filterMap_cons, LaneEvent.endedTicket] using h.endedOnce
  ordered := h.ordered.snoc fun t₀ t' k' he hsublist => by
    obtain rfl : t = t' := LaneEvent.began.inj he
    have hbefore : t₀ < t := h.lt_of_sublist hsublist
    have hin : .enqueued t k' ∈ s.log := hsublist.subset (by simp)
    obtain rfl : k' = k := h.key_unique hin (h.queued i t k (List.mem_of_mem_head? hhead)).1
    rcases h.kept t₀ k' (hsublist.subset (by simp)) with hended | ⟨j, hj⟩
    · exact hended
    · obtain rfl : j = i := h.sameLane j i t₀ t k' hj (List.mem_of_mem_head? hhead)
      exact absurd (h.head_le hhead hj) (Nat.not_le.mpr hbefore)

/-- The tasks in the lanes after one has ended. -/
theorem Lanes.Sound.mem_finish {s : Lanes K M} (h : s.Sound) {i j t t' : ℕ} {k k' : K}
    (hhead : (s.pending i).head? = some (t, k)) :
    (t', k') ∈ (s.finish i t).pending j ↔ (t', k') ∈ s.pending j ∧ t' ≠ t := by
  obtain ⟨rest, hrest⟩ := List.head?_eq_some_iff.mp hhead
  by_cases hj : j = i
  · subst hj
    have hsorted := h.sorted j
    rw [hrest] at hsorted
    simp only [Lanes.finish, Function.update_self, hrest, List.tail_cons, List.mem_cons]
    constructor
    · intro hin
      exact ⟨.inr hin, (List.rel_of_pairwise_cons hsorted hin).ne'⟩
    · rintro ⟨hsame | hin, hne⟩
      · exact absurd (Prod.mk.inj hsame).1 hne
      · exact hin
  · simp only [Lanes.finish, Function.update_of_ne hj]
    refine ⟨fun hin => ⟨hin, fun hsame => ?_⟩, And.left⟩
    exact hj (h.lane_unique (hsame ▸ hin) (List.mem_of_mem_head? hhead)).2

/-- A task ends once, after it has begun. -/
theorem Lanes.Sound.finish {s : Lanes K M} (h : s.Sound) {i t : ℕ} {k : K}
    (hhead : (s.pending i).head? = some (t, k)) (hbusy : s.busy i = true) : (s.finish i t).Sound where
  numbered := by simpa [Lanes.finish, List.filterMap_cons, LaneEvent.enqueuedTicket] using h.numbered
  queued := by
    intro j t' k' ht'
    obtain ⟨hold, hother⟩ := (h.mem_finish hhead).mp ht'
    simpa [Lanes.finish, hother] using h.queued j t' k' hold
  kept := by
    intro t' k' ht'
    have hold : .enqueued t' k' ∈ s.log := by simpa [Lanes.finish] using ht'
    by_cases hsame : t' = t
    · exact .inl (by simp [Lanes.finish, hsame])
    · rcases h.kept t' k' hold with hended | ⟨j, hj⟩
      · exact .inl (List.mem_append_left _ hended)
      · exact .inr ⟨j, (h.mem_finish hhead).mpr ⟨hj, hsame⟩⟩
  sorted := by
    intro j
    by_cases hj : j = i
    · subst hj
      simpa [Lanes.finish] using (h.sorted j).sublist (List.tail_sublist _)
    · simpa [Lanes.finish, hj] using h.sorted j
  sameLane := by
    intro j j' t₁ t₂ k' ht₁ ht₂
    exact h.sameLane j j' t₁ t₂ k' ((h.mem_finish hhead).mp ht₁).1 ((h.mem_finish hhead).mp ht₂).1
  running := by
    intro j t' k' ht'
    obtain ⟨hold, hother⟩ := (h.mem_finish hhead).mp ht'
    have hbegan : .began t' ∈ (s.finish i t).log ↔ .began t' ∈ s.log := by simp [Lanes.finish]
    rw [hbegan, h.running j t' k' hold]
    by_cases hj : j = i
    · subst hj
      have hnot : (s.pending j).head? ≠ some (t', k') := by
        rw [hhead]
        exact fun hsame => hother (Prod.mk.inj (Option.some.inj hsame)).1.symm
      simp [Lanes.finish, hnot]
    · simp [Lanes.finish, hj]
  busyFull := by
    intro j hb
    by_cases hj : j = i
    · subst hj
      simp [Lanes.finish] at hb
    · simpa [Lanes.finish, hj] using h.busyFull j (by simpa [Lanes.finish, hj] using hb)
  known := by simpa [Lanes.finish] using h.known
  finished := by
    intro t' ht'
    have hcases : .ended t' ∈ s.log ∨ t' = t := by simpa [Lanes.finish] using ht'
    rcases hcases with hold | rfl
    · exact List.mem_append_left _ (h.finished t' hold)
    · exact List.mem_append_left _
        ((h.running i t' k (List.mem_of_mem_head? hhead)).mpr ⟨hbusy, hhead⟩)
  beganOnce := by simpa [Lanes.finish, List.filterMap_cons, LaneEvent.beganTicket] using h.beganOnce
  endedOnce := by
    have hfirst : .ended t ∉ s.log := (h.queued i t k (List.mem_of_mem_head? hhead)).2
    have hnodup : (s.log.filterMap LaneEvent.endedTicket ++ [t]).Nodup :=
      List.nodup_append.mpr ⟨h.endedOnce, List.nodup_singleton t, by
        intro x hx y hy
        rw [List.mem_singleton.mp hy]
        exact fun hsame => hfirst (mem_filterMap_endedTicket.mp (hsame ▸ hx))⟩
    simpa [Lanes.finish, LaneEvent.endedTicket] using hnodup
  ordered := h.ordered.snoc fun _ _ _ he => by simp at he

/-- Every step of lanes keeps them sound. -/
theorem LaneStep.sound {s next : Lanes K M} (hstep : LaneStep s next) (h : s.Sound) : next.Sound := by
  cases hstep with
  | enqueue i k hlane => exact h.enqueue hlane
  | begin hhead hidle => exact h.begin hhead hidle
  | finish hhead hbusy => exact h.finish hhead hbusy
  | note m => exact h.note m

/-- Lanes are sound at the start. -/
theorem Lanes.initial_sound : (Lanes.initial : Lanes K M).Sound where
  numbered := rfl
  queued := by simp [Lanes.initial]
  kept := by simp [Lanes.initial]
  sorted := by simp [Lanes.initial]
  sameLane := by simp [Lanes.initial]
  running := by simp [Lanes.initial]
  busyFull := by simp [Lanes.initial]
  known := by simp [Lanes.initial]
  finished := by simp [Lanes.initial]
  beganOnce := List.nodup_nil
  endedOnce := List.nodup_nil
  ordered := by
    intro before t t' k hprefix
    simp [Lanes.initial] at hprefix

/-- Every task begins at most once. -/
theorem Lanes.Sound.timesBegan_le {s : Lanes K M} (h : s.Sound) (t : ℕ) : timesBegan s.log t ≤ 1 :=
  List.nodup_iff_count_le_one.mp h.beganOnce t

/-- Once no lane has a task, every task that was put in has run exactly once. -/
theorem Lanes.Sound.drained {s : Lanes K M} (h : s.Sound) (hempty : ∀ i, s.pending i = []) {t : ℕ} {k : K}
    (ht : .enqueued t k ∈ s.log) : timesBegan s.log t = 1 ∧ timesEnded s.log t = 1 := by
  have hended : .ended t ∈ s.log := by
    rcases h.kept t k ht with hended | ⟨i, hi⟩
    · exact hended
    · rw [hempty i] at hi
      exact absurd hi List.not_mem_nil
  exact ⟨List.count_eq_one_of_mem h.beganOnce (mem_filterMap_beganTicket.mpr (h.finished t hended)),
    List.count_eq_one_of_mem h.endedOnce (mem_filterMap_endedTicket.mpr hended)⟩

end TcpClb.Common
