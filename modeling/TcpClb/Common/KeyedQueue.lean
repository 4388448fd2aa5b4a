import Mathlib.Data.List.Basic

/-!
# One queue shared by several consumers

Items are added at the end; a consumer takes the earliest item that carries its key. The rules
below are about the history of such a queue: what is waiting after it, and that every consumer
sees its own items in the order in which they were added, none lost and none repeated.
-/

namespace TcpClb.Common

variable {α K : Type*} [DecidableEq K]

/-- One operation on the queue together with its outcome. -/
inductive QueueEvent (α K : Type*)
  | pushed (m : α)
  | popped (k : K) (m : Option α)

/-- The items left waiting by one operation. -/
def waitingAfter (key : α → K) (q : List α) : QueueEvent α K → List α
  | .pushed m => q ++ [m]
  | .popped k _ => q.eraseP fun m => key m = k

/-- The items added and not yet taken, in the order in which they were added. -/
def pending (key : α → K) (log : List (QueueEvent α K)) : List α := log.foldl (waitingAfter key) []

/-- Every take from the queue `q` on returned the earliest item with the key, or nothing exactly
when no item had it. -/
def PopsEarliest (key : α → K) : List α → List (QueueEvent α K) → Prop
  | _, [] => True
  | q, .pushed m :: rest => PopsEarliest key (waitingAfter key q (.pushed m)) rest
  | q, .popped k m :: rest =>
    m = q.find? (fun x => key x = k) ∧ PopsEarliest key (waitingAfter key q (.popped k m)) rest

/-- The items with a key, in the order in which they were added. -/
def queuedFor (key : α → K) (k : K) : List (QueueEvent α K) → List α
  | [] => []
  | .pushed m :: rest => if key m = k then m :: queuedFor key k rest else queuedFor key k rest
  | .popped _ _ :: rest => queuedFor key k rest

/-- The items the consumer with a key has taken, in order. -/
def deliveredTo (k : K) : List (QueueEvent α K) → List α
  | [] => []
  | .pushed _ :: rest => deliveredTo k rest
  | .popped k' m :: rest => (if k' = k then m.toList else []) ++ deliveredTo k rest

/-- One more operation at the end of a history. -/
theorem pending_snoc (key : α → K) (log : List (QueueEvent α K)) (e : QueueEvent α K) :
    pending key (log ++ [e]) = waitingAfter key (pending key log) e := by
  simp [pending]

/-- Only what has been added waits. -/
theorem mem_foldl_waitingAfter {key : α → K} {q : List α} {log : List (QueueEvent α K)} {m : α}
    (hm : m ∈ log.foldl (waitingAfter key) q) : m ∈ q ∨ .pushed m ∈ log := by
  induction log generalizing q with
  | nil => exact .inl hm
  | cons e rest ih =>
    rcases ih hm with hfirst | hrest
    · cases e with
      | pushed m' =>
        rcases List.mem_append.mp hfirst with hold | hnew
        · exact .inl hold
        · rw [List.mem_singleton.mp hnew]
          exact .inr List.mem_cons_self
      | popped k m' => exact .inl (List.mem_of_mem_eraseP hfirst)
    · exact .inr (List.mem_cons_of_mem e hrest)

/-- A correct history stays correct if its last operation is an addition, or took the right item. -/
theorem popsEarliest_snoc (key : α → K) (q : List α) (log : List (QueueEvent α K))
    (e : QueueEvent α K) :
    PopsEarliest key q (log ++ [e]) ↔
      PopsEarliest key q log ∧ PopsEarliest key (log.foldl (waitingAfter key) q) [e] := by
  induction log generalizing q with
  | nil => exact (and_iff_right trivial).symm
  | cons d rest ih =>
    cases d with
    | pushed m => exact ih _
    | popped k m =>
      simp only [List.cons_append, PopsEarliest, List.foldl_cons, and_assoc]
      exact and_congr_right fun _ => ih _

/-- Taking the earliest item with a key removes it from the items with that key. -/
theorem filter_eq_cons_of_find (key : α → K) (k : K) (q : List α) (m : α)
    (hfind : q.find? (fun x => key x = k) = some m) :
    q.filter (fun x => key x = k) = m :: (q.eraseP fun x => key x = k).filter fun x => key x = k := by
  induction q with
  | nil => simp at hfind
  | cons x rest ih =>
    by_cases hx : key x = k
    · rw [List.find?_cons_of_pos (by simpa using hx), Option.some.injEq] at hfind
      subst hfind
      rw [List.filter_cons_of_pos (by simpa using hx), List.eraseP_cons_of_pos (by simpa using hx)]
    · rw [List.find?_cons_of_neg (by simpa using hx)] at hfind
      rw [List.filter_cons_of_neg (by simpa using hx), List.eraseP_cons_of_neg (by simpa using hx),
        List.filter_cons_of_neg (by simpa using hx), ih hfind]

/-- Taking an item with one key leaves the items with every other key waiting. -/
theorem filter_eraseP_of_ne (key : α → K) (k k' : K) (hne : k' ≠ k) (q : List α) :
    (q.eraseP fun x => key x = k').filter (fun x => key x = k) = q.filter fun x => key x = k := by
  induction q with
  | nil => rfl
  | cons x rest ih =>
    by_cases hx : key x = k'
    · have hxk : key x ≠ k := fun h => hne (hx.symm.trans h)
      rw [List.eraseP_cons_of_pos (by simpa using hx), List.filter_cons_of_neg (by simpa using hxk)]
    · rw [List.eraseP_cons_of_neg (by simpa using hx)]
      by_cases hxk : key x = k
      · rw [List.filter_cons_of_pos (by simpa using hxk), List.filter_cons_of_pos (by simpa using hxk), ih]
      · rw [List.filter_cons_of_neg (by simpa using hxk), List.filter_cons_of_neg (by simpa using hxk), ih]

/-- Conservation: what a consumer has taken, followed by what still waits for it, is what was
waiting for it at first followed by everything added for it since. -/
theorem delivered_append_waiting (key : α → K) (k : K) (q : List α) (log : List (QueueEvent α K))
    (hlog : PopsEarliest key q log) :
    deliveredTo k log ++ (log.foldl (waitingAfter key) q).filter (fun x => key x = k) =
      q.filter (fun x => key x = k) ++ queuedFor key k log := by
  induction log generalizing q with
  | nil => simp [deliveredTo, queuedFor]
  | cons e rest ih =>
    cases e with
    | pushed m =>
      have hrest := ih _ hlog
      simp only [deliveredTo, queuedFor, List.foldl_cons]
      rw [hrest]
      by_cases hm : key m = k <;> simp [waitingAfter, hm]
    | popped k' m =>
      obtain ⟨hm, hlog⟩ := hlog
      have hrest := ih _ hlog
      simp only [deliveredTo, queuedFor, List.foldl_cons, List.append_assoc]
      rw [hrest]
      by_cases hk : k' = k
      · subst hk
        cases m with
        | none =>
          have hnone : (q.eraseP fun x => key x = k') = q := by
            apply List.eraseP_of_forall_not
            intro x hx
            exact List.find?_eq_none.mp hm.symm x hx
          simp only [waitingAfter, hnone, if_true, Option.toList_none, List.nil_append]
        | some m =>
          simp only [waitingAfter, if_true, Option.toList_some, List.cons_append, List.nil_append,
            filter_eq_cons_of_find key k' q m hm.symm]
      · simp only [waitingAfter, if_neg hk, List.nil_append, filter_eraseP_of_ne key k k' hk q]

/-- From an empty queue on, every consumer has taken a prefix of what was added for it. -/
theorem delivered_prefix_queued (key : α → K) (k : K) (log : List (QueueEvent α K))
    (hlog : PopsEarliest key [] log) : deliveredTo k log <+: queuedFor key k log := by
  have hall := delivered_append_waiting key k [] log hlog
  rw [List.filter_nil, List.nil_append] at hall
  exact ⟨_, hall⟩

end TcpClb.Common
