import Mathlib.Data.Option.Basic
import Mathlib.Data.List.Basic
import Mathlib.Data.List.Forall2
import Mathlib.Order.WellFounded

/-!
# Runs of a partial step function

A system is a step function `S → A → Option S`: an action either leads to one next state or is
not possible. All scheduling and environment choices are part of the action, so a run is a list
of actions. The rules below turn a fact about one step into a fact about a whole run, with or
without a condition that every step of the run has to meet. Two systems are compared step by step,
with the same actions or with matching ones that carry different data. The last rules do so for a
fold that may stop with an error.
-/

namespace TcpClb.Common

variable {S A : Type*}

/-- Perform the actions in order; undefined as soon as one of them is not possible. -/
def runActions (step : S → A → Option S) : S → List A → Option S
  | s, [] => some s
  | s, a :: rest => (step s a).bind fun next => runActions step next rest

/-- Every step taken along the run meets the condition in the state before it. -/
def EachStep (step : S → A → Option S) (condition : S → A → Prop) : S → List A → Prop
  | _, [] => True
  | s, a :: rest => ∀ next, step s a = some next → condition s a ∧ EachStep step condition next rest

/-- The property holds in the first state and in every state the run passes through. -/
def Throughout (step : S → A → Option S) (P : S → Prop) : S → List A → Prop
  | s, [] => P s
  | s, a :: rest => P s ∧ ∀ next, step s a = some next → Throughout step P next rest

@[simp] theorem runActions_nil (step : S → A → Option S) (s : S) :
    runActions step s [] = some s := rfl

/-- A nonempty run is a first step followed by a run from the state it leads to. -/
theorem runActions_cons_eq_some (step : S → A → Option S) (s t : S) (a : A) (rest : List A) :
    runActions step s (a :: rest) = some t ↔
      ∃ next, step s a = some next ∧ runActions step next rest = some t := by
  simp only [runActions, Option.bind_eq_some_iff]

/-- A possible first step that meets the condition, before steps that meet it. -/
theorem EachStep.cons {step : S → A → Option S} {condition : S → A → Prop} {s next : S} {a : A}
    {rest : List A} (hstep : step s a = some next) (hcond : condition s a)
    (hrest : EachStep step condition next rest) : EachStep step condition s (a :: rest) := by
  intro next' hnext'
  rw [hstep, Option.some.injEq] at hnext'
  exact ⟨hcond, hnext' ▸ hrest⟩

/-- Two runs performed one after the other are a run. -/
theorem runActions_append (step : S → A → Option S) (s : S) (first second : List A) :
    runActions step s (first ++ second) =
      (runActions step s first).bind fun t => runActions step t second := by
  induction first generalizing s with
  | nil => rfl
  | cons a rest ih =>
    simp only [List.cons_append, runActions]
    cases step s a with
    | none => rfl
    | some next => exact ih next

/-- A run can be extended by one more possible step. -/
theorem runActions_snoc (step : S → A → Option S) (s t next : S) (acts : List A) (a : A)
    (hrun : runActions step s acts = some t) (hstep : step t a = some next) :
    runActions step s (acts ++ [a]) = some next := by
  rw [runActions_append, hrun]
  simp [runActions, hstep]

/-- If every step is possible and preserves what holds at the start, every run gets to its end. -/
theorem exists_run_of_step (step : S → A → Option S) (P : S → Prop)
    (hstep : ∀ s a, P s → ∃ next, step s a = some next ∧ P next) (s : S) (acts : List A) (hs : P s) :
    ∃ t, runActions step s acts = some t ∧ P t := by
  induction acts generalizing s with
  | nil => exact ⟨s, rfl, hs⟩
  | cons a rest ih =>
    obtain ⟨next, ha, hnext⟩ := hstep s a hs
    obtain ⟨t, hrun, ht⟩ := ih next hnext
    exact ⟨t, (runActions_cons_eq_some step s t a rest).mpr ⟨next, ha, hrun⟩, ht⟩

/-- If related states have steps to related states, or none, for every action, then so do runs: one system
simulates the other in both directions. -/
theorem runActions_rel {T : Type*} (step : S → A → Option S) (step' : T → A → Option T) (R : S → T → Prop)
    (hstep : ∀ s t a, R s t → Option.Rel R (step s a) (step' t a)) {s : S} {t : T} (acts : List A) (hR : R s t) :
    Option.Rel R (runActions step s acts) (runActions step' t acts) := by
  induction acts generalizing s t with
  | nil => exact .some hR
  | cons a rest ih =>
    have hrel := hstep s t a hR
    rw [runActions, runActions]
    cases hs : step s a <;> cases ht : step' t a <;> rw [hs, ht] at hrel <;> cases hrel
    · exact .none
    · next hnext => exact ih hnext

/-- A property that holds throughout a run holds where the run ends. -/
theorem throughout_final (step : S → A → Option S) (P : S → Prop) (s t : S) (acts : List A)
    (hall : Throughout step P s acts) (hrun : runActions step s acts = some t) : P t := by
  induction acts generalizing s with
  | nil =>
    rw [runActions_nil, Option.some.injEq] at hrun
    exact hrun ▸ hall
  | cons a rest ih =>
    obtain ⟨next, ha, hrest⟩ := (runActions_cons_eq_some step s t a rest).mp hrun
    exact ih next (hall.2 next ha) hrest

/-- If steps are possible wherever the property holds, and keep it when they meet the condition, a
run of steps that meet the condition gets to its end. -/
theorem isSome_of_conditional_run (step : S → A → Option S) (condition : S → A → Prop) (P : S → Prop)
    (hdefined : ∀ s a, P s → ∃ next, step s a = some next)
    (hstep : ∀ s a next, P s → condition s a → step s a = some next → P next)
    (s : S) (acts : List A) (hs : P s) (hall : EachStep step condition s acts) :
    (runActions step s acts).isSome := by
  induction acts generalizing s with
  | nil => rfl
  | cons a rest ih =>
    obtain ⟨next, ha⟩ := hdefined s a hs
    obtain ⟨hcond, hrest⟩ := hall next ha
    rw [runActions, ha, Option.bind_some]
    exact ih next (hstep s a next hs hcond ha) hrest

/-- What follows from an invariant that holds at the start, and that every step meeting the condition
preserves, holds throughout a run of such steps. -/
theorem throughout_of_eachStep (step : S → A → Option S) (condition : S → A → Prop) (I P : S → Prop)
    (hP : ∀ s, I s → P s)
    (hstep : ∀ s a next, I s → condition s a → step s a = some next → I next)
    (s : S) (acts : List A) (hs : I s) (hall : EachStep step condition s acts) :
    Throughout step P s acts := by
  induction acts generalizing s with
  | nil => exact hP s hs
  | cons a rest ih =>
    refine ⟨hP s hs, fun next ha => ?_⟩
    obtain ⟨hcond, hrest⟩ := hall next ha
    exact ih next (hstep s a next hs hcond ha) hrest

/-- A condition on the actions alone is met by every step if all actions of the run meet it. -/
theorem eachStep_of_forall (step : S → A → Option S) (condition : A → Prop) (s : S) (acts : List A)
    (h : ∀ a ∈ acts, condition a) : EachStep step (fun _ a => condition a) s acts := by
  induction acts generalizing s with
  | nil => trivial
  | cons a rest ih =>
    obtain ⟨ha, hrest⟩ := List.forall_mem_cons.mp h
    exact fun next _ => ⟨ha, ih next hrest⟩

/-- Conversely, in a run that gets to its end every action has been done. -/
theorem forall_of_eachStep (step : S → A → Option S) (condition : A → Prop) {s t : S} {acts : List A}
    (hall : EachStep step (fun _ a => condition a) s acts) (hrun : runActions step s acts = some t) :
    ∀ a ∈ acts, condition a := by
  induction acts generalizing s with
  | nil => exact fun _ h => absurd h List.not_mem_nil
  | cons a rest ih =>
    obtain ⟨next, ha, hrest⟩ := (runActions_cons_eq_some step s t a rest).mp hrun
    obtain ⟨hcond, hothers⟩ := hall next ha
    exact List.forall_mem_cons.mpr ⟨hcond, ih hothers hrest⟩

/-- Conditions that agree on the actions of a run agree on the run. -/
theorem eachStep_congr {step : S → A → Option S} {condition condition' : S → A → Prop} {s : S} {acts : List A}
    (h : ∀ s, ∀ a ∈ acts, condition s a ↔ condition' s a) :
    EachStep step condition s acts ↔ EachStep step condition' s acts := by
  induction acts generalizing s with
  | nil => exact Iff.rfl
  | cons a rest ih =>
    refine forall_congr' fun next => imp_congr_right fun _ => ?_
    exact and_congr (h s a List.mem_cons_self) (ih fun s b hb => h s b (List.mem_cons_of_mem a hb))

/-- What every step from a state of the invariant does, given that it keeps the invariant, every step of
a run does. -/
theorem eachStep_of_invariant (step : S → A → Option S) (condition : S → A → Prop) (I : S → Prop)
    (hstep : ∀ s a next, I s → step s a = some next → condition s a ∧ I next)
    (s : S) (acts : List A) (hs : I s) : EachStep step condition s acts := by
  induction acts generalizing s with
  | nil => trivial
  | cons a rest ih =>
    intro next ha
    obtain ⟨hcond, hnext⟩ := hstep s a next hs ha
    exact ⟨hcond, ih next hnext⟩

/-- What follows from an invariant that holds at the start, and that every step preserves, holds throughout
a run. -/
theorem throughout_of_invariant (step : S → A → Option S) (I P : S → Prop) (hP : ∀ s, I s → P s)
    (hstep : ∀ s a next, I s → step s a = some next → I next) (s : S) (acts : List A) (hs : I s) :
    Throughout step P s acts :=
  throughout_of_eachStep step (fun _ _ => True) I P hP (fun s a next hi _ ha => hstep s a next hi ha) s acts hs
    (eachStep_of_invariant step _ I (fun s a next hi ha => ⟨trivial, hstep s a next hi ha⟩) s acts hs)

/-- An invariant that every step preserves holds where a run ends. -/
theorem invariant_of_run (step : S → A → Option S) (I : S → Prop)
    (hstep : ∀ s a next, I s → step s a = some next → I next) {s t : S} {acts : List A} (hs : I s)
    (hrun : runActions step s acts = some t) : I t :=
  throughout_final step I s t acts (throughout_of_invariant step I I (fun _ hi => hi) hstep s acts hs) hrun

/-- What holds of the actions done so far and the state they have led to. -/
theorem history_of_run (step : S → A → Option S) (H : List A → S → Prop)
    (hstep : ∀ done s a next, H done s → step s a = some next → H (done ++ [a]) next) {s t : S} {acts : List A}
    (hs : H [] s) (hrun : runActions step s acts = some t) : H acts t := by
  have hall (done : List A) : ∀ u, H done u → ∀ acts, runActions step u acts = some t → H (done ++ acts) t := by
    intro u hu acts
    induction acts generalizing u done with
    | nil =>
      intro hrun
      rw [runActions_nil, Option.some.injEq] at hrun
      rwa [List.append_nil, ← hrun]
    | cons a rest ih =>
      intro hrun
      obtain ⟨next, ha, hrest⟩ := (runActions_cons_eq_some step u t a rest).mp hrun
      have hlast := ih (done ++ [a]) next (hstep done u a next hu ha) hrest
      rwa [List.append_assoc, List.singleton_append] at hlast
  exact hall [] s hs acts hrun

/-- If every state of the invariant is a goal, or has a step of a kind that may depend on the state to a state of the
invariant with a smaller measure, then steps of this kind lead to a goal. -/
theorem exists_eachStep_of_measure {M : Type*} [LT M] [WellFoundedLT M] (step : S → A → Option S) (kind : S → A → Prop)
    (I G : S → Prop) (μ : S → M)
    (hstep : ∀ s, I s → G s ∨ ∃ a next, kind s a ∧ step s a = some next ∧ I next ∧ μ next < μ s)
    {s : S} (hs : I s) : ∃ acts t, EachStep step kind s acts ∧ runActions step s acts = some t ∧ G t := by
  induction hμ : μ s using WellFoundedLT.induction generalizing s with
  | _ m ih =>
    rcases hstep s hs with hgoal | ⟨a, next, ha, hnext, hinv, hlt⟩
    · exact ⟨[], s, trivial, rfl, hgoal⟩
    · obtain ⟨acts, t, hkind, hrun, ht⟩ := ih (μ next) (hμ ▸ hlt) hinv rfl
      refine ⟨a :: acts, t, fun next' hnext' => ?_,
        (runActions_cons_eq_some step s t a acts).mpr ⟨next, hnext, hrun⟩, ht⟩
      rw [hnext] at hnext'
      cases hnext'
      exact ⟨ha, hkind⟩

/-- If the kind is one of actions, all actions that lead to the goal are of it. -/
theorem exists_run_of_measure {M : Type*} [LT M] [WellFoundedLT M] (step : S → A → Option S) (kind : A → Prop)
    (I G : S → Prop) (μ : S → M)
    (hstep : ∀ s, I s → G s ∨ ∃ a next, kind a ∧ step s a = some next ∧ I next ∧ μ next < μ s)
    {s : S} (hs : I s) : ∃ acts t, (∀ a ∈ acts, kind a) ∧ runActions step s acts = some t ∧ G t := by
  obtain ⟨acts, t, hkind, hrun, ht⟩ := exists_eachStep_of_measure step (fun _ a => kind a) I G μ hstep hs
  exact ⟨acts, t, forall_of_eachStep step kind hkind hrun, hrun, ht⟩

/-- If every step of a certain kind keeps the invariant and makes a number smaller, a run of such steps is no longer
than the number. -/
theorem length_add_le_of_measure (step : S → A → Option S) (kind : A → Prop) (I : S → Prop) (μ : S → ℕ)
    (hstep : ∀ s a next, I s → kind a → step s a = some next → I next ∧ μ next < μ s) {s t : S} {acts : List A}
    (hs : I s) (hkind : ∀ a ∈ acts, kind a) (hrun : runActions step s acts = some t) :
    I t ∧ acts.length + μ t ≤ μ s := by
  induction acts generalizing s with
  | nil =>
    rw [runActions_nil, Option.some.injEq] at hrun
    subst hrun
    exact ⟨hs, (Nat.zero_add _).le⟩
  | cons a rest ih =>
    obtain ⟨ha, hrest⟩ := List.forall_mem_cons.mp hkind
    obtain ⟨next, hnext, hrun⟩ := (runActions_cons_eq_some step s t a rest).mp hrun
    obtain ⟨hinv, hlt⟩ := hstep s a next hs ha hnext
    obtain ⟨ht, hle⟩ := ih hinv hrest hrun
    refine ⟨ht, ?_⟩
    rw [List.length_cons]
    omega

/-- In a run of allowed steps, a property that an allowed step keeps exactly when the condition holds before it,
holds throughout exactly when every step meets the condition. -/
theorem throughout_iff_of_allowed (step : S → A → Option S) (allowed condition : S → A → Prop)
    (I P : S → Prop)
    (hinv : ∀ s a next, I s → P s → condition s a → step s a = some next → I next)
    (hiff : ∀ s a next, I s → P s → allowed s a → step s a = some next → (P next ↔ condition s a))
    (s : S) (acts : List A) (hi : I s) (hp : P s) (hall : EachStep step allowed s acts) :
    Throughout step P s acts ↔ EachStep step condition s acts := by
  induction acts generalizing s with
  | nil => exact ⟨fun _ => trivial, fun _ => hp⟩
  | cons a rest ih =>
    constructor
    · rintro ⟨_, hrest⟩ next ha
      obtain ⟨hallowed, hothers⟩ := hall next ha
      have hnext : P next := by
        have := hrest next ha
        cases rest with
        | nil => exact this
        | cons b rest => exact this.1
      have hcond := (hiff s a next hi hp hallowed ha).mp hnext
      exact ⟨hcond, (ih next (hinv s a next hi hp hcond ha) hnext hothers).mp (hrest next ha)⟩
    · intro hmeets
      refine ⟨hp, fun next ha => ?_⟩
      obtain ⟨hallowed, hothers⟩ := hall next ha
      obtain ⟨hcond, hrest⟩ := hmeets next ha
      have hnext := (hiff s a next hi hp hallowed ha).mpr hcond
      exact (ih next (hinv s a next hi hp hcond ha) hnext hothers).mpr hrest

/-- A property that one step keeps exactly when the condition holds before it, holds throughout a
run exactly when every step of the run meets the condition. -/
theorem throughout_iff_eachStep (step : S → A → Option S) (condition : S → A → Prop)
    (I P : S → Prop)
    (hinv : ∀ s a next, I s → P s → condition s a → step s a = some next → I next)
    (hiff : ∀ s a next, I s → P s → step s a = some next → (P next ↔ condition s a))
    (s : S) (acts : List A) (hi : I s) (hp : P s) :
    Throughout step P s acts ↔ EachStep step condition s acts :=
  throughout_iff_of_allowed step (fun _ _ => True) condition I P hinv
    (fun s a next hi hp _ ha => hiff s a next hi hp ha) s acts hi hp
    (eachStep_of_invariant step _ (fun _ => True) (fun _ _ _ _ _ => ⟨trivial, trivial⟩) s acts trivial)

section Matching

variable {T B : Type*}

/-- If every step between related states is matched, every run from related states is. -/
theorem exists_matching_run (step : S → A → Option S) (step' : T → B → Option T) (Matches : A → B → Prop)
    (R : S → T → Prop)
    (hstep : ∀ s t a next, R s t → step s a = some next →
      ∃ b next', Matches a b ∧ step' t b = some next' ∧ R next next')
    {s last : S} {t : T} {acts : List A} (hR : R s t) (hrun : runActions step s acts = some last) :
    ∃ bs last', List.Forall₂ Matches acts bs ∧ runActions step' t bs = some last' ∧ R last last' := by
  induction acts generalizing s t with
  | nil =>
    cases hrun
    exact ⟨[], t, .nil, rfl, hR⟩
  | cons a rest ih =>
    obtain ⟨next, ha, hrest⟩ := (runActions_cons_eq_some step s last a rest).mp hrun
    obtain ⟨b, next', hmatch, hb, hnext⟩ := hstep s t a next hR ha
    obtain ⟨bs, last', hall, hrun', hlast⟩ := ih hnext hrest
    exact ⟨b :: bs, last', .cons hmatch hall, (runActions_cons_eq_some step' t last' b bs).mpr ⟨next', hb, hrun'⟩, hlast⟩

/-- A place in the matching list is a place in the list. -/
theorem forall₂_split {R : A → B → Prop} {as : List A} {before after : List B} {b : B}
    (h : List.Forall₂ R as (before ++ b :: after)) : ∃ before' a after', as = before' ++ a :: after' ∧
      List.Forall₂ R before' before ∧ R a b ∧ List.Forall₂ R after' after := by
  induction before generalizing as with
  | nil =>
    obtain ⟨a, after', hb, hafter, rfl⟩ := List.forall₂_cons_right_iff.mp h
    exact ⟨[], a, after', rfl, .nil, hb, hafter⟩
  | cons d before ih =>
    obtain ⟨c, rest, hd, hrest, rfl⟩ := List.forall₂_cons_right_iff.mp h
    obtain ⟨before', a, after', rfl, hbefore, hb, hafter⟩ := ih hrest
    exact ⟨c :: before', a, after', rfl, .cons hd hbefore, hb, hafter⟩

/-- Actions that are counted when what they match is, are as many. -/
theorem countP_of_forall₂ {R : A → B → Prop} {p : A → Bool} {q : B → Bool} (hpq : ∀ a b, R a b → p a = q b)
    {as : List A} {bs : List B} (h : List.Forall₂ R as bs) : as.countP p = bs.countP q := by
  induction h with
  | nil => rfl
  | cons hab _ ih => rw [List.countP_cons, List.countP_cons, ih, hpq _ _ hab]

/-- What no action of the matching list is, no action of the list is. -/
theorem forall_of_forall₂ {R : A → B → Prop} {P : A → Prop} {Q : B → Prop} (hPQ : ∀ a b, R a b → Q b → P a)
    {as : List A} {bs : List B} (h : List.Forall₂ R as bs) (hbs : ∀ b ∈ bs, Q b) : ∀ a ∈ as, P a := by
  induction h with
  | nil => exact fun _ ha => absurd ha List.not_mem_nil
  | cons hab _ ih =>
    obtain ⟨hb, hrest⟩ := List.forall_mem_cons.mp hbs
    exact List.forall_mem_cons.mpr ⟨hPQ _ _ hab hb, ih hrest⟩

end Matching

section Folds

variable {E : Type*} {f g : S → A → Except E S}

/-- A fold over a nonempty list gets to its end if the first step and the fold over the rest do. -/
theorem foldlM_cons_eq_ok (s t : S) (a : A) (rest : List A) :
    (a :: rest).foldlM f s = .ok t ↔ ∃ next, f s a = .ok next ∧ rest.foldlM f next = .ok t := by
  rw [List.foldlM_cons]
  cases f s a with
  | error e => simp [bind, Except.bind]
  | ok next => simp [bind, Except.bind]

/-- What holds of some elements and a state, and of one element more after each step, holds of all elements
and the last state. -/
theorem foldlM_induction_from {P : List A → S → Prop} {s t : S} {done rest : List A} (hs : P done s)
    (hstep : ∀ before a s next, P before s → f s a = .ok next → P (before ++ [a]) next)
    (h : rest.foldlM f s = .ok t) : P (done ++ rest) t := by
  induction rest generalizing s done with
  | nil =>
    cases h
    simpa using hs
  | cons a rest ih =>
    obtain ⟨next, ha, hrest⟩ := (foldlM_cons_eq_ok s t a rest).mp h
    simpa using ih (hstep done a s next hs ha) hrest

/-- What holds of nothing and the first state, and of one element more after each step, holds of the list
and the last state. -/
theorem foldlM_induction {P : List A → S → Prop} {s t : S} {as : List A} (hs : P [] s)
    (hstep : ∀ before a s next, P before s → f s a = .ok next → P (before ++ [a]) next)
    (h : as.foldlM f s = .ok t) : P as t :=
  foldlM_induction_from hs hstep h

/-- Whether a fold gets to its end does not depend on the state if this is so for every step. -/
theorem exists_foldlM_of_step (hstep : ∀ s s' a next, f s a = .ok next → ∃ next', g s' a = .ok next')
    {s t : S} (s' : S) {as : List A} (h : as.foldlM f s = .ok t) : ∃ t', as.foldlM g s' = .ok t' := by
  induction as generalizing s s' with
  | nil => exact ⟨s', rfl⟩
  | cons a rest ih =>
    obtain ⟨next, ha, hrest⟩ := (foldlM_cons_eq_ok s t a rest).mp h
    obtain ⟨next', ha'⟩ := hstep s s' a next ha
    obtain ⟨t', ht'⟩ := ih next' hrest
    exact ⟨t', (foldlM_cons_eq_ok s' t' a rest).mpr ⟨next', ha', ht'⟩⟩

end Folds

end TcpClb.Common
