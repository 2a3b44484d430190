import Mathlib.Data.List.Basic
import Mathlib.Order.Lattice

/-!
# Runs of a partial step function

A system whose steps are chosen by its environment: `step` gives the next state, unless the
action cannot happen.
-/

namespace Peridot

open List

variable {σ α : Type}

def runSteps (step : σ → α → Option σ) : σ → List α → Option σ
  | state, [] => some state
  | state, action :: actions => (step state action).bind fun next => runSteps step next actions

/-- Every action meets the condition in the state in which it is done. -/
def EachStep (step : σ → α → Option σ) (condition : σ → α → Prop) : σ → List α → Prop
  | _, [] => True
  | state, action :: actions => condition state action ∧
      ∀ next, step state action = some next → EachStep step condition next actions

variable {step : σ → α → Option σ} {condition : σ → α → Prop} {state final : σ} {actions : List α}
  {action : α}

theorem runSteps_cons : runSteps step state (action :: actions) = some final ↔
    ∃ next, step state action = some next ∧ runSteps step next actions = some final := by
  simp only [runSteps, Option.bind_eq_some_iff]

theorem runSteps_append {first second : List α} :
    runSteps step state (first ++ second) = some final ↔
      ∃ next, runSteps step state first = some next ∧ runSteps step next second = some final := by
  induction first generalizing state with
  | nil => simp [runSteps]
  | cons action first ih =>
    simp only [cons_append, runSteps_cons, ih]
    constructor
    · rintro ⟨next, isStep, middle, isFirst, isSecond⟩
      exact ⟨middle, ⟨next, isStep, isFirst⟩, isSecond⟩
    · rintro ⟨middle, ⟨next, isStep, isFirst⟩, isSecond⟩
      exact ⟨next, isStep, middle, isFirst, isSecond⟩

section

variable (Inv : σ → Prop)

theorem invariant_runSteps
    (kept : ∀ {state next : σ} {action : α}, Inv state → condition state action →
      step state action = some next → Inv next) (holds : Inv state)
    (allowed : EachStep step condition state actions)
    (isRun : runSteps step state actions = some final) : Inv final := by
  induction actions generalizing state with
  | nil =>
    cases isRun
    exact holds
  | cons action actions ih =>
    obtain ⟨next, isStep, isRun⟩ := runSteps_cons.mp isRun
    exact ih (kept holds allowed.1 isStep) (allowed.2 next isStep) isRun

/-- Where every allowed step can be taken and keeps an invariant, every run can whose steps are
allowed. -/
theorem exists_runSteps (progress : ∀ {state : σ} {action : α}, Inv state → condition state action →
      ∃ next, step state action = some next ∧ Inv next) (holds : Inv state)
    (allowed : EachStep step condition state actions) :
    ∃ final, runSteps step state actions = some final ∧ Inv final := by
  induction actions generalizing state with
  | nil => exact ⟨state, rfl, holds⟩
  | cons action actions ih =>
    obtain ⟨next, isStep, nextHolds⟩ := progress holds allowed.1
    obtain ⟨final, isRun, finalHolds⟩ := ih nextHolds (allowed.2 next isStep)
    exact ⟨final, runSteps_cons.mpr ⟨next, isStep, isRun⟩, finalHolds⟩

theorem length_le_of_decreases (cost : σ → ℕ)
    (kept : ∀ {state next : σ} {action : α}, Inv state → step state action = some next → Inv next)
    (decreases : ∀ {state next : σ} {action : α}, Inv state → step state action = some next →
      cost next < cost state) (holds : Inv state)
    (isRun : runSteps step state actions = some final) : actions.length ≤ cost state := by
  induction actions generalizing state with
  | nil => exact Nat.zero_le _
  | cons action actions ih =>
    obtain ⟨next, isStep, isRun⟩ := runSteps_cons.mp isRun
    have isRest := ih (kept holds isStep) isRun
    have isLess := decreases holds isStep
    rw [length_cons]
    omega

end

theorem eachStep_of_forall {property : α → Prop}
    (forAll : ∀ action ∈ actions, property action) (state : σ) :
    EachStep step (fun _ action => property action) state actions := by
  induction actions generalizing state with
  | nil => trivial
  | cons action actions ih =>
    refine ⟨forAll action (by simp), fun next _ => ih (fun other inActions => ?_) next⟩
    exact forAll other (mem_cons_of_mem action inActions)

theorem eachStep_true (actions : List α) (state : σ) :
    EachStep step (fun _ _ => True) state actions :=
  eachStep_of_forall (fun _ _ => trivial) state

theorem eachStep_append {state : σ} {first second : List α} :
    EachStep step condition state (first ++ second) ↔
      EachStep step condition state first ∧ ∀ next, runSteps step state first = some next →
        EachStep step condition next second := by
  induction first generalizing state with
  | nil => simp [EachStep, runSteps]
  | cons action first ih =>
    simp only [cons_append, EachStep, ih, runSteps_cons]
    constructor
    · rintro ⟨isAllowed, others⟩
      refine ⟨⟨isAllowed, fun next isStep => (others next isStep).1⟩, ?_⟩
      rintro final ⟨next, isStep, isRun⟩
      exact (others next isStep).2 final isRun
    · rintro ⟨⟨isAllowed, isFirst⟩, isSecond⟩
      refine ⟨isAllowed, fun next isStep => ⟨isFirst next isStep, fun final isRun => ?_⟩⟩
      exact isSecond final ⟨next, isStep, isRun⟩

theorem eachStep_cons : EachStep step condition state (action :: actions) ↔
    condition state action ∧ ∀ next ∈ step state action, EachStep step condition next actions :=
  Iff.rfl

/-- Whether each step of a run meets a condition can be computed. -/
instance decidableEachStep [∀ state action, Decidable (condition state action)] :
    ∀ (actions : List α) (state : σ), Decidable (EachStep step condition state actions)
  | [], _ => .isTrue trivial
  | action :: actions, state =>
    have := decidableEachStep actions
    decidable_of_iff (condition state action ∧ ∀ next ∈ step state action,
      EachStep step condition next actions) eachStep_cons.symm

theorem EachStep.and {other : σ → α → Prop} (allowed : EachStep step condition state actions)
    (otherAllowed : EachStep step other state actions) :
    EachStep step (fun state action => condition state action ∧ other state action) state
      actions := by
  induction actions generalizing state with
  | nil => trivial
  | cons action actions ih => exact ⟨⟨allowed.1, otherAllowed.1⟩,
      fun next isStep => ih (allowed.2 next isStep) (otherAllowed.2 next isStep)⟩

section

variable (Inv : σ → Prop) (kept : ∀ {state next : σ} {action : α}, Inv state →
  condition state action → step state action = some next → Inv next)
include kept

/-- Two conditions hold for each step of the same runs, where an invariant that the second one keeps
makes them equal. -/
theorem eachStep_iff {first : σ → α → Prop}
    (same : ∀ {state next : σ} {action : α}, Inv state → step state action = some next →
      (first state action ↔ condition state action)) (holds : Inv state)
    (isRun : runSteps step state actions = some final) :
    EachStep step first state actions ↔ EachStep step condition state actions := by
  induction actions generalizing state with
  | nil => exact iff_of_true trivial trivial
  | cons action actions ih =>
    obtain ⟨next, isStep, isRest⟩ := runSteps_cons.mp isRun
    rw [eachStep_cons, eachStep_cons, same holds isStep]
    apply and_congr_right
    intro isAllowed
    apply forall₂_congr
    intro other isOther
    obtain rfl := Option.some.inj (isOther.symm.trans isStep)
    exact ih (kept holds isAllowed isStep) isRest

/-- Where an invariant is kept by exactly the allowed steps, what it implies holds in every state of
exactly the runs whose steps are allowed. -/
theorem eachStep_next_iff (good : σ → Prop) (isGood : ∀ {state}, Inv state → good state)
    (needed : ∀ {state next : σ} {action : α}, Inv state → step state action = some next →
      good next → condition state action) (holds : Inv state)
    (isRun : runSteps step state actions = some final) :
    EachStep step (fun before action => ∀ next ∈ step before action, good next) state actions ↔
      EachStep step condition state actions := by
  apply eachStep_iff Inv kept _ holds isRun
  intro state next action holds isStep
  constructor
  · intro goodNext
    exact needed holds isStep (goodNext next isStep)
  · intro isAllowed other isOther
    exact isGood (kept holds isAllowed isOther)

/-- Where an invariant is kept by exactly the allowed steps, and what is broken stays so, the last
state is good in exactly the runs whose steps are allowed. -/
theorem final_iff_eachStep (broken good : σ → Prop) (isGood : ∀ {state}, Inv state → good state)
    (notGood : ∀ {state}, broken state → ¬good state)
    (breaks : ∀ {state next : σ} {action : α}, Inv state → ¬condition state action →
      step state action = some next → broken next)
    (stays : ∀ {state next : σ} {action : α}, broken state → step state action = some next →
      broken next) (holds : Inv state) (isRun : runSteps step state actions = some final) :
    good final ↔ EachStep step condition state actions := by
  induction actions generalizing state with
  | nil =>
    cases isRun
    exact iff_of_true (isGood holds) trivial
  | cons action actions ih =>
    obtain ⟨next, isStep, isRest⟩ := runSteps_cons.mp isRun
    have same : ∀ other ∈ step state action, other = next := fun other isOther =>
      Option.some.inj (isOther.symm.trans isStep)
    by_cases isAllowed : condition state action
    · rw [ih (kept holds isAllowed isStep) isRest, eachStep_cons, and_iff_right isAllowed]
      exact ⟨fun others other isOther => same other isOther ▸ others, fun others =>
        others next isStep⟩
    · have isBroken : broken final :=
        invariant_runSteps broken (fun isBroken _ => stays isBroken) (breaks holds isAllowed isStep)
          (eachStep_true actions next) isRest
      exact iff_of_false (notGood isBroken) fun allowed => isAllowed allowed.1

end

end Peridot
