import Mathlib.Control.Lawful

/-!
# Coroutines

A coroutine calls operations of its environment and goes on with their replies.
Between two calls other coroutines may run.  A handler says what an operation does
to a state; with it a coroutine runs on its own, from its start to its end.
-/

namespace Peridot

inductive Coroutine (Op : Type) (Reply : Op → Type) (α : Type) where
  | done (result : α)
  | call (op : Op) (next : Reply op → Coroutine Op Reply α)

namespace Coroutine

variable {Op : Type} {Reply : Op → Type} {S ε α β γ : Type}

def bind : Coroutine Op Reply α → (α → Coroutine Op Reply β) → Coroutine Op Reply β
  | done result, f => f result
  | call op next, f => call op fun reply => bind (next reply) f

instance : Monad (Coroutine Op Reply) where
  pure := done
  bind := bind

def perform (op : Op) : Coroutine Op Reply (Reply op) :=
  call op done

@[simp]
theorem bind_done (routine : Coroutine Op Reply α) : routine.bind done = routine := by
  induction routine with
  | done result => rfl
  | call op next ih => exact congrArg (call op) (funext ih)

theorem bind_assoc (routine : Coroutine Op Reply α) (f : α → Coroutine Op Reply β)
    (g : β → Coroutine Op Reply γ) :
    (routine.bind f).bind g = routine.bind fun result => (f result).bind g := by
  induction routine with
  | done result => rfl
  | call op next ih => exact congrArg (call op) (funext ih)

instance : LawfulMonad (Coroutine Op Reply) :=
  LawfulMonad.mk' (Coroutine Op Reply) bind_done (fun _ _ => rfl) bind_assoc

abbrev Handler (Op : Type) (Reply : Op → Type) (S : Type) :=
  (op : Op) → S → Reply op × S

def run (handle : Handler Op Reply S) : Coroutine Op Reply α → S → α × S
  | done result, state => (result, state)
  | call op next, state => run handle (next (handle op state).1) (handle op state).2

variable {handle : Handler Op Reply S}

@[simp]
theorem run_pure (result : α) (state : S) :
    run handle (pure result : Coroutine Op Reply α) state = (result, state) :=
  rfl

@[simp]
theorem run_perform (op : Op) (state : S) : run handle (perform op) state = handle op state :=
  rfl

@[simp]
theorem run_bind (routine : Coroutine Op Reply α) (f : α → Coroutine Op Reply β) (state : S) :
    run handle (routine >>= f) state =
      run handle (f (run handle routine state).1) (run handle routine state).2 := by
  induction routine generalizing state with
  | done result => rfl
  | call op next ih => exact ih _ _

def outcome (handle : Handler Op Reply S) (routine : ExceptT ε (Coroutine Op Reply) α)
    (state : S) : Except ε α × S :=
  run handle routine.run state

@[simp]
theorem outcome_pure (result : α) (state : S) :
    outcome handle (pure result : ExceptT ε (Coroutine Op Reply) α) state = (.ok result, state) :=
  rfl

@[simp]
theorem outcome_throw (fault : ε) (state : S) :
    outcome handle (throw fault : ExceptT ε (Coroutine Op Reply) α) state = (.error fault, state) :=
  rfl

@[simp]
theorem outcome_lift (routine : Coroutine Op Reply α) (state : S) :
    outcome handle (ExceptT.lift routine : ExceptT ε (Coroutine Op Reply) α) state =
      (.ok (run handle routine state).1, (run handle routine state).2) := by
  rw [outcome, ExceptT.run_lift, ← bind_pure_comp, run_bind]
  rfl

theorem outcome_bind (routine : ExceptT ε (Coroutine Op Reply) α)
    (f : α → ExceptT ε (Coroutine Op Reply) β) (state : S) : outcome handle (routine >>= f) state =
      match outcome handle routine state with
      | (.ok result, next) => outcome handle (f result) next
      | (.error fault, next) => (.error fault, next) := by
  rw [outcome, ExceptT.run_bind, run_bind, outcome]
  rcases run handle routine.run state with ⟨result | fault, next⟩ <;> rfl

variable {routine : ExceptT ε (Coroutine Op Reply) α} {f : α → ExceptT ε (Coroutine Op Reply) β}
    {state : S}

theorem outcome_bind_ok {next : S} {result : α}
    (routineOk : outcome handle routine state = (.ok result, next)) :
    outcome handle (routine >>= f) state = outcome handle (f result) next := by
  rw [outcome_bind, routineOk]

theorem outcome_bind_error {next : S} {fault : ε}
    (failed : outcome handle routine state = (.error fault, next)) :
    outcome handle (routine >>= f) state = (.error fault, next) := by
  rw [outcome_bind, failed]

theorem outcome_bind_eq_ok {final : S} {result : β} :
    outcome handle (routine >>= f) state = (.ok result, final) ↔
      ∃ middle next, outcome handle routine state = (.ok middle, next) ∧
        outcome handle (f middle) next = (.ok result, final) := by
  rw [outcome_bind]
  rcases outcome handle routine state with ⟨fault | middle, next⟩
  · simp
  · constructor
    · exact fun second => ⟨middle, next, rfl, second⟩
    · rintro ⟨_, _, ⟨⟩, second⟩
      exact second

/-- All operations that a coroutine can call meet a condition. -/
inductive Only (allowed : Op → Prop) : Coroutine Op Reply α → Prop where
  | done (result : α) : Only allowed (done result)
  | call {op : Op} {next : Reply op → Coroutine Op Reply α} (isAllowed : allowed op)
      (rest : ∀ reply, Only allowed (next reply)) : Only allowed (call op next)

namespace Only

variable {allowed : Op → Prop}

theorem perform {op : Op} (isAllowed : allowed op) :
    Only allowed (perform op : Coroutine Op Reply (Reply op)) :=
  .call isAllowed fun reply => .done reply

variable {routine : Coroutine Op Reply α}

theorem bind {f : α → Coroutine Op Reply β} (first : Only allowed routine)
    (second : ∀ result, Only allowed (f result)) : Only allowed (routine >>= f) := by
  induction first with
  | done result => exact second result
  | call isAllowed _ ih => exact .call isAllowed ih

theorem bindExcept {routine : ExceptT ε (Coroutine Op Reply) α} (first : Only allowed routine.run)
    (second : ∀ result, Only allowed (f result).run) : Only allowed (routine >>= f).run := by
  rw [ExceptT.run_bind]
  refine first.bind fun result => ?_
  cases result with
  | ok result => exact second result
  | error fault => exact .done _

theorem lift (only : Only allowed routine) :
    Only allowed (ExceptT.lift routine : ExceptT ε (Coroutine Op Reply) α).run := by
  rw [ExceptT.run_lift, ← bind_pure_comp]
  exact only.bind fun result => .done _

theorem run_keeps (only : Only allowed routine) (keeps : S → S → Prop)
    (refl : ∀ state, keeps state state)
    (trans : ∀ {first second third}, keeps first second → keeps second third → keeps first third)
    (step : ∀ op, allowed op → ∀ state, keeps state (handle op state).2) (state : S) :
    keeps state (run handle routine state).2 := by
  induction only generalizing state with
  | done result => exact refl state
  | call isAllowed _ ih => exact trans (step _ isAllowed state) (ih _ _)

end Only

end Coroutine

end Peridot
