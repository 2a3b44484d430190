import Mathlib.Logic.Function.Basic
import Peridot.Coroutine

/-!
# Coroutines that run interleaved

Several coroutines share a state.  Each of them has some knowledge of it, which the others
do not invalidate.  A coroutine obeys a discipline when all its operations are permitted by
what it knows, whatever the replies are.
-/

namespace Peridot

open Function

/-- Which operations are permitted with some knowledge, and what their replies add to it. -/
structure Discipline (Op : Type) (Reply : Op → Type) (K : Type) where
  permits : K → Op → Prop
  learn : K → (op : Op) → Reply op → K

namespace Coroutine

variable {Op : Type} {Reply : Op → Type} {K ε α β : Type} {discipline : Discipline Op Reply K}
    {routine : Coroutine Op Reply α} {known : K}

/-- The coroutine obeys the discipline, and ends with a result and with knowledge as given. -/
def Obeys (discipline : Discipline Op Reply K) :
    Coroutine Op Reply α → K → (α → K → Prop) → Prop
  | done result, known, post => post result known
  | call op next, known, post => discipline.permits known op ∧
      ∀ reply, Obeys discipline (next reply) (discipline.learn known op reply) post

theorem Obeys.mono {post weaker : α → K → Prop} (obeys : routine.Obeys discipline known post)
    (implies : ∀ result final, post result final → weaker result final) :
    routine.Obeys discipline known weaker := by
  induction routine generalizing known with
  | done result => exact implies result known obeys
  | call op next ih => exact ⟨obeys.1, fun reply => ih reply (obeys.2 reply)⟩

theorem Obeys.bind {f : α → Coroutine Op Reply β}
    {post : β → K → Prop} (obeys : routine.Obeys discipline known fun result final =>
      (f result).Obeys discipline final post) : (routine >>= f).Obeys discipline known post := by
  induction routine generalizing known with
  | done result => exact obeys
  | call op next ih => exact ⟨obeys.1, fun reply => ih reply (obeys.2 reply)⟩

theorem Obeys.perform {op : Op} {post : Reply op → K → Prop}
    (permitted : discipline.permits known op)
    (afterwards : ∀ reply, post reply (discipline.learn known op reply)) :
    (Coroutine.perform op).Obeys discipline known post :=
  ⟨permitted, afterwards⟩

/-- A coroutine that can fail obeys the discipline, and ends as given when it succeeds and
when it fails. -/
def ObeysExcept (discipline : Discipline Op Reply K) (routine : ExceptT ε (Coroutine Op Reply) α)
    (known : K) (post : α → K → Prop) (failed : K → Prop) : Prop :=
  routine.run.Obeys discipline known fun result final =>
    match result with
    | .ok value => post value final
    | .error _ => failed final

namespace ObeysExcept

variable {known : K} {post weaker : α → K → Prop} {failed : K → Prop}

theorem pure {value : α} (holds : post value known) :
    ObeysExcept discipline (Pure.pure value : ExceptT ε (Coroutine Op Reply) α) known post failed :=
  holds

theorem throw {fault : ε} (holds : failed known) :
    ObeysExcept discipline (MonadExcept.throw fault : ExceptT ε (Coroutine Op Reply) α) known
      post failed :=
  holds

theorem lift (obeys : routine.Obeys discipline known post) :
    ObeysExcept discipline (ExceptT.lift routine : ExceptT ε (Coroutine Op Reply) α) known post
      failed := by
  rw [ObeysExcept, ExceptT.run_lift, ← bind_pure_comp]
  exact Obeys.bind obeys

theorem bind {routine : ExceptT ε (Coroutine Op Reply) α}
    {f : α → ExceptT ε (Coroutine Op Reply) β} {post : β → K → Prop}
    (obeys : ObeysExcept discipline routine known
      (fun value final => ObeysExcept discipline (f value) final post failed) failed) :
    ObeysExcept discipline (routine >>= f) known post failed := by
  rw [ObeysExcept, ExceptT.run_bind]
  refine Obeys.bind (obeys.mono fun result final holds => ?_)
  cases result with
  | ok value => exact holds
  | error fault => exact holds

theorem mono {routine : ExceptT ε (Coroutine Op Reply) α}
    (obeys : ObeysExcept discipline routine known post failed)
    (implies : ∀ value final, post value final → weaker value final) :
    ObeysExcept discipline routine known weaker failed := by
  refine Obeys.mono obeys fun result final holds => ?_
  cases result with
  | ok value => exact implies value final holds
  | error fault => exact holds

end ObeysExcept

end Coroutine

structure Task (Op : Type) (Reply : Op → Type) (G α : Type) where
  goal : G
  rest : Coroutine Op Reply α

structure Pool (S : Type) (Op : Type) (Reply : Op → Type) (G α : Type) where
  shared : S
  tasks : Nat → Option (Task Op Reply G α)

variable {S Op : Type} {Reply : Op → Type} {G K α : Type}

/-- What an operation of a task can do: the state before, its reply and the state after. -/
abbrev Action (S Op : Type) (Reply : Op → Type) :=
  Nat → (op : Op) → S → Reply op → S → Prop

inductive Pool.Advances (action : Action S Op Reply) :
    Pool S Op Reply G α → Pool S Op Reply G α → Prop where
  | call {pool : Pool S Op Reply G α} {id : Nat} {goal : G} {op : Op}
      {next : Reply op → Coroutine Op Reply α} {reply : Reply op} {shared : S}
      (isNext : pool.tasks id = some ⟨goal, .call op next⟩)
      (acts : action id op pool.shared reply shared) :
      Advances action pool
        ⟨shared, update pool.tasks id (some ⟨goal, next reply⟩)⟩

/-- Permitted operations keep the invariant of the state, what the task knows and what the
other tasks know. -/
structure Discipline.Respects (discipline : Discipline Op Reply K) (action : Action S Op Reply)
    (inv : S → Prop) (knows : S → Nat → K → Prop) : Prop where
  keeps : ∀ {id op before reply after known}, inv before → knows before id known →
    discipline.permits known op → action id op before reply after → inv after
  learns : ∀ {id op before reply after known}, inv before → knows before id known →
    discipline.permits known op → action id op before reply after →
      knows after id (discipline.learn known op reply)
  spares : ∀ {id op before reply after known other others}, inv before → knows before id known →
    discipline.permits known op → action id op before reply after → other ≠ id →
      knows before other others → knows after other others

structure Pool.Disciplined (discipline : Discipline Op Reply K) (inv : S → Prop)
    (knows : S → Nat → K → Prop) (post : G → α → K → Prop) (pool : Pool S Op Reply G α) :
    Prop where
  inv : inv pool.shared
  tasks : ∀ id task, pool.tasks id = some task →
    ∃ known, knows pool.shared id known ∧ task.rest.Obeys discipline known (post task.goal)

theorem update_eq_some {T : Type} {tasks : Nat → Option T} {id other : Nat} {value : Option T}
    {task : T} (isTask : update tasks id value other = some task) :
    other = id ∧ value = some task ∨ other ≠ id ∧ tasks other = some task := by
  by_cases same : other = id
  · subst same
    rw [update_self] at isTask
    exact .inl ⟨rfl, isTask⟩
  · rw [update_of_ne same] at isTask
    exact .inr ⟨same, isTask⟩

namespace Pool.Disciplined

variable {discipline : Discipline Op Reply K} {action : Action S Op Reply} {inv : S → Prop}
  {knows : S → Nat → K → Prop} {post : G → α → K → Prop} {pool next : Pool S Op Reply G α}
  (disciplined : pool.Disciplined discipline inv knows post)
include disciplined

theorem advances (respects : discipline.Respects action inv knows)
    (advances : Advances action pool next) : next.Disciplined discipline inv knows post := by
  cases advances with
  | @call id goal op following reply shared isNext acts =>
    obtain ⟨known, isKnown, permitted, obeys⟩ := disciplined.tasks id _ isNext
    refine ⟨respects.keeps disciplined.inv isKnown permitted acts, fun other task isTask => ?_⟩
    rcases update_eq_some isTask with ⟨rfl, ⟨⟩⟩ | ⟨different, isTask⟩
    · exact ⟨_, respects.learns disciplined.inv isKnown permitted acts, obeys reply⟩
    · obtain ⟨others, isOthers, otherObeys⟩ := disciplined.tasks other task isTask
      exact ⟨others, respects.spares disciplined.inv isKnown permitted acts different isOthers,
        otherObeys⟩

theorem start {id : Nat}
    {task : Task Op Reply G α} {known : K} (isKnown : knows pool.shared id known)
    (obeys : task.rest.Obeys discipline known (post task.goal)) :
    Disciplined discipline inv knows post
      ⟨pool.shared, update pool.tasks id (some task)⟩ := by
  refine ⟨disciplined.inv, fun other started isTask => ?_⟩
  rcases update_eq_some isTask with ⟨rfl, ⟨⟩⟩ | ⟨-, isTask⟩
  · exact ⟨known, isKnown, obeys⟩
  · exact disciplined.tasks other started isTask

theorem finish (id : Nat) : Disciplined discipline inv knows post
    ⟨pool.shared, update pool.tasks id none⟩ := by
  refine ⟨disciplined.inv, fun other task isTask => ?_⟩
  rcases update_eq_some isTask with ⟨-, ⟨⟩⟩ | ⟨-, isTask⟩
  exact disciplined.tasks other task isTask

theorem environment {shared : S} (keeps : inv shared)
    (spares : ∀ id known, knows pool.shared id known → knows shared id known) :
    Disciplined discipline inv knows post ⟨shared, pool.tasks⟩ := by
  refine ⟨keeps, fun id task isTask => ?_⟩
  obtain ⟨known, isKnown, obeys⟩ := disciplined.tasks id task isTask
  exact ⟨known, spares id known isKnown, obeys⟩

end Pool.Disciplined

end Peridot
