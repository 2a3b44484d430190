import Mathlib.Data.List.Basic
import Mathlib.Order.Lattice

/-!
# Lists of calls

Calls are kept in the order in which they are made and known by their places in it.
-/

namespace Peridot

open List

variable {α : Type} {calls : List α} {call : α} {index : ℕ}

theorem getElem?_concat_eq_some {last : α} : (calls ++ [last])[index]? = some call ↔
    calls[index]? = some call ∨ index = calls.length ∧ call = last := by
  rcases lt_trichotomy index calls.length with isLess | rfl | isGreater
  · rw [List.getElem?_append_left isLess]
    simp only [isLess.ne, false_and, or_false]
  · simp [eq_comm]
  · have isNone : calls[index]? = none := List.getElem?_eq_none isGreater.le
    rw [List.getElem?_eq_none (by simp only [length_append, length_singleton]; omega)]
    simp [isNone, isGreater.ne']

theorem forall_mem_concat {property : α → Prop} {last : α} :
    (∀ call ∈ calls ++ [last], property call) ↔
      (∀ call ∈ calls, property call) ∧ property last := by
  rw [forall_mem_append, forall_mem_singleton]

theorem getElem?_set_eq_some {new : α} {place : ℕ} : (calls.set place new)[index]? = some call ↔
    index = place ∧ place < calls.length ∧ call = new ∨
      index ≠ place ∧ calls[index]? = some call := by
  rw [List.getElem?_set]
  by_cases same : place = index
  · subst same
    by_cases inCalls : place < calls.length
    · simp [inCalls, eq_comm]
    · simp [inCalls]
  · simp [same, Ne.symm same, eq_comm]

theorem getElem?_modify_eq_some {change : α → α} {place : ℕ} :
    (calls.modify place change)[index]? = some call ↔
      (∃ before, index = place ∧ calls[index]? = some before ∧ call = change before) ∨
        index ≠ place ∧ calls[index]? = some call := by
  rw [List.getElem?_modify]
  by_cases same : place = index
  · subst same
    cases calls[place]? with
    | none => simp
    | some before => simp [eq_comm]
  · simp [same, Ne.symm same]

theorem lt_of_getElem?_eq_some (isCall : calls[index]? = some call) : index < calls.length :=
  (List.getElem?_eq_some_iff.mp isCall).1

end Peridot
