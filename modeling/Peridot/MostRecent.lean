import Mathlib.Data.List.Basic

/-!
# The most recent elements of a history

A history has its last element at the front.  Its distinct elements, by their last occurrence, are
the order of a list whose elements move to the front when they are used.
-/

namespace Peridot

open List

variable {α : Type} [DecidableEq α] {element : α} {size : ℕ} {elements : List α}

def mostRecent : List α → List α
  | [] => []
  | element :: history => element :: (mostRecent history).erase element

theorem take_front_of_mem (isMember : element ∈ elements.take size) :
    (element :: elements.erase element).take size =
      element :: (elements.take size).erase element := by
  have fewer := length_erase_of_mem isMember
  have isPositive := length_pos_of_mem isMember
  have isSplit : elements.erase element =
      (elements.take size).erase element ++ elements.drop size := by
    rw [← erase_append_left _ isMember, take_append_drop]
  have inSize := length_take_le size elements
  rw [isSplit, ← cons_append]
  by_cases isShort : elements.length ≤ size
  · rw [drop_of_length_le isShort, append_nil, take_of_length_le]
    simp only [length_cons]
    omega
  · rw [take_left']
    rw [length_cons, fewer, length_take]
    omega

theorem take_front_of_not_mem (notMember : element ∉ elements.take size) :
    (element :: elements.erase element).take size = (element :: elements.take size).take size := by
  cases size with
  | zero => rfl
  | succ size =>
    have isSplit : elements.erase element =
        elements.take (size + 1) ++ (elements.drop (size + 1)).erase element := by
      rw [← erase_append_right _ notMember, take_append_drop]
    rw [take_succ_cons, take_succ_cons, isSplit]
    by_cases isShort : elements.length ≤ size
    · rw [drop_of_length_le (by omega)]
      simp
    · rw [take_append_of_le_length]
      rw [length_take]
      omega

/-- What is not among the first elements any more was the last one of them. -/
theorem getLast?_of_dropped {history : List α} {other : α}
    (wasRecent : other ∈ (mostRecent history).take size)
    (isDropped : other ∉ (mostRecent (element :: history)).take size) :
    ((mostRecent history).take size).getLast? = some other := by
  rw [mostRecent] at isDropped
  by_cases isMember : element ∈ (mostRecent history).take size
  · rw [take_front_of_mem isMember, mem_cons, not_or] at isDropped
    exact absurd ((mem_erase_of_ne isDropped.1).mpr wasRecent) isDropped.2
  · rw [take_front_of_not_mem isMember] at isDropped
    have inSize := length_take_le size (mostRecent history)
    generalize (mostRecent history).take size = recent at wasRecent isDropped inSize
    cases isLast : recent.getLast? with
    | none =>
      rw [getLast?_eq_none_iff] at isLast
      simp [isLast] at wasRecent
    | some last =>
      have isSplit := dropLast_append_getLast? last isLast
      have isLength := congrArg length isSplit
      simp only [length_append, length_singleton] at isLength
      rw [← isSplit, mem_append, mem_singleton] at wasRecent
      rcases wasRecent with isBefore | rfl
      · refine absurd ?_ isDropped
        obtain ⟨fewer, rfl⟩ : ∃ fewer, size = fewer + 1 := ⟨size - 1, by omega⟩
        rw [take_succ_cons, ← isSplit, take_append]
        apply mem_cons_of_mem
        apply mem_append_left
        rwa [take_of_length_le (by omega)]
      · rfl

end Peridot
