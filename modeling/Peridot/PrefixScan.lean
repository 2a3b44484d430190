import Peridot.BTreeDiff
import Peridot.GreedyPages
import Peridot.PageChanges

/-!
# Scans under a prefix

The storage reports items in the order of their keys from a start on, to a callback that ends the
scan at the first key without the prefix, or at an item that does not fit on its page.
-/

namespace Peridot

open KeyedList List OrderedStore

def under {α : Type} (key : α → Key) (prefixKey minKey : Key) (items : List α) : List α :=
  items.filter fun item => minKey ≤ key item ∧ matchesPrefix (key item) prefixKey

variable {σ α : Type} {fits : List α → α → Bool} {matching : α → Bool}
  {onNext : σ → α → σ × Bool} {onPage : List α → σ} {full : List α → α → σ}

def filled (onPage : List α → σ) (full : List α → α → σ) : List α × List α → σ
  | (page, []) => onPage page
  | (page, item :: _) => full page item

theorem runUntil_fill
    (ends : ∀ page item, matching item = false → onNext (onPage page) item = (onPage page, false))
    (adds : ∀ page item, matching item = true → fits page item = true →
      onNext (onPage page) item = (onPage (page ++ [item]), true))
    (stops : ∀ page item, matching item = true → fits page item = false →
      onNext (onPage page) item = (full page item, false)) (page items : List α) :
    (runUntil onNext (onPage page) items).1 =
      filled onPage full (GreedyPages.fill fits page (items.takeWhile matching)) := by
  induction items generalizing page with
  | nil => rfl
  | cons item items ih =>
    rw [runUntil]
    cases isMatch : matching item with
    | false => simp [ends page item isMatch, isMatch, GreedyPages.fill, filled]
    | true =>
      rw [takeWhile_cons, if_pos isMatch, GreedyPages.fill]
      cases itFits : fits page item with
      | false => simp [stops page item isMatch itFits, filled]
      | true => simpa [adds page item isMatch itFits] using ih (page ++ [item])

theorem takeWhile_startingAt {key : α → Key} {prefixKey start : Key} {items : List α}
    (sorted : Sorted key items) (atLeast : prefixKey ≤ start) :
    (startingAt key start items).takeWhile
        (fun item => matchesPrefix (key item) prefixKey) = startingAt key start
        (items.filter fun item => matchesPrefix (key item) prefixKey) := by
  have sortedRest : Sorted key (startingAt key start items) := sorted_filter sorted _
  rw [takeWhile_eq_filter]
  · rw [startingAt, startingAt, filter_filter, filter_filter]
    exact filter_congr fun item _ => Bool.and_comm _ _
  · refine sortedRest.imp_of_mem ?_
    intro first second isFirst _ less starts
    rw [matchesPrefix_iff] at starts ⊢
    refine isPrefix_of_not_lt (fun smaller => ?_) less starts
    exact absurd (atLeast.trans (mem_startingAt.mp isFirst).2) (not_le.mpr smaller)

section Under

variable {α : Type} {key : α → Key} {prefixKey minKey : Key} {items : List α}

theorem max_eq_right_of_matchesPrefix {first : Key}
    (starts : matchesPrefix first prefixKey = true) : max prefixKey first = first :=
  max_eq_right (not_lt.mp (not_lt_of_isPrefix (matchesPrefix_iff.mp starts)))

theorem startingAt_max_filter : startingAt key (max prefixKey minKey)
      (items.filter fun item => matchesPrefix (key item) prefixKey) =
    under key prefixKey minKey items := by
  rw [startingAt, under, filter_filter]
  refine filter_congr fun item _ => ?_
  by_cases starts : matchesPrefix (key item) prefixKey = true
  · have notBelow := not_lt_of_isPrefix (matchesPrefix_iff.mp starts)
    simp [starts, not_lt.mp notBelow]
  · simp [starts]

theorem under_max : under key prefixKey (max prefixKey minKey) items =
    under key prefixKey minKey items := by
  rw [← startingAt_max_filter, max_eq_right (le_max_left prefixKey minKey), startingAt_max_filter]

variable (prefixKey minKey) in
theorem sorted_under (sorted : Sorted key items) : Sorted key (under key prefixKey minKey items) :=
  sorted_filter sorted _

theorem under_subset : under key prefixKey minKey items ⊆ items :=
  filter_subset_self _

/-- A key that is left out behind another one is not empty. -/
theorem key_ne_nil_of_left {page rest : List α} {item : α}
    (sorted : Sorted key (page ++ item :: rest)) (notEmpty : page ≠ []) : key item ≠ [] := by
  obtain ⟨first, page, rfl⟩ := exists_cons_of_ne_nil notEmpty
  have less := (sorted_cons.mp sorted).1 item (by simp)
  intro isNil
  rw [isNil] at less
  exact absurd less (not_lt_nil _)

end Under

end Peridot
