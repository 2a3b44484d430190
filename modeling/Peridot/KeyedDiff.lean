import Peridot.KeyedList

/-!
# Differences of ordered lists

The difference of two ordered lists, as a merge: for every key at which the two
differ, what the first and what the second list hold there.
-/

namespace Peridot

open List Option

namespace KeyedList

variable {α K : Type*} [DecidableEq α] [LinearOrder K] (key : α → K)

/-- The differences between two ordered lists, in the order of their keys. -/
def diff : List α → List α → List (Option α × Option α)
  | [], others => others.map fun other => (none, some other)
  | item :: items, [] => (some item, none) :: items.map fun item => (some item, none)
  | item :: items, other :: others =>
    if key item < key other then (some item, none) :: diff items (other :: others)
    else if key other < key item then (none, some other) :: diff (item :: items) others
    else if item = other then diff items others
    else (some item, some other) :: diff items others
termination_by items others => items.length + others.length

def diffKey (difference : Option α × Option α) : Option K :=
  (difference.1.or difference.2).map key

variable {key}

@[simp]
theorem diff_nil_left (others : List α) :
    diff key [] others = others.map fun other => (none, some other) := by
  rw [diff]

@[simp]
theorem diff_nil_right (items : List α) :
    diff key items [] = items.map fun item => (some item, none) := by
  cases items with
  | nil => simp
  | cons item items => rw [diff, map_cons]

variable {item other : α} {items others others' common items' : List α}

/-- A first item below everything on the other side was removed. -/
theorem diff_cons_left (below : ∀ other ∈ others, key item < key other) :
    diff key (item :: items) others = (some item, none) :: diff key items others := by
  cases others with
  | nil => simp
  | cons other others => rw [diff, if_pos (below other (by simp))]

/-- A first item below everything on the other side was added. -/
theorem diff_cons_right (below : ∀ item ∈ items, key other < key item) :
    diff key items (other :: others) = (none, some other) :: diff key items others := by
  cases items with
  | nil => simp
  | cons item items =>
    have less := below item (by simp)
    rw [diff, if_neg (not_lt_of_gt less), if_pos less]

theorem diff_cons_same (item : α) (items others : List α) :
    diff key (item :: items) (item :: others) = diff key items others := by
  rw [diff, if_neg (lt_irrefl _), if_neg (lt_irrefl _), if_pos rfl]

theorem diff_cons_changed (sameKey : key item = key other)
    (different : item ≠ other) : diff key (item :: items) (other :: others) =
      (some item, some other) :: diff key items others := by
  rw [diff, if_neg sameKey.not_lt, if_neg sameKey.not_gt, if_neg different]

theorem diff_append_common (common items others : List α) :
    diff key (common ++ items) (common ++ others) = diff key items others := by
  induction common with
  | nil => rfl
  | cons item common ih => rw [cons_append, cons_append, diff_cons_same, ih]

section

variable (sorted : Sorted key (item :: (common ++ items)))
include sorted

/-- A removed item in front of a common part; an empty common part is the end. -/
theorem diff_cons_append_common (sortedOthers : Sorted key (common ++ others))
    (gap : common = [] → others = []) : diff key (item :: (common ++ items)) (common ++ others) =
      (some item, none) :: diff key items others := by
  obtain ⟨itemBelow, -⟩ := sorted_cons.mp sorted
  obtain ⟨-, -, across⟩ := sorted_append.mp sortedOthers
  rw [diff_cons_left, diff_append_common]
  intro other member
  rcases mem_append.mp member with inCommon | inOthers
  · exact itemBelow other (by simp [inCommon])
  · cases common with
    | nil => simp [gap rfl] at inOthers
    | cons first common =>
      exact (itemBelow first (by simp)).trans (across first (by simp) other inOthers)

/-- Two items in front of a common part, the smaller one on the other side. -/
theorem diff_cons_cons_append_common (sortedOthers : Sorted key (other :: (common ++ others)))
    (less : key other < key item) (gap : common = [] → others = []) :
    diff key (item :: (common ++ items)) (other :: (common ++ others)) =
      (none, some other) :: (some item, none) :: diff key items others := by
  rw [diff_cons_right, diff_cons_append_common sorted (sorted_cons.mp sortedOthers).2 gap]
  intro later member
  rcases mem_cons.mp member with rfl | inRest
  · exact less
  · exact less.trans ((sorted_cons.mp sorted).1 later inRest)

end

theorem diff_append (apart : ∀ item ∈ items, ∀ other ∈ others', key item < key other)
    (apart' : ∀ other ∈ others, ∀ item ∈ items', key other < key item) :
    diff key (items ++ items') (others ++ others') =
      diff key items others ++ diff key items' others' := by
  fun_induction diff key items others with
  | case1 others =>
    induction others with
    | nil => rfl
    | cons other others ih =>
      have rest := ih fun later member => apart' later (by simp [member])
      rw [nil_append] at rest
      rw [nil_append, cons_append, diff_cons_right (apart' other (by simp)), rest]
      rfl
  | case2 item items =>
    rw [← map_cons (f := fun item => (some item, none))]
    generalize item :: items = removed at apart
    induction removed with
    | nil => rfl
    | cons item items ih =>
      have rest := ih fun later member => apart later (by simp [member])
      rw [nil_append] at rest
      rw [nil_append, cons_append, diff_cons_left (apart item (by simp)), rest]
      rfl
  | case3 item items other others less ih =>
    have rest := ih (fun later member => apart later (by simp [member])) apart'
    rw [cons_append, cons_append, diff, if_pos less, ← cons_append, rest]
    rfl
  | case4 item items other others notLess less ih =>
    have rest := ih apart fun later member => apart' later (by simp [member])
    rw [cons_append, cons_append, diff, if_neg notLess, if_pos less, ← cons_append, rest]
    rfl
  | case5 items item others notLess notGreater ih =>
    rw [cons_append, cons_append, diff_cons_same]
    exact ih (fun later member => apart later (by simp [member]))
      fun later member => apart' later (by simp [member])
  | case6 item items other others notLess notGreater different ih =>
    have rest := ih (fun later member => apart later (by simp [member]))
      fun later member => apart' later (by simp [member])
    rw [cons_append, cons_append, diff, if_neg notLess, if_neg notGreater, if_neg different, rest]
    rfl

theorem diff_swap (items others : List α) :
    diff key others items = (diff key items others).map Prod.swap := by
  fun_induction diff key items others with
  | case1 others => simp [Function.comp_def]
  | case2 item items => simp [Function.comp_def]
  | case3 item items other others less ih =>
    rw [diff, if_neg (not_lt_of_gt less), if_pos less, ih, map_cons]
    rfl
  | case4 item items other others notLess less ih =>
    rw [diff, if_pos less, ih, map_cons]
    rfl
  | case5 items item others notLess notGreater ih => rw [diff_cons_same, ih]
  | case6 item items other others notLess notGreater different ih =>
    have sameKey : key other = key item := le_antisymm (not_lt.mp notLess) (not_lt.mp notGreater)
    rw [diff_cons_changed sameKey (Ne.symm different), ih, map_cons]
    rfl

def Differs (key : α → K) (items others : List α) (difference : Option α × Option α) : Prop :=
  difference.1 ≠ difference.2 ∧
    ∃ k, find key items k = difference.1 ∧ find key others k = difference.2

variable {difference : Option α × Option α}

omit [DecidableEq α] in
theorem differs_of_agree (k : K) (agree : ∀ l, l ≠ k → find key items l = find key items' l)
    (agreeOthers : ∀ l, l ≠ k → find key others l = find key others' l)
    (same : find key items' k = find key others' k) : Differs key items others difference ↔
      (difference = (find key items k, find key others k) ∧ find key items k ≠ find key others k) ∨
        Differs key items' others' difference := by
  constructor
  · rintro ⟨different, l, first, second⟩
    by_cases here : l = k
    · subst here
      exact .inl ⟨by rw [first, second], by rwa [first, second]⟩
    · exact .inr ⟨different, l, by rw [← agree l here, first],
        by rw [← agreeOthers l here, second]⟩
  · rintro (⟨rfl, different⟩ | ⟨different, l, first, second⟩)
    · exact ⟨different, k, rfl, rfl⟩
    · have elsewhere : l ≠ k := by
        rintro rfl
        exact different (first.symm.trans (same.trans second))
      exact ⟨different, l, by rw [agree l elsewhere, first],
        by rw [agreeOthers l elsewhere, second]⟩

omit [DecidableEq α] in
theorem find_cons_of_ne (l : K) (different : l ≠ key item) :
    find key (item :: items) l = find key items l := by
  rw [find_cons, if_neg (Ne.symm different)]

variable {k : K}

omit [DecidableEq α] in
theorem find_eq_none_of_below (below : ∀ item ∈ items, k < key item) : find key items k = none :=
  find_eq_none fun item member => (below item member).ne'

omit [DecidableEq α] in
theorem find_cons_self (item : α) (items : List α) :
    find key (item :: items) (key item) = some item := by
  rw [find_cons, if_pos rfl]

omit [DecidableEq α] in
theorem mem_map_added (sorted : Sorted key others) :
    difference ∈ others.map (fun other => (none, some other)) ↔
      Differs key [] others difference := by
  obtain ⟨first, second⟩ := difference
  simp only [List.mem_map, Prod.mk.injEq, Differs]
  constructor
  · rintro ⟨other, member, rfl, rfl⟩
    exact ⟨by simp, key other, rfl, find_of_mem sorted member⟩
  · rintro ⟨different, k, rfl, rfl⟩
    cases found : find key others k with
    | none => exact absurd found.symm different
    | some other => exact ⟨other, mem_of_find found, rfl, rfl⟩

omit [DecidableEq α] in
theorem mem_map_removed (sorted : Sorted key items) :
    difference ∈ items.map (fun item => (some item, none)) ↔ Differs key items [] difference := by
  obtain ⟨first, second⟩ := difference
  simp only [List.mem_map, Prod.mk.injEq, Differs]
  constructor
  · rintro ⟨item, member, rfl, rfl⟩
    exact ⟨by simp, key item, find_of_mem sorted member, rfl⟩
  · rintro ⟨different, k, rfl, rfl⟩
    cases found : find key items k with
    | none => exact absurd found different
    | some item => exact ⟨item, mem_of_find found, rfl, rfl⟩

variable (sorted : Sorted key items)
include sorted

variable (sortedOthers : Sorted key others)
include sortedOthers

theorem mem_diff : difference ∈ diff key items others ↔ Differs key items others difference := by
  fun_induction diff key items others with
  | case1 others => exact mem_map_added sortedOthers
  | case2 item items =>
    rw [← map_cons (f := fun item => (some item, none))]
    exact mem_map_removed sorted
  | case3 item items other others less ih =>
    obtain ⟨itemBelow, itemsSorted⟩ := sorted_cons.mp sorted
    have absent : find key (other :: others) (key item) = none := by
      refine find_eq_none_of_below fun later member => ?_
      rcases mem_cons.mp member with rfl | inOthers
      · exact less
      · exact less.trans ((sorted_cons.mp sortedOthers).1 later inOthers)
    rw [mem_cons, ih itemsSorted sortedOthers,
      differs_of_agree (key item) find_cons_of_ne (fun _ _ => rfl)
        ((find_eq_none_of_below itemBelow).trans absent.symm), find_cons_self, absent]
    simp
  | case4 item items other others notLess less ih =>
    obtain ⟨otherBelow, othersSorted⟩ := sorted_cons.mp sortedOthers
    have absent : find key (item :: items) (key other) = none := by
      refine find_eq_none_of_below fun later member => ?_
      rcases mem_cons.mp member with rfl | inItems
      · exact less
      · exact less.trans ((sorted_cons.mp sorted).1 later inItems)
    rw [mem_cons, ih sorted othersSorted,
      differs_of_agree (key other) (fun _ _ => rfl) find_cons_of_ne
        (absent.trans (find_eq_none_of_below otherBelow).symm), find_cons_self, absent]
    simp
  | case5 items item others notLess notGreater ih =>
    obtain ⟨itemBelow, itemsSorted⟩ := sorted_cons.mp sorted
    obtain ⟨otherBelow, othersSorted⟩ := sorted_cons.mp sortedOthers
    rw [ih itemsSorted othersSorted, differs_of_agree (key item) find_cons_of_ne
      find_cons_of_ne ((find_eq_none_of_below itemBelow).trans
        (find_eq_none_of_below otherBelow).symm), find_cons_self, find_cons_self]
    simp
  | case6 item items other others notLess notGreater different ih =>
    have sameKey : key item = key other := le_antisymm (not_lt.mp notGreater) (not_lt.mp notLess)
    obtain ⟨itemBelow, itemsSorted⟩ := sorted_cons.mp sorted
    obtain ⟨otherBelow, othersSorted⟩ := sorted_cons.mp sortedOthers
    rw [mem_cons, ih itemsSorted othersSorted,
      differs_of_agree (key item) find_cons_of_ne (sameKey ▸ find_cons_of_ne)
        ((find_eq_none_of_below itemBelow).trans
          (sameKey ▸ find_eq_none_of_below otherBelow).symm), find_cons_self, sameKey,
      find_cons_self]
    simp [different]

theorem diffKey_mem (member : difference ∈ diff key items others)
    (hasKey : diffKey key difference = some k) :
    (∃ item ∈ items, key item = k) ∨ ∃ other ∈ others, key other = k := by
  obtain ⟨different, l, first, second⟩ := (mem_diff sorted sortedOthers).mp member
  rw [diffKey, ← first, ← second] at hasKey
  cases found : find key items l with
  | some item =>
    simp only [found, some_or, map_some, some.injEq] at hasKey
    exact .inl ⟨item, mem_of_find found, hasKey⟩
  | none =>
    cases foundOther : find key others l with
    | some other =>
      simp only [found, foundOther, none_or, map_some, some.injEq]
        at hasKey
      exact .inr ⟨other, mem_of_find foundOther, hasKey⟩
    | none => simp [found, foundOther] at hasKey

theorem diff_sorted_cons (hasKey : diffKey key difference = some k)
    (below : ∀ item ∈ items, k < key item) (belowOthers : ∀ other ∈ others, k < key other)
    (rest : (diff key items others).Pairwise fun first second =>
      ∀ k ∈ diffKey key first, ∀ l ∈ diffKey key second, k < l) :
    (difference :: diff key items others).Pairwise fun first second =>
      ∀ k ∈ diffKey key first, ∀ l ∈ diffKey key second, k < l := by
  refine pairwise_cons.mpr ⟨fun later member l isKey m laterKey => ?_, rest⟩
  obtain rfl : k = l := some.inj (hasKey.symm.trans isKey)
  rcases diffKey_mem sorted sortedOthers member laterKey with ⟨item, inItems, rfl⟩ |
    ⟨other, inOthers, rfl⟩
  · exact below item inItems
  · exact belowOthers other inOthers

theorem diff_sorted : (diff key items others).Pairwise fun first second =>
      ∀ k ∈ diffKey key first, ∀ l ∈ diffKey key second, k < l := by
  fun_induction diff key items others with
  | case1 others =>
    refine pairwise_map.mpr (sortedOthers.imp fun less => ?_)
    simpa [diffKey] using less
  | case2 item items =>
    rw [← map_cons (f := fun item => (some item, none))]
    refine pairwise_map.mpr (sorted.imp fun less => ?_)
    simpa [diffKey] using less
  | case3 item items other others less ih =>
    obtain ⟨itemBelow, itemsSorted⟩ := sorted_cons.mp sorted
    refine diff_sorted_cons itemsSorted sortedOthers rfl itemBelow ?_ (ih itemsSorted sortedOthers)
    intro later member
    rcases mem_cons.mp member with rfl | inOthers
    · exact less
    · exact less.trans ((sorted_cons.mp sortedOthers).1 later inOthers)
  | case4 item items other others notLess less ih =>
    obtain ⟨otherBelow, othersSorted⟩ := sorted_cons.mp sortedOthers
    refine diff_sorted_cons sorted othersSorted rfl ?_ otherBelow (ih sorted othersSorted)
    intro later member
    rcases mem_cons.mp member with rfl | inItems
    · exact less
    · exact less.trans ((sorted_cons.mp sorted).1 later inItems)
  | case5 items item others notLess notGreater ih =>
    exact ih (sorted_cons.mp sorted).2 (sorted_cons.mp sortedOthers).2
  | case6 item items other others notLess notGreater different ih =>
    have sameKey : key item = key other := le_antisymm (not_lt.mp notGreater) (not_lt.mp notLess)
    obtain ⟨itemBelow, itemsSorted⟩ := sorted_cons.mp sorted
    obtain ⟨otherBelow, othersSorted⟩ := sorted_cons.mp sortedOthers
    exact diff_sorted_cons itemsSorted othersSorted rfl itemBelow (sameKey ▸ otherBelow)
      (ih itemsSorted othersSorted)

end KeyedList

end Peridot
