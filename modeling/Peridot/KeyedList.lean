import Mathlib.Data.List.Basic
import Mathlib.Logic.Function.Basic
import Mathlib.Order.Defs.LinearOrder
import Mathlib.Order.Lattice
import Mathlib.Tactic.Tauto

/-!
# Lists ordered by a key

A finite map stored as a list of items whose keys strictly increase.  This file
relates the list view (cutting at a key, replacing at a key) to the map view
(what is found at each key), for an arbitrary linearly ordered key type.
-/

namespace Peridot

open List

namespace KeyedList

variable {α K : Type*} [LinearOrder K] (key : α → K)

/-- The keys are in strict order, so no key occurs twice. -/
def Sorted (items : List α) : Prop :=
  items.Pairwise fun first second => key first < key second
deriving Decidable

def find (items : List α) (k : K) : Option α :=
  items.find? fun item => decide (key item = k)

/-- The items whose key lies strictly below `k`. -/
def below (k : K) (items : List α) : List α :=
  items.filter fun item => decide (key item < k)

/-- The items whose key lies strictly above `k`. -/
def above (k : K) (items : List α) : List α :=
  items.filter fun item => decide (k < key item)

/-- Replace whatever is stored at `k` by `middle`. -/
def replaceAt (k : K) (middle : List α) (items : List α) : List α :=
  below key k items ++ middle ++ above key k items

variable {key}

@[simp]
theorem sorted_nil : Sorted key ([] : List α) :=
  List.Pairwise.nil

variable {item : α} {items : List α}

@[simp]
theorem sorted_cons : Sorted key (item :: items) ↔
    (∀ other ∈ items, key item < key other) ∧ Sorted key items :=
  pairwise_cons

variable {first second : List α}

theorem sorted_append : Sorted key (first ++ second) ↔ Sorted key first ∧ Sorted key second ∧
    ∀ a ∈ first, ∀ b ∈ second, key a < key b :=
  pairwise_append

theorem Sorted.filter (sorted : Sorted key items) (keep : α → Bool) :
    Sorted key (items.filter keep) :=
  List.Pairwise.filter keep sorted

variable {k : K} {middle : List α}

@[simp]
theorem mem_below : item ∈ below key k items ↔ item ∈ items ∧ key item < k := by simp [below]

@[simp]
theorem mem_above : item ∈ above key k items ↔ item ∈ items ∧ k < key item := by simp [above]

@[simp]
theorem below_nil (k : K) : below key k ([] : List α) = [] :=
  rfl

@[simp]
theorem above_nil (k : K) : above key k ([] : List α) = [] :=
  rfl

theorem below_append (k : K) (first second : List α) :
    below key k (first ++ second) = below key k first ++ below key k second :=
  filter_append ..

theorem above_append (k : K) (first second : List α) :
    above key k (first ++ second) = above key k first ++ above key k second :=
  filter_append ..

theorem below_cons (k : K) (item : α) (items : List α) : below key k (item :: items) =
    if key item < k then item :: below key k items else below key k items := by
  simp [below, filter_cons]

theorem above_cons (k : K) (item : α) (items : List α) : above key k (item :: items) =
    if k < key item then item :: above key k items else above key k items := by
  simp [above, filter_cons]

theorem below_eq_self (allBelow : ∀ item ∈ items, key item < k) : below key k items = items := by
  simpa [below, filter_eq_self] using allBelow

theorem above_eq_self (allAbove : ∀ item ∈ items, k < key item) : above key k items = items := by
  simpa [above, filter_eq_self] using allAbove

theorem below_eq_nil (noneBelow : ∀ item ∈ items, k ≤ key item) : below key k items = [] := by
  simpa [below, filter_eq_nil_iff] using noneBelow

theorem above_eq_nil (noneAbove : ∀ item ∈ items, key item ≤ k) : above key k items = [] := by
  simpa [above, filter_eq_nil_iff] using noneAbove

theorem sorted_replaceAt (sorted : Sorted key items)
    (sortedMiddle : Sorted key middle) (atKey : ∀ item ∈ middle, key item = k) :
    Sorted key (replaceAt key k middle items) := by
  refine sorted_append.mpr ⟨sorted_append.mpr ⟨sorted.filter _, sortedMiddle, ?_⟩,
    sorted.filter _, ?_⟩
  · intro a aMem b bMem
    rw [atKey b bMem]
    exact (mem_below.mp aMem).2
  · intro a aMem b bMem
    have bAbove := (mem_above.mp bMem).2
    rcases mem_append.mp aMem with aBelow | aMiddle
    · exact (mem_below.mp aBelow).2.trans bAbove
    · rw [atKey a aMiddle]
      exact bAbove

theorem replaceAt_append_cons_of_below (allBelow : ∀ item ∈ first, key item < k)
    (isBelow : key item < k) : replaceAt key k middle (first ++ item :: items) =
      first ++ item :: replaceAt key k middle items := by
  simp [replaceAt, below_append, above_append, below_cons, above_cons, below_eq_self allBelow,
      above_eq_nil fun other member => (allBelow other member).le, isBelow, not_lt_of_gt isBelow]

theorem replaceAt_append_of_above (allAbove : ∀ item ∈ second, k < key item) :
    replaceAt key k middle (first ++ second) = replaceAt key k middle first ++ second := by
  simp [replaceAt, below_append, above_append, above_eq_self allAbove, below_eq_nil fun other
      member => (allAbove other member).le]

theorem replaceAt_append_cons_self (allBelow : ∀ item ∈ first, key item < k)
    (same : key item = k) (allAbove : ∀ item ∈ items, k < key item) :
    replaceAt key k middle (first ++ item :: items) = first ++ (middle ++ items) := by
  simp [replaceAt, below_append, above_append, below_cons, above_cons, same, below_eq_self
      allBelow, above_eq_nil fun other member => (allBelow other member).le, above_eq_self
      allAbove, below_eq_nil fun other member => (allAbove other member).le]

theorem mem_replaceAt :
    item ∈ replaceAt key k middle items ↔ item ∈ middle ∨ item ∈ items ∧ key item ≠ k := by
  simp only [replaceAt, mem_append, mem_below, mem_above, ne_iff_lt_or_gt]
  tauto

theorem find_append (first second : List α) (k : K) :
    find key (first ++ second) k = (find key first k).or (find key second k) := by
  simp [find, find?_append]

theorem find_cons (item : α) (items : List α) (k : K) :
    find key (item :: items) k = if key item = k then some item else find key items k := by
  by_cases here : key item = k <;> simp [find, here]

theorem find_eq_none (absent : ∀ item ∈ items, key item ≠ k) : find key items k = none := by
  simpa [find, find?_eq_none] using absent

theorem find_eq_none_iff : find key items k = none ↔ ∀ item ∈ items, key item ≠ k := by
  simp [find, find?_eq_none]

theorem key_of_find (found : find key items k = some item) : key item = k := by
  simpa using find?_some found

theorem mem_of_find (found : find key items k = some item) : item ∈ items :=
  mem_of_find?_eq_some found

theorem find_filter_of_ne {keep : α → Bool}
    (kept : ∀ item ∈ items, key item = k → keep item = true) :
    find key (items.filter keep) k = find key items k := by
  induction items with
  | nil => rfl
  | cons item items ih =>
    have tail := ih fun other member => kept other (by simp [member])
    by_cases here : key item = k
    · simp [find, kept item (by simp) here, here]
    · by_cases keepItem : keep item = true
      · simpa [find, filter_cons, keepItem, here] using tail
      · simpa [find, filter_cons, keepItem, here] using tail

theorem find_replaceAt (atKey : ∀ item ∈ middle, key item = k) (other : K) :
    find key (replaceAt key k middle items) other =
      if other = k then find key middle k else find key items other := by
  simp only [replaceAt, find_append]
  split
  · rename_i same
    subst same
    have noneBelow : find key (below key other items) other = none :=
      find_eq_none fun item member => (mem_below.mp member).2.ne
    have noneAbove : find key (above key other items) other = none :=
      find_eq_none fun item member => (mem_above.mp member).2.ne'
    simp [noneBelow, noneAbove]
  · rename_i different
    have noneMiddle : find key middle other = none :=
      find_eq_none fun item member sameKey => different (sameKey ▸ atKey item member)
    rw [noneMiddle, Option.or_none]
    rcases lt_or_gt_of_ne different with smaller | larger
    · have inBelow : find key (below key k items) other = find key items other :=
        find_filter_of_ne fun item _ sameKey => by simp [sameKey, smaller]
      have notAbove : find key (above key k items) other = none :=
        find_eq_none fun item member sameKey => lt_asymm smaller (sameKey ▸ (mem_above.mp member).2)
      rw [inBelow, notAbove, Option.or_none]
    · have inAbove : find key (above key k items) other = find key items other :=
        find_filter_of_ne fun item _ sameKey => by simp [sameKey, larger]
      have notBelow : find key (below key k items) other = none :=
        find_eq_none fun item member sameKey => lt_asymm larger (sameKey ▸ (mem_below.mp member).2)
      rw [inAbove, notBelow, Option.none_or]

theorem find_of_mem (sorted : Sorted key items) (member : item ∈ items) :
    find key items (key item) = some item := by
  induction items with
  | nil => simp at member
  | cons head items ih =>
    obtain ⟨headBelow, tailSorted⟩ := sorted_cons.mp sorted
    rcases mem_cons.mp member with same | inTail
    · simp [find, same]
    · have different : key head ≠ key item := (headBelow item inTail).ne
      simpa [find, different] using ih tailSorted inTail

theorem mem_iff_find (sorted : Sorted key items) :
    item ∈ items ↔ find key items (key item) = some item :=
  ⟨find_of_mem sorted, mem_of_find⟩

theorem eq_of_mem_iff (sortedFirst : Sorted key first) (sortedSecond : Sorted key second)
    (same : ∀ item, item ∈ first ↔ item ∈ second) : first = second := by
  have nodup : ∀ {items : List α}, Sorted key items → items.Nodup :=
    fun sorted => sorted.imp fun less same => less.ne (congrArg key same)
  refine List.Perm.eq_of_pairwise (fun a b _ _ less greater => (lt_asymm less greater).elim)
    sortedFirst sortedSecond ?_
  exact (perm_ext_iff_of_nodup (nodup sortedFirst) (nodup sortedSecond)).mpr same

theorem eq_of_find_eq (sortedFirst : Sorted key first) (sortedSecond : Sorted key second)
    (same : ∀ k, find key first k = find key second k) : first = second := by
  refine eq_of_mem_iff sortedFirst sortedSecond fun item => ?_
  rw [mem_iff_find sortedFirst, mem_iff_find sortedSecond, same]

theorem replaceAt_nil_of_absent (sorted : Sorted key items)
    (absent : ∀ item ∈ items, key item ≠ k) : replaceAt key k [] items = items := by
  have noneMiddle : ∀ item ∈ ([] : List α), key item = k := by simp
  refine eq_of_find_eq (sorted_replaceAt sorted sorted_nil noneMiddle) sorted fun other => ?_
  rw [find_replaceAt noneMiddle]
  split
  · rename_i same
    rw [same, find_eq_none absent]
    rfl
  · rfl

variable (key) in
/-- The items whose key is not below `k`. -/
def startingAt (k : K) (items : List α) : List α :=
  items.filter fun item => decide (k ≤ key item)

variable (key) in
/-- The item with the greatest key below `k`. -/
def IsPredecessor (items : List α) (k : K) (item : α) : Prop :=
  item ∈ items ∧ key item < k ∧ ∀ other ∈ items, key other < k → key other ≤ key item

@[simp]
theorem mem_startingAt : item ∈ startingAt key k items ↔ item ∈ items ∧ k ≤ key item := by
  simp [startingAt]

theorem sorted_filter (sorted : Sorted key items) (keep : α → Bool) :
    Sorted key (items.filter keep) :=
  List.Pairwise.sublist filter_sublist sorted

theorem eq_startingAt {passed rest : List α} (split : items = passed ++ rest)
    (smaller : ∀ item ∈ passed, key item < k) (notSmaller : ∀ item ∈ rest, k ≤ key item) :
    rest = startingAt key k items := by
  have dropped : passed.filter (fun item => decide (k ≤ key item)) = [] := by
    simpa [filter_eq_nil_iff] using smaller
  have kept : rest.filter (fun item => decide (k ≤ key item)) = rest := by
    simpa [filter_eq_self] using notSmaller
  rw [startingAt, split, filter_append, dropped, kept, nil_append]

theorem below_append_startingAt (sorted : Sorted key items) :
    below key k items ++ startingAt key k items = items := by
  induction items with
  | nil => rfl
  | cons item items ih =>
    obtain ⟨itemBelow, itemsSorted⟩ := sorted_cons.mp sorted
    by_cases less : key item < k
    · rw [below_cons, if_pos less, startingAt, filter_cons,
        if_neg (by simpa using less), cons_append]
      exact congrArg (item :: ·) (ih itemsSorted)
    · have notLess := not_lt.mp less
      rw [below_eq_nil, nil_append, startingAt, filter_eq_self]
      · intro other member
        rcases mem_cons.mp member with rfl | later
        · simpa using notLess
        · simpa using notLess.trans (itemBelow other later).le
      · intro other member
        rcases mem_cons.mp member with rfl | later
        · exact notLess
        · exact notLess.trans (itemBelow other later).le

theorem above_head (sorted : Sorted key (item :: items)) :
    above key (key item) (item :: items) = items := by
  rw [above_cons, if_neg (lt_irrefl _), above_eq_self (sorted_cons.mp sorted).1]

theorem head_le (sorted : Sorted key (item :: items)) :
    ∀ other ∈ item :: items, key item ≤ key other := by
  intro other member
  rcases mem_cons.mp member with rfl | later
  · exact le_rfl
  · exact ((sorted_cons.mp sorted).1 other later).le

theorem startingAt_eq_self (notSmaller : ∀ item ∈ items, k ≤ key item) :
    startingAt key k items = items := by
  simpa [startingAt, filter_eq_self] using notSmaller

theorem startingAt_above {l : K} (less : k < l) (items : List α) :
    startingAt key l (above key k items) = startingAt key l items := by
  rw [startingAt, above, filter_filter]
  refine filter_congr fun item _ => ?_
  by_cases reached : l ≤ key item
  · simp [reached, less.trans_le reached]
  · simp [reached]

variable (sorted : Sorted key items)
include sorted

theorem find_eq_head_startingAt (k : K) : find key items k =
    (startingAt key k items).head?.filter fun item => decide (key item = k) := by
  have noneBelow : find key (below key k items) k = none :=
    find_eq_none fun item isBelow => (mem_below.mp isBelow).2.ne
  have sortedFrom : Sorted key (startingAt key k items) := sorted_filter sorted _
  conv_lhs => rw [← below_append_startingAt (k := k) sorted]
  rw [find_append, noneBelow, Option.none_or]
  cases isFrom : startingAt key k items with
  | nil => rfl
  | cons first rest =>
    rw [isFrom] at sortedFrom
    have notSmaller : k ≤ key first := (mem_startingAt.mp (isFrom ▸ mem_cons_self ..)).2
    rw [find_cons, head?_cons, Option.filter_some]
    by_cases here : key first = k
    · simp [here]
    · simp only [here, if_false, decide_false, Bool.false_eq_true]
      apply find_eq_none
      intro item isLater
      exact (notSmaller.trans_lt ((sorted_cons.mp sortedFrom).1 item isLater)).ne'

theorem key_le_getLast {final : α} (member : item ∈ items)
    (isFinal : final ∈ items.getLast?) : key item ≤ key final := by
  obtain ⟨front, rfl⟩ := getLast?_eq_some_iff.mp isFinal
  rcases mem_append.mp member with inFront | isLast
  · exact ((sorted_append.mp sorted).2.2 item inFront final (by simp)).le
  · rw [mem_singleton.mp isLast]

theorem exists_predecessor (member : item ∈ items) (less : key item < k) :
    ∃ last, IsPredecessor key items k last := by
  have inBelow : item ∈ below key k items := mem_below.mpr ⟨member, less⟩
  obtain ⟨last, isLast⟩ : ∃ last, last ∈ (below key k items).getLast? :=
    Option.isSome_iff_exists.mp (by simpa using ne_nil_of_mem inBelow)
  obtain ⟨lastMem, lastLess⟩ := mem_below.mp (mem_of_getLast? isLast)
  refine ⟨last, lastMem, lastLess, fun other inItems otherLess => ?_⟩
  exact key_le_getLast (sorted_filter sorted _) (mem_below.mpr ⟨inItems, otherLess⟩) isLast

end KeyedList

theorem mapM_eq_filterMap {α β : Type} {f : α → Option β} {list : List α}
    (all : ∀ item ∈ list, (f item).isSome) : list.mapM f = some (list.filterMap f) := by
  induction list with
  | nil => rfl
  | cons item list ih =>
    obtain ⟨image, isImage⟩ := Option.isSome_iff_exists.mp (all item (.head _))
    rw [mapM_cons, isImage, ih fun other member => all other (.tail _ member),
      filterMap_cons_some isImage]
    rfl

end Peridot
