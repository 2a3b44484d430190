import Mathlib.Data.List.Forall2
import Mathlib.Order.Lattice

/-!
# A stack of levels

Items are collected in levels.  A level that reaches a limit is merged into one item of the
level above, and a level can also be flushed before it is full.  The operations log the
groups of items that they merge, in order.
-/

namespace Peridot

open List

namespace LevelStack

variable {α : Type} (limit : Nat) (merge : List α → α)

/-- An item is added to a level.  A full level is merged into one item of the next one. -/
def add : List (List α) → Nat → α → List (List α) × List (List α)
  | [], 0, item => ([[item]], [])
  | level :: levels, 0, item =>
    if level.length + 1 < limit then ((level ++ [item]) :: levels, [])
    else
      ([] :: (add levels 0 (merge (level ++ [item]))).1,
        (level ++ [item]) :: (add levels 0 (merge (level ++ [item]))).2)
  | [], index + 1, item => ([] :: (add [] index item).1, (add [] index item).2)
  | level :: levels, index + 1, item =>
    (level :: (add levels index item).1, (add levels index item).2)

/-- The items of a level are moved up: a single one as it is, others merged. -/
def flush (levels : List (List α)) (index : Nat) : List (List α) × List (List α) :=
  let objects := levels.getD index []
  let cleared := levels.set index []
  match objects with
  | [item] => add limit merge cleared (index + 1) item
  | _ =>
    ((add limit merge cleared (index + 1) (merge objects)).1,
      objects :: (add limit merge cleared (index + 1) (merge objects)).2)

def flushAll (levels : List (List α)) : Nat → List (List α) × List (List α)
  | 0 => (levels, [])
  | count + 1 =>
    ((flush limit merge (flushAll levels count).1 count).1,
      (flushAll levels count).2 ++ (flush limit merge (flushAll levels count).1 count).2)

/-- All levels are flushed, from `index` on, until a single item is left at the top. -/
def collapse (levels : List (List α)) (index : Nat) : Nat → Option α × List (List α)
  | 0 => (none, [])
  | fuel + 1 =>
    if index < levels.length then
      if levels.getD index [] = [] then collapse levels (index + 1) fuel
      else if index = levels.length - 1 ∧ (levels.getD index []).length = 1 then
        ((levels.getD index []).head?, [])
      else
        ((collapse (flush limit merge levels index).1 (index + 1) fuel).1,
          (flush limit merge levels index).2 ++
            (collapse (flush limit merge levels index).1 (index + 1) fuel).2)
    else (none, [])

variable {limit : Nat} {merge : List α → α}

theorem add_cons_succ (level : List α) (levels : List (List α)) (index : Nat) (item : α) :
    add limit merge (level :: levels) (index + 1) item =
      (level :: (add limit merge levels index item).1, (add limit merge levels index item).2) := by
  simp only [add]

def raise (limit : Nat) (merge : List α → α) (levels : List (List α)) (objects : List α) :
    List (List α) × List (List α) :=
  match objects with
  | [item] => add limit merge levels 0 item
  | _ =>
    ((add limit merge levels 0 (merge objects)).1,
      objects :: (add limit merge levels 0 (merge objects)).2)

theorem raise_singleton (levels : List (List α)) (item : α) :
    raise limit merge levels [item] = add limit merge levels 0 item := by
  simp only [raise]

variable {objects : List α}

theorem raise_of_length_ne_one (levels : List (List α)) (several : objects.length ≠ 1) :
    raise limit merge levels objects = ((add limit merge levels 0 (merge objects)).1,
        objects :: (add limit merge levels 0 (merge objects)).2) := by
  rcases objects with _ | ⟨first, _ | ⟨second, objects⟩⟩
  · simp only [raise]
  · exact absurd rfl several
  · simp only [raise]

section

variable (level : List α) (levels : List (List α))

theorem flush_cons_zero : flush limit merge (level :: levels) 0 =
      ([] :: (raise limit merge levels level).1, (raise limit merge levels level).2) := by
  rcases level with _ | ⟨first, _ | ⟨second, level⟩⟩
  all_goals simp [flush, raise, add_cons_succ]

theorem flush_cons_succ (index : Nat) : flush limit merge (level :: levels) (index + 1) =
      (level :: (flush limit merge levels index).1, (flush limit merge levels index).2) := by
  simp only [flush, getD_cons_succ, set_cons_succ]
  rcases levels.getD index [] with _ | ⟨first, _ | ⟨second, objects⟩⟩
  all_goals simp only [add_cons_succ]

theorem flushAll_cons (count : Nat) : flushAll limit merge (level :: levels) (count + 1) =
      ([] :: (flushAll limit merge (raise limit merge levels level).1 count).1,
        (raise limit merge levels level).2 ++
          (flushAll limit merge (raise limit merge levels level).1 count).2) := by
  induction count with
  | zero => simp [flushAll, flush_cons_zero]
  | succ count ih =>
    rw [flushAll, ih]
    simp [flush_cons_succ, flushAll]

theorem collapse_cons (index fuel : Nat) : collapse limit merge (level :: levels) (index + 1) fuel =
      collapse limit merge levels index fuel := by
  induction fuel generalizing level levels index with
  | zero => simp only [collapse]
  | succ fuel ih =>
    by_cases inside : index < levels.length
    · simp only [collapse, length_cons, Nat.add_lt_add_iff_right, inside, if_true,
        getD_cons_succ, flush_cons_succ, ih, Nat.add_sub_cancel]
      have sameTop : index + 1 = levels.length ↔ index = levels.length - 1 := by omega
      simp only [sameTop]
    · simp [collapse, inside]

end

theorem collapse_nil_cons (levels : List (List α)) (fuel : Nat) :
    collapse limit merge ([] :: levels) 0 (fuel + 1) = collapse limit merge levels 0 fuel := by
  rw [collapse, if_pos (by simp), if_pos (by simp), collapse_cons]

theorem collapse_single (item : α) (fuel : Nat) :
    collapse limit merge [[item]] 0 (fuel + 1) = (some item, []) := by
  simp [collapse]

variable {level : List α}

theorem collapse_raise (levels : List (List α)) (nonempty : level ≠ [])
    (notTop : ¬(levels = [] ∧ level.length = 1)) (fuel : Nat) :
    collapse limit merge (level :: levels) 0 (fuel + 1) =
      ((collapse limit merge (raise limit merge levels level).1 0 fuel).1,
        (raise limit merge levels level).2 ++
          (collapse limit merge (raise limit merge levels level).1 0 fuel).2) := by
  have notLast : ¬(0 = (level :: levels).length - 1 ∧ level.length = 1) := by
    rintro ⟨atTop, single⟩
    exact notTop ⟨eq_nil_of_length_eq_zero (by simpa using atTop.symm), single⟩
  rw [collapse, if_pos (by simp), if_neg (by simpa using nonempty), if_neg (by simpa using notLast),
    flush_cons_zero, collapse_cons]

def WellStacked (limit : Nat) (levels : List (List α)) : Prop :=
  (∀ level ∈ levels, level.length < limit) ∧ levels.getLast? ≠ some []

theorem WellStacked.nil : WellStacked limit ([] : List (List α)) := by simp [WellStacked]

variable {levels : List (List α)}

theorem WellStacked.tail (stacked : WellStacked limit (level :: levels)) :
    WellStacked limit levels := by
  refine ⟨fun other inLevels => stacked.1 other (mem_cons_of_mem level inLevels), ?_⟩
  cases levels with
  | nil => simp
  | cons next levels => simpa only [getLast?_cons_cons] using stacked.2

theorem WellStacked.cons (stacked : WellStacked limit levels) (room : level.length < limit)
    (top : levels = [] → level ≠ []) : WellStacked limit (level :: levels) := by
  refine ⟨?_, ?_⟩
  · intro other inLevels
    rcases mem_cons.mp inLevels with rfl | inLevels
    · exact room
    · exact stacked.1 other inLevels
  · cases levels with
    | nil => simpa using top rfl
    | cons next levels => simpa only [getLast?_cons_cons] using stacked.2

theorem wellStacked_add (two : 1 < limit) (stacked : WellStacked limit levels) (item : α) :
    WellStacked limit (add limit merge levels 0 item).1 ∧
      (add limit merge levels 0 item).1 ≠ [] := by
  induction levels generalizing item with
  | nil =>
    have single : WellStacked limit [[item]] := WellStacked.nil.cons (by simpa using two) (by simp)
    simp only [add]
    exact ⟨single, by simp⟩
  | cons level levels ih =>
    by_cases room : level.length + 1 < limit
    · simp only [add, if_pos room]
      exact ⟨stacked.tail.cons (by simpa using room) (by simp), by simp⟩
    · simp only [add, if_neg room]
      obtain ⟨above, nonempty⟩ := ih stacked.tail (merge (level ++ [item]))
      exact ⟨above.cons (Nat.zero_lt_of_lt two) (fun isNil => absurd isNil nonempty), by simp⟩

theorem wellStacked_raise (merge : List α → α) (two : 1 < limit)
    (stacked : WellStacked limit levels) (objects : List α) :
    WellStacked limit (raise limit merge levels objects).1 ∧
      (raise limit merge levels objects).1 ≠ [] := by
  by_cases single : objects.length = 1
  · obtain ⟨item, rfl⟩ := length_eq_one_iff.mp single
    rw [raise_singleton]
    exact wellStacked_add two stacked item
  · rw [raise_of_length_ne_one levels single]
    exact wellStacked_add two stacked (merge objects)

theorem wellStacked_flushAll (two : 1 < limit) (stacked : WellStacked limit levels)
    (nonempty : levels ≠ []) (count : Nat) :
    WellStacked limit (flushAll limit merge levels count).1 ∧
      (flushAll limit merge levels count).1 ≠ [] := by
  induction count generalizing levels with
  | zero => exact ⟨stacked, nonempty⟩
  | succ count ih =>
    obtain ⟨level, levels, rfl⟩ := exists_cons_of_ne_nil nonempty
    rw [flushAll_cons]
    obtain ⟨raised, above⟩ := wellStacked_raise merge two stacked.tail level
    obtain ⟨flushed, left⟩ := ih raised above
    exact ⟨flushed.cons (Nat.zero_lt_of_lt two) (fun isNil => absurd isNil left), by simp⟩

variable {item : α} {group : List α}

theorem length_of_mem_add (stacked : WellStacked limit levels)
    (merged : group ∈ (add limit merge levels 0 item).2) : group.length = limit := by
  induction levels generalizing item with
  | nil => simp [add] at merged
  | cons level levels ih =>
    by_cases room : level.length + 1 < limit
    · simp [add, room] at merged
    · simp only [add, if_neg room, mem_cons] at merged
      rcases merged with rfl | merged
      · have notFull := stacked.1 level (by simp)
        simp only [length_append, length_singleton]
        omega
      · exact ih stacked.tail merged

def number (limit : Nat) : List (List α) → Nat
  | [] => 0
  | level :: levels => level.length + limit * number limit levels

theorem number_add (stacked : WellStacked limit levels) (item : α) :
    number limit (add limit merge levels 0 item).1 = number limit levels + 1 := by
  induction levels generalizing item with
  | nil => simp [add, number]
  | cons level levels ih =>
    by_cases room : level.length + 1 < limit
    · simp only [add, if_pos room, number, length_append, length_singleton]
      omega
    · have notFull := stacked.1 level (by simp)
      have full : level.length + 1 = limit := by omega
      simp only [add, if_neg room, number, length_nil, ih stacked.tail, Nat.mul_add]
      omega

theorem number_raise (merge : List α → α) (stacked : WellStacked limit levels) (objects : List α) :
    number limit (raise limit merge levels objects).1 = number limit levels + 1 := by
  by_cases single : objects.length = 1
  · obtain ⟨item, rfl⟩ := length_eq_one_iff.mp single
    rw [raise_singleton, number_add stacked]
  · rw [raise_of_length_ne_one levels single, number_add stacked]

/-- The lowest `count` digits are cleared, with a carry from each. -/
def carried (limit number : Nat) : Nat → Nat
  | 0 => number
  | count + 1 => limit * carried limit (number / limit + 1) count

/-- None of the lowest `count` digits is zero when its turn comes. -/
def Unfilled (limit number : Nat) : Nat → Prop
  | 0 => True
  | count + 1 => ¬limit ∣ number ∧ Unfilled limit (number / limit + 1) count

theorem number_div (stacked : WellStacked limit (level :: levels)) :
    number limit (level :: levels) / limit = number limit levels := by
  have notFull := stacked.1 level (by simp)
  rw [number, Nat.add_mul_div_left _ _ (Nat.zero_lt_of_lt notFull), Nat.div_eq_of_lt notFull,
    Nat.zero_add]

theorem dvd_number_iff (stacked : WellStacked limit (level :: levels)) :
    limit ∣ number limit (level :: levels) ↔ level = [] := by
  have notFull := stacked.1 level (by simp)
  rw [number, ← Nat.dvd_add_iff_left (Nat.dvd_mul_right limit _)]
  constructor
  · intro divides
    exact eq_nil_of_length_eq_zero (Nat.eq_zero_of_dvd_of_lt divides notFull)
  · rintro rfl
    exact Nat.dvd_zero limit

theorem number_flushAll (two : 1 < limit) (stacked : WellStacked limit levels)
    (nonempty : levels ≠ []) (count : Nat) : number limit (flushAll limit merge levels count).1 =
      carried limit (number limit levels) count := by
  induction count generalizing levels with
  | zero => rfl
  | succ count ih =>
    obtain ⟨level, levels, rfl⟩ := exists_cons_of_ne_nil nonempty
    obtain ⟨raised, above⟩ := wellStacked_raise merge two stacked.tail level
    rw [flushAll_cons, number, ih raised above, number_raise merge stacked.tail, carried,
      number_div stacked, length_nil, Nat.zero_add]

theorem length_of_mem_raise (stacked : WellStacked limit levels)
    (merged : group ∈ (raise limit merge levels objects).2) :
    group = objects ∧ objects.length ≠ 1 ∨ group.length = limit := by
  by_cases single : objects.length = 1
  · obtain ⟨item, rfl⟩ := length_eq_one_iff.mp single
    rw [raise_singleton] at merged
    exact .inr (length_of_mem_add stacked merged)
  · rw [raise_of_length_ne_one levels single] at merged
    rcases mem_cons.mp merged with rfl | merged
    · exact .inl ⟨rfl, single⟩
    · exact .inr (length_of_mem_add stacked merged)

variable {count : Nat}

/-- A flush merges groups of two to `limit` items, as long as it meets no empty level. -/
theorem length_of_mem_flushAll (two : 1 < limit) (stacked : WellStacked limit levels)
    (nonempty : levels ≠ []) (unfilled : Unfilled limit (number limit levels) count)
    (merged : group ∈ (flushAll limit merge levels count).2) :
    2 ≤ group.length ∧ group.length ≤ limit := by
  induction count generalizing levels with
  | zero => simp [flushAll] at merged
  | succ count ih =>
    obtain ⟨level, levels, rfl⟩ := exists_cons_of_ne_nil nonempty
    obtain ⟨notEmpty, unfilled⟩ := unfilled
    rw [dvd_number_iff stacked] at notEmpty
    rw [number_div stacked, ← number_raise merge stacked.tail level] at unfilled
    obtain ⟨raised, above⟩ := wellStacked_raise merge two stacked.tail level
    rw [flushAll_cons] at merged
    rcases mem_append.mp merged with merged | merged
    · rcases length_of_mem_raise stacked.tail merged with ⟨rfl, several⟩ | full
      · have notFull := stacked.1 group (by simp)
        have positive := length_pos_of_ne_nil notEmpty
        omega
      · omega
    · exact ih raised above unfilled merged

theorem nil_mem_flushAll (two : 1 < limit) (stacked : WellStacked limit levels)
    (nonempty : levels ≠ []) (filled : ¬Unfilled limit (number limit levels) count) :
    [] ∈ (flushAll limit merge levels count).2 := by
  induction count generalizing levels with
  | zero => exact absurd trivial filled
  | succ count ih =>
    obtain ⟨level, levels, rfl⟩ := exists_cons_of_ne_nil nonempty
    rw [flushAll_cons, mem_append]
    by_cases isEmpty : level = []
    · subst isEmpty
      rw [raise_of_length_ne_one levels (by simp)]
      exact .inl (by simp)
    · obtain ⟨raised, above⟩ := wellStacked_raise merge two stacked.tail level
      refine .inr (ih raised above fun unfilled => filled ⟨?_, ?_⟩)
      · rwa [dvd_number_iff stacked]
      · rwa [number_div stacked, ← number_raise merge stacked.tail level]

/-- The runs of `collapse`. -/
inductive Collapses (limit : Nat) (merge : List α → α) :
    List (List α) → α → List (List α) → Prop
  | single (item : α) : Collapses limit merge [[item]] item []
  | skip {levels : List (List α)} {item : α} {groups : List (List α)} :
      Collapses limit merge levels item groups → Collapses limit merge ([] :: levels) item groups
  | up {level : List α} {levels : List (List α)} {item : α} {groups : List (List α)} :
      level ≠ [] → Collapses limit merge (raise limit merge levels level).1 item groups →
      Collapses limit merge (level :: levels) item ((raise limit merge levels level).2 ++ groups)

/-- Adding an item makes the stack higher only when all levels were full. -/
theorem length_add (levels : List (List α)) (item : α) :
    (add limit merge levels 0 item).1.length = levels.length ∨
      ∃ top, (add limit merge levels 0 item).1 = replicate levels.length [] ++ [[top]] := by
  induction levels generalizing item with
  | nil => exact .inr ⟨item, by simp [add]⟩
  | cons level levels ih =>
    by_cases room : level.length + 1 < limit
    · exact .inl (by simp [add, room])
    · simp only [add, if_neg room]
      rcases ih (merge (level ++ [item])) with same | ⟨top, higher⟩
      · exact .inl (by simp [same])
      · exact .inr ⟨top, by simp [higher, replicate_succ]⟩

theorem length_raise (limit : Nat) (merge : List α → α) (levels : List (List α)) (objects : List α) :
    (raise limit merge levels objects).1.length = levels.length ∨ ∃ top,
        (raise limit merge levels objects).1 = replicate levels.length [] ++ [[top]] := by
  by_cases single : objects.length = 1
  · obtain ⟨item, rfl⟩ := length_eq_one_iff.mp single
    rw [raise_singleton]
    exact length_add levels item
  · rw [raise_of_length_ne_one levels single]
    exact length_add levels (merge objects)

theorem collapse_replicate (count : Nat) (top : α) {fuel : Nat} (enough : count < fuel) :
    collapse limit merge (replicate count [] ++ [[top]]) 0 fuel = (some top, []) ∧
      Collapses limit merge (replicate count [] ++ [[top]]) top [] := by
  induction count generalizing fuel with
  | zero =>
    obtain ⟨fuel, rfl⟩ := Nat.exists_eq_succ_of_ne_zero (Nat.ne_of_gt enough)
    exact ⟨collapse_single top fuel, Collapses.single top⟩
  | succ count ih =>
    obtain ⟨fuel, rfl⟩ := Nat.exists_eq_succ_of_ne_zero (Nat.ne_of_gt (Nat.zero_lt_of_lt enough))
    obtain ⟨same, collapses⟩ := ih (Nat.lt_of_succ_lt_succ enough)
    rw [replicate_succ, cons_append]
    exact ⟨(collapse_nil_cons _ fuel).trans same, collapses.skip⟩

/-- The collapse ends within one round more than there are levels. -/
theorem collapse_spec (two : 1 < limit) (stacked : WellStacked limit levels)
    (nonempty : levels ≠ []) {fuel : Nat} (enough : levels.length < fuel) :
    ∃ item groups, collapse limit merge levels 0 fuel = (some item, groups) ∧
      Collapses limit merge levels item groups := by
  induction fuel generalizing levels with
  | zero => exact absurd enough (Nat.not_lt_zero _)
  | succ fuel ih =>
    obtain ⟨level, levels, rfl⟩ := exists_cons_of_ne_nil nonempty
    rw [length_cons, Nat.add_lt_add_iff_right] at enough
    by_cases isEmpty : level = []
    · subst isEmpty
      have above : levels ≠ [] := by
        rintro rfl
        exact stacked.2 rfl
      obtain ⟨item, groups, same, collapses⟩ := ih stacked.tail above enough
      exact ⟨item, groups, (collapse_nil_cons levels fuel).trans same, collapses.skip⟩
    · by_cases isTop : levels = [] ∧ level.length = 1
      · obtain ⟨rfl, single⟩ := isTop
        obtain ⟨item, rfl⟩ := length_eq_one_iff.mp single
        exact ⟨item, [], collapse_single item fuel, Collapses.single item⟩
      · obtain ⟨raised, above⟩ := wellStacked_raise merge two stacked.tail level
        have next : ∃ item groups, collapse limit merge (raise limit merge levels level).1 0 fuel =
                (some item, groups) ∧
              Collapses limit merge (raise limit merge levels level).1 item groups := by
          rcases length_raise limit merge levels level with
            same | ⟨top, higher⟩
          · exact ih raised above (same ▸ enough)
          · rw [higher]
            exact ⟨top, [], collapse_replicate levels.length top enough⟩
        obtain ⟨item, groups, same, collapses⟩ := next
        refine ⟨item, _, ?_, Collapses.up isEmpty collapses⟩
        rw [collapse_raise levels isEmpty isTop, same]

variable {groups : List (List α)}

theorem Collapses.length_of_mem (two : 1 < limit)
    (collapses : Collapses limit merge levels item groups) (stacked : WellStacked limit levels)
    (merged : group ∈ groups) : 2 ≤ group.length ∧ group.length ≤ limit := by
  induction collapses with
  | single item => simp at merged
  | skip collapses ih => exact ih stacked.tail merged
  | @up level levels item groups nonempty collapses ih =>
    rcases mem_append.mp merged with merged | merged
    · rcases length_of_mem_raise stacked.tail merged with ⟨rfl, several⟩ | full
      · have notFull := stacked.1 group (by simp)
        have positive := length_pos_of_ne_nil nonempty
        omega
      · omega
    · exact ih (wellStacked_raise merge two stacked.tail level).1 merged

def items (levels : List (List α)) : List α :=
  levels.reverse.flatten

@[simp]
theorem items_nil : items ([] : List (List α)) = [] :=
  rfl

@[simp]
theorem items_cons (level : List α) (levels : List (List α)) :
    items (level :: levels) = items levels ++ level := by
  simp [items]

variable {β : Type} {denotes : α → List β → Prop} {word : List β}

def Spells (denotes : α → List β → Prop) : List α → List β → Prop
  | [], word => word = []
  | item :: items, word => ∃ start rest, denotes item start ∧ Spells denotes items rest ∧
      word = start ++ rest

theorem spells_singleton : Spells denotes [item] word ↔ denotes item word := by
  constructor
  · rintro ⟨start, rest, isItem, rfl, rfl⟩
    rwa [append_nil]
  · intro isItem
    exact ⟨word, [], isItem, rfl, (append_nil word).symm⟩

theorem spells_append {first second : List α} :
    Spells denotes (first ++ second) word ↔ ∃ start rest, Spells denotes first start ∧
      Spells denotes second rest ∧ word = start ++ rest := by
  induction first generalizing word with
  | nil =>
    constructor
    · exact fun spelled => ⟨[], word, rfl, spelled, rfl⟩
    · rintro ⟨start, rest, rfl, spelled, rfl⟩
      exact spelled
  | cons item first ih =>
    constructor
    · rintro ⟨start, _, isItem, spelled, rfl⟩
      obtain ⟨middle, rest, isFirst, isSecond, rfl⟩ := ih.mp spelled
      exact ⟨start ++ middle, rest, ⟨start, middle, isItem, isFirst, rfl⟩, isSecond,
        (append_assoc ..).symm⟩
    · rintro ⟨_, rest, ⟨start, middle, isItem, isFirst, rfl⟩, isSecond, rfl⟩
      exact ⟨start, middle ++ rest, isItem, ih.mpr ⟨middle, rest, isFirst, isSecond, rfl⟩,
        append_assoc ..⟩

def Faithful (denotes : α → List β → Prop) (merge : List α → α) (groups : List (List α)) : Prop :=
  ∀ group ∈ groups, ∀ word, Spells denotes group word → denotes (merge group) word

theorem Faithful.subset {fewer : List (List α)} (faithful : Faithful denotes merge groups)
    (subset : fewer ⊆ groups) : Faithful denotes merge fewer :=
  fun group inFewer => faithful group (subset inFewer)

variable {start rest : List β}

def Spelled (denotes : α → List β → Prop) (groups : List (List α)) : Prop :=
  ∀ group ∈ groups, ∃ word, Spells denotes group word

theorem Spelled.append {first second : List (List α)} (isFirst : Spelled denotes first)
    (isSecond : Spelled denotes second) : Spelled denotes (first ++ second) := by
  intro group merged
  exact (mem_append.mp merged).elim (isFirst group) (isSecond group)

theorem Spelled.cons (spelled : Spells denotes group word) (others : Spelled denotes groups) :
    Spelled denotes (group :: groups) := by
  intro other merged
  rcases mem_cons.mp merged with rfl | merged
  · exact ⟨word, spelled⟩
  · exact others other merged

/-- The words of the levels stay together, and what is merged has a word too. -/
theorem spells_add (faithful : Faithful denotes merge (add limit merge levels 0 item).2)
    (spelled : Spells denotes (items levels) start) (isItem : denotes item rest) :
    Spells denotes (items (add limit merge levels 0 item).1) (start ++ rest) ∧
      Spelled denotes (add limit merge levels 0 item).2 := by
  induction levels generalizing item start rest with
  | nil =>
    obtain rfl : start = [] := spelled
    simpa [add, Spelled] using spells_singleton.mpr isItem
  | cons level levels ih =>
    rw [items_cons] at spelled
    obtain ⟨high, low, isHigh, isLow, rfl⟩ := spells_append.mp spelled
    have together : Spells denotes (level ++ [item]) (low ++ rest) :=
      spells_append.mpr ⟨low, rest, isLow, spells_singleton.mpr isItem, rfl⟩
    rw [append_assoc]
    by_cases room : level.length + 1 < limit
    · simp only [add, if_pos room, items_cons]
      exact ⟨spells_append.mpr ⟨high, _, isHigh, together, rfl⟩, by simp [Spelled]⟩
    · simp only [add, if_neg room, items_cons, append_nil] at faithful ⊢
      exact (ih (faithful.subset (subset_cons_self _ _)) isHigh
        (faithful _ mem_cons_self _ together)).imp_right (.cons together)

theorem spells_raise (faithful : Faithful denotes merge (raise limit merge levels objects).2)
    (spelled : Spells denotes (items levels) start) (isObjects : Spells denotes objects rest) :
    Spells denotes (items (raise limit merge levels objects).1) (start ++ rest) ∧
      Spelled denotes (raise limit merge levels objects).2 := by
  by_cases single : objects.length = 1
  · obtain ⟨item, rfl⟩ := length_eq_one_iff.mp single
    rw [raise_singleton] at faithful ⊢
    exact spells_add faithful spelled (spells_singleton.mp isObjects)
  · rw [raise_of_length_ne_one levels single] at faithful ⊢
    exact (spells_add (faithful.subset (subset_cons_self _ _)) spelled
      (faithful _ mem_cons_self _ isObjects)).imp_right (.cons isObjects)

theorem spells_flushAll (two : 1 < limit) (stacked : WellStacked limit levels)
    (nonempty : levels ≠ [])
    (faithful : Faithful denotes merge (flushAll limit merge levels count).2)
    (spelled : Spells denotes (items levels) word) :
    Spells denotes (items (flushAll limit merge levels count).1) word ∧
      Spelled denotes (flushAll limit merge levels count).2 := by
  induction count generalizing levels with
  | zero => exact ⟨spelled, by simp [flushAll, Spelled]⟩
  | succ count ih =>
    obtain ⟨level, levels, rfl⟩ := exists_cons_of_ne_nil nonempty
    rw [items_cons] at spelled
    obtain ⟨high, low, isHigh, isLow, rfl⟩ := spells_append.mp spelled
    obtain ⟨raised, above⟩ := wellStacked_raise merge two stacked.tail level
    rw [flushAll_cons] at faithful ⊢
    rw [items_cons, append_nil]
    obtain ⟨spells, merged⟩ := spells_raise (faithful.subset (subset_append_left _ _)) isHigh isLow
    exact (ih raised above (faithful.subset (subset_append_right _ _)) spells).imp_right
      merged.append

theorem Collapses.spells (collapses : Collapses limit merge levels item groups)
    (faithful : Faithful denotes merge groups) (spelled : Spells denotes (items levels) word) :
    denotes item word ∧ Spelled denotes groups := by
  induction collapses with
  | single item => exact ⟨spells_singleton.mp spelled, by simp [Spelled]⟩
  | skip collapses ih => exact ih faithful (by simpa using spelled)
  | @up level levels item groups nonempty collapses ih =>
    rw [items_cons] at spelled
    obtain ⟨high, low, isHigh, isLow, rfl⟩ := spells_append.mp spelled
    obtain ⟨spells, merged⟩ := spells_raise (faithful.subset (subset_append_left _ _)) isHigh isLow
    exact (ih (faithful.subset (subset_append_right _ _)) spells).imp_right merged.append

end LevelStack

end Peridot
