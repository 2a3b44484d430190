import Peridot.KeyedList

/-!
# Spines: the alternating content of a search-tree node

A node of a multiway search tree alternates children and entries,
`c₀ e₁ c₁ … eₙ cₙ`.  A `Spine` is that sequence, over arbitrary child and entry
types.  Searching a node stops at the first entry that is not before the search
point; the operations below all work at that position, called the focus.
-/

namespace Peridot

open Bool KeyedList List Option

/-- `c₀ e₁ c₁ … eₙ cₙ`, with exactly one more child than entries. -/
inductive Spine (C E : Type*) where
  | last (child : C)
  | step (child : C) (entry : E) (rest : Spine C E)

namespace Spine

variable {C D E : Type*}

def first : Spine C E → C
  | last child => child
  | step child _ _ => child

@[simp]
theorem first_last (child : C) : (last child : Spine C E).first = child :=
  rfl

@[simp]
theorem first_step (child : C) (entry : E) (rest : Spine C E) :
    (step child entry rest).first = child :=
  rfl

def entries : Spine C E → List E
  | last _ => []
  | step _ entry rest => entry :: rest.entries

def ofList (child : Nat → C) : Nat → List E → Spine C E
  | position, [] => last (child position)
  | position, entry :: rest =>
    step (child position) entry (ofList child (position + 1) rest)

def focus (before : E → Bool) : Spine C E → C
  | last child => child
  | step child entry rest => if before entry then rest.focus before else child

def next (before : E → Bool) : Spine C E → Option E
  | last _ => none
  | step _ entry rest => if before entry then rest.next before else some entry

def setFirst (child : C) : Spine C E → Spine C E
  | last _ => last child
  | step _ entry rest => step child entry rest

def setFocus (before : E → Bool) (child : C) : Spine C E → Spine C E
  | last _ => last child
  | step old entry rest =>
    if before entry then step old entry (rest.setFocus before child)
    else step child entry rest

/-- Cut a spine at the focus; the focused child becomes `left` and `right`. -/
def cut (before : E → Bool) (left right : C) : Spine C E → Spine C E × Spine C E
  | last _ => (last left, last right)
  | step child entry rest =>
    if before entry then
      (step child entry (rest.cut before left right).1, (rest.cut before left right).2)
    else (last left, step right entry rest)

/-- Put a new entry at the focus; the focused child becomes `left` and `right`. -/
def insert (before : E → Bool) (left : C) (entry : E) (right : C) :
    Spine C E → Spine C E
  | last _ => step left entry (last right)
  | step child other rest =>
    if before other then step child other (rest.insert before left entry right)
    else step left entry (step right other rest)

def setNext (before : E → Bool) (entry : E) : Spine C E → Spine C E
  | last child => last child
  | step child other rest =>
    if before other then step child other (rest.setNext before entry)
    else step child entry rest

def afterNext (before : E → Bool) : Spine C E → C
  | last child => child
  | step _ entry rest => if before entry then rest.afterNext before else rest.first

/-- Drop the first entry that is not before the search point, with `child` in
the place of the two children around it. -/
def removeNext (before : E → Bool) (child : C) : Spine C E → Spine C E
  | last old => last old
  | step old entry rest =>
    if before entry then step old entry (rest.removeNext before child)
    else rest.setFirst child

def final : Spine C E → C
  | last child => child
  | step _ _ rest => rest.final

/-- Concatenate two spines, with `child` in the place of the two inner ones. -/
def glue (child : C) : Spine C E → Spine C E → Spine C E
  | last _, other => other.setFirst child
  | step old entry rest, other => step old entry (rest.glue child other)

def flatten (contents : C → List E) : Spine C E → List E
  | last child => contents child
  | step child entry rest => contents child ++ entry :: rest.flatten contents

/-- Every entry satisfies `P`, the final child satisfies `F`, the others `Q`. -/
def All (P : E → Prop) (Q F : C → Prop) : Spine C E → Prop
  | last child => F child
  | step child entry rest => Q child ∧ P entry ∧ rest.All P Q F

inductive Rel (R : C → D → Prop) : Spine C E → Spine D E → Prop
  | last {child : C} {related : D} (holds : R child related) :
      Rel R (.last child) (.last related)
  | step {child : C} {related : D} {entry : E} {rest : Spine C E} {rest' : Spine D E}
      (holds : R child related) (restRel : Rel R rest rest') :
      Rel R (.step child entry rest) (.step related entry rest')

instance All.decidable {P : E → Prop} {Q F : C → Prop} [DecidablePred P] [DecidablePred Q]
    [DecidablePred F] : (spine : Spine C E) → Decidable (spine.All P Q F)
  | last child => inferInstanceAs (Decidable (F child))
  | step child entry rest =>
    have := All.decidable (P := P) (Q := Q) (F := F) rest
    inferInstanceAs (Decidable (Q child ∧ P entry ∧ rest.All P Q F))

variable {child : C} {R : C → D → Prop} {rest : Spine C E} {related : D}

theorem rel_last : Rel (E := E) R (.last child) (.last related) ↔ R child related :=
  ⟨fun | .last holds => holds, .last⟩

theorem rel_step {entry entry' : E} {rest' : Spine D E} :
    Rel R (.step child entry rest) (.step related entry' rest') ↔
      R child related ∧ entry = entry' ∧ Rel R rest rest' :=
  ⟨fun | .step holds restRel => ⟨holds, rfl, restRel⟩,
    fun | ⟨holds, rfl, restRel⟩ => .step holds restRel⟩

instance Rel.decidable {R : C → D → Prop} [∀ child related, Decidable (R child related)]
    [DecidableEq E] : (spine : Spine C E) → (related : Spine D E) → Decidable (spine.Rel R related)
  | .last _, .last _ => decidable_of_iff _ rel_last.symm
  | .step _ _ rest, .step _ _ rest' =>
    have := Rel.decidable (R := R) rest rest'
    decidable_of_iff _ rel_step.symm
  | .last _, .step _ _ _ => .isFalse nofun
  | .step _ _ _, .last _ => .isFalse nofun

variable {left right : C} {item : E}

section All

variable {P : E → Prop} {Q F : C → Prop} {before : E → Bool} {spine : Spine C E}

section

variable (all : spine.All P Q F)
include all

theorem All.focus : Q (spine.focus before) ∨ F (spine.focus before) := by
  induction spine with
  | last child => exact .inr all
  | step child entry rest ih =>
    simp only [Spine.focus]
    split
    · exact ih all.2.2
    · exact .inl all.1

theorem All.entry {entry : E} (member : entry ∈ spine.entries) : P entry := by
  induction spine with
  | last child => exact absurd member not_mem_nil
  | step child first rest ih =>
    rcases mem_cons.mp member with rfl | inRest
    · exact all.2.1
    · exact ih all.2.2 inRest

theorem All.setFirst (inner : Q spine.first → Q child) (outer : F spine.first → F child) :
    (spine.setFirst child).All P Q F := by
  cases spine with
  | last old => exact outer all
  | step old entry rest => exact ⟨inner all.1, all.2⟩

theorem All.setFocus (inner : Q (spine.focus before) → Q child)
    (outer : F (spine.focus before) → F child) : (spine.setFocus before child).All P Q F := by
  induction spine with
  | last old => exact outer all
  | step old entry rest ih =>
    simp only [Spine.setFocus, Spine.focus] at inner outer ⊢
    split at inner
    · rename_i isBefore
      simp only [isBefore, if_true] at outer ⊢
      exact ⟨all.1, all.2.1, ih all.2.2 inner outer⟩
    · rename_i notBefore
      simp only [notBefore]
      exact ⟨inner all.1, all.2⟩

theorem All.setNext {entry : E} (holds : P entry) : (spine.setNext before entry).All P Q F := by
  induction spine with
  | last old => exact all
  | step old other rest ih =>
    simp only [Spine.setNext]
    split
    · exact ⟨all.1, all.2.1, ih all.2.2⟩
    · exact ⟨all.1, holds, all.2.2⟩

/-- The left part of a cut has no final child of the old spine. -/
theorem All.cut_left (holds : Q left) : (spine.cut before left right).1.All P Q Q := by
  induction spine with
  | last old => exact holds
  | step old entry rest ih =>
    simp only [Spine.cut]
    split
    · exact ⟨all.1, all.2.1, ih all.2.2⟩
    · exact holds

theorem All.cut_right (inner : Q (spine.focus before) → Q right)
    (outer : F (spine.focus before) → F right) : (spine.cut before left right).2.All P Q F := by
  induction spine with
  | last old => exact outer all
  | step old entry rest ih =>
    simp only [Spine.cut, Spine.focus] at inner outer ⊢
    split at inner
    · rename_i isBefore
      simp only [isBefore, if_true] at outer ⊢
      exact ih all.2.2 inner outer
    · rename_i notBefore
      simp only [notBefore]
      exact ⟨inner all.1, all.2⟩

theorem All.insert {entry : E}
    (leftHolds : Q left) (holds : P entry) (inner : Q (spine.focus before) → Q right)
    (outer : F (spine.focus before) → F right) :
    (spine.insert before left entry right).All P Q F := by
  induction spine with
  | last old => exact ⟨leftHolds, holds, outer all⟩
  | step old other rest ih =>
    simp only [Spine.insert, Spine.focus] at inner outer ⊢
    split at inner
    · rename_i isBefore
      simp only [isBefore, if_true] at outer ⊢
      exact ⟨all.1, all.2.1, ih all.2.2 inner outer⟩
    · rename_i notBefore
      simp only [notBefore]
      exact ⟨leftHolds, holds, inner all.1, all.2⟩

theorem All.removeNext (inner : Q (spine.focus before) → Q (spine.afterNext before) → Q child)
    (outer : Q (spine.focus before) → F (spine.afterNext before) → F child) :
    (spine.removeNext before child).All P Q F := by
  induction spine with
  | last old => exact all
  | step old entry rest ih =>
    simp only [Spine.removeNext, Spine.focus, Spine.afterNext] at inner outer ⊢
    split at inner
    · rename_i isBefore
      simp only [isBefore, if_true] at outer ⊢
      exact ⟨all.1, all.2.1, ih all.2.2 inner outer⟩
    · rename_i notBefore
      simp only [notBefore] at outer ⊢
      exact all.2.2.setFirst (inner all.1) (outer all.1)

end

theorem All.glue {other : Spine C E} (all : spine.All P Q Q) (otherAll : other.All P Q F)
    (inner : Q spine.final → Q other.first → Q child)
    (outer : Q spine.final → F other.first → F child) : (spine.glue child other).All P Q F := by
  induction spine with
  | last old => exact otherAll.setFirst (inner all) (outer all)
  | step old entry rest ih => exact ⟨all.1, all.2.1, ih all.2.2 inner outer⟩

variable (all : spine.All P Q F)
include all

theorem All.imp {P' : E → Prop} {Q' F' : C → Prop}
    (onEntries : ∀ entry, P entry → P' entry) (onChildren : ∀ child, Q child → Q' child)
    (onFinal : ∀ child, F child → F' child) : spine.All P' Q' F' := by
  induction spine with
  | last child => exact onFinal _ all
  | step child entry rest ih => exact ⟨onChildren _ all.1, onEntries _ all.2.1, ih all.2.2⟩

theorem All.flatten {contents : C → List E} {R : E → Prop} (onEntries : ∀ entry, P entry → R entry)
    (onChildren : ∀ child, Q child → ∀ item ∈ contents child, R item)
    (onFinal : ∀ child, F child → ∀ item ∈ contents child, R item)
    (member : item ∈ spine.flatten contents) : R item := by
  induction spine with
  | last child => exact onFinal _ all _ member
  | step child entry rest ih =>
    rcases mem_append.mp member with inChild | inTail
    · exact onChildren _ all.1 _ inChild
    · rcases mem_cons.mp inTail with same | inRest
      · exact same ▸ onEntries _ all.2.1
      · exact ih all.2.2 inRest

theorem All.next {entry : E} (found : spine.next before = some entry) : P entry := by
  induction spine with
  | last child => simp [Spine.next] at found
  | step child other rest ih =>
    simp only [Spine.next] at found
    split at found
    · exact ih all.2.2 found
    · exact some.inj found ▸ all.2.1

end All

section Ordered

variable {K : Type*} [LinearOrder K] {key : E → K} {contents : C → List E}

/-- Entries whose key is below the search key are before the search point. -/
def beforeKey (key : E → K) (k : K) (entry : E) : Bool :=
  decide (key entry < k)

variable {k : K} {spine : Spine C E} {before : E → Bool} {entry : E}

theorem sorted_flatten_step
    (sorted : KeyedList.Sorted key ((step child entry rest).flatten contents)) :
    KeyedList.Sorted key (contents child) ∧ KeyedList.Sorted key (rest.flatten contents) ∧
      (∀ item ∈ contents child, key item < key entry) ∧
      ∀ item ∈ rest.flatten contents, key entry < key item := by
  obtain ⟨childSorted, tailSorted, across⟩ := sorted_append.mp sorted
  obtain ⟨entryBelow, restSorted⟩ := sorted_cons.mp tailSorted
  exact ⟨childSorted, restSorted, fun item member => across item member entry (by simp), entryBelow⟩

theorem sorted_focus (sorted : KeyedList.Sorted key (spine.flatten contents)) (before : E → Bool) :
    KeyedList.Sorted key (contents (spine.focus before)) := by
  induction spine with
  | last child => exact sorted
  | step child entry rest ih =>
    obtain ⟨childSorted, restSorted, -, -⟩ := sorted_flatten_step sorted
    simp only [focus]
    split
    · exact ih restSorted
    · exact childSorted

theorem mem_flatten_of_mem_focus (member : item ∈ contents (spine.focus before)) :
    item ∈ spine.flatten contents := by
  induction spine with
  | last child => exact member
  | step child entry rest ih =>
    simp only [focus] at member
    simp only [flatten, mem_append, mem_cons]
    split at member
    · exact .inr (.inr (ih member))
    · exact .inl member

theorem mem_flatten_of_next (found : spine.next before = some entry) :
    entry ∈ spine.flatten contents := by
  induction spine with
  | last child => simp [next] at found
  | step child other rest ih =>
    simp only [next] at found
    simp only [flatten, mem_append, mem_cons]
    split at found
    · exact .inr (.inr (ih found))
    · exact .inr (.inl (some.inj found).symm)

/-- An item with the search key is in the focused child or is the next entry. -/
theorem mem_focus_or_next (sorted : KeyedList.Sorted key (spine.flatten contents))
    (member : item ∈ spine.flatten contents) (sameKey : key item = k) :
    item ∈ contents (spine.focus (beforeKey key k)) ∨ spine.next (beforeKey key k) = some item := by
  induction spine with
  | last child => exact .inl member
  | step child entry rest ih =>
    obtain ⟨-, restSorted, childBelow, restAbove⟩ := sorted_flatten_step sorted
    simp only [focus, next, beforeKey]
    rcases mem_append.mp member with inChild | inTail
    · have notBefore : ¬key entry < k :=
        not_lt_of_gt (sameKey ▸ childBelow item inChild)
      simp [notBefore, inChild]
    · rcases mem_cons.mp inTail with same | inRest
      · have notBefore : ¬key entry < k := by rw [← same, sameKey]; exact lt_irrefl k
        simp [notBefore, same]
      · have before : key entry < k := sameKey ▸ restAbove item inRest
        simpa [before] using ih restSorted inRest

theorem setFocus_focus (spine : Spine C E) (before : E → Bool) :
    spine.setFocus before (spine.focus before) = spine := by
  induction spine with
  | last child => rfl
  | step child entry rest ih =>
    simp only [setFocus, focus]
    split
    · rw [ih]
    · rfl

theorem setNext_next (spine : Spine C E)
    (found : spine.next before = some entry) : spine.setNext before entry = spine := by
  induction spine with
  | last child => rfl
  | step child other rest ih =>
    simp only [setNext, next] at found ⊢
    split at found
    · rename_i isBefore
      rw [if_pos isBefore, ih found]
    · rename_i notBefore
      rw [if_neg notBefore, some.inj found]

section

variable {spine : Spine C E} (sorted : KeyedList.Sorted key (spine.flatten contents))
include sorted

variable (noEntry : ∀ entry ∈ spine.next (beforeKey key k), key entry ≠ k)
include noEntry

theorem flatten_setFocus_replaceAt {middle : List E} (replaced : contents child =
      KeyedList.replaceAt key k middle (contents (spine.focus (beforeKey key k)))) :
    (spine.setFocus (beforeKey key k) child).flatten contents =
      KeyedList.replaceAt key k middle (spine.flatten contents) := by
  induction spine with
  | last old => exact replaced
  | step old entry rest ih =>
    obtain ⟨-, restSorted, oldBelow, restAbove⟩ := sorted_flatten_step sorted
    simp only [setFocus, focus, next, beforeKey] at replaced noEntry ⊢
    by_cases before : key entry < k
    · simp only [before, decide_true, if_true] at replaced noEntry ⊢
      have oldBefore : ∀ item ∈ contents old, key item < k :=
        fun item member => (oldBelow item member).trans before
      rw [flatten, flatten, ih restSorted noEntry replaced,
        replaceAt_append_cons_of_below oldBefore before]
    · simp only [before, decide_false, false_eq_true, if_false] at replaced noEntry ⊢
      have after : k < key entry :=
        lt_of_le_of_ne (not_lt.mp before) fun same => noEntry entry rfl same.symm
      have restAfter : ∀ item ∈ entry :: rest.flatten contents, k < key item :=
        forall_mem_cons.mpr ⟨after, fun item member => after.trans (restAbove item member)⟩
      rw [flatten, flatten, replaced, replaceAt_append_of_above restAfter]

theorem flatten_cut (leftContents : contents left =
      KeyedList.below key k (contents (spine.focus (beforeKey key k))))
    (rightContents : contents right =
      KeyedList.above key k (contents (spine.focus (beforeKey key k)))) :
    (spine.cut (beforeKey key k) left right).1.flatten contents =
        KeyedList.below key k (spine.flatten contents) ∧
      (spine.cut (beforeKey key k) left right).2.flatten contents =
        KeyedList.above key k (spine.flatten contents) := by
  induction spine with
  | last child => exact ⟨leftContents, rightContents⟩
  | step child entry rest ih =>
    obtain ⟨-, restSorted, childBelow, restAbove⟩ := sorted_flatten_step sorted
    simp only [cut, focus, next, beforeKey] at leftContents rightContents noEntry ⊢
    by_cases before : key entry < k
    · simp only [before, decide_true, if_true] at leftContents rightContents noEntry ⊢
      have childBefore : ∀ item ∈ contents child, key item < k :=
        fun item member => (childBelow item member).trans before
      obtain ⟨tailBelow, tailAbove⟩ := ih restSorted noEntry leftContents rightContents
      constructor
      · simp [flatten, tailBelow, below_append, below_cons, below_eq_self childBefore, before]
      · simp [flatten, tailAbove, above_append, above_cons,
          above_eq_nil fun item member => (childBefore item member).le, not_lt_of_gt
          before]
    · simp only [before, decide_false, false_eq_true, if_false]
        at leftContents rightContents noEntry ⊢
      have after : k < key entry :=
        lt_of_le_of_ne (not_lt.mp before) fun same => noEntry entry rfl same.symm
      have restAfter : ∀ item ∈ rest.flatten contents, k < key item :=
        fun item member => after.trans (restAbove item member)
      constructor
      · simp [flatten, leftContents, below_append, below_cons, before,
          below_eq_nil fun item member => (restAfter item member).le]
      · simp [flatten, rightContents, above_append, above_cons, after, above_eq_self restAfter]

end

theorem flatten_insert_eq_cut (spine : Spine C E) (before : E → Bool) (left right : C) (entry : E) :
    (spine.insert before left entry right).flatten contents =
      (spine.cut before left right).1.flatten contents ++
        entry :: (spine.cut before left right).2.flatten contents := by
  induction spine with
  | last child => rfl
  | step child other rest ih =>
    simp only [insert, cut]
    split
    · simp [flatten, ih]
    · simp [flatten]

theorem flatten_setNext {old : E} (sorted : KeyedList.Sorted key (spine.flatten contents))
    (found : spine.next (beforeKey key k) = some old) (oldKey : key old = k) :
    (spine.setNext (beforeKey key k) entry).flatten contents =
      KeyedList.replaceAt key k [entry] (spine.flatten contents) := by
  induction spine with
  | last child => simp [next] at found
  | step child other rest ih =>
    obtain ⟨-, restSorted, childBelow, restAbove⟩ := sorted_flatten_step sorted
    simp only [setNext, next, beforeKey] at found ⊢
    by_cases before : key other < k
    · simp only [before, decide_true, if_true] at found ⊢
      have childBefore : ∀ item ∈ contents child, key item < k :=
        fun item member => (childBelow item member).trans before
      rw [flatten, flatten, ih restSorted found, replaceAt_append_cons_of_below childBefore before]
    · simp only [before, decide_false, false_eq_true, if_false, some.injEq]
        at found ⊢
      have otherKey : key other = k := found ▸ oldKey
      have restAfter : ∀ item ∈ rest.flatten contents, k < key item :=
        fun item member => otherKey ▸ restAbove item member
      have childBefore : ∀ item ∈ contents child, key item < k :=
        fun item member => otherKey ▸ childBelow item member
      rw [flatten, flatten, replaceAt_append_cons_self childBefore otherKey restAfter]
      rfl

theorem flatten_setFirst (spine : Spine C E) (child : C) (front : List E)
    (same : contents child = front ++ contents spine.first) :
    (spine.setFirst child).flatten contents = front ++ spine.flatten contents := by
  cases spine with
  | last old => exact same
  | step old entry rest =>
    simp only [first] at same
    simp [setFirst, flatten, same]

theorem flatten_removeNext {old : E} (sorted : KeyedList.Sorted key (spine.flatten contents))
    (found : spine.next (beforeKey key k) = some old) (oldKey : key old = k)
    (joined : contents child = contents (spine.focus (beforeKey key k)) ++
      contents (spine.afterNext (beforeKey key k))) :
    (spine.removeNext (beforeKey key k) child).flatten contents =
      KeyedList.replaceAt key k [] (spine.flatten contents) := by
  induction spine with
  | last other => simp [next] at found
  | step other entry rest ih =>
    obtain ⟨-, restSorted, otherBelow, restAbove⟩ := sorted_flatten_step sorted
    simp only [removeNext, next, focus, afterNext, beforeKey] at found joined ⊢
    by_cases before : key entry < k
    · simp only [before, decide_true, if_true] at found joined ⊢
      have otherBefore : ∀ item ∈ contents other, key item < k :=
        fun item member => (otherBelow item member).trans before
      rw [flatten, flatten, ih restSorted found joined,
        replaceAt_append_cons_of_below otherBefore before]
    · simp only [before, decide_false, false_eq_true, if_false, some.injEq]
        at found joined ⊢
      have entryKey : key entry = k := found ▸ oldKey
      have restAfter : ∀ item ∈ rest.flatten contents, k < key item :=
        fun item member => entryKey ▸ restAbove item member
      have otherBefore : ∀ item ∈ contents other, key item < k :=
        fun item member => entryKey ▸ otherBelow item member
      rw [flatten_setFirst rest child (contents other) joined, flatten,
        replaceAt_append_cons_self otherBefore entryKey restAfter, nil_append]

theorem flatten_glue (spine other : Spine C E) (child : C)
    (joined : contents child = contents spine.final ++ contents other.first) :
    (spine.glue child other).flatten contents =
      spine.flatten contents ++ other.flatten contents := by
  induction spine with
  | last old => exact flatten_setFirst other child _ joined
  | step old entry rest ih => simp [glue, flatten, ih joined]

end Ordered

end Spine

end Peridot
