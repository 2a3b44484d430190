import Peridot.Spine

/-!
# Spines as two lists

Programs keep the content of a node as a list of entries and a list of children,
one longer than the first, and work at a position.  This file gives the list
form of every spine operation, and lifts a relation between children to spines.
-/

namespace Peridot

open List

namespace Spine

variable {C D E : Type*}

def children : Spine C E → List C
  | last child => [child]
  | step child _ rest => child :: rest.children

/-- The position of the first entry that is not before the search point. -/
def position (before : E → Bool) (entries : List E) : Nat :=
  (entries.takeWhile before).length

variable {before : E → Bool} {spine : Spine C E}

@[simp]
theorem position_nil : position before [] = 0 :=
  rfl

variable {entry : E}

theorem position_cons_of_before (isBefore : before entry = true) (entries : List E) :
    position before (entry :: entries) = position before entries + 1 := by
  simp [position, isBefore]

theorem position_cons_of_not_before (notBefore : ¬before entry = true)
    (entries : List E) : position before (entry :: entries) = 0 := by
  simp [position, notBefore]

theorem position_le_length (entries : List E) : position before entries ≤ entries.length :=
  (takeWhile_sublist before).length_le

@[simp]
theorem length_children (spine : Spine C E) : spine.children.length = spine.entries.length + 1 := by
  induction spine with
  | last child => rfl
  | step child entry rest ih => simp [children, entries, ih]

@[simp]
theorem entries_ofList (child : Nat → C) (start : Nat) (items : List E) :
    (ofList child start items).entries = items := by
  induction items generalizing start with
  | nil => rfl
  | cons entry items ih => simp [ofList, entries, ih]

theorem children_ofList (child : Nat → C) (start : Nat) (items : List E) :
    (ofList child start items).children = (List.range' start (items.length + 1)).map child := by
  induction items generalizing start with
  | nil => rfl
  | cons entry items ih => simp [ofList, children, ih, range'_succ]

section

variable (spine : Spine C E)

theorem children_ne_nil : spine.children ≠ [] := by
  cases spine <;> simp [children]

theorem children_head? : spine.children.head? = some spine.first := by
  cases spine <;> rfl

theorem first_mem : spine.first ∈ spine.children :=
  List.mem_of_mem_head? spine.children_head?

theorem children_getLast? : spine.children.getLast? = some spine.final := by
  induction spine with
  | last child => rfl
  | step child entry rest ih =>
    rw [children, List.getLast?_cons, ih]
    rfl

end

theorem children_getElem? :
    spine.children[position before spine.entries]? = some (spine.focus before) := by
  induction spine with
  | last child => rfl
  | step child entry rest ih =>
    by_cases isBefore : before entry = true
    · simp [entries, children, focus, position_cons_of_before isBefore, isBefore, ih]
    · simp [entries, children, focus, position_cons_of_not_before isBefore, isBefore]

theorem entries_getElem? : spine.entries[position before spine.entries]? = spine.next before := by
  induction spine with
  | last child => rfl
  | step child entry rest ih =>
    by_cases isBefore : before entry = true
    · simp [entries, next, position_cons_of_before isBefore, isBefore, ih]
    · simp [entries, next, position_cons_of_not_before isBefore, isBefore]

theorem children_succ_getElem? (found : spine.next before = some entry) :
    spine.children[position before spine.entries + 1]? = some (spine.afterNext before) := by
  induction spine with
  | last child => simp [next] at found
  | step child other rest ih =>
    by_cases isBefore : before other = true
    · simp only [next, isBefore, if_true] at found
      simp [entries, children, afterNext, position_cons_of_before isBefore, isBefore, ih found]
    · have head : rest.children[0]? = some rest.first := by
        rw [← List.head?_eq_getElem?, children_head?]
      rw [entries, position_cons_of_not_before isBefore, children, List.getElem?_cons_succ,
        head, afterNext, if_neg isBefore]

theorem entries_setFocus (child : C) : (spine.setFocus before child).entries = spine.entries := by
  induction spine with
  | last old => rfl
  | step old entry rest ih =>
    simp only [setFocus]
    split <;> simp [entries, ih]

theorem children_setFocus (child : C) : (spine.setFocus before child).children =
    spine.children.set (position before spine.entries) child := by
  induction spine with
  | last old => rfl
  | step old entry rest ih =>
    by_cases isBefore : before entry = true
    · simp [setFocus, entries, children, position_cons_of_before isBefore, isBefore, ih]
    · simp [setFocus, entries, children, position_cons_of_not_before isBefore, isBefore]

theorem children_setFirst (child : C) :
    (spine.setFirst child).children = child :: spine.children.tail := by
  cases spine <;> rfl

theorem entries_setFirst (child : C) : (spine.setFirst child).entries = spine.entries := by
  cases spine <;> rfl

theorem children_setNext (entry : E) : (spine.setNext before entry).children = spine.children := by
  induction spine with
  | last old => rfl
  | step old other rest ih =>
    simp only [setNext]
    split <;> simp [children, ih]

theorem entries_setNext (entry : E) : (spine.setNext before entry).entries =
    spine.entries.set (position before spine.entries) entry := by
  induction spine with
  | last old => rfl
  | step old other rest ih =>
    by_cases isBefore : before other = true
    · simp [setNext, entries, position_cons_of_before isBefore, isBefore, ih]
    · simp [setNext, entries, position_cons_of_not_before isBefore, isBefore]

theorem entries_cut (left right : C) : (spine.cut before left right).1.entries =
    spine.entries.take (position before spine.entries) ∧ (spine.cut before left right).2.entries =
    spine.entries.drop (position before spine.entries) := by
  induction spine with
  | last old => exact ⟨rfl, rfl⟩
  | step old entry rest ih =>
    by_cases isBefore : before entry = true
    · simp [cut, entries, position_cons_of_before isBefore, isBefore, ih]
    · simp [cut, entries, position_cons_of_not_before isBefore, isBefore]

theorem children_cut (left right : C) : (spine.cut before left right).1.children =
    (spine.children.set (position before spine.entries) left).take
      (position before spine.entries + 1) ∧ (spine.cut before left right).2.children =
    right :: spine.children.drop (position before spine.entries + 1) := by
  induction spine with
  | last old => exact ⟨rfl, rfl⟩
  | step old entry rest ih =>
    by_cases isBefore : before entry = true
    · simp [cut, entries, children, position_cons_of_before isBefore, isBefore, ih]
    · simp [cut, entries, children, position_cons_of_not_before isBefore, isBefore]

variable {right : C}

theorem cut_of_position_eq_length {left : C}
    (atEnd : position before spine.entries = spine.entries.length) :
    spine.cut before left right = (spine.setFocus before left, last right) := by
  induction spine with
  | last old => rfl
  | step old entry rest ih =>
    by_cases isBefore : before entry = true
    · rw [entries, position_cons_of_before isBefore, length_cons] at atEnd
      simp [cut, setFocus, isBefore, ih (Nat.succ.inj atEnd)]
    · rw [entries, position_cons_of_not_before isBefore, length_cons] at atEnd
      omega

theorem entries_insert (left : C) (entry : E) (right : C) :
    (spine.insert before left entry right).entries =
      spine.entries.insertIdx (position before spine.entries) entry := by
  induction spine with
  | last old => rfl
  | step old other rest ih =>
    by_cases isBefore : before other = true
    · simp [insert, entries, position_cons_of_before isBefore, isBefore, ih]
    · simp [insert, entries, position_cons_of_not_before isBefore, isBefore]

theorem children_insert (left : C) (entry : E) (right : C) :
    (spine.insert before left entry right).children =
      (spine.children.set (position before spine.entries) left).insertIdx
        (position before spine.entries + 1) right := by
  induction spine with
  | last old => rfl
  | step old other rest ih =>
    by_cases isBefore : before other = true
    · simp [insert, entries, children, position_cons_of_before isBefore, isBefore, ih]
    · simp [insert, entries, children, position_cons_of_not_before isBefore, isBefore]

theorem entries_removeNext (child : C) : (spine.removeNext before child).entries =
    spine.entries.eraseIdx (position before spine.entries) := by
  induction spine with
  | last old => rfl
  | step old entry rest ih =>
    by_cases isBefore : before entry = true
    · simp [removeNext, entries, position_cons_of_before isBefore, isBefore, ih]
    · simp [removeNext, entries, position_cons_of_not_before isBefore, isBefore, entries_setFirst]

theorem children_removeNext {child : C} (found : spine.next before = some entry) :
    (spine.removeNext before child).children =
      (spine.children.set (position before spine.entries) child).eraseIdx
        (position before spine.entries + 1) := by
  induction spine with
  | last old => simp [next] at found
  | step old other rest ih =>
    by_cases isBefore : before other = true
    · simp only [next, isBefore, if_true] at found
      simp [removeNext, entries, children, position_cons_of_before isBefore, isBefore, ih found]
    · simp [removeNext, entries, children, position_cons_of_not_before isBefore, isBefore,
        children_setFirst]

theorem entries_glue (child : C) (other : Spine C E) :
    (spine.glue child other).entries = spine.entries ++ other.entries := by
  induction spine with
  | last old => exact entries_setFirst child
  | step old entry rest ih => simp [glue, entries, ih]

theorem children_glue (child : C) (other : Spine C E) : (spine.glue child other).children =
    spine.children.dropLast ++ child :: other.children.tail := by
  induction spine with
  | last old => exact children_setFirst child
  | step old entry rest ih =>
    rw [glue, children, children, ih, dropLast_cons_of_ne_nil rest.children_ne_nil]
    rfl

section Rel

variable {R : C → D → Prop} {other : Spine D E} {child : C} {related : D} {R' : C → D → Prop}
  {other' : Spine D E} {spine' : Spine C E} {items : List E} {f : Nat → C} {start : Nat}

section

variable (rel : spine.Rel R other)
include rel

theorem Rel.mono (weaker : ∀ child related, R child related → R' child related) :
    spine.Rel R' other := by
  induction rel with
  | last holds => exact .last (weaker _ _ holds)
  | step holds _ ih => exact .step (weaker _ _ holds) ih

theorem Rel.entries : spine.entries = other.entries := by
  induction rel with
  | last holds => rfl
  | step holds _ ih => simp [Spine.entries, ih]

theorem Rel.next : spine.next before = other.next before := by
  rw [← entries_getElem?, ← entries_getElem?, rel.entries]

theorem Rel.right_unique (rel' : spine.Rel R' other')
    (unique : ∀ child first second, R child first → R' child second → first = second) :
    other = other' := by
  induction rel generalizing other' with
  | last holds =>
    cases rel' with
    | last holds' => rw [unique _ _ _ holds holds']
  | step holds _ ih =>
    cases rel' with
    | step holds' restRel' => rw [unique _ _ _ holds holds', ih restRel']

theorem Rel.left_unique (rel' : spine'.Rel R' other)
    (unique : ∀ first second related, R first related → R' second related → first = second) :
    spine = spine' := by
  induction rel generalizing spine' with
  | last holds =>
    cases rel' with
    | last holds' => rw [unique _ _ _ holds holds']
  | step holds _ ih =>
    cases rel' with
    | step holds' restRel' => rw [unique _ _ _ holds holds', ih restRel']

end

theorem Rel.ofList_map {B : Type*} {g : Nat → B} {R' : B → D → Prop}
    (rel : (Spine.ofList f start items).Rel R other)
    (along : ∀ index related, R (f index) related → R' (g index) related) :
    (Spine.ofList g start items).Rel R' other := by
  induction items generalizing start other with
  | nil =>
    cases rel with
    | last holds => exact .last (along _ _ holds)
  | cons entry items ih =>
    cases rel with
    | step holds restRel => exact .step (along _ _ holds) (ih restRel)

theorem Rel.exists_all_of_mem_children {P : E → Prop} {Q F : D → Prop}
    (rel : spine.Rel R other) (all : other.All P Q F) (weaker : ∀ related, Q related → F related)
    (member : child ∈ spine.children) : ∃ related, R child related ∧ F related := by
  induction rel with
  | last holds =>
    simp only [children, mem_singleton] at member
    exact ⟨_, member ▸ holds, all⟩
  | step holds _ ih =>
    rcases mem_cons.mp member with same | inRest
    · exact ⟨_, same ▸ holds, weaker _ all.1⟩
    · exact ih all.2.2 inRest

theorem Rel.exists_of_ofList {index : Nat}
    (rel : (Spine.ofList f start items).Rel R other) (inside : index ≤ items.length) :
    ∃ related, R (f (start + index)) related := by
  induction items generalizing start index other with
  | nil =>
    cases rel with
    | last holds =>
      obtain rfl : index = 0 := by simpa using inside
      exact ⟨_, holds⟩
  | cons entry items ih =>
    cases rel with
    | step holds restRel =>
      cases index with
      | zero => exact ⟨_, holds⟩
      | succ index =>
        obtain ⟨related, found⟩ := ih restRel (by simpa using inside)
        exact ⟨related, by rwa [Nat.add_assoc, Nat.add_comm 1] at found⟩

/-- Relate the spine of the same entries whose children are computed by position. -/
theorem Rel.ofList_of_children {B : Type*} (g : Nat → B) {S : B → D → Prop} (start : Nat)
    (rel : spine.Rel R other)
    (along : ∀ index child related, spine.children[index]? = some child → R child related →
      S (g (start + index)) related) : (Spine.ofList g start spine.entries).Rel S other := by
  induction rel generalizing start with
  | last holds => exact .last (along 0 _ _ rfl holds)
  | step holds _ ih =>
    refine .step (along 0 _ _ rfl holds) (ih _ fun index child related found holds => ?_)
    have shifted := along (index + 1) child related found holds
    rwa [← Nat.add_assoc, Nat.add_right_comm] at shifted

section

variable (rel : spine.Rel R other)
include rel

theorem Rel.exists_of_mem_children (member : child ∈ spine.children) :
    ∃ related, R child related := by
  induction rel with
  | last holds =>
    simp only [children, mem_singleton] at member
    exact ⟨_, member ▸ holds⟩
  | step holds _ ih =>
    rcases mem_cons.mp member with same | inRest
    · exact ⟨_, same ▸ holds⟩
    · exact ih inRest

theorem Rel.first : R spine.first other.first := by
  cases rel with
  | last holds => exact holds
  | step holds _ => exact holds

theorem Rel.final : R spine.final other.final := by
  induction rel with
  | last holds => exact holds
  | step holds _ ih => exact ih

theorem Rel.focus : R (spine.focus before) (other.focus before) := by
  induction rel with
  | last holds => exact holds
  | step holds _ ih =>
    simp only [Spine.focus]
    split
    · exact ih
    · exact holds

theorem Rel.afterNext : R (spine.afterNext before) (other.afterNext before) := by
  induction rel with
  | last holds => exact holds
  | step holds restRel ih =>
    simp only [Spine.afterNext]
    split
    · exact ih
    · exact restRel.first

theorem Rel.setFirst (holds : R child related) :
    (spine.setFirst child).Rel R (other.setFirst related) := by
  cases rel with
  | last _ => exact .last holds
  | step _ restRel => exact .step holds restRel

end

theorem Rel.setFocus (before : E → Bool) (rel : spine.Rel R other) (holds : R child related) :
    (spine.setFocus before child).Rel R (other.setFocus before related) := by
  induction rel with
  | last _ => exact .last holds
  | step old restRel ih =>
    simp only [Spine.setFocus]
    split
    · exact .step old ih
    · exact .step holds restRel

variable (rel : spine.Rel R other) {right' : D}
include rel

theorem Rel.setNext (entry : E) :
    (spine.setNext before entry).Rel R (other.setNext before entry) := by
  induction rel with
  | last old => exact .last old
  | step old restRel ih =>
    simp only [Spine.setNext]
    split
    · exact .step old ih
    · exact .step old restRel

theorem Rel.cut (holds : R child related) (rightHolds : R right right') :
    (spine.cut before child right).1.Rel R (other.cut before related right').1 ∧
      (spine.cut before child right).2.Rel R (other.cut before related right').2 := by
  induction rel with
  | last _ => exact ⟨.last holds, .last rightHolds⟩
  | step old restRel ih =>
    simp only [Spine.cut]
    split
    · exact ⟨.step old ih.1, ih.2⟩
    · exact ⟨.last holds, .step rightHolds restRel⟩

theorem Rel.insert (holds : R child related) (entry : E) (rightHolds : R right right') :
    (spine.insert before child entry right).Rel R
      (other.insert before related entry right') := by
  induction rel with
  | last _ => exact .step holds (.last rightHolds)
  | step old restRel ih =>
    simp only [Spine.insert]
    split
    · exact .step old ih
    · exact .step holds (.step rightHolds restRel)

theorem Rel.removeNext (holds : R child related) :
    (spine.removeNext before child).Rel R (other.removeNext before related) := by
  induction rel with
  | last old => exact .last old
  | step old restRel ih =>
    simp only [Spine.removeNext]
    split
    · exact .step old ih
    · exact restRel.setFirst holds

theorem Rel.glue (rel' : spine'.Rel R other') (holds : R child related) :
    (spine.glue child spine').Rel R (other.glue related other') := by
  induction rel with
  | last _ => exact rel'.setFirst holds
  | step old _ ih => exact .step old ih

end Rel

end Spine

end Peridot
