import Peridot.LeveledTree

/-!
# Shape and contents of leveled trees

A leveled tree is `Shaped` when every entry sits in a node of the level of its
key.  Two further grades restrict the nodes without entries and children: a
`tidy` tree has none, a `trimmed` tree has none that is followed by an entry.
All operations keep all three grades, and each of them changes the contents of
the tree at one key only.
-/

namespace Peridot

open KeyedList Spine Option

/-- How strictly nodes without entries and without children are ruled out. -/
inductive Grade where
  | loose
  | trimmed
  | tidy
deriving DecidableEq

def Grade.inner : Grade → Grade
  | .loose => .loose
  | .trimmed => .tidy
  | .tidy => .tidy

@[simp]
theorem Grade.inner_inner (grade : Grade) : grade.inner.inner = grade.inner := by
  cases grade <;> rfl

namespace Slot

variable {E K : Type} {entry : E} {m : Nat}

def Shaped (level : E → Nat) : (n : Nat) → Grade → Slot E n → Prop
  | 0, _, _ => True
  | n + 1, grade, slot =>
    ∀ spine, toNode slot = some spine →
      (grade = .tidy → isBare spine = false) ∧
        spine.All (fun entry => level entry = n) (Shaped level n grade.inner)
          (Shaped level n grade)

instance Shaped.decidable {level : E → Nat} : (n : Nat) → (grade : Grade) →
    DecidablePred (Shaped level n grade)
  | 0, _, _ => .isTrue trivial
  | n + 1, grade, slot =>
    have (grade : Grade) : DecidablePred (Shaped level n grade) := Shaped.decidable n grade
    match slot with
    | none => .isTrue nofun
    | some spine =>
      decidable_of_iff ((grade = .tidy → isBare spine = false) ∧
        spine.All (fun entry => level entry = n) (Shaped level n grade.inner)
          (Shaped level n grade))
        ⟨fun | holds, _, rfl => holds, fun holds => holds spine rfl⟩

section Shaped

variable {level : E → Nat} {n : Nat} {grade : Grade}

@[simp]
theorem shaped_null (n : Nat) : Shaped level n grade (null n) := by
  cases n with
  | zero => exact trivial
  | succ n =>
    intro spine found
    simp at found

variable {spine : Spine (Slot E n) E}

theorem shaped_node : Shaped level (n + 1) grade (node spine) ↔
    (grade = .tidy → isBare spine = false) ∧
      spine.All (fun entry => level entry = n) (Shaped level n grade.inner)
        (Shaped level n grade) := by
  simp [Shaped]

theorem Shaped.all (shaped : Shaped level (n + 1) grade (node spine)) :
    spine.All (fun entry => level entry = n) (Shaped level n grade.inner) (Shaped level n grade) :=
  (shaped_node.mp shaped).2

variable {slot : Slot E n}

/-- What is asked of an inner child is enough for any child. -/
theorem Shaped.of_inner (shaped : Shaped level n grade.inner slot) : Shaped level n grade slot := by
  induction n with
  | zero => exact trivial
  | succ n ih =>
    cases slot using succCases with
    | null => exact shaped_null _
    | node spine =>
      obtain ⟨notBare, all⟩ := shaped_node.mp shaped
      refine shaped_node.mpr ⟨?_, all.imp (fun _ holds => holds) ?_ fun _ => ih⟩
      · intro isTidy
        exact notBare (by rw [isTidy]; rfl)
      · intro child holds
        rwa [Grade.inner_inner] at holds

theorem shaped_normal (all : spine.All (fun entry => level entry = n) (Shaped level n grade.inner)
      (Shaped level n grade)) : Shaped level (n + 1) grade (normal spine) := by
  by_cases bare : isBare spine = true
  · rw [normal_of_isBare bare]
    exact shaped_null _
  · rw [normal_of_not_isBare bare]
    exact shaped_node.mpr ⟨fun _ => by simpa using bare, all⟩

theorem shaped_raise (higher : n ≤ m) (shaped : Shaped level n grade slot) :
    Shaped level m grade (raise higher slot) := by
  induction m, higher using Nat.le_induction with
  | base => rwa [raise_self]
  | succ m higher ih =>
    rw [raise_succ higher]
    exact shaped_normal ih

theorem shaped_single (atLevel : level entry = n) :
    Shaped level (n + 1) grade (node (single n entry)) :=
  shaped_node.mpr ⟨fun _ => rfl, shaped_null n, atLevel, shaped_null n⟩

theorem isNull_merge (left right : Slot E n) :
    isNull n (merge n left right) = (isNull n left && isNull n right) := by
  cases n with
  | zero => rfl
  | succ n =>
    cases left using succCases with
    | null => simp
    | node left => cases right using succCases <;> simp

theorem isBare_glue {left right : Spine (Slot E n) E} (leftBare : isBare left = false)
    (rightBare : isBare right = false) :
    isBare (left.glue (merge n left.final right.first) right) = false := by
  cases left with
  | step child entry rest => rfl
  | last child =>
    cases right with
    | step other entry rest => rfl
    | last other =>
      simp only [isBare] at leftBare rightBare
      simp [glue, setFirst, isBare, isNull_merge, final, first, leftBare]

/-- The right one of two merged subtrees decides the grade at the end. -/
theorem shaped_merge {left right : Slot E n} (leftShaped : Shaped level n grade.inner left)
    (rightShaped : Shaped level n grade right) : Shaped level n grade (merge n left right) := by
  induction n generalizing grade with
  | zero => exact trivial
  | succ n ih =>
    cases left using succCases with
    | null => exact rightShaped
    | node left =>
      cases right using succCases with
      | null => exact leftShaped.of_inner
      | node right =>
        have leftAll := leftShaped.all
        rw [Grade.inner_inner] at leftAll
        rw [merge_node]
        refine shaped_node.mpr ⟨?_, leftAll.glue rightShaped.all ?_ ih⟩
        · intro isTidy
          have leftBare := (shaped_node.mp leftShaped).1 (by rw [isTidy]; rfl)
          have rightBare := (shaped_node.mp rightShaped).1 isTidy
          exact isBare_glue leftBare rightBare
        · intro final first
          exact ih (by rwa [Grade.inner_inner]) first

variable {before : E → Bool}

/-- Cutting a focused child in two, when cutting keeps the shape of subtrees. -/
theorem shaped_halves {cut : Slot E n → Slot E n × Slot E n}
    (keeps : ∀ {grade : Grade} {slot : Slot E n}, Shaped level n grade slot →
      Shaped level n grade.inner (cut slot).1 ∧ Shaped level n grade (cut slot).2)
    (all : spine.All (fun entry => level entry = n) (Shaped level n grade.inner)
      (Shaped level n grade)) : Shaped level n grade.inner (cut (spine.focus before)).1 ∧
      (Shaped level n grade.inner (spine.focus before) →
        Shaped level n grade.inner (cut (spine.focus before)).2) ∧
      (Shaped level n grade (spine.focus before) →
        Shaped level n grade (cut (spine.focus before)).2) := by
  refine ⟨?_, fun holds => (keeps holds).2, fun holds => (keeps holds).2⟩
  rcases all.focus with inner | outer
  · exact (keeps inner.of_inner).1
  · exact (keeps outer).1

variable [LinearOrder K] {key : E → K}

/-- A split leaves nothing after the left part, so that part is inner. -/
theorem shaped_split (k : K) (shaped : Shaped level n grade slot) :
    Shaped level n grade.inner (split key k n slot).1 ∧
      Shaped level n grade (split key k n slot).2 := by
  induction n generalizing grade with
  | zero => exact ⟨trivial, trivial⟩
  | succ n ih =>
    cases slot using succCases with
    | null => exact ⟨shaped_null _, shaped_null _⟩
    | node spine =>
      by_cases bare : isBare spine = true
      · rw [split_of_isBare k bare]
        exact ⟨shaped_null _, shaped⟩
      · obtain ⟨left, inner, outer⟩ :=
          shaped_halves ih shaped.all
        rw [split_node bare]
        refine ⟨shaped_normal ?_, shaped_normal (shaped.all.cut_right inner outer)⟩
        rw [Grade.inner_inner]
        exact shaped.all.cut_left left

omit [LinearOrder K] in
theorem isBare_setFocus {child : Slot E n} (solid : isNull n child = false) :
    isBare (spine.setFocus before child) = false := by
  cases spine with
  | last old => exact solid
  | step old entry rest =>
    simp only [setFocus]
    split <;> rfl

omit [LinearOrder K] in
theorem isBare_insert (spine : Spine (Slot E n) E) (before : E → Bool) (left right : Slot E n)
    (entry : E) : isBare (spine.insert before left entry right) = false := by
  cases spine with
  | last old => rfl
  | step old other rest =>
    simp only [Spine.insert]
    split <;> rfl

omit [LinearOrder K] in
theorem isBare_setNext {found : E} (present : spine.next before = some found) :
    isBare (spine.setNext before entry) = false := by
  cases spine with
  | last old => simp [next] at present
  | step old other rest =>
    simp only [setNext]
    split <;> rfl

omit [LinearOrder K] in
theorem isNull_raise (higher : n ≤ m) (slot : Slot E n) :
    isNull m (raise higher slot) = isNull n slot := by
  induction m, higher using Nat.le_induction with
  | base => rw [raise_self]
  | succ m higher ih =>
    rw [raise_succ higher, ← ih, wrap]
    by_cases bare : isBare (.last (raise higher slot)) = true
    · rw [normal_of_isBare bare, isNull_null]
      exact bare.symm
    · rw [normal_of_not_isBare bare, isNull_node]
      exact (Bool.eq_false_iff.mpr bare).symm

theorem isNull_upsert {low : Nat} (entry : E) (fits : low < n) (slot : Slot E n) :
    isNull n (upsert key low entry n slot) = false := by
  cases n with
  | zero => omega
  | succ n =>
    cases slot using succCases with
    | null => rw [upsert_null fits, isNull_raise, isNull_node]
    | node spine =>
      by_cases lower : low < n
      · rw [upsert_lower lower, isNull_node]
      · by_cases present : (spine.next (beforeKey key (key entry))).map key = some (key entry)
        · rw [upsert_present lower present, isNull_node]
        · rw [upsert_absent lower present, isNull_node]

theorem shaped_upsert (shaped : Shaped level n grade slot) (fits : level entry < n) :
    Shaped level n grade (upsert key (level entry) entry n slot) := by
  induction n generalizing grade with
  | zero => exact trivial
  | succ n ih =>
    cases slot using succCases with
    | null =>
      rw [upsert_null fits]
      exact shaped_raise _ (shaped_single rfl)
    | node spine =>
      by_cases lower : level entry < n
      · rw [upsert_lower lower]
        exact shaped_node.mpr ⟨fun _ => isBare_setFocus (isNull_upsert entry lower _),
          shaped.all.setFocus (fun holds => ih holds lower) fun holds => ih holds lower⟩
      · have atLevel : level entry = n := by omega
        by_cases present : (spine.next (beforeKey key (key entry))).map key = some (key entry)
        · obtain ⟨found, isNext, -⟩ := map_eq_some_iff.mp present
          rw [upsert_present lower present]
          exact shaped_node.mpr ⟨fun _ => isBare_setNext isNext, shaped.all.setNext atLevel⟩
        · obtain ⟨left, inner, outer⟩ := shaped_halves
            (shaped_split (key entry)) shaped.all
          rw [upsert_absent lower present]
          exact shaped_node.mpr
            ⟨fun _ => isBare_insert _ _ _ _ _, shaped.all.insert left atLevel inner outer⟩

theorem shaped_erase {low : Nat} {k : K} {erased : Slot E n}
    (shaped : Shaped level n grade slot) (done : erase key low k n slot = some erased) :
    Shaped level n grade erased := by
  induction n generalizing grade with
  | zero => exact trivial
  | succ n ih =>
    cases slot using succCases with
    | null => simp at done
    | node spine =>
      by_cases lower : low < n
      · rw [erase_lower lower] at done
        obtain ⟨child, childDone, rfl⟩ := map_eq_some_iff.mp done
        exact shaped_normal (shaped.all.setFocus (fun holds => ih holds childDone)
          fun holds => ih holds childDone)
      · by_cases present : (spine.next (beforeKey key k)).map key = some k
        · rw [erase_present lower present] at done
          cases done
          exact shaped_normal (shaped.all.removeNext
            (fun before after => shaped_merge (by rwa [Grade.inner_inner]) after)
            shaped_merge)
        · simp [erase_absent lower present] at done

omit [LinearOrder K] in
theorem Shaped.level_lt (shaped : Shaped level n grade slot) {item : E}
    (member : item ∈ contents n slot) : level item < n := by
  induction n generalizing grade item with
  | zero => simp [contents] at member
  | succ n ih =>
    cases slot using succCases with
    | null => simp at member
    | node spine =>
      exact shaped.all.flatten (R := fun item => level item < n + 1)
        (fun _ same => by omega)
        (fun _ holds _ inChild => Nat.lt_succ_of_lt (ih holds inChild))
        (fun _ holds _ inChild => Nat.lt_succ_of_lt (ih holds inChild)) member

end Shaped

section Contents

variable {n : Nat} {spine : Spine (Slot E n) E}

theorem contents_of_isBare (bare : isBare spine = true) : spine.flatten (contents n) = [] := by
  cases spine with
  | last child =>
    rw [eq_null_of_isNull bare]
    exact contents_null n
  | step child entry rest => simp [isBare] at bare

@[simp]
theorem contents_normal (spine : Spine (Slot E n) E) :
    contents (n + 1) (normal spine) = spine.flatten (contents n) := by
  by_cases bare : isBare spine = true
  · rw [normal_of_isBare bare, contents_of_isBare bare, contents_null]
  · rw [normal_of_not_isBare bare, contents_node]

@[simp]
theorem contents_raise (higher : n ≤ m) (slot : Slot E n) :
    contents m (raise higher slot) = contents n slot := by
  induction m, higher using Nat.le_induction with
  | base => rw [raise_self]
  | succ m higher ih =>
    rw [raise_succ higher, wrap, contents_normal]
    exact ih

@[simp]
theorem contents_single (entry : E) : contents (n + 1) (node (single n entry)) = [entry] := by
  simp [single, flatten]

theorem contents_merge (left right : Slot E n) :
    contents n (merge n left right) = contents n left ++ contents n right := by
  induction n with
  | zero => rfl
  | succ n ih =>
    cases left using succCases with
    | null => simp
    | node left =>
      cases right using succCases with
      | null => simp
      | node right => exact flatten_glue left right _ (ih left.final right.first)

variable [LinearOrder K] {key : E → K} {level : K → Nat} {grade : Grade} {k : K} {slot : Slot E n}

theorem contents_split (sorted : Sorted key (contents n slot))
    (absent : ∀ item ∈ contents n slot, key item ≠ k) :
    contents n (split key k n slot).1 = below key k (contents n slot) ∧
      contents n (split key k n slot).2 = above key k (contents n slot) := by
  induction n with
  | zero => exact ⟨rfl, rfl⟩
  | succ n ih =>
    cases slot using succCases with
    | null => simp
    | node spine =>
      by_cases bare : isBare spine = true
      · simp [split_of_isBare k bare, contents_of_isBare bare]
      · rw [contents_node] at sorted absent
        obtain ⟨leftContents, rightContents⟩ := ih (sorted_focus sorted (beforeKey key k))
            fun item member => absent item (mem_flatten_of_mem_focus member)
        simp only [split_node bare, contents_normal]
        exact flatten_cut sorted
          (fun entry found => absent entry (mem_flatten_of_next found))
          leftContents rightContents

theorem next_ne_of_lower
    (shaped : Shaped (fun entry => level (key entry)) (n + 1) grade (node spine))
    (lower : level k < n) : ∀ entry ∈ spine.next (beforeKey key k), key entry ≠ k := by
  intro entry found same
  have atLevel : level (key entry) = n := shaped.all.next found
  rw [same] at atLevel
  omega

theorem absent_of_next_ne (sorted : Sorted key (contents (n + 1) (node spine)))
    (shaped : Shaped (fun entry => level (key entry)) (n + 1) grade (node spine))
    (atLevel : level k = n) (notNext : ¬(spine.next (beforeKey key k)).map key = some k) :
    ∀ item ∈ contents (n + 1) (node spine), key item ≠ k := by
  intro item member same
  rcases mem_focus_or_next sorted member same with inFocus | isNext
  · have below : level (key item) < n := by
      rcases shaped.all.focus with inner | outer
      · exact inner.level_lt inFocus
      · exact outer.level_lt inFocus
    rw [same] at below
    omega
  · exact notNext (by rw [isNext, map_some, same])

section

variable (sorted : KeyedList.Sorted key (contents n slot))
include sorted

variable (shaped : Shaped (fun entry => level (key entry)) n grade slot)
include shaped

theorem contents_upsert (fits : level (key entry) < n) :
    contents n (upsert key (level (key entry)) entry n slot) =
      replaceAt key (key entry) [entry] (contents n slot) := by
  induction n generalizing grade with
  | zero => omega
  | succ n ih =>
    cases slot using succCases with
    | null =>
      rw [upsert_null fits, contents_raise, contents_single, contents_null]
      rfl
    | node spine =>
      by_cases lower : level (key entry) < n
      · rw [upsert_lower lower, contents_node, contents_node]
        refine flatten_setFocus_replaceAt sorted (next_ne_of_lower shaped lower) ?_
        have focusSorted := sorted_focus sorted (beforeKey key (key entry))
        rcases shaped.all.focus
          with inner | outer
        · exact ih focusSorted inner lower
        · exact ih focusSorted outer lower
      · have atLevel : level (key entry) = n := by omega
        by_cases present : (spine.next (beforeKey key (key entry))).map key = some (key entry)
        · obtain ⟨old, found, oldKey⟩ := map_eq_some_iff.mp present
          rw [upsert_present lower present]
          exact flatten_setNext sorted found oldKey
        · have absent := absent_of_next_ne sorted shaped atLevel present
          have focusSorted := sorted_focus sorted (beforeKey key (key entry))
          obtain ⟨leftContents, rightContents⟩ := contents_split focusSorted
            fun item member => absent item (mem_flatten_of_mem_focus member)
          obtain ⟨belowContents, aboveContents⟩ := flatten_cut sorted
            (fun entry found => absent entry (mem_flatten_of_next found))
            leftContents rightContents
          rw [upsert_absent lower present, contents_node, flatten_insert_eq_cut,
            belowContents, aboveContents]
          simp [replaceAt]

theorem contents_erase (fits : level k < n) :
    contents n ((erase key (level k) k n slot).getD slot) =
      replaceAt key k [] (contents n slot) := by
  induction n generalizing grade with
  | zero => omega
  | succ n ih =>
    cases slot using succCases with
    | null => simp [replaceAt]
    | node spine =>
      by_cases lower : level k < n
      · have focusErased : contents n
            ((erase key (level k) k n (spine.focus (beforeKey key k))).getD
              (spine.focus (beforeKey key k))) =
            replaceAt key k [] (contents n (spine.focus (beforeKey key k))) := by
          have focusSorted := sorted_focus sorted (beforeKey key k)
          rcases shaped.all.focus with inner | outer
          · exact ih focusSorted inner lower
          · exact ih focusSorted outer lower
        have replaced := flatten_setFocus_replaceAt sorted
          (next_ne_of_lower shaped lower) focusErased
        rw [erase_lower lower, contents_node, ← replaced]
        cases erase key (level k) k n (spine.focus (beforeKey key k)) with
        | none => simp [setFocus_focus]
        | some child => simp
      · have atLevel : level k = n := by omega
        by_cases present : (spine.next (beforeKey key k)).map key = some k
        · obtain ⟨old, found, oldKey⟩ := map_eq_some_iff.mp present
          rw [erase_present lower present, getD_some, contents_normal]
          exact flatten_removeNext sorted found oldKey (contents_merge _ _)
        · rw [erase_absent lower present, getD_none]
          exact (replaceAt_nil_of_absent sorted
            (absent_of_next_ne sorted shaped atLevel present)).symm

theorem upsert_same (present : entry ∈ contents n slot) :
    upsert key (level (key entry)) entry n slot = slot := by
  induction n generalizing grade with
  | zero => rfl
  | succ n ih =>
    cases slot using succCases with
    | null => simp at present
    | node spine =>
      rcases mem_focus_or_next sorted present rfl with inFocus | isNext
      · have focusSorted := sorted_focus sorted (beforeKey key (key entry))
        have below : level (key entry) < n ∧ upsert key (level (key entry)) entry n
              (spine.focus (beforeKey key (key entry))) =
                spine.focus (beforeKey key (key entry)) := by
          rcases shaped.all.focus with inner | outer
          · exact ⟨inner.level_lt inFocus, ih focusSorted inner inFocus⟩
          · exact ⟨outer.level_lt inFocus, ih focusSorted outer inFocus⟩
        rw [upsert_lower below.1, below.2, setFocus_focus]
      · have atLevel : level (key entry) = n := shaped.all.next isNext
        rw [upsert_present atLevel.not_lt (by rw [isNext, map_some]), setNext_next spine isNext]

end

theorem erase_of_absent (low : ℕ) (absent : ∀ item ∈ contents n slot, key item ≠ k) :
    erase key low k n slot = none := by
  induction n with
  | zero => rfl
  | succ n ih =>
    cases slot using succCases with
    | null => rfl
    | node spine =>
      by_cases lower : low < n
      · rw [erase_lower lower, ih fun item inFocus =>
          absent item (mem_flatten_of_mem_focus inFocus), map_none]
      · refine erase_absent lower fun present => ?_
        obtain ⟨item, isNext, isKey⟩ := map_eq_some_iff.mp present
        exact absent item (mem_flatten_of_next isNext) isKey

end Contents

end Slot

end Peridot
