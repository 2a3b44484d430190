import Peridot.LeveledTreeShape

/-!
# Whole leveled trees

A tree is a slot together with its height.  Inserting a key whose level is not
below the height makes a new root; erasing never lowers the height.  A tidy tree
whose top node has an entry is determined by its contents.
-/

namespace Peridot

open KeyedList Slot

structure LeveledTree (E : Type) where
  height : Nat
  slot : Slot E height

namespace LeveledTree

variable {E K : Type}

def contents (tree : LeveledTree E) : List E :=
  tree.slot.contents tree.height

def isNull (tree : LeveledTree E) : Bool :=
  tree.slot.isNull tree.height

/-- The tree has the shape of its grade, from its root on. -/
def Shaped (level : E → Nat) (grade : Grade) (tree : LeveledTree E) : Prop :=
  tree.slot.Shaped level tree.height grade
deriving Decidable

def single (level : Nat) (entry : E) : LeveledTree E :=
  ⟨level + 1, .node (Slot.single level entry)⟩

/-- A root of level `level` with one entry between two lower subtrees. -/
def crown {n : Nat} (level : Nat) (higher : n ≤ level) (left : Slot E n) (entry : E)
    (right : Slot E n) : LeveledTree E :=
  ⟨level + 1, .node (.step (left.raise higher) entry (.last (right.raise higher)))⟩

def empty : LeveledTree E :=
  ⟨1, .node (.last (.null 0))⟩

def storedForm (tree : LeveledTree E) : LeveledTree E :=
  if tree.isNull then empty else tree

variable [LinearOrder K] (key : E → K)

def upsert (level : Nat) (entry : E) (tree : LeveledTree E) : LeveledTree E :=
  if tree.isNull then single level entry
  else if higher : tree.height ≤ level then
    let halves := tree.slot.split key (key entry) tree.height
    crown level higher halves.1 entry halves.2
  else ⟨tree.height, tree.slot.upsert key level entry tree.height⟩

def erase (level : Nat) (k : K) (tree : LeveledTree E) : LeveledTree E :=
  if tree.height ≤ level then tree
  else ⟨tree.height, (tree.slot.erase key level k tree.height).getD tree.slot⟩

variable {key} {level : K → Nat} {grade : Grade} {tree : LeveledTree E} {entry : E} {k : K}

omit [LinearOrder K] in
theorem contents_of_isNull (null : tree.isNull = true) : tree.contents = [] := by
  obtain ⟨height, slot⟩ := tree
  rw [contents, eq_null_of_isNull null]
  exact contents_null height

omit [LinearOrder K] in
@[simp]
theorem contents_single (low : Nat) (entry : E) : (single low entry).contents = [entry] :=
  Slot.contents_single entry

omit [LinearOrder K] in
@[simp]
theorem contents_storedForm (tree : LeveledTree E) : tree.storedForm.contents = tree.contents := by
  by_cases null : tree.isNull = true
  · rw [storedForm, if_pos null, contents_of_isNull null]
    rfl
  · rw [storedForm, if_neg null]

omit [LinearOrder K] in
theorem shaped_storedForm {level : E → Nat} (notTidy : grade ≠ .tidy)
    (shaped : tree.Shaped level grade) : tree.storedForm.Shaped level grade := by
  by_cases null : tree.isNull = true
  · rw [storedForm, if_pos null]
    exact shaped_node.mpr ⟨fun isTidy => absurd isTidy notTidy, shaped_null 0⟩
  · rwa [storedForm, if_neg null]

omit [LinearOrder K] in
theorem Shaped.level_lt {level : E → Nat} (shaped : tree.Shaped level grade) {item : E}
    (member : item ∈ tree.contents) : level item < tree.height :=
  Slot.Shaped.level_lt shaped member

theorem contents_crown {n low : Nat} {higher : n ≤ low} {slot : Slot E n}
    (sorted : Sorted key (slot.contents n)) (absent : ∀ item ∈ slot.contents n, key item ≠ k) :
    (crown low higher (slot.split key k n).1 entry (slot.split key k n).2).contents =
      replaceAt key k [entry] (slot.contents n) := by
  obtain ⟨leftContents, rightContents⟩ := contents_split sorted absent
  simp [crown, contents, Spine.flatten, leftContents, rightContents, replaceAt]

theorem contents_upsert (level : K → Nat) (sorted : Sorted key tree.contents)
    (shaped : tree.Shaped (fun entry => level (key entry)) grade) :
    (tree.upsert key (level (key entry)) entry).contents =
      replaceAt key (key entry) [entry] tree.contents := by
  unfold upsert
  split
  · rename_i null
    rw [contents_of_isNull null]
    exact Slot.contents_single entry
  · split
    · rename_i higher
      refine contents_crown sorted fun item member same => ?_
      have below := shaped.level_lt member
      simp only [same] at below
      omega
    · rename_i fits
      exact Slot.contents_upsert sorted shaped (not_le.mp fits)

theorem contents_erase (level : K → Nat) (sorted : Sorted key tree.contents)
    (shaped : tree.Shaped (fun entry => level (key entry)) grade) :
    (tree.erase key (level k) k).contents = replaceAt key k [] tree.contents := by
  unfold erase
  split
  · rename_i higher
    refine (replaceAt_nil_of_absent sorted fun item member same => ?_).symm
    have below := shaped.level_lt member
    simp only [same] at below
    omega
  · rename_i fits
    exact Slot.contents_erase sorted shaped (not_le.mp fits)

theorem shaped_upsert {level : E → Nat} (shaped : tree.Shaped level grade) :
    (tree.upsert key (level entry) entry).Shaped level grade := by
  unfold upsert
  split
  · exact shaped_single rfl
  · split
    · rename_i higher
      obtain ⟨left, right⟩ := shaped_split (key entry) shaped
      exact shaped_node.mpr ⟨fun _ => rfl, shaped_raise _ left, rfl, shaped_raise _ right⟩
    · rename_i fits
      exact Slot.shaped_upsert shaped (not_le.mp fits)

theorem shaped_erase {level : E → Nat} (low : Nat) (k : K) (shaped : tree.Shaped level grade) :
    (tree.erase key low k).Shaped level grade := by
  unfold erase
  split
  · exact shaped
  · simp only [Shaped]
    cases done : tree.slot.erase key low k tree.height with
    | none => exact shaped
    | some erased => exact Slot.shaped_erase shaped done

theorem upsert_same (level : K → Nat) (sorted : Sorted key tree.contents)
    (shaped : tree.Shaped (fun entry => level (key entry)) grade)
    (present : entry ∈ tree.contents) : tree.upsert key (level (key entry)) entry = tree := by
  have fits : ¬tree.height ≤ level (key entry) := (shaped.level_lt present).not_ge
  have solid : ¬tree.isNull = true := by
    intro null
    rw [contents_of_isNull null] at present
    exact List.not_mem_nil present
  have same : tree.slot.upsert key (level (key entry)) entry tree.height = tree.slot :=
    Slot.upsert_same sorted shaped present
  rw [upsert, if_neg solid, dif_neg fits, same]

theorem erase_of_absent (low : Nat) (absent : ∀ item ∈ tree.contents, key item ≠ k) :
    tree.erase key low k = tree := by
  have nothing : tree.slot.erase key low k tree.height = none := Slot.erase_of_absent low absent
  rw [erase, nothing]
  exact ite_id _

end LeveledTree

namespace Slot

variable {E : Type} {level : E → Nat} {n : Nat}

theorem isNull_of_contents_eq_nil {slot : Slot E n} (tidy : Shaped level n .tidy slot)
    (empty : contents n slot = []) : isNull n slot = true := by
  induction n with
  | zero => rfl
  | succ n ih =>
    cases slot using succCases with
    | null => exact isNull_null _
    | node spine =>
      obtain ⟨notBare, all⟩ := shaped_node.mp tidy
      cases spine with
      | last child =>
        have bare : isBare (.last child) = true := ih all empty
        rw [notBare rfl] at bare
        exact absurd bare Bool.false_ne_true
      | step child entry rest => simp [Spine.flatten] at empty

/-- Two lists that agree around their first entry of the top level. -/
theorem append_cons_inj {first second tail rest : List E} {top other : E}
    (firstLow : ∀ item ∈ first, level item < n) (secondLow : ∀ item ∈ second, level item < n)
    (topLevel : level top = n) (otherLevel : level other = n)
    (same : first ++ top :: tail = second ++ other :: rest) :
    first = second ∧ top = other ∧ tail = rest := by
  induction first generalizing second with
  | nil =>
    cases second with
    | nil => simpa using same
    | cons item items =>
      have topSame : top = item := (List.cons.inj same).1
      have low := secondLow item (by simp)
      rw [← topSame, topLevel] at low
      exact absurd low (lt_irrefl n)
  | cons item items ih =>
    cases second with
    | nil =>
      have otherSame : item = other := (List.cons.inj same).1
      have low := firstLow item (by simp)
      rw [otherSame, otherLevel] at low
      exact absurd low (lt_irrefl n)
    | cons item' items' =>
      obtain ⟨itemSame, restSame⟩ := List.cons.inj same
      obtain ⟨itemsSame, topSame, tailSame⟩ :=
        ih (fun item member => firstLow item (by simp [member]))
          (fun item member => secondLow item (by simp [member])) restSame
      exact ⟨by rw [itemSame, itemsSame], topSame, tailSame⟩

/-- The entries of the top level cut the contents into the contents of the children. -/
theorem spine_eq_of_flatten_eq {first second : Spine (Slot E n) E}
    (children : ∀ {one two : Slot E n}, Shaped level n .tidy one → Shaped level n .tidy two →
      contents n one = contents n two → one = two)
    (firstAll : first.All (fun entry => level entry = n) (Shaped level n .tidy)
      (Shaped level n .tidy))
    (secondAll : second.All (fun entry => level entry = n) (Shaped level n .tidy)
      (Shaped level n .tidy))
    (same : first.flatten (contents n) = second.flatten (contents n)) : first = second := by
  induction first generalizing second with
  | last child =>
    cases second with
    | last other => rw [children firstAll secondAll same]
    | step other entry rest =>
      have low : level entry < n :=
        Shaped.level_lt firstAll (by simp [Spine.flatten] at same; simp [same])
      rw [secondAll.2.1] at low
      exact absurd low (lt_irrefl n)
  | step child entry rest ih =>
    cases second with
    | last other =>
      have low : level entry < n :=
        Shaped.level_lt secondAll (by simp [Spine.flatten] at same; simp [← same])
      rw [firstAll.2.1] at low
      exact absurd low (lt_irrefl n)
    | step other entry' rest' =>
      obtain ⟨childSame, entrySame, restSame⟩ :=
        append_cons_inj (fun _ member => firstAll.1.level_lt member)
          (fun _ member => secondAll.1.level_lt member) firstAll.2.1 secondAll.2.1 same
      rw [children firstAll.1 secondAll.1 childSame, entrySame,
        ih firstAll.2.2 secondAll.2.2 restSame]

theorem eq_of_contents_eq {first second : Slot E n} (firstTidy : Shaped level n .tidy first)
    (secondTidy : Shaped level n .tidy second)
    (same : contents n first = contents n second) : first = second := by
  induction n with
  | zero => rfl
  | succ n ih =>
    cases first using succCases with
    | null =>
      rw [contents_null] at same
      exact (eq_null_of_isNull (isNull_of_contents_eq_nil secondTidy same.symm)).symm
    | node first =>
      cases second using succCases with
      | null =>
        rw [contents_null] at same
        exact eq_null_of_isNull (isNull_of_contents_eq_nil firstTidy same)
      | node second => rw [spine_eq_of_flatten_eq ih firstTidy.all secondTidy.all same]

end Slot

namespace LeveledTree

variable {E K : Type} {level : E → Nat} {tree : LeveledTree E}

def Crowned (level : E → Nat) (tree : LeveledTree E) : Prop :=
  ∃ item ∈ tree.contents, level item + 1 = tree.height

theorem eq_of_contents_eq {first second : LeveledTree E}
    (firstTidy : first.Shaped level .tidy) (secondTidy : second.Shaped level .tidy)
    (firstCrowned : first.Crowned level) (secondCrowned : second.Crowned level)
    (same : first.contents = second.contents) : first = second := by
  obtain ⟨top, topMem, topHeight⟩ := firstCrowned
  obtain ⟨top', topMem', topHeight'⟩ := secondCrowned
  have upper : level top < second.height := secondTidy.level_lt (same ▸ topMem)
  have upper' : level top' < first.height := firstTidy.level_lt (same ▸ topMem')
  have heights : first.height = second.height := by omega
  obtain ⟨height, slot⟩ := first
  obtain ⟨height', slot'⟩ := second
  obtain rfl : height = height' := heights
  have slots : slot = slot' := Slot.eq_of_contents_eq firstTidy secondTidy same
  rw [slots]

end LeveledTree

end Peridot
