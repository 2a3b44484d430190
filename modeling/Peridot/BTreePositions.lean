import Peridot.BTreeIterator

/-!
# The positions of an iterator

The positions that an iterator on a stored tree still has to visit.  `Advance`
drops the first of them, `SkipNextSubTree` all up to the end of the next child.
-/

namespace Peridot

open List Spine TreeNode Position

variable {identifier : ObjectIdentifier} {node : TreeNode}
    {inner : Option ObjectIdentifier → List Position} {n : Nat} {entry : Entry}
    {slot : Slot Entry n}

namespace TreeNode

variable {read : NodeReader} {node : TreeNode}

def Sound (read : NodeReader) (node : TreeNode) : Prop :=
  node.InRange ∧ ∃ spine : Spine (Slot Entry node.level.toNat) Entry,
    node.spine.Rel (Stored read node.level.toNat) spine

def suffix (node : TreeNode) (index : Nat) : Spine (Option ObjectIdentifier) Entry :=
  Spine.ofList node.childAt index (node.entries.drop index)

theorem suffix_zero (node : TreeNode) : node.suffix 0 = node.spine :=
  rfl

theorem suffix_first (node : TreeNode) (index : Nat) :
    (node.suffix index).first = node.childAt index := by
  unfold suffix
  cases node.entries.drop index <;> rfl

variable {index : Nat}

theorem suffix_of_getElem? (found : node.entries[index]? = some entry) :
    node.suffix index = .step (node.childAt index) entry (node.suffix (index + 1)) := by
  obtain ⟨inBounds, rfl⟩ := List.getElem?_eq_some_iff.mp found
  rw [suffix, drop_eq_getElem_cons inBounds]
  rfl

theorem suffix_of_length_le (atEnd : node.entries.length ≤ index) :
    node.suffix index = .last (node.childAt index) := by
  rw [suffix, drop_eq_nil_of_le atEnd]
  rfl

theorem Sound.stored_child (sound : node.Sound read) (index : Nat) :
    ∃ slot, Stored read node.level.toNat (node.childAt index) slot := by
  obtain ⟨inRange, spine, rel⟩ := sound
  by_cases inside : index ≤ node.entries.length
  · obtain ⟨slot, stored⟩ := rel.exists_of_ofList inside
    rw [Nat.zero_add] at stored
    exact ⟨slot, stored⟩
  · rw [childAt_of_length_lt inRange (not_le.mp inside)]
    exact ⟨_, Stored.null _⟩

theorem Sound.stored_children (sound : node.Sound read) : ∀ child ∈ node.spine.children,
    ∃ slot, Stored read node.level.toNat child slot := by
  intro child member
  rw [children_spine, mem_map] at member
  obtain ⟨index, -, rfl⟩ := member
  exact sound.stored_child index

theorem sound_of_stored (stored : Stored read n (some identifier) slot) :
    ∃ root, read identifier = some root ∧ root.Sound read ∧ n = root.level.toNat + 1 := by
  cases n with
  | zero => exact absurd stored (by simp [Stored])
  | succ n =>
    obtain ⟨root, spine, found, -, level, inRange, rel⟩ := stored
    subst level
    exact ⟨root, found, ⟨inRange, spine, rel⟩, rfl⟩

theorem Sound.child (sound : node.Sound read) (found : node.childAt index = some identifier) :
    ∃ child, read identifier = some child ∧ child.Sound read ∧
      node.level.toNat = child.level.toNat + 1 := by
  obtain ⟨slot, stored⟩ := sound.stored_child index
  rw [found] at stored
  exact sound_of_stored stored

end TreeNode

namespace Position

variable {read : NodeReader}

theorem afterFirst_congr {inner' : Option ObjectIdentifier → List Position}
    {level : UInt8} {spine : Spine (Option ObjectIdentifier) Entry}
    (same : ∀ child ∈ spine.children, inner child = inner' child) :
    afterFirst inner level spine = afterFirst inner' level spine := by
  induction spine with
  | last child => rfl
  | step child entry rest ih =>
    rw [afterFirst, afterFirst, same rest.first (mem_cons_of_mem _ rest.first_mem),
      ih fun child member => same child (mem_cons_of_mem _ member)]

theorem belowHeight_of_stored {identifier : Option ObjectIdentifier}
    (stored : Stored read n identifier slot) :
    belowHeight read n identifier = below read identifier := by
  cases n with
  | zero =>
    rw [show identifier = none from stored]
    rfl
  | succ n =>
    cases identifier with
    | none => rfl
    | some identifier =>
      obtain ⟨node, spine, found, -, level, -⟩ := stored
      simp [belowHeight, below, found, level]

theorem below_some (found : read identifier = some node) (sound : node.Sound read) :
    below read (some identifier) = ofSpine (below read) node.level node.spine := by
  have children : ∀ child ∈ node.spine.children,
      belowHeight read node.level.toNat child = below read child := by
    intro child member
    obtain ⟨slot, stored⟩ := sound.stored_children child member
    exact belowHeight_of_stored stored
  simp only [below, found, ofSpine, children _ node.spine.first_mem, afterFirst_congr children]

end Position

namespace BTreeIterator

variable {read : NodeReader} {iterator : BTreeIterator} {outer : List (TreeNode × Nat)}
    {index : Nat} {newDescending descending : Bool}

def Valid (read : NodeReader) (iterator : BTreeIterator) : Prop :=
  ∀ frame ∈ iterator.stack, frame.1.Sound read ∧ frame.2 ≤ frame.1.entries.length

def framePositions (read : NodeReader) (frame : TreeNode × Nat) : List Position :=
  afterFirst (below read) frame.1.level (frame.1.suffix frame.2)

def current (iterator : BTreeIterator) : Position :=
  ⟨iterator.currentEntry?, iterator.getNextChild, iterator.getLevel⟩

def positions (read : NodeReader) (iterator : BTreeIterator) : List Position :=
  if iterator.descending && !iterator.finished then
    iterator.current :: (below read iterator.getNextChild ++
      iterator.stack.flatMap (framePositions read))
  else iterator.stack.flatMap (framePositions read)

theorem framePositions_ne_nil (frame : TreeNode × Nat) : framePositions read frame ≠ [] := by
  unfold framePositions
  cases frame.1.suffix frame.2 <;> simp [afterFirst]

theorem positions_eq_nil : iterator.positions read = [] ↔ iterator.finished = true := by
  obtain ⟨stack, descending⟩ := iterator
  cases stack with
  | nil => simp [positions, finished]
  | cons frame outer => cases descending <;> simp [positions, finished, framePositions_ne_nil]

theorem framePositions_of_getElem? (found : node.entries[index]? = some entry) :
    framePositions read (node, index) = ⟨some entry, node.childAt (index + 1), node.level⟩ ::
        ⟨none, node.childAt (index + 1), node.level⟩ ::
          (below read (node.childAt (index + 1)) ++
            framePositions read (node, index + 1)) := by
  rw [framePositions, suffix_of_getElem? found, afterFirst, suffix_first]
  rfl

theorem framePositions_of_length_le (atEnd : node.entries.length ≤ index) :
    framePositions read (node, index) = [⟨none, none, node.level⟩] := by
  rw [framePositions, suffix_of_length_le atEnd]
  rfl

theorem Valid.push (valid : iterator.Valid read) (sound : node.Sound read)
    (descending : Bool) : Valid read ⟨(node, 0) :: iterator.stack, descending⟩ := by
  intro frame member
  rcases mem_cons.mp member with rfl | inStack
  · exact ⟨sound, Nat.zero_le _⟩
  · exact valid frame inStack

theorem Valid.replace {newIndex : Nat} (valid : Valid read ⟨(node, index) :: outer, descending⟩)
    (inBounds : newIndex ≤ node.entries.length) :
    Valid read ⟨(node, newIndex) :: outer, newDescending⟩ := by
  intro frame member
  rcases mem_cons.mp member with rfl | inOuter
  · exact ⟨(valid (node, index) (by simp)).1, inBounds⟩
  · exact valid frame (by simp [inOuter])

theorem Valid.pop {frame : TreeNode × Nat} (valid : Valid read ⟨frame :: outer, descending⟩) :
    Valid read ⟨outer, newDescending⟩ :=
  fun frame member => valid frame (by simp [member])

theorem positions_enter (found : read identifier = some node) (sound : node.Sound read)
    (outer : List (TreeNode × Nat)) : positions read ⟨(node, 0) :: outer, true⟩ =
      below read (some identifier) ++ outer.flatMap (framePositions read) := by
  rw [below_some found sound, ofSpine, ← suffix_zero, suffix_first]
  simp [positions, finished, current, currentEntry?, getNextChild, getLevel, framePositions]

theorem advance_spec (valid : iterator.Valid read) (notFinished : iterator.finished = false) :
    ∃ moved, iterator.advance read = .ok moved ∧ moved.Valid read ∧
      iterator.positions read = iterator.current :: moved.positions read := by
  obtain ⟨stack, descending⟩ := iterator
  cases stack with
  | nil => simp [finished] at notFinished
  | cons frame outer =>
    obtain ⟨node, index⟩ := frame
    have sound : node.Sound read := (valid (node, index) (by simp)).1
    have inBounds : index ≤ node.entries.length := (valid (node, index) (by simp)).2
    cases descending with
    | true =>
      cases child : node.childAt index with
      | none =>
        refine ⟨⟨(node, index) :: outer, false⟩, ?_, valid.replace inBounds, ?_⟩
        · simp [advance, getNextChild, child]
          rfl
        · simp [positions, finished, getNextChild, child, below]
      | some identifier =>
        obtain ⟨childNode, found, childSound, -⟩ := sound.child child
        refine ⟨⟨(childNode, 0) :: (node, index) :: outer, true⟩, ?_,
          valid.push childSound true, ?_⟩
        · simp [advance, getNextChild, child, descend, NodeReader.treeNodeFromIdentifier, found]
        · rw [positions_enter found childSound]
          simp [positions, finished, getNextChild, child]
    | false =>
      cases entry : node.entries[index]? with
      | none =>
        have atEnd : node.entries.length ≤ index := getElem?_eq_none_iff.mp entry
        have noChild : node.childAt (index + 1) = none := childAt_of_length_lt sound.1 (by omega)
        refine ⟨⟨outer, false⟩, ?_, valid.pop, ?_⟩
        · have outside : ¬index + 1 ≤ node.entries.length := by omega
          exact if_neg outside
        · simp [positions, current, currentEntry?, getNextChild, getLevel, entry, noChild,
            framePositions_of_length_le atEnd]
      | some value =>
        have inside := (List.getElem?_eq_some_iff.mp entry).1
        refine ⟨⟨(node, index + 1) :: outer, true⟩, ?_, valid.replace inside, ?_⟩
        · exact if_pos inside
        · simp [positions, finished, current, currentEntry?, getNextChild, getLevel,
            entry, framePositions_of_getElem? entry]

theorem skipNextSubTree_spec (valid : iterator.Valid read) {child : ObjectIdentifier}
    (next : iterator.getNextChild = some child) : iterator.skipNextSubTree.Valid read ∧
      iterator.positions read = (if iterator.hasValue then [iterator.current] else []) ++
          ⟨none, some child, iterator.getLevel⟩ ::
            (below read (some child) ++ iterator.skipNextSubTree.positions read) := by
  obtain ⟨stack, descending⟩ := iterator
  cases stack with
  | nil => simp [getNextChild] at next
  | cons frame outer =>
    obtain ⟨node, index⟩ := frame
    have sound : node.Sound read := (valid (node, index) (by simp)).1
    have inBounds : index ≤ node.entries.length := (valid (node, index) (by simp)).2
    cases descending with
    | true =>
      have isChild : node.childAt index = some child := by simpa [getNextChild] using next
      refine ⟨valid.replace inBounds, ?_⟩
      simp [positions, finished, hasValue, current, currentEntry?, getNextChild, getLevel,
        skipNextSubTree, isChild]
    | false =>
      have isChild : node.childAt (index + 1) = some child := by simpa [getNextChild] using next
      have inside : index < node.entries.length := by
        by_contra beyond
        rw [childAt_of_length_lt sound.1 (by omega)] at isChild
        exact absurd isChild (by simp)
      have entry := getElem?_eq_getElem inside
      refine ⟨valid.replace inside, ?_⟩
      simp only [positions, finished, hasValue, current, currentEntry?, getNextChild,
        getLevel, skipNextSubTree, entry, flatMap_cons, framePositions_of_getElem? entry]
      simp [isChild]

theorem init_spec {root : ObjectIdentifier}
    (stored : Stored read n (some root) slot) :
    ∃ iterator, init read root = .ok iterator ∧ iterator.Valid read ∧
      iterator.positions read = below read (some root) := by
  obtain ⟨node, found, sound, -⟩ := sound_of_stored stored
  have nowhere : Valid read ⟨[], true⟩ := fun frame member => absurd member not_mem_nil
  refine ⟨⟨[(node, 0)], true⟩, ?_, nowhere.push sound true, ?_⟩
  · simp [init, descend, NodeReader.treeNodeFromIdentifier, found]
  · rw [positions_enter found sound, flatMap_nil, append_nil]

end BTreeIterator

namespace Position

variable {read : NodeReader} {level : Entry → Nat} {n : Nat}

@[simp]
theorem entries_append (first second : List Position) :
    entries (first ++ second) = entries first ++ entries second :=
  filterMap_append

@[simp]
theorem entries_cons (position : Position) (rest : List Position) :
    entries (position :: rest) = position.entry.toList ++ entries rest := by
  cases shown : position.entry <;> simp [entries, shown]

@[simp]
theorem entries_nil : entries [] = [] :=
  rfl

variable {height : UInt8} {spine : Spine (Option ObjectIdentifier) Entry}
    {pure : Spine (Slot Entry n) Entry}

theorem entries_afterFirst
    (rel : spine.Rel (fun child slot => entries (inner child) = slot.contents n) pure) :
    pure.flatten (Slot.contents n) =
      pure.first.contents n ++ entries (afterFirst inner height spine) := by
  induction rel with
  | last holds => simp [Spine.flatten, afterFirst]
  | step holds restRel ih =>
    have firstSame := restRel.first
    simp [Spine.flatten, afterFirst, ih, firstSame]

variable {identifier : Option ObjectIdentifier} {slot : Slot Entry n}

theorem entries_below (stored : Stored read n identifier slot) :
    entries (below read identifier) = slot.contents n := by
  induction n generalizing identifier with
  | zero =>
    rw [show identifier = none from stored]
    rfl
  | succ n ih =>
    cases identifier with
    | none =>
      rw [show slot = .null (n + 1) from stored]
      rfl
    | some identifier =>
      obtain ⟨node, spine, found, rfl, nodeLevel, inRange, rel⟩ := stored
      have contentsRel : node.spine.Rel
          (fun child slot => entries (below read child) = slot.contents n) spine :=
        rel.mono fun _ _ => ih
      have sound : node.Sound read := by
        subst nodeLevel
        exact ⟨inRange, spine, rel⟩
      rw [below_some found sound, Slot.contents_node, entries_afterFirst contentsRel,
        ofSpine, entries_cons, entries_append, contentsRel.first]
      rfl

def Trim (read : NodeReader) : List Position → Prop
  | [] => True
  | position :: rest =>
    (∀ child, position.next = some child → entries (below read (some child)) = [] →
      entries rest = []) ∧ Trim read rest

def Solid (read : NodeReader) (positions : List Position) : Prop :=
  ∀ position ∈ positions, ∀ child, position.next = some child →
    entries (below read (some child)) ≠ []

variable {first second : List Position}

theorem Trim.of_append (trim : Trim read (first ++ second)) : Trim read second := by
  induction first with
  | nil => exact trim
  | cons position first ih => exact ih trim.2

theorem Trim.append_solid (solid : Solid read first) (trim : Trim read second) :
    Trim read (first ++ second) := by
  induction first with
  | nil => exact trim
  | cons position first ih =>
    refine ⟨fun child next empty => absurd empty (solid position (by simp) child next), ?_⟩
    exact ih fun other member => solid other (by simp [member])

theorem Trim.append_empty (trim : Trim read first) (trimSecond : Trim read second)
    (empty : entries second = []) : Trim read (first ++ second) := by
  induction first with
  | nil => exact trimSecond
  | cons position first ih =>
    refine ⟨fun child next childEmpty => ?_, ih trim.2⟩
    show entries (first ++ second) = []
    rw [entries_append, trim.1 child next childEmpty, empty]
    rfl

theorem solid_afterFirst (children : ∀ child ∈ spine.children, Solid read (below read child) ∧
      ∀ identifier, child = some identifier → entries (below read child) ≠ []) :
    Solid read (afterFirst (below read) height spine) := by
  induction spine with
  | last child =>
    intro position member identifier next
    simp only [afterFirst, mem_singleton] at member
    rw [member] at next
    exact absurd next (by simp)
  | step child entry rest ih =>
    obtain ⟨solid, notEmpty⟩ := children rest.first (mem_cons_of_mem _ rest.first_mem)
    intro position member identifier next
    simp only [afterFirst, mem_cons, mem_append] at member
    rcases member with rfl | rfl | inChild | inRest
    · exact next ▸ notEmpty identifier next
    · exact next ▸ notEmpty identifier next
    · exact solid position inChild identifier next
    · exact ih (fun child inRest => children child (mem_cons_of_mem _ inRest)) position
        inRest identifier next

theorem solid_below (stored : Stored read n identifier slot) (tidy : slot.Shaped level n .tidy) :
    Solid read (below read identifier) ∧
      ∀ child, identifier = some child → entries (below read identifier) ≠ [] := by
  induction n generalizing identifier with
  | zero =>
    rw [show identifier = none from stored]
    exact ⟨fun position member => absurd member not_mem_nil, by simp⟩
  | succ n ih =>
    cases identifier with
    | none => exact ⟨fun position member => absurd member not_mem_nil, by simp⟩
    | some identifier =>
      have notEmpty : entries (below read (some identifier)) ≠ [] := by
        intro empty
        rw [entries_below stored] at empty
        have isNull := Slot.isNull_of_contents_eq_nil tidy empty
        rw [stored.isNull] at isNull
        exact absurd isNull (by simp)
      refine ⟨?_, fun _ _ => notEmpty⟩
      obtain ⟨node, spine, found, rfl, nodeLevel, inRange, rel⟩ := stored
      have sound : node.Sound read := by
        subst nodeLevel
        exact ⟨inRange, spine, rel⟩
      have children : ∀ child ∈ node.spine.children, Solid read (below read child) ∧
          ∀ identifier, child = some identifier → entries (below read child) ≠ [] := by
        intro child member
        obtain ⟨slot, storedChild, shaped⟩ := rel.exists_all_of_mem_children tidy.all
          (fun _ holds => holds) member
        exact ih storedChild shaped
      obtain ⟨solid, firstNotEmpty⟩ := children _ node.spine.first_mem
      rw [below_some found sound]
      intro position member child next
      simp only [ofSpine, mem_cons, mem_append] at member
      rcases member with rfl | inFirst | inRest
      · exact next ▸ firstNotEmpty child next
      · exact solid position inFirst child next
      · exact solid_afterFirst children position inRest child next

theorem trim_ofSpine (rel : spine.Rel (Stored read n) pure)
    (all : pure.All (fun entry => level entry = n) (Slot.Shaped level n .tidy)
      (Slot.Shaped level n .trimmed))
    (children : ∀ {identifier : Option ObjectIdentifier} {slot : Slot Entry n},
      Stored read n identifier slot → slot.Shaped level n .trimmed →
        Trim read (below read identifier)) : Trim read (ofSpine (below read) height spine) := by
  induction rel with
  | last holds =>
    have end_trim : Trim read [⟨none, none, height⟩] := ⟨by simp, trivial⟩
    refine ⟨fun child next empty => ?_, (children holds all).append_empty end_trim rfl⟩
    simp only [first_last] at next
    rw [first_last, next, entries_append, empty]
    rfl
  | step holds restRel ih =>
    have restTrim := ih all.2.2
    obtain ⟨solid, notEmpty⟩ := solid_below holds all.1
    refine ⟨fun child next empty => ?_, Trim.append_solid solid ⟨fun child next empty => ?_,
      restTrim⟩⟩
    · simp only [first_step] at next
      exact absurd empty (next ▸ notEmpty child next)
    · exact restTrim.1 child next empty

/-- In a trimmed subtree a child without entries is the last thing. -/
theorem trim_below
    (stored : Stored read n identifier slot) (trimmed : slot.Shaped level n .trimmed) :
    Trim read (below read identifier) := by
  induction n generalizing identifier with
  | zero =>
    rw [show identifier = none from stored]
    exact trivial
  | succ n ih =>
    cases identifier with
    | none => exact trivial
    | some identifier =>
      obtain ⟨node, spine, found, rfl, nodeLevel, inRange, rel⟩ := stored
      have sound : node.Sound read := by
        subst nodeLevel
        exact ⟨inRange, spine, rel⟩
      rw [below_some found sound]
      exact trim_ofSpine rel trimmed.all ih

end Position

end Peridot
