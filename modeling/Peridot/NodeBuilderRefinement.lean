import Peridot.NodeBuilder

/-!
# Node builders represent leveled trees

A builder represents a slot of a leveled tree, whether its content is loaded or
not.  Every operation of `NodeBuilder` succeeds and computes the operation of
leveled trees on what its builders represent.
-/

namespace Peridot

open List Spine Option Slot UInt8 KeyedList

variable {byte : UInt8}

theorem UInt8.toNat_pred {n : Nat} (successor : byte.toNat = n + 1) : (byte - 1).toNat = n := by
  have one : (1 : UInt8) ≤ byte := by
    rw [UInt8.le_iff_toNat_le, successor]
    exact Nat.succ_le_succ (Nat.zero_le n)
  rw [UInt8.toNat_sub_of_le _ _ one, successor]
  rfl

theorem UInt8.toNat_succ {n : Nat} (successor : byte.toNat + 1 = n)
    (bound : n < 256) : (byte + 1).toNat = n := by
  rw [UInt8.toNat_add]
  simp only [UInt8.reduceToNat]
  omega

namespace NodeBuilder

def Represents (read : NodeReader) : (n : Nat) → NodeBuilder → Slot Entry n → Prop
  | 0, builder, _ => builder.isNull = true
  | n + 1, builder, slot =>
    match slot.toNode with
    | none => builder.isNull = true
    | some spine =>
      builder.isNull = false ∧ builder.level.toNat = n ∧
        (builder.isNew = false → Stored read (n + 1) (some builder.objectIdentifier) slot) ∧
        (builder.isNew = true → builder.children ≠ []) ∧
        (builder.children ≠ [] → ∃ laid : Spine NodeBuilder Entry,
          laid.entries = builder.entries ∧ laid.children = builder.children ∧
            laid.Rel (Represents read n) spine)

/-- A builder for a node whose entries and children are loaded. -/
structure Loaded (read : NodeReader) (n : Nat) (builder : NodeBuilder)
    (spine : Spine (Slot Entry n) Entry) (laid : Spine NodeBuilder Entry) : Prop where
  notNull : builder.isNull = false
  level : builder.level.toNat = n
  stored : builder.isNew = false →
    Stored read (n + 1) (some builder.objectIdentifier) (.node spine)
  entries : laid.entries = builder.entries
  children : laid.children = builder.children
  rel : laid.Rel (Represents read n) spine

variable {laid : Spine NodeBuilder Entry} {child : NodeBuilder}

section Represents

variable {read : NodeReader} {n : Nat} {builder : NodeBuilder} {slot : Slot Entry n}
    {spine : Spine (Slot Entry n) Entry} {level : UInt8}

theorem represents_null_iff : Represents read n builder (.null n) ↔ builder.isNull = true := by
  cases n <;> rfl

theorem represents_node_iff : Represents read (n + 1) builder (.node spine) ↔
      builder.isNull = false ∧ builder.level.toNat = n ∧ (builder.isNew = false →
          Stored read (n + 1) (some builder.objectIdentifier) (.node spine)) ∧
        (builder.isNew = true → builder.children ≠ []) ∧
        (builder.children ≠ [] → ∃ laid : Spine NodeBuilder Entry,
          laid.entries = builder.entries ∧ laid.children = builder.children ∧
            laid.Rel (Represents read n) spine) :=
  Iff.rfl

theorem Represents.isNull (represents : Represents read n builder slot) :
    builder.isNull = slot.isNull n := by
  cases n with
  | zero => exact represents
  | succ n =>
    cases slot using Slot.succCases with
    | null => exact represents
    | node spine => exact (represents_node_iff.mp represents).1

theorem Loaded.represents (loaded : Loaded read n builder spine laid) :
    Represents read (n + 1) builder (.node spine) :=
  represents_node_iff.mpr ⟨loaded.notNull, loaded.level, loaded.stored,
    fun _ => loaded.children ▸ laid.children_ne_nil,
    fun _ => ⟨laid, loaded.entries, loaded.children, loaded.rel⟩⟩

def ofChild (level : UInt8) : Option ObjectIdentifier → NodeBuilder
  | none => null
  | some identifier => createExistingBuilder (level - 1) identifier

theorem represents_ofChild (atLevel : level.toNat = n)
    {identifier : Option ObjectIdentifier} (stored : Stored read n identifier slot) :
    Represents read n (ofChild level identifier) slot := by
  cases n with
  | zero =>
    rw [show identifier = none from stored]
    rfl
  | succ n =>
    cases identifier with
    | none =>
      rw [show slot = .null (n + 1) from stored]
      rfl
    | some identifier =>
      obtain ⟨node, spine, -, rfl, -⟩ := id stored
      refine represents_node_iff.mpr ⟨rfl, ?_, fun _ => stored, ?_, ?_⟩
      · exact UInt8.toNat_pred atLevel
      · intro isNew
        simp [ofChild, createExistingBuilder, NodeBuilder.isNew] at isNew
      · intro notEmpty
        exact absurd rfl notEmpty

theorem extractChildren_eq {size start : Nat}
    {children : List (Nat × ObjectIdentifier)} (sorted : KeyedList.Sorted Prod.fst children)
    (fromStart : ∀ child ∈ children, start ≤ child.1)
    (inRange : ∀ child ∈ children, child.1 ≤ size) : extractChildren level size start children =
      (range' start (size + 1 - start)).map fun index =>
        ofChild level ((find Prod.fst children index).map Prod.snd) := by
  induction children generalizing start with
  | nil => simp [extractChildren, find, ofChild, map_const']
  | cons child rest ih =>
    obtain ⟨below, restSorted⟩ := sorted_cons.mp sorted
    have startLe := fromStart child (by simp)
    have leSize := inRange child (by simp)
    have count : size + 1 - start = (child.1 - start) + (size + 1 - (child.1 + 1) + 1) := by omega
    have reached : start + (child.1 - start) = child.1 := by omega
    have gap : ∀ index ∈ range' start (child.1 - start),
        ofChild level ((find Prod.fst (child :: rest) index).map Prod.snd) = null := by
      intro index member
      have indexLt : index < child.1 := by
        have := (mem_range'_1.mp member).2
        omega
      have absent : find Prod.fst (child :: rest) index = none := by
        refine find_eq_none fun other inList => ?_
        rcases mem_cons.mp inList with rfl | inRest
        · omega
        · have := below other inRest
          omega
      rw [absent]
      rfl
    have beyond : ∀ index ∈ range' (child.1 + 1) (size + 1 - (child.1 + 1)),
        ofChild level ((find Prod.fst (child :: rest) index).map Prod.snd) =
          ofChild level ((find Prod.fst rest index).map Prod.snd) := by
      intro index member
      have different : child.1 ≠ index := by
        have := (mem_range'_1.mp member).1
        omega
      simp [find, different]
    have here : find Prod.fst (child :: rest) child.1 = some child := by
      simp [find]
    rw [extractChildren, max_eq_right startLe, count, ← range'_append_1, reached,
      range'_succ, map_append, map_cons, map_congr_left gap,
      map_congr_left beyond, here, ih restSorted below
        fun other member => inRange other (by simp [member])]
    simp [ofChild, map_const']

theorem loaded_extractContent {node : TreeNode}
    (notNull : builder.isNull = false) (level : builder.level.toNat = n)
    (stored : Stored read (n + 1) (some builder.objectIdentifier) (.node spine))
    (nodeLevel : node.level.toNat = n) (inRange : node.InRange)
    (rel : node.spine.Rel (Stored read n) spine) : Loaded read n (builder.extractContent node) spine
      (ofList (fun index => ofChild node.level (node.childAt index)) 0 node.entries) where
  notNull := notNull
  level := level
  stored := fun _ => stored
  entries := entries_ofList ..
  children := by
    rw [children_ofList, extractContent,
      extractChildren_eq node.childrenSorted (fun _ _ => Nat.zero_le _) inRange]
    rfl
  rel := Rel.ofList_map rel fun _ _ => represents_ofChild nodeLevel

theorem computeContent_spec (represents : Represents read (n + 1) builder (.node spine)) :
    ∃ this laid, builder.computeContent read = .ok this ∧ Loaded read n this spine laid := by
  obtain ⟨notNull, level, stored, loadedIfNew, content⟩ := represents_node_iff.mp represents
  by_cases empty : builder.children = []
  · have notNew : builder.isNew = false := by
      by_contra isNew
      exact loadedIfNew (by simpa using isNew) empty
    obtain ⟨node, spine', found, slotEq, nodeLevel, inRange, rel⟩ := stored notNew
    obtain rfl := node_injective slotEq
    refine ⟨_, _, ?_, loaded_extractContent notNull level (stored notNew) nodeLevel inRange rel⟩
    simp [computeContent, empty, NodeReader.treeNodeFromIdentifier, found]
  · obtain ⟨laid, entries, children, rel⟩ := content empty
    refine ⟨builder, laid, ?_, notNull, level, stored, entries, children, rel⟩
    simp [computeContent, empty]
    rfl

section Loaded

variable {this : NodeBuilder} {spine : Spine (Slot Entry n) Entry} {laid : Spine NodeBuilder Entry}
  {key : Key} (loaded : Loaded read n this spine laid)
include loaded

theorem Loaded.index : getEntryOrChildIndex this.entries key =
    Spine.position (Spine.beforeKey Entry.key key) laid.entries := by
  rw [loaded.entries]
  rfl

theorem Loaded.child_index : this.child (getEntryOrChildIndex this.entries key) =
    laid.focus (Spine.beforeKey Entry.key key) := by
  rw [loaded.index, child, ← loaded.children, getD_eq_getElem?_getD, children_getElem?]
  rfl

theorem Loaded.represents_focus :
    Represents read n (this.child (getEntryOrChildIndex this.entries key))
      (spine.focus (Spine.beforeKey Entry.key key)) := by
  rw [loaded.child_index]
  exact loaded.rel.focus

theorem Loaded.entry_index : this.entries[getEntryOrChildIndex this.entries key]? =
    spine.next (Spine.beforeKey Entry.key key) := by
  rw [loaded.index, ← loaded.entries, entries_getElem?, loaded.rel.next]

theorem Loaded.level_pred (positive : 0 < n) : (this.level - 1).toNat + 1 = n := by
  have pred := UInt8.toNat_pred (n := n - 1) (by rw [loaded.level]; omega)
  omega

theorem Loaded.entries_setFocus (child : NodeBuilder) :
    (laid.setFocus (Spine.beforeKey Entry.key key) child).entries = this.entries := by
  rw [Spine.entries_setFocus, loaded.entries]

theorem Loaded.children_setFocus (child : NodeBuilder) :
    (laid.setFocus (Spine.beforeKey Entry.key key) child).children =
      this.children.set (getEntryOrChildIndex this.entries key) child := by
  rw [Spine.children_setFocus, ← loaded.index, loaded.children]

theorem Loaded.setChild
    (represents : Represents read n child (spine.focus (Spine.beforeKey Entry.key key))) :
    Represents read (n + 1) { this with
      children := this.children.set (getEntryOrChildIndex this.entries key) child }
      (.node spine) := by
  have setRel := loaded.rel.setFocus (Spine.beforeKey Entry.key key) represents
  rw [setFocus_focus] at setRel
  exact Loaded.represents ⟨loaded.notNull, loaded.level, loaded.stored,
    loaded.entries_setFocus child, loaded.children_setFocus child, setRel⟩

end Loaded

theorem isVoid_eq (entries : laid.entries = builder.entries)
    (children : laid.children = builder.children)
    (rel : laid.Rel (Represents read n) spine) : builder.isVoid = Slot.isBare spine := by
  cases rel with
  | last holds =>
    simp only [Spine.entries, Spine.children] at entries children
    simp [isVoid, child, ← entries, ← children, Slot.isBare, holds.isNull]
  | step holds restRel =>
    simp only [Spine.entries] at entries
    simp [isVoid, ← entries, Slot.isBare]

variable (isNew : builder.type = .newNode)
include isNew

theorem represents_normal (level : builder.level.toNat = n)
    (entries : laid.entries = builder.entries) (children : laid.children = builder.children)
    (rel : laid.Rel (Represents read n) spine) :
    Represents read (n + 1) (if builder.isVoid then null else builder) (Slot.normal spine) := by
  rw [isVoid_eq entries children rel]
  by_cases bare : Slot.isBare spine = true
  · rw [if_pos bare, normal_of_isBare bare, represents_null_iff]
    rfl
  · rw [if_neg bare, normal_of_not_isBare bare]
    exact Loaded.represents ⟨by simp [isNull, isNew], level,
      fun notNew => by simp [NodeBuilder.isNew, isNew] at notNew, entries, children, rel⟩

theorem represents_new (level : builder.level.toNat = n)
    (entries : laid.entries = builder.entries) (children : laid.children = builder.children)
    (rel : laid.Rel (Represents read n) spine) : Represents read (n + 1) builder (.node spine) :=
  Loaded.represents ⟨by simp [isNull, isNew], level,
    fun notNew => by simp [NodeBuilder.isNew, isNew] at notNew, entries, children, rel⟩

end Represents

section Operations

variable {read : NodeReader} {n : Nat} {builder : NodeBuilder} {slot : Slot Entry n} {fuel : Nat}

theorem split_spec (key : Key) (enough : n < fuel) (represents : Represents read n builder slot) :
    ∃ left right, split read key fuel builder = .ok (left, right) ∧
      Represents read n left (slot.split Entry.key key n).1 ∧
      Represents read n right (slot.split Entry.key key n).2 := by
  induction n generalizing fuel builder with
  | zero =>
    obtain ⟨fuel, rfl⟩ : ∃ less, fuel = less + 1 := ⟨fuel - 1, by omega⟩
    have isNull : builder.isNull = true := represents
    refine ⟨builder, null, ?_, represents, rfl⟩
    simp [split, isNull]
    rfl
  | succ n ih =>
    obtain ⟨fuel, rfl⟩ : ∃ less, fuel = less + 1 := ⟨fuel - 1, by omega⟩
    cases slot using Slot.succCases with
    | null =>
      have isNull := represents_null_iff.mp represents
      refine ⟨builder, null, ?_, represents, rfl⟩
      simp [split, isNull]
      rfl
    | node spine =>
      obtain ⟨this, laid, content, loaded⟩ := computeContent_spec represents
      have notNull : builder.isNull = false := represents.isNull
      have childNull : (this.child (getEntryOrChildIndex this.entries key)).isNull =
          (spine.focus (Spine.beforeKey Entry.key key)).isNull n :=
        loaded.represents_focus.isNull
      have position : getEntryOrChildIndex this.entries key =
          Spine.position (Spine.beforeKey Entry.key key) spine.entries := by
        rw [loaded.index, loaded.rel.entries]
      have entriesEq : this.entries = spine.entries := by rw [← loaded.entries, loaded.rel.entries]
      obtain ⟨left, subRight, halves, leftRep, rightRep⟩ :=
        ih (by omega : n < fuel) loaded.represents_focus
      simp only [split, notNull, content, Bool.false_eq_true, if_false, bind, Except.bind]
      by_cases atStart : getEntryOrChildIndex this.entries key = 0 ∧
          (this.child (getEntryOrChildIndex this.entries key)).isNull = true
      · refine ⟨null, this, if_pos atStart, ?_⟩
        rw [split_at_start (position ▸ atStart.1) (childNull ▸ atStart.2)]
        exact ⟨rfl, loaded.represents⟩
      · by_cases atEnd : getEntryOrChildIndex this.entries key = this.entries.length ∧
            (this.child (getEntryOrChildIndex this.entries key)).isNull = true
        · have notEmpty : spine.entries ≠ [] := by
            intro empty
            rw [entriesEq, empty] at atEnd atStart
            exact atStart atEnd
          refine ⟨this, null, (if_neg atStart).trans (if_pos atEnd), ?_⟩
          rw [split_at_end notEmpty (position ▸ entriesEq ▸ atEnd.1) (childNull ▸ atEnd.2)]
          exact ⟨loaded.represents, rfl⟩
        · have notBare : ¬Slot.isBare spine = true := by
            intro bare
            cases spine with
            | last child =>
              rw [childNull, entriesEq] at atStart
              exact atStart ⟨rfl, bare⟩
            | step child entry rest => simp [Slot.isBare] at bare
          obtain ⟨lowRel, highRel⟩ := loaded.rel.cut leftRep rightRep
          obtain ⟨lowEntries, highEntries⟩ := entries_cut left subRight
          obtain ⟨lowChildren, highChildren⟩ := children_cut left subRight
          rw [if_neg atStart, if_neg atEnd, halves, split_node notBare]
          rw [← loaded.index, loaded.entries] at lowEntries highEntries
          rw [← loaded.index, loaded.children] at lowChildren highChildren
          exact ⟨_, _, rfl, represents_normal rfl loaded.level lowEntries lowChildren lowRel,
            represents_normal rfl loaded.level highEntries highChildren highRel⟩

theorem merge_spec {other : NodeBuilder} {slot' : Slot Entry n} (enough : n < fuel)
    (represents : Represents read n builder slot) (represents' : Represents read n other slot') :
    ∃ merged, merge read fuel builder other = .ok merged ∧
      Represents read n merged (slot.merge n slot') := by
  induction n generalizing fuel builder other with
  | zero =>
    obtain ⟨fuel, rfl⟩ : ∃ less, fuel = less + 1 := ⟨fuel - 1, by omega⟩
    have isNull : other.isNull = true := represents'
    exact ⟨builder, if_pos isNull, represents⟩
  | succ n ih =>
    obtain ⟨fuel, rfl⟩ : ∃ less, fuel = less + 1 := ⟨fuel - 1, by omega⟩
    cases slot' using Slot.succCases with
    | null =>
      rw [merge_null_right]
      exact ⟨builder, if_pos (represents_null_iff.mp represents'), represents⟩
    | node spine' =>
      have otherNotNull : ¬other.isNull = true := by simp [represents'.isNull]
      cases slot using Slot.succCases with
      | null =>
        rw [merge_null_left]
        exact ⟨other, (if_neg otherNotNull).trans
          (if_pos (represents_null_iff.mp represents)), represents'⟩
      | node spine =>
        have notNull : ¬builder.isNull = true := by simp [represents.isNull]
        obtain ⟨this, laid, content, loaded⟩ := computeContent_spec represents
        obtain ⟨that, laid', content', loaded'⟩ := computeContent_spec represents'
        have lastChild : this.children.getLastD null = laid.final := by
          rw [← loaded.children, getLastD_eq_getLast?, children_getLast?]
          rfl
        have firstChild : that.child 0 = laid'.first := by
          rw [child, ← loaded'.children, getD_eq_getElem?_getD, ← head?_eq_getElem?, children_head?]
          rfl
        obtain ⟨middle, merged, middleRep⟩ :=
          ih (by omega : n < fuel) loaded.rel.final loaded'.rel.first
        simp only [merge, otherNotNull, notNull, content, content', lastChild, firstChild,
          merged, bind, Except.bind]
        refine ⟨_, rfl, represents_new rfl loaded.level ?_ ?_
          (loaded.rel.glue loaded'.rel middleRep)⟩
        · rw [entries_glue, loaded.entries, loaded'.entries]
        · rw [children_glue, loaded.children, loaded'.children]

section

variable (represents : Represents read n builder slot)
include represents

variable (notNull : builder.isNull = false)
include notNull

theorem Represents.level_of_not_null : builder.level.toNat + 1 = n := by
  cases n with
  | zero =>
    rw [show builder.isNull = true from represents] at notNull
    exact absurd notNull (by simp)
  | succ n =>
    cases slot using Slot.succCases with
    | null =>
      rw [represents_null_iff.mp represents] at notNull
      exact absurd notNull (by simp)
    | node spine => rw [(represents_node_iff.mp represents).2.1]

theorem addParent_spec (bound : n < 256) : Represents read (n + 1) builder.addParent slot.wrap :=
  represents_normal rfl
    (UInt8.toNat_succ (represents.level_of_not_null notNull) bound) rfl rfl (.last represents)

theorem iterate_addParent_spec {m : Nat} (higher : n ≤ m) (bound : m ≤ 256) :
    Represents read m (addParent^[m - n] builder) (slot.raise higher) := by
  induction m, higher using Nat.le_induction with
  | base =>
    rw [Nat.sub_self, raise_self]
    exact represents
  | succ m higher ih =>
    have previous := ih (by omega)
    have previousNotNull : (addParent^[m - n] builder).isNull = false := by
      rw [previous.isNull, isNull_raise, ← represents.isNull, notNull]
    rw [Nat.succ_sub higher, Function.iterate_succ_apply', raise_succ higher]
    exact addParent_spec previous previousNotNull (by omega)

end

variable {target : UInt8}

theorem toLevel_spec {m : Nat} (represents : Represents read n builder slot) (higher : n ≤ m)
    (targetLevel : target.toNat + 1 = m) :
    Represents read m (builder.toLevel target) (slot.raise higher) := by
  by_cases isNull : builder.isNull = true
  · have raisedNull : (slot.raise higher).isNull m = true := by
      rw [isNull_raise, ← represents.isNull, isNull]
    rw [toLevel, if_pos isNull, eq_null_of_isNull raisedNull, represents_null_iff, isNull]
  · have notNull : builder.isNull = false := by simpa using isNull
    have turns : target.toNat - builder.level.toNat = m - n := by
      have := represents.level_of_not_null notNull
      omega
    rw [toLevel, if_neg isNull, turns]
    have := target.toNat_lt
    exact iterate_addParent_spec represents notNull higher (by omega)

theorem toLevel_of_represents (represents : Represents read n builder slot)
    (targetLevel : target.toNat + 1 = n) : builder.toLevel target = builder := by
  by_cases isNull : builder.isNull = true
  · exact if_pos isNull
  · have level := represents.level_of_not_null (by simpa using isNull)
    have noTurn : target.toNat - builder.level.toNat = 0 := by omega
    rw [toLevel, if_neg isNull, noTurn]
    rfl

variable {didMutate : Bool} {spine : Spine (Slot Entry n) Entry} {this : NodeBuilder}
    {entry : Entry}

theorem not_above {keyLevel : UInt8} (atLevel : keyLevel.toNat = n)
    (represents : Represents read (n + 1) builder (.node spine)) : ¬keyLevel > builder.level := by
  rw [gt_iff_lt, lt_iff_toNat_lt, atLevel, (represents_node_iff.mp represents).2.1]
  exact lt_irrefl n

theorem delete_spec {keyLevel : UInt8} {key : Key}
    (enough : n < fuel) (atLevel : keyLevel.toNat = n)
    (represents : Represents read (n + 1) builder (.node spine)) :
    ∃ deleted, delete read fuel keyLevel key didMutate builder =
        .ok (deleted, ((Slot.node spine).erase Entry.key n key (n + 1)).isSome) ∧
      Represents read (n + 1) deleted
        (((Slot.node spine).erase Entry.key n key (n + 1)).getD (.node spine)) := by
  obtain ⟨this, laid, content, loaded⟩ := computeContent_spec represents
  simp only [delete, not_above atLevel represents, if_false, content, bind, Except.bind,
    loaded.entry_index]
  by_cases present : (spine.next (Spine.beforeKey Entry.key key)).map Entry.key = some key
  · obtain ⟨old, found, oldKey⟩ := map_eq_some_iff.mp present
    have afterChild : this.child (getEntryOrChildIndex this.entries key + 1) =
        laid.afterNext (Spine.beforeKey Entry.key key) := by
      rw [loaded.index, child, ← loaded.children, getD_eq_getElem?_getD,
        children_succ_getElem? (loaded.rel.next.trans found)]
      rfl
    have afterRep : Represents read n (this.child (getEntryOrChildIndex this.entries key + 1))
        (spine.afterNext (Spine.beforeKey Entry.key key)) := by
      rw [afterChild]
      exact loaded.rel.afterNext
    obtain ⟨merged, mergeOk, mergedRep⟩ := merge_spec enough loaded.represents_focus afterRep
    rw [erase_present (lt_irrefl n) present, if_neg (by simpa using present), mergeOk]
    refine ⟨_, rfl, represents_normal rfl loaded.level ?_ ?_ (loaded.rel.removeNext mergedRep)⟩
    · rw [entries_removeNext, ← loaded.index, loaded.entries]
    · rw [children_removeNext (loaded.rel.next.trans found), ← loaded.index, loaded.children]
  · rw [erase_absent (lt_irrefl n) present, if_pos present]
    exact ⟨this, rfl, loaded.represents⟩

theorem insertEntry_spec (enough : n < fuel) (loaded : Loaded read n this spine laid)
    (absent : ¬(spine.next (Spine.beforeKey Entry.key entry.key)).map Entry.key = some entry.key) :
    ∃ updated, insertEntry read fuel entry this (getEntryOrChildIndex this.entries entry.key) =
        .ok (updated, true) ∧ Represents read (n + 1) updated
        ((Slot.node spine).upsert Entry.key n entry (n + 1)) := by
  have focusRep : Represents read n (this.child (getEntryOrChildIndex this.entries entry.key)) _ :=
    loaded.represents_focus
  obtain ⟨left, right, halves, leftRep, rightRep⟩ := split_spec entry.key enough focusRep
  simp only [insertEntry, halves, bind, Except.bind]
  rw [upsert_absent (lt_irrefl n) absent]
  refine ⟨_, rfl, represents_new rfl loaded.level ?_ ?_ (loaded.rel.insert leftRep entry rightRep)⟩
  · rw [entries_insert, ← loaded.index, loaded.entries]
  · rw [children_insert, ← loaded.index, loaded.children]

/-- `Update` in a node of the level of the key; nothing changes unless it mutates. -/
theorem update_spec {changeLevel : UInt8} (enough : n < fuel) (atLevel : changeLevel.toNat = n)
    (represents : Represents read (n + 1) builder (.node spine)) :
    ∃ updated didMutate, update read fuel changeLevel entry builder = .ok (updated, didMutate) ∧
      Represents read (n + 1) updated ((Slot.node spine).upsert Entry.key n entry (n + 1)) ∧
      (didMutate = false → (Slot.node spine).upsert Entry.key n entry (n + 1) = .node spine) := by
  obtain ⟨this, laid, content, loaded⟩ := computeContent_spec represents
  simp only [update, not_above atLevel represents, if_false, content, bind, Except.bind,
    loaded.entry_index]
  by_cases present : (spine.next (Spine.beforeKey Entry.key entry.key)).map Entry.key =
      some entry.key
  · obtain ⟨old, found, oldKey⟩ := map_eq_some_iff.mp present
    have newEntry : ({ old with
        objectIdentifier := entry.objectIdentifier
        priority := entry.priority } : Entry) = entry := by rw [oldKey]
    rw [upsert_present (lt_irrefl n) present, found]
    simp only [oldKey, if_true]
    split
    · rename_i same
      have oldEntry : old = entry := by rw [← newEntry, ← same.1, ← same.2]
      have unchanged := spine.setNext_next (oldEntry ▸ found)
      rw [unchanged]
      exact ⟨this, false, rfl, loaded.represents, fun _ => rfl⟩
    · refine ⟨_, true, rfl, represents_new rfl loaded.level ?_ ?_
        (loaded.rel.setNext entry), by simp⟩
      · rw [entries_setNext, ← loaded.index, loaded.entries]
      · rw [children_setNext, loaded.children]
  · obtain ⟨updated, insertOk, updatedRep⟩ := insertEntry_spec enough loaded present
    refine ⟨updated, true, ?_, updatedRep, by simp⟩
    cases found : spine.next (Spine.beforeKey Entry.key entry.key) with
    | none => exact insertOk
    | some old =>
      have different : ¬old.key = entry.key := by
        intro same
        simp [found, same] at present
      simp only [different, if_false]
      exact insertOk

variable {level : NodeLevelCalculator} {change : EntryChange}

theorem apply_not_below (notNull : builder.isNull = false)
    (reached : builder.level.toNat ≤ (level change.entry.key).toNat) :
    apply level read change (fuel + 1) didMutate builder = if change.deleted then
        delete read fuel (level change.entry.key) change.entry.key didMutate builder
      else update read fuel (level change.entry.key) change.entry builder := by
  have notBelow : ¬level change.entry.key < builder.level := by
    rw [lt_iff_toNat_lt]
    omega
  simp [apply, notNull, notBelow]

theorem apply_lower {mutated : Bool}
    (represents : Represents read (n + 1) builder (.node spine))
    (lower : (level change.entry.key).toNat < n) (content : builder.computeContent read = .ok this)
    (done : apply level read change fuel didMutate
      (this.child (getEntryOrChildIndex this.entries change.entry.key)) = .ok (child, mutated)) :
    let index := getEntryOrChildIndex this.entries change.entry.key
    let changed : NodeBuilder := { this with
      type := .newNode
      children := this.children.set index child }
    apply level read change (fuel + 1) didMutate builder = if mutated then
        .ok (if changed.isVoid then null else
          { changed with
            children := changed.children.set index (child.toLevel (this.level - 1)) }, true)
      else .ok ({ this with children := this.children.set index child }, false) := by
  obtain ⟨notNull, builderLevel, -⟩ := represents_node_iff.mp represents
  have below : level change.entry.key < builder.level := by
    rwa [lt_iff_toNat_lt, builderLevel]
  simp only [apply, notNull, below, content, done, bind, Except.bind, if_true, if_false,
    Bool.false_eq_true]
  cases mutated with
  | false => rfl
  | true =>
    simp only [Bool.not_true, Bool.false_eq_true, if_false, if_true]
    split <;> rfl

theorem apply_delete_spec (deleted : change.deleted = true) (enough : n < fuel)
    (represents : Represents read n builder slot) (fits : (level change.entry.key).toNat < n) :
    ∃ result, apply level read change fuel didMutate builder = .ok (result,
        (slot.erase Entry.key (level change.entry.key).toNat change.entry.key n).isSome) ∧
      Represents read n result
        ((slot.erase Entry.key (level change.entry.key).toNat change.entry.key n).getD slot) := by
  induction n generalizing fuel builder with
  | zero => omega
  | succ n ih =>
    obtain ⟨fuel, rfl⟩ : ∃ less, fuel = less + 1 := ⟨fuel - 1, by omega⟩
    cases slot using Slot.succCases with
    | null =>
      have isNull := represents_null_iff.mp represents
      exact ⟨builder, by simp [apply, isNull, deleted]; rfl, represents⟩
    | node spine =>
      by_cases lower : (level change.entry.key).toNat < n
      · obtain ⟨this, laid, content, loaded⟩ := computeContent_spec represents
        obtain ⟨child, childOk, childRep⟩ := ih (by omega : n < fuel) loaded.represents_focus lower
        rw [apply_lower represents lower content childOk, Slot.erase_lower lower]
        cases erased : (spine.focus (Spine.beforeKey Entry.key change.entry.key)).erase
            Entry.key (level change.entry.key).toNat change.entry.key n with
        | none =>
          rw [erased, Option.getD_none] at childRep
          exact ⟨_, rfl, loaded.setChild childRep⟩
        | some slot' =>
          rw [erased, getD_some] at childRep
          have setRel := loaded.rel.setFocus (Spine.beforeKey Entry.key change.entry.key) childRep
          rw [toLevel_of_represents childRep (loaded.level_pred (by omega))]
          refine ⟨_, rfl, ?_⟩
          simp only [set_set]
          exact represents_normal rfl loaded.level (loaded.entries_setFocus child)
            (loaded.children_setFocus child) setRel
      · have atLevel : (level change.entry.key).toNat = n := by omega
        obtain ⟨notNull, builderLevel, -⟩ := represents_node_iff.mp represents
        obtain ⟨result, deleteOk, resultRep⟩ := delete_spec (by omega : n < fuel) atLevel represents
        refine ⟨result, ?_, by rw [atLevel]; exact resultRep⟩
        rw [apply_not_below notNull (by omega), if_pos deleted, deleteOk, atLevel]

theorem apply_null (upsert : change.deleted = false) (isNull : builder.isNull = true) :
    ∃ result, apply level read change (fuel + 1) didMutate builder = .ok (result, true) ∧
      Represents read ((level change.entry.key).toNat + 1) result
        (.node (Slot.single (level change.entry.key).toNat change.entry)) := by
  refine ⟨createNewBuilder (level change.entry.key) [change.entry] [null, null], ?_, ?_⟩
  · simp [apply, isNull, upsert]
    rfl
  · exact represents_normal rfl rfl rfl rfl
      (.step (represents_null_iff.mpr rfl) (.last (represents_null_iff.mpr rfl)))

theorem isVoid_set {key : Key} (notEmpty : this.children ≠ [])
    (notNull : child.isNull = false) (type : BuilderType) : ({ this with
      type
      children := this.children.set (getEntryOrChildIndex this.entries key) child } :
        NodeBuilder).isVoid = false := by
  cases entries : this.entries with
  | cons entry rest => simp [isVoid]
  | nil =>
    obtain ⟨first, rest, children⟩ := exists_cons_of_ne_nil notEmpty
    simp [isVoid, getEntryOrChildIndex, NodeBuilder.child, children, notNull]

/-- `Apply` of an upsert computes the insertion of leveled trees.  The result still
has to be raised when there was no node before. -/
theorem apply_upsert_spec (upsert : change.deleted = false) (enough : n < fuel)
    (represents : Represents read n builder slot) (targetLevel : target.toNat + 1 = n)
    (fits : (level change.entry.key).toNat < n) :
    ∃ result mutated, apply level read change fuel didMutate builder = .ok (result, mutated) ∧
      Represents read n (result.toLevel target)
        (slot.upsert Entry.key (level change.entry.key).toNat change.entry n) ∧
      result.isNull = false ∧ (mutated = false →
        slot.upsert Entry.key (level change.entry.key).toNat change.entry n = slot ∧
          result.toLevel target = result) ∧
      (slot.isNull n = false → result.toLevel target = result) := by
  induction n generalizing fuel builder target with
  | zero => omega
  | succ n ih =>
    obtain ⟨fuel, rfl⟩ : ∃ less, fuel = less + 1 := ⟨fuel - 1, by omega⟩
    cases slot using Slot.succCases with
    | null =>
      obtain ⟨result, applyOk, resultRep⟩ := apply_null upsert (represents_null_iff.mp represents)
      rw [upsert_null fits]
      exact ⟨result, true, applyOk, toLevel_spec resultRep fits targetLevel,
        resultRep.isNull, by simp, by simp⟩
    | node spine =>
      have solid : Slot.isNull (n + 1) ((Slot.node spine).upsert Entry.key
          (level change.entry.key).toNat change.entry (n + 1)) = false :=
        isNull_upsert change.entry fits (.node spine)
      by_cases lower : (level change.entry.key).toNat < n
      · obtain ⟨this, laid, content, loaded⟩ := computeContent_spec represents
        obtain ⟨child, mutated, childOk, childRep, childSolid, same, -⟩ :=
          ih (by omega : n < fuel) loaded.represents_focus (loaded.level_pred (by omega)) lower
        rw [apply_lower represents lower content childOk]
        rw [upsert_lower lower] at solid ⊢
        cases mutated with
        | true =>
          have setRel := loaded.rel.setFocus (Spine.beforeKey Entry.key change.entry.key) childRep
          rw [if_pos rfl, isVoid_set (loaded.children ▸ laid.children_ne_nil) childSolid]
          simp only [Bool.false_eq_true, if_false, set_set]
          have resultRep : Represents read (n + 1) { this with
              type := .newNode
              children := this.children.set
                (getEntryOrChildIndex this.entries change.entry.key)
                (child.toLevel (this.level - 1)) } _ :=
            represents_new rfl loaded.level (loaded.entries_setFocus _)
              (loaded.children_setFocus _) setRel
          have raised := toLevel_of_represents resultRep targetLevel
          exact ⟨_, true, rfl, by rwa [raised], rfl, by simp, fun _ => raised⟩
        | false =>
          obtain ⟨focusSame, childRaised⟩ := same rfl
          rw [childRaised, focusSame] at childRep
          rw [focusSame, setFocus_focus]
          have resultRep := loaded.setChild childRep
          have raised := toLevel_of_represents resultRep targetLevel
          exact ⟨_, false, rfl, by rwa [raised], resultRep.isNull, fun _ => ⟨rfl, raised⟩,
            fun _ => raised⟩
      · have atLevel : (level change.entry.key).toNat = n := by omega
        obtain ⟨notNull, builderLevel, -⟩ := represents_node_iff.mp represents
        obtain ⟨result, mutated, updateOk, resultRep, same⟩ :=
          update_spec (by omega : n < fuel) atLevel represents
        rw [atLevel] at solid ⊢
        have raised := toLevel_of_represents resultRep targetLevel
        refine ⟨result, mutated, ?_, by rwa [raised], by rw [resultRep.isNull, solid],
          fun unchanged => ⟨same unchanged, raised⟩, fun _ => raised⟩
        rw [apply_not_below notNull (by omega), upsert, if_neg Bool.false_ne_true, updateOk]

end Operations

end NodeBuilder

end Peridot
