import Peridot.NodeBuilderRefinement

/-!
# Storing the nodes of a builder

Every round of `Build` stores the new nodes that have no new child, so after as
many rounds as the tree is high the root is stored.  The builder represents the
same tree all along, and the storage only grows.
-/

namespace Peridot

namespace NodeBuilder

variable {ids : NodeIdentifiers} {read : NodeReader} {n : Nat} {builder : NodeBuilder}
  {slot : Slot Entry n} {spine : Spine (Slot Entry n) Entry} {laid : Spine NodeBuilder Entry}
    {children : List NodeBuilder}

theorem Represents.mono {later : NodeReader} (larger : NodeStore.Extends later read)
    (represents : Represents read n builder slot) : Represents later n builder slot := by
  induction n generalizing builder with
  | zero => exact represents
  | succ n ih =>
    cases slot using Slot.succCases with
    | null => exact represents
    | node spine =>
      obtain ⟨notNull, level, stored, loadedIfNew, content⟩ := represents_node_iff.mp represents
      refine represents_node_iff.mpr ⟨notNull, level, fun notNew => (stored notNew).mono larger,
        loadedIfNew, fun notEmpty => ?_⟩
      obtain ⟨laid, entries, children, rel⟩ := content notEmpty
      exact ⟨laid, entries, children, rel.mono fun _ _ => ih⟩

def identifier (child : NodeBuilder) : Option ObjectIdentifier :=
  if child.isNull then none else some child.objectIdentifier

theorem Represents.stored (represents : Represents read n builder slot)
    (notNew : builder.isNew = false) : Stored read n builder.identifier slot := by
  by_cases isNull : builder.isNull = true
  · have slotNull : slot = .null n :=
      Slot.eq_null_of_isNull (represents.isNull.symm.trans isNull)
    rw [identifier, if_pos isNull, slotNull]
    exact Stored.null n
  · rw [identifier, if_neg isNull]
    cases n with
    | zero => exact absurd represents isNull
    | succ n =>
      cases slot using Slot.succCases with
      | null => exact absurd (represents_null_iff.mp represents) isNull
      | node spine => exact (represents_node_iff.mp represents).2.2.1 notNew

theorem mem_childIdentifiers {start index : Nat} {objectIdentifier : ObjectIdentifier} :
    (index, objectIdentifier) ∈ childIdentifiers start children ↔
      ∃ offset child, index = start + offset ∧ children[offset]? = some child ∧
        child.identifier = some objectIdentifier := by
  induction children generalizing start with
  | nil => simp [childIdentifiers]
  | cons first rest ih =>
    have tail : (index, objectIdentifier) ∈ childIdentifiers (start + 1) rest ↔
        ∃ offset child, index = start + (offset + 1) ∧ (first :: rest)[offset + 1]? = some child ∧
          child.identifier = some objectIdentifier := by
      rw [ih]
      simp only [List.getElem?_cons_succ, Nat.add_assoc, Nat.add_comm 1]
    have split : (index, objectIdentifier) ∈ childIdentifiers start (first :: rest) ↔
        (index = start ∧ first.identifier = some objectIdentifier) ∨
          (index, objectIdentifier) ∈ childIdentifiers (start + 1) rest := by
      simp only [childIdentifiers, identifier]
      split
      · simp
      · simp [eq_comm]
    rw [split, tail]
    constructor
    · rintro (⟨same, found⟩ | ⟨offset, child, same, found, child'⟩)
      · exact ⟨0, first, same, rfl, found⟩
      · exact ⟨offset + 1, child, same, found, child'⟩
    · rintro ⟨offset, child, same, found, childId⟩
      cases offset with
      | zero =>
        obtain rfl : first = child := by simpa using found
        exact .inl ⟨same, childId⟩
      | succ offset => exact .inr ⟨offset, child, same, found, childId⟩

theorem childAt_toTreeNode (builder : NodeBuilder) (index : Nat) :
    builder.toTreeNode.childAt index = (builder.children[index]?).bind identifier := by
  refine Option.ext fun objectIdentifier => ?_
  rw [TreeNode.childAt_eq_some, toTreeNode, mem_childIdentifiers]
  simp [Option.bind_eq_some_iff]

theorem stored_toTreeNode {store : NodeStore ids} (level : builder.level.toNat = n)
    (entries : laid.entries = builder.entries) (children : laid.children = builder.children)
    (rel : laid.Rel (Represents store.read n) spine)
    (noNew : ∀ child ∈ builder.children, child.isNew = false) :
    Stored (store.add builder.toTreeNode).read (n + 1)
      (some (ids.identify builder.toTreeNode)) (.node spine) := by
  refine ⟨builder.toTreeNode, spine, store.add_read _, rfl, level, ?_, ?_⟩
  · intro child member
    obtain ⟨offset, found, same, inList, -⟩ := mem_childIdentifiers.mp member
    have bound := (List.getElem?_eq_some_iff.mp inList).1
    rw [← children, Spine.length_children, entries] at bound
    simp only [toTreeNode]
    omega
  · have related := rel.ofList_of_children builder.toTreeNode.childAt 0
      (S := Stored (store.add builder.toTreeNode).read n) ?_
    · rw [entries] at related
      exact related
    · intro index child related found represents
      rw [Nat.zero_add, childAt_toTreeNode, ← children, found, Option.bind_some]
      have member : child ∈ builder.children := children ▸ List.mem_of_getElem? found
      exact (represents.mono (store.add_extends _)).stored (noNew child member)

/-- At most `k` rounds are left until the builder is stored. -/
def Pending : Nat → NodeBuilder → Prop
  | 0, builder => builder.isNew = false
  | k + 1, builder => builder.isNew = true → ∀ child ∈ builder.children, Pending k child

variable {k : Nat}

theorem Pending.of_not_new (notNew : builder.isNew = false) : Pending k builder := by
  cases k with
  | zero => exact notNew
  | succ k =>
    intro isNew
    rw [notNew] at isNew
    exact absurd isNew (by simp)

theorem Represents.pending (represents : Represents read n builder slot) : Pending n builder := by
  induction n generalizing builder with
  | zero =>
    have isNull : builder.type = .nullNode := by
      simpa [Represents, NodeBuilder.isNull] using represents
    simp [Pending, isNew, isNull]
  | succ n ih =>
    cases slot using Slot.succCases with
    | null =>
      have isNull : builder.type = .nullNode := by
        simpa [NodeBuilder.isNull] using represents_null_iff.mp represents
      exact Pending.of_not_new (by simp [isNew, isNull])
    | node spine =>
      obtain ⟨-, -, -, loadedIfNew, content⟩ := represents_node_iff.mp represents
      intro isNew child member
      obtain ⟨laid, -, children, rel⟩ := content (loadedIfNew isNew)
      obtain ⟨related, holds⟩ := rel.exists_of_mem_children (children ▸ member)
      exact ih holds

theorem buildRound_of_not_new (notNew : builder.isNew = false) (state : BuildState ids) :
    buildRound builder state = (builder, state) := by
  obtain ⟨type, level, objectIdentifier, entries, children⟩ := builder
  simp [buildRound, notNew]

theorem buildRound_of_new_child (isNew : builder.isNew = true)
    (newChild : builder.children.any NodeBuilder.isNew = true) (state : BuildState ids) :
    buildRound builder state =
      ({ builder with children := (buildChildren builder.children state).1 },
        (buildChildren builder.children state).2) := by
  obtain ⟨type, level, objectIdentifier, entries, children⟩ := builder
  simp only at newChild
  simp [buildRound, isNew, newChild]

theorem buildRound_of_no_new_child (isNew : builder.isNew = true)
    (noNewChild : builder.children.any NodeBuilder.isNew = false) (state : BuildState ids) :
    buildRound builder state = ({ builder with
        type := .existingNode
        objectIdentifier := ids.identify builder.toTreeNode }, state.add builder.toTreeNode) := by
  obtain ⟨type, level, objectIdentifier, entries, children⟩ := builder
  simp only at noNewChild
  simp [buildRound, isNew, noNewChild]

variable {state : BuildState ids} {fuel : Nat}

theorem buildChildren_pending
    (round : ∀ child ∈ children, ∀ state : BuildState ids, Pending k (buildRound child state).1) :
    ∀ child ∈ (buildChildren children state).1, Pending k child := by
  induction children generalizing state with
  | nil => simp [buildChildren]
  | cons first rest ih =>
    simp only [buildChildren, List.mem_cons, forall_eq_or_imp]
    exact ⟨round first (by simp) state, ih fun child member => round child (by simp [member])⟩

/-- Every round brings the builder closer to being stored. -/
theorem buildRound_pending (pending : Pending (k + 1) builder) :
    Pending k (buildRound builder state).1 := by
  induction k generalizing builder state with
  | zero =>
    by_cases isNew : builder.isNew = true
    · have noNewChild : builder.children.any NodeBuilder.isNew = false := by
        simpa [Pending] using pending isNew
      rw [buildRound_of_no_new_child isNew noNewChild]
      rfl
    · rw [buildRound_of_not_new (by simpa using isNew)]
      exact Pending.of_not_new (by simpa using isNew)
  | succ k ih =>
    by_cases isNew : builder.isNew = true
    · by_cases newChild : builder.children.any NodeBuilder.isNew = true
      · rw [buildRound_of_new_child isNew newChild]
        exact fun _ => buildChildren_pending fun child member state => ih (pending isNew child member)
      · rw [buildRound_of_no_new_child isNew (by simpa using newChild)]
        exact Pending.of_not_new rfl
    · rw [buildRound_of_not_new (by simpa using isNew)]
      exact Pending.of_not_new (by simpa using isNew)

theorem buildChildren_spec
    (round : ∀ {builder : NodeBuilder} {slot : Slot Entry n} {state : BuildState ids},
      Represents state.store.read n builder slot →
        Represents (buildRound builder state).2.store.read n (buildRound builder state).1 slot ∧
          NodeStore.Extends (buildRound builder state).2.store.read state.store.read)
    (rel : laid.Rel (Represents state.store.read n) spine) :
    NodeStore.Extends (buildChildren laid.children state).2.store.read state.store.read ∧
      ∃ built : Spine NodeBuilder Entry, built.entries = laid.entries ∧
        built.children = (buildChildren laid.children state).1 ∧
        built.Rel (Represents (buildChildren laid.children state).2.store.read n) spine := by
  induction laid generalizing spine state with
  | last child =>
    cases rel with
    | last holds =>
      obtain ⟨represents, larger⟩ := round holds
      exact ⟨larger, .last (buildRound child state).1, rfl, rfl, .last represents⟩
  | step child entry rest ih =>
    cases rel with
    | step holds restRel =>
      obtain ⟨represents, larger⟩ := round holds
      obtain ⟨restLarger, built, entries, children, builtRel⟩ :=
        ih (restRel.mono fun _ _ => Represents.mono larger)
      refine ⟨restLarger.trans larger, .step (buildRound child state).1 entry built, ?_, ?_,
        .step (represents.mono restLarger) builtRel⟩
      · simp [Spine.entries, entries]
      · simp [Spine.children, buildChildren, children]

theorem buildRound_spec (represents : Represents state.store.read n builder slot) :
    Represents (buildRound builder state).2.store.read n (buildRound builder state).1 slot ∧
      NodeStore.Extends (buildRound builder state).2.store.read state.store.read := by
  induction n generalizing builder state with
  | zero =>
    have notNew : builder.isNew = false := represents.pending
    rw [buildRound_of_not_new notNew]
    exact ⟨represents, NodeStore.Extends.refl _⟩
  | succ n ih =>
    by_cases isNew : builder.isNew = true
    · cases slot using Slot.succCases with
      | null =>
        have isNull := represents_null_iff.mp represents
        simp only [NodeBuilder.isNull, NodeBuilder.isNew, beq_iff_eq] at isNull isNew
        rw [isNull] at isNew
        exact absurd isNew (by simp)
      | node spine =>
        obtain ⟨notNull, level, -, loadedIfNew, content⟩ := represents_node_iff.mp represents
        obtain ⟨laid, entries, children, rel⟩ := content (loadedIfNew isNew)
        by_cases newChild : builder.children.any NodeBuilder.isNew = true
        · obtain ⟨larger, built, builtEntries, builtChildren, builtRel⟩ :=
            buildChildren_spec ih rel
          rw [children] at larger builtChildren builtRel
          rw [buildRound_of_new_child isNew newChild]
          refine ⟨represents_new ?_ level (builtEntries.trans entries) builtChildren builtRel,
            larger⟩
          simpa [NodeBuilder.isNew] using isNew
        · have noNewChild : builder.children.any NodeBuilder.isNew = false := by
            simpa using newChild
          rw [buildRound_of_no_new_child isNew noNewChild]
          have larger := state.store.add_extends builder.toTreeNode
          refine ⟨Loaded.represents ⟨rfl, level, fun _ => ?_, entries, children,
            rel.mono fun _ _ => Represents.mono larger⟩, larger⟩
          exact stored_toTreeNode level entries children rel (by simpa using noNewChild)
    · rw [buildRound_of_not_new (by simpa using isNew)]
      exact ⟨represents, NodeStore.Extends.refl _⟩

theorem buildLoop_spec (enough : k < fuel)
    (pending : Pending k builder) (represents : Represents state.store.read n builder slot) :
    ∃ built final, buildLoop fuel builder state = .ok (built, final) ∧
      built.isNew = false ∧ Represents final.store.read n built slot ∧
      NodeStore.Extends final.store.read state.store.read := by
  induction fuel generalizing k builder state with
  | zero => omega
  | succ fuel ih =>
    by_cases isNew : builder.isNew = true
    · cases k with
      | zero => exact absurd (show builder.isNew = false from pending) (by simp [isNew])
      | succ k =>
        obtain ⟨roundRep, larger⟩ := buildRound_spec represents
        obtain ⟨built, final, loopOk, notNew, builtRep, loopLarger⟩ :=
          ih (by omega) (buildRound_pending pending) roundRep
        refine ⟨built, final, ?_, notNew, builtRep, loopLarger.trans larger⟩
        rw [buildLoop, if_pos isNew]
        exact loopOk
    · refine ⟨builder, state, ?_, by simpa using isNew, represents, NodeStore.Extends.refl _⟩
      rw [buildLoop, if_neg isNew]
      rfl

theorem build_spec {tree : LeveledTree Entry} (state : BuildState ids) (enough : tree.height < fuel)
    (represents : Represents state.store.read tree.height builder tree.slot) :
    ∃ root final, build fuel builder state = .ok (root, final) ∧
      NodeStore.Extends final.store.read state.store.read ∧
      Stored final.store.read tree.storedForm.height (some root) tree.storedForm.slot := by
  by_cases isNull : builder.isNull = true
  · have treeNull : tree.isNull = true := represents.isNull.symm.trans isNull
    rw [build, if_pos isNull, LeveledTree.storedForm, if_pos treeNull]
    exact ⟨_, _, rfl, state.store.add_extends _, emptyNode, _, state.store.add_read _, rfl, rfl,
      by simp [TreeNode.InRange, emptyNode], .last rfl⟩
  · have treeSolid : ¬tree.isNull = true := fun treeNull =>
      isNull (represents.isNull.trans treeNull)
    obtain ⟨built, final, loopOk, notNew, builtRep, larger⟩ :=
      buildLoop_spec enough represents.pending represents
    have builtSolid : ¬built.isNull = true := fun builtNull =>
      treeSolid (builtRep.isNull.symm.trans builtNull)
    have stored := builtRep.stored notNew
    rw [identifier, if_neg builtSolid] at stored
    rw [build, if_neg isNull, loopOk, LeveledTree.storedForm, if_neg treeSolid]
    exact ⟨built.objectIdentifier, final, rfl, larger, stored⟩

end NodeBuilder

end Peridot
