import Peridot.ObjectIdentifiers

/-!
# The new identifiers of a tree

`ApplyChanges` reports the identifiers of the nodes that it stores.  A builder that is not new
always stands for a node of the old tree, so that the nodes of the new tree are reported or old.
-/

namespace Peridot

open List Call

variable {identifier root : ObjectIdentifier} {read : NodeReader}

theorem NodeBelow.mono {later : NodeReader}
    (larger : NodeStore.Extends later read) (isBelow : NodeBelow read root identifier) :
    NodeBelow later root identifier := by
  induction isBelow with
  | root => exact .root
  | child _ found isChild ih => exact .child ih (larger _ _ found) isChild

namespace NodeBuilder

variable {read later : NodeReader} {builder this other result : NodeBuilder}
  {known wider : ObjectIdentifier → Prop} {identifier : ObjectIdentifier} {fuel : ℕ} {key : Key}
  {level : NodeLevelCalculator} {change : EntryChange}

/-- All nodes of a builder that are not new are known, and the new ones are loaded. -/
inductive Known (known : ObjectIdentifier → Prop) : NodeBuilder → Prop where
  | intro {builder : NodeBuilder}
      (existing : builder.type = .existingNode → known builder.objectIdentifier)
      (loaded : builder.type = .newNode → builder.children ≠ [])
      (children : ∀ child ∈ builder.children, Known known child) : Known known builder

def ClosedBelow (read : NodeReader) (known : ObjectIdentifier → Prop) : Prop :=
  ∀ identifier node item, known identifier → read identifier = some node →
    item ∈ node.children → known item.2

theorem Known.existing (isKnown : Known known builder) (exists' : builder.type = .existingNode) :
    known builder.objectIdentifier := by
  cases isKnown with
  | intro existing _ _ => exact existing exists'

theorem Known.children (isKnown : Known known builder) :
    ∀ child ∈ builder.children, Known known child := by
  cases isKnown with
  | intro _ _ children => exact children

theorem Known.mono (implies : ∀ identifier, known identifier → wider identifier)
    (isKnown : Known known builder) : Known wider builder := by
  induction isKnown with
  | intro existing loaded _ ih => exact .intro (fun isOld => implies _ (existing isOld)) loaded ih

theorem known_null : Known known null :=
  .intro nofun nofun nofun

theorem known_createExistingBuilder (level : UInt8) (isKnown : known identifier) :
    Known known (createExistingBuilder level identifier) :=
  .intro (fun _ => isKnown) nofun nofun

theorem Known.child (isKnown : Known known builder) (index : ℕ) :
    Known known (builder.child index) := by
  rw [NodeBuilder.child, getD_eq_getElem?_getD]
  cases found : builder.children[index]? with
  | none => exact known_null
  | some child => exact isKnown.children child (mem_of_getElem? found)

variable {children : List NodeBuilder} {entries : List Entry}

theorem known_new {level : UInt8} {objectIdentifier : ObjectIdentifier} (notEmpty : children ≠ [])
    (areKnown : ∀ child ∈ children, Known known child) :
    Known known ⟨.newNode, level, objectIdentifier, entries, children⟩ :=
  .intro nofun (fun _ => notEmpty) areKnown

theorem known_ite_null {condition : Prop} [Decidable condition] (isKnown : Known known builder) :
    Known known (if condition then null else builder) := by
  split
  · exact known_null
  · exact isKnown

theorem known_createNewBuilder {level : UInt8} (notEmpty : children ≠ [])
    (areKnown : ∀ child ∈ children, Known known child) :
    Known known (createNewBuilder level entries children) :=
  known_ite_null (known_new notEmpty areKnown)

theorem known_extractChildren (level : UInt8) (size : ℕ) (nextIndex : ℕ)
    {items : List (ℕ × ObjectIdentifier)} (areKnown : ∀ item ∈ items, known item.2) :
    ∀ child ∈ extractChildren level size nextIndex items, Known known child := by
  induction items generalizing nextIndex with
  | nil =>
    intro child isChild
    rw [(mem_replicate.mp isChild).2]
    exact known_null
  | cons item items ih =>
    intro child isChild
    rcases mem_append.mp isChild with isGap | isLater
    · rw [(mem_replicate.mp isGap).2]
      exact known_null
    · rcases mem_cons.mp isLater with rfl | isLater
      · exact known_createExistingBuilder _ (areKnown item mem_cons_self)
      · exact ih _ (fun item isItem => areKnown item (mem_cons_of_mem _ isItem)) child isLater

theorem extractChildren_ne_nil (level : UInt8) (size : ℕ) (items : List (ℕ × ObjectIdentifier)) :
    extractChildren level size 0 items ≠ [] := by
  cases items with
  | nil => simp [extractChildren]
  | cons item items => simp [extractChildren]

theorem Known.computeContent (closed : ClosedBelow read known) (isKnown : Known known builder)
    (notNull : builder.isNull = false) (isOk : builder.computeContent read = .ok this) :
    Known known this ∧ this.children ≠ [] := by
  rw [NodeBuilder.computeContent] at isOk
  split at isOk
  case isTrue isEmpty =>
    obtain ⟨node, isRead, isLoaded⟩ := bind_eq_ok.mp isOk
    cases isLoaded
    have isExisting : builder.type = .existingNode := by
      cases isKnown with
      | intro _ loaded _ =>
        cases hasType : builder.type with
        | existingNode => rfl
        | newNode => exact absurd (isEmpty_iff.mp isEmpty) (loaded hasType)
        | nullNode => simp [isNull, hasType] at notNull
    have found : read builder.objectIdentifier = some node := by
      rw [NodeReader.treeNodeFromIdentifier] at isRead
      split at isRead
      · cases isRead
        assumption
      · cases isRead
    have areKnown := fun item => closed _ _ item (isKnown.existing isExisting) found
    constructor
    · apply Known.intro
      · exact isKnown.existing
      · exact fun _ => extractChildren_ne_nil _ _ _
      · exact known_extractChildren _ _ _ areKnown
    · exact extractChildren_ne_nil _ _ _
  case isFalse notEmpty =>
    cases isOk
    exact ⟨isKnown, fun isNil => notEmpty (isEmpty_iff.mpr isNil)⟩

theorem Known.toLevel (target : UInt8) (isKnown : Known known builder) :
    Known known (builder.toLevel target) := by
  rw [NodeBuilder.toLevel]
  split
  case isTrue => exact isKnown
  case isFalse notNull =>
    clear notNull
    generalize target.toNat - builder.level.toNat = missing
    induction missing generalizing builder with
    | zero => exact isKnown
    | succ missing ih =>
      apply ih
      apply known_createNewBuilder (cons_ne_nil _ _)
      intro child isChild
      rwa [mem_singleton.mp isChild]

theorem known_of_mem_set (index : ℕ)
    (areKnown : ∀ child ∈ children, Known known child) (isKnown : Known known other) :
    ∀ child ∈ children.set index other, Known known child := by
  intro child isChild
  rcases mem_or_eq_of_mem_set isChild with isOld | rfl
  · exact areKnown child isOld
  · exact isKnown

theorem known_split (closed : ClosedBelow read known) (isKnown : Known known builder)
    {right : NodeBuilder} (isOk : split read key fuel builder = .ok (result, right)) :
    Known known result ∧ Known known right := by
  induction fuel generalizing builder result right with
  | zero => cases isOk
  | succ fuel ih =>
    rw [split] at isOk
    split at isOk
    case isTrue =>
      cases isOk
      exact ⟨isKnown, known_null⟩
    case isFalse notNull =>
      obtain ⟨this, isLoaded, isOk⟩ := bind_eq_ok.mp isOk
      obtain ⟨thisKnown, notEmpty⟩ :=
        isKnown.computeContent closed (by simpa using notNull) isLoaded
      dsimp only at isOk
      split at isOk
      · cases isOk
        exact ⟨known_null, thisKnown⟩
      · split at isOk
        · cases isOk
          exact ⟨thisKnown, known_null⟩
        · obtain ⟨⟨left, subRight⟩, isSplit, isOk⟩ := bind_eq_ok.mp isOk
          obtain ⟨leftKnown, rightKnown⟩ := ih (thisKnown.child _) isSplit
          cases isOk
          constructor
          · apply known_ite_null
            apply known_new
            · simp [notEmpty]
            · intro child isChild
              exact known_of_mem_set _ thisKnown.children leftKnown child (mem_of_mem_take isChild)
          · apply known_createNewBuilder (cons_ne_nil _ _)
            intro child isChild
            rcases mem_cons.mp isChild with rfl | isDropped
            · exact rightKnown
            · exact thisKnown.children child (mem_of_mem_drop isDropped)

theorem known_merge (closed : ClosedBelow read known) (isKnown : Known known builder)
    (otherKnown : Known known other) (isOk : merge read fuel builder other = .ok result) :
    Known known result := by
  induction fuel generalizing builder other result with
  | zero => cases isOk
  | succ fuel ih =>
    rw [merge] at isOk
    split at isOk
    case isTrue =>
      cases isOk
      exact isKnown
    case isFalse otherSolid =>
      split at isOk
      case isTrue =>
        cases isOk
        exact otherKnown
      case isFalse solid =>
        obtain ⟨this, isLoaded, isOk⟩ := bind_eq_ok.mp isOk
        obtain ⟨second, otherLoaded, isOk⟩ := bind_eq_ok.mp isOk
        obtain ⟨middle, isMerged, isOk⟩ := bind_eq_ok.mp isOk
        cases isOk
        have thisKnown := (isKnown.computeContent closed (by simpa using solid) isLoaded).1
        have secondKnown :=
          (otherKnown.computeContent closed (by simpa using otherSolid) otherLoaded).1
        have lastKnown : Known known (this.children.getLastD null) := by
          cases hasLast : this.children.getLast? with
          | none => simpa [getLastD_eq_getLast?, hasLast] using known_null
          | some last =>
            rw [getLastD_eq_getLast?, hasLast]
            exact thisKnown.children last (mem_of_getLast? hasLast)
        apply known_new (by simp)
        intro child isChild
        rcases mem_append.mp isChild with isFirst | isLater
        · exact thisKnown.children child (mem_of_mem_dropLast isFirst)
        · rcases mem_cons.mp isLater with rfl | isTail
          · exact ih lastKnown (secondKnown.child 0) isMerged
          · exact secondKnown.children child (mem_of_mem_tail isTail)

variable {mutated : Bool}

section

variable (closed : ClosedBelow read known) {didMutate : Bool} {entry : Entry}
include closed

theorem known_delete (isKnown : Known known builder)
    (notNull : builder.isNull = false) {keyLevel : UInt8}
    (isOk : delete read fuel keyLevel key didMutate builder = .ok (result, mutated)) :
    Known known result := by
  rw [delete] at isOk
  split at isOk
  case isTrue =>
    cases isOk
    exact isKnown
  case isFalse =>
    obtain ⟨this, isLoaded, isOk⟩ := bind_eq_ok.mp isOk
    obtain ⟨thisKnown, notEmpty⟩ := isKnown.computeContent closed notNull isLoaded
    dsimp only at isOk
    split at isOk
    · cases isOk
      exact thisKnown
    · obtain ⟨merged, isMerged, isOk⟩ := bind_eq_ok.mp isOk
      cases isOk
      have mergedKnown := known_merge closed (thisKnown.child _) (thisKnown.child _) isMerged
      apply known_ite_null
      apply known_new
      · intro isNil
        have isShort := congrArg length isNil
        have isLong := length_pos_of_ne_nil notEmpty
        rw [length_eraseIdx, length_set, length_nil] at isShort
        split at isShort <;> omega
      · intro child isChild
        exact known_of_mem_set _ thisKnown.children mergedKnown child (mem_of_mem_eraseIdx isChild)

theorem known_insertEntry (thisKnown : Known known this) (notEmpty : this.children ≠ []) {index : ℕ}
    (isOk : insertEntry read fuel entry this index = .ok (result, mutated)) :
    Known known result := by
  obtain ⟨⟨left, right⟩, isSplit, isOk⟩ := bind_eq_ok.mp isOk
  obtain ⟨leftKnown, rightKnown⟩ := known_split closed (thisKnown.child _) isSplit
  cases isOk
  apply known_new
  · intro isNil
    have isShort := congrArg length isNil
    have isLong := length_pos_of_ne_nil notEmpty
    rw [length_insertIdx, length_set, length_nil] at isShort
    split at isShort <;> omega
  · intro child isChild
    rcases eq_or_mem_of_mem_insertIdx isChild with rfl | isOld
    · exact rightKnown
    · exact known_of_mem_set _ thisKnown.children leftKnown child isOld

variable (isKnown : Known known builder)
include isKnown

theorem known_update (notNull : builder.isNull = false) {changeLevel : UInt8}
    (isOk : update read fuel changeLevel entry builder = .ok (result, mutated)) :
    Known known result := by
  rw [update] at isOk
  split at isOk
  case isTrue =>
    obtain ⟨⟨left, right⟩, isSplit, isOk⟩ := bind_eq_ok.mp isOk
    obtain ⟨leftKnown, rightKnown⟩ := known_split closed isKnown isSplit
    cases isOk
    apply known_createNewBuilder (cons_ne_nil _ _)
    intro child isChild
    rcases mem_pair.mp isChild with rfl | rfl
    · exact leftKnown.toLevel _
    · exact rightKnown.toLevel _
  case isFalse =>
    obtain ⟨this, isLoaded, isOk⟩ := bind_eq_ok.mp isOk
    obtain ⟨thisKnown, notEmpty⟩ := isKnown.computeContent closed notNull isLoaded
    dsimp only at isOk
    split at isOk
    · split at isOk
      · split at isOk
        · cases isOk
          exact thisKnown
        · cases isOk
          exact known_new notEmpty thisKnown.children
      · exact known_insertEntry closed thisKnown notEmpty isOk
    · exact known_insertEntry closed thisKnown notEmpty isOk

theorem known_apply
    (isOk : apply level read change fuel didMutate builder = .ok (result, mutated)) :
    Known known result := by
  induction fuel generalizing builder result didMutate mutated with
  | zero => cases isOk
  | succ fuel ih =>
    rw [apply] at isOk
    dsimp only at isOk
    split at isOk
    case isTrue =>
      split at isOk
      · cases isOk
        exact isKnown
      · cases isOk
        apply known_createNewBuilder (cons_ne_nil _ _)
        intro child isChild
        rcases mem_pair.mp isChild with rfl | rfl <;> exact known_null
    case isFalse solid =>
      have notNull : builder.isNull = false := by simpa using solid
      split at isOk
      · obtain ⟨this, isLoaded, isOk⟩ := bind_eq_ok.mp isOk
        obtain ⟨thisKnown, notEmpty⟩ := isKnown.computeContent closed notNull isLoaded
        obtain ⟨⟨child, childMutated⟩, isApplied, isOk⟩ := bind_eq_ok.mp isOk
        have childKnown := ih (thisKnown.child _) isApplied
        have areKnown := known_of_mem_set (getEntryOrChildIndex this.entries change.entry.key)
          thisKnown.children childKnown
        dsimp only at isOk
        split at isOk
        · cases isOk
          exact .intro thisKnown.existing (fun _ => by simpa using notEmpty) areKnown
        · split at isOk
          · cases isOk
            exact known_null
          · cases isOk
            apply known_new
            · simpa using notEmpty
            · exact known_of_mem_set _ areKnown (childKnown.toLevel _)
      · split at isOk
        · exact known_delete closed isKnown notNull isOk
        · exact known_update closed isKnown notNull isOk

/-- The loop of `ApplyChangesOnRoot`. -/
theorem known_foldlM_apply {indeterminate : Bool}
    {changes : List EntryChange}
    (isOk : changes.foldlM (fun builder change => do
      let (builder, _) ← apply level read change fuel indeterminate builder
      return builder) builder = (.ok result : Call NodeBuilder)) : Known known result := by
  induction changes generalizing builder with
  | nil =>
    cases isOk
    exact isKnown
  | cons change changes ih =>
    rw [foldlM_cons] at isOk
    obtain ⟨next, isNext, isOk⟩ := bind_eq_ok.mp isOk
    obtain ⟨⟨applied, mutated⟩, isApplied, isNext⟩ := bind_eq_ok.mp isNext
    cases isNext
    exact ih (known_apply closed isKnown isApplied) isOk

end

variable {ids : NodeIdentifiers} {old : ObjectIdentifier → Prop} {state next final : BuildState ids}
  {builders built rest : List NodeBuilder}

def Familiar (old : ObjectIdentifier → Prop) (state : BuildState ids)
    (identifier : ObjectIdentifier) : Prop :=
  identifier ∈ state.newIdentifiers ∨ old identifier

def Reported (old : ObjectIdentifier → Prop) (state : BuildState ids) : Prop :=
  ∀ identifier ∈ state.newIdentifiers, ∃ node, state.store.read identifier = some node ∧
    ∀ item ∈ node.children, Familiar old state item.2

/-- The identifier is found below a node of the builder that is stored. -/
inductive Within (read : NodeReader) (identifier : ObjectIdentifier) : NodeBuilder → Prop where
  | stored {builder : NodeBuilder} (isStored : builder.type = .existingNode)
      (isBelow : NodeBelow read builder.objectIdentifier identifier) :
      Within read identifier builder
  | inside {builder child : NodeBuilder} (isNew : builder.type = .newNode)
      (isChild : child ∈ builder.children) (within : Within read identifier child) :
      Within read identifier builder

theorem Within.mono (larger : NodeStore.Extends later read)
    (within : Within read identifier builder) : Within later identifier builder := by
  induction within with
  | stored isStored isBelow => exact .stored isStored (isBelow.mono larger)
  | inside isNew isChild _ ih => exact .inside isNew isChild ih

structure Builds (old : ObjectIdentifier → Prop) (builders : List NodeBuilder)
    (state : BuildState ids) (built : List NodeBuilder) (next : BuildState ids) : Prop where
  known : ∀ builder ∈ built, Known (Familiar old next) builder
  reported : Reported old next
  grows : state.newIdentifiers ⊆ next.newIdentifiers
  larger : NodeStore.Extends next.store.read state.store.read
  within : ∀ identifier builder, builder ∈ builders →
    Within state.store.read identifier builder →
    ∃ other ∈ built, Within next.store.read identifier other
  new : ∀ identifier ∈ next.newIdentifiers, identifier ∈ state.newIdentifiers ∨
    ∃ builder ∈ built, Within next.store.read identifier builder

theorem Familiar.grow (grows : state.newIdentifiers ⊆ next.newIdentifiers) :
    ∀ identifier, Familiar old state identifier → Familiar old next identifier :=
  fun _ isFamiliar => isFamiliar.imp_left fun isNew => grows isNew

theorem Builds.refl (reported : Reported old state)
    (areKnown : ∀ builder ∈ builders, Known (Familiar old state) builder) :
    Builds old builders state builders state where
  known := areKnown
  reported := reported
  grows := Finset.Subset.refl _
  larger := .refl _
  within _ builder isBuilder isWithin := ⟨builder, isBuilder, isWithin⟩
  new _ isNew := .inl isNew

theorem Builds.trans (first : Builds old builders state built next)
    (second : Builds old built next rest final) : Builds old builders state rest final where
  __ := second
  grows := first.grows.trans second.grows
  larger := second.larger.trans first.larger
  within identifier builder isBuilder isWithin := by
    obtain ⟨middle, isMiddle, middleWithin⟩ := first.within identifier builder isBuilder isWithin
    exact second.within identifier middle isMiddle middleWithin
  new identifier isNew := by
    rcases second.new identifier isNew with isEarlier | isWithin
    · apply (first.new identifier isEarlier).imp_right
      rintro ⟨middle, isMiddle, isWithin⟩
      exact second.within identifier middle isMiddle isWithin
    · exact .inr isWithin

theorem Builds.cons (first : Builds old [builder] state [other] next)
    (later : Builds old builders next built final) :
    Builds old (builder :: builders) state (other :: built) final where
  known := by
    intro child isChild
    rcases mem_cons.mp isChild with rfl | isLater
    · exact (first.known child (mem_singleton_self _)).mono (Familiar.grow later.grows)
    · exact later.known child isLater
  reported := later.reported
  grows := first.grows.trans later.grows
  larger := later.larger.trans first.larger
  within identifier child isChild isWithin := by
    rcases mem_cons.mp isChild with rfl | isLater
    · obtain ⟨found, isFound, foundWithin⟩ :=
        first.within identifier child (mem_singleton_self _) isWithin
      cases mem_singleton.mp isFound
      exact ⟨other, mem_cons_self, foundWithin.mono later.larger⟩
    · obtain ⟨found, isFound, foundWithin⟩ :=
        later.within identifier child isLater (isWithin.mono first.larger)
      exact ⟨found, mem_cons_of_mem _ isFound, foundWithin⟩
  new identifier isNew := by
    rcases later.new identifier isNew with isEarlier | ⟨found, isFound, foundWithin⟩
    · apply (first.new identifier isEarlier).imp_right
      rintro ⟨found, isFound, foundWithin⟩
      cases mem_singleton.mp isFound
      exact ⟨other, mem_cons_self, foundWithin.mono later.larger⟩
    · exact .inr ⟨found, mem_cons_of_mem _ isFound, foundWithin⟩

theorem Builds.inside (isNew : builder.type = .newNode) (notEmpty : built ≠ [])
    (builds : Builds old builder.children state built next) :
    Builds old [builder] state [{ builder with children := built }] next where
  known := by
    intro child isChild
    cases mem_singleton.mp isChild
    exact .intro (fun isOld => absurd (isNew.symm.trans isOld) nofun) (fun _ => notEmpty)
      builds.known
  __ := builds
  within identifier child isChild isWithin := by
    cases mem_singleton.mp isChild
    cases isWithin with
    | stored isStored _ => exact absurd (isNew.symm.trans isStored) nofun
    | inside _ isChild isWithin =>
      obtain ⟨found, isFound, foundWithin⟩ := builds.within identifier _ isChild isWithin
      exact ⟨_, mem_singleton_self _, .inside isNew isFound foundWithin⟩
  new identifier isReported := by
    apply (builds.new identifier isReported).imp_right
    rintro ⟨found, isFound, foundWithin⟩
    exact ⟨_, mem_singleton_self _, .inside isNew isFound foundWithin⟩

theorem type_of_not_new (notNew : builder.isNew = false) (notNull : builder.isNull = false) :
    builder.type = .existingNode := by
  cases hasType : builder.type with
  | existingNode => rfl
  | newNode => simp [isNew, hasType] at notNew
  | nullNode => simp [isNull, hasType] at notNull

theorem builds_stored (reported : Reported old state)
    (isKnown : Known (Familiar old state) builder) (isNew : builder.type = .newNode)
    (noNewChild : ∀ child ∈ builder.children, child.isNew = false) :
    Builds old [builder] state [{ builder with
      type := .existingNode
      objectIdentifier := ids.identify builder.toTreeNode }] (state.add builder.toTreeNode) := by
  have larger := state.store.add_extends builder.toTreeNode
  have grows : state.newIdentifiers ⊆ (state.add builder.toTreeNode).newIdentifiers :=
    Finset.subset_insert _ _
  have isReported : ids.identify builder.toTreeNode ∈
      (state.add builder.toTreeNode).newIdentifiers := Finset.mem_insert_self _ _
  have isRead := state.store.add_read builder.toTreeNode
  constructor
  case known =>
    intro child isChild
    cases mem_singleton.mp isChild
    apply Known.intro
    · exact fun _ => .inl isReported
    · simp
    · exact fun child isChild => (isKnown.children child isChild).mono (Familiar.grow grows)
  case reported =>
    intro identifier isNewIdentifier
    rcases Finset.mem_insert.mp isNewIdentifier with rfl | isOld
    · use builder.toTreeNode, isRead
      intro item isItem
      obtain ⟨offset, child, -, isChild, isIdentifier⟩ := mem_childIdentifiers.mp isItem
      have isChild := mem_of_getElem? isChild
      rw [identifier] at isIdentifier
      obtain ⟨notNull, isIdentifier⟩ := Option.ite_none_left_eq_some.mp isIdentifier
      rw [← Option.some.inj isIdentifier]
      apply Familiar.grow grows
      apply (isKnown.children child isChild).existing
      exact type_of_not_new (noNewChild child isChild) (by simpa using notNull)
    · obtain ⟨node, isNode, areFamiliar⟩ := reported identifier isOld
      use node, larger _ _ isNode
      exact fun item isItem => Familiar.grow grows _ (areFamiliar item isItem)
  case grows => exact grows
  case larger => exact larger
  case within =>
    intro identifier child isChild isWithin
    cases mem_singleton.mp isChild
    refine ⟨_, mem_singleton_self _, .stored rfl ?_⟩
    cases isWithin with
    | stored isStored _ => exact absurd (isNew.symm.trans isStored) (by simp)
    | @inside _ child _ isChild isWithin =>
      cases isWithin with
      | inside childNew _ _ =>
        have notNew := noNewChild child isChild
        simp [NodeBuilder.isNew, childNew] at notNew
      | stored isStored isBelow =>
        obtain ⟨offset, isFound⟩ := getElem?_of_mem isChild
        have isItem : (offset, child.objectIdentifier) ∈ builder.toTreeNode.children := by
          apply mem_childIdentifiers.mpr
          refine ⟨offset, child, (Nat.zero_add offset).symm, isFound, ?_⟩
          simp [NodeBuilder.identifier, NodeBuilder.isNull, isStored]
        exact (NodeBelow.root.child isRead isItem).trans (isBelow.mono larger)
  case new =>
    intro identifier isNewIdentifier
    rcases Finset.mem_insert.mp isNewIdentifier with rfl | isOld
    · exact .inr ⟨_, mem_singleton_self _, .stored rfl .root⟩
    · exact .inl isOld

theorem builds_buildChildren
    (each : ∀ child ∈ children, ∀ state : BuildState ids, Reported old state →
      Known (Familiar old state) child →
      Builds old [child] state [(buildRound child state).1] (buildRound child state).2)
    (reported : Reported old state)
    (areKnown : ∀ child ∈ children, Known (Familiar old state) child) :
    Builds old children state (buildChildren children state).1
      (buildChildren children state).2 := by
  induction children generalizing state with
  | nil => exact .refl reported areKnown
  | cons child children ih =>
    have first := each child mem_cons_self state reported (areKnown child mem_cons_self)
    apply first.cons
    apply ih
    · exact fun other isOther => each other (mem_cons_of_mem _ isOther)
    · exact first.reported
    · intro other isOther
      exact (areKnown other (mem_cons_of_mem _ isOther)).mono (Familiar.grow first.grows)

theorem builds_buildRound (loaded : Known (fun _ => True) builder) (reported : Reported old state)
    (isKnown : Known (Familiar old state) builder) :
    Builds old [builder] state [(buildRound builder state).1] (buildRound builder state).2 := by
  induction loaded generalizing state with
  | @intro builder _ notEmpty _ ih =>
    by_cases isNew : builder.isNew = true
    · have hasType : builder.type = .newNode := by simpa [NodeBuilder.isNew] using isNew
      by_cases newChild : builder.children.any NodeBuilder.isNew = true
      · rw [buildRound_of_new_child isNew newChild]
        apply Builds.inside hasType
        · obtain ⟨child, rest, isCons⟩ := exists_cons_of_ne_nil (notEmpty hasType)
          simp [isCons, buildChildren]
        · exact builds_buildChildren (fun child isChild state => ih child isChild) reported
            isKnown.children
      · have noNewChild : builder.children.any NodeBuilder.isNew = false := by simpa using newChild
        rw [buildRound_of_no_new_child isNew noNewChild]
        exact builds_stored reported isKnown hasType (by simpa using noNewChild)
    · rw [buildRound_of_not_new (by simpa using isNew)]
      apply Builds.refl reported
      intro child isChild
      rwa [mem_singleton.mp isChild]

theorem isNull_buildRound (state : BuildState ids) :
    (buildRound builder state).1.isNull = builder.isNull := by
  by_cases isNew : builder.isNew = true
  · by_cases newChild : builder.children.any NodeBuilder.isNew = true
    · rw [buildRound_of_new_child isNew newChild]
      rfl
    · rw [buildRound_of_no_new_child isNew (by simpa using newChild)]
      have hasType : builder.type = .newNode := by simpa [NodeBuilder.isNew] using isNew
      simp [isNull, hasType]
  · rw [buildRound_of_not_new (by simpa using isNew)]

theorem builds_buildLoop (reported : Reported old state)
    (isKnown : Known (Familiar old state) builder)
    (isOk : buildLoop fuel builder state = .ok (result, final)) :
    Builds old [builder] state [result] final ∧ result.isNew = false ∧
      result.isNull = builder.isNull := by
  induction fuel generalizing builder state with
  | zero => cases isOk
  | succ fuel ih =>
    rw [buildLoop] at isOk
    split at isOk
    case isTrue isNew =>
      have round := builds_buildRound (isKnown.mono fun _ _ => trivial) reported isKnown
      obtain ⟨builds, notNew, isNull⟩ :=
        ih round.reported (round.known _ (mem_singleton_self _)) isOk
      exact ⟨round.trans builds, notNew, isNull.trans (isNull_buildRound state)⟩
    case isFalse notNew =>
      cases isOk
      refine ⟨.refl reported fun child isChild => ?_, by simpa using notNew, rfl⟩
      rwa [mem_singleton.mp isChild]

theorem build_reported {store : NodeStore ids}
    (isKnown : Known old builder) (isOk : build fuel builder ⟨store, ∅⟩ = .ok (root, final)) :
    Reported old final ∧ Familiar old final root ∧ NodeStore.Extends final.store.read store.read ∧
      ∀ identifier ∈ final.newIdentifiers, NodeBelow final.store.read root identifier := by
  rw [build] at isOk
  split at isOk
  case isTrue =>
    cases isOk
    have isOnly : ∀ identifier, identifier ∈ (BuildState.add ⟨store, ∅⟩ emptyNode).newIdentifiers →
        identifier = ids.identify emptyNode := by
      intro identifier isNew
      simpa [BuildState.add] using isNew
    refine ⟨?_, .inl (Finset.mem_insert_self _ _), store.add_extends _, ?_⟩
    · intro identifier isNew
      rw [isOnly identifier isNew]
      exact ⟨emptyNode, store.add_read _, fun item isItem => absurd isItem not_mem_nil⟩
    · intro identifier isNew
      rw [isOnly identifier isNew]
      exact .root
  case isFalse notNull =>
    obtain ⟨⟨result, state⟩, isLoop, isOk⟩ := bind_eq_ok.mp isOk
    cases isOk
    have noneYet : Reported old ⟨store, ∅⟩ := fun identifier isNew => by simp at isNew
    obtain ⟨builds, notNew, isNull⟩ :=
      builds_buildLoop noneYet (isKnown.mono fun _ isOld => .inr isOld) isLoop
    have isStored := type_of_not_new notNew (isNull.trans (by simpa using notNull))
    have rootKnown := builds.known result (mem_singleton_self _)
    refine ⟨builds.reported, rootKnown.existing isStored, builds.larger, ?_⟩
    intro identifier isNew
    obtain ⟨found, isFound, isWithin⟩ :=
      (builds.new identifier isNew).resolve_left (Finset.notMem_empty _)
    cases mem_singleton.mp isFound
    cases isWithin with
    | stored _ isBelow => exact isBelow
    | inside isNewNode _ _ => exact absurd (isStored.symm.trans isNewNode) (by simp)

end NodeBuilder

open NodeBuilder

variable {ids : NodeIdentifiers} {level : NodeLevelCalculator} {store : NodeStore ids}
  {root : ObjectIdentifier} {tree : LeveledTree Entry} {fuel : ℕ}

theorem known_fromIdentifier {builder : NodeBuilder}
    (isOk : fromIdentifier store.read root = .ok builder) :
    Known (NodeBelow store.read root) builder := by
  obtain ⟨node, isRead, isOk⟩ := bind_eq_ok.mp isOk
  cases isOk
  rw [NodeReader.treeNodeFromIdentifier] at isRead
  split at isRead
  case h_1 found =>
    cases isRead
    apply Known.intro
    · exact fun _ => .root
    · rintro ⟨⟩
    · exact known_extractChildren _ _ _ fun item isItem => .child .root found isItem
  case h_2 => cases isRead

theorem familiar_of_nodeBelow {state : BuildState ids} {newRoot : ObjectIdentifier}
    (wellFormed : WellFormed level store.read root tree)
    (larger : NodeStore.Extends state.store.read store.read)
    (reported : Reported (NodeBelow store.read root) state)
    (isRoot : Familiar (NodeBelow store.read root) state newRoot)
    (isBelow : NodeBelow state.store.read newRoot identifier) :
    Familiar (NodeBelow store.read root) state identifier := by
  obtain ⟨rootNode, isRootNode, sound, -⟩ := TreeNode.sound_of_stored wellFormed.stored
  induction isBelow with
  | root => exact isRoot
  | child _ found isChild ih =>
    rcases ih with isNew | isOld
    · obtain ⟨node, isNode, areFamiliar⟩ := reported _ isNew
      cases isNode.symm.trans found
      exact areFamiliar _ isChild
    · obtain ⟨node, isNode, -⟩ := isOld.sound ⟨rootNode, isRootNode, sound⟩
      cases (larger _ _ isNode).symm.trans found
      exact .inr (isOld.child isNode isChild)

theorem NodeBelow.eq_of_emptyNode (isRead : read root = some emptyNode)
    (isBelow : NodeBelow read root identifier) : identifier = root := by
  induction isBelow with
  | root => rfl
  | child _ found isChild ih =>
    cases ih
    cases isRead.symm.trans found
    cases isChild

/-- The new identifiers are those of nodes of the new tree, among them all that are not nodes of
the old one. -/
theorem applyChanges_newIdentifiers (wellFormed : WellFormed level store.read root tree)
    (changes : List EntryChange) (indeterminate : Bool) (enough : 257 < fuel) :
    ∃ result, applyChanges level fuel indeterminate store root ⟨changes, .ok⟩ = .ok result ∧
      ∀ identifier, (NodeBelow result.store.read result.root identifier →
          ¬NodeBelow store.read root identifier → identifier ∈ result.newIdentifiers) ∧
        (identifier ∈ result.newIdentifiers →
          NodeBelow result.store.read result.root identifier) := by
  obtain ⟨result, isOk, -, isStored⟩ :=
    applyChanges_stored wellFormed.stored changes indeterminate enough
  use result, isOk
  have closed : ClosedBelow store.read (NodeBelow store.read root) :=
    fun _ _ _ isBelow found isChild => isBelow.child found isChild
  obtain ⟨builder, isLoaded, isOk⟩ := bind_eq_ok.mp isOk
  obtain ⟨⟨newRoot, state⟩, isApplied, isOk⟩ := bind_eq_ok.mp isOk
  obtain ⟨changed, isChanged, isBuilt⟩ := bind_eq_ok.mp isApplied
  have isKnown := known_foldlM_apply closed (known_fromIdentifier isLoaded) isChanged
  obtain ⟨reported, isRoot, larger, areBelow⟩ := build_reported isKnown isBuilt
  dsimp only at isOk
  split at isOk
  case isTrue =>
    cases isOk
    intro identifier
    refine ⟨fun isBelow notOld => ?_, areBelow identifier⟩
    exact (familiar_of_nodeBelow wellFormed larger reported isRoot isBelow).resolve_right notOld
  case isFalse =>
    cases isOk
    have isRead := state.store.add_read emptyNode
    intro identifier
    constructor
    · intro isBelow _
      exact Finset.mem_singleton.mpr (isBelow.eq_of_emptyNode isRead)
    · intro isNew
      rw [Finset.mem_singleton.mp isNew]
      exact .root

theorem applyChanges_newIdentifiers_sample :
    ∃ result, applyChanges (fun key => if key = [2] then 1 else 0) 258 false
        (NodeStore.initial .byCode) (NodeIdentifiers.byCode.identify emptyNode)
        ⟨[⟨⟨[1], default, .eager⟩, false⟩, ⟨⟨[2], default, .lazy⟩, false⟩,
          ⟨⟨[3], default, .eager⟩, true⟩], .ok⟩ = .ok result ∧ ∀ identifier,
        (NodeBelow result.store.read result.root identifier →
          ¬NodeBelow (NodeStore.initial .byCode).read
            (NodeIdentifiers.byCode.identify emptyNode) identifier →
          identifier ∈ result.newIdentifiers) ∧ (identifier ∈ result.newIdentifiers →
          NodeBelow result.store.read result.root identifier) :=
  applyChanges_newIdentifiers (wellFormed_initial .byCode _) _ false (by decide)

end Peridot
