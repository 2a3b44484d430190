import Peridot.ContextForest

/-!
# Selecting context values

Every call of the repository leaves it in step with the forest of its values, so that `Select`
finds the values whose type and merged metadata a selector asks for.
-/

namespace Peridot

open Option ContextForest Function

namespace ContextRepository

/-- A subscription after `QueryAndMaybeNotify` of the update of values. -/
def notified (repository : ContextRepository) (forest : ContextForest)
    (subscription : ContextSubscription) : ContextSubscription :=
  if repository.matchedVersions forest subscription.query = subscription.lastUpdate then
    subscription
  else { subscription with
    lastUpdate := repository.matchedVersions forest subscription.query
    delivered := some (forest.result subscription.query) }

/-- What `ReindexAndNotify` leaves. -/
structure Notified (repository : ContextRepository) (forest : ContextForest)
    (next : ContextRepository) : Prop where
  synced : next.Synced forest
  versions : ∀ id, (next.values id).map (·.version) = (repository.values id).map (·.version)
  subscriptions : next.subscriptions = repository.subscriptions.map (next.notified forest)

variable {repository : ContextRepository} {forest : ContextForest}

/-- `ReindexAndNotify` does its work if all values have their metadata that are not updated, and
the index has what is stored of the other ones or less. -/
theorem Shape.reindexAndNotify (shape : repository.Shape forest)
    (removed : List (ℕ × ValueInternal)) (updated : List ℕ) {keysOf : ℕ → List Bytes}
    (isStored : ∀ id ∈ updated, (forest.value id).isSome)
    (index : ContextIndex.Holds (removed.foldl (fun index value =>
      index.remove value.1 value.2.value.type value.2.mergedMetadata) repository.index) keysOf)
    (indexed : ∀ id, ∀ key ∈ keysOf id, key ∈ repository.storedKeys id)
    (current : ∀ id, id ∉ updated → keysOf id = repository.storedKeys id)
    (merged : ∀ id, id ∉ updated → ∀ value, repository.values id = some value →
      value.mergedMetadata = forest.mergedMetadata id) :
    ∃ next, repository.reindexAndNotify removed updated = some next ∧
      repository.Notified forest next := by
  have clearedShape : Shape { repository with index := removed.foldl (fun index value =>
      index.remove value.1 value.2.value.type value.2.mergedMetadata) repository.index } forest :=
    ⟨shape.size, shape.values, shape.graph⟩
  obtain ⟨reindexed, isReindexed, after⟩ := clearedShape.reindex_all isStored index indexed current
  have synced : reindexed.Synced forest := by
    refine ⟨after.shape, fun id value isValue => ?_, after.index⟩
    rw [after.values] at isValue
    obtain ⟨before, isBefore, rfl⟩ := map_eq_some_iff.mp isValue
    by_cases member : id ∈ updated
    · simp [member]
    · simpa [member] using merged id member before isBefore
  have notifiedAll : (reindexed.subscriptions.mapM fun subscription =>
      reindexed.queryAndMaybeNotify subscription false) =
      some (reindexed.subscriptions.map (reindexed.notified forest)) := by
    rw [mapM_eq_filterMap fun subscription _ => by rw [synced.queryAndMaybeNotify_eq]; rfl]
    simp only [synced.queryAndMaybeNotify_eq, Bool.not_false, Bool.true_and, decide_eq_true_eq,
      List.filterMap_eq_map']
    rfl
  let subscriptions := reindexed.subscriptions.map (reindexed.notified forest)
  refine ⟨{ reindexed with subscriptions }, ?_, ?_, ?_, ?_⟩
  · rw [ContextRepository.reindexAndNotify, isReindexed, bind_some, notifiedAll]
    rfl
  · exact ⟨⟨synced.shape.size, synced.shape.values, synced.shape.graph⟩, synced.merged,
      synced.index⟩
  · intro id
    rw [after.values, map_map]
    rfl
  · exact congrArg (List.map (reindexed.notified forest)) after.subscriptions

variable (synced : repository.Synced forest)
include synced

theorem Synced.add_eq {parent : Option ℕ} (value : ContextValue) (small : forest.size < 2 ^ 32)
    (isStored : ∀ up ∈ parent, (forest.value up).isSome) :
    ∃ next, repository.add parent value = some next ∧ Notified { repository with
        values := Function.update repository.values forest.size (some ⟨none, value, 0⟩) }
        (forest.add parent value) next := by
  have newId : repository.createValueId = forest.size := by
    rw [createValueId, synced.shape.size, Nat.mod_eq_of_lt small]
  have absent : repository.values forest.size = none := by
    rw [← isNone_iff_eq_none, ← not_isSome, synced.shape.isSome, forest.value_size (Nat.le_refl _)]
    rfl
  let added : ContextRepository := { repository with
    nextId := repository.nextId + 1
    values := Function.update repository.values forest.size (some ⟨none, value, 0⟩)
    graph := repository.graph.addParent parent forest.size }
  have addedEq : repository.add parent value = added.reindexAndNotify [] [forest.size] := by
    cases parent with
    | none => simp [add, addInternal, newId, contains, absent, added]
    | some up =>
      have upStored : repository.contains up := by
        rw [contains, synced.shape.isSome]
        exact isStored up rfl
      simp [add, addInternal, newId, upStored, added]
      simp [contains, absent]
  have represents : (repository.graph.addParent parent forest.size).Represents
      (forest.add parent value) := by
    cases parent with
    | none => exact synced.shape.graph.addRoot value
    | some up => exact synced.shape.graph.addEdge (isStored up rfl) value
  have shape : added.Shape (forest.add parent value) := by
    refine ⟨congrArg (· + 1) synced.shape.size, fun id => ?_, represents⟩
    by_cases same : id = forest.size
    · subst same
      simp [get, added, Forest.add]
    · simpa [get, added, Forest.add, update_of_ne same] using synced.shape.values id
  have addedKeys : ∀ id, id ≠ forest.size → repository.storedKeys id = added.storedKeys id := by
    intro id other
    simp [storedKeys, added, update_of_ne other]
  obtain ⟨next, isNext, after⟩ := shape.reindexAndNotify [] [forest.size]
    (by simp [Forest.add]) synced.index
    (by
      intro id key member
      by_cases same : id = forest.size
      · subst same
        simp [storedKeys, absent] at member
      · rwa [← addedKeys id same])
    (fun id notNew => addedKeys id (by simpa using notNew))
    (by
      intro id notNew found isFound
      have other : id ≠ forest.size := by simpa using notNew
      simp only [added, update_of_ne other] at isFound
      rw [synced.merged id found isFound,
        mergedMetadata_congr (Forest.lineage_add parent value other)])
  exact ⟨next, addedEq.trans isNext, after.synced, after.versions, after.subscriptions⟩

theorem Synced.update_eq {id : ℕ} {old value : ContextValue}
    (isOld : forest.value id = some old) (sameType : old.type = value.type) :
    ∃ found next, repository.values id = some found ∧ repository.update id value = some next ∧
      Notified { repository with
        values := Function.update repository.values id
          (some { found with value, version := found.version + 1 }) }
        (forest.set id value) next := by
  obtain ⟨found, isFound⟩ := isSome_iff_exists.mp
    ((synced.shape.isSome id).trans (by rw [isOld]; rfl))
  have isFoundValue : found.value = old := some.inj ((synced.shape.value isFound).symm.trans isOld)
  obtain ⟨children, isChildren, mem_children⟩ :=
    synced.shape.graph.getChildrenRecursive_eq (by rw [isOld]; rfl)
      (Nat.le_of_eq synced.shape.size.symm)
  let updated : ContextRepository := { repository with
    values := Function.update repository.values id
      (some { found with value, version := found.version + 1 }) }
  have shape : updated.Shape (forest.set id value) := by
    refine ⟨synced.shape.size, fun other => ?_, synced.shape.graph.set value⟩
    by_cases same : other = id
    · subst same
      simp [get, updated, Forest.set, isOld]
    · simpa [get, updated, Forest.set, update_of_ne same] using synced.shape.values other
  have sameKeys : ∀ other, repository.storedKeys other = updated.storedKeys other := by
    intro other
    by_cases same : other = id
    · subst same
      simp [storedKeys, updated, isFound, isFoundValue, sameType]
    · simp [storedKeys, updated, update_of_ne same]
  obtain ⟨next, isNext, after⟩ := shape.reindexAndNotify []
    (id :: decimalIds children)
    (by
      intro other member
      have isStored : (forest.value other).isSome := by
        rcases List.mem_cons.mp member with rfl | member
        · rw [isOld]; rfl
        · exact ((mem_children other).mp (mem_decimalIds.mp member)).node_isSome
      rw [← synced.shape.isSome] at isStored
      rw [← shape.values, get, isSome_map]
      by_cases same : other = id
      · simp [updated, same]
      · simpa [updated, update_of_ne same] using isStored)
    synced.index (fun other key member => sameKeys other ▸ member) (fun other _ => sameKeys other)
    (by
      intro other notUpdated stored isStored
      have differs : other ≠ id := fun same => notUpdated (by simp [same])
      have notBelow : ¬ forest.Below id other := fun below =>
        notUpdated (.tail _ (mem_decimalIds.mpr ((mem_children other).mpr below)))
      simp only [updated, update_of_ne differs] at isStored
      rw [synced.merged other stored isStored,
        mergedMetadata_congr (Forest.lineage_set value differs notBelow)])
  refine ⟨found, next, isFound, ?_, after⟩
  rw [update, isFound, bind_some, isChildren]
  exact isNext

theorem Synced.remove_eq {id : ℕ} {found : ValueInternal}
    (isFound : repository.values id = some found) : ∃ next, repository.remove id = some next ∧
      Notified { repository with values := Function.update repository.values id none }
        (forest.remove id) next := by
  obtain ⟨children, isChildren, mem_children⟩ :=
    synced.shape.graph.getChildrenRecursive_eq (by rw [synced.shape.value isFound]; rfl)
      (Nat.le_of_eq synced.shape.size.symm)
  let removed : ContextRepository := { repository with
    values := Function.update repository.values id none
    graph := repository.graph.remove id }
  have shape : removed.Shape (forest.remove id) := by
    refine ⟨synced.shape.size, fun other => ?_, synced.shape.graph.remove⟩
    by_cases same : other = id
    · subst same
      simp [get, removed, Forest.remove]
    · simpa [get, removed, Forest.remove, update_of_ne same] using synced.shape.values other
  have index : ContextIndex.Holds
      (repository.index.remove id found.value.type found.mergedMetadata)
      (Function.update repository.storedKeys id []) :=
    synced.index.remove id _ _ fun key member => by simpa [storedKeys, isFound] using member
  have sameKeys : Function.update repository.storedKeys id [] = removed.storedKeys := by
    funext other
    by_cases same : other = id
    · subst same
      simp [storedKeys, removed]
    · simp [storedKeys, removed, update_of_ne same]
  obtain ⟨next, isNext, after⟩ := shape.reindexAndNotify [(id, found)]
    (decimalIds children)
    (by
      intro other member
      have below := (mem_children other).mp (mem_decimalIds.mp member)
      have differs : other ≠ id := fun same => by
        have less := below.lt
        omega
      simpa [Forest.remove, update_of_ne differs] using below.node_isSome)
    index (fun other key member => by rwa [← sameKeys]) (fun other _ => by rw [sameKeys])
    (by
      intro other notUpdated stored isStored
      by_cases same : other = id
      · simp [removed, same] at isStored
      · have notBelow : ¬ forest.Below id other := fun below =>
          notUpdated (mem_decimalIds.mpr ((mem_children other).mpr below))
        simp only [removed, update_of_ne same] at isStored
        rw [synced.merged other stored isStored,
          mergedMetadata_congr (Forest.lineage_remove same notBelow)])
  refine ⟨next, ?_, after.synced, after.versions, after.subscriptions⟩
  rw [remove, isFound]
  simp only [isChildren, bind_some]
  exact isNext

end ContextRepository

structure ContextWorld where
  repository : ContextRepository
  forest : ContextForest

namespace ContextWorld

def initial : ContextWorld :=
  ⟨.initial, Forest.empty⟩

def call (world : ContextWorld) (called : ContextCall) : Option ContextWorld :=
  (world.repository.call called).map fun repository => ⟨repository, world.forest.call called⟩

/-- What callers keep to: ids are not used twice, a parent and what is updated are stored, and an
update keeps the type. -/
def Allows (world : ContextWorld) : ContextCall → Prop
  | .add parent _ => world.forest.size < 2 ^ 32 ∧ ∀ up ∈ parent, (world.forest.value up).isSome
  | .update id value => ∃ old ∈ world.forest.value id, old.type = value.type
  | .remove _ => True
  | .addSubscription _ => True
  | .removeSubscription id =>
    ∃ subscription ∈ world.repository.subscriptions, subscription.id = id

instance (world : ContextWorld) (called : ContextCall) : Decidable (world.Allows called) := by
  cases called <;> unfold Allows <;> infer_instance

/-- The calls that the callers may make are carried out, and keep the repository in step. -/
theorem call_synced {world : ContextWorld} {called : ContextCall}
    (synced : world.repository.Synced world.forest) (allowed : world.Allows called) :
    ∃ next, world.call called = some next ∧ next.repository.Synced next.forest := by
  obtain ⟨repository, forest⟩ := world
  cases called with
  | add parent value =>
    obtain ⟨next, isNext, after⟩ := synced.add_eq value allowed.1 allowed.2
    exact ⟨⟨next, _⟩, congrArg (Option.map _) isNext, after.synced⟩
  | update id value =>
    obtain ⟨old, isOld, sameType⟩ := allowed
    obtain ⟨_, next, _, isNext, after⟩ := synced.update_eq isOld sameType
    exact ⟨⟨next, _⟩, congrArg (Option.map _) isNext, after.synced⟩
  | remove id =>
    cases isFound : repository.values id with
    | none =>
      have isNone : forest.value id = none := by
        rw [← synced.shape.values, ContextRepository.get, isFound, map_none]
      refine ⟨⟨repository, forest⟩, ?_, synced⟩
      simp [call, ContextRepository.call, ContextRepository.remove, isFound,
        ContextForest.call, Forest.remove_of_none isNone]
    | some found =>
      obtain ⟨next, isNext, after⟩ := synced.remove_eq isFound
      exact ⟨⟨next, _⟩, congrArg (Option.map _) isNext, after.synced⟩
  | addSubscription query =>
    refine ⟨_, congrArg (Option.map _) (congrArg (Option.map _)
      (synced.queryAndMaybeNotify_eq _ true)), ?_⟩
    exact ⟨⟨synced.shape.size, synced.shape.values, synced.shape.graph⟩, synced.merged,
      synced.index⟩
  | removeSubscription id =>
    obtain ⟨subscription, member, sameId⟩ := allowed
    have isAny : repository.subscriptions.any fun subscription => subscription.id = id :=
      List.any_eq_true.mpr ⟨subscription, member, by simpa using sameId⟩
    refine ⟨_, congrArg (Option.map _) (if_pos isAny), ?_⟩
    exact ⟨⟨synced.shape.size, synced.shape.values, synced.shape.graph⟩, synced.merged,
      synced.index⟩

theorem initial_synced : initial.repository.Synced initial.forest where
  shape := ⟨rfl, fun _ => rfl, .empty⟩
  merged := by
    intro id value isValue
    simp [initial, ContextRepository.initial] at isValue
  index := by
    intro key id
    simp [initial, ContextRepository.initial, ContextRepository.storedKeys]

end ContextWorld

/-- The module path that the call gives to a value can be told from the others in the index. -/
def ContextCall.NulFree : ContextCall → Prop
  | .add _ value => ContextMetadata.NulFree value.metadata
  | .update _ value => ContextMetadata.NulFree value.metadata
  | _ => True

instance (called : ContextCall) : Decidable called.NulFree := by
  cases called <;> unfold ContextCall.NulFree <;> infer_instance

namespace ContextForest

def NulFree (forest : ContextForest) : Prop :=
  ∀ id value, forest.value id = some value → ContextMetadata.NulFree value.metadata

theorem NulFree.mergedMetadata {forest : ContextForest} (free : forest.NulFree) (id : ℕ) :
    ContextMetadata.NulFree (forest.mergedMetadata id) := by
  intro path isPath
  have isTopmost : path ∈ (forest.topmost (fun value => value.metadata.bind (·.mod)) id).bind
      (·.path) := by
    rw [ContextForest.mergedMetadata, ContextMetadata.orNull] at isPath
    split at isPath
    · simp at isPath
    · exact isPath
  obtain ⟨mod, isMod, isPath⟩ := bind_eq_some_iff.mp isTopmost
  obtain ⟨value, member, isMod⟩ := List.exists_of_findSome?_eq_some isMod
  obtain ⟨above, -, isValue⟩ := List.mem_filterMap.mp member
  exact free above value isValue path (by rw [isMod]; exact isPath)

theorem NulFree.call {forest : ContextForest} (free : forest.NulFree) {called : ContextCall}
    (calledFree : called.NulFree) : (forest.call called).NulFree := by
  intro id value isValue
  cases called with
  | add parent added =>
    by_cases same : id = forest.size
    · subst same
      simp only [ContextForest.call, Forest.add, update_self] at isValue
      cases isValue
      exact calledFree
    · simp only [ContextForest.call, Forest.add, update_of_ne same] at isValue
      exact free id value isValue
  | update changed new =>
    by_cases same : id = changed
    · subst same
      simp only [ContextForest.call, Forest.set, update_self] at isValue
      obtain ⟨_, -, rfl⟩ := map_eq_some_iff.mp isValue
      exact calledFree
    · simp only [ContextForest.call, Forest.set, update_of_ne same] at isValue
      exact free id value isValue
  | remove removed =>
    by_cases same : id = removed
    · simp [ContextForest.call, Forest.remove, same] at isValue
    · simp only [ContextForest.call, Forest.remove, update_of_ne same] at isValue
      exact free id value isValue
  | addSubscription _ | removeSubscription _ => exact free id value isValue

end ContextForest

namespace ContextWorld

/-- Every run of such calls goes to its end.  Then `Select` gives the values of the selector's type
whose merged metadata satisfies the selector's. -/
theorem select_run (calls : List ContextCall) (allowed : EachStep call Allows initial calls)
    (nulFree : ∀ called ∈ calls, called.NulFree) :
    ∃ world, runSteps call initial calls = some world ∧
      (∀ id, world.repository.get id = world.forest.value id) ∧
      ∀ selector : ContextSelector, ContextMetadata.NulFree selector.metadata → ∀ id,
        id ∈ world.repository.select selector ↔
          ∃ value, world.forest.value id = some value ∧ value.type = selector.type ∧
            ContextMetadata.Satisfies (world.forest.mergedMetadata id) selector.metadata := by
  have free : EachStep call (fun _ called => called.NulFree) initial calls :=
    eachStep_of_forall nulFree initial
  obtain ⟨world, isRun, synced, worldFree⟩ := exists_runSteps
    (fun world => world.repository.Synced world.forest ∧ world.forest.NulFree)
    (fun {state _} inv condition => by
      obtain ⟨next, isNext, synced⟩ := call_synced inv.1 condition.1
      refine ⟨next, isNext, synced, ?_⟩
      obtain ⟨_, _, rfl⟩ := map_eq_some_iff.mp isNext
      exact inv.2.call condition.2)
    ⟨initial_synced, fun _ _ isValue => nomatch isValue⟩ (allowed.and free)
  refine ⟨world, isRun, synced.shape.values, fun selector selectorFree id => ?_⟩
  rw [synced.mem_select, mem_matchingIds]
  constructor
  · intro matched
    obtain ⟨value, isValue⟩ := value_of_keys matched
    rw [keys, isValue, elim_some,
      encode_subset_iff (worldFree.mergedMetadata id) selectorFree] at matched
    exact ⟨value, isValue, matched⟩
  · rintro ⟨value, isValue, satisfied⟩
    rw [keys, isValue, elim_some, encode_subset_iff (worldFree.mergedMetadata id) selectorFree]
    exact satisfied

def sampleStory (id : Bytes) : ContextValue :=
  ⟨.story, none, some { ContextMetadata.new with story := some ⟨some id, none⟩ }⟩

def sampleEntity : ContextValue :=
  ⟨.entity, some (ascii ['{', '}']),
    some { ContextMetadata.new with entity := some ⟨some (ascii ['t']), none⟩ }⟩

def sampleCalls : List ContextCall :=
  [.add none (sampleStory (ascii ['a'])), .add (some 0) sampleEntity,
    .update 0 (sampleStory (ascii ['b'])), .remove 0]

theorem select_run_sample : ∃ world, runSteps call initial sampleCalls = some world ∧
    (∀ id, world.repository.get id = world.forest.value id) ∧
    ∀ selector : ContextSelector, ContextMetadata.NulFree selector.metadata → ∀ id,
      id ∈ world.repository.select selector ↔
        ∃ value, world.forest.value id = some value ∧ value.type = selector.type ∧
          ContextMetadata.Satisfies (world.forest.mergedMetadata id) selector.metadata :=
  select_run sampleCalls (by decide) (by decide)

end ContextWorld

end Peridot
