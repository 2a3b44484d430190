import Peridot.ContextRepository

/-!
# Context values as a forest

What the repository is for: a forest of values, each of which is seen with the metadata of the
values above it.  Every call of the repository keeps the two in step, and its index with them.
-/

namespace Peridot

open List Function

abbrev ContextForest := Forest ContextValue

namespace ContextForest

def mergedMetadata (forest : ContextForest) (id : ℕ) : Option ContextMetadata :=
  ContextMetadata.orNull
    ⟨forest.topmost (fun value => value.metadata.bind (·.story)) id,
      forest.topmost (fun value => value.metadata.bind (·.mod)) id,
      forest.topmost (fun value => value.metadata.bind (·.entity)) id,
      forest.topmost (fun value => value.metadata.bind (·.link)) id⟩

def call (forest : ContextForest) : ContextCall → ContextForest
  | .add parent value => forest.add parent value
  | .update id value => forest.set id value
  | .remove id => forest.remove id
  | .addSubscription _ => forest
  | .removeSubscription _ => forest

theorem mergedMetadata_eq (forest : ContextForest) (id : ℕ) : forest.mergedMetadata id =
    (firstFields ((forest.lineage id).map (·.metadata))).orNull := by
  simp only [mergedMetadata, firstFields, Forest.topmost, findSome?_map, comp_def]

theorem mergedMetadata_congr {forest other : ContextForest} {id : ℕ}
    (same : other.lineage id = forest.lineage id) :
    other.mergedMetadata id = forest.mergedMetadata id := by
  rw [mergedMetadata_eq, mergedMetadata_eq, same]

def keys (forest : ContextForest) (id : ℕ) : List Bytes :=
  (forest.value id).elim [] fun value =>
    encodeMetadataAndType value.type (forest.mergedMetadata id)

end ContextForest

namespace ContextRepository

/-- The repository has the values and the links of the forest. -/
structure Shape (repository : ContextRepository) (forest : ContextForest) : Prop where
  size : repository.nextId = forest.size
  values : ∀ id, repository.get id = forest.value id
  graph : repository.graph.Represents forest

variable {repository : ContextRepository} {forest : ContextForest} {id : ℕ}

section

variable (shape : repository.Shape forest)
include shape

theorem Shape.isSome (id : ℕ) : (repository.values id).isSome = (forest.value id).isSome := by
  rw [← shape.values, get, Option.isSome_map]

theorem Shape.value {value : ValueInternal}
    (isValue : repository.values id = some value) : forest.value id = some value.value := by
  rw [← shape.values, get, isValue, Option.map_some]

theorem Shape.recomputeMergedMetadata_eq {value : ValueInternal}
    (isValue : repository.values id = some value) :
    repository.recomputeMergedMetadata id value = some (forest.mergedMetadata id) := by
  have isForestValue := shape.value isValue
  have idLt : id < forest.size := forest.value_lt (by simp [isForestValue])
  have merge : ∀ (ancestors : List ℕ) (merged : Option ContextMetadata),
      (∀ ancestor ∈ ancestors, (forest.value ancestor).isSome) →
      ancestors.foldlM (fun merged ancestor => (repository.values ancestor).map fun found =>
          mergeMetadata found.value.metadata merged) merged =
        some (((ancestors.filterMap forest.value).map (·.metadata)).foldl
          (fun merged metadata => mergeMetadata metadata merged) merged) := by
    intro ancestors
    induction ancestors with
    | nil => exact fun _ _ => rfl
    | cons ancestor ancestors ih =>
      intro merged isStored
      obtain ⟨found, isFound⟩ := Option.isSome_iff_exists.mp
        ((shape.isSome ancestor).trans (isStored ancestor (.head _)))
      rw [foldlM_cons, isFound, Option.map_some, filterMap_cons_some (shape.value isFound)]
      exact ih _ fun other member => isStored other (.tail _ member)
  rw [recomputeMergedMetadata, shape.graph.getAncestors_eq (by rw [shape.size]; omega),
    Option.bind_some, merge _ none fun ancestor member =>
      (Forest.mem_ancestors.mp member).up_isSome, Option.map_some,
    ContextForest.mergedMetadata_eq, Forest.lineage, filterMap_append, map_append]
  have start : (none : Option ContextMetadata) = ContextMetadata.new.orNull := rfl
  have last := foldl_mergeMetadata (((forest.ancestors id).filterMap forest.value).map
    (·.metadata) ++ [value.value.metadata]) .new
  rw [foldl_append, ← start] at last
  simp only [filterMap_cons, isForestValue, filterMap_nil, map_cons, map_nil]
  rw [show ∀ fields, ContextMetadata.new.orElse fields = fields from fun _ => rfl] at last
  exact congrArg some last

end

def storedKeys (repository : ContextRepository) (id : ℕ) : List Bytes :=
  (repository.values id).elim [] fun value =>
    encodeMetadataAndType value.value.type value.mergedMetadata

/-- What `ReindexAndNotify` leaves when it has been through `updated`. -/
structure Reindexed (repository : ContextRepository) (forest : ContextForest) (updated : List ℕ)
    (next : ContextRepository) : Prop where
  shape : next.Shape forest
  values : ∀ id, next.values id = (repository.values id).map fun value =>
    { value with
      mergedMetadata := if id ∈ updated then forest.mergedMetadata id else value.mergedMetadata }
  index : next.index.Holds next.storedKeys
  nextSubscription : next.nextSubscription = repository.nextSubscription
  subscriptions : next.subscriptions = repository.subscriptions

/-- Values are reindexed one after the other.  Before its turn a value may have fewer keys in the
index than its metadata gives. -/
theorem Shape.reindex_all (shape : repository.Shape forest) {updated : List ℕ}
    {keysOf : ℕ → List Bytes} (isStored : ∀ id ∈ updated, (forest.value id).isSome)
    (index : repository.index.Holds keysOf)
    (indexed : ∀ id, ∀ key ∈ keysOf id, key ∈ repository.storedKeys id)
    (current : ∀ id, id ∉ updated → keysOf id = repository.storedKeys id) :
    ∃ next, updated.foldlM reindex repository = some next ∧
      Reindexed repository forest updated next := by
  induction updated generalizing repository keysOf with
  | nil =>
    refine ⟨repository, rfl, shape, fun id => by simp, ?_, rfl, rfl⟩
    rwa [← funext fun id => current id (by simp)]
  | cons id updated ih =>
    obtain ⟨value, isValue⟩ := Option.isSome_iff_exists.mp
      ((shape.isSome id).trans (isStored id (.head _)))
    let next : ContextRepository :=
      { repository with
        index := (repository.index.remove id value.value.type value.mergedMetadata).add id
          value.value.type (forest.mergedMetadata id)
        values := Function.update repository.values id
          (some { value with mergedMetadata := forest.mergedMetadata id }) }
    have isNext : repository.reindex id = some next := by
      rw [reindex, isValue, Option.bind_some, shape.recomputeMergedMetadata_eq isValue,
        Option.map_some]
    have nextShape : next.Shape forest := by
      refine ⟨shape.size, fun other => ?_, shape.graph⟩
      by_cases same : other = id
      · subst same
        simp [get, next, shape.value isValue]
      · rw [← shape.values other]
        simp [get, next, update_of_ne same]
    have nextKeys : next.storedKeys = Function.update repository.storedKeys id
        (encodeMetadataAndType value.value.type (forest.mergedMetadata id)) := by
      funext other
      by_cases same : other = id
      · subst same
        simp [storedKeys, next]
      · simp [storedKeys, next, update_of_ne same]
    have nextIndex : next.index.Holds (Function.update keysOf id
        (encodeMetadataAndType value.value.type (forest.mergedMetadata id))) := by
      have removed := index.remove id value.value.type value.mergedMetadata
        fun key member => by simpa [storedKeys, isValue] using indexed id key member
      have added := removed.add id value.value.type (forest.mergedMetadata id)
        (update_self id [] keysOf)
      rwa [update_idem] at added
    obtain ⟨final, isFinal, reindexed⟩ := ih nextShape
      (fun other member => isStored other (.tail _ member)) nextIndex (by
        intro other key member
        rw [nextKeys]
        by_cases same : other = id
        · subst same
          simpa using member
        · rw [update_of_ne same] at member ⊢
          exact indexed other key member) (by
        intro other notMember
        rw [nextKeys]
        by_cases same : other = id
        · subst same
          simp
        · rw [update_of_ne same, update_of_ne same]
          exact current other (by simp [same, notMember]))
    refine ⟨final, by rw [foldlM_cons, isNext]; exact isFinal, reindexed.shape, ?_,
      reindexed.index, reindexed.nextSubscription, reindexed.subscriptions⟩
    intro other
    rw [reindexed.values]
    by_cases same : other = id
    · subst same
      simp [next, isValue]
    · simp [next, same]

end ContextRepository

namespace ContextForest

/-- The stored values among whose keys are all keys of a selector. -/
def matching (forest : ContextForest) (selector : ContextSelector) : Finset ℕ :=
  (Finset.range forest.size).filter fun id =>
    ∀ key ∈ encodeMetadataAndType selector.type selector.metadata, key ∈ forest.keys id

def matchingIds (forest : ContextForest) (selector : ContextSelector) : List ℕ :=
  decimalIds (forest.matching selector)

def merged (forest : ContextForest) (id : ℕ) : Option ContextValue :=
  (forest.value id).map fun value => { value with metadata := forest.mergedMetadata id }

/-- The result of a query: under each key the values that its selector matches. -/
def result (forest : ContextForest) (query : ContextQuery) : ContextUpdate :=
  query.map fun entry => (entry.1, (forest.matchingIds entry.2).filterMap forest.merged)

variable {forest : ContextForest} {id : ℕ} {selector : ContextSelector}

theorem value_of_keys (matched : ∀ key ∈ encodeMetadataAndType selector.type selector.metadata,
    key ∈ forest.keys id) : ∃ value, forest.value id = some value := by
  have member := matched _ (mem_encodeMetadataAndType.mpr (.inr rfl))
  cases isValue : forest.value id with
  | none => simp [keys, isValue] at member
  | some value => exact ⟨value, rfl⟩

theorem mem_matchingIds : id ∈ forest.matchingIds selector ↔
    ∀ key ∈ encodeMetadataAndType selector.type selector.metadata, key ∈ forest.keys id := by
  rw [matchingIds, mem_decimalIds, matching, Finset.mem_filter, Finset.mem_range,
    and_iff_right_iff_imp]
  intro matched
  obtain ⟨value, isValue⟩ := value_of_keys matched
  exact forest.value_lt (by simp [isValue])

end ContextForest

namespace ContextRepository

/-- The repository holds the values of the forest with their merged metadata, under their keys. -/
structure Synced (repository : ContextRepository) (forest : ContextForest) : Prop where
  shape : repository.Shape forest
  merged : ∀ id value, repository.values id = some value →
    value.mergedMetadata = forest.mergedMetadata id
  index : repository.index.Holds repository.storedKeys

variable {repository : ContextRepository} {forest : ContextForest} {id : ℕ}
  {selector : ContextSelector}

section

variable (synced : repository.Synced forest)
include synced

theorem Synced.storedKeys_eq (id : ℕ) : repository.storedKeys id = forest.keys id := by
  cases isValue : repository.values id with
  | none =>
    have isNone : forest.value id = none := by
      rw [← synced.shape.values, get, isValue, Option.map_none]
    simp [storedKeys, ContextForest.keys, isValue, isNone]
  | some value => simp [storedKeys, ContextForest.keys, isValue, synced.shape.value isValue,
      synced.merged id value isValue]

theorem Synced.mem_select : id ∈ repository.select selector ↔ id ∈ forest.matchingIds selector := by
  rw [select, synced.index.mem_query, ContextForest.mem_matchingIds, synced.storedKeys_eq]

theorem Synced.decimalIds_select :
    decimalIds (repository.select selector) = forest.matchingIds selector := by
  apply congrArg decimalIds
  ext id
  rw [synced.mem_select, ContextForest.matchingIds, mem_decimalIds]

end

theorem Synced.matchingValues_eq (synced : repository.Synced forest) :
    repository.matchingValues selector = some ((forest.matchingIds selector).filterMap fun id =>
        (repository.values id).map fun value => (id, value)) := by
  rw [matchingValues, synced.decimalIds_select]
  apply mapM_eq_filterMap
  intro id member
  obtain ⟨value, isValue⟩ := ContextForest.value_of_keys (ContextForest.mem_matchingIds.mp member)
  rw [Option.isSome_map, synced.shape.isSome, isValue]
  rfl

def matchedVersions (repository : ContextRepository) (forest : ContextForest)
    (query : ContextQuery) : Finset (ℕ × UInt32) :=
  (query.flatMap fun entry => (forest.matchingIds entry.2).filterMap fun id =>
    (repository.values id).map fun value => (id, value.version)).toFinset

/-- A listener is sent the result of its query, unless the versions are those of last time. -/
theorem Synced.queryAndMaybeNotify_eq (synced : repository.Synced forest)
    (subscription : ContextSubscription) (force : Bool) :
    repository.queryAndMaybeNotify subscription force =
      some (if !force && repository.matchedVersions forest subscription.query =
          subscription.lastUpdate then subscription
        else { subscription with
          lastUpdate := repository.matchedVersions forest subscription.query
          delivered := some (forest.result subscription.query) }) := by
  have found : (subscription.query.mapM fun entry =>
      (repository.matchingValues entry.2).map fun values => (entry.1, values)) =
      some (subscription.query.map fun entry => (entry.1,
        (forest.matchingIds entry.2).filterMap fun id =>
          (repository.values id).map fun value => (id, value))) := by
    rw [mapM_eq_filterMap fun entry _ => by rw [synced.matchingValues_eq]; rfl]
    simp only [synced.matchingValues_eq, Option.map_some, filterMap_eq_map']
  have versions : ((subscription.query.map fun entry => (entry.1,
      (forest.matchingIds entry.2).filterMap fun id =>
        (repository.values id).map fun value => (id, value))).flatMap fun entry =>
          entry.2.map fun value => (value.1, value.2.version)).toFinset =
      repository.matchedVersions forest subscription.query := by
    simp only [matchedVersions, flatMap_map, map_filterMap, Option.map_map, comp_def]
  have update : ((subscription.query.map fun entry => (entry.1,
      (forest.matchingIds entry.2).filterMap fun id =>
        (repository.values id).map fun value => (id, value))).map fun entry =>
          (entry.1, entry.2.filterMap fun value => repository.getMerged value.1)) =
      forest.result subscription.query := by
    simp only [ContextForest.result, map_map, comp_def, filterMap_filterMap]
    have merged : ∀ id, (((repository.values id).map fun value => (id, value)).bind
        fun value => repository.getMerged value.1) = forest.merged id := by
      intro id
      rw [ContextForest.merged, ← synced.shape.values, get, Option.map_map]
      cases isValue : repository.values id with
      | none => rfl
      | some value =>
        simp [getMerged, ValueInternal.merged, isValue, synced.merged id value isValue]
    simp only [merged]
  rw [queryAndMaybeNotify, found, Option.map_some, versions, update]

end ContextRepository

end Peridot
