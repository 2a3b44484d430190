import Mathlib.Data.Char
import Mathlib.Data.List.Lex
import Peridot.ContextGraph
import Peridot.ContextIndex
import Peridot.StepRun

/-!
# The context repository

`ContextRepository` with its graph, its index and its subscriptions.  A listener keeps the last
update that it was sent.  A failing `FXL_DCHECK` ends the run.
-/

namespace Peridot

open ContextMetadata

structure ContextValue where
  type : ContextValueType
  content : Option Bytes
  /-- `meta`. -/
  metadata : Option ContextMetadata
deriving DecidableEq

structure ValueInternal where
  mergedMetadata : Option ContextMetadata
  value : ContextValue
  version : UInt32

def ValueInternal.merged (value : ValueInternal) : ContextValue :=
  { value.value with metadata := value.mergedMetadata }

/-- `ContextQuery`: a selector under each key. -/
abbrev ContextQuery := List (Bytes × ContextSelector)

abbrev ContextUpdate := List (Bytes × List ContextValue)

structure ContextSubscription where
  id : ℕ
  query : ContextQuery
  lastUpdate : Finset (ℕ × UInt32)
  delivered : Option ContextUpdate

/-- `MERGE` for one field. -/
def mergeField {α : Type} (get : ContextMetadata → Option α)
    (put : ContextMetadata → Option α → ContextMetadata) (source target : Option ContextMetadata) :
    Option ContextMetadata :=
  match source.bind get with
  | none => target
  | some field =>
    let target := target.getD .new
    match get target with
    | some _ => some target
    | none => some (put target (some field))

def mergeMetadata (source target : Option ContextMetadata) : Option ContextMetadata :=
  let target := mergeField (·.story) (fun metadata story => { metadata with story }) source target
  let target := mergeField (·.mod) (fun metadata mod => { metadata with mod }) source target
  let target := mergeField (·.link) (fun metadata link => { metadata with link }) source target
  mergeField (·.entity) (fun metadata entity => { metadata with entity }) source target

def ContextMetadata.orElse (target source : ContextMetadata) : ContextMetadata :=
  ⟨target.story.or source.story, target.mod.or source.mod, target.entity.or source.entity,
    target.link.or source.link⟩

theorem mergeMetadata_eq (source : Option ContextMetadata) (target : ContextMetadata) :
    mergeMetadata source target.orNull = (target.orElse (source.getD .new)).orNull := by
  obtain ⟨story, mod, entity, link⟩ := target
  rcases source with _ | ⟨story', mod', entity', link'⟩
  · simp [mergeMetadata, mergeField, orElse, new]
  · cases story <;> cases mod <;> cases entity <;> cases link <;> cases story' <;> cases mod' <;>
      cases entity' <;> cases link' <;> rfl

def firstFields (list : List (Option ContextMetadata)) : ContextMetadata :=
  ⟨list.findSome? fun metadata => metadata.bind (·.story),
    list.findSome? fun metadata => metadata.bind (·.mod),
    list.findSome? fun metadata => metadata.bind (·.entity),
    list.findSome? fun metadata => metadata.bind (·.link)⟩

theorem foldl_mergeMetadata (list : List (Option ContextMetadata)) (target : ContextMetadata) :
    list.foldl (fun merged metadata => mergeMetadata metadata merged) target.orNull =
      (target.orElse (firstFields list)).orNull := by
  induction list generalizing target with
  | nil => simp [firstFields, orElse]
  | cons metadata list ih =>
    rw [List.foldl_cons, mergeMetadata_eq, ih]
    congr 1
    have findSome_cons : ∀ {α : Type} (get : ContextMetadata → Option α),
        ((metadata :: list).findSome? fun other => other.bind get) =
          (metadata.bind get).or (list.findSome? fun other => other.bind get) := by
      intro α get
      rw [List.findSome?_cons]
      cases metadata.bind get <;> rfl
    have get_getD : ∀ {α : Type} (get : ContextMetadata → Option α), get .new = none →
        get (metadata.getD .new) = metadata.bind get := by
      intro α get isNone
      cases metadata <;> simp [isNone]
    simp only [orElse, firstFields, findSome_cons, Option.or_assoc,
      get_getD (·.story) rfl, get_getD (·.mod) rfl, get_getD (·.entity) rfl, get_getD (·.link) rfl]

/-- The ids of a set in the order of `std::set<std::string>`, which has them in decimal. -/
def decimalIds (ids : Finset ℕ) : List ℕ :=
  (sortedIds ids).insertionSort fun first second => Nat.toDigits 10 first ≤ Nat.toDigits 10 second

@[simp]
theorem mem_decimalIds {ids : Finset ℕ} {id : ℕ} : id ∈ decimalIds ids ↔ id ∈ ids := by
  rw [decimalIds, List.mem_insertionSort, mem_sortedIds]

example : decimalIds {2, 10} = [10, 2] := by decide

/-- `ContextRepository`.  `nextId` and `nextSubscription` count the ids that have been created.  The
walks of the graph take ids as numbers: what they find does not depend on the order. -/
structure ContextRepository where
  nextId : ℕ
  values : ℕ → Option ValueInternal
  graph : ContextGraph ℕ
  index : ContextIndex
  nextSubscription : ℕ
  subscriptions : List ContextSubscription

namespace ContextRepository

def initial : ContextRepository where
  nextId := 0
  values _ := none
  graph := .empty
  index _ := ∅
  nextSubscription := 0
  subscriptions := []

variable (repository : ContextRepository)

def contains (id : ℕ) : Bool :=
  (repository.values id).isSome

def get (id : ℕ) : Option ContextValue :=
  (repository.values id).map (·.value)

def getMerged (id : ℕ) : Option ContextValue :=
  (repository.values id).map ValueInternal.merged

def select (selector : ContextSelector) : Finset ℕ :=
  repository.index.query selector.type selector.metadata

/-- `RecomputeMergedMetadata`: the metadata of a value that is stored under `id`. -/
def recomputeMergedMetadata (id : ℕ) (value : ValueInternal) : Option (Option ContextMetadata) :=
  (repository.graph.getAncestors repository.nextId id).bind fun ancestors =>
    (ancestors.foldlM (fun merged ancestor =>
      (repository.values ancestor).map fun found => mergeMetadata found.value.metadata merged)
      none).map fun merged => mergeMetadata value.value.metadata merged

/-- The loop of `ReindexAndNotify` for one of the updated values. -/
def reindex (id : ℕ) : Option ContextRepository :=
  (repository.values id).bind fun value =>
    (repository.recomputeMergedMetadata id value).map fun merged =>
      { repository with
        index := (repository.index.remove id value.value.type value.mergedMetadata).add id
          value.value.type merged
        values := Function.update repository.values id
          (some { value with mergedMetadata := merged }) }

def matchingValues (selector : ContextSelector) : Option (List (ℕ × ValueInternal)) :=
  (decimalIds (repository.select selector)).mapM fun id =>
    (repository.values id).map fun value => (id, value)

def queryAndMaybeNotify (subscription : ContextSubscription) (force : Bool) :
    Option ContextSubscription :=
  (subscription.query.mapM fun entry =>
    (repository.matchingValues entry.2).map fun values => (entry.1, values)).map fun found =>
      let matchingIdVersion := (found.flatMap fun entry =>
        entry.2.map fun value => (value.1, value.2.version)).toFinset
      let update := found.map fun entry =>
        (entry.1, entry.2.filterMap fun value => repository.getMerged value.1)
      if !force && matchingIdVersion = subscription.lastUpdate then subscription
      else { subscription with lastUpdate := matchingIdVersion, delivered := some update }

def reindexAndNotify (removed : List (ℕ × ValueInternal)) (updated : List ℕ) :
    Option ContextRepository :=
  let cleared := removed.foldl (fun index value =>
    index.remove value.1 value.2.value.type value.2.mergedMetadata) repository.index
  (updated.foldlM reindex { repository with index := cleared }).bind fun reindexed =>
    (reindexed.subscriptions.mapM fun subscription =>
      reindexed.queryAndMaybeNotify subscription false).map fun subscriptions =>
        { reindexed with subscriptions }

/-- `CreateValueId`: the counter has 32 bits. -/
def createValueId : ℕ :=
  repository.nextId % 2 ^ 32

def addInternal (parent : Option ℕ) (value : ContextValue) : Option ContextRepository :=
  let newId := repository.createValueId
  let values :=
    if repository.contains newId then repository.values
    else Function.update repository.values newId (some ⟨none, value, 0⟩)
  { repository with
    nextId := repository.nextId + 1
    values
    graph := repository.graph.addParent parent newId }.reindexAndNotify [] [newId]

def add (parent : Option ℕ) (value : ContextValue) : Option ContextRepository :=
  match parent with
  | none => repository.addInternal none value
  | some parent =>
    if repository.contains parent then repository.addInternal (some parent) value else none

def update (id : ℕ) (value : ContextValue) : Option ContextRepository :=
  (repository.values id).bind fun found =>
    (repository.graph.getChildrenRecursive repository.nextId id).bind fun children =>
      { repository with
        values := Function.update repository.values id
          (some { found with value, version := found.version + 1 }) }.reindexAndNotify []
        (id :: decimalIds children)

def remove (id : ℕ) : Option ContextRepository :=
  match repository.values id with
  | none => some repository
  | some found =>
    (repository.graph.getChildrenRecursive repository.nextId id).bind fun children =>
      { repository with
        values := Function.update repository.values id none
        graph := repository.graph.remove id }.reindexAndNotify [(id, found)] (decimalIds children)

def addSubscription (query : ContextQuery) : Option ContextRepository :=
  (repository.queryAndMaybeNotify ⟨repository.nextSubscription, query, ∅, none⟩ true).map
    fun subscription =>
      { repository with
        nextSubscription := repository.nextSubscription + 1
        subscriptions := repository.subscriptions ++ [subscription] }

def removeSubscription (id : ℕ) : Option ContextRepository :=
  if repository.subscriptions.any fun subscription => subscription.id = id then
    some { repository with
      subscriptions := repository.subscriptions.filter fun subscription => subscription.id ≠ id }
  else none

end ContextRepository

inductive ContextCall where
  | add (parent : Option ℕ) (value : ContextValue)
  | update (id : ℕ) (value : ContextValue)
  | remove (id : ℕ)
  | addSubscription (query : ContextQuery)
  | removeSubscription (id : ℕ)

namespace ContextRepository

def call (repository : ContextRepository) : ContextCall → Option ContextRepository
  | .add parent value => repository.add parent value
  | .update id value => repository.update id value
  | .remove id => repository.remove id
  | .addSubscription query => repository.addSubscription query
  | .removeSubscription id => repository.removeSubscription id

end ContextRepository

end Peridot
