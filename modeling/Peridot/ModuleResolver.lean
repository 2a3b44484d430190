import Mathlib.Data.Prod.Lex
import Peridot.InvertedIndex
import Peridot.Registry
import Peridot.StepRun
import Peridot.TypeInference

/-!
# Resolving modules

`ModuleResolverImpl` has two indexes of the module manifests that its sources give it.  A query is
answered with the entries that have its verb and accept, for each of its nouns, one of the types
of the noun.
-/

namespace Peridot

abbrev EntryId : Type :=
  Bytes ×ₗ Bytes

/-- `ModuleManifestSource::Entry::NounConstraint`. -/
structure ManifestConstraint where
  name : Bytes
  types : List Bytes

/-- `ModuleManifestSource::Entry`. -/
structure ManifestEntry where
  binary : Bytes
  localName : Bytes
  verb : Bytes
  nounConstraints : List ManifestConstraint

def ManifestEntry.Accepts (entry : ManifestEntry) (nounName type : Bytes) : Prop :=
  ∃ constraint ∈ entry.nounConstraints, constraint.name = nounName ∧ type ∈ constraint.types

/-- The keys of an entry in `noun_type_to_entries_`: a type and the name of a noun. -/
def ManifestEntry.nounTypes (entry : ManifestEntry) : List (Bytes × Bytes) :=
  entry.nounConstraints.flatMap fun constraint =>
    constraint.types.map fun type => (type, constraint.name)

/-- `ResolverQuery`. The nouns are those of a map; it has less than `2 ^ 32` members. -/
structure ResolverQuery where
  verb : Option Bytes
  nounConstraints : List (Bytes × ResolverNounConstraint)
  distinct : (nounConstraints.map Prod.fst).Nodup

/-- `CreateChainPropertyInfo`. -/
inductive PropertyInfo where
  | createLink (initialData : Bytes)
  | linkPath (path : LinkPath)
deriving DecidableEq

structure ModuleResolverResult where
  moduleId : Bytes
  localName : Bytes
  initialNouns : List (Bytes × Bytes)
  createChainInfo : List (Bytes × PropertyInfo)
  deriving DecidableEq

/-- `FindModulesCall`. `pending` are the nouns whose types have been asked for, with what they refer
to; `result` is null until it is set. -/
structure FindModulesCall where
  query : ResolverQuery
  candidates : OrderedSet EntryId
  numNounsCountdown : ℕ
  result : Option (List ModuleResolverResult)
  pending : List (Bytes × Bytes)
  checkFailed : Bool

/-- An answer of `FindModules`, with the entries that are there when it is given. -/
structure ModulesAnswer where
  call : ℕ
  query : ResolverQuery
  result : Option (List ModuleResolverResult)
  entries : AList fun _ : EntryId => ManifestEntry

/-- `ModuleResolverImpl`. `posted` are the calls of `FindModules` that have not run, `calls` those
that wait for types. -/
structure ModuleResolver where
  entries : AList fun _ : EntryId => ManifestEntry
  verbToEntries : InvertedIndex Bytes EntryId
  nounTypeToEntries : InvertedIndex (Bytes × Bytes) EntryId
  issued : ℕ
  posted : List (ℕ × ResolverQuery)
  calls : List (ℕ × FindModulesCall)
  answers : List ModulesAnswer
  checkFailed : Bool

/-- What the sources, the clients, the message loop and the entity resolver do. -/
inductive ModuleResolverEvent where
  | newManifestEntry (sourceName id : Bytes) (entry : ManifestEntry)
  | removeManifestEntry (sourceName id : Bytes)
  | findModules (query : ResolverQuery)
  | run (call : ℕ)
  | getTypes (call : ℕ) (nounName : Bytes) (types : List Bytes)

section Results

variable (json : JsonCode)

def initialNoun : ResolverNounConstraint → Option Bytes
  | .entityReference entityReference => some (entityReferenceToJson json entityReference)
  | .json text => some text
  | .linkInfo _ | .entityType _ => none

def propertyInfo : ResolverNounConstraint → Option PropertyInfo
  | .entityReference entityReference =>
    some (.createLink (entityReferenceToJson json entityReference))
  | .json text => some (.createLink text)
  | .linkInfo linkInfo => some (.linkPath linkInfo.path)
  | .entityType _ => none

/-- The result for an entry, with `CopyNounsToModuleResolverResult`. -/
def moduleResult (query : ResolverQuery) (entry : ManifestEntry) : ModuleResolverResult where
  moduleId := entry.binary
  localName := entry.localName
  initialNouns := query.nounConstraints.filterMap fun noun =>
    (initialNoun json noun.2).map fun text => (noun.1, text)
  createChainInfo := query.nounConstraints.filterMap fun noun =>
    (propertyInfo json noun.2).map fun info => (noun.1, info)

end Results

namespace ModuleResolver

variable (json : JsonCode)

def start : ModuleResolver :=
  ⟨∅, ∅, ∅, 0, [], [], [], false⟩

def onRemoveManifestEntry (resolver : ModuleResolver) (sourceName idIn : Bytes) : ModuleResolver :=
  match resolver.entries.lookup (toLex (sourceName, idIn)) with
  | none => resolver
  | some entry =>
    { resolver with
      verbToEntries := resolver.verbToEntries.unpost (toLex (sourceName, idIn)) entry.verb
      nounTypeToEntries := entry.nounTypes.foldl
        (fun index key => index.unpost (toLex (sourceName, idIn)) key)
        resolver.nounTypeToEntries
      entries := resolver.entries.erase (toLex (sourceName, idIn)) }

def addEntry (resolver : ModuleResolver) (id : EntryId) (entry : ManifestEntry) :
    ModuleResolver :=
  { resolver with
    checkFailed := (resolver.entries.lookup id).isSome
    entries := resolver.entries.insert id entry
    verbToEntries := resolver.verbToEntries.post id entry.verb
    nounTypeToEntries := entry.nounTypes.foldl (fun index key => index.post id key)
      resolver.nounTypeToEntries }

def onNewManifestEntry (resolver : ModuleResolver) (sourceName idIn : Bytes)
    (newEntry : ManifestEntry) : ModuleResolver :=
  if (resolver.entries.lookup (toLex (sourceName, idIn))).isSome then
    (resolver.onRemoveManifestEntry sourceName idIn).addEntry (toLex (sourceName, idIn)) newEntry
  else resolver.addEntry (toLex (sourceName, idIn)) newEntry

def processNounTypes (resolver : ModuleResolver) (call : FindModulesCall) (nounName : Bytes)
    (types : List Bytes) : FindModulesCall :=
  { call with
    candidates := call.candidates.inter (.unions (types.map fun type =>
      resolver.nounTypeToEntries.ids (type, nounName))) }

def modules (resolver : ModuleResolver) (call : FindModulesCall) :
    Option (List ModuleResolverResult) :=
  call.candidates.items.mapM fun id =>
    (resolver.entries.lookup id).map (moduleResult json call.query)

def finally_ (resolver : ModuleResolver) (call : FindModulesCall) : FindModulesCall :=
  { call with
    result := resolver.modules json call
    checkFailed := (resolver.modules json call).isNone }

def onNounTypes (resolver : ModuleResolver) (call : FindModulesCall) (nounName : Bytes)
    (types : List Bytes) : FindModulesCall :=
  let call := { resolver.processNounTypes call nounName types with
    numNounsCountdown := call.numNounsCountdown - 1 }
  if call.numNounsCountdown = 0 then resolver.finally_ json call else call

/-- `GetNounTypes` is called for a noun. -/
def askNoun (resolver : ModuleResolver) (call : FindModulesCall)
    (noun : Bytes × ResolverNounConstraint) : FindModulesCall :=
  match getNounTypes json noun.2 with
  | .known types => resolver.onNounTypes json call noun.1 types
  | .asked entityReference => { call with pending := call.pending ++ [(noun.1, entityReference)] }
  | .never => call

def withVerb (resolver : ModuleResolver) (query : ResolverQuery) : Option (OrderedSet EntryId) :=
  query.verb.bind fun verb => resolver.verbToEntries.lookup verb

def run (resolver : ModuleResolver) (query : ResolverQuery) : FindModulesCall :=
  match resolver.withVerb query with
  | none => ⟨query, .empty, 0, some [], [], false⟩
  | some candidates =>
    if query.nounConstraints = [] then
      resolver.finally_ json ⟨query, candidates, 0, none, [], false⟩
    else
      query.nounConstraints.foldl (resolver.askNoun json)
        ⟨query, candidates, query.nounConstraints.length, none, [], false⟩

/-- A call waits, or is done when nothing holds its flow token any more. -/
def conclude (resolver : ModuleResolver) (number : ℕ) (call : FindModulesCall) :
    ModuleResolver :=
  if call.pending = [] then
    { resolver with
      answers := resolver.answers ++ [⟨number, call.query, call.result, resolver.entries⟩]
      checkFailed := call.checkFailed }
  else
    { resolver with
      calls := resolver.calls ++ [(number, call)]
      checkFailed := call.checkFailed }

def onGetTypes (resolver : ModuleResolver) (call : FindModulesCall) (nounName : Bytes)
    (types : List Bytes) : FindModulesCall :=
  resolver.onNounTypes json
    { call with pending := call.pending.filter fun noun => noun.1 ≠ nounName } nounName types

def step (resolver : ModuleResolver) (event : ModuleResolverEvent) : Option ModuleResolver :=
  if resolver.checkFailed then none
  else match event with
    | .newManifestEntry sourceName id entry =>
      some (resolver.onNewManifestEntry sourceName id entry)
    | .removeManifestEntry sourceName id => some (resolver.onRemoveManifestEntry sourceName id)
    | .findModules query =>
      some { resolver with
        issued := resolver.issued + 1
        posted := resolver.posted ++ [(resolver.issued, query)] }
    | .run number =>
      (Registry.find resolver.posted number).map fun query =>
        { resolver with posted := Registry.erase resolver.posted number }.conclude number
          (resolver.run json query)
    | .getTypes number nounName types =>
      ((Registry.find resolver.calls number).filter fun call =>
        (Registry.find call.pending nounName).isSome).map fun call =>
          { resolver with calls := Registry.erase resolver.calls number }.conclude number
            (resolver.onGetTypes json call nounName types)

end ModuleResolver

theorem ManifestEntry.mem_nounTypes {entry : ManifestEntry} {type nounName : Bytes} :
    (type, nounName) ∈ entry.nounTypes ↔ entry.Accepts nounName type := by
  simp only [nounTypes, Accepts, List.mem_flatMap, List.mem_map, Prod.mk.injEq]
  constructor
  · rintro ⟨constraint, inConstraints, _, inTypes, rfl, rfl⟩
    exact ⟨constraint, inConstraints, rfl, inTypes⟩
  · rintro ⟨constraint, inConstraints, rfl, inTypes⟩
    exact ⟨constraint, inConstraints, type, inTypes, rfl, rfl⟩

namespace ModuleResolver

open InvertedIndex in
/-- Each entry is in the indexes under its verb and under the types of its nouns. -/
structure Indexed (resolver : ModuleResolver) : Prop where
  verbs : Indexes resolver.verbToEntries (fun entry : ManifestEntry => [entry.verb])
    fun id => resolver.entries.lookup id
  nouns : Indexes resolver.nounTypeToEntries ManifestEntry.nounTypes
    fun id => resolver.entries.lookup id

variable {json : JsonCode} {resolver : ModuleResolver} {id : EntryId}

theorem indexed_start : Indexed start where
  verbs id key := by simp [InvertedIndex.ids, start]
  nouns id key := by simp [InvertedIndex.ids, start]

section

variable (indexed : Indexed resolver)
include indexed

theorem Indexed.onRemoveManifestEntry (sourceName idIn : Bytes) :
    Indexed (resolver.onRemoveManifestEntry sourceName idIn) ∧
      (resolver.onRemoveManifestEntry sourceName idIn).entries.lookup (toLex (sourceName, idIn)) =
        none := by
  cases isEntry : resolver.entries.lookup (toLex (sourceName, idIn)) with
  | none =>
    have isSame : resolver.onRemoveManifestEntry sourceName idIn = resolver := by
      simp only [ModuleResolver.onRemoveManifestEntry, isEntry]
    rw [isSame]
    exact ⟨indexed, isEntry⟩
  | some entry =>
    have isGone := AList.lookup_erase (toLex (sourceName, idIn)) resolver.entries
    have others : ∀ other, other ≠ toLex (sourceName, idIn) →
        (resolver.entries.erase (toLex (sourceName, idIn))).lookup other =
          resolver.entries.lookup other := fun other => AList.lookup_erase_ne
    have isRemoved : resolver.onRemoveManifestEntry sourceName idIn = { resolver with
          verbToEntries := resolver.verbToEntries.unpost (toLex (sourceName, idIn)) entry.verb
          nounTypeToEntries := entry.nounTypes.foldl
            (fun index key => index.unpost (toLex (sourceName, idIn)) key)
            resolver.nounTypeToEntries
          entries := resolver.entries.erase (toLex (sourceName, idIn)) } := by
      simp only [ModuleResolver.onRemoveManifestEntry, isEntry]
    rw [isRemoved]
    exact ⟨⟨indexed.verbs.foldl_unpost isEntry isGone others,
      indexed.nouns.foldl_unpost isEntry isGone others⟩, isGone⟩

theorem Indexed.addEntry (isNew : resolver.entries.lookup id = none) (entry : ManifestEntry) :
    Indexed (resolver.addEntry id entry) := by
  have isFound : (resolver.entries.insert id entry).lookup id = some entry := AList.lookup_insert _
  have others : ∀ other, other ≠ id →
      (resolver.entries.insert id entry).lookup other = resolver.entries.lookup other :=
    fun other different => AList.lookup_insert_ne different
  exact ⟨indexed.verbs.foldl_post isNew isFound others,
    indexed.nouns.foldl_post isNew isFound others⟩

theorem Indexed.onNewManifestEntry (sourceName idIn : Bytes)
    (newEntry : ManifestEntry) : Indexed (resolver.onNewManifestEntry sourceName idIn newEntry) ∧
      (resolver.onNewManifestEntry sourceName idIn newEntry).checkFailed = false := by
  unfold ModuleResolver.onNewManifestEntry
  split
  · obtain ⟨stillIndexed, isGone⟩ := indexed.onRemoveManifestEntry sourceName idIn
    refine ⟨stillIndexed.addEntry isGone newEntry, ?_⟩
    simp [ModuleResolver.addEntry, isGone]
  · rename_i isNew
    have isNew : resolver.entries.lookup (toLex (sourceName, idIn)) = none := by simpa using isNew
    refine ⟨indexed.addEntry isNew newEntry, ?_⟩
    simp [ModuleResolver.addEntry, isNew]

end

theorem onRemoveManifestEntry_frame (resolver : ModuleResolver) (sourceName idIn : Bytes) :
    (resolver.onRemoveManifestEntry sourceName idIn).issued = resolver.issued ∧
      (resolver.onRemoveManifestEntry sourceName idIn).posted = resolver.posted ∧
      (resolver.onRemoveManifestEntry sourceName idIn).calls = resolver.calls ∧
      (resolver.onRemoveManifestEntry sourceName idIn).answers = resolver.answers ∧
      (resolver.onRemoveManifestEntry sourceName idIn).checkFailed = resolver.checkFailed := by
  unfold onRemoveManifestEntry
  split <;> exact ⟨rfl, rfl, rfl, rfl, rfl⟩

theorem onNewManifestEntry_frame (resolver : ModuleResolver) (sourceName idIn : Bytes)
    (newEntry : ManifestEntry) :
    (resolver.onNewManifestEntry sourceName idIn newEntry).issued = resolver.issued ∧
      (resolver.onNewManifestEntry sourceName idIn newEntry).posted = resolver.posted ∧
      (resolver.onNewManifestEntry sourceName idIn newEntry).calls = resolver.calls ∧
      (resolver.onNewManifestEntry sourceName idIn newEntry).answers = resolver.answers := by
  unfold onNewManifestEntry
  split
  · obtain ⟨issued, posted, calls, answers, -⟩ :=
      onRemoveManifestEntry_frame resolver sourceName idIn
    exact ⟨issued, posted, calls, answers⟩
  · exact ⟨rfl, rfl, rfl, rfl⟩

theorem Indexed.mem_verb (indexed : Indexed resolver) {verb : Bytes} :
    id ∈ resolver.verbToEntries.ids verb ↔
      ∃ entry, resolver.entries.lookup id = some entry ∧ entry.verb = verb := by
  rw [indexed.verbs id verb]
  simp only [List.mem_singleton, eq_comm]

theorem Indexed.mem_nounType (indexed : Indexed resolver) {type nounName : Bytes} :
    id ∈ resolver.nounTypeToEntries.ids (type, nounName) ↔
      ∃ entry, resolver.entries.lookup id = some entry ∧ entry.Accepts nounName type := by
  rw [indexed.nouns id (type, nounName)]
  simp only [ManifestEntry.mem_nounTypes]

end ModuleResolver

end Peridot
