import Mathlib.Algebra.Order.Ring.Rat
import Mathlib.Data.List.Sort
import Peridot.CallList
import Peridot.Registry
import Peridot.StepRun
import Peridot.StorageTypes

/-!
# The suggestion engine

`SuggestionEngineImpl` owns the prototypes of suggestions by component and proposal id.  The ranked
lists of next and of ask suggestions hold pointers to them.
-/

namespace Peridot

open List Registry

/-- `Proposal`: its id, and what the ranking features look at. -/
structure Proposal where
  id : Bytes
  content : Bytes
deriving DecidableEq

structure SuggestionPrototype where
  suggestionId : ℕ
  sourceUrl : Bytes
  proposal : Proposal
deriving DecidableEq

/-- `RankedSuggestion`, with a pointer to its prototype. -/
structure RankedSuggestion where
  prototype : ℕ
  confidence : ℚ
deriving DecidableEq

abbrev ProposalKey :=
  Bytes × Bytes

/-- `suggestion_prototypes_`: each prototype with its address. -/
abbrev SuggestionPrototypes :=
  List (ProposalKey × ℕ × SuggestionPrototype)

/-- `QueryProcessor`; callbacks and tasks refer to it by its number. -/
structure QueryProcessor where
  number : ℕ
  input : Bytes
  outstandingHandlers : List Bytes
  requestEnded : Bool
deriving DecidableEq

abbrev RankingFeatures :=
  Bytes → SuggestionPrototype → ℚ

/-- `SuggestionEngineImpl`. `replies` are the calls of `OnQuery` that have not been answered;
`danglingRead` is set when a pointer is followed whose prototype is gone. -/
structure SuggestionEngine where
  prototypes : SuggestionPrototypes
  next : List RankedSuggestion
  nextDirty : Bool
  ask : List RankedSuggestion
  askDirty : Bool
  askSubscriber : Bool
  nextUuid : ℕ
  queryHandlers : List Bytes
  activeQuery : Option QueryProcessor
  queries : ℕ
  replies : List (ℕ × Bytes)
  danglingRead : Bool
deriving DecidableEq

/-- What publishers, query handlers and clients do. A new prototype is at a given address. -/
inductive SuggestionEvent where
  | addNextProposal (componentUrl : Bytes) (proposal : Proposal) (address : ℕ)
  | addAskProposal (sourceUrl : Bytes) (proposal : Proposal) (address : ℕ)
  | removeProposal (componentUrl proposalId : Bytes)
  | validate
  | registerQueryHandler (url : Bytes)
  | query (input : Bytes)
  | reply (index : ℕ) (proposals : List (Proposal × ℕ))
  | timeOut (query : ℕ)
  | listenerDisconnected
  | notifyInteraction (suggestionId : ℕ)

namespace SuggestionPrototypes

def at? (prototypes : SuggestionPrototypes) (address : ℕ) : Option SuggestionPrototype :=
  (prototypes.find? fun entry => entry.2.1 = address).map fun entry => entry.2.2

end SuggestionPrototypes

namespace SuggestionEngine

variable (features : RankingFeatures)

def start : SuggestionEngine :=
  ⟨[], [], false, [], false, false, 0, [], none, 0, [], false⟩

def read (engine : SuggestionEngine) (suggestions : List RankedSuggestion) : SuggestionEngine :=
  { engine with
    danglingRead := engine.danglingRead ||
      suggestions.any fun suggestion => (engine.prototypes.at? suggestion.prototype).isNone }

/-- `GetSuggestionMatcher` of a component and a proposal id. -/
def matchesProposal (engine : SuggestionEngine) (key : ProposalKey)
    (suggestion : RankedSuggestion) : Bool :=
  (engine.prototypes.at? suggestion.prototype).any fun prototype =>
    prototype.proposal.id = key.2 ∧ prototype.sourceUrl = key.1

/-- `GetSuggestionMatcher` of a suggestion id. -/
def matchesId (engine : SuggestionEngine) (suggestionId : ℕ) (suggestion : RankedSuggestion) :
    Bool :=
  (engine.prototypes.at? suggestion.prototype).any fun prototype =>
    prototype.suggestionId = suggestionId

/-- `RankedSuggestions::RemoveProposal` on both lists. -/
def removeRanked (engine : SuggestionEngine) (key : ProposalKey) : SuggestionEngine :=
  { engine.read (engine.next ++ engine.ask) with
    ask := engine.ask.filter fun suggestion => !engine.matchesProposal key suggestion
    askDirty := engine.askDirty || engine.ask.any (engine.matchesProposal key)
    next := engine.next.filter fun suggestion => !engine.matchesProposal key suggestion
    nextDirty := engine.nextDirty || engine.next.any (engine.matchesProposal key) }

def removeProposal (engine : SuggestionEngine) (key : ProposalKey) : SuggestionEngine :=
  if (Registry.find engine.prototypes key).isSome then
    { engine.removeRanked key with prototypes := Registry.erase engine.prototypes key }
  else engine

/-- `CreateSuggestionPrototype`: the engine and the address. A prototype that is there already is
overwritten. -/
def createSuggestionPrototype (engine : SuggestionEngine) (sourceUrl : Bytes)
    (proposal : Proposal) (address : ℕ) : SuggestionEngine × ℕ :=
  let prototype : SuggestionPrototype := ⟨engine.nextUuid, sourceUrl, proposal⟩
  match Registry.find engine.prototypes (sourceUrl, proposal.id) with
  | some (existing, _) =>
    ({ engine with
      prototypes := Registry.update engine.prototypes (sourceUrl, proposal.id) fun _ =>
        (existing, prototype)
      nextUuid := engine.nextUuid + 1 }, existing)
  | none =>
    ({ engine with
      prototypes := engine.prototypes ++ [((sourceUrl, proposal.id), address, prototype)]
      nextUuid := engine.nextUuid + 1 }, address)

def isFree (engine : SuggestionEngine) (address : ℕ) : Bool :=
  (engine.prototypes.at? address).isNone

/-- `AddNextProposal`, where the new prototype can be at the address. -/
def addNextProposal (engine : SuggestionEngine) (componentUrl : Bytes) (proposal : Proposal)
    (address : ℕ) : Option SuggestionEngine :=
  let removed := engine.removeProposal (componentUrl, proposal.id)
  if removed.isFree address then
    let (created, prototype) := removed.createSuggestionPrototype componentUrl proposal address
    some { created with next := created.next ++ [⟨prototype, 0⟩], nextDirty := true }
  else none

/-- `AddAskProposal`, where the new prototype can be at the address. -/
def addAskProposal (engine : SuggestionEngine) (sourceUrl : Bytes) (proposal : Proposal)
    (address : ℕ) : Option SuggestionEngine :=
  let removed := engine.removeProposal (sourceUrl, proposal.id)
  if removed.isFree address then
    let (created, prototype) := removed.createSuggestionPrototype sourceUrl proposal address
    some { created with ask := created.ask ++ [⟨prototype, 0⟩], askDirty := true }
  else none

/-- `RankedSuggestions::Rank`: the stable sort of a list by the new confidences. -/
def rank (engine : SuggestionEngine) (input : Bytes) (suggestions : List RankedSuggestion) :
    List RankedSuggestion :=
  (suggestions.map fun suggestion =>
    { suggestion with
      confidence := ((engine.prototypes.at? suggestion.prototype).map (features input)).getD
        0 }).insertionSort fun first second => second.confidence ≤ first.confidence

/-- `Rank` of the next suggestions. -/
def rankNext (engine : SuggestionEngine) (input : Bytes) : SuggestionEngine :=
  { engine.read engine.next with next := engine.rank features input engine.next }

/-- `Rank` of the ask suggestions. -/
def rankAsk (engine : SuggestionEngine) (input : Bytes) : SuggestionEngine :=
  { engine.read engine.ask with ask := engine.rank features input engine.ask }

def validate (engine : SuggestionEngine) : SuggestionEngine :=
  let engine := if engine.nextDirty then { engine.rankNext features [] with nextDirty := false }
    else engine
  { engine with askDirty := false }

/-- The loop of `CleanUpPreviousQuery`. -/
def erasePrototypes (engine : SuggestionEngine) : List RankedSuggestion → SuggestionEngine
  | [] => engine
  | suggestion :: suggestions =>
    match engine.prototypes.at? suggestion.prototype with
    | none => erasePrototypes { engine with danglingRead := true } suggestions
    | some prototype =>
      let key := (prototype.sourceUrl, prototype.proposal.id)
      erasePrototypes { engine with prototypes := Registry.erase engine.prototypes key }
        suggestions

/-- `CleanUpPreviousQuery`; with the query, its weak pointers are gone. -/
def cleanUpPreviousQuery (engine : SuggestionEngine) : SuggestionEngine :=
  let erased := erasePrototypes { engine with activeQuery := none } engine.ask
  { erased with ask := [], askSubscriber := false }

def query (engine : SuggestionEngine) (input : Bytes) : SuggestionEngine :=
  let engine := engine.cleanUpPreviousQuery
  { engine with
    askSubscriber := true
    activeQuery := some ⟨engine.queries, input, engine.queryHandlers, engine.queryHandlers = []⟩
    queries := engine.queries + 1
    replies := engine.replies ++ engine.queryHandlers.map fun url => (engine.queries, url) }

/-- `AddAskProposal` of each proposal of a response. -/
def addAskProposals (handlerUrl : Bytes) :
    List (Proposal × ℕ) → SuggestionEngine → Option SuggestionEngine
  | [], engine => some engine
  | (proposal, address) :: proposals, engine =>
    (engine.addAskProposal handlerUrl proposal address).bind
      (addAskProposals handlerUrl proposals)

def handlerCallback (engine : SuggestionEngine) (query : QueryProcessor) (handlerUrl : Bytes)
    (proposals : List (Proposal × ℕ)) : Option SuggestionEngine :=
  (addAskProposals handlerUrl proposals engine).map fun engine =>
    let outstanding := query.outstandingHandlers.erase handlerUrl
    { engine.rankAsk features query.input with
      askDirty := false
      activeQuery := some { query with
        outstandingHandlers := outstanding
        requestEnded := outstanding = [] } }

def queryAt (engine : SuggestionEngine) (number : ℕ) : Option QueryProcessor :=
  engine.activeQuery.filter fun query => query.number = number ∧ query.requestEnded = false

/-- A handler answers: the callback of a query that is gone does nothing. -/
def onReply (engine : SuggestionEngine) (number : ℕ) (handlerUrl : Bytes)
    (proposals : List (Proposal × ℕ)) : Option SuggestionEngine :=
  match engine.queryAt number with
  | none => some engine
  | some query => engine.handlerCallback features query handlerUrl proposals

def onTimeOut (engine : SuggestionEngine) (number : ℕ) : SuggestionEngine :=
  match engine.queryAt number with
  | none => engine
  | some query =>
    if query.outstandingHandlers ≠ [] then
      { engine with activeQuery := some { query with requestEnded := true } }
    else engine

/-- `NotifyInteraction`, but for the actions of the proposal. -/
def notifyInteraction (engine : SuggestionEngine) (suggestionId : ℕ) : SuggestionEngine :=
  let engine := engine.read (engine.next ++ engine.ask)
  match engine.next.find? (engine.matchesId suggestionId) with
  | some suggestion =>
    match engine.prototypes.at? suggestion.prototype with
    | none => { engine with danglingRead := true }
    | some prototype =>
      (engine.removeProposal (prototype.sourceUrl, prototype.proposal.id)).validate features
  | none =>
    if engine.ask.any (engine.matchesId suggestionId) then
      engine.cleanUpPreviousQuery.validate features
    else engine

def step (engine : SuggestionEngine) : SuggestionEvent → Option SuggestionEngine
  | .addNextProposal componentUrl proposal address =>
    engine.addNextProposal componentUrl proposal address
  | .addAskProposal sourceUrl proposal address =>
    engine.addAskProposal sourceUrl proposal address
  | .removeProposal componentUrl proposalId =>
    some (engine.removeProposal (componentUrl, proposalId))
  | .validate => some (engine.validate features)
  | .registerQueryHandler url =>
    some { engine with queryHandlers := engine.queryHandlers ++ [url] }
  | .query input => some (engine.query input)
  | .reply index proposals =>
    engine.replies[index]?.bind fun (number, handlerUrl) =>
      onReply features { engine with replies := engine.replies.eraseIdx index } number
        handlerUrl proposals
  | .timeOut number => if number < engine.queries then some (engine.onTimeOut number) else none
  | .listenerDisconnected =>
    if engine.askSubscriber then some engine.cleanUpPreviousQuery else none
  | .notifyInteraction suggestionId => some (engine.notifyInteraction features suggestionId)

def proposalKey (engine : SuggestionEngine) (suggestion : RankedSuggestion) :
    Option ProposalKey :=
  (engine.prototypes.at? suggestion.prototype).map fun prototype =>
    (prototype.sourceUrl, prototype.proposal.id)

end SuggestionEngine

/-- Each suggestion of the two lists refers to a prototype, each prototype is referred to by one
suggestion, and no two suggestions are for the same proposal. -/
structure RefersToPrototypes (engine : SuggestionEngine) : Prop where
  refers : ∀ suggestion ∈ engine.next ++ engine.ask,
    ∃ entry ∈ engine.prototypes, entry.2.1 = suggestion.prototype
  exactlyOnce : ∀ entry ∈ engine.prototypes,
    (engine.next.map RankedSuggestion.prototype).count entry.2.1 +
      (engine.ask.map RankedSuggestion.prototype).count entry.2.1 = 1
  atMostOnce : ((engine.next ++ engine.ask).map engine.proposalKey).Nodup
  neverDangling : engine.danglingRead = false

/-- The pointers are the addresses of the prototypes, each of which is under its own key. -/
structure Tracks (prototypes : SuggestionPrototypes) (pointers : List ℕ) : Prop where
  ownKey : ∀ entry ∈ prototypes, entry.1 = (entry.2.2.sourceUrl, entry.2.2.proposal.id)
  keysDistinct : (prototypes.map Prod.fst).Nodup
  addressesDistinct : (prototypes.map fun entry => entry.2.1).Nodup
  isPerm : pointers.Perm (prototypes.map fun entry => entry.2.1)

namespace Tracks

variable {prototypes : SuggestionPrototypes} {pointers others : List ℕ} {address : ℕ}
  {prototype : SuggestionPrototype} {key : ProposalKey}

section

variable (tracks : Tracks prototypes pointers)
include tracks

theorem perm (isPerm : others.Perm pointers) : Tracks prototypes others :=
  { tracks with isPerm := isPerm.trans tracks.isPerm }

theorem nodup : pointers.Nodup :=
  tracks.isPerm.nodup_iff.mpr tracks.addressesDistinct

theorem mem_iff : address ∈ pointers ↔ ∃ entry ∈ prototypes, entry.2.1 = address := by
  rw [tracks.isPerm.mem_iff, mem_map]

theorem eq_of_address {first second : ProposalKey × ℕ × SuggestionPrototype}
    (isFirst : first ∈ prototypes)
    (isSecond : second ∈ prototypes) (same : first.2.1 = second.2.1) : first = second :=
  inj_on_of_nodup_map tracks.addressesDistinct isFirst isSecond same

theorem eq_of_key {first second : ProposalKey × ℕ × SuggestionPrototype}
    (isFirst : first ∈ prototypes)
    (isSecond : second ∈ prototypes) (same : first.1 = second.1) : first = second :=
  inj_on_of_nodup_map tracks.keysDistinct isFirst isSecond same

theorem exists_at? (isPointer : address ∈ pointers) :
    ∃ prototype, prototypes.at? address = some prototype ∧
      ((prototype.sourceUrl, prototype.proposal.id), address, prototype) ∈ prototypes := by
  obtain ⟨entry, inPrototypes, isAddress⟩ := tracks.mem_iff.mp isPointer
  cases found : prototypes.find? fun entry => entry.2.1 = address with
  | none => simpa [isAddress] using find?_eq_none.mp found entry inPrototypes
  | some other =>
    have isMember := mem_of_find?_eq_some found
    have atAddress : other.2.1 = address := by simpa using find?_some found
    have isOwn := tracks.ownKey other isMember
    obtain ⟨otherKey, otherAddress, prototype⟩ := other
    simp only at atAddress isOwn
    subst atAddress isOwn
    exact ⟨prototype, by rw [SuggestionPrototypes.at?, found]; rfl, isMember⟩

theorem isNone_at? (isPointer : address ∈ pointers) : (prototypes.at? address).isNone = false := by
  obtain ⟨prototype, isPrototype, -⟩ := tracks.exists_at? isPointer
  rw [isPrototype]
  rfl

end

theorem ne_of_isNone (isNone : (prototypes.at? address).isNone = true) :
    ∀ entry ∈ prototypes, entry.2.1 ≠ address := by
  intro entry inPrototypes isAddress
  rw [SuggestionPrototypes.at?, Option.isNone_map, Option.isNone_iff_eq_none,
    find?_eq_none] at isNone
  exact isNone entry inPrototypes (decide_eq_true isAddress)

theorem erase (tracks : Tracks prototypes pointers)
    (isEntry : (key, address, prototype) ∈ prototypes) :
    Tracks (Registry.erase prototypes key) (pointers.filter fun pointer => pointer ≠ address) := by
  obtain ⟨before, after, split⟩ := exists_split tracks.keysDistinct isEntry
  have isPart : (before ++ after).Sublist prototypes := by
    rw [split.isSplit]
    exact List.Sublist.append_left (sublist_cons_self _ _) _
  have distinct := tracks.addressesDistinct
  rw [split.isSplit, map_append, map_cons, nodup_middle, nodup_cons, mem_append, not_or] at distinct
  rw [split.erase_eq]
  constructor
  · exact fun entry inPrototypes => tracks.ownKey entry (isPart.mem inPrototypes)
  · exact tracks.keysDistinct.sublist (isPart.map _)
  · exact tracks.addressesDistinct.sublist (isPart.map _)
  · have kept := tracks.isPerm.filter fun pointer => decide (pointer ≠ address)
    have unchanged {entries : SuggestionPrototypes}
        (notMem : address ∉ entries.map fun entry => entry.2.1) :
        ((entries.map fun entry => entry.2.1).filter fun pointer => pointer ≠ address) =
          entries.map fun entry => entry.2.1 := by
      apply filter_eq_self.mpr
      intro pointer isPointer
      exact decide_eq_true fun same => notMem (same ▸ isPointer)
    rw [split.isSplit, map_append, map_cons, filter_append,
      filter_cons_of_neg (by simp), unchanged distinct.1.1, unchanged distinct.1.2] at kept
    rwa [map_append]

theorem add (tracks : Tracks prototypes pointers) (prototype : SuggestionPrototype)
    (isOwn : key = (prototype.sourceUrl, prototype.proposal.id))
    (notFound : Registry.find prototypes key = none)
    (isFree : (prototypes.at? address).isNone = true) :
    Tracks (prototypes ++ [(key, address, prototype)]) (address :: pointers) := by
  have keysPerm : ((prototypes ++ [(key, address, prototype)]).map Prod.fst).Perm
      (key :: prototypes.map Prod.fst) := by
    rw [map_append]
    exact perm_append_singleton _ _
  have addressesPerm : ((prototypes ++ [(key, address, prototype)]).map fun entry =>
      entry.2.1).Perm (address :: prototypes.map fun entry => entry.2.1) := by
    rw [map_append]
    exact perm_append_singleton _ _
  constructor
  · exact forall_mem_concat.mpr ⟨tracks.ownKey, isOwn⟩
  · apply keysPerm.nodup_iff.mpr
    exact nodup_cons.mpr ⟨find_eq_none_iff.mp notFound, tracks.keysDistinct⟩
  · apply addressesPerm.nodup_iff.mpr
    apply nodup_cons.mpr
    constructor
    · intro isMember
      obtain ⟨entry, isEntry, isAddress⟩ := mem_map.mp isMember
      exact ne_of_isNone isFree entry isEntry isAddress
    · exact tracks.addressesDistinct
  · exact (tracks.isPerm.cons address).trans addressesPerm.symm

end Tracks

namespace SuggestionEngine

def pointers (engine : SuggestionEngine) : List ℕ :=
  (engine.next ++ engine.ask).map RankedSuggestion.prototype

/-- The invariant: the lists refer to the prototypes, and no prototype was read that is gone. -/
structure Consistent (engine : SuggestionEngine) : Prop where
  tracks : Tracks engine.prototypes engine.pointers
  neverDangling : engine.danglingRead = false

variable {features : RankingFeatures} {engine : SuggestionEngine} {key : ProposalKey}
  {suggestions : List RankedSuggestion} {address : ℕ} {suggestion : RankedSuggestion}

theorem pointers_eq : engine.pointers =
    engine.next.map RankedSuggestion.prototype ++ engine.ask.map RankedSuggestion.prototype :=
  map_append

theorem mem_pointers (isListed : suggestion ∈ engine.next ++ engine.ask) :
    suggestion.prototype ∈ engine.pointers :=
  mem_map_of_mem isListed

namespace Consistent

variable (consistent : Consistent engine) {prototype : SuggestionPrototype}
include consistent

theorem read_eq (areListed : ∀ suggestion ∈ suggestions, suggestion ∈ engine.next ++ engine.ask) :
    engine.read suggestions = engine := by
  have allThere : (suggestions.any fun suggestion =>
      (engine.prototypes.at? suggestion.prototype).isNone) = false := by
    apply any_eq_false.mpr
    intro suggestion isSuggestion
    rw [consistent.tracks.isNone_at? (mem_pointers (areListed suggestion isSuggestion))]
    decide
  simp [read, allThere]

theorem matchesProposal_iff (isListed : suggestion ∈ engine.next ++ engine.ask)
    (isEntry : (key, address, prototype) ∈ engine.prototypes) :
    engine.matchesProposal key suggestion = true ↔ suggestion.prototype = address := by
  obtain ⟨other, isOther, otherEntry⟩ := consistent.tracks.exists_at? (mem_pointers isListed)
  rw [matchesProposal, isOther, Option.any_some, decide_eq_true_iff]
  constructor
  · rintro ⟨sameId, sameUrl⟩
    have sameKey : (other.sourceUrl, other.proposal.id) = key := Prod.ext sameUrl sameId
    exact congrArg (fun entry => entry.2.1) (consistent.tracks.eq_of_key otherEntry isEntry sameKey)
  · intro sameAddress
    have same := consistent.tracks.eq_of_address otherEntry isEntry sameAddress
    have sameKey : (other.sourceUrl, other.proposal.id) = key := congrArg Prod.fst same
    exact ⟨congrArg Prod.snd sameKey, congrArg Prod.fst sameKey⟩

theorem filter_matchesProposal (isEntry : (key, address, prototype) ∈ engine.prototypes)
    (areListed : ∀ suggestion ∈ suggestions, suggestion ∈ engine.next ++ engine.ask) :
    (suggestions.filter fun suggestion => !engine.matchesProposal key suggestion).map
        RankedSuggestion.prototype =
      (suggestions.map RankedSuggestion.prototype).filter fun pointer => pointer ≠ address := by
  rw [filter_map]
  congr 1
  apply filter_congr
  intro suggestion isSuggestion
  have isMatch := consistent.matchesProposal_iff (areListed suggestion isSuggestion) isEntry
  rw [Bool.eq_iff_iff, Bool.not_eq_true', Function.comp_apply, decide_eq_true_iff, ne_eq, ← isMatch,
    Bool.not_eq_true]

theorem removeProposal (key : ProposalKey) : Consistent (engine.removeProposal key) := by
  cases found : Registry.find engine.prototypes key with
  | none =>
    rw [SuggestionEngine.removeProposal, found, if_neg (by decide)]
    exact consistent
  | some entry =>
    obtain ⟨address, prototype⟩ := entry
    have isEntry := mem_of_find found
    rw [SuggestionEngine.removeProposal, found, if_pos Option.isSome_some, removeRanked,
      consistent.read_eq fun suggestion isListed => isListed]
    constructor
    · have kept := consistent.tracks.erase isEntry
      rw [pointers_eq, filter_append,
        ← consistent.filter_matchesProposal isEntry fun suggestion isNext =>
          mem_append_left _ isNext,
        ← consistent.filter_matchesProposal isEntry fun suggestion isAsk =>
          mem_append_right _ isAsk] at kept
      rw [pointers_eq]
      exact kept
    · exact consistent.neverDangling

end Consistent

theorem find_removeProposal (engine : SuggestionEngine) (key : ProposalKey) :
    Registry.find (engine.removeProposal key).prototypes key = none := by
  cases found : Registry.find engine.prototypes key with
  | none =>
    rw [removeProposal, found, if_neg (by decide)]
    exact found
  | some entry =>
    rw [removeProposal, found, if_pos Option.isSome_some]
    exact find_erase engine.prototypes key

variable {proposal : Proposal} {sourceUrl : Bytes}

theorem createSuggestionPrototype_eq
    (notFound : Registry.find engine.prototypes (sourceUrl, proposal.id) = none) :
    engine.createSuggestionPrototype sourceUrl proposal address = ({ engine with
        prototypes := engine.prototypes ++
          [((sourceUrl, proposal.id), address, ⟨engine.nextUuid, sourceUrl, proposal⟩)]
        nextUuid := engine.nextUuid + 1 }, address) := by
  rw [createSuggestionPrototype, notFound]

variable {handlerUrl : Bytes} {proposals : List (Proposal × ℕ)}

namespace Consistent

variable {next : SuggestionEngine} (consistent : Consistent engine)
include consistent

/-- What was there of a proposal is removed, and its new prototype gets a pointer. -/
theorem tracks_created (sourceUrl : Bytes) (proposal : Proposal)
    (isFree : ((engine.removeProposal (sourceUrl, proposal.id)).prototypes.at? address).isNone =
      true) : Tracks ((engine.removeProposal (sourceUrl, proposal.id)).prototypes ++
        [((sourceUrl, proposal.id), address,
          ⟨(engine.removeProposal (sourceUrl, proposal.id)).nextUuid, sourceUrl, proposal⟩)])
      (address :: (engine.removeProposal (sourceUrl, proposal.id)).pointers) := by
  apply (consistent.removeProposal (sourceUrl, proposal.id)).tracks.add
  · rfl
  · exact find_removeProposal engine (sourceUrl, proposal.id)
  · exact isFree

theorem addNextProposal {componentUrl : Bytes}
    (isStep : engine.addNextProposal componentUrl proposal address = some next) :
    Consistent next := by
  have notFound := find_removeProposal engine (componentUrl, proposal.id)
  simp only [SuggestionEngine.addNextProposal, createSuggestionPrototype_eq notFound] at isStep
  split at isStep
  case isFalse => cases isStep
  case isTrue free =>
    cases isStep
    constructor
    · apply (consistent.tracks_created componentUrl proposal free).perm
      rw [pointers_eq, pointers_eq, map_append, append_assoc]
      exact perm_middle
    · exact (consistent.removeProposal (componentUrl, proposal.id)).neverDangling

theorem addAskProposal (isStep : engine.addAskProposal sourceUrl proposal address = some next) :
    Consistent next := by
  have notFound := find_removeProposal engine (sourceUrl, proposal.id)
  simp only [SuggestionEngine.addAskProposal, createSuggestionPrototype_eq notFound] at isStep
  split at isStep
  case isFalse => cases isStep
  case isTrue free =>
    cases isStep
    constructor
    · apply (consistent.tracks_created sourceUrl proposal free).perm
      rw [pointers_eq, pointers_eq, map_append, ← append_assoc]
      exact perm_append_singleton _ _
    · exact (consistent.removeProposal (sourceUrl, proposal.id)).neverDangling

theorem addAskProposals
    (isAdded : SuggestionEngine.addAskProposals handlerUrl proposals engine = some next) :
    Consistent next := by
  induction proposals generalizing engine with
  | nil =>
    cases isAdded
    exact consistent
  | cons proposal proposals ih =>
    obtain ⟨middle, isStep, isRest⟩ := Option.bind_eq_some_iff.mp isAdded
    exact ih (consistent.addAskProposal isStep) isRest

end Consistent

theorem rank_perm (features : RankingFeatures) (engine : SuggestionEngine) (input : Bytes)
    (suggestions : List RankedSuggestion) :
    ((engine.rank features input suggestions).map RankedSuggestion.prototype).Perm
      (suggestions.map RankedSuggestion.prototype) := by
  have sorted := (perm_insertionSort
    (fun first second : RankedSuggestion => second.confidence ≤ first.confidence)
    (suggestions.map fun suggestion =>
      { suggestion with
        confidence := ((engine.prototypes.at? suggestion.prototype).map (features input)).getD
          0 })).map RankedSuggestion.prototype
  rw [map_map] at sorted
  exact sorted

namespace Consistent

variable {next : SuggestionEngine}

section

variable (consistent : Consistent engine)
include consistent

variable (features : RankingFeatures)

theorem rankNext (input : Bytes) : Consistent (engine.rankNext features input) := by
  rw [SuggestionEngine.rankNext, consistent.read_eq fun suggestion isNext =>
    mem_append_left _ isNext]
  constructor
  · apply consistent.tracks.perm
    rw [pointers_eq, pointers_eq]
    exact (rank_perm features engine input engine.next).append_right _
  · exact consistent.neverDangling

theorem rankAsk (input : Bytes) : Consistent (engine.rankAsk features input) := by
  rw [SuggestionEngine.rankAsk, consistent.read_eq fun suggestion isAsk => mem_append_right _ isAsk]
  constructor
  · apply consistent.tracks.perm
    rw [pointers_eq, pointers_eq]
    exact (rank_perm features engine input engine.ask).append_left _
  · exact consistent.neverDangling

theorem validate : Consistent (engine.validate features) := by
  rw [SuggestionEngine.validate]
  split
  · have ranked := consistent.rankNext features []
    exact ⟨ranked.tracks, ranked.neverDangling⟩
  · exact ⟨consistent.tracks, consistent.neverDangling⟩

end

theorem erasePrototypes (engine : SuggestionEngine)
    (consistent : Consistent { engine with ask := suggestions }) :
    Consistent { engine.erasePrototypes suggestions with ask := [] } := by
  induction suggestions generalizing engine with
  | nil => exact consistent
  | cons suggestion suggestions ih =>
    have isPointer : suggestion.prototype ∈
        pointers { engine with ask := suggestion :: suggestions } :=
      mem_pointers (by simp)
    obtain ⟨prototype, isPrototype, isEntry⟩ := consistent.tracks.exists_at? isPointer
    simp only at isPrototype
    rw [SuggestionEngine.erasePrototypes, isPrototype]
    apply ih
    constructor
    · have distinct := consistent.tracks.nodup
      have kept := consistent.tracks.erase isEntry
      simp only [pointers_eq, map_cons] at kept distinct
      rw [nodup_middle, nodup_cons, mem_append] at distinct
      rw [filter_append, filter_cons_of_neg (by simp), ← filter_append, filter_eq_self.mpr] at kept
      · rw [pointers_eq]
        exact kept
      · intro pointer isOther
        exact decide_eq_true fun same => distinct.1 (same ▸ mem_append.mp isOther)
    · exact consistent.neverDangling

variable (consistent : Consistent engine)
include consistent

theorem cleanUpPreviousQuery : Consistent engine.cleanUpPreviousQuery := by
  have erased := erasePrototypes { engine with activeQuery := none }
    ⟨consistent.tracks, consistent.neverDangling⟩
  exact ⟨erased.tracks, erased.neverDangling⟩

theorem handlerCallback {query : QueryProcessor}
    (isStep : engine.handlerCallback features query handlerUrl proposals = some next) :
    Consistent next := by
  obtain ⟨added, isAdded, rfl⟩ := Option.map_eq_some_iff.mp isStep
  have ranked := (consistent.addAskProposals isAdded).rankAsk features query.input
  exact ⟨ranked.tracks, ranked.neverDangling⟩

theorem onReply {number : ℕ}
    (isStep : engine.onReply features number handlerUrl proposals = some next) :
    Consistent next := by
  rw [SuggestionEngine.onReply] at isStep
  split at isStep
  · cases isStep
    exact consistent
  · exact consistent.handlerCallback isStep

theorem onTimeOut (number : ℕ) : Consistent (engine.onTimeOut number) := by
  rw [SuggestionEngine.onTimeOut]
  split
  · exact consistent
  · split
    · exact ⟨consistent.tracks, consistent.neverDangling⟩
    · exact consistent

theorem notifyInteraction (suggestionId : ℕ) :
    Consistent (engine.notifyInteraction features suggestionId) := by
  simp only [SuggestionEngine.notifyInteraction, consistent.read_eq fun suggestion isListed =>
    isListed]
  split
  case h_1 suggestion isFound =>
    have isNext := mem_of_find?_eq_some isFound
    obtain ⟨prototype, isPrototype, -⟩ :=
      consistent.tracks.exists_at? (mem_pointers (mem_append_left _ isNext))
    rw [isPrototype]
    exact (consistent.removeProposal _).validate features
  case h_2 =>
    split
    · exact consistent.cleanUpPreviousQuery.validate features
    · exact consistent

theorem step {event : SuggestionEvent}
    (isStep : engine.step features event = some next) : Consistent next := by
  cases event with
  | addNextProposal componentUrl proposal address => exact consistent.addNextProposal isStep
  | addAskProposal sourceUrl proposal address => exact consistent.addAskProposal isStep
  | removeProposal componentUrl proposalId =>
    cases isStep
    exact consistent.removeProposal _
  | validate =>
    cases isStep
    exact consistent.validate features
  | registerQueryHandler url =>
    cases isStep
    exact ⟨consistent.tracks, consistent.neverDangling⟩
  | query input =>
    cases isStep
    have cleaned := consistent.cleanUpPreviousQuery
    exact ⟨cleaned.tracks, cleaned.neverDangling⟩
  | reply index proposals =>
    obtain ⟨reply, -, isReply⟩ := Option.bind_eq_some_iff.mp isStep
    have answered : Consistent { engine with replies := engine.replies.eraseIdx index } :=
      ⟨consistent.tracks, consistent.neverDangling⟩
    exact answered.onReply isReply
  | timeOut number =>
    rw [SuggestionEngine.step] at isStep
    split at isStep
    · cases isStep
      exact consistent.onTimeOut number
    · cases isStep
  | listenerDisconnected =>
    rw [SuggestionEngine.step] at isStep
    split at isStep
    · cases isStep
      exact consistent.cleanUpPreviousQuery
    · cases isStep
  | notifyInteraction suggestionId =>
    cases isStep
    exact consistent.notifyInteraction suggestionId

/-- Where the engine is consistent, a suggestion is determined by the proposal it is for. -/
theorem proposalKey_nodup : ((engine.next ++ engine.ask).map engine.proposalKey).Nodup := by
  have isMap : (engine.next ++ engine.ask).map engine.proposalKey =
      engine.pointers.map fun pointer => (engine.prototypes.at? pointer).map fun prototype =>
        (prototype.sourceUrl, prototype.proposal.id) := by
    rw [pointers, map_map]
    rfl
  rw [isMap]
  apply List.Nodup.map_on _ consistent.tracks.nodup
  intro first isFirst second isSecond same
  obtain ⟨firstPrototype, atFirst, firstEntry⟩ := consistent.tracks.exists_at? isFirst
  obtain ⟨secondPrototype, atSecond, secondEntry⟩ := consistent.tracks.exists_at? isSecond
  rw [atFirst, atSecond, Option.map_some, Option.map_some, Option.some.injEq] at same
  exact congrArg (fun entry => entry.2.1)
    (consistent.tracks.eq_of_key firstEntry secondEntry same)

theorem refersToPrototypes : RefersToPrototypes engine where
  refers suggestion isListed := consistent.tracks.mem_iff.mp (mem_pointers isListed)
  exactlyOnce entry isEntry := by
    rw [← count_append, ← pointers_eq]
    apply count_eq_one_of_mem consistent.tracks.nodup
    exact consistent.tracks.mem_iff.mpr ⟨entry, isEntry, rfl⟩
  atMostOnce := consistent.proposalKey_nodup
  neverDangling := consistent.neverDangling

end Consistent

theorem consistent_start : Consistent start :=
  ⟨⟨by simp [start], by simp [start], by simp [start], .nil⟩, rfl⟩

end SuggestionEngine

/-- After any events, the next and the ask suggestions refer to the prototypes one to one, and no
two suggestions are for the same proposal. -/
theorem refersToPrototypes_run (features : RankingFeatures) (events : List SuggestionEvent)
    (final : SuggestionEngine)
    (isRun : runSteps (SuggestionEngine.step features) .start events = some final) :
    RefersToPrototypes final := by
  apply SuggestionEngine.Consistent.refersToPrototypes
  exact invariant_runSteps SuggestionEngine.Consistent
    (fun consistent _ isStep => consistent.step isStep)
    SuggestionEngine.consistent_start (eachStep_true events _) isRun

/-- A proposal moves from the next suggestions to the answers of a query, and the next query ends
it. -/
theorem refersToPrototypes_run_sample : RefersToPrototypes
    ⟨[(([1], [6]), 3, ⟨1, [1], ⟨[6], []⟩⟩)], [⟨3, 0⟩], true, [], false, true, 3, [[1]],
      some ⟨1, [8], [[1]], false⟩, 2, [(1, [1])], false⟩ :=
  refersToPrototypes_run (fun _ _ => 0)
    [.addNextProposal [1] ⟨[5], []⟩ 2, .addNextProposal [1] ⟨[6], []⟩ 3,
      .registerQueryHandler [1], .query [7], .reply 0 [(⟨[5], []⟩, 4)], .query [8]] _
    (by decide +kernel)

end Peridot
