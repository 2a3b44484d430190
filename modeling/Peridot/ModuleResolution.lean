import Peridot.ModuleQueries

/-!
# The modules that are found

A query is answered with exactly the entries that have its verb and accept a type of each noun, in
whatever order the types of the nouns arrive.
-/

namespace Peridot

open List Option Registry

/-- The entry has the verb of the query, and accepts one of the types of each noun. -/
def ManifestEntry.Resolves (entry : ManifestEntry) (query : ResolverQuery)
    (types : Bytes → List Bytes) : Prop :=
  query.verb = some entry.verb ∧
    ∀ noun ∈ query.nounConstraints, ∃ type ∈ types noun.1, entry.Accepts noun.1 type

/-- The types of a noun are those its constraint names or those its entity has. -/
def Determined (json : JsonCode) (types : Bytes → List Bytes)
    (noun : Bytes × ResolverNounConstraint) : Prop :=
  match getNounTypes json noun.2 with
  | .known known => types noun.1 = known
  | .asked _ => True
  | .never => False

/-- The manifests stay, and the entities of this query have the given types. -/
def ModuleResolverEvent.Gives (number : ℕ) (types : Bytes → List Bytes) :
    ModuleResolverEvent → Prop
  | .newManifestEntry .. | .removeManifestEntry .. => False
  | .findModules _ | .run _ => True
  | .getTypes call nounName given => call = number → given = types nounName

namespace ModuleResolver

variable {json : JsonCode} {before resolver : ModuleResolver} {query : ResolverQuery}
  {types : Bytes → List Bytes} {happened : List ModuleResolverEvent} {ids : OrderedSet EntryId}
    {nounName : Bytes}

/-- The answer has the results of exactly the entries that resolve the query, each once. -/
def Exact (json : JsonCode) (before : ModuleResolver) (query : ResolverQuery)
    (types : Bytes → List Bytes) (answer : ModulesAnswer) : Prop :=
  ∃ ids : List EntryId, ids.Nodup ∧
    (∀ id, id ∈ ids ↔ ∃ entry, before.entries.lookup id = some entry ∧ entry.Resolves query types) ∧
    answer.result = some (before.results json query ids)

/-- What holds of the call while it waits: the types of the pending nouns have not arrived, and the
candidates are the entries that accept types of the others. -/
structure Gathers (json : JsonCode) (before : ModuleResolver) (query : ResolverQuery)
    (types : Bytes → List Bytes) (happened : List ModuleResolverEvent) (call : FindModulesCall) :
    Prop where
  isQuery : call.query = query
  asked : ∀ pending ∈ call.pending, ∃ noun ∈ query.nounConstraints, noun.1 = pending.1 ∧
    getNounTypes json noun.2 = .asked pending.2
  notArrived : ∀ pending ∈ call.pending, ∀ given,
    .getTypes before.issued pending.1 given ∉ happened
  candidates : ∀ id, id ∈ call.candidates ↔ ∃ entry, before.entries.lookup id = some entry ∧
    query.verb = some entry.verb ∧ ∀ noun ∈ query.nounConstraints,
      noun.1 ∈ call.pending.map Prod.fst ∨ ∃ type ∈ types noun.1, entry.Accepts noun.1 type

structure Resolving (json : JsonCode) (before : ModuleResolver) (query : ResolverQuery)
    (types : Bytes → List Bytes) (happened : List ModuleResolverEvent)
    (resolver : ModuleResolver) : Prop where
  tracked : Tracked json resolver
  entries : resolver.entries = before.entries
  isNew : before.issued < resolver.issued
  posted : ∀ posted ∈ resolver.posted, posted.1 = before.issued → posted.2 = query ∧
    .run before.issued ∉ happened ∧
    ∀ nounName given, .getTypes before.issued nounName given ∉ happened
  calls : ∀ call ∈ resolver.calls, call.1 = before.issued →
    Gathers json before query types happened call.2
  answers : ∀ answer ∈ resolver.answers, answer.call = before.issued →
    Exact json before query types answer

theorem Determined.notNever {noun : Bytes × ResolverNounConstraint}
    (determined : Determined json types noun) : ¬NeverTyped json noun := by
  intro isNever
  rw [Determined, isNever] at determined
  exact determined

theorem mem_withVerb (indexed : Indexed resolver)
    (isVerb : resolver.withVerb query = some ids) {id : EntryId} :
    id ∈ ids ↔ ∃ entry, resolver.entries.lookup id = some entry ∧ query.verb = some entry.verb := by
  obtain ⟨verb, isQueried, isIndexed⟩ := bind_eq_some_iff.mp isVerb
  have isIds : resolver.verbToEntries.ids verb = ids := by
    rw [InvertedIndex.ids, isIndexed, getD_some]
  rw [← isIds, indexed.mem_verb, isQueried]
  simp only [some.injEq, eq_comm]

theorem mem_filterMap_askedNoun {nouns : List (Bytes × ResolverNounConstraint)}
    {pending : Bytes × Bytes} :
    pending ∈ nouns.filterMap (askedNoun json) ↔ ∃ noun ∈ nouns, noun.1 = pending.1 ∧
      getNounTypes json noun.2 = .asked pending.2 := by
  rw [mem_filterMap]
  refine exists_congr fun noun => and_congr_right fun _ => ?_
  rw [askedNoun]
  cases getNounTypes json noun.2 with
  | known known => simp
  | asked entityReference => simp [Prod.ext_iff]
  | never => simp

theorem gathers_run (json : JsonCode) (indexed : Indexed resolver)
    (sameEntries : resolver.entries = before.entries)
    (determined : ∀ noun ∈ query.nounConstraints, Determined json types noun)
    (isVerb : resolver.withVerb query = some ids)
    (notArrived : ∀ nounName given, .getTypes before.issued nounName given ∉ happened) :
    Gathers json before query types happened (resolver.run json query) := by
  obtain ⟨-, isPending, isQuery⟩ := run_counted json indexed isVerb
  have asked : ∀ pending ∈ (resolver.run json query).pending, ∃ noun ∈ query.nounConstraints,
      noun.1 = pending.1 ∧ getNounTypes json noun.2 = .asked pending.2 := by
    intro pending inPending
    rw [isPending] at inPending
    exact mem_filterMap_askedNoun.mp inPending
  refine ⟨isQuery, asked, fun pending _ => notArrived pending.1, fun id => ?_⟩
  rw [mem_run isVerb, mem_withVerb indexed isVerb, sameEntries]
  constructor
  · rintro ⟨⟨entry, isEntry, hasVerb⟩, known⟩
    refine ⟨entry, isEntry, hasVerb, fun noun inNouns => ?_⟩
    have isDetermined := determined noun inNouns
    rw [Determined] at isDetermined
    cases isTyped : getNounTypes json noun.2 with
    | known nounTypes =>
      rw [isTyped] at isDetermined
      obtain ⟨type, inTypes, inIndex⟩ := known noun inNouns nounTypes isTyped
      obtain ⟨other, isOther, accepts⟩ := indexed.mem_nounType.mp inIndex
      rw [sameEntries, isEntry] at isOther
      cases isOther
      exact .inr ⟨type, isDetermined ▸ inTypes, accepts⟩
    | asked entityReference =>
      refine .inl (mem_map.mpr ⟨(noun.1, entityReference), ?_, rfl⟩)
      rw [isPending]
      exact mem_filterMap_askedNoun.mpr ⟨noun, inNouns, rfl, isTyped⟩
    | never =>
      rw [isTyped] at isDetermined
      exact isDetermined.elim
  · rintro ⟨entry, isEntry, hasVerb, allAccepted⟩
    refine ⟨⟨entry, isEntry, hasVerb⟩, fun noun inNouns nounTypes isTyped => ?_⟩
    have isDetermined := determined noun inNouns
    rw [Determined, isTyped] at isDetermined
    rcases allAccepted noun inNouns with inPending | ⟨type, inTypes, accepts⟩
    · obtain ⟨pending, inPending, sameName⟩ := mem_map.mp inPending
      obtain ⟨other, inOthers, otherName, isAsked⟩ := asked pending inPending
      obtain rfl := inj_on_of_nodup_map query.distinct inNouns inOthers
        (sameName.symm.trans otherName.symm)
      exact nomatch isTyped.symm.trans isAsked
    · refine ⟨type, isDetermined ▸ inTypes, indexed.mem_nounType.mpr ⟨entry, ?_, accepts⟩⟩
      rw [sameEntries]
      exact isEntry

theorem mem_erase {pending : List (Bytes × Bytes)} {noun : Bytes × Bytes} :
    noun ∈ Registry.erase pending nounName ↔ noun ∈ pending ∧ noun.1 ≠ nounName := by
  rw [Registry.erase, mem_filter, decide_eq_true_iff]

variable {call : FindModulesCall} {next : ModuleResolver}

/-- When the types of a noun arrive, the candidates that accept none of them go. -/
theorem Gathers.getTypes (indexed : Indexed resolver)
    (sameEntries : resolver.entries = before.entries)
    (gathers : Gathers json before query types happened call) (waits : Waits json call)
    (isPending : (Registry.find call.pending nounName).isSome = true) :
    Gathers json before query types
      (happened ++ [.getTypes before.issued nounName (types nounName)])
      (resolver.onGetTypes json call nounName (types nounName)) := by
  obtain ⟨-, stillPending, isQuery⟩ := waits.onGetTypes indexed (types nounName) isPending
  obtain ⟨entityReference, isFound⟩ := isSome_iff_exists.mp isPending
  obtain ⟨noun, inNouns, isNoun, -⟩ := gathers.asked _ (mem_of_find isFound)
  refine ⟨isQuery.trans gathers.isQuery, fun pending inPending => ?_,
    fun pending inPending given => ?_, fun id => ?_⟩
  · rw [stillPending, mem_erase] at inPending
    exact gathers.asked pending inPending.1
  · rw [stillPending, mem_erase] at inPending
    simp only [mem_append, mem_singleton, ModuleResolverEvent.getTypes.injEq, not_or]
    exact ⟨gathers.notArrived pending inPending.1 given, fun same => inPending.2 same.2.1⟩
  · rw [onGetTypes, onNounTypes_candidates, mem_processNounTypes]
    change id ∈ call.candidates ∧ _ ↔ _
    have isPendingNow : ∀ name : Bytes,
        name ∈ (resolver.onGetTypes json call nounName (types nounName)).pending.map Prod.fst ↔
          name ∈ call.pending.map Prod.fst ∧ name ≠ nounName := by
      intro name
      rw [stillPending]
      simp only [List.mem_map, mem_erase]
      constructor
      · rintro ⟨pending, ⟨inPending, different⟩, rfl⟩
        exact ⟨⟨pending, inPending, rfl⟩, different⟩
      · rintro ⟨⟨pending, inPending, rfl⟩, different⟩
        exact ⟨pending, ⟨inPending, different⟩, rfl⟩
    simp only [onGetTypes] at isPendingNow
    simp only [isPendingNow]
    rw [gathers.candidates]
    constructor
    · rintro ⟨⟨entry, isEntry, hasVerb, allAccepted⟩, type, inTypes, inIndex⟩
      refine ⟨entry, isEntry, hasVerb, fun other inOthers => ?_⟩
      by_cases same : other.1 = nounName
      · obtain ⟨found, isOther, accepts⟩ := indexed.mem_nounType.mp inIndex
        rw [sameEntries, isEntry] at isOther
        cases isOther
        rw [same]
        exact .inr ⟨type, inTypes, accepts⟩
      · exact (allAccepted other inOthers).imp_left fun inPending => ⟨inPending, same⟩
    · rintro ⟨entry, isEntry, hasVerb, allAccepted⟩
      refine ⟨⟨entry, isEntry, hasVerb, fun other inOthers =>
        (allAccepted other inOthers).imp_left And.left⟩, ?_⟩
      have isNoun : noun.1 = nounName := isNoun
      rcases allAccepted noun inNouns with ⟨-, different⟩ | ⟨type, inTypes, accepts⟩
      · exact absurd isNoun different
      · rw [isNoun] at inTypes accepts
        exact ⟨type, inTypes, indexed.mem_nounType.mpr ⟨entry, sameEntries ▸ isEntry, accepts⟩⟩

theorem Gathers.exact (number : ℕ) (sameEntries : resolver.entries = before.entries)
    (gathers : Gathers json before query types happened call)
    (counted : Counted json resolver call (numNever json call.query.nounConstraints))
    (determined : ∀ noun ∈ query.nounConstraints, Determined json types noun)
    (isEmpty : call.pending = []) :
    Exact json before query types ⟨number, call.query, call.result, resolver.entries⟩ := by
  have noneNever : numNever json call.query.nounConstraints = 0 := by
    rw [numNever_eq_zero_iff, gathers.isQuery]
    exact fun noun inNouns => Determined.notNever (determined noun inNouns)
  have count := counted.counted
  rw [noneNever, isEmpty] at count
  refine ⟨call.candidates.items, call.candidates.nodup, fun id => ?_, ?_⟩
  · refine (gathers.candidates id).trans ?_
    simp [isEmpty, ManifestEntry.Resolves]
  · have isResult := counted.result count
    rw [gathers.isQuery] at isResult
    refine isResult.trans ?_
    simp only [results, sameEntries]

theorem exact_of_none (indexed : Indexed resolver) (number : ℕ)
    (sameEntries : resolver.entries = before.entries) (isNone : resolver.withVerb query = none) :
    Exact json before query types ⟨number, query, some [], resolver.entries⟩ := by
  refine ⟨[], nodup_nil, fun id => ?_, rfl⟩
  refine iff_of_false not_mem_nil ?_
  rintro ⟨entry, isEntry, hasVerb, -⟩
  have notIndexed : resolver.verbToEntries.lookup entry.verb = none := by
    rw [withVerb, hasVerb] at isNone
    exact isNone
  have inIndex : id ∈ resolver.verbToEntries.ids entry.verb :=
    indexed.mem_verb.mpr ⟨entry, sameEntries ▸ isEntry, rfl⟩
  rw [InvertedIndex.ids, notIndexed] at inIndex
  exact OrderedSet.notMem_empty id inIndex

theorem Others.resolving (others : Others json resolver before.issued)
    (tracked : Tracked json (resolver.conclude before.issued call))
    (sameEntries : resolver.entries = before.entries) (isNew : before.issued < resolver.issued)
    (gathers : call.pending ≠ [] → Gathers json before query types happened call)
    (exact : call.pending = [] → Exact json before query types
      ⟨before.issued, call.query, call.result, resolver.entries⟩) :
    Resolving json before query types happened (resolver.conclude before.issued call) := by
  have distinct := others.once.nodup_iff.mpr nodup_range
  rw [nodup_cons, mem_append, mem_append, not_or, not_or] at distinct
  obtain ⟨⟨notAnswered, notPosted, notCalled⟩, -⟩ := distinct
  have noAnswer : ∀ answer ∈ resolver.answers, answer.call ≠ before.issued :=
    fun answer inAnswers same => notAnswered (mem_map.mpr ⟨answer, inAnswers, same⟩)
  have noCall : ∀ other ∈ resolver.calls, other.1 ≠ before.issued :=
    fun other inCalls same => notCalled (mem_map.mpr ⟨other, inCalls, same⟩)
  have noPosted : ∀ posted ∈ resolver.posted, posted.1 ≠ before.issued :=
    fun posted inPosted same => notPosted (mem_map.mpr ⟨posted, inPosted, same⟩)
  rcases conclude_cases resolver before.issued call with
    ⟨isEmpty, isEnd⟩ | ⟨notEmpty, isWait⟩
  · rw [isEnd] at tracked ⊢
    refine ⟨tracked, sameEntries, isNew,
      fun posted inPosted same => absurd same (noPosted posted inPosted),
      fun other inCalls same => absurd same (noCall other inCalls), ?_⟩
    exact forall_mem_append.mpr ⟨fun answer inAnswers same =>
      absurd same (noAnswer answer inAnswers), forall_mem_singleton.mpr fun _ => exact isEmpty⟩
  · rw [isWait] at tracked ⊢
    refine ⟨tracked, sameEntries, isNew,
      fun posted inPosted same => absurd same (noPosted posted inPosted), ?_,
      fun answer inAnswers same => absurd same (noAnswer answer inAnswers)⟩
    exact forall_mem_append.mpr ⟨fun other inCalls same =>
      absurd same (noCall other inCalls),
      forall_mem_singleton.mpr fun _ => gathers notEmpty⟩

section

variable (resolving : Resolving json before query types happened resolver)
include resolving

theorem Resolving.other {rest : ModuleResolver} {number : ℕ}
    (tracked : Tracked json (rest.conclude number call)) (different : number ≠ before.issued)
    (sameEntries : rest.entries = resolver.entries) (sameIssued : rest.issued = resolver.issued)
    (sameAnswers : rest.answers = resolver.answers)
    (posted : ∀ posted ∈ rest.posted, posted ∈ resolver.posted)
    (calls : ∀ call ∈ rest.calls, call ∈ resolver.calls) :
    Resolving json before query types happened (rest.conclude number call) := by
  have isNew : before.issued < rest.issued := sameIssued ▸ resolving.isNew
  have sameEntries := sameEntries.trans resolving.entries
  have stillPosted : ∀ posted ∈ rest.posted, posted.1 = before.issued → _ :=
    fun other inPosted => resolving.posted other (posted other inPosted)
  have stillCalls : ∀ call ∈ rest.calls, call.1 = before.issued → _ :=
    fun other inCalls => resolving.calls other (calls other inCalls)
  have stillAnswers : ∀ answer ∈ rest.answers, answer.call = before.issued → _ :=
    fun answer inAnswers => resolving.answers answer (sameAnswers ▸ inAnswers)
  rcases conclude_cases rest number call with ⟨-, isEnd⟩ | ⟨-, isWait⟩
  · rw [isEnd] at tracked ⊢
    exact ⟨tracked, sameEntries, isNew, stillPosted, stillCalls,
      forall_mem_append.mpr ⟨stillAnswers,
        forall_mem_singleton.mpr fun same => absurd same different⟩⟩
  · rw [isWait] at tracked ⊢
    exact ⟨tracked, sameEntries, isNew, stillPosted, forall_mem_append.mpr ⟨stillCalls,
        forall_mem_singleton.mpr fun same => absurd same different⟩, stillAnswers⟩

theorem Resolving.happens (event : ModuleResolverEvent) (notRun : event ≠ .run before.issued)
    (notTypes : ∀ nounName given, event ≠ .getTypes before.issued nounName given) :
    Resolving json before query types (happened ++ [event]) resolver where
  __ := resolving
  posted posted inPosted same := by
    obtain ⟨isQuery, notRan, notArrived⟩ := resolving.posted posted inPosted same
    refine ⟨isQuery, ?_, fun nounName given => ?_⟩
    · rw [mem_append, mem_singleton, not_or]
      exact ⟨notRan, notRun.symm⟩
    · rw [mem_append, mem_singleton, not_or]
      exact ⟨notArrived nounName given, (notTypes nounName given).symm⟩
  calls call inCalls same := by
    have gathers := resolving.calls call inCalls same
    refine ⟨gathers.isQuery, gathers.asked, fun pending inPending given => ?_, gathers.candidates⟩
    rw [mem_append, mem_singleton, not_or]
    exact ⟨gathers.notArrived pending inPending given, (notTypes pending.1 given).symm⟩

variable (determined : ∀ noun ∈ query.nounConstraints, Determined json types noun)
include determined

theorem Resolving.step {event : ModuleResolverEvent} (gives : event.Gives before.issued types)
    (isStep : ModuleResolver.step json resolver event = some next) :
    Resolving json before query types (happened ++ [event]) next := by
  have trackedNext := resolving.tracked.step isStep
  have stepCases := resolving.tracked.step_cases isStep
  cases event with
  | newManifestEntry sourceName id entry => exact gives.elim
  | removeManifestEntry sourceName id => exact gives.elim
  | findModules other =>
    dsimp only at stepCases
    subst stepCases
    have still := resolving.happens (.findModules other) (by simp) (by simp)
    have isOther : resolver.issued ≠ before.issued := resolving.isNew.ne'
    exact ⟨trackedNext, still.entries, Nat.lt_succ_of_lt still.isNew,
      forall_mem_append.mpr ⟨still.posted,
        forall_mem_singleton.mpr fun same => absurd same isOther⟩, still.calls, still.answers⟩
  | run number =>
    obtain ⟨posted, isPosted, rfl⟩ := stepCases
    by_cases same : number = before.issued
    · subst same
      have others := resolving.tracked.posted isPosted
      obtain ⟨isQuery, -, notArrived⟩ := resolving.posted _ (mem_of_find isPosted) rfl
      obtain rfl : posted = query := isQuery
      have notArrived : ∀ nounName given, .getTypes before.issued nounName given ∉
          happened ++ [.run before.issued] := by
        intro nounName given
        rw [mem_append, mem_singleton, not_or]
        exact ⟨notArrived nounName given, by simp⟩
      have indexed := resolving.tracked.indexed
      cases isVerb : resolver.withVerb posted with
      | none =>
        rw [run_of_none isVerb] at trackedNext ⊢
        exact others.resolving trackedNext resolving.entries resolving.isNew
          (absurd rfl)
          fun _ => exact_of_none indexed before.issued resolving.entries isVerb
      | some ids =>
        have gathers := gathers_run json indexed resolving.entries determined isVerb notArrived
        have counted : Counted json resolver (resolver.run json posted)
            (numNever json (resolver.run json posted).query.nounConstraints) := by
          rw [gathers.isQuery]
          exact (run_counted json indexed isVerb).1
        have isExact := gathers.exact before.issued resolving.entries counted determined
        exact others.resolving trackedNext resolving.entries resolving.isNew
          (fun _ => gathers) isExact
    · have still := resolving.other trackedNext same rfl rfl rfl
        (fun posted inPosted => mem_of_mem_filter inPosted) fun call inCalls => inCalls
      exact still.happens _ (by simpa using same) (by simp)
  | getTypes number nounName given =>
    obtain ⟨call, isCall, isPending, rfl⟩ := stepCases
    by_cases same : number = before.issued
    · subst same
      obtain rfl := gives rfl
      have others := resolving.tracked.called isCall
      have waits := resolving.tracked.waits _ (mem_of_find isCall)
      have indexed := resolving.tracked.indexed
      have gathers := (resolving.calls _ (mem_of_find isCall) rfl).getTypes indexed
        resolving.entries waits isPending
      obtain ⟨counted, -, isQuery⟩ := waits.onGetTypes indexed (types nounName) isPending
      rw [← isQuery] at counted
      have isExact := gathers.exact before.issued resolving.entries counted determined
      exact others.resolving trackedNext resolving.entries resolving.isNew (fun _ => gathers)
        isExact
    · have still := resolving.other trackedNext same rfl rfl rfl
        (fun posted inPosted => inPosted) fun call inCalls => mem_of_mem_filter inCalls
      exact still.happens _ (by simp) (by simp [same])

/-- The query is followed through a run in which the manifests stay as they are. -/
theorem Resolving.run {later : List ModuleResolverEvent}
    (gives : ∀ event ∈ later, event.Gives before.issued types) {final : ModuleResolver}
    (isRun : runSteps (ModuleResolver.step json) resolver later = some final) :
    Resolving json before query types (happened ++ later) final := by
  induction later generalizing resolver happened with
  | nil =>
    cases isRun
    rwa [append_nil]
  | cons event later ih =>
    obtain ⟨next, isStep, isRun⟩ := runSteps_cons.mp isRun
    rw [forall_mem_cons] at gives
    have nextResolving := resolving.step determined gives.1 isStep
    rw [append_cons]
    exact ih nextResolving gives.2 isRun

end

theorem Tracked.resolving (tracked : Tracked json before) (types : Bytes → List Bytes)
    (isStep : ModuleResolver.step json before (.findModules query) = some next) :
    Resolving json before query types [] next := by
  have trackedNext := tracked.step isStep
  have stepCases := tracked.step_cases isStep
  dsimp only at stepCases
  subst stepCases
  have isOld : ∀ number ∈ before.answers.map ModulesAnswer.call ++
      (before.posted.map Prod.fst ++ before.calls.map Prod.fst), number ≠ before.issued :=
    fun number inNumbers => (mem_range.mp (tracked.once.subset inNumbers)).ne
  simp only [forall_mem_append, List.forall_mem_map] at isOld
  obtain ⟨oldAnswers, oldPosted, oldCalls⟩ := isOld
  refine ⟨trackedNext, rfl, Nat.lt_succ_self _, ?_,
    fun call inCalls same => absurd same (oldCalls call inCalls),
    fun answer inAnswers same => absurd same (oldAnswers answer inAnswers)⟩
  refine forall_mem_append.mpr ⟨fun posted inPosted same =>
    absurd same (oldPosted posted inPosted), forall_mem_singleton.mpr fun _ => ?_⟩
  exact ⟨rfl, not_mem_nil, fun _ _ => not_mem_nil⟩

end ModuleResolver

end Peridot
