import Peridot.ModuleCalls

/-!
# Answering queries

The manifests change while queries wait.  Every query is answered once, with entries that are there
when it is answered, if the types of all of its nouns are given.
-/

namespace Peridot

open List Registry Prod ModuleResolver Option

namespace ModuleResolver

variable {json : JsonCode} {resolver : ModuleResolver}

def NamesPresent (json : JsonCode) (answer : ModulesAnswer) : Prop :=
  ∃ modules, answer.result = some modules ∧ ∀ result ∈ modules, ∃ id entry,
    answer.entries.lookup id = some entry ∧ result = moduleResult json answer.query entry

/-- The check has not failed, each query is answered once or still waits, the answers name entries
that are there, and a query waits for the types of some noun. -/
structure AnswersQueries (json : JsonCode) (resolver : ModuleResolver) : Prop where
  checked : resolver.checkFailed = false
  once : (resolver.answers.map ModulesAnswer.call ++ (resolver.posted.map Prod.fst ++
    resolver.calls.map Prod.fst)).Perm (List.range resolver.issued)
  answered : ∀ answer ∈ resolver.answers, NamesPresent json answer
  waiting : ∀ waiting ∈ resolver.calls, waiting.2.pending ≠ []

/-- A query whose last types come, or that asks for none, has no noun that is never typed. -/
def EndsTyped (json : JsonCode) (resolver : ModuleResolver) : ModuleResolverEvent → Prop
  | .run number => ∀ query ∈ Registry.find resolver.posted number,
      (resolver.withVerb query).isSome = true →
      query.nounConstraints.filterMap (askedNoun json) = [] →
      ∀ noun ∈ query.nounConstraints, ¬NeverTyped json noun
  | .getTypes number nounName _ => ∀ call ∈ Registry.find resolver.calls number,
      (∀ noun ∈ call.pending, noun.1 = nounName) →
      ∀ noun ∈ call.query.nounConstraints, ¬NeverTyped json noun
  | .newManifestEntry .. | .removeManifestEntry .. | .findModules _ => True

/-- A call counts the nouns that are pending and those whose types are never given. -/
structure Waits (json : JsonCode) (call : FindModulesCall) : Prop where
  counted : call.numNounsCountdown =
    call.pending.length + numNever json call.query.nounConstraints
  unset : call.result = none
  checked : call.checkFailed = false
  distinct : (call.pending.map Prod.fst).Nodup
  waiting : call.pending ≠ []

/-- What holds of the rest of the resolver while it has a call in hand. -/
structure Others (json : JsonCode) (resolver : ModuleResolver) (number : ℕ) : Prop where
  indexed : Indexed resolver
  once : (number :: (resolver.answers.map ModulesAnswer.call ++ (resolver.posted.map Prod.fst ++
    resolver.calls.map Prod.fst))).Perm (List.range resolver.issued)
  waits : ∀ waiting ∈ resolver.calls, Waits json waiting.2

/-- What holds in every run: the check has not failed, the entries are indexed, and each query is
answered once or still waits. -/
structure Tracked (json : JsonCode) (resolver : ModuleResolver) : Prop where
  checked : resolver.checkFailed = false
  indexed : Indexed resolver
  once : (resolver.answers.map ModulesAnswer.call ++ (resolver.posted.map Prod.fst ++
    resolver.calls.map Prod.fst)).Perm (List.range resolver.issued)
  waits : ∀ waiting ∈ resolver.calls, Waits json waiting.2

variable {call : FindModulesCall}

theorem Counted.namesPresent_iff (number : ℕ)
    (counted : Counted json resolver call (numNever json call.query.nounConstraints))
    (isEmpty : call.pending = []) :
    NamesPresent json ⟨number, call.query, call.result, resolver.entries⟩ ↔
      ∀ noun ∈ call.query.nounConstraints, ¬NeverTyped json noun := by
  have count := counted.counted
  rw [isEmpty, length_nil, Nat.zero_add] at count
  rw [← numNever_eq_zero_iff, ← count]
  constructor
  · rintro ⟨modules, isResult, -⟩
    by_contra notZero
    exact some_ne_none modules (isResult.symm.trans (counted.unset notZero))
  · intro isZero
    refine ⟨_, counted.result isZero, fun result inResults => ?_⟩
    obtain ⟨id, -, isResult⟩ := mem_filterMap.mp inResults
    obtain ⟨entry, isEntry, rfl⟩ := map_eq_some_iff.mp isResult
    exact ⟨id, entry, isEntry, rfl⟩

theorem Counted.waits
    (counted : Counted json resolver call (numNever json call.query.nounConstraints))
    (distinct : (call.pending.map fst).Nodup) (waiting : call.pending ≠ []) : Waits json call where
  __ := counted
  unset := by
    have notNil : call.pending.length ≠ 0 := by rwa [Ne, length_eq_zero_iff]
    have count := counted.counted
    exact counted.unset (by omega)
  distinct := distinct
  waiting := waiting

theorem map_fst_filterMap_askedNoun (nouns : List (Bytes × ResolverNounConstraint)) :
    ((nouns.filterMap (askedNoun json)).map fst).Sublist (nouns.map fst) := by
  induction nouns with
  | nil => exact List.Sublist.refl []
  | cons noun nouns ih =>
    rw [filterMap_cons, map_cons, askedNoun]
    cases getNounTypes json noun.2 with
    | known types => exact ih.cons noun.1
    | asked entityReference => exact ih.cons_cons noun.1
    | never => exact ih.cons noun.1

variable {nounName : Bytes}

theorem Waits.onGetTypes (waits : Waits json call) (indexed : Indexed resolver) (types : List Bytes)
    (isPending : (find call.pending nounName).isSome = true) :
    Counted json resolver (resolver.onGetTypes json call nounName types)
        (numNever json call.query.nounConstraints) ∧
      (resolver.onGetTypes json call nounName types).pending = erase call.pending nounName ∧
      (resolver.onGetTypes json call nounName types).query = call.query := by
  obtain ⟨entityReference, isFound⟩ := isSome_iff_exists.mp isPending
  obtain ⟨before, after, split⟩ := exists_split waits.distinct (mem_of_find isFound)
  have count := waits.counted
  have oneLess : call.pending.length = (erase call.pending nounName).length + 1 := by
    rw [split.erase_eq, split.isSplit]
    simp only [length_append, length_cons]
    omega
  have counted : Counted json resolver
      { call with pending := erase call.pending nounName }
      (numNever json call.query.nounConstraints + 1) := by
    refine ⟨?_, fun isZero => ?_, fun _ => waits.unset, waits.checked⟩
    · change call.numNounsCountdown = (erase call.pending nounName).length + _
      omega
    · change call.numNounsCountdown = 0 at isZero
      omega
  exact ⟨counted.onNounTypes indexed nounName types, onNounTypes_pending _ _ _,
    onNounTypes_query _ _ _⟩

theorem Tracked.nodup (tracked : Tracked json resolver) :
    (resolver.posted.map fst).Nodup ∧ (resolver.calls.map fst).Nodup := by
  have distinct := tracked.once.nodup_iff.mpr nodup_range
  obtain ⟨postedDistinct, callsDistinct, -⟩ := nodup_append.mp (nodup_append.mp distinct).2.1
  exact ⟨postedDistinct, callsDistinct⟩

variable {number : ℕ} {query : ResolverQuery}

theorem Tracked.posted (tracked : Tracked json resolver)
    (isPosted : find resolver.posted number = some query) :
    Others json { resolver with posted := erase resolver.posted number } number := by
  obtain ⟨before, after, split⟩ := exists_split tracked.nodup.1 (mem_of_find isPosted)
  refine ⟨⟨tracked.indexed.verbs, tracked.indexed.nouns⟩, ?_, tracked.waits⟩
  refine List.Perm.trans ?_ tracked.once
  change (number :: (resolver.answers.map ModulesAnswer.call ++
    ((erase resolver.posted number).map fst ++ _))).Perm _
  rw [split.erase_eq, split.isSplit, perm_iff_count]
  intro other
  simp only [map_append, map_cons, count_append, count_cons]
  omega

theorem Tracked.called (tracked : Tracked json resolver)
    (isCall : find resolver.calls number = some call) :
    Others json { resolver with calls := erase resolver.calls number } number := by
  obtain ⟨before, after, split⟩ := exists_split tracked.nodup.2 (mem_of_find isCall)
  refine ⟨⟨tracked.indexed.verbs, tracked.indexed.nouns⟩, ?_,
    fun waiting inCalls => tracked.waits waiting (mem_of_mem_filter inCalls)⟩
  refine List.Perm.trans ?_ tracked.once
  change (number :: (resolver.answers.map ModulesAnswer.call ++
    (_ ++ (erase resolver.calls number).map fst))).Perm _
  rw [split.erase_eq, split.isSplit, perm_iff_count]
  intro other
  simp only [map_append, map_cons, count_append, count_cons]
  omega

theorem conclude_cases (resolver : ModuleResolver) (number : ℕ) (call : FindModulesCall) :
    call.pending = [] ∧ resolver.conclude number call = { resolver with
          answers := resolver.answers ++ [⟨number, call.query, call.result, resolver.entries⟩]
          checkFailed := call.checkFailed } ∨
      call.pending ≠ [] ∧ resolver.conclude number call = { resolver with
          calls := resolver.calls ++ [(number, call)]
          checkFailed := call.checkFailed } := by
  by_cases isEmpty : call.pending = []
  · exact .inl ⟨isEmpty, if_pos isEmpty⟩
  · exact .inr ⟨isEmpty, if_neg isEmpty⟩

theorem Counted.conclude_answers
    (counted : Counted json resolver call (numNever json call.query.nounConstraints))
    (others : ModuleResolver) (number : ℕ) (sameEntries : others.entries = resolver.entries) :
    (others.conclude number call).answers = others.answers ∧
        (call.pending = [] → ∀ noun ∈ call.query.nounConstraints, ¬NeverTyped json noun) ∨
      ∃ answer, (others.conclude number call).answers = others.answers ++ [answer] ∧
        (NamesPresent json answer ↔
          (call.pending = [] → ∀ noun ∈ call.query.nounConstraints, ¬NeverTyped json noun)) := by
  rcases conclude_cases others number call with ⟨isEmpty, isEnd⟩ | ⟨notEmpty, isWait⟩
  · rw [isEnd, sameEntries]
    refine .inr ⟨_, rfl, (counted.namesPresent_iff number isEmpty).trans ?_⟩
    simp [isEmpty]
  · rw [isWait]
    exact .inl ⟨rfl, fun isEmpty => absurd isEmpty notEmpty⟩

theorem Others.conclude (others : Others json resolver number) (checked : call.checkFailed = false)
    (waits : call.pending ≠ [] → Waits json call) :
    Tracked json (resolver.conclude number call) := by
  rcases conclude_cases resolver number call with
    ⟨-, isEnd⟩ | ⟨notEmpty, isWait⟩
  · rw [isEnd]
    refine ⟨checked, ⟨others.indexed.verbs, others.indexed.nouns⟩, ?_, others.waits⟩
    refine List.Perm.trans ?_ others.once
    rw [map_append, append_assoc]
    exact perm_middle
  · rw [isWait]
    refine ⟨checked, ⟨others.indexed.verbs, others.indexed.nouns⟩, ?_,
      forall_mem_append.mpr ⟨others.waits, forall_mem_singleton.mpr (waits notEmpty)⟩⟩
    refine List.Perm.trans ?_ others.once
    have isLast : (resolver.calls ++ [(number, call)]).map fst =
        resolver.calls.map fst ++ [number] := map_append
    change (resolver.answers.map ModulesAnswer.call ++ (resolver.posted.map fst ++
      (resolver.calls ++ [(number, call)]).map fst)).Perm _
    rw [isLast, ← append_assoc, ← append_assoc, ← append_assoc]
    exact perm_append_singleton number _

theorem erase_eq_nil_iff {pending : List (Bytes × Bytes)} :
    erase pending nounName = [] ↔ ∀ noun ∈ pending, noun.1 = nounName := by
  rw [erase, filter_eq_nil_iff]
  simp

theorem Tracked.run (tracked : Tracked json resolver)
    (isPosted : find resolver.posted number = some query) : Tracked json (conclude
        { resolver with posted := erase resolver.posted number } number
        (resolver.run json query)) := by
  have others := tracked.posted isPosted
  cases isVerb : resolver.withVerb query with
  | none =>
    rw [run_of_none isVerb]
    exact others.conclude rfl fun notNil => absurd rfl notNil
  | some ids =>
    obtain ⟨counted, isPending, isQuery⟩ := run_counted json tracked.indexed isVerb
    have distinct : ((resolver.run json query).pending.map fst).Nodup := by
      rw [isPending]
      exact query.distinct.sublist (map_fst_filterMap_askedNoun _)
    generalize resolver.run json query = call at *
    subst isQuery
    exact others.conclude counted.checked (counted.waits distinct)

theorem Tracked.getTypes (tracked : Tracked json resolver)
    (isCall : find resolver.calls number = some call)
    (isPending : (find call.pending nounName).isSome = true) (types : List Bytes) :
    Tracked json (conclude { resolver with calls := erase resolver.calls number } number
        (resolver.onGetTypes json call nounName types)) := by
  have others := tracked.called isCall
  have waits := tracked.waits _ (mem_of_find isCall)
  obtain ⟨counted, stillPending, isQuery⟩ := waits.onGetTypes tracked.indexed types isPending
  have distinct : ((resolver.onGetTypes json call nounName types).pending.map fst).Nodup := by
    rw [stillPending]
    exact waits.distinct.sublist (filter_sublist.map fst)
  rw [← isQuery] at counted
  exact others.conclude counted.checked (counted.waits distinct)

variable {event : ModuleResolverEvent} {next : ModuleResolver}

section

variable (tracked : Tracked json resolver)
include tracked

variable (isStep : ModuleResolver.step json resolver event = some next)
include isStep

theorem Tracked.step_cases : match event with
    | .newManifestEntry sourceName id entry =>
      next = resolver.onNewManifestEntry sourceName id entry
    | .removeManifestEntry sourceName id => next = resolver.onRemoveManifestEntry sourceName id
    | .findModules query => next = { resolver with
        issued := resolver.issued + 1
        posted := resolver.posted ++ [(resolver.issued, query)] }
    | .run number => ∃ query, find resolver.posted number = some query ∧ next = conclude
          { resolver with posted := erase resolver.posted number } number
          (resolver.run json query)
    | .getTypes number nounName types => ∃ call, find resolver.calls number = some call ∧
        (find call.pending nounName).isSome = true ∧
        next = conclude
          { resolver with calls := erase resolver.calls number } number
          (resolver.onGetTypes json call nounName types) := by
  unfold ModuleResolver.step at isStep
  rw [if_neg (ne_true_of_eq_false tracked.checked)] at isStep
  cases event with
  | newManifestEntry sourceName id entry | removeManifestEntry sourceName id | findModules query =>
    exact (some.inj isStep).symm
  | run number =>
    obtain ⟨query, isPosted, isNext⟩ := map_eq_some_iff.mp isStep
    exact ⟨query, isPosted, isNext.symm⟩
  | getTypes number nounName types =>
    obtain ⟨call, isCall, isNext⟩ := map_eq_some_iff.mp isStep
    obtain ⟨isCall, isPending⟩ := filter_eq_some_iff.mp isCall
    exact ⟨call, isCall, isPending, isNext.symm⟩

theorem Tracked.step : Tracked json next := by
  have stepCases := tracked.step_cases isStep
  cases event with
  | newManifestEntry sourceName id entry =>
    dsimp only at stepCases
    subst stepCases
    obtain ⟨indexed, checked⟩ := tracked.indexed.onNewManifestEntry sourceName id entry
    obtain ⟨issued, posted, calls, answers⟩ := onNewManifestEntry_frame resolver sourceName id entry
    refine ⟨checked, indexed, ?_, ?_⟩
    · rw [issued, posted, calls, answers]
      exact tracked.once
    · rw [calls]
      exact tracked.waits
  | removeManifestEntry sourceName id =>
    dsimp only at stepCases
    subst stepCases
    have indexed := (tracked.indexed.onRemoveManifestEntry sourceName id).1
    obtain ⟨issued, posted, calls, answers, checked⟩ :=
      onRemoveManifestEntry_frame resolver sourceName id
    refine ⟨checked.trans tracked.checked, indexed, ?_, ?_⟩
    · rw [issued, posted, calls, answers]
      exact tracked.once
    · rw [calls]
      exact tracked.waits
  | findModules query =>
    dsimp only at stepCases
    subst stepCases
    refine ⟨tracked.checked, ⟨tracked.indexed.verbs, tracked.indexed.nouns⟩, ?_, tracked.waits⟩
    change (_ ++ ((resolver.posted ++ [(resolver.issued, query)]).map fst ++ _)).Perm
      (range (resolver.issued + 1))
    have once := perm_iff_count.mp tracked.once
    rw [range_succ, perm_iff_count]
    intro other
    have same := once other
    simp only [map_append, map_cons, map_nil, count_append] at same ⊢
    omega
  | run number =>
    obtain ⟨query, isPosted, rfl⟩ := stepCases
    exact tracked.run isPosted
  | getTypes number nounName types =>
    obtain ⟨call, isCall, isPending, rfl⟩ := stepCases
    exact tracked.getTypes isCall isPending types

/-- A step gives no answer, or one that has a result if all nouns have types. -/
theorem Tracked.step_answers : next.answers = resolver.answers ∧ EndsTyped json resolver event ∨
      ∃ answer, next.answers = resolver.answers ++ [answer] ∧
        (NamesPresent json answer ↔ EndsTyped json resolver event) := by
  have stepCases := tracked.step_cases isStep
  cases event with
  | newManifestEntry sourceName id entry =>
    dsimp only at stepCases
    subst stepCases
    exact .inl ⟨(onNewManifestEntry_frame resolver sourceName id entry).2.2.2, trivial⟩
  | removeManifestEntry sourceName id =>
    dsimp only at stepCases
    subst stepCases
    exact .inl ⟨(onRemoveManifestEntry_frame resolver sourceName id).2.2.2.1, trivial⟩
  | findModules query =>
    dsimp only at stepCases
    subst stepCases
    exact .inl ⟨rfl, trivial⟩
  | run number =>
    obtain ⟨query, isPosted, rfl⟩ := stepCases
    simp only [EndsTyped, isPosted, mem_some_iff, forall_eq']
    cases isVerb : resolver.withVerb query with
    | none =>
      refine .inr ⟨⟨number, query, some [], resolver.entries⟩, ?_, ?_⟩
      · rw [run_of_none isVerb]
        rfl
      · refine iff_of_true ⟨[], rfl, forall_mem_nil _⟩ fun isSome => ?_
        cases isSome
    | some ids =>
      obtain ⟨counted, isPending, isQuery⟩ := run_counted json tracked.indexed isVerb
      rw [← isPending]
      generalize resolver.run json query = call at *
      subst isQuery
      simp only [isSome_some, true_imp_iff]
      exact counted.conclude_answers
        { resolver with posted := erase resolver.posted number } number rfl
  | getTypes number nounName types =>
    obtain ⟨call, isCall, isPending, rfl⟩ := stepCases
    have waits := tracked.waits _ (mem_of_find isCall)
    obtain ⟨counted, stillPending, isQuery⟩ := waits.onGetTypes tracked.indexed types isPending
    simp only [EndsTyped, isCall, mem_some_iff, forall_eq']
    rw [← erase_eq_nil_iff, ← stillPending]
    rw [← isQuery] at counted ⊢
    generalize resolver.onGetTypes json call nounName types = following at *
    exact counted.conclude_answers { resolver with calls := erase resolver.calls number } number rfl

end

theorem tracked_start : Tracked json start where
  checked := rfl
  indexed := indexed_start
  once := List.Perm.refl _
  waits := forall_mem_nil _

theorem Tracked.answersQueries (tracked : Tracked json resolver)
    (answered : ∀ answer ∈ resolver.answers, NamesPresent json answer) :
    AnswersQueries json resolver where
  __ := tracked
  answered := answered
  waiting waiting inCalls := (tracked.waits waiting inCalls).waiting

/-- Whatever happens to the manifests while queries wait, each query is answered once, with entries
that are there, in the runs in which the types of all nouns of a query that ends are given. -/
theorem answersQueries_run (json : JsonCode) (events : List ModuleResolverEvent)
    {final : ModuleResolver}
    (isRun : runSteps (ModuleResolver.step json) start events = some final) :
    EachStep (ModuleResolver.step json)
        (fun before event => ∀ next ∈ ModuleResolver.step json before event,
          AnswersQueries json next) start events ↔
      EachStep (ModuleResolver.step json) (EndsTyped json) start events := by
  refine eachStep_next_iff
    (fun resolver => Tracked json resolver ∧ ∀ answer ∈ resolver.answers, NamesPresent json answer)
    ?_ (AnswersQueries json) (fun ⟨tracked, answered⟩ => tracked.answersQueries answered)
    ?_ ⟨tracked_start, forall_mem_nil _⟩ isRun
  · rintro before next event ⟨tracked, answered⟩ typed isStep
    refine ⟨tracked.step isStep, ?_⟩
    rcases tracked.step_answers isStep with ⟨same, -⟩ | ⟨answer, isLast, present_iff⟩
    · rw [same]
      exact answered
    · rw [isLast]
      exact forall_mem_append.mpr ⟨answered, forall_mem_singleton.mpr (present_iff.mpr typed)⟩
  · rintro before next event ⟨tracked, -⟩ isStep answers
    rcases tracked.step_answers isStep with ⟨-, typed⟩ | ⟨answer, isLast, present_iff⟩
    · exact typed
    · refine present_iff.mp (answers.answered answer ?_)
      rw [isLast]
      exact mem_append_right _ (mem_singleton_self answer)

end ModuleResolver

def sampleJson : JsonCode where
  write value := match value with
    | .object [(name, .string text)] =>
      ascii ['{', '"'] ++ name ++ ascii ['"', ':', '"'] ++ text ++ ascii ['"', '}']
    | _ => ascii ['n', 'u', 'l', 'l']
  parse _ := none

def sampleManifest : ManifestEntry where
  binary := [1]
  localName := [2]
  verb := [3]
  nounConstraints := [⟨[4], [[5], [6]]⟩]

def sampleQuery : ResolverQuery where
  verb := some [3]
  nounConstraints := [([4], .entityReference [7])]
  distinct := by decide

def sampleResolverEvents : List ModuleResolverEvent :=
  [.newManifestEntry [8] [9] sampleManifest, .findModules sampleQuery, .run 0,
    .newManifestEntry [8] [9] sampleManifest, .getTypes 0 [4] [[6]]]

theorem answersQueries_run_sample :
    ∃ final, runSteps (ModuleResolver.step sampleJson) ModuleResolver.start sampleResolverEvents =
        some final ∧ (EachStep (ModuleResolver.step sampleJson)
          (fun before event => ∀ next ∈ ModuleResolver.step sampleJson before event,
            ModuleResolver.AnswersQueries sampleJson next)
          ModuleResolver.start sampleResolverEvents ↔
        EachStep (ModuleResolver.step sampleJson) (ModuleResolver.EndsTyped sampleJson)
          ModuleResolver.start sampleResolverEvents) :=
  ⟨_, rfl, answersQueries_run sampleJson sampleResolverEvents rfl⟩

def sampleLinkQuery : ResolverQuery where
  verb := some [3]
  nounConstraints := [([4], .linkInfo ⟨⟨[], []⟩, none, none⟩)]
  distinct := by decide

/-- A query with a link of which nothing is known is answered with null. -/
theorem not_answersQueries_run :
    ∃ final, runSteps (ModuleResolver.step sampleJson) ModuleResolver.start
        [.newManifestEntry [8] [9] sampleManifest, .findModules sampleLinkQuery, .run 0] =
        some final ∧ ¬ModuleResolver.AnswersQueries sampleJson final := by
  refine ⟨_, rfl, fun answers => ?_⟩
  obtain ⟨modules, isResult, -⟩ := answers.answered _ (mem_singleton_self _)
  cases isResult

end Peridot
