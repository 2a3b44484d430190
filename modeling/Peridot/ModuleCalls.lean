import Peridot.ModuleResolver

/-!
# Waiting for the types of nouns

A call of `FindModules` counts the nouns whose types it does not have.  Those that are not pending
are never counted, and then the call ends with a result that was never set.
-/

namespace Peridot

open List Option

def NeverTyped (json : JsonCode) (noun : Bytes × ResolverNounConstraint) : Prop :=
  getNounTypes json noun.2 = .never
deriving Decidable

/-- The noun with the entity that it refers to, if its types are asked for. -/
def askedNoun (json : JsonCode) (noun : Bytes × ResolverNounConstraint) : Option (Bytes × Bytes) :=
  match getNounTypes json noun.2 with
  | .asked entityReference => some (noun.1, entityReference)
  | .known _ | .never => none

def numNever (json : JsonCode) (nouns : List (Bytes × ResolverNounConstraint)) : ℕ :=
  nouns.countP fun noun => decide (NeverTyped json noun)

variable {nouns : List (Bytes × ResolverNounConstraint)}

theorem numNever_eq_zero_iff {json : JsonCode} :
    numNever json nouns = 0 ↔ ∀ noun ∈ nouns, ¬NeverTyped json noun := by
  rw [numNever, countP_eq_zero]
  simp

namespace ModuleResolver

variable {json : JsonCode} {resolver : ModuleResolver}

def results (json : JsonCode) (resolver : ModuleResolver) (query : ResolverQuery)
    (ids : List EntryId) : List ModuleResolverResult :=
  ids.filterMap fun id => (resolver.entries.lookup id).map (moduleResult json query)

def Present (resolver : ModuleResolver) (call : FindModulesCall) : Prop :=
  ∀ id ∈ call.candidates, (resolver.entries.lookup id).isSome = true

variable {call : FindModulesCall}

theorem Present.modules_eq (json : JsonCode) (present : Present resolver call) :
    resolver.modules json call = some (resolver.results json call.query call.candidates.items) :=
  mapM_eq_filterMap fun id inItems => by
    rw [isSome_map]
    exact present id inItems

variable {id : EntryId}

theorem mem_processNounTypes {nounName : Bytes} {types : List Bytes} :
    id ∈ (resolver.processNounTypes call nounName types).candidates ↔ id ∈ call.candidates ∧
      ∃ type ∈ types, id ∈ resolver.nounTypeToEntries.ids (type, nounName) := by
  simp [processNounTypes, OrderedSet.mem_inter, OrderedSet.mem_unions]

theorem Indexed.present (indexed : Indexed resolver) (call : FindModulesCall) (nounName : Bytes)
    (types : List Bytes) : Present resolver (resolver.processNounTypes call nounName types) := by
  intro id isCandidate
  obtain ⟨-, type, -, inIndex⟩ := mem_processNounTypes.mp isCandidate
  obtain ⟨entry, isEntry, -⟩ := indexed.mem_nounType.mp inIndex
  rw [isEntry]
  rfl

/-- The types of a noun never make the check fail, and the last ones set the result. -/
theorem onNounTypes_eq (indexed : Indexed resolver) (call : FindModulesCall) (nounName : Bytes)
    (types : List Bytes) : resolver.onNounTypes json call nounName types =
      { resolver.processNounTypes call nounName types with
        numNounsCountdown := call.numNounsCountdown - 1
        result := if call.numNounsCountdown - 1 = 0 then
            some (resolver.results json call.query
              (resolver.processNounTypes call nounName types).candidates.items)
          else call.result
        checkFailed := if call.numNounsCountdown - 1 = 0 then false else call.checkFailed } := by
  have present : Present resolver { resolver.processNounTypes call nounName types with
      numNounsCountdown := call.numNounsCountdown - 1 } := indexed.present call nounName types
  have isSome := present.modules_eq json
  by_cases isLast : call.numNounsCountdown - 1 = 0
  · simp only [onNounTypes, isLast, if_true, finally_]
    simp only [isLast] at isSome
    rw [isSome]
    rfl
  · simp only [onNounTypes, isLast, if_false]
    rfl

/-- What holds of a call in which the types of `left` nouns are neither there nor pending. -/
structure Counted (json : JsonCode) (resolver : ModuleResolver) (call : FindModulesCall)
    (left : ℕ) : Prop where
  counted : call.numNounsCountdown = call.pending.length + left
  result : call.numNounsCountdown = 0 →
    call.result = some (resolver.results json call.query call.candidates.items)
  unset : call.numNounsCountdown ≠ 0 → call.result = none
  checked : call.checkFailed = false

theorem Counted.onNounTypes {left : ℕ} (counted : Counted json resolver call (left + 1))
    (indexed : Indexed resolver) (nounName : Bytes) (types : List Bytes) :
    Counted json resolver (resolver.onNounTypes json call nounName types) left := by
  have count := counted.counted
  rw [onNounTypes_eq indexed]
  refine ⟨?_, fun isZero => ?_, fun notZero => ?_, ?_⟩
  · change call.numNounsCountdown - 1 = call.pending.length + left
    omega
  · change (if call.numNounsCountdown - 1 = 0 then _ else _) = _
    rw [if_pos isZero]
    rfl
  · change (if call.numNounsCountdown - 1 = 0 then _ else _) = _
    rw [if_neg notZero]
    exact counted.unset (by omega)
  · change (if call.numNounsCountdown - 1 = 0 then _ else _) = _
    split
    · rfl
    · exact counted.checked

theorem Counted.foldl_askNoun (left : ℕ)
    (indexed : Indexed resolver) (counted : Counted json resolver call (nouns.length + left)) :
    Counted json resolver (nouns.foldl (resolver.askNoun json) call)
      (numNever json nouns + left) := by
  induction nouns generalizing call left with
  | nil => simpa [numNever] using counted
  | cons noun nouns ih =>
    rw [length_cons, Nat.add_right_comm] at counted
    rw [foldl_cons, askNoun, numNever, countP_cons]
    cases isAsked : getNounTypes json noun.2 with
    | known types =>
      have notNever : ¬NeverTyped json noun := by simp [NeverTyped, isAsked]
      simp only [notNever, decide_false, Bool.false_eq_true, if_false, Nat.add_zero]
      exact ih left (counted.onNounTypes indexed noun.1 types)
    | asked entityReference =>
      have notNever : ¬NeverTyped json noun := by simp [NeverTyped, isAsked]
      simp only [notNever, decide_false, Bool.false_eq_true, if_false, Nat.add_zero]
      refine ih left ⟨?_, counted.result, counted.unset, counted.checked⟩
      have count := counted.counted
      rw [length_append, length_singleton]
      change call.numNounsCountdown = _
      omega
    | never =>
      have isNever : NeverTyped json noun := isAsked
      simp only [isNever, decide_true, if_true]
      rw [Nat.add_right_comm]
      exact ih (left + 1) counted

section

variable (call : FindModulesCall)

theorem onNounTypes_pending (nounName : Bytes) (types : List Bytes) :
    (resolver.onNounTypes json call nounName types).pending = call.pending := by
  unfold onNounTypes
  dsimp only
  split <;> rfl

theorem onNounTypes_query (nounName : Bytes) (types : List Bytes) :
    (resolver.onNounTypes json call nounName types).query = call.query := by
  unfold onNounTypes
  dsimp only
  split <;> rfl

section

variable (nouns : List (Bytes × ResolverNounConstraint))

theorem foldl_askNoun_pending : (nouns.foldl (resolver.askNoun json) call).pending =
      call.pending ++ nouns.filterMap (askedNoun json) := by
  induction nouns generalizing call with
  | nil => rw [filterMap_nil, append_nil, foldl_nil]
  | cons noun nouns ih =>
    rw [foldl_cons, ih, askNoun, filterMap_cons, askedNoun]
    cases isAsked : getNounTypes json noun.2 with
    | known types => rw [onNounTypes_pending]
    | asked entityReference => rw [append_assoc, singleton_append]
    | never => rfl

theorem foldl_askNoun_query : (nouns.foldl (resolver.askNoun json) call).query = call.query := by
  induction nouns generalizing call with
  | nil => rfl
  | cons noun nouns ih =>
    rw [foldl_cons, ih, askNoun]
    cases getNounTypes json noun.2 with
    | known types => exact onNounTypes_query call noun.1 types
    | asked entityReference => rfl
    | never => rfl

end

theorem onNounTypes_candidates (nounName : Bytes) (types : List Bytes) :
    (resolver.onNounTypes json call nounName types).candidates =
      (resolver.processNounTypes call nounName types).candidates := by
  unfold onNounTypes
  dsimp only
  split <;> rfl

end

theorem mem_foldl_askNoun :
    id ∈ (nouns.foldl (resolver.askNoun json) call).candidates ↔ id ∈ call.candidates ∧
      ∀ noun ∈ nouns, ∀ types, getNounTypes json noun.2 = .known types →
        ∃ type ∈ types, id ∈ resolver.nounTypeToEntries.ids (type, noun.1) := by
  induction nouns generalizing call with
  | nil => simp
  | cons noun nouns ih =>
    rw [foldl_cons, ih, askNoun, forall_mem_cons]
    cases getNounTypes json noun.2 with
    | known types =>
      rw [onNounTypes_candidates, mem_processNounTypes]
      simp only [NounTypes.known.injEq, forall_eq', and_assoc]
    | asked entityReference | never =>
      simp only [reduceCtorEq, false_imp_iff, forall_const, true_and]

variable {query : ResolverQuery} {ids : OrderedSet EntryId}

theorem run_of_none (isNone : resolver.withVerb query = none) :
    resolver.run json query = ⟨query, .empty, 0, some [], [], false⟩ := by
  rw [run, isNone]

theorem run_counted (json : JsonCode) (indexed : Indexed resolver)
    (isVerb : resolver.withVerb query = some ids) :
    Counted json resolver (resolver.run json query) (numNever json query.nounConstraints) ∧
      (resolver.run json query).pending = query.nounConstraints.filterMap (askedNoun json) ∧
      (resolver.run json query).query = query := by
  rw [run, isVerb]
  dsimp only
  by_cases noNouns : query.nounConstraints = []
  · rw [if_pos noNouns, noNouns]
    have present : Present resolver ⟨query, ids, 0, none, [], false⟩ := by
      intro id isCandidate
      obtain ⟨verb, -, isIndexed⟩ := bind_eq_some_iff.mp isVerb
      have inIndex : id ∈ resolver.verbToEntries.ids verb := by
        rw [InvertedIndex.ids, isIndexed]
        exact isCandidate
      obtain ⟨entry, isEntry, -⟩ := indexed.mem_verb.mp inIndex
      rw [isEntry]
      rfl
    have isSome := present.modules_eq json
    refine ⟨⟨rfl, fun _ => isSome, absurd rfl, ?_⟩, rfl, rfl⟩
    rw [finally_, isSome]
    rfl
  · rw [if_neg noNouns]
    refine ⟨?_, foldl_askNoun_pending _ _, foldl_askNoun_query _ _⟩
    have notZero : query.nounConstraints.length ≠ 0 := by rwa [Ne, length_eq_zero_iff]
    exact Counted.foldl_askNoun 0 indexed
      ⟨(Nat.zero_add _).symm, fun isZero => absurd isZero notZero, fun _ => rfl, rfl⟩

theorem mem_run (isVerb : resolver.withVerb query = some ids) :
    id ∈ (resolver.run json query).candidates ↔ id ∈ ids ∧
      ∀ noun ∈ query.nounConstraints, ∀ types, getNounTypes json noun.2 = .known types →
        ∃ type ∈ types, id ∈ resolver.nounTypeToEntries.ids (type, noun.1) := by
  rw [run, isVerb]
  dsimp only
  by_cases noNouns : query.nounConstraints = []
  · rw [if_pos noNouns, noNouns]
    simp [finally_]
  · rw [if_neg noNouns]
    exact mem_foldl_askNoun

end ModuleResolver

end Peridot
