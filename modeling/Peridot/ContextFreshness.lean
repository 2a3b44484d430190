import Peridot.CallList
import Peridot.ContextSelect

/-!
# What listeners of the context know

A listener is sent the result of its query when the ids or the versions of the values change that
match.  A version counts the updates of a value itself, so that what reaches a value from above can
go unnoticed.
-/

namespace Peridot

open List ContextForest

namespace ContextForest

def matched (forest : ContextForest) (query : ContextQuery) : Finset ℕ :=
  (query.flatMap fun entry => forest.matchingIds entry.2).toFinset

variable {forest : ContextForest} {query : ContextQuery} {id : ℕ}

theorem mem_matched : id ∈ forest.matched query ↔
    ∃ entry ∈ query, id ∈ forest.matchingIds entry.2 := by
  rw [matched, mem_toFinset, mem_flatMap]

theorem isSome_of_matched (member : id ∈ forest.matched query) : (forest.value id).isSome := by
  obtain ⟨entry, -, member⟩ := mem_matched.mp member
  obtain ⟨value, isValue⟩ := value_of_keys (mem_matchingIds.mp member)
  rw [isValue]
  rfl

theorem lt_size {selector : ContextSelector} (member : id ∈ forest.matchingIds selector) :
    id < forest.size := by
  obtain ⟨value, isValue⟩ := value_of_keys (mem_matchingIds.mp member)
  exact forest.value_lt (by rw [isValue]; rfl)

theorem result_add {parent : Option ℕ} {value : ContextValue}
    (notMatched : forest.size ∉ ContextForest.matched (forest.add parent value) query) :
    ContextForest.result (forest.add parent value) query = forest.result query := by
  have sameMerged : ∀ id, id ≠ forest.size →
      mergedMetadata (forest.add parent value) id = forest.mergedMetadata id :=
    fun id old => mergedMetadata_congr (Forest.lineage_add parent value old)
  have sameValue : ∀ id, id ≠ forest.size → (forest.add parent value).value id = forest.value id :=
    fun id old => Function.update_of_ne old _ _
  apply map_congr_left
  intro entry member
  have sameIds : matchingIds (forest.add parent value) entry.2 = forest.matchingIds entry.2 := by
    have notNew : forest.size ∉ matchingIds (forest.add parent value) entry.2 :=
      fun isNew => notMatched (mem_matched.mpr ⟨entry, member, isNew⟩)
    rw [matchingIds, matchingIds]
    congr 1
    ext id
    rw [← mem_decimalIds, ← mem_decimalIds, ← matchingIds, ← matchingIds]
    by_cases isNew : id = forest.size
    · subst isNew
      exact iff_of_false notNew fun old => absurd (lt_size old) (lt_irrefl _)
    · have sameKeys : keys (forest.add parent value) id = forest.keys id := by
        simp only [keys, sameValue id isNew, sameMerged id isNew]
      rw [mem_matchingIds, mem_matchingIds, sameKeys]
  rw [sameIds]
  refine congrArg (entry.1, ·) (filterMap_congr fun id idMember => ?_)
  have old : id ≠ forest.size := (lt_size idMember).ne
  simp only [merged, sameValue id old, sameMerged id old]

end ContextForest

namespace ContextRepository

variable {repository next : ContextRepository} {forest nextForest : ContextForest}
  {query : ContextQuery} {id : ℕ}

theorem mem_matchedVersions {version : UInt32} :
    (id, version) ∈ repository.matchedVersions forest query ↔
      id ∈ forest.matched query ∧ (repository.values id).map (·.version) = some version := by
  rw [matchedVersions, mem_toFinset, mem_flatMap, ContextForest.mem_matched]
  simp only [mem_filterMap, Option.map_eq_some_iff, Prod.mk.injEq]
  constructor
  · rintro ⟨entry, member, _, idMember, value, isValue, rfl, rfl⟩
    exact ⟨⟨entry, member, idMember⟩, value, isValue, rfl⟩
  · rintro ⟨⟨entry, member, idMember⟩, value, isValue, rfl⟩
    exact ⟨entry, member, id, idMember, value, isValue, rfl, rfl⟩

variable (synced : repository.Synced forest)
include synced

theorem Synced.exists_version (member : id ∈ forest.matched query) :
    ∃ version, (id, version) ∈ repository.matchedVersions forest query := by
  obtain ⟨value, isValue⟩ := Option.isSome_iff_exists.mp
    ((synced.shape.isSome id).trans (isSome_of_matched member))
  exact ⟨value.version, mem_matchedVersions.mpr ⟨member, by rw [isValue]; rfl⟩⟩

theorem Synced.matched_eq (nextSynced : next.Synced nextForest)
    (same : next.matchedVersions nextForest query = repository.matchedVersions forest query) :
    nextForest.matched query = forest.matched query := by
  ext id
  constructor
  · intro member
    obtain ⟨version, isVersion⟩ := nextSynced.exists_version member
    exact (mem_matchedVersions.mp (same ▸ isVersion)).1
  · intro member
    obtain ⟨version, isVersion⟩ := synced.exists_version member
    exact (mem_matchedVersions.mp (same.symm ▸ isVersion)).1

theorem Synced.version_eq
    (same : next.matchedVersions nextForest query = repository.matchedVersions forest query)
    (member : id ∈ forest.matched query) : ∃ value, repository.values id = some value ∧
      (next.values id).map (·.version) = some value.version := by
  obtain ⟨version, isVersion⟩ := synced.exists_version member
  obtain ⟨value, isValue, rfl⟩ := Option.map_eq_some_iff.mp (mem_matchedVersions.mp isVersion).2
  exact ⟨value, isValue, (mem_matchedVersions.mp (same.symm ▸ isVersion)).2⟩

end ContextRepository

namespace ContextWorld

/-- Every subscription has last been told the values that match its query now. -/
def Fresh (world : ContextWorld) : Prop :=
  ∀ subscription ∈ world.repository.subscriptions,
    subscription.delivered = some (world.forest.result subscription.query)

/-- If a call changes the result of a query, then the value that it is for matches before or after,
or other values match than before. -/
def NoticesCall (world : ContextWorld) (called : ContextCall) (id : ℕ) : Prop :=
  ∀ subscription ∈ world.repository.subscriptions,
    id ∈ world.forest.matched subscription.query ∨
      id ∈ (world.forest.call called).matched subscription.query ∨
      (world.forest.call called).matched subscription.query ≠
        world.forest.matched subscription.query ∨
      (world.forest.call called).result subscription.query =
        world.forest.result subscription.query
deriving Decidable

/-- An update or a removal does not change the result of a query unseen. -/
def Notices (world : ContextWorld) (called : ContextCall) : Prop :=
  match called with
  | .update id _ => world.NoticesCall called id
  | .remove id => world.NoticesCall called id
  | _ => True

instance (world : ContextWorld) (called : ContextCall) : Decidable (world.Notices called) :=
  match called with
  | .update id value => inferInstanceAs (Decidable (world.NoticesCall (.update id value) id))
  | .remove id => inferInstanceAs (Decidable (world.NoticesCall (.remove id) id))
  | .add _ _ => isTrue trivial
  | .addSubscription _ => isTrue trivial
  | .removeSubscription _ => isTrue trivial

/-- Every listener was last sent the result of its query, and the versions are noted with it. -/
structure Told (world : ContextWorld) : Prop where
  synced : world.repository.Synced world.forest
  versions : ∀ subscription ∈ world.repository.subscriptions,
    subscription.lastUpdate = world.repository.matchedVersions world.forest subscription.query
  fresh : world.Fresh

/-- It is enough that the result is the same where no version changes. -/
theorem Told.notified {world : ContextWorld} (told : world.Told) {repository : ContextRepository}
    {forest : ContextForest} (synced : repository.Synced forest)
    (subscriptions : repository.subscriptions =
      world.repository.subscriptions.map (repository.notified forest))
    (unchanged : ∀ subscription ∈ world.repository.subscriptions,
      repository.matchedVersions forest subscription.query =
        world.repository.matchedVersions world.forest subscription.query →
      forest.result subscription.query = world.forest.result subscription.query) :
    Told ⟨repository, forest⟩ := by
  have each : ∀ subscription ∈ repository.subscriptions,
      subscription.lastUpdate = repository.matchedVersions forest subscription.query ∧
        subscription.delivered = some (forest.result subscription.query) := by
    intro subscription member
    rw [subscriptions] at member
    obtain ⟨before, isBefore, rfl⟩ := mem_map.mp member
    have lastUpdate := told.versions before isBefore
    by_cases same : repository.matchedVersions forest before.query = before.lastUpdate
    · rw [ContextRepository.notified, if_pos same]
      refine ⟨same.symm, ?_⟩
      rw [unchanged before isBefore (same.trans lastUpdate)]
      exact told.fresh before isBefore
    · rw [ContextRepository.notified, if_neg same]
      exact ⟨rfl, rfl⟩
  exact ⟨synced, fun subscription member => (each subscription member).1,
    fun subscription member => (each subscription member).2⟩

theorem add_one_ne (version : UInt32) : version + 1 ≠ version := by
  intro same
  simp at same

theorem Told.call {world : ContextWorld} (told : world.Told) {called : ContextCall}
    (allowed : world.Allows called) (notices : world.Notices called) :
    ∃ next, world.call called = some next ∧ next.Told := by
  obtain ⟨repository, forest⟩ := world
  have synced := told.synced
  cases called with
  | add parent value =>
    obtain ⟨next, isNext, after⟩ := synced.add_eq value allowed.1 allowed.2
    refine ⟨⟨next, _⟩, congrArg (Option.map _) isNext,
      told.notified after.synced after.subscriptions fun subscription _ same => ?_⟩
    apply result_add
    rw [synced.matched_eq after.synced same]
    intro member
    have isSome := isSome_of_matched member
    rw [forest.value_size (Nat.le_refl _)] at isSome
    nomatch isSome
  | update id value =>
    obtain ⟨old, isOld, sameType⟩ := allowed
    obtain ⟨found, next, isFound, isNext, after⟩ := synced.update_eq isOld sameType
    refine ⟨⟨next, _⟩, congrArg (Option.map _) isNext,
      told.notified after.synced after.subscriptions fun subscription member same => ?_⟩
    have sameMatched := synced.matched_eq after.synced same
    have notMatched : id ∉ forest.matched subscription.query := by
      intro isMatched
      obtain ⟨before, isBefore, isVersion⟩ := synced.version_eq same isMatched
      obtain rfl := Option.some.inj (isFound.symm.trans isBefore)
      rw [after.versions] at isVersion
      simp only [Function.update_self, Option.map_some] at isVersion
      exact add_one_ne _ (Option.some.inj isVersion)
    rcases notices subscription member with isMatched | isMatched | differs | unchanged
    · exact absurd isMatched notMatched
    · exact absurd (sameMatched ▸ isMatched) notMatched
    · exact absurd sameMatched differs
    · exact unchanged
  | remove id =>
    cases isFound : repository.values id with
    | none =>
      have isNone : forest.value id = none := by
        rw [← synced.shape.values, ContextRepository.get, isFound, Option.map_none]
      refine ⟨⟨repository, forest⟩, ?_, told⟩
      simp [ContextWorld.call, ContextRepository.call, ContextRepository.remove, isFound,
        ContextForest.call, Forest.remove_of_none isNone]
    | some found =>
      obtain ⟨next, isNext, after⟩ := synced.remove_eq isFound
      refine ⟨⟨next, _⟩, congrArg (Option.map _) isNext,
        told.notified after.synced after.subscriptions fun subscription member same => ?_⟩
      have sameMatched := synced.matched_eq after.synced same
      have notMatched : id ∉ forest.matched subscription.query := by
        intro isMatched
        obtain ⟨before, isBefore, isVersion⟩ := synced.version_eq same isMatched
        rw [after.versions] at isVersion
        simp at isVersion
      rcases notices subscription member with isMatched | isMatched | differs | unchanged
      · exact absurd isMatched notMatched
      · exact absurd (sameMatched ▸ isMatched) notMatched
      · exact absurd sameMatched differs
      · exact unchanged
  | addSubscription query =>
    refine ⟨_, congrArg (Option.map _) (congrArg (Option.map _)
      (synced.queryAndMaybeNotify_eq _ true)), ?_, ?_, ?_⟩
    · exact ⟨⟨synced.shape.size, synced.shape.values, synced.shape.graph⟩, synced.merged,
        synced.index⟩
    · exact forall_mem_concat.mpr ⟨told.versions, rfl⟩
    · exact forall_mem_concat.mpr ⟨told.fresh, rfl⟩
  | removeSubscription id =>
    obtain ⟨subscription, member, sameId⟩ := allowed
    have isAny : repository.subscriptions.any fun subscription => subscription.id = id :=
      any_eq_true.mpr ⟨subscription, member, by simpa using sameId⟩
    refine ⟨_, congrArg (Option.map _) (if_pos isAny), ?_, ?_, ?_⟩
    · exact ⟨⟨synced.shape.size, synced.shape.values, synced.shape.graph⟩, synced.merged,
        synced.index⟩
    · exact fun other otherMember => told.versions other (mem_of_mem_filter otherMember)
    · exact fun other otherMember => told.fresh other (mem_of_mem_filter otherMember)

/-- In a run whose every update and removal is noticed, every listener knows the result of its
query. -/
theorem fresh_run (calls : List ContextCall)
    (allowed : EachStep call (fun world called => world.Allows called ∧ world.Notices called)
      initial calls) : ∃ world, runSteps call initial calls = some world ∧ world.Fresh := by
  have start : initial.Told :=
    ⟨initial_synced, nofun, nofun⟩
  obtain ⟨world, isRun, told⟩ := exists_runSteps Told
    (fun told condition => told.call condition.1 condition.2) start allowed
  exact ⟨world, isRun, told.fresh⟩

/-- A listener of the entities of story `b`, for which entity and story come in turns. -/
def noticedCalls : List ContextCall :=
  [.add none (sampleStory (ascii ['a'])), .add (some 0) sampleEntity,
    .addSubscription [(ascii ['e'], ⟨.entity, (sampleStory (ascii ['b'])).metadata⟩)],
    .update 0 (sampleStory (ascii ['b'])), .remove 0]

theorem fresh_run_sample : ∃ world, runSteps call initial noticedCalls = some world ∧ world.Fresh :=
  fresh_run noticedCalls (by decide)

def renamedStory : List ContextCall :=
  [.add none (sampleStory (ascii ['a'])), .add (some 0) sampleEntity,
    .addSubscription [(ascii ['e'], ⟨.entity, none⟩)], .update 0 (sampleStory (ascii ['b']))]

/-- It is not told that the entity is now in story `b`. -/
theorem not_fresh_renamedStory : EachStep call Allows initial renamedStory ∧
    ∃ world, runSteps call initial renamedStory = some world ∧ ¬ world.Fresh := by
  refine ⟨by decide, _, rfl, fun fresh => ?_⟩
  have told := fresh _ (.head _)
  revert told
  decide

end ContextWorld

end Peridot
