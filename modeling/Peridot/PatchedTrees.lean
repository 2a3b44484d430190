import Peridot.ForEachDiff
import Peridot.PageChanges

/-!
# Differences as patches

The changes that `ForEachDiff` reports between two trees make the first tree the second one when
`ApplyChanges` applies them, and bring a client that is sent them from one commit to the other.
-/

namespace Peridot

open KeyedList LeveledTree NodeBuilder

variable {changes : List EntryChange}

theorem IsDiff.exactDiff {base other : List Entry}
    (isDiff : IsDiff base other changes) :
    ExactDiff (find Entry.key base) (find Entry.key other) changes where
  sorted := isDiff.sorted
  result := by
    rintro ⟨entry, deleted⟩ inChanges
    have holds := (isDiff.mem_iff _).mp inChanges
    cases deleted with
    | true => exact holds.2
    | false => exact holds.1
  changed := by
    rintro ⟨entry, deleted⟩ inChanges same
    have holds := (isDiff.mem_iff _).mp inChanges
    rw [same] at holds
    cases deleted with
    | true => simpa [holds.2] using holds.1
    | false => exact holds.2 holds.1
  complete := by
    intro key differs
    cases inOther : find Entry.key other key with
    | some entry =>
      obtain rfl := key_of_find inOther
      refine ⟨⟨entry, false⟩, (isDiff.mem_iff _).mpr ⟨inOther, fun same => ?_⟩, rfl⟩
      exact differs (same.trans inOther.symm)
    | none =>
      rw [inOther] at differs
      obtain ⟨entry, inBase⟩ := Option.ne_none_iff_exists'.mp differs
      obtain rfl := key_of_find inBase
      exact ⟨⟨entry, true⟩, (isDiff.mem_iff _).mpr ⟨inBase, inOther⟩, rfl⟩

/-- The messages to a client who knows the first contents. -/
def sentPages (limits : MessageLimits) (timestamp : Int64) (changes : List EntryChange) :
    List PageChange :=
  (computePageChange limits timestamp [] .noPagination changes).1.elim [] (paginateChanges limits)

theorem ExactDiff.applyPages_sentPages {base other : Contents}
    (exact : ExactDiff base other changes) (limits : MessageLimits) (timestamp : Int64) :
    applyPages base (sentPages limits timestamp changes) = other := by
  have exactFrom : ExactDiffFrom [] base other changes :=
    ⟨exact.sorted, fun _ _ => List.not_lt_nil _, exact.result, fun key _ => exact.complete key⟩
  have under (contents : Contents) : contents.under [] = contents := by
    funext key
    simp [Contents.under, matchesPrefix]
  rw [← under base, ← under other]
  refine applyPages_under exactFrom fun effect => ?_
  obtain ⟨isPage, isNone⟩ := @computePageChange_spec limits timestamp [] changes
  unfold sentPages
  cases isSent : (computePageChange limits timestamp [] .noPagination changes).1 with
  | none => simp [isNone isSent, effects]
  | some page =>
    exact (@mem_effects_paginateChanges limits effect page).trans ((isPage page isSent).2 effect)

variable {ids : NodeIdentifiers} {level : NodeLevelCalculator} {store : NodeStore ids}
  {baseRoot otherRoot : ObjectIdentifier} {base other : LeveledTree Entry} {fuel : ℕ}

/-- Applied to the first tree the difference gives a tree with the entries of the second one, from
which nothing differs any more; sent in any number of messages it does the same for a client. -/
theorem forEachDiff_patches (wellFormed : WellFormed level store.read baseRoot base)
    (wellFormedOther : WellFormed level store.read otherRoot other)
    (trimmed : base.Shaped level.entryLevel .trimmed)
    (trimmedOther : other.Shaped level.entryLevel .trimmed) (indeterminate : Bool)
    (enough : 257 < fuel) (limits : MessageLimits) (timestamp : Int64) :
    ∃ changes, Reports store.read baseRoot otherRoot [] changes ∧ (∃ result patched,
        applyChanges level fuel indeterminate store baseRoot ⟨changes, .ok⟩ = .ok result ∧
        WellFormed level result.store.read result.root patched ∧
        patched.Shaped level.entryLevel .trimmed ∧ patched.contents = other.contents ∧
        Reports result.store.read result.root otherRoot [] []) ∧
      applyPages (find Entry.key base.contents) (sentPages limits timestamp changes) =
        find Entry.key other.contents := by
  have reports := reports_changesBetween wellFormed wellFormedOther trimmed trimmedOther
  have exact := (isDiff_changesBetween wellFormed.sorted wellFormedOther.sorted).exactDiff
  generalize changesBetween base.contents other.contents = changes at reports exact
  obtain ⟨result, applyOk, larger, stored⟩ :=
    applyChanges_stored wellFormed.stored changes indeterminate enough
  obtain ⟨sorted, isTrimmed, found⟩ := applyChanges_run wellFormed.sorted trimmed changes
  have shaped := shaped_storedForm (by simp) isTrimmed
  have sameContents : (changes.foldl (applyChange level) base).storedForm.contents =
      other.contents := by
    rw [contents_storedForm]
    refine eq_of_find_eq sorted wellFormedOther.sorted fun key => ?_
    rw [found, exact.foldl_applyToMap]
    split
    · rfl
    · exact not_not.mp ‹_›
  have leveled := (applyChanges_run wellFormed.sorted wellFormed.leveled changes).2.1
  have patched : WellFormed level result.store.read result.root
      (changes.foldl (applyChange level) base).storedForm :=
    ⟨stored, sameContents ▸ wellFormedOther.sorted, shaped_storedForm (by simp) leveled⟩
  refine ⟨changes, reports, ⟨result, _, applyOk, patched, shaped, sameContents, ?_⟩,
    exact.applyPages_sentPages limits timestamp⟩
  have nothing := reports_changesBetween patched ⟨wellFormedOther.stored.mono larger,
    wellFormedOther.sorted, wellFormedOther.leveled⟩ shaped trimmedOther
  rwa [sameContents, changesBetween_self] at nothing

def patchedStore : NodeStore .byCode :=
  ((NodeStore.initial .byCode).add ⟨0, [sampleEntry 1], [], sorted_childless⟩).add
    ⟨0, [sampleEntry 3], [], sorted_childless⟩

/-- One entry is deleted, and another one inserted. -/
theorem forEachDiff_patches_leaves :
    let root (byte : UInt8) := NodeIdentifiers.byCode.identify
      ⟨0, [sampleEntry byte], [], sorted_childless⟩
    ∃ changes, Reports patchedStore.read (root 1) (root 3) [] changes ∧ (∃ result patched,
        applyChanges sampleLevel 258 false patchedStore (root 1) ⟨changes, .ok⟩ = .ok result ∧
        WellFormed sampleLevel result.store.read result.root patched ∧
        patched.contents = [sampleEntry 3]) ∧
      applyPages (find Entry.key [sampleEntry 1]) (sentPages ⟨1000, 1, 8⟩ 0 changes) =
        find Entry.key [sampleEntry 3] := by
  intro root
  obtain ⟨changes, reports, ⟨result, patched, applyOk, wellFormed, -, same, -⟩, sent⟩ :=
    forEachDiff_patches
      (by decide : WellFormed sampleLevel patchedStore.read (root 1) ⟨1, sampleLeaf [1]⟩)
      (by decide : WellFormed sampleLevel patchedStore.read (root 3) ⟨1, sampleLeaf [3]⟩) (by decide)
      (by decide) false (by decide : 257 < 258) ⟨1000, 1, 8⟩ 0
  exact ⟨changes, reports, ⟨result, patched, applyOk, wellFormed, same⟩, sent⟩

end Peridot
