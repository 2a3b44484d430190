import Peridot.CommonAncestor

/-!
# Histories of commits

The commits of a page on all its devices.  Each of them but the first one is made by
`FromContentAndParents` from its parents, so that generations grow along the parents as long
as the history is not too deep for their type.
-/

namespace Peridot

open List Option

variable {formats : StorageFormats}

namespace CommitCode

theorem fold_generation (parentGeneration : UInt64) (parentCommits : List CommitImpl) :
    let largest := parentCommits.foldl (fun parentGeneration commit =>
      if parentGeneration < commit.generation then commit.generation else parentGeneration)
      parentGeneration
    parentGeneration ≤ largest ∧ (∀ commit ∈ parentCommits, commit.generation ≤ largest) ∧
      (largest = parentGeneration ∨ ∃ commit ∈ parentCommits, commit.generation = largest) := by
  induction parentCommits generalizing parentGeneration with
  | nil => exact ⟨UInt64.le_refl _, by simp, .inl rfl⟩
  | cons commit parentCommits ih =>
    rw [foldl_cons]
    split
    case isTrue less =>
      obtain ⟨larger, largest, isReached⟩ := ih commit.generation
      refine ⟨UInt64.le_trans (UInt64.le_of_lt less) larger,
        forall_mem_cons.mpr ⟨larger, largest⟩, .inr ?_⟩
      rcases isReached with same | ⟨newest, member, same⟩
      · exact ⟨commit, mem_cons_self, same.symm⟩
      · exact ⟨newest, mem_cons_of_mem _ member, same⟩
    case isFalse notLess =>
      obtain ⟨larger, largest, isReached⟩ := ih parentGeneration
      have smaller := UInt64.not_lt.mp notLess
      refine ⟨larger, List.forall_mem_cons.mpr ⟨UInt64.le_trans smaller larger, largest⟩, ?_⟩
      refine isReached.imp_right fun ⟨newest, member, same⟩ => ?_
      exact ⟨newest, mem_cons_of_mem _ member, same⟩

theorem nextGeneration_eq {parentCommits : List CommitImpl} (notEmpty : parentCommits ≠ []) :
    ∃ newest ∈ parentCommits, nextGeneration parentCommits = newest.generation + 1 ∧
      ∀ commit ∈ parentCommits, commit.generation ≤ newest.generation := by
  obtain ⟨-, largest, isReached⟩ := fold_generation 0 parentCommits
  rcases isReached with isZero | ⟨newest, member, same⟩
  · obtain ⟨commit, member⟩ := exists_mem_of_ne_nil _ notEmpty
    have noneLarger : ∀ commit ∈ parentCommits, commit.generation = 0 := fun commit member =>
      UInt64.le_antisymm (isZero ▸ largest commit member) UInt64.zero_le
    refine ⟨commit, member, ?_, fun other isOther => ?_⟩
    · rw [nextGeneration, isZero, noneLarger commit member]
    · rw [noneLarger other isOther, noneLarger commit member]
      exact UInt64.le_refl _
  · refine ⟨newest, member, ?_, fun commit isParent => same ▸ largest commit isParent⟩
    rw [nextGeneration, same]

variable (code : CommitCode formats) (now : Int64) (rootIdentifier : ObjectIdentifier)
  {parentCommits : List CommitImpl}
  (oneOrTwo : parentCommits ≠ [] ∧ parentCommits.length ≤ 2)

@[simp]
theorem generation_fromContentAndParents :
    (code.fromContentAndParents now rootIdentifier parentCommits oneOrTwo).toImpl.generation =
      nextGeneration parentCommits :=
  rfl

theorem mem_parentIds_fromContentAndParents (parentId : CommitId) : parentId ∈
      (code.fromContentAndParents now rootIdentifier parentCommits oneOrTwo).toImpl.parentIds ↔
    ∃ parent ∈ parentCommits, parent.id = parentId := by
  simp [fromContentAndParents, Commit.toImpl, CommitImpl.parentIds, storageOf, mem_mergeSort]

end CommitCode

/-- All commits of a page.  A path along the parents holds at most `2 ^ 63` commits. -/
structure CommitHistory (code : CommitCode formats) where
  find : CommitId → Option CommitImpl
  emptyRoot : ObjectIdentifier
  id_of_find : ∀ {id commit}, find id = some commit → commit.id = id
  first : find kFirstPageCommitId = some (.empty emptyRoot)
  built : ∀ {id commit}, find id = some commit → id ≠ kFirstPageCommitId →
    ∃ now rootIdentifier parentCommits oneOrTwo,
      (∀ parent ∈ parentCommits, find parent.id = some parent) ∧
      commit = (code.fromContentAndParents now rootIdentifier parentCommits oneOrTwo).toImpl
  depth : ∀ path : List CommitId, path.IsChain (fun id parentId =>
    ∃ commit, find id = some commit ∧ parentId ∈ commit.parentIds) → path.length ≤ 2 ^ 63

namespace CommitHistory

variable {code : CommitCode formats} (history : CommitHistory code)

def IsParent (id parentId : CommitId) : Prop :=
  ∃ commit, history.find id = some commit ∧ parentId ∈ commit.parentIds

variable {history} {id : CommitId} {commit : CommitImpl}

section

variable (found : history.find id = some commit)
include found

/-- A commit is one step further from the first commit than its newest parent. -/
theorem exists_path (longest : ℕ)
    (isLongest : ∀ path, (id :: path).IsChain history.IsParent → path.length ≤ longest) :
    ∃ path, (id :: path).IsChain history.IsParent ∧ path.length = commit.generation.toNat := by
  induction longest using Nat.strong_induction_on generalizing id commit with
  | _ longest ih =>
    by_cases isFirst : id = kFirstPageCommitId
    · subst isFirst
      obtain rfl := some.inj (found.symm.trans history.first)
      exact ⟨[], .singleton _, rfl⟩
    · obtain ⟨now, root, parents, oneOrTwo, parentsFound, rfl⟩ := history.built found isFirst
      obtain ⟨newest, member, isNext, -⟩ := CommitCode.nextGeneration_eq oneOrTwo.1
      have isParent : history.IsParent id newest.id := ⟨_, found,
        (code.mem_parentIds_fromContentAndParents now root oneOrTwo _).mpr ⟨newest, member, rfl⟩⟩
      have positive : 1 ≤ longest := isLongest [newest.id] (.cons_cons isParent (.singleton _))
      obtain ⟨path, isPath, sameLength⟩ := ih (longest - 1) (Nat.sub_lt positive Nat.one_pos)
        (parentsFound newest member) fun path isPath =>
          Nat.le_sub_one_of_lt (isLongest (newest.id :: path) (.cons_cons isParent isPath))
      refine ⟨newest.id :: path, .cons_cons isParent isPath, ?_⟩
      have short := history.depth _ (List.IsChain.cons_cons isParent isPath)
      simp only [length_cons] at short ⊢
      rw [CommitCode.generation_fromContentAndParents, isNext, UInt64.toNat_add, Nat.mod_eq_of_lt]
      · simp [sameLength]
      · simp
        omega

/-- No generation is too large for the signed numbers by which commits are sorted. -/
theorem generation_lt : commit.generation.toNat < 2 ^ 63 := by
  obtain ⟨path, isPath, sameLength⟩ := exists_path found (2 ^ 63) fun path isPath =>
    (Nat.le_succ _).trans (history.depth _ isPath)
  have short := history.depth _ isPath
  rw [length_cons] at short
  omega

theorem generation_eq (notFirst : id ≠ kFirstPageCommitId) :
    ∃ newest parent, newest ∈ commit.parentIds ∧ history.find newest = some parent ∧
      commit.generation.toNat = parent.generation.toNat + 1 ∧
      ∀ parentId ∈ commit.parentIds, ∀ other, history.find parentId = some other →
        other.generation.toNat ≤ parent.generation.toNat := by
  obtain ⟨now, root, parents, oneOrTwo, parentsFound, rfl⟩ := history.built found notFirst
  obtain ⟨newest, member, isNext, largest⟩ := CommitCode.nextGeneration_eq oneOrTwo.1
  refine ⟨newest.id, newest, ?_, parentsFound newest member, ?_, ?_⟩
  · exact (code.mem_parentIds_fromContentAndParents ..).mpr ⟨newest, member, rfl⟩
  · have small := generation_lt (parentsFound newest member)
    rw [CommitCode.generation_fromContentAndParents, isNext, UInt64.toNat_add, Nat.mod_eq_of_lt]
    · simp
    · simp
      omega
  · intro parentId isParent other isOther
    obtain ⟨parent, inParents, rfl⟩ := (code.mem_parentIds_fromContentAndParents ..).mp isParent
    obtain rfl := some.inj (isOther.symm.trans (parentsFound parent inParents))
    exact UInt64.le_iff_toNat_le.mp (largest _ inParents)

end

variable (history) in
def dag : CommitDag where
  find := history.find
  id_of_find := history.id_of_find
  first := ⟨_, history.first, rfl, rfl⟩
  parents_found := by
    intro id commit found parentId isParent
    by_cases isFirst : id = kFirstPageCommitId
    · subst isFirst
      obtain rfl := some.inj (found.symm.trans history.first)
      cases isParent
    · obtain ⟨now, root, parents, oneOrTwo, parentsFound, rfl⟩ := history.built found isFirst
      obtain ⟨parent, member, rfl⟩ := (code.mem_parentIds_fromContentAndParents ..).mp isParent
      exact ⟨parent, parentsFound parent member⟩
  generation_eq := generation_eq

variable (history) in
/-- The strict ancestors in the graph of the history. -/
def Ancestor (earlier later : CommitId) : Prop :=
  history.dag.Ancestor earlier later

theorem generation_lt_of_ancestor {earlier later : CommitId} {first second : CommitImpl}
    (isAncestor : history.Ancestor earlier later) (isFirst : history.find earlier = some first)
    (isSecond : history.find later = some second) :
    first.generation.toNat < second.generation.toNat := by
  have smaller : history.dag.generation earlier < history.dag.generation later := by
    clear isSecond
    induction isAncestor with
    | single isParent => exact history.dag.generation_lt _ _ isParent
    | tail _ isParent ih => exact ih.trans (history.dag.generation_lt _ _ isParent)
  have firstFound : history.dag.find earlier = some first := isFirst
  have secondFound : history.dag.find later = some second := isSecond
  rwa [CommitDag.generation_of_find firstFound, CommitDag.generation_of_find secondFound] at smaller

theorem ne_first (found : history.find id = some commit) (hasParents : commit.parentIds ≠ []) :
    id ≠ kFirstPageCommitId := by
  rintro rfl
  obtain rfl := some.inj (found.symm.trans history.first)
  exact hasParents rfl

end CommitHistory

end Peridot
