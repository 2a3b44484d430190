import Peridot.CommitImpl
import Peridot.Dominators

/-!
# Common ancestors

`FindCommonAncestor` keeps a set of commits, and replaces the commits of the largest
generation by their parents until one commit is left.
-/

namespace Peridot

open List Option

def generationComparator (lhs rhs : CommitImpl) : Bool :=
  if lhs.generation = rhs.generation then lhs.id < rhs.id else lhs.generation < rhs.generation

/-- `insert` of a `std::set` with a `GenerationComparator`, listed from its last element to its
first one. -/
def insertCommit (commit : CommitImpl) : List CommitImpl → List CommitImpl
  | [] => [commit]
  | newest :: older =>
    if generationComparator newest commit then commit :: newest :: older
    else if generationComparator commit newest then newest :: insertCommit commit older
    else newest :: older

/-- The inner loop: the commits of the expected generation, without the last commit of the
set, and the commits that stay. -/
def popNewest (expectedGeneration : UInt64) : List CommitImpl → List CommitImpl × List CommitImpl
  | commit :: next :: older =>
    if commit.generation = expectedGeneration then
      let popped := popNewest expectedGeneration (next :: older)
      (commit :: popped.1, popped.2)
    else ([], commit :: next :: older)
  | commits => ([], commits)

def walkToCommonAncestor (getCommit : CommitId → Except Status CommitImpl) :
    ℕ → List CommitImpl → Option (Except Status CommitImpl)
  | _, [] => none
  | _, [commit] => some (.ok commit)
  | 0, _ :: _ :: _ => none
  | fuel + 1, newest :: next :: older =>
    let popped := popNewest newest.generation (newest :: next :: older)
    match (popped.1.flatMap CommitImpl.parentIds).mapM getCommit with
    | .error status => some (.error status)
    | .ok parents =>
      walkToCommonAncestor getCommit fuel (parents.foldl (fun commits parent =>
        insertCommit parent commits) popped.2)

/-- `FindCommonAncestorSync`; `none` when the rounds do not suffice. -/
def findCommonAncestor (getCommit : CommitId → Except Status CommitImpl) (rounds : ℕ)
    (head1 head2 : CommitImpl) : Option (Except Status CommitImpl) :=
  walkToCommonAncestor getCommit rounds (insertCommit head2 [head1])

structure CommitDag where
  find : CommitId → Option CommitImpl
  id_of_find : ∀ {id commit}, find id = some commit → commit.id = id
  first : ∃ commit, find kFirstPageCommitId = some commit ∧ commit.parentIds = [] ∧
    commit.generation = 0
  parents_found : ∀ {id commit}, find id = some commit → ∀ parentId ∈ commit.parentIds,
    ∃ parent, find parentId = some parent
  /-- The generation of a commit is one more than the largest generation of its parents. -/
  generation_eq : ∀ {id commit}, find id = some commit → id ≠ kFirstPageCommitId →
    ∃ newest parent, newest ∈ commit.parentIds ∧ find newest = some parent ∧
      commit.generation.toNat = parent.generation.toNat + 1 ∧
      ∀ parentId ∈ commit.parentIds, ∀ other, find parentId = some other →
        other.generation.toNat ≤ parent.generation.toNat

variable {id : CommitId}

namespace CommitDag

variable (dag : CommitDag)

def parents (id : CommitId) : List CommitId :=
  ((dag.find id).map CommitImpl.parentIds).getD []

def generation (id : CommitId) : ℕ :=
  ((dag.find id).map fun commit => commit.generation.toNat).getD 0

/-- The graph has this commit under its identifier. -/
def Holds (commit : CommitImpl) : Prop :=
  dag.find commit.id = some commit

/-- One commit is reached from the other by one step to a parent or more. -/
def Ancestor : CommitId → CommitId → Prop :=
  Relation.TransGen fun parent commit => parent ∈ dag.parents commit

variable {dag} {commit other : CommitImpl}

theorem parents_of_find (found : dag.find id = some commit) :
    dag.parents id = commit.parentIds := by
  rw [parents, found]
  rfl

theorem generation_of_find (found : dag.find id = some commit) :
    dag.generation id = commit.generation.toNat := by
  rw [generation, found]
  rfl

theorem Holds.eq_of_id_eq (held : dag.Holds commit) (otherHeld : dag.Holds other)
    (sameId : commit.id = other.id) : commit = other := by
  rw [Holds, sameId, otherHeld] at held
  exact (some.inj held).symm

theorem generation_lt (dag : CommitDag) (id : CommitId) :
    ∀ parent ∈ dag.parents id, dag.generation parent < dag.generation id := by
  intro parentId isParent
  cases found : dag.find id with
  | none => simp [parents, found] at isParent
  | some commit =>
    rw [parents_of_find found] at isParent
    have notFirst : id ≠ kFirstPageCommitId := by
      rintro rfl
      obtain ⟨first, isFirst, noParents, -⟩ := dag.first
      obtain rfl := some.inj (found.symm.trans isFirst)
      rw [noParents] at isParent
      cases isParent
    obtain ⟨parent, isFound⟩ := dag.parents_found found parentId isParent
    obtain ⟨-, newest, -, -, isNext, largest⟩ := dag.generation_eq found notFirst
    rw [generation_of_find found, generation_of_find isFound, isNext]
    exact Nat.lt_succ_of_le (largest parentId isParent parent isFound)

theorem Holds.exists_path (held : dag.Holds commit) :
    ∃ path, ParentPath dag.parents commit.id kFirstPageCommitId path := by
  induction isGeneration : dag.generation commit.id using Nat.strong_induction_on
    generalizing commit with
  | _ generation ih =>
    by_cases isFirst : commit.id = kFirstPageCommitId
    · rw [isFirst]
      exact ⟨_, .single _⟩
    · obtain ⟨parentId, parent, isParent, found, -⟩ := dag.generation_eq held isFirst
      obtain rfl := dag.id_of_find found
      rw [← parents_of_find held] at isParent
      have less := dag.generation_lt commit.id parent.id isParent
      rw [isGeneration] at less
      obtain ⟨path, isPath⟩ := ih _ less found rfl
      exact ⟨_, .cons isParent isPath⟩

end CommitDag

theorem generationComparator_iff {lhs rhs : CommitImpl} : generationComparator lhs rhs = true ↔
    lhs.generation < rhs.generation ∨ lhs.generation = rhs.generation ∧ lhs.id < rhs.id := by
  rw [generationComparator]
  split
  case isTrue same => simp [same]
  case isFalse different => simp [different]

theorem generationComparator_trans {first second third : CommitImpl}
    (less : generationComparator first second = true)
    (next : generationComparator second third = true) :
    generationComparator first third = true := by
  rw [generationComparator_iff] at less next ⊢
  rcases less with less | ⟨same, less⟩
  · rcases next with next | ⟨sameNext, -⟩
    · exact .inl (UInt64.lt_trans less next)
    · exact .inl (sameNext ▸ less)
  · rcases next with next | ⟨sameNext, next⟩
    · exact .inl (same ▸ next)
    · exact .inr ⟨same.trans sameNext, less.trans next⟩

theorem generationComparator_irrefl (commit : CommitImpl) :
    generationComparator commit commit = false := by
  simp [generationComparator]

theorem toNat_generation_le {older newer : CommitImpl}
    (less : generationComparator older newer = true) :
    older.generation.toNat ≤ newer.generation.toNat := by
  rcases generationComparator_iff.mp less with less | ⟨same, -⟩
  · exact (UInt64.lt_iff_toNat_lt.mp less).le
  · rw [same]

variable {dag : CommitDag} {commits : List CommitImpl} {commit head1 head2 other stays : CommitImpl}

/-- Commits of the graph that are equivalent in the set are the same. -/
theorem CommitDag.Holds.eq_of_not_less (held : dag.Holds commit) (otherHeld : dag.Holds other)
    (notLess : ¬generationComparator commit other = true)
    (notGreater : ¬generationComparator other commit = true) : commit = other := by
  rw [generationComparator_iff, not_or, not_and, not_lt] at notLess notGreater
  have sameGeneration : commit.generation = other.generation :=
    UInt64.le_antisymm (UInt64.not_lt.mp notGreater.1) (UInt64.not_lt.mp notLess.1)
  refine held.eq_of_id_eq otherHeld (le_antisymm ?_ ?_)
  · exact notGreater.2 sameGeneration.symm
  · exact notLess.2 sameGeneration

/-- The set holds commits of the graph, ordered by the comparator. -/
structure CommitDag.CommitSet (dag : CommitDag) (commits : List CommitImpl) : Prop where
  held : ∀ commit ∈ commits, dag.Holds commit
  ordered : commits.Pairwise fun newer older => generationComparator older newer = true

section CommitSet

variable {dag : CommitDag} {commit newest : CommitImpl} {commits older : List CommitImpl}

theorem CommitDag.CommitSet.tail (isSet : dag.CommitSet (newest :: older)) : dag.CommitSet older :=
  ⟨fun commit inOlder => isSet.held commit (mem_cons_of_mem _ inOlder),
    (pairwise_cons.mp isSet.ordered).2⟩

theorem mem_insertCommit (held : dag.Holds commit) (isSet : dag.CommitSet commits)
    {member : CommitImpl} :
    member ∈ insertCommit commit commits ↔ member = commit ∨ member ∈ commits := by
  induction commits with
  | nil => simp [insertCommit]
  | cons newest older ih =>
    rw [insertCommit]
    split
    case isTrue => exact mem_cons
    case isFalse notGreater =>
      split
      case isTrue =>
        rw [mem_cons, ih isSet.tail, mem_cons]
        exact or_left_comm
      case isFalse notLess =>
        obtain rfl := held.eq_of_not_less (isSet.held newest mem_cons_self) notLess notGreater
        simp

theorem CommitDag.CommitSet.insert (held : dag.Holds commit) (isSet : dag.CommitSet commits) :
    dag.CommitSet (insertCommit commit commits) := by
  constructor
  case held =>
    intro member inSet
    rcases (mem_insertCommit held isSet).mp inSet with rfl | inCommits
    · exact held
    · exact isSet.held member inCommits
  case ordered =>
    induction commits with
    | nil => exact pairwise_singleton _ _
    | cons newest older ih =>
      obtain ⟨above, orderedOlder⟩ := pairwise_cons.mp isSet.ordered
      rw [insertCommit]
      split
      case isTrue greater =>
        refine pairwise_cons.mpr ⟨fun member inCommits => ?_, isSet.ordered⟩
        rcases mem_cons.mp inCommits with rfl | inOlder
        · exact greater
        · exact generationComparator_trans (above member inOlder) greater
      case isFalse =>
        split
        case isTrue less =>
          refine pairwise_cons.mpr ⟨fun member inSet => ?_, ih isSet.tail⟩
          rcases (mem_insertCommit held isSet.tail).mp inSet with rfl | inOlder
          · exact less
          · exact above member inOlder
        case isFalse => exact isSet.ordered

theorem insertAll_spec {parents : List CommitImpl} (held : ∀ parent ∈ parents, dag.Holds parent)
    (isSet : dag.CommitSet commits) :
    dag.CommitSet (parents.foldl (fun commits parent => insertCommit parent commits) commits) ∧
      ∀ member, member ∈ parents.foldl (fun commits parent => insertCommit parent commits) commits ↔
        member ∈ parents ∨ member ∈ commits := by
  induction parents generalizing commits with
  | nil => simp [isSet]
  | cons parent parents ih =>
    have parentHeld := held parent mem_cons_self
    obtain ⟨isInserted, members⟩ := ih
      (fun parent isParent => held parent (mem_cons_of_mem _ isParent))
      (isSet.insert parentHeld)
    refine ⟨isInserted, fun member => ?_⟩
    rw [foldl_cons, members, mem_insertCommit parentHeld isSet, mem_cons]
    tauto

end CommitSet

/-- The inner loop pops commits of the expected generation only.  It goes on until a commit of
another generation is the newest one, or the last commit is reached. -/
theorem popNewest_spec (expectedGeneration : UInt64) (notEmpty : commits ≠ []) :
    (popNewest expectedGeneration commits).1 ++ (popNewest expectedGeneration commits).2 = commits ∧
      (∀ commit ∈ (popNewest expectedGeneration commits).1,
        commit.generation = expectedGeneration) ∧
      ∃ stays rest, (popNewest expectedGeneration commits).2 = stays :: rest ∧
        (stays.generation = expectedGeneration → rest = []) := by
  fun_induction popNewest expectedGeneration commits with
  | case1 commit next older isExpected popped ih =>
    obtain ⟨split, expected, stays⟩ := ih (cons_ne_nil _ _)
    refine ⟨congrArg (cons commit) split, ?_, stays⟩
    intro member inPopped
    rcases mem_cons.mp inPopped with rfl | inPopped
    · exact isExpected
    · exact expected member inPopped
  | case2 commit next older notExpected =>
    exact ⟨rfl, by simp, commit, next :: older, rfl, fun isExpected =>
      absurd isExpected notExpected⟩
  | case3 commits notMany =>
    obtain ⟨commit, older, rfl⟩ := exists_cons_of_ne_nil notEmpty
    cases older with
    | nil => exact ⟨rfl, by simp, commit, [], rfl, fun _ => rfl⟩
    | cons next older => exact absurd rfl (notMany commit next older)

def roundsLeft : List CommitImpl → ℕ
  | newest :: next :: _ =>
    2 * newest.generation.toNat + if next.generation = newest.generation then 2 else 1
  | _ => 0

theorem roundsLeft_le {generation : ℕ}
    (smaller : ∀ commit ∈ commits, commit.generation.toNat < generation) :
    roundsLeft commits ≤ 2 * generation := by
  match commits with
  | [] | [_] => exact Nat.zero_le _
  | newest :: next :: older =>
    have less := smaller newest mem_cons_self
    rw [roundsLeft]
    split <;> omega

theorem roundsLeft_le_of_single
    (isSet : dag.CommitSet commits) (smaller : ∀ commit ∈ commits, commit = stays ∨
      commit.generation.toNat < stays.generation.toNat) :
    roundsLeft commits ≤ 2 * stays.generation.toNat + 1 := by
  match commits with
  | [] | [_] => exact Nat.zero_le _
  | newest :: next :: older =>
    have different : next ≠ newest := by
      rintro rfl
      have less := (pairwise_cons.mp isSet.ordered).1 next mem_cons_self
      rw [generationComparator_irrefl] at less
      cases less
    rw [roundsLeft]
    rcases smaller newest mem_cons_self with rfl | less
    · have less := (smaller next (by simp)).resolve_left different
      rw [if_neg fun same => by rw [same] at less; exact lt_irrefl _ less]
    · split <;> omega

section Walk

variable {dag : CommitDag} {commits older : List CommitImpl}
    {getCommit : CommitId → Except Status CommitImpl} {ids : List CommitId} {newest : CommitImpl}

/-- `GetCommit` finds every commit of the graph. -/
def CommitDag.StoredIn (dag : CommitDag) (getCommit : CommitId → Except Status CommitImpl) :
    Prop :=
  ∀ id commit, dag.find id = some commit → getCommit id = .ok commit

theorem mapM_found {find : CommitId → Option CommitImpl}
    (isFound : ∀ id ∈ ids, ∃ commit : CommitImpl,
      getCommit id = .ok commit ∧ commit.id = id ∧ find id = some commit) :
    ∃ commits, ids.mapM getCommit = .ok commits ∧ commits.map CommitImpl.id = ids ∧
      ∀ commit ∈ commits, find commit.id = some commit := by
  induction ids with
  | nil => exact ⟨[], rfl, rfl, by simp⟩
  | cons id ids ih =>
    obtain ⟨⟨commit, isReply, rfl, found⟩, rest⟩ := forall_mem_cons.mp isFound
    obtain ⟨commits, isResult, sameIds, areFound⟩ := ih rest
    refine ⟨commit :: commits, ?_, by rw [map_cons, sameIds], forall_mem_cons.mpr ⟨found, areFound⟩⟩
    rw [mapM_cons, isReply, isResult]
    rfl

theorem mapM_getCommit (stored : dag.StoredIn getCommit)
    (found : ∀ id ∈ ids, ∃ commit, dag.find id = some commit) :
    ∃ parents, ids.mapM getCommit = .ok parents ∧ parents.map CommitImpl.id = ids ∧
      ∀ parent ∈ parents, dag.Holds parent := by
  refine mapM_found fun id member => ?_
  obtain ⟨commit, isFound⟩ := found id member
  exact ⟨commit, stored id commit isFound, dag.id_of_find isFound, isFound⟩

theorem CommitDag.CommitSet.flatMap_parents {popped : List CommitImpl}
    (held : ∀ commit ∈ popped, dag.Holds commit) :
    (popped.map CommitImpl.id).flatMap dag.parents = popped.flatMap CommitImpl.parentIds := by
  rw [flatMap_map]
  exact flatMap_congr fun commit isPopped => parents_of_find (held commit isPopped)

theorem CommitDag.CommitSet.generation_le (isSet : dag.CommitSet (newest :: older)) :
    ∀ commit ∈ newest :: older, commit.generation.toNat ≤ newest.generation.toNat := by
  intro commit inSet
  rcases mem_cons.mp inSet with rfl | isOlder
  · exact le_rfl
  · exact toNat_generation_le ((pairwise_cons.mp isSet.ordered).1 commit isOlder)

theorem commonDominator_popped {gone rest : List CommitImpl}
    (isSet : dag.CommitSet (gone ++ stays :: rest)) (target : CommitId) :
    CommonDominator dag.parents kFirstPageCommitId
        ((gone ++ stays :: rest).map CommitImpl.id) target ↔
      CommonDominator dag.parents kFirstPageCommitId
        (gone.flatMap CommitImpl.parentIds ++ (stays :: rest).map CommitImpl.id) target := by
  have staysHeld : dag.Holds stays := isSet.held stays (by simp)
  have goneHeld : ∀ commit ∈ gone, dag.Holds commit := fun commit isGone =>
    isSet.held commit (mem_append_left _ isGone)
  rw [map_append, ← CommitDag.CommitSet.flatMap_parents goneHeld]
  refine commonDominator_flatMap_parents dag.generation_lt (mem_map_of_mem mem_cons_self)
    staysHeld.exists_path fun id isPopped => ?_
  obtain ⟨commit, isGone, rfl⟩ := mem_map.mp isPopped
  have less := (pairwise_append.mp isSet.ordered).2.2 commit isGone stays mem_cons_self
  constructor
  · intro sameId
    obtain rfl := (goneHeld commit isGone).eq_of_id_eq staysHeld sameId
    rw [generationComparator_irrefl] at less
    cases less
  · rw [CommitDag.generation_of_find (goneHeld commit isGone),
      CommitDag.generation_of_find staysHeld]
    exact toNat_generation_le less

variable {getCommit : CommitId → Except Status CommitImpl} (stored : dag.StoredIn getCommit)
include stored

/-- What a round leaves in place of the set: a set with the same common dominators, for which
fewer rounds suffice. -/
theorem walk_round {next : CommitImpl} (isSet : dag.CommitSet (newest :: next :: older)) :
    ∃ after, (∀ fuel, walkToCommonAncestor getCommit (fuel + 1) (newest :: next :: older) =
        walkToCommonAncestor getCommit fuel after) ∧ dag.CommitSet after ∧ after ≠ [] ∧
      roundsLeft after < roundsLeft (newest :: next :: older) ∧
      ∀ target, CommonDominator dag.parents kFirstPageCommitId
          ((newest :: next :: older).map CommitImpl.id) target ↔
        CommonDominator dag.parents kFirstPageCommitId (after.map CommitImpl.id) target := by
  obtain ⟨split, expected, stays, rest, isRest, single⟩ :=
    popNewest_spec newest.generation (cons_ne_nil newest (next :: older))
  generalize gone_def : (popNewest newest.generation (newest :: next :: older)).1 = gone
    at split expected
  rw [isRest] at split
  have notNewer := isSet.generation_le
  have isSplit : dag.CommitSet (gone ++ stays :: rest) := split ▸ isSet
  have goneHeld : ∀ commit ∈ gone, dag.Holds commit := fun commit isGone =>
    isSplit.held commit (mem_append_left _ isGone)
  have staysSet : dag.CommitSet (stays :: rest) :=
    ⟨fun commit inRest => isSplit.held commit (mem_append_right _ inRest),
      (pairwise_append.mp isSplit.ordered).2.1⟩
  have parentsFound : ∀ id ∈ gone.flatMap CommitImpl.parentIds,
      ∃ commit, dag.find id = some commit := by
    intro id isParent
    obtain ⟨commit, isGone, inParents⟩ := mem_flatMap.mp isParent
    exact dag.parents_found (goneHeld commit isGone) id inParents
  obtain ⟨parents, isMapped, sameIds, parentsHeld⟩ := mapM_getCommit stored parentsFound
  obtain ⟨isAfter, members⟩ := insertAll_spec parentsHeld staysSet
  generalize after_def : parents.foldl (fun commits parent => insertCommit parent commits)
    (stays :: rest) = after at isAfter members
  have parentsOlder : ∀ parent ∈ parents, parent.generation.toNat < newest.generation.toNat := by
    intro parent isParent
    have inIds : parent.id ∈ gone.flatMap CommitImpl.parentIds := sameIds ▸ mem_map_of_mem isParent
    obtain ⟨commit, isGone, inParents⟩ := mem_flatMap.mp inIds
    have commitHeld := goneHeld commit isGone
    rw [← expected commit isGone, ← CommitDag.generation_of_find commitHeld,
      ← CommitDag.generation_of_find (parentsHeld parent isParent)]
    exact dag.generation_lt commit.id parent.id (CommitDag.parents_of_find commitHeld ▸ inParents)
  refine ⟨after, fun fuel => ?_, isAfter, ?_, ?_, fun target => ?_⟩
  · simp only [walkToCommonAncestor, gone_def, isRest, isMapped, after_def]
  · exact ne_nil_of_mem ((members stays).mpr (.inr mem_cons_self))
  · by_cases sameGeneration : stays.generation = newest.generation
    · obtain rfl := single sameGeneration
      have nextSame : next.generation = newest.generation := by
        have inSplit : next ∈ gone ++ [stays] := split ▸ (by simp)
        rcases mem_append.mp inSplit with isGone | isStays
        · exact expected next isGone
        · rw [mem_singleton.mp isStays, sameGeneration]
      have bound : roundsLeft after ≤ 2 * stays.generation.toNat + 1 := by
        refine roundsLeft_le_of_single isAfter fun commit inAfter => ?_
        rcases (members commit).mp inAfter with isParent | isStays
        · exact .inr (sameGeneration ▸ parentsOlder commit isParent)
        · exact .inl (mem_singleton.mp isStays)
      rw [sameGeneration] at bound
      rw [roundsLeft, if_pos nextSame]
      exact Nat.lt_succ_of_le bound
    · have staysOlder : stays.generation.toNat < newest.generation.toNat := by
        refine lt_of_le_of_ne (notNewer stays (split ▸ by simp)) fun same => ?_
        exact sameGeneration (UInt64.toNat_inj.mp same)
      have bound : roundsLeft after ≤ 2 * newest.generation.toNat := by
        refine roundsLeft_le fun commit inAfter => ?_
        rcases (members commit).mp inAfter with isParent | inRest
        · exact parentsOlder commit isParent
        · exact (staysSet.generation_le commit inRest).trans_lt staysOlder
      refine bound.trans_lt ?_
      rw [roundsLeft]
      split <;> omega
  · rw [← split, commonDominator_popped isSplit, ← sameIds, ← map_append]
    refine commonDominator_of_mem_iff fun id => ?_
    simp only [List.mem_map, mem_append, members]

/-- With enough rounds one commit is left, which has the dominators that all commits had. -/
theorem walkToCommonAncestor_spec (isSet : dag.CommitSet commits) (notEmpty : commits ≠ [])
    {enough : ℕ} (bound : roundsLeft commits ≤ enough) :
    ∃ ancestor, (∀ fuel ≥ enough, walkToCommonAncestor getCommit fuel commits =
        some (.ok ancestor)) ∧ dag.Holds ancestor ∧
      ∀ target, CommonDominator dag.parents kFirstPageCommitId (commits.map CommitImpl.id) target ↔
        Dominates dag.parents kFirstPageCommitId target ancestor.id := by
  obtain ⟨newest, older, rfl⟩ := exists_cons_of_ne_nil notEmpty
  induction enough generalizing newest older with
  | zero =>
    cases older with
    | nil => exact ⟨newest, by simp [walkToCommonAncestor], isSet.held newest (by simp),
        by simp [CommonDominator]⟩
    | cons next older =>
      rw [roundsLeft] at bound
      split at bound <;> omega
  | succ enough ih =>
    cases older with
    | nil => exact ⟨newest, by simp [walkToCommonAncestor], isSet.held newest (by simp),
        by simp [CommonDominator]⟩
    | cons next older =>
      obtain ⟨after, isRound, isAfter, afterNotEmpty, fewer, same⟩ := walk_round stored isSet
      obtain ⟨newest', older', rfl⟩ := exists_cons_of_ne_nil afterNotEmpty
      obtain ⟨ancestor, isLeft, held, dominators⟩ :=
        ih newest' older' isAfter afterNotEmpty (Nat.le_of_lt_succ (fewer.trans_le bound))
      refine ⟨ancestor, fun fuel more => ?_, held, fun target =>
        (same target).trans (dominators target)⟩
      obtain ⟨fuel, rfl⟩ := Nat.exists_eq_add_one_of_ne_zero (Nat.ne_of_gt (Nat.zero_lt_of_lt more))
      rw [isRound, isLeft fuel (Nat.le_of_succ_le_succ more)]

end Walk

theorem CommitDag.CommitSet.heads (held1 : dag.Holds head1) (held2 : dag.Holds head2) :
    dag.CommitSet (insertCommit head2 [head1]) ∧
      ∀ commit, commit ∈ insertCommit head2 [head1] ↔ commit = head2 ∨ commit = head1 := by
  have isSet : dag.CommitSet [head1] :=
    ⟨fun commit isHead => mem_singleton.mp isHead ▸ held1, pairwise_singleton _ _⟩
  refine ⟨isSet.insert held2, fun commit => ?_⟩
  rw [mem_insertCommit held2 isSet, mem_singleton]

/-- The walk ends with the lowest commit that lies on every path from the heads to the first
commit. -/
theorem findCommonAncestor_lowest {dag : CommitDag}
    {getCommit : CommitId → Except Status CommitImpl} (stored : dag.StoredIn getCommit)
    {head1 head2 : CommitImpl} (held1 : dag.Holds head1) (held2 : dag.Holds head2) : ∃ ancestor,
      (∃ enough, ∀ rounds ≥ enough,
        findCommonAncestor getCommit rounds head1 head2 = some (.ok ancestor)) ∧
      dag.Holds ancestor ∧ (∀ path, ParentPath dag.parents head1.id kFirstPageCommitId path ∨
        ParentPath dag.parents head2.id kFirstPageCommitId path → ancestor.id ∈ path) ∧
      ∀ other, other ≠ ancestor.id →
        (∀ path, ParentPath dag.parents head1.id kFirstPageCommitId path ∨
          ParentPath dag.parents head2.id kFirstPageCommitId path → other ∈ path) →
        dag.Ancestor other ancestor.id := by
  obtain ⟨isSet, members⟩ := CommitDag.CommitSet.heads held1 held2
  have notEmpty : insertCommit head2 [head1] ≠ [] :=
    ne_nil_of_mem ((members head2).mpr (.inl rfl))
  have onAllPaths (target : CommitId) :
      CommonDominator dag.parents kFirstPageCommitId
          ((insertCommit head2 [head1]).map CommitImpl.id) target ↔
        ∀ path, ParentPath dag.parents head1.id kFirstPageCommitId path ∨
          ParentPath dag.parents head2.id kFirstPageCommitId path → target ∈ path := by
    simp only [CommonDominator, List.forall_mem_map, members, forall_eq, or_imp, forall_and]
    exact and_comm
  obtain ⟨ancestor, isFound, held, dominators⟩ :=
    walkToCommonAncestor_spec stored isSet notEmpty le_rfl
  refine ⟨ancestor, ⟨_, isFound⟩, held, ?_, fun other different onPaths => ?_⟩
  · exact (onAllPaths _).mp ((dominators _).mpr (Dominates.refl _ _))
  · obtain ⟨path, isPath⟩ := held.exists_path
    have dominates := (dominators other).mp ((onAllPaths other).mpr onPaths)
    exact (dominates.eq_or_transGen isPath).resolve_left different

theorem findCommonAncestor_spec {getCommit : CommitId → Except Status CommitImpl}
    (stored : dag.StoredIn getCommit) (held1 : dag.Holds head1) (held2 : dag.Holds head2) : ∃ ancestor,
      dag.Holds ancestor ∧ (∃ enough, ∀ rounds ≥ enough,
        findCommonAncestor getCommit rounds head1 head2 = some (.ok ancestor)) ∧
      ∀ target, Dominates dag.parents kFirstPageCommitId target ancestor.id ↔
        CommonDominator dag.parents kFirstPageCommitId [head2.id, head1.id] target := by
  obtain ⟨isSet, members⟩ := CommitDag.CommitSet.heads held1 held2
  obtain ⟨ancestor, isFound, held, dominators⟩ := walkToCommonAncestor_spec stored isSet
    (ne_nil_of_mem ((members head2).mpr (.inl rfl))) le_rfl
  refine ⟨ancestor, held, ⟨_, isFound⟩, fun target => (dominators target).symm.trans ?_⟩
  simp only [CommonDominator, List.forall_mem_map, members, forall_eq_or_imp, forall_eq, mem_cons,
    not_mem_nil, or_false]

theorem CommitDag.Holds.eq_of_dominators (held : dag.Holds commit) (otherHeld : dag.Holds other)
    (same : ∀ target, Dominates dag.parents kFirstPageCommitId target commit.id ↔
      Dominates dag.parents kFirstPageCommitId target other.id) : commit = other := by
  refine held.eq_of_id_eq otherHeld ?_
  by_contra different
  obtain ⟨path, isPath⟩ := held.exists_path
  obtain ⟨otherPath, isOther⟩ := otherHeld.exists_path
  have below := ((same _).mp (.refl _ _)).eq_or_transGen isOther
  have above := ((same _).mpr (.refl _ _)).eq_or_transGen isPath
  exact lt_asymm (rank_lt_of_transGen dag.generation_lt (below.resolve_left different))
    (rank_lt_of_transGen dag.generation_lt (above.resolve_left (Ne.symm different)))

theorem findCommonAncestor_agree {getCommit otherGetCommit : CommitId → Except Status CommitImpl}
    (stored : dag.StoredIn getCommit) (otherStored : dag.StoredIn otherGetCommit)
    (held1 : dag.Holds head1) (held2 : dag.Holds head2) :
    ∃ ancestor, dag.Holds ancestor ∧ ∃ enough, ∀ rounds ≥ enough,
      findCommonAncestor getCommit rounds head1 head2 = some (.ok ancestor) ∧
        findCommonAncestor otherGetCommit rounds head1 head2 = some (.ok ancestor) := by
  obtain ⟨ancestor, held, ⟨enough, isFound⟩, dominators⟩ :=
    findCommonAncestor_spec stored held1 held2
  obtain ⟨other, otherHeld, ⟨otherEnough, otherFound⟩, otherDominators⟩ :=
    findCommonAncestor_spec otherStored held1 held2
  obtain rfl := held.eq_of_dominators otherHeld fun target =>
    (dominators target).trans (otherDominators target).symm
  exact ⟨ancestor, held, max enough otherEnough, fun rounds atLeast =>
    ⟨isFound rounds ((le_max_left _ _).trans atLeast),
      otherFound rounds ((le_max_right _ _).trans atLeast)⟩⟩

def crossingCommit (id : CommitId) (generation : UInt64) (parents : List CommitId) : CommitImpl :=
  ⟨id, ⟨0, generation, default, parents⟩⟩

def crossingFind (id : CommitId) : Option CommitImpl :=
  if id = kFirstPageCommitId then some (crossingCommit kFirstPageCommitId 0 [])
  else if id ∈ [[1], [2]] then some (crossingCommit id 1 [kFirstPageCommitId])
  else if id ∈ [[3], [4]] then some (crossingCommit id 2 [[1], [2]])
  else none

theorem crossingFind_cases (found : crossingFind id = some commit) :
    (id = kFirstPageCommitId ∧ commit = crossingCommit kFirstPageCommitId 0 []) ∨
      (id ∈ [[1], [2]] ∧ commit = crossingCommit id 1 [kFirstPageCommitId]) ∨
        (id ∈ [[3], [4]] ∧ commit = crossingCommit id 2 [[1], [2]]) := by
  rw [crossingFind] at found
  split at found
  case isTrue isFirst => exact .inl ⟨isFirst, (some.inj found).symm⟩
  case isFalse =>
    split at found
    case isTrue isChild => exact .inr (.inl ⟨isChild, (some.inj found).symm⟩)
    case isFalse =>
      obtain ⟨isMerge, found⟩ := ite_none_right_eq_some.mp found
      exact .inr (.inr ⟨isMerge, (some.inj found).symm⟩)

def crossingDag : CommitDag where
  find := crossingFind
  id_of_find := by
    intro id commit found
    rcases crossingFind_cases found with ⟨rfl, rfl⟩ | ⟨-, rfl⟩ | ⟨-, rfl⟩ <;> rfl
  first := ⟨_, rfl, rfl, rfl⟩
  parents_found := by
    intro id commit found parentId isParent
    rcases crossingFind_cases found with ⟨-, rfl⟩ | ⟨-, rfl⟩ | ⟨-, rfl⟩
    · cases isParent
    · obtain rfl := List.mem_singleton.mp isParent
      exact ⟨_, rfl⟩
    · rcases List.mem_cons.mp isParent with rfl | isParent
      · exact ⟨_, rfl⟩
      · obtain rfl := List.mem_singleton.mp isParent
        exact ⟨_, rfl⟩
  generation_eq := by
    intro id commit found notFirst
    rcases crossingFind_cases found with ⟨isFirst, -⟩ | ⟨-, rfl⟩ | ⟨-, rfl⟩
    · exact absurd isFirst notFirst
    · refine ⟨kFirstPageCommitId, crossingCommit kFirstPageCommitId 0 [], by simp [crossingCommit,
        CommitImpl.parentIds], rfl, rfl, fun parentId isParent other isFound => ?_⟩
      obtain rfl := List.mem_singleton.mp isParent
      cases isFound
      exact le_rfl
    · refine ⟨[1], crossingCommit [1] 1 [kFirstPageCommitId], by simp [crossingCommit,
        CommitImpl.parentIds], rfl, rfl, fun parentId isParent other isFound => ?_⟩
      rcases List.mem_cons.mp isParent with rfl | isParent
      · cases isFound
        exact le_rfl
      · obtain rfl := List.mem_singleton.mp isParent
        cases isFound
        exact le_rfl

/-- `GetCommit` on the commits of a graph. -/
def CommitDag.getCommit (dag : CommitDag) (id : CommitId) : Except Status CommitImpl :=
  match dag.find id with
  | some commit => .ok commit
  | none => .error .notFound

theorem CommitDag.storedIn_getCommit (dag : CommitDag) : dag.StoredIn dag.getCommit := by
  intro id commit found
  rw [getCommit, found]

/-- Neither of two common parents lies on all paths. -/
theorem findCommonAncestor_lowest_crossing : ∃ ancestor, (∃ enough, ∀ rounds ≥ enough,
    findCommonAncestor crossingDag.getCommit rounds (crossingCommit [3] 2 [[1], [2]])
      (crossingCommit [4] 2 [[1], [2]]) = some (.ok ancestor)) ∧
    ancestor = crossingCommit kFirstPageCommitId 0 [] := by
  obtain ⟨ancestor, isFound, held, onPaths, -⟩ :=
    @findCommonAncestor_lowest crossingDag crossingDag.getCommit crossingDag.storedIn_getCommit
      (crossingCommit [3] 2 [[1], [2]]) (crossingCommit [4] 2 [[1], [2]]) rfl rfl
  refine ⟨ancestor, isFound, ?_⟩
  have onFirst := onPaths [[3], [1], kFirstPageCommitId]
    (.inl (.cons (by decide : [1] ∈ crossingDag.parents [3]) (.cons (by decide) (.single _))))
  have onSecond := onPaths [[4], [2], kFirstPageCommitId]
    (.inr (.cons (by decide : [2] ∈ crossingDag.parents [4]) (.cons (by decide) (.single _))))
  have isFirst : ancestor.id = kFirstPageCommitId := by
    simp only [mem_cons, not_mem_nil, or_false] at onFirst onSecond
    rcases onFirst with is | is | is
    · rw [is] at onSecond
      exact absurd onSecond (by decide)
    · rw [is] at onSecond
      exact absurd onSecond (by decide)
    · exact is
  rw [CommitDag.Holds, isFirst] at held
  exact (some.inj held).symm

end Peridot
