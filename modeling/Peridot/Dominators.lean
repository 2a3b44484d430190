import Mathlib.Data.List.Basic
import Mathlib.Logic.Relation
import Mathlib.Order.Lattice

/-!
# Common dominators

Items with parents, as in a graph of versions.  An item dominates another one when it lies on
every path from that one to the root.  The newest of some items can be replaced by its parents
without a change of their common dominators.
-/

namespace Peridot

open List

variable {α : Type*} (parents : α → List α)

/-- The items on a way from an item to one that it comes from, parent by parent. -/
inductive ParentPath : α → α → List α → Prop
  | single (item : α) : ParentPath item item [item]
  | cons {item parent root : α} {path : List α} (isParent : parent ∈ parents item)
      (after : ParentPath parent root path) : ParentPath item root (item :: path)

def Dominates (root target item : α) : Prop :=
  ∀ path, ParentPath parents item root path → target ∈ path

def CommonDominator (root : α) (items : List α) (target : α) : Prop :=
  ∀ item ∈ items, Dominates parents root target item

variable {parents} {root target item other : α}

section

variable {path : List α} (isPath : ParentPath parents item root path)
include isPath

theorem ParentPath.start_mem : item ∈ path := by
  cases isPath with
  | single => exact mem_singleton_self _
  | cons => exact mem_cons_self

theorem ParentPath.root_mem : root ∈ path := by
  induction isPath with
  | single => exact mem_singleton_self _
  | cons _ _ ih => exact mem_cons_of_mem _ ih

/-- What lies on a path is where the path starts, or comes before it. -/
theorem ParentPath.eq_or_transGen (onPath : target ∈ path) :
    target = item ∨ Relation.TransGen (fun parent child => parent ∈ parents child) target item := by
  induction isPath with
  | single item => exact .inl (mem_singleton.mp onPath)
  | cons isParent after ih =>
    rcases mem_cons.mp onPath with isStart | onRest
    · exact .inl isStart
    · rcases ih onRest with rfl | ancestor
      · exact .inr (.single isParent)
      · exact .inr (.tail ancestor isParent)

end

theorem Dominates.refl (root item : α) : Dominates parents root item item :=
  fun _ isPath => isPath.start_mem

theorem Dominates.eq_or_transGen {path : List α} (dominates : Dominates parents root target item)
    (isPath : ParentPath parents item root path) :
    target = item ∨ Relation.TransGen (fun parent child => parent ∈ parents child) target item :=
  isPath.eq_or_transGen (dominates path isPath)

theorem dominates_iff (notRoot : item ≠ root) : Dominates parents root target item ↔
    target = item ∨ ∀ parent ∈ parents item, Dominates parents root target parent := by
  constructor
  · intro dominates
    by_cases same : target = item
    · exact .inl same
    · refine .inr fun parent isParent path isPath => ?_
      exact (mem_cons.mp (dominates _ (.cons isParent isPath))).resolve_left same
  · rintro (rfl | dominate)
    · exact Dominates.refl root target
    · intro path isPath
      cases isPath with
      | single => exact absurd rfl notRoot
      | cons isParent after => exact mem_cons_of_mem _ (dominate _ isParent _ after)

theorem commonDominator_append {first second : List α} :
    CommonDominator parents root (first ++ second) target ↔
      CommonDominator parents root first target ∧ CommonDominator parents root second target := by
  simp only [CommonDominator, mem_append, or_imp, forall_and]

theorem commonDominator_of_mem_iff {first second : List α}
    (same : ∀ item, item ∈ first ↔ item ∈ second) :
    CommonDominator parents root first target ↔ CommonDominator parents root second target := by
  simp only [CommonDominator, same]

section Ranked

variable {rank : α → ℕ} (ranked : ∀ item, ∀ parent ∈ parents item, rank parent < rank item)
include ranked

theorem rank_lt_of_transGen
    (ancestor : Relation.TransGen (fun parent child => parent ∈ parents child) target item) :
    rank target < rank item := by
  induction ancestor with
  | single isParent => exact ranked _ _ isParent
  | tail _ isParent ih => exact ih.trans (ranked _ _ isParent)

/-- Items that have no smaller rank than another one are replaced by their parents. -/
theorem commonDominator_flatMap_parents {popped rest : List α} (inRest : other ∈ rest)
    (rooted : ∃ path, ParentPath parents other root path)
    (newest : ∀ item ∈ popped, item ≠ other ∧ rank other ≤ rank item) :
    CommonDominator parents root (popped ++ rest) target ↔
      CommonDominator parents root (popped.flatMap parents ++ rest) target := by
  obtain ⟨path, isPath⟩ := rooted
  have notDominating {target : α} (isPopped : target ∈ popped)
      (ofOther : Dominates parents root target other) : False := by
    rcases ofOther.eq_or_transGen isPath with same | ancestor
    · exact (newest target isPopped).1 same
    · exact (rank_lt_of_transGen ranked ancestor).not_ge (newest target isPopped).2
  have notRoot : ∀ item ∈ popped, item ≠ root := by
    rintro item isPopped rfl
    exact notDominating isPopped fun _ toRoot => toRoot.root_mem
  rw [commonDominator_append, commonDominator_append]
  refine and_congr_left fun ofRest => ?_
  constructor
  · intro ofPopped parent inParents
    obtain ⟨item, isPopped, isParent⟩ := mem_flatMap.mp inParents
    rcases (dominates_iff (notRoot item isPopped)).mp (ofPopped item isPopped) with rfl | dominate
    · exact (notDominating isPopped (ofRest other inRest)).elim
    · exact dominate parent isParent
  · intro ofParents item isPopped
    refine (dominates_iff (notRoot item isPopped)).mpr (.inr fun parent isParent => ?_)
    exact ofParents parent (mem_flatMap.mpr ⟨item, isPopped, isParent⟩)

end Ranked

end Peridot
