import Mathlib.Data.List.Pairwise
import Mathlib.Data.List.Sort

/-!
# Sorting with a comparison

What a sort promises that may put items of the same rank in any order, as `std::sort` does.
-/

namespace Peridot

variable {α : Type}

/-- What a comparison has to be on the items that are sorted. -/
structure StrictWeakOrder (less : α → α → Bool) (items : List α) : Prop where
  asymm : ∀ first ∈ items, ∀ second ∈ items, less first second = true →
    less second first = false
  trans_notLess : ∀ first ∈ items, ∀ second ∈ items, ∀ third ∈ items,
    less second first = false → less third second = false → less third first = false

structure StdSort (α : Type) where
  sort : (α → α → Bool) → List α → List α
  perm : ∀ less items, (sort less items).Perm items
  ordered : ∀ {less items}, StrictWeakOrder less items →
    (sort less items).Pairwise fun first second => less second first = false

namespace StrictWeakOrder

variable {less : α → α → Bool} {items sorted : List α}

/-- A list in which no two items have the same rank is the only one in order. -/
theorem eq_of_perm (order : StrictWeakOrder less items)
    (ordered : items.Pairwise fun first second => less second first = false)
    (strict : sorted.Pairwise fun first second => less first second = true)
    (perm : items.Perm sorted) : items = sorted := by
  have notLess : sorted.Pairwise fun first second => less second first = false :=
    strict.imp_of_mem fun inFirst inSecond isLess =>
      order.asymm _ (perm.mem_iff.mpr inFirst) _ (perm.mem_iff.mpr inSecond) isLess
  refine perm.eq_of_pairwise (fun first second inItems inSorted notGreater notSmaller => ?_)
    ordered notLess
  by_contra different
  have comparable : sorted.Pairwise fun first second =>
      less first second = true ∨ less second first = true := strict.imp .inl
  have symm : Std.Symm fun first second : α =>
      less first second = true ∨ less second first = true := ⟨fun _ _ => Or.symm⟩
  rcases comparable.forall (perm.subset inItems) inSorted different with isLess | isLess
  · exact nomatch notSmaller.symm.trans isLess
  · exact nomatch notGreater.symm.trans isLess

theorem of_subset (order : StrictWeakOrder less items) (subset : sorted ⊆ items) :
    StrictWeakOrder less sorted where
  asymm first inFirst second inSecond := order.asymm first (subset inFirst) second (subset inSecond)
  trans_notLess first inFirst second inSecond third inThird :=
    order.trans_notLess first (subset inFirst) second (subset inSecond) third (subset inThird)

end StrictWeakOrder

namespace StdSort

variable {less : α → α → Bool} {items sorted : List α}

theorem sort_eq (std : StdSort α) (order : StrictWeakOrder less items)
    (strict : sorted.Pairwise fun first second => less first second = true)
    (perm : sorted.Perm items) : std.sort less items = sorted :=
  (order.of_subset (std.perm less items).subset).eq_of_perm (std.ordered order) strict
    ((std.perm less items).trans perm.symm)

def insertion : StdSort α where
  sort less items := items.insertionSort fun first second => less second first = false
  perm _ items := List.perm_insertionSort _ items
  ordered := by
    intro less items order
    let below : {item // item ∈ items} → {item // item ∈ items} → Prop :=
      fun first second => less second.1 first.1 = false
    have total : Std.Total below := by
      refine ⟨fun first second => ?_⟩
      cases isLess : less second.1 first.1 with
      | false => exact .inl isLess
      | true => exact .inr (order.asymm _ second.2 _ first.2 isLess)
    have trans : IsTrans _ below :=
      ⟨fun first second third => order.trans_notLess _ first.2 _ second.2 _ third.2⟩
    have isMap : (items.attach.insertionSort below).map Subtype.val =
        items.insertionSort fun first second => less second first = false := by
      rw [List.map_insertionSort _ (fun first second => less second first = false) Subtype.val
        items.attach fun _ _ _ _ => Iff.rfl, List.attach_map_subtype_val]
    rw [← isMap]
    exact List.Pairwise.map _ (fun _ _ isBelow => isBelow)
      (List.pairwise_insertionSort below items.attach)

end StdSort

end Peridot
