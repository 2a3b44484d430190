import Mathlib.Data.List.Sort
import Mathlib.Data.Rat.Defs
import Peridot.LedgerKeys
import Peridot.Registry

/-!
# The modules of a story

The modules that run, by their paths, and the modules that anchor the views of others.
-/

namespace Peridot

open List Registry

inductive SurfaceArrangement where
  | none
  | copresent
  | sequential
deriving DecidableEq

inductive SurfaceDependency where
  | none
  | dependent
deriving DecidableEq

structure SurfaceRelation where
  arrangement : SurfaceArrangement
  dependency : SurfaceDependency
  emphasis : ℚ
deriving DecidableEq

/-- A `Connection`, which is kept by the path of its module. -/
structure Connection where
  moduleUrl : Bytes
  linkPath : LinkPath
  surfaceRelation : Option SurfaceRelation
deriving DecidableEq

abbrev Connections :=
  List (List Bytes × Connection)

def pathString (modulePath : List Bytes) : Bytes :=
  (ascii [':']).intercalate modulePath

namespace Connections

/-- The loop of `FindAnchor`: the closest module that is not embedded, from a path whose last name
is first. No connection has the empty path. -/
def anchorAbove (connections : Connections) : List Bytes → Option (List Bytes)
  | [] => none
  | name :: above =>
    match find connections (name :: above).reverse with
    | none => none
    | some connection =>
      if connection.surfaceRelation.isNone then connections.anchorAbove above
      else some (name :: above).reverse

/-- `FindAnchor` of the connection of a path. -/
def findAnchor (connections : Connections) (modulePath : List Bytes) : Option (List Bytes) :=
  if (find connections modulePath).isSome then
    connections.anchorAbove modulePath.reverse.tail
  else none

variable {connections others : Connections} {modulePath anchor names : List Bytes}
  {connection : Connection}

theorem isSome_of_anchorAbove (isAnchor : connections.anchorAbove names = some anchor) :
    (find connections anchor).isSome := by
  induction names with
  | nil => cases isAnchor
  | cons name above ih =>
    rw [anchorAbove] at isAnchor
    split at isAnchor
    · cases isAnchor
    · rename_i connection found
      split at isAnchor
      · exact ih isAnchor
      · cases isAnchor
        exact Option.isSome_of_mem found

theorem findAnchor_of_find (found : find connections modulePath = some connection) :
    connections.findAnchor modulePath = connections.anchorAbove modulePath.reverse.tail := by
  rw [findAnchor, found, if_pos Option.isSome_some]

section

variable
    (areLeft : ∀ path connection, find others path = some connection → find connections path = some connection)
include areLeft

theorem anchorAbove_mono (isAnchor : others.anchorAbove names = some anchor) :
    connections.anchorAbove names = some anchor := by
  induction names with
  | nil => cases isAnchor
  | cons name above ih =>
    rw [anchorAbove] at isAnchor ⊢
    cases found : find others (name :: above).reverse with
    | none =>
      rw [found] at isAnchor
      cases isAnchor
    | some connection =>
      rw [found] at isAnchor
      rw [areLeft _ _ found]
      simp only at isAnchor ⊢
      split at isAnchor
      · rename_i isEmbedded
        rw [if_pos isEmbedded]
        exact ih isAnchor
      · rename_i isShown
        rw [if_neg isShown]
        exact isAnchor

theorem findAnchor_mono (isAnchor : others.findAnchor modulePath = some anchor) :
    connections.findAnchor modulePath = some anchor := by
  cases found : find others modulePath with
  | none =>
    rw [findAnchor, found, if_neg (by decide)] at isAnchor
    cases isAnchor
  | some connection =>
    rw [findAnchor_of_find found] at isAnchor
    rw [findAnchor_of_find (areLeft _ _ found)]
    exact anchorAbove_mono areLeft isAnchor

end

theorem anchorAbove_add {added : List Bytes} {new : Connection}
    (isAdded : ∀ path, find others path =
      if path = added then some new else find connections path) (isAnchor : others.anchorAbove names = some anchor) :
    connections.anchorAbove names = some anchor ∨ anchor = added ∨
      (new.surfaceRelation = none ∧ added.reverse <:+ names ∧
        others.findAnchor added = some anchor) := by
  induction names with
  | nil => cases isAnchor
  | cons name above ih =>
    rw [anchorAbove, isAdded] at isAnchor
    rw [anchorAbove]
    by_cases isNew : (name :: above).reverse = added
    · rw [if_pos isNew] at isAnchor
      simp only at isAnchor
      split at isAnchor
      · rename_i isEmbedded
        have found : find others added = some new := by rw [isAdded, if_pos rfl]
        refine .inr (.inr ⟨Option.isNone_iff_eq_none.mp isEmbedded, ?_, ?_⟩)
        · rw [← isNew, reverse_reverse]
        · rw [findAnchor_of_find found, ← isNew, reverse_reverse]
          exact isAnchor
      · cases isAnchor
        exact .inr (.inl isNew)
    · rw [if_neg isNew] at isAnchor
      cases found : find connections (name :: above).reverse with
      | none =>
        rw [found] at isAnchor
        cases isAnchor
      | some connection =>
        rw [found] at isAnchor
        simp only at isAnchor ⊢
        split at isAnchor
        · rename_i isEmbedded
          rw [if_pos isEmbedded]
          rcases ih isAnchor with same | isAdded | ⟨embedded, isAbove, isOf⟩
          · exact .inl same
          · exact .inr (.inl isAdded)
          · exact .inr (.inr ⟨embedded, isAbove.trans (suffix_cons ..), isOf⟩)
        · rename_i isShown
          rw [if_neg isShown]
          exact .inl isAnchor

end Connections

/-- A path of a module whose names do not have the separator. -/
structure PlainPath (modulePath : List Bytes) : Prop where
  notEmpty : modulePath ≠ []
  noSeparator : ∀ name ∈ modulePath, (58 : UInt8) ∉ name

instance decidablePlainPath (modulePath : List Bytes) : Decidable (PlainPath modulePath) :=
  decidable_of_iff (modulePath ≠ [] ∧ ∀ name ∈ modulePath, (58 : UInt8) ∉ name)
    ⟨fun plain => ⟨plain.1, plain.2⟩, fun plain => ⟨plain.notEmpty, plain.noSeparator⟩⟩

theorem pathString_singleton (name : Bytes) : pathString [name] = name := by simp [pathString]

theorem pathString_cons_cons (name next : Bytes) (names : List Bytes) :
    pathString (name :: next :: names) = name ++ 58 :: pathString (next :: names) := by
  simp only [pathString, intercalate_cons_cons]
  exact (append_cons ..).symm

/-- Parts without a separator are determined by what is before and after the first one. -/
theorem append_separator_inj {first second rest other : Bytes} (notFirst : (58 : UInt8) ∉ first)
    (notSecond : (58 : UInt8) ∉ second) (same : first ++ 58 :: rest = second ++ 58 :: other) :
    first = second ∧ rest = other := by
  induction first generalizing second with
  | nil =>
    cases second with
    | nil => exact ⟨rfl, (cons.inj same).2⟩
    | cons letter second => exact absurd ((cons.inj same).1 ▸ mem_cons_self ..) notSecond
  | cons letter first ih =>
    cases second with
    | nil => exact absurd ((cons.inj same).1 ▸ mem_cons_self ..) notFirst
    | cons other second =>
      obtain ⟨rfl, sameRest⟩ := cons.inj same
      obtain ⟨rfl, isRest⟩ := ih (fun isMember => notFirst (mem_cons_of_mem _ isMember))
        (fun isMember => notSecond (mem_cons_of_mem _ isMember)) sameRest
      exact ⟨rfl, isRest⟩

theorem PlainPath.eq_of_pathString {first second : List Bytes} (isFirst : PlainPath first)
    (isSecond : PlainPath second) (same : pathString first = pathString second) :
    first = second := by
  obtain ⟨notEmpty, noSeparator⟩ := isFirst
  obtain ⟨notEmpty', noSeparator'⟩ := isSecond
  induction first generalizing second with
  | nil => exact absurd rfl notEmpty
  | cons name names ih =>
    cases second with
    | nil => exact absurd rfl notEmpty'
    | cons name' names' =>
      have plain := noSeparator name (mem_cons_self ..)
      have plain' := noSeparator' name' (mem_cons_self ..)
      cases names with
      | nil =>
        cases names' with
        | nil =>
          rw [pathString_singleton, pathString_singleton] at same
          rw [same]
        | cons next' names' =>
          rw [pathString_singleton, pathString_cons_cons] at same
          rw [same] at plain
          exact absurd (mem_append_right _ (mem_cons_self ..)) plain
      | cons next names =>
        cases names' with
        | nil =>
          rw [pathString_singleton, pathString_cons_cons] at same
          rw [← same] at plain'
          exact absurd (mem_append_right _ (mem_cons_self ..)) plain'
        | cons next' names' =>
          rw [pathString_cons_cons, pathString_cons_cons] at same
          obtain ⟨rfl, sameRest⟩ := append_separator_inj plain plain' same
          congr 1
          apply ih sameRest (cons_ne_nil _ _) _ (cons_ne_nil _ _) _
          · exact fun other isName => noSeparator other (mem_cons_of_mem _ isName)
          · exact fun other isName => noSeparator' other (mem_cons_of_mem _ isName)

end Peridot
