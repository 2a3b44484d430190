import Mathlib.Data.List.Basic
import Mathlib.Data.Nat.Init
import Mathlib.Logic.Function.Basic
import Mathlib.Order.Lattice

/-!
# Forests that grow and lose nodes

A forest whose nodes are numbered in the order in which they are added.  A node whose parent is
removed becomes a root.
-/

namespace Peridot

open Function List Option

/-- A forest of values.  Only stored nodes are linked, each below an older one. -/
structure Forest (α : Type*) where
  size : ℕ
  value : ℕ → Option α
  parent : ℕ → Option ℕ
  value_lt : ∀ {node}, (value node).isSome → node < size
  stored : ∀ {node up}, parent node = some up → (value node).isSome ∧ (value up).isSome
  parent_lt : ∀ {node up}, parent node = some up → up < node

namespace Forest

variable {α β : Type*}

def empty : Forest α where
  size := 0
  value _ := none
  parent _ := none
  value_lt := nofun
  stored := nofun
  parent_lt := nofun

theorem value_size (forest : Forest α) {node : ℕ} (large : forest.size ≤ node) :
    forest.value node = none := by
  by_contra some
  exact absurd (forest.value_lt (isSome_iff_ne_none.mpr some)) (Nat.not_lt.mpr large)

def add (forest : Forest α) (parent : Option ℕ) (value : α) : Forest α where
  size := forest.size + 1
  value := Function.update forest.value forest.size (some value)
  parent := Function.update forest.parent forest.size
    (parent.filter fun up => (forest.value up).isSome)
  value_lt := by
    intro node isSome
    by_cases same : node = forest.size
    · omega
    · rw [Function.update_of_ne same] at isSome
      exact Nat.lt_succ_of_lt (forest.value_lt isSome)
  stored := by
    intro node up isParent
    have upStored : (forest.value up).isSome := by
      by_cases same : node = forest.size
      · rw [same, Function.update_self, filter_eq_some_iff] at isParent
        exact isParent.2
      · rw [Function.update_of_ne same] at isParent
        exact (forest.stored isParent).2
    have upLt := forest.value_lt upStored
    refine ⟨?_, by rw [Function.update_of_ne (by omega)]; exact upStored⟩
    by_cases same : node = forest.size
    · simp [same]
    · rw [Function.update_of_ne same] at isParent ⊢
      exact (forest.stored isParent).1
  parent_lt := by
    intro node up isParent
    by_cases same : node = forest.size
    · rw [same, Function.update_self, filter_eq_some_iff] at isParent
      exact same ▸ forest.value_lt isParent.2
    · rw [Function.update_of_ne same] at isParent
      exact forest.parent_lt isParent

def set (forest : Forest α) (node : ℕ) (value : α) : Forest α where
  size := forest.size
  value := Function.update forest.value node ((forest.value node).map fun _ => value)
  parent := forest.parent
  value_lt := by
    intro other isSome
    by_cases same : other = node
    · subst same
      rw [Function.update_self, isSome_map] at isSome
      exact forest.value_lt isSome
    · rw [Function.update_of_ne same] at isSome
      exact forest.value_lt isSome
  stored := by
    have isSome_iff : ∀ other, (Function.update forest.value node
        ((forest.value node).map fun _ => value) other).isSome = (forest.value other).isSome := by
      intro other
      by_cases same : other = node
      · simp [same]
      · rw [Function.update_of_ne same]
    intro other up isParent
    rw [isSome_iff, isSome_iff]
    exact forest.stored isParent
  parent_lt := forest.parent_lt

def remove (forest : Forest α) (node : ℕ) : Forest α where
  size := forest.size
  value := Function.update forest.value node none
  parent other := if other = node then none else (forest.parent other).filter fun up => up ≠ node
  value_lt := by
    intro other isSome
    by_cases same : other = node
    · simp [same] at isSome
    · rw [Function.update_of_ne same] at isSome
      exact forest.value_lt isSome
  stored := by
    intro other up isParent
    by_cases same : other = node
    · simp [same] at isParent
    · rw [if_neg same, filter_eq_some_iff, decide_eq_true_eq] at isParent
      rw [Function.update_of_ne same, Function.update_of_ne isParent.2]
      exact forest.stored isParent.1
  parent_lt := by
    intro other up isParent
    by_cases same : other = node
    · simp [same] at isParent
    · rw [if_neg same, filter_eq_some_iff] at isParent
      exact forest.parent_lt isParent.1

/-- `Below forest up node`: `up` is an ancestor of `node`. -/
inductive Below (forest : Forest α) (up : ℕ) : ℕ → Prop
  | child {node : ℕ} (isParent : forest.parent node = some up) : Below forest up node
  | deeper {node middle : ℕ} (isParent : forest.parent node = some middle)
      (below : Below forest up middle) : Below forest up node

/-- The ancestors that are at most `height` links above, the topmost one first. -/
def climb (forest : Forest α) : ℕ → ℕ → List ℕ
  | 0, _ => []
  | height + 1, node =>
    match forest.parent node with
    | none => []
    | some up => forest.climb height up ++ [up]

def ancestors (forest : Forest α) (node : ℕ) : List ℕ :=
  forest.climb node node

variable {forest other : Forest α} {node up : ℕ}

/-- A node has fewer ancestors than there are older nodes. -/
theorem climb_eq_ancestors {height : ℕ} (enough : node ≤ height) :
    forest.climb height node = forest.ancestors node := by
  induction node using Nat.strong_induction_on generalizing height with
  | _ node ih =>
    cases isParent : forest.parent node with
    | none => cases height <;> cases node <;> simp [climb, ancestors, isParent]
    | some up =>
      have upLt := forest.parent_lt isParent
      obtain ⟨height, rfl⟩ : ∃ rest, height = rest + 1 := ⟨height - 1, by omega⟩
      obtain ⟨before, rfl⟩ : ∃ rest, node = rest + 1 := ⟨node - 1, by omega⟩
      simp only [climb, ancestors, isParent]
      rw [ih up upLt (by omega), ih up upLt (by omega)]

theorem ancestors_of_none (isRoot : forest.parent node = none) : forest.ancestors node = [] := by
  cases node <;> simp [ancestors, climb, isRoot]

theorem ancestors_of_some (isParent : forest.parent node = some up) :
    forest.ancestors node = forest.ancestors up ++ [up] := by
  have upLt := forest.parent_lt isParent
  obtain ⟨before, rfl⟩ : ∃ rest, node = rest + 1 := ⟨node - 1, by omega⟩
  rw [ancestors, climb, isParent]
  simp only [climb_eq_ancestors (show up ≤ before by omega)]

section

variable (below : forest.Below up node)
include below

theorem Below.lt : up < node := by
  induction below with
  | child isParent => exact forest.parent_lt isParent
  | deeper isParent _ ih => exact Nat.lt_trans ih (forest.parent_lt isParent)

theorem Below.node_isSome : (forest.value node).isSome := by
  cases below with
  | child isParent | deeper isParent _ => exact (forest.stored isParent).1

theorem Below.up_isSome : (forest.value up).isSome := by
  induction below with
  | child isParent => exact (forest.stored isParent).2
  | deeper _ _ ih => exact ih

end

theorem Below.trans {middle : ℕ} (first : forest.Below up middle)
    (second : forest.Below middle node) : forest.Below up node := by
  induction second with
  | child isParent => exact .deeper isParent first
  | deeper isParent _ ih => exact .deeper isParent ih

theorem mem_ancestors : up ∈ forest.ancestors node ↔ forest.Below up node := by
  induction node using Nat.strong_induction_on with
  | _ node ih =>
    cases isParent : forest.parent node with
    | none =>
      rw [ancestors_of_none isParent]
      refine ⟨nofun, fun below => ?_⟩
      cases below <;> simp_all
    | some middle =>
      rw [ancestors_of_some isParent, mem_append, ih middle (forest.parent_lt isParent),
        mem_singleton]
      constructor
      · rintro (below | rfl)
        · exact .deeper isParent below
        · exact .child isParent
      · intro below
        cases below with
        | child isChild => exact .inr (some.inj (isChild.symm.trans isParent))
        | deeper isChild below =>
          obtain rfl := some.inj (isChild.symm.trans isParent)
          exact .inl below

theorem ancestors_congr (same : ∀ above, above = node ∨ forest.Below above node →
    other.parent above = forest.parent above) : other.ancestors node = forest.ancestors node := by
  induction node using Nat.strong_induction_on with
  | _ node ih =>
    have sameHere := same node (.inl rfl)
    cases isParent : forest.parent node with
    | none => rw [ancestors_of_none isParent, ancestors_of_none (sameHere.trans isParent)]
    | some up =>
      rw [ancestors_of_some isParent, ancestors_of_some (sameHere.trans isParent)]
      refine congrArg (· ++ [up]) (ih up (forest.parent_lt isParent) ?_)
      rintro above (rfl | below)
      · exact same _ (.inr (.child isParent))
      · exact same _ (.inr (.deeper isParent below))

/-- The values of the ancestors of a node and its own, the topmost one first. -/
def lineage (forest : Forest α) (node : ℕ) : List α :=
  (forest.ancestors node ++ [node]).filterMap forest.value

def topmost (forest : Forest α) (field : α → Option β) (node : ℕ) : Option β :=
  (forest.lineage node).findSome? field

theorem lineage_congr (sameParent : ∀ above, above = node ∨ forest.Below above node →
      other.parent above = forest.parent above)
    (sameValue : ∀ above, above = node ∨ forest.Below above node →
      other.value above = forest.value above) : other.lineage node = forest.lineage node := by
  rw [lineage, lineage, ancestors_congr sameParent]
  apply filterMap_congr
  intro above member
  rw [mem_append, mem_ancestors, mem_singleton] at member
  exact sameValue above member.symm

theorem remove_of_none (isNone : forest.value node = none) : forest.remove node = forest := by
  have sameValue : (forest.remove node).value = forest.value := by simp [remove, ← isNone]
  have sameParent : (forest.remove node).parent = forest.parent := by
    funext other
    simp only [remove]
    cases isParent : forest.parent other with
    | none => simp
    | some up =>
      have isStored := forest.stored isParent
      have notChild : other ≠ node := by
        rintro rfl
        simp [isNone] at isStored
      have notUp : up ≠ node := by
        rintro rfl
        simp [isNone] at isStored
      simp [notChild, notUp]
  obtain ⟨size, value, parent, _, _, _⟩ := forest
  simp only [remove] at sameValue sameParent ⊢
  simp only [sameValue, sameParent]

theorem not_below_size : ¬ forest.Below forest.size node := by
  intro below
  exact absurd (forest.value_lt below.up_isSome) (Nat.lt_irrefl _)

theorem lineage_add (parent : Option ℕ) (value : α) (old : node ≠ forest.size) :
    (forest.add parent value).lineage node = forest.lineage node := by
  have notNew : ∀ above, above = node ∨ forest.Below above node → above ≠ forest.size := by
    rintro above (rfl | below) rfl
    · exact old rfl
    · exact not_below_size below
  apply lineage_congr
  · exact fun above isAbove => update_of_ne (notNew above isAbove) _ _
  · exact fun above isAbove => update_of_ne (notNew above isAbove) _ _

theorem lineage_set {changed : ℕ} (value : α) (other : node ≠ changed)
    (notBelow : ¬ forest.Below changed node) :
    (forest.set changed value).lineage node = forest.lineage node := by
  refine lineage_congr (fun _ _ => rfl) fun above isAbove => ?_
  refine update_of_ne ?_ _ _
  rintro rfl
  exact isAbove.elim (fun same => other same.symm) notBelow

theorem lineage_remove {removed : ℕ} (other : node ≠ removed)
    (notBelow : ¬ forest.Below removed node) :
    (forest.remove removed).lineage node = forest.lineage node := by
  have notRemoved : ∀ above, above = node ∨ forest.Below above node → above ≠ removed := by
    rintro above isAbove rfl
    exact isAbove.elim (fun same => other same.symm) notBelow
  refine lineage_congr (fun above isAbove => ?_) fun above isAbove =>
    update_of_ne (notRemoved above isAbove) _ _
  simp only [remove, if_neg (notRemoved above isAbove)]
  cases isParent : forest.parent above with
  | none => rfl
  | some up =>
    have isBelow : forest.Below up node := by
      rcases isAbove with rfl | below
      · exact .child isParent
      · exact .trans (.child isParent) below
    simp [notRemoved up (.inr isBelow)]

end Forest

end Peridot
