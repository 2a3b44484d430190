import Mathlib.Data.Finset.Option
import Mathlib.Data.List.Sort
import Mathlib.Order.Lattice.Nat
import Peridot.Forest

/-!
# The graph of context values

`ContextGraph` and its two walks.  On the graph of a forest they end, and give the ancestors and
the descendants of a value.
-/

namespace Peridot

open List Function Forest Option

variable {Id : Type} [LinearOrder Id]

/-- The ids of a set in the order of `std::set`. -/
def sortedIds (ids : Finset Id) : List Id :=
  Quot.liftOn ids.val (insertionSort (· ≤ ·)) fun first second perm =>
    (((perm_insertionSort _ first).trans perm).trans (perm_insertionSort _ second).symm).eq_of_pairwise'
      (pairwise_insertionSort _ first) (pairwise_insertionSort _ second)

@[simp]
theorem mem_sortedIds {ids : Finset Id} {node : Id} : node ∈ sortedIds ids ↔ node ∈ ids := by
  rcases ids with ⟨⟨ids⟩, nodup⟩
  exact mem_insertionSort _

theorem sortedIds_nodup (ids : Finset Id) : (sortedIds ids).Nodup := by
  rcases ids with ⟨⟨ids⟩, nodup⟩
  exact (perm_insertionSort _ ids).nodup_iff.mpr nodup

theorem sortedIds_pairwise (ids : Finset Id) : (sortedIds ids).Pairwise (· < ·) := by
  have sorted : (sortedIds ids).Pairwise (· ≤ ·) := by
    rcases ids with ⟨⟨ids⟩, nodup⟩
    exact pairwise_insertionSort _ ids
  exact (sorted.and (sortedIds_nodup ids)).imp fun both => both.1.lt_of_ne both.2

@[simp]
theorem sortedIds_empty : sortedIds (∅ : Finset Id) = [] :=
  rfl

@[simp]
theorem sortedIds_singleton (node : Id) : sortedIds {node} = [node] :=
  rfl

/-- `ContextGraph`, whose ids are strings.  Those of a repository are numbers. -/
structure ContextGraph (Id : Type) where
  parents : Id → Finset Id
  children : Id → Finset Id

namespace ContextGraph

def empty : ContextGraph Id :=
  ⟨fun _ => ∅, fun _ => ∅⟩

def addEdge (graph : ContextGraph Id) (source target : Id) : ContextGraph Id where
  parents := Function.update graph.parents target (insert source (graph.parents target))
  children := Function.update graph.children source (insert target (graph.children source))

def addParent (graph : ContextGraph Id) (parent : Option Id) (target : Id) : ContextGraph Id :=
  match parent with
  | none => graph
  | some source => graph.addEdge source target

def getParents (graph : ContextGraph Id) (id : Id) : Finset Id :=
  graph.parents id

def remove (graph : ContextGraph Id) (id : Id) : ContextGraph Id :=
  let children := fun parent =>
    if parent ∈ graph.getParents id then (graph.children parent).erase id
    else graph.children parent
  let parents := fun child =>
    if child ∈ children id then (graph.parents child).erase id else graph.parents child
  { parents := Function.update parents id ∅
    children := Function.update children id ∅ }

/-- The loop of `GetChildrenRecursive`; `fuel` bounds its rounds. -/
def childrenLoop (graph : ContextGraph Id) : ℕ → List Id → Finset Id → Option (Finset Id)
  | _, [], children => some children
  | 0, _ :: _, _ => none
  | fuel + 1, cur :: toVisit, children =>
    graph.childrenLoop fuel (sortedIds (graph.children cur) ++ toVisit)
      (children ∪ graph.children cur)

def getChildrenRecursive (graph : ContextGraph Id) (fuel : ℕ) (id : Id) : Option (Finset Id) :=
  graph.childrenLoop fuel [id] ∅

/-- The loop of `GetAncestors`; `fuel` bounds its rounds. -/
def ancestorsLoop (graph : ContextGraph Id) :
    ℕ → List Id → Finset Id → List Id → Option (List Id)
  | _, [], _, ancestors => some ancestors
  | 0, _ :: _, _, _ => none
  | fuel + 1, cur :: toVisit, visited, ancestors =>
    if cur ∈ visited then graph.ancestorsLoop fuel toVisit visited ancestors
    else graph.ancestorsLoop fuel (toVisit ++ sortedIds (graph.parents cur))
      (insert cur visited) (cur :: ancestors)

def getAncestors (graph : ContextGraph Id) (fuel : ℕ) (id : Id) : Option (List Id) :=
  graph.ancestorsLoop fuel (sortedIds (graph.parents id)) ∅ []

structure Represents {α : Type*} (graph : ContextGraph ℕ) (forest : Forest α) : Prop where
  parents : ∀ node, graph.parents node = (forest.parent node).toFinset
  children : ∀ node child, child ∈ graph.children node ↔ forest.parent child = some node

variable {α : Type*} {graph : ContextGraph ℕ} {forest : Forest α} {node : ℕ}

theorem Represents.empty : ContextGraph.empty.Represents (Forest.empty : Forest α) where
  parents _ := rfl
  children _ _ := ⟨nofun, nofun⟩

section

variable (represents : graph.Represents forest)
include represents

theorem Represents.not_mem_children (isNone : forest.value node = none) (up : ℕ) :
    node ∉ graph.children up := by
  intro member
  have isSome := (forest.stored ((represents.children up node).mp member)).1
  simp [isNone] at isSome

theorem Represents.parents_eq_empty (isNone : forest.value node = none) :
    graph.parents node = ∅ := by
  rw [represents.parents]
  cases isParent : forest.parent node with
  | none => rfl
  | some up =>
    have isSome := (forest.stored isParent).1
    simp [isNone] at isSome

theorem Represents.addRoot (value : α) : graph.Represents (forest.add none value) where
  parents node := by
    by_cases same : node = forest.size
    · subst same
      simp [Forest.add, represents.parents_eq_empty (forest.value_size (Nat.le_refl _))]
    · simp [Forest.add, update_of_ne same, represents.parents]
  children node child := by
    by_cases same : child = forest.size
    · subst same
      simp [Forest.add, represents.not_mem_children (forest.value_size (Nat.le_refl _))]
    · simp [Forest.add, update_of_ne same, represents.children]

theorem Represents.addEdge {parent : ℕ} (isStored : (forest.value parent).isSome) (value : α) :
    (graph.addEdge parent forest.size).Represents (forest.add (some parent) value) where
  parents node := by
    by_cases same : node = forest.size
    · subst same
      simp [Forest.add, ContextGraph.addEdge, isStored, Option.filter,
        represents.parents_eq_empty (forest.value_size (Nat.le_refl _))]
    · simp [Forest.add, ContextGraph.addEdge, update_of_ne same, represents.parents]
  children node child := by
    by_cases same : child = forest.size
    · subst same
      by_cases isParent : node = parent
      · simp [Forest.add, ContextGraph.addEdge, isStored, isParent]
      · simp [Forest.add, ContextGraph.addEdge, update_of_ne isParent,
          represents.not_mem_children (forest.value_size (Nat.le_refl _)), Ne.symm isParent]
    · by_cases isParent : node = parent
      · subst isParent
        simp [Forest.add, ContextGraph.addEdge, represents.children, same]
      · simp [Forest.add, ContextGraph.addEdge, update_of_ne same,
          update_of_ne isParent, represents.children]

theorem Represents.set (value : α) : graph.Represents (forest.set node value) :=
  ⟨represents.parents, represents.children⟩

theorem Represents.remove : (graph.remove node).Represents (forest.remove node) where
  parents other := by
    by_cases same : other = node
    · subst same
      simp [ContextGraph.remove, Forest.remove]
    · have child_iff : other ∈ (if node ∈ graph.getParents node then (graph.children node).erase node
          else graph.children node) ↔ forest.parent other = some node := by
        split <;> simp [represents.children, same]
      simp only [ContextGraph.remove, Forest.remove, update_of_ne same, if_neg same,
        child_iff, represents.parents]
      cases isParent : forest.parent other with
      | none => simp
      | some up =>
        by_cases removed : up = node
        · simp [removed, Option.filter]
        · simp [removed, Option.filter, some.injEq]
  children other child := by
    by_cases same : other = node
    · subst same
      simp [ContextGraph.remove, Forest.remove]
    · simp only [ContextGraph.remove, Forest.remove, update_of_ne same, getParents,
        represents.parents, mem_toFinset]
      by_cases removed : child = node
      · subst removed
        split
        · simp
        · rename_i notParent
          simpa [represents.children] using notParent
      · split <;> simp [represents.children, removed, same]

end

variable {fuel : ℕ}

theorem Represents.ancestorsLoop_eq (represents : graph.Represents forest)
    {visited : Finset ℕ} {found : List ℕ} (enough : node < fuel)
    (above : ∀ other ∈ visited, node < other) : graph.ancestorsLoop fuel [node] visited found =
      some (forest.ancestors node ++ node :: found) := by
  induction node using Nat.strong_induction_on generalizing fuel visited found with
  | _ node ih =>
    obtain ⟨fuel, rfl⟩ : ∃ rest, fuel = rest + 1 := ⟨fuel - 1, by omega⟩
    have notVisited : node ∉ visited := fun member => Nat.lt_irrefl _ (above node member)
    rw [ancestorsLoop, if_neg notVisited, nil_append, represents.parents]
    cases isParent : forest.parent node with
    | none => simp [ancestorsLoop, ancestors_of_none isParent]
    | some up =>
      have upLt := forest.parent_lt isParent
      simp only [toFinset_some, sortedIds_singleton]
      rw [ih up upLt (by omega), ancestors_of_some isParent]
      · simp
      · intro other member
        rcases Finset.mem_insert.mp member with rfl | member
        · exact upLt
        · exact Nat.lt_trans upLt (above other member)

theorem Represents.getAncestors_eq (represents : graph.Represents forest)
    (enough : node ≤ fuel) : graph.getAncestors fuel node = some (forest.ancestors node) := by
  rw [getAncestors, represents.parents]
  cases isParent : forest.parent node with
  | none => cases fuel <;> simp [ancestorsLoop, ancestors_of_none isParent]
  | some up =>
    simp only [toFinset_some, sortedIds_singleton]
    rw [represents.ancestorsLoop_eq (Nat.lt_of_lt_of_le (forest.parent_lt isParent) enough)
      (by simp), ancestors_of_some isParent]

/-- What holds at the head of the loop of `GetChildrenRecursive` that has begun at `root`, when the
ids in `visited` have been taken from the list. -/
structure ChildrenWalk (forest : Forest α) (root : ℕ) (visited toVisit : List ℕ)
    (children : Finset ℕ) : Prop where
  nodup : (visited ++ toVisit).Nodup
  from_root : ∀ node ∈ visited ++ toVisit, node = root ∨ forest.Below root node
  found : ∀ node, node ∈ children ↔ ∃ up ∈ visited, forest.parent node = some up
  covered : ∀ node ∈ visited ++ toVisit, node = root ∨ node ∈ children
  pending : ∀ node ∈ children, node ∈ visited ++ toVisit
  root_mem : root ∈ visited ++ toVisit

theorem ChildrenWalk.start (root : ℕ) : ChildrenWalk forest root [] [root] ∅ := by
  constructor <;> simp

variable {root : ℕ} {visited toVisit : List ℕ} {children : Finset ℕ}

theorem ChildrenWalk.next (represents : graph.Represents forest) {cur : ℕ}
    (walk : ChildrenWalk forest root visited (cur :: toVisit) children) :
    ChildrenWalk forest root (visited ++ [cur])
      (sortedIds (graph.children cur) ++ toVisit) (children ∪ graph.children cur) := by
  have curFrom := walk.from_root cur (by simp)
  have curNew : cur ∉ visited := by
    intro member
    have nodup := walk.nodup
    rw [nodup_append] at nodup
    exact nodup.2.2 cur member cur (.head _) rfl
  have childFrom : ∀ node ∈ graph.children cur, forest.Below root node := by
    intro node member
    have isParent := (represents.children cur node).mp member
    rcases curFrom with rfl | below
    · exact .child isParent
    · exact .deeper isParent below
  have childNew : ∀ node ∈ graph.children cur, node ∉ visited ++ cur :: toVisit := by
    intro node member old
    rcases walk.covered node old with rfl | isFound
    · exact Nat.lt_irrefl _ (childFrom node member).lt
    · obtain ⟨up, upVisited, isParent⟩ := (walk.found node).mp isFound
      obtain rfl := some.inj (isParent.symm.trans ((represents.children cur node).mp member))
      exact curNew upVisited
  have mem_iff : ∀ node, node ∈ visited ++ [cur] ++ (sortedIds (graph.children cur) ++ toVisit) ↔
      node ∈ visited ++ cur :: toVisit ∨ node ∈ graph.children cur := by
    intro node
    simp only [mem_append, mem_sortedIds, mem_cons]
    tauto
  refine ⟨?_, ?_, ?_, ?_, ?_, ?_⟩
  · have perm : (visited ++ [cur] ++ (sortedIds (graph.children cur) ++ toVisit)).Perm
        (sortedIds (graph.children cur) ++ (visited ++ cur :: toVisit)) := by
      rw [← append_assoc, ← append_assoc]
      refine (perm_append_comm.append_right _).trans ?_
      simp
    rw [perm.nodup_iff, nodup_append]
    refine ⟨sortedIds_nodup _, walk.nodup, ?_⟩
    rintro node member other otherMember rfl
    exact childNew node (mem_sortedIds.mp member) otherMember
  · intro node member
    rcases (mem_iff node).mp member with old | isChild
    · exact walk.from_root node old
    · exact .inr (childFrom node isChild)
  · intro node
    rw [Finset.mem_union, walk.found, represents.children]
    simp only [mem_append]
    constructor
    · rintro (⟨up, member, isParent⟩ | isParent)
      · exact ⟨up, .inl member, isParent⟩
      · exact ⟨cur, .inr (.head _), isParent⟩
    · rintro ⟨up, member | member, isParent⟩
      · exact .inl ⟨up, member, isParent⟩
      · obtain rfl := mem_singleton.mp member
        exact .inr isParent
  · intro node member
    rcases (mem_iff node).mp member with old | isChild
    · exact (walk.covered node old).imp_right fun found => Finset.mem_union_left _ found
    · exact .inr (Finset.mem_union_right _ isChild)
  · intro node member
    rw [mem_iff]
    exact (Finset.mem_union.mp member).imp_left (walk.pending node)
  · exact (mem_iff root).mpr (.inl walk.root_mem)

theorem ChildrenWalk.finish (walk : ChildrenWalk forest root visited [] children) :
    node ∈ children ↔ forest.Below root node := by
  rw [walk.found]
  constructor
  · rintro ⟨up, member, isParent⟩
    rcases walk.from_root up (by simpa using member) with rfl | below
    · exact .child isParent
    · exact .deeper isParent below
  · intro below
    have visitedBelow : ∀ other, forest.Below root other → other ∈ visited := by
      intro other below
      induction below with
      | child isParent => simpa using walk.pending _ ((walk.found _).mpr
          ⟨root, by simpa using walk.root_mem, isParent⟩)
      | deeper isParent _ ih => simpa using walk.pending _ ((walk.found _).mpr ⟨_, ih, isParent⟩)
    cases below with
    | child isParent => exact ⟨root, by simpa using walk.root_mem, isParent⟩
    | deeper isParent below => exact ⟨_, visitedBelow _ below, isParent⟩

theorem Represents.childrenLoop_isSome (represents : graph.Represents forest)
    (walk : ChildrenWalk forest root visited toVisit children)
    (bounded : root < forest.size) (enough : forest.size ≤ visited.length + fuel) :
    ∃ found, graph.childrenLoop fuel toVisit children = some found ∧
      ∀ node, node ∈ found ↔ forest.Below root node := by
  induction fuel generalizing visited toVisit children with
  | zero =>
    cases toVisit with
    | nil => exact ⟨children, rfl, fun node => walk.finish⟩
    | cons cur toVisit =>
      have small : ∀ node ∈ visited ++ cur :: toVisit, node < forest.size := by
        intro node member
        rcases walk.from_root node member with rfl | below
        · exact bounded
        · exact forest.value_lt below.node_isSome
      have short := (subperm_of_subset walk.nodup fun node member =>
        mem_range.mpr (small node member)).length_le
      simp only [length_append, length_cons, length_range] at short
      omega
  | succ fuel ih =>
    cases toVisit with
    | nil => exact ⟨children, rfl, fun node => walk.finish⟩
    | cons cur toVisit => exact ih (walk.next represents) (by simp; omega)

theorem Represents.getChildrenRecursive_eq (represents : graph.Represents forest)
    (isStored : (forest.value node).isSome) (enough : forest.size ≤ fuel) :
    ∃ found, graph.getChildrenRecursive fuel node = some found ∧
      ∀ other, other ∈ found ↔ forest.Below node other :=
  represents.childrenLoop_isSome (.start node) (forest.value_lt isStored) (by simpa using enough)

end ContextGraph

end Peridot
