import Mathlib.Data.List.Perm.Basic
import Mathlib.Data.List.Flatten

/-!
# Taking nodes in an order in which they are ready

A node is ready when all that it needs is done.  A turn goes through a list of nodes,
takes those that are ready when they are reached and leaves the others.  Turns are repeated
as long as they take a node.  All nodes are taken if and only if they have an order in which
each of them is ready.
-/

namespace Peridot

open List

namespace ReadyOrder

variable {ι ν : Type} (id : ν → ι) (needs : ν → List ι) (stored : ι → Prop)

def InOrder : List ι → List ν → Prop
  | _, [] => True
  | added, node :: nodes =>
    (∀ need ∈ needs node, need ∈ added ∨ stored need) ∧ InOrder (id node :: added) nodes

def done (added : List ι) (nodes : List ν) : List ι :=
  nodes.foldl (fun added node => id node :: added) added

section Done

variable {id needs stored} {added : List ι}

theorem done_cons (added : List ι) (node : ν) (nodes : List ν) :
    done id added (node :: nodes) = done id (id node :: added) nodes :=
  rfl

theorem done_append (first second : List ν) :
    done id added (first ++ second) = done id (done id added first) second :=
  foldl_append ..

theorem mem_done {nodes : List ν} {i : ι} :
    i ∈ done id added nodes ↔ i ∈ added ∨ ∃ node ∈ nodes, id node = i := by
  induction nodes generalizing added with
  | nil => simp [done]
  | cons node nodes ih =>
    rw [done_cons, ih, mem_cons, exists_mem_cons_iff]
    grind

theorem inOrder_append {first second : List ν} : InOrder id needs stored added (first ++ second) ↔
    InOrder id needs stored added first ∧ InOrder id needs stored (done id added first) second := by
  induction first generalizing added with
  | nil => simp [InOrder, done]
  | cons node nodes ih => rw [cons_append, InOrder, InOrder, ih, done_cons, and_assoc]

variable {nodes : List ν} (inOrder : InOrder id needs stored added nodes)
include inOrder

theorem InOrder.earlier {before after : List ν} {node : ν} (splits : nodes = before ++ node :: after)
    {need : ι} (isNeed : need ∈ needs node) :
    stored need ∨ need ∈ added ∨ ∃ earlier ∈ before, id earlier = need := by
  rw [splits, inOrder_append] at inOrder
  rcases inOrder.2.1 need isNeed with isDone | isStored
  · exact .inr (mem_done.mp isDone)
  · exact .inl isStored

theorem InOrder.map {κ : Type} {otherId : κ → ι} {otherNeeds : κ → List ι} {otherStored : ι → Prop}
    {otherAdded : List ι} (f : ν → κ) (sameId : ∀ node ∈ nodes, otherId (f node) = id node)
    (sameNeeds : ∀ node ∈ nodes, otherNeeds (f node) = needs node)
    (more : ∀ i, i ∈ added ∨ stored i → i ∈ otherAdded ∨ otherStored i) :
    InOrder otherId otherNeeds otherStored otherAdded (nodes.map f) := by
  induction nodes generalizing added otherAdded with
  | nil => trivial
  | cons node nodes ih =>
    rw [forall_mem_cons] at sameId sameNeeds
    refine ⟨?_, ih inOrder.2 sameId.2 sameNeeds.2 ?_⟩
    · rw [sameNeeds.1]
      exact fun need isNeed => more need (inOrder.1 need isNeed)
    · intro i isDone
      rw [sameId.1, mem_cons, or_assoc]
      rw [mem_cons, or_assoc] at isDone
      exact isDone.imp_right (more i)

end Done

/-- In an order what a node needs comes before its first place. -/
theorem InOrder.idxOf_lt [BEq ι] [LawfulBEq ι] {needs : ι → List ι} {stored : ι → Prop} {order : List ι}
    (inOrder : InOrder (fun i => i) needs stored [] order) {i need : ι} (member : i ∈ order)
    (isNeed : need ∈ needs i) (notStored : ¬stored need) : order.idxOf need < order.idxOf i := by
  obtain ⟨before, after, rfl, notBefore⟩ := eq_append_cons_of_mem member
  obtain ⟨-, ready, -⟩ := inOrder_append.mp inOrder
  obtain ⟨earlier, inBefore, rfl⟩ :=
    (mem_done.mp ((ready need isNeed).resolve_right notStored)).resolve_left not_mem_nil
  rw [idxOf_append_of_mem inBefore, idxOf_append_of_notMem notBefore, idxOf_cons_self, Nat.add_zero]
  exact idxOf_lt_length_iff.mpr inBefore

variable [DecidableEq ι] [DecidablePred stored]

instance decidableInOrder : (added : List ι) → (nodes : List ν) →
    Decidable (InOrder id needs stored added nodes)
  | _, [] => isTrue trivial
  | added, node :: nodes =>
    have := decidableInOrder (id node :: added) nodes
    inferInstanceAs (Decidable (_ ∧ _))

def turn : List ι → List ν → List ν × List ν
  | _, [] => ([], [])
  | added, node :: nodes =>
    if ∀ need ∈ needs node, need ∈ added ∨ stored need then
      let rest := turn (id node :: added) nodes
      (node :: rest.1, rest.2)
    else
      let rest := turn added nodes
      (rest.1, node :: rest.2)

/-- The nodes that each turn takes, and those that are left in the end. -/
def turns : Nat → List ι → List ν → List (List ν) × List ν
  | 0, _, nodes => ([], nodes)
  | fuel + 1, added, nodes =>
    let first := turn id needs stored added nodes
    if first.1 = [] then ([], first.2)
    else
      let rest := turns fuel (done id added first.1) first.2
      (first.1 :: rest.1, rest.2)

theorem turn_perm (added : List ι) (nodes : List ν) :
    ((turn id needs stored added nodes).1 ++ (turn id needs stored added nodes).2).Perm nodes := by
  induction nodes generalizing added with
  | nil => exact .refl _
  | cons node nodes ih =>
    rw [turn]
    split
    · exact (ih _).cons node
    · exact perm_middle.trans ((ih _).cons node)

theorem turn_inOrder (added : List ι) (nodes : List ν) :
    InOrder id needs stored added (turn id needs stored added nodes).1 := by
  induction nodes generalizing added with
  | nil => trivial
  | cons node nodes ih =>
    rw [turn]
    split
    case isTrue ready => exact ⟨ready, ih _⟩
    case isFalse => exact ih _

variable {id needs stored} {added : List ι} {nodes : List ν}

theorem turn_stuck (takesNone : (turn id needs stored added nodes).1 = []) :
    (turn id needs stored added nodes).2 = nodes ∧
      ∀ node ∈ nodes, ¬∀ need ∈ needs node, need ∈ added ∨ stored need := by
  induction nodes with
  | nil => simp [turn]
  | cons node nodes ih =>
    rw [turn] at takesNone ⊢
    by_cases ready : ∀ need ∈ needs node, need ∈ added ∨ stored need
    · rw [if_pos ready] at takesNone
      exact absurd takesNone (cons_ne_nil _ _)
    · rw [if_neg ready] at takesNone ⊢
      obtain ⟨same, stuck⟩ := ih takesNone
      exact ⟨congrArg _ same, forall_mem_cons.mpr ⟨ready, stuck⟩⟩

theorem turn_of_inOrder (inOrder : InOrder id needs stored added nodes) :
    turn id needs stored added nodes = (nodes, []) := by
  induction nodes generalizing added with
  | nil => rfl
  | cons node nodes ih => rw [turn, if_pos inOrder.1, ih inOrder.2]

theorem turns_nil (fuel : Nat) (added : List ι) :
    turns id needs stored fuel added [] = ([], []) := by
  cases fuel <;> rfl

theorem mem_turns_of_inOrder {fuel : Nat} (inOrder : InOrder id needs stored added nodes)
    {turn : List ν} (isTurn : turn ∈ (turns id needs stored fuel added nodes).1) : turn = nodes := by
  cases fuel with
  | zero => exact absurd isTurn not_mem_nil
  | succ fuel =>
    rw [turns, turn_of_inOrder inOrder] at isTurn
    split at isTurn
    · exact absurd isTurn not_mem_nil
    · rw [turns_nil] at isTurn
      exact mem_singleton.mp isTurn

section

variable (id needs stored)

theorem turns_perm (fuel : Nat) (added : List ι) (nodes : List ν) :
    ((turns id needs stored fuel added nodes).1.flatten ++
      (turns id needs stored fuel added nodes).2).Perm nodes := by
  induction fuel generalizing added nodes with
  | zero => exact .refl _
  | succ fuel ih =>
    have first := turn_perm id needs stored added nodes
    rw [turns]
    split
    case isTrue takesNone => rwa [takesNone] at first
    case isFalse =>
      rw [flatten_cons, append_assoc]
      exact ((ih _ _).append_left _).trans first

theorem turns_inOrder (fuel : Nat) (added : List ι) (nodes : List ν) :
    InOrder id needs stored added (turns id needs stored fuel added nodes).1.flatten := by
  induction fuel generalizing added nodes with
  | zero => trivial
  | succ fuel ih =>
    rw [turns]
    split
    · trivial
    · rw [flatten_cons, inOrder_append]
      exact ⟨turn_inOrder id needs stored added nodes, ih _ _⟩

end

variable {fuel : Nat} (enough : nodes.length ≤ fuel)
include enough

theorem turns_stuck : ∀ node ∈ (turns id needs stored fuel added nodes).2, ¬∀ need ∈ needs node,
    need ∈ done id added (turns id needs stored fuel added nodes).1.flatten ∨ stored need := by
  induction fuel generalizing added nodes with
  | zero =>
    rw [eq_nil_of_length_eq_zero (Nat.le_zero.mp enough)]
    simp [turns]
  | succ fuel ih =>
    rw [turns]
    split
    case isTrue takesNone =>
      rw [(turn_stuck takesNone).1]
      exact (turn_stuck takesNone).2
    case isFalse takesSome =>
      have total := (turn_perm id needs stored added nodes).length_eq
      rw [length_append] at total
      have some := length_pos_iff.mpr takesSome
      rw [flatten_cons, done_append]
      exact ih (by omega)

theorem done_of_inOrder {order : List ν} {reached : List ι} (inOrder : InOrder id needs stored reached order)
    (members : ∀ node ∈ order, node ∈ nodes) (subset : ∀ i ∈ reached,
      i ∈ done id added (turns id needs stored fuel added nodes).1.flatten) :
    ∀ node ∈ order, node ∉ (turns id needs stored fuel added nodes).2 := by
  induction order generalizing reached with
  | nil => simp
  | cons node order ih =>
    have ready : ∀ need ∈ needs node, need ∈
        done id added (turns id needs stored fuel added nodes).1.flatten ∨ stored need :=
      fun need isNeed => (inOrder.1 need isNeed).imp_left (subset need)
    have notLeft : node ∉ (turns id needs stored fuel added nodes).2 := fun left =>
      turns_stuck enough node left ready
    have taken : node ∈ (turns id needs stored fuel added nodes).1.flatten := by
      have member := (turns_perm id needs stored fuel added nodes).mem_iff.mpr (members node mem_cons_self)
      exact (mem_append.mp member).resolve_right notLeft
    refine forall_mem_cons.mpr ⟨notLeft, ih inOrder.2
      (fun later member => members later (mem_cons_of_mem _ member)) ?_⟩
    exact forall_mem_cons.mpr ⟨mem_done.mpr (.inr ⟨node, taken, rfl⟩), subset⟩

/-- The turns take all nodes if and only if these can be put in order. -/
theorem turns_complete : (turns id needs stored fuel added nodes).2 = [] ↔
    ∃ order, order.Perm nodes ∧ InOrder id needs stored added order := by
  constructor
  · intro noneLeft
    have perm := turns_perm id needs stored fuel added nodes
    rw [noneLeft, append_nil] at perm
    exact ⟨_, perm, turns_inOrder id needs stored fuel added nodes⟩
  · rintro ⟨order, perm, inOrder⟩
    refine eq_nil_iff_forall_not_mem.mpr fun node left => ?_
    have member : node ∈ nodes :=
      (turns_perm id needs stored fuel added nodes).mem_iff.mp (mem_append_right _ left)
    exact done_of_inOrder enough inOrder (fun node => perm.mem_iff.mp)
      (fun i isAdded => mem_done.mpr (.inl isAdded)) node (perm.mem_iff.mpr member) left

end ReadyOrder

end Peridot
