import Peridot.MergeContents
import Peridot.PageDb

/-!
# The graph of commits

A commit is named by a hash of all it holds, its parents included: all devices see parts of
one graph.
-/

namespace Peridot

structure CommitGraph where
  parents : CommitId → List CommitId
  generation : CommitId → Nat
  /-- `FromContentAndParents` gives a commit a larger generation than its parents have. -/
  generation_lt : ∀ {commit parent}, parent ∈ parents commit →
    generation parent < generation commit
  timestamp : CommitId → Int64
  contents : CommitId → Contents

namespace CommitGraph

variable (graph : CommitGraph)

def Ancestor : CommitId → CommitId → Prop :=
  Relation.ReflTransGen fun parent commit => parent ∈ graph.parents commit

/-- One commit is reached from the other by one step to a parent or more. -/
def StrictAncestor : CommitId → CommitId → Prop :=
  Relation.TransGen fun parent commit => parent ∈ graph.parents commit

variable {graph} {first second third : CommitId}

theorem Ancestor.refl (commit : CommitId) : graph.Ancestor commit commit :=
  Relation.ReflTransGen.refl

theorem Ancestor.trans (ancestor : graph.Ancestor first second)
    (next : graph.Ancestor second third) : graph.Ancestor first third :=
  Relation.ReflTransGen.trans ancestor next

theorem StrictAncestor.of_parent (isParent : first ∈ graph.parents second) :
    graph.StrictAncestor first second :=
  Relation.TransGen.single isParent

theorem StrictAncestor.generation_lt (strict : graph.StrictAncestor first second) :
    graph.generation first < graph.generation second := by
  induction strict with
  | single isParent => exact graph.generation_lt isParent
  | tail _ isParent ih => exact ih.trans (graph.generation_lt isParent)

theorem StrictAncestor.ancestor (strict : graph.StrictAncestor first second) :
    graph.Ancestor first second :=
  Relation.TransGen.to_reflTransGen strict

theorem StrictAncestor.irrefl (strict : graph.StrictAncestor first first) : False :=
  lt_irrefl _ strict.generation_lt

theorem StrictAncestor.asymm (strict : graph.StrictAncestor first second)
    (other : graph.StrictAncestor second first) : False :=
  lt_asymm strict.generation_lt other.generation_lt

end CommitGraph

end Peridot
