import Mathlib.Data.Finset.Card
import Mathlib.Data.Prod.Lex
import Mathlib.Logic.Relation
import Peridot.ContextGraph
import Peridot.KeyOrder

/-!
# Walks in any graph of context values

`ContextGraph` is meant for nodes with several parents.  In an acyclic graph both walks end, and
give the descendants and the ancestors.  The walk to the ancestors takes the shorter paths first,
and paths of one length in the order of their ids.
-/

namespace Peridot

open List Relation Function TransGen

inductive GraphEdit (Id : Type) where
  | addEdge (source target : Id)
  | remove (id : Id)

namespace ContextGraph

variable {Id : Type} [LinearOrder Id]

def edit (graph : ContextGraph Id) : GraphEdit Id → ContextGraph Id
  | .addEdge source target => graph.addEdge source target
  | .remove id => graph.remove id

def build (edits : List (GraphEdit Id)) : ContextGraph Id :=
  edits.foldl edit empty

variable (graph : ContextGraph Id)

/-- The first id is a strict ancestor of the second one. -/
def Above : Id → Id → Prop :=
  TransGen fun up down => up ∈ graph.parents down

/-- No node is above itself. -/
def Acyclic : Prop :=
  ∀ id, ¬graph.Above id id

/-- A way up from `id`, as the list of the ids on it. -/
inductive PathUp (id : Id) : List Id → Id → Prop where
  | start : PathUp id [] id
  | up {path : List Id} {down up : Id} (isPath : PathUp id path down)
      (isParent : up ∈ graph.parents down) : PathUp id (path ++ [up]) up

/-- Shorter paths come first, and then the order is lexicographic. -/
def pathRank (path : List Id) : ℕ ×ₗ List Id :=
  toLex (path.length, path)

/-- Each path to an ancestor comes behind one to its child. -/
def ChildrenFirst (id : Id) : Prop :=
  ∀ up down, up ∈ graph.parents down → graph.Above down id → ∀ path, graph.PathUp id path up →
    ∃ sooner, graph.PathUp id sooner down ∧ pathRank sooner < pathRank path

structure Built (graph : ContextGraph Id) : Prop where
  inverse : ∀ up down, up ∈ graph.parents down ↔ down ∈ graph.children up
  finite : ∃ ids : Finset Id, ∀ up down, up ∈ graph.parents down → up ∈ ids ∧ down ∈ ids

variable {graph} {second first : List Id}

theorem Built.addEdge (built : graph.Built) (source target : Id) :
    (graph.addEdge source target).Built where
  inverse up down := by
    by_cases isTarget : down = target <;> by_cases isSource : up = source <;>
      simp [ContextGraph.addEdge, isTarget, isSource, built.inverse]
  finite := by
    obtain ⟨ids, isId⟩ := built.finite
    refine ⟨insert source (insert target ids), fun up down isParent => ?_⟩
    by_cases isTarget : down = target
    · simp only [ContextGraph.addEdge, isTarget, update_self, Finset.mem_insert] at isParent
      rcases isParent with rfl | isParent
      · simp [isTarget]
      · simp [isTarget, (isId up target isParent).1]
    · simp only [ContextGraph.addEdge, update_of_ne isTarget] at isParent
      simp [isId up down isParent]

section

variable (built : graph.Built) (id up down : Id)
include built

theorem Built.mem_children :
    down ∈ (if up ∈ graph.getParents id then (graph.children up).erase id else graph.children up) ↔
      down ≠ id ∧ up ∈ graph.parents down := by
  by_cases isParent : up ∈ graph.getParents id
  · simp [isParent, built.inverse]
  · rw [if_neg isParent, ← built.inverse, iff_and_self]
    rintro isOther rfl
    exact isParent isOther

theorem Built.mem_parents_remove : up ∈ (graph.remove id).parents down ↔
    up ≠ id ∧ down ≠ id ∧ up ∈ graph.parents down := by
  by_cases isId : down = id
  · simp [remove, isId]
  · simp only [remove, update_of_ne isId]
    by_cases isChild : id ∈ graph.parents down
    · rw [if_pos ((built.mem_children id id down).mpr ⟨isId, isChild⟩)]
      simp [isId]
    · rw [if_neg fun found => isChild ((built.mem_children id id down).mp found).2]
      simp only [ne_eq, isId, not_false_eq_true, true_and, iff_and_self]
      rintro isOther rfl
      exact isChild isOther

end

theorem Built.remove (built : graph.Built) (id : Id) : (graph.remove id).Built where
  inverse up down := by
    rw [built.mem_parents_remove]
    by_cases isId : up = id
    · simp [ContextGraph.remove, isId]
    · simp only [ContextGraph.remove, update_of_ne isId, built.mem_children]
      simp [isId]
  finite := by
    obtain ⟨ids, isId⟩ := built.finite
    exact ⟨ids, fun up down isParent =>
      isId up down ((built.mem_parents_remove id up down).mp isParent).2.2⟩

/-- Every edge of the graph has been added. -/
theorem built_build (edits : List (GraphEdit Id)) : (build edits).Built ∧
    ∀ up down, up ∈ (build edits).parents down → .addEdge up down ∈ edits := by
  induction edits using reverseRecOn with
  | nil => exact ⟨⟨fun _ _ => by simp [build, empty], ∅, nofun⟩, nofun⟩
  | append_singleton edits change ih =>
    obtain ⟨built, added⟩ := ih
    rw [build, foldl_concat, ← build]
    cases change with
    | addEdge source target =>
      refine ⟨built.addEdge source target, fun up down isParent => mem_append.mpr ?_⟩
      by_cases isNew : up = source ∧ down = target
      · exact .inr (by simp [isNew])
      · refine .inl (added up down ?_)
        by_cases isTarget : down = target
        · simpa [edit, addEdge, isTarget, show up ≠ source from fun isSource =>
            isNew ⟨isSource, isTarget⟩] using isParent
        · simpa [edit, addEdge, isTarget] using isParent
    | remove id => exact ⟨built.remove id, fun up down isParent => mem_append_left _
        (added up down ((built.mem_parents_remove id up down).mp isParent).2.2)⟩

/-- A node is taken from the list with all of its descendants. -/
def Walked (graph : ContextGraph Id) (nodes : List Id) : Prop :=
  ∃ rounds found, (∀ other, other ∈ found ↔ ∃ node ∈ nodes, graph.Above node other) ∧
    ∀ fuel toVisit children, graph.childrenLoop (fuel + rounds) (nodes ++ toVisit) children =
      graph.childrenLoop fuel toVisit (children ∪ found)

theorem Walked.of_each {nodes : List Id} (each : ∀ node ∈ nodes, graph.Walked [node]) :
    graph.Walked nodes := by
  induction nodes with
  | nil => exact ⟨0, ∅, by simp, by simp⟩
  | cons node nodes ih =>
    obtain ⟨rounds, found, isFound, walks⟩ := each node (.head _)
    obtain ⟨restRounds, rest, isRest, restWalks⟩ := ih fun other isNode => each other (.tail _ isNode)
    refine ⟨restRounds + rounds, found ∪ rest, fun other => ?_, fun fuel toVisit children => ?_⟩
    · rw [Finset.mem_union, isFound, isRest]
      simp
    · rw [← Nat.add_assoc, cons_append, ← singleton_append, walks, restWalks, Finset.union_assoc]

theorem Built.walked (built : graph.Built) (acyclic : graph.Acyclic) (node : Id) :
    graph.Walked [node] := by
  classical
  obtain ⟨ids, isId⟩ := built.finite
  -- a child has fewer descendants
  induction size : (ids.filter (graph.Above node)).card using Nat.strong_induction_on
    generalizing node with
  | _ size ih =>
    have walked : graph.Walked (sortedIds (graph.children node)) := .of_each fun child isChild => by
      have isParent := (built.inverse node child).mpr (mem_sortedIds.mp isChild)
      refine ih _ (size ▸ Finset.card_lt_card (Finset.ssubset_iff_of_subset ?_ |>.mpr ?_)) child rfl
      · exact Finset.monotone_filter_right _ fun other _ below => .head isParent below
      · refine ⟨child, Finset.mem_filter.mpr ⟨(isId node child isParent).2, .single isParent⟩, ?_⟩
        exact fun isBelow => acyclic child (Finset.mem_filter.mp isBelow).2
    obtain ⟨rounds, found, isFound, walks⟩ := walked
    refine ⟨rounds + 1, graph.children node ∪ found, fun other => ?_, fun fuel toVisit children => ?_⟩
    · rw [Finset.mem_union, isFound, ← built.inverse]
      simp only [mem_sortedIds, ← built.inverse, mem_singleton, exists_eq_left]
      constructor
      · rintro (isChild | ⟨child, isChild, isBelow⟩)
        · exact .single isChild
        · exact .head isChild isBelow
      · intro isBelow
        obtain ⟨child, isChild, below⟩ := head'_iff.mp isBelow
        rcases reflTransGen_iff_eq_or_transGen.mp below with rfl | isBelow
        · exact .inl isChild
        · exact .inr ⟨child, isChild, isBelow⟩
    · rw [← Nat.add_assoc, singleton_append, childrenLoop, walks, Finset.union_assoc]

omit [LinearOrder Id] in
theorem pathRank_inj (same : pathRank first = pathRank second) : first = second :=
  congrArg (fun rank => (ofLex rank).2) same

theorem pathRank_lt : pathRank first < pathRank second ↔
    first.length < second.length ∨ first.length = second.length ∧ first < second :=
  Prod.Lex.toLex_lt_toLex

theorem pathRank_append_lt (less : pathRank first < pathRank second)
    (id other : Id) : pathRank (first ++ [id]) < pathRank (second ++ [other]) := by
  rw [pathRank_lt] at less ⊢
  rcases less with shorter | ⟨sameLength, less⟩
  · exact .inl (by simpa using shorter)
  · exact .inr ⟨by simp [sameLength], (append_lt_append_iff sameLength _ _).mpr (.inl less)⟩

theorem pathRank_append_le (atMost : pathRank first ≤ pathRank second)
    (id : Id) : pathRank (first ++ [id]) ≤ pathRank (second ++ [id]) := by
  rcases atMost.lt_or_eq with less | same
  · exact (pathRank_append_lt less id id).le
  · rw [pathRank_inj same]

theorem pathRank_lt_append (path : List Id) (id : Id) : pathRank path < pathRank (path ++ [id]) :=
  pathRank_lt.mpr (.inl (by simp))

/-- The loop of `GetAncestors` with the paths on which it has come to the ids in its list, and to
those that have been taken from it. -/
structure AncestorsWalk (graph : ContextGraph Id) (id : Id) (queue taken : List (List Id × Id))
    (visited : Finset Id) : Prop where
  visited_iff : ∀ other, other ∈ visited ↔ ∃ path, (path, other) ∈ taken
  distinct : (taken.map Prod.snd).Nodup
  isPath : ∀ entry ∈ taken ++ queue, graph.PathUp id entry.1 entry.2 ∧ graph.Above entry.2 id
  fromTaken : ∀ entry ∈ queue, ∃ before ∈ ([], id) :: taken, entry.1 = before.1 ++ [entry.2]
  inOrder : taken.Pairwise fun later sooner => pathRank sooner.1 < pathRank later.1
  queued : queue.Pairwise fun sooner later => pathRank sooner.1 < pathRank later.1
  behind : ∀ sooner ∈ taken, ∀ later ∈ queue, pathRank sooner.1 < pathRank later.1
  goesOn : ∀ entry ∈ ([], id) :: taken, ∀ up ∈ graph.parents entry.2,
    ∃ path, (path, up) ∈ taken ++ queue ∧ pathRank path ≤ pathRank (entry.1 ++ [up])

variable {id : Id} {queue taken : List (List Id × Id)} {visited : Finset Id} {path : List Id}
  {cur : Id}

def nextEntries (graph : ContextGraph Id) (path : List Id) (cur : Id) : List (List Id × Id) :=
  (sortedIds (graph.parents cur)).map fun up => (path ++ [up], up)

theorem mem_nextEntries {entry : List Id × Id} : entry ∈ graph.nextEntries path cur ↔
    entry.2 ∈ graph.parents cur ∧ entry.1 = path ++ [entry.2] := by
  obtain ⟨other, up⟩ := entry
  simp only [nextEntries, mem_map, mem_sortedIds, Prod.mk.injEq]
  constructor
  · rintro ⟨_, isParent, rfl, rfl⟩
    exact ⟨isParent, rfl⟩
  · rintro ⟨isParent, rfl⟩
    exact ⟨up, isParent, rfl, rfl⟩

@[simp]
theorem map_nextEntries :
    (graph.nextEntries path cur).map Prod.snd = sortedIds (graph.parents cur) := by
  simp [nextEntries, comp_def]

theorem pairwise_nextEntries : (graph.nextEntries path cur).Pairwise fun sooner later =>
    pathRank sooner.1 < pathRank later.1 := by
  refine pairwise_map.mpr ((sortedIds_pairwise _).imp fun less => pathRank_lt.mpr (.inr ⟨?_, ?_⟩))
  · simp
  · exact (append_lt_append_iff rfl _ _).mpr (.inr ⟨rfl, .rel less⟩)

theorem AncestorsWalk.start : AncestorsWalk graph id (graph.nextEntries [] id) [] ∅ := by
  refine ⟨by simp, .nil, fun entry isEntry => ?_, fun entry isEntry => ?_, .nil,
    pairwise_nextEntries, nofun, ?_⟩
  · obtain ⟨isParent, isPath⟩ := mem_nextEntries.mp isEntry
    exact ⟨isPath ▸ .up .start isParent, .single isParent⟩
  · exact ⟨_, .head _, (mem_nextEntries.mp isEntry).2⟩
  · intro entry isEntry up isParent
    obtain rfl := mem_singleton.mp isEntry
    exact ⟨[up], mem_nextEntries.mpr ⟨isParent, rfl⟩, le_rfl⟩

section

variable (walk : AncestorsWalk graph id ((path, cur) :: queue) taken visited)
include walk

theorem AncestorsWalk.skip (isVisited : cur ∈ visited) :
    AncestorsWalk graph id queue taken visited := by
  obtain ⟨earlier, isTaken⟩ := (walk.visited_iff cur).mp isVisited
  refine ⟨walk.visited_iff, walk.distinct, fun entry isEntry => walk.isPath entry ?_,
    fun entry isEntry => walk.fromTaken entry (.tail _ isEntry), walk.inOrder,
    (pairwise_cons.mp walk.queued).2,
    fun sooner isSooner later isLater => walk.behind sooner isSooner later (.tail _ isLater), ?_⟩
  · rw [mem_append] at isEntry ⊢
    exact isEntry.imp_right (.tail _)
  · intro entry isEntry up isParent
    obtain ⟨found, isFound, atMost⟩ := walk.goesOn entry isEntry up isParent
    rw [mem_append, mem_cons] at isFound
    rcases isFound with isFound | same | isFound
    · exact ⟨found, mem_append_left _ isFound, atMost⟩
    · obtain ⟨rfl, rfl⟩ := Prod.mk.inj same
      exact ⟨earlier, mem_append_left _ isTaken, (walk.behind _ isTaken _ (.head _)).le.trans atMost⟩
    · exact ⟨found, mem_append_right _ isFound, atMost⟩

theorem AncestorsWalk.take (isNew : cur ∉ visited) :
    AncestorsWalk graph id (queue ++ graph.nextEntries path cur) ((path, cur) :: taken)
      (insert cur visited) := by
  obtain ⟨isPath, isAbove⟩ := walk.isPath (path, cur) (mem_append_right _ (.head _))
  obtain ⟨isFirst, queued⟩ := pairwise_cons.mp walk.queued
  have behindPath : ∀ entry ∈ ([], id) :: taken, pathRank entry.1 < pathRank path := by
    intro entry isEntry
    rcases mem_cons.mp isEntry with rfl | isTaken
    · obtain ⟨before, -, isLonger⟩ := walk.fromTaken _ (.head _)
      exact pathRank_lt.mpr (.inl (by simp [show path = _ from isLonger]))
    · exact walk.behind entry isTaken _ (.head _)
  constructor
  case visited_iff =>
    intro other
    simp [walk.visited_iff, exists_or]
  case distinct =>
    refine nodup_cons.mpr ⟨fun isTaken => isNew ?_, walk.distinct⟩
    obtain ⟨⟨earlier, _⟩, isEntry, rfl⟩ := mem_map.mp isTaken
    exact (walk.visited_iff _).mpr ⟨earlier, isEntry⟩
  case isPath =>
    intro entry isEntry
    rw [← append_assoc, mem_append] at isEntry
    rcases isEntry with isOld | isNext
    · exact walk.isPath entry (perm_middle.symm.subset isOld)
    · obtain ⟨isParent, isLonger⟩ := mem_nextEntries.mp isNext
      exact ⟨isLonger ▸ .up isPath isParent, .head isParent isAbove⟩
  case fromTaken =>
    intro entry isEntry
    rcases mem_append.mp isEntry with isOld | isNext
    · obtain ⟨before, isBefore, isLonger⟩ := walk.fromTaken entry (.tail _ isOld)
      exact ⟨before, cons_subset_cons _ (subset_cons_self _ _) isBefore, isLonger⟩
    · exact ⟨_, .tail _ (.head _), (mem_nextEntries.mp isNext).2⟩
  case inOrder => exact pairwise_cons.mpr ⟨fun entry isTaken =>
      behindPath entry (.tail _ isTaken), walk.inOrder⟩
  case queued =>
    refine pairwise_append.mpr ⟨queued, pairwise_nextEntries, fun sooner isSooner later isNext => ?_⟩
    obtain ⟨before, isBefore, isLonger⟩ := walk.fromTaken sooner (.tail _ isSooner)
    rw [isLonger, (mem_nextEntries.mp isNext).2]
    exact pathRank_append_lt (behindPath before isBefore) _ _
  case behind =>
    intro sooner isSooner later isLater
    have atMost : pathRank sooner.1 ≤ pathRank path := by
      rcases mem_cons.mp isSooner with rfl | isTaken
      · exact le_rfl
      · exact (behindPath sooner (.tail _ isTaken)).le
    rcases mem_append.mp isLater with isOld | isNext
    · exact atMost.trans_lt (isFirst later isOld)
    · rw [(mem_nextEntries.mp isNext).2]
      exact atMost.trans_lt (pathRank_lt_append path _)
  case goesOn =>
    intro entry isEntry up isParent
    have found : (entry = (path, cur)) ∨ entry ∈ ([], id) :: taken := by
      simp only [mem_cons] at isEntry ⊢
      tauto
    rcases found with rfl | isEntry
    · exact ⟨_, mem_append_right _ (mem_append_right _ (mem_nextEntries.mpr ⟨isParent, rfl⟩)), le_rfl⟩
    · obtain ⟨found, isFound, atMost⟩ := walk.goesOn entry isEntry up isParent
      refine ⟨found, ?_, atMost⟩
      rw [← append_assoc]
      exact mem_append_left _ (perm_middle.subset isFound)

end

/-- The loop ends: an id is taken for the first time, or the list gets shorter. -/
theorem AncestorsWalk.ends (built : graph.Built) (walk : AncestorsWalk graph id queue taken visited) :
    ∃ rounds, ∀ fuel, rounds ≤ fuel → ∃ final visited',
      graph.ancestorsLoop fuel (queue.map Prod.snd) visited (taken.map Prod.snd) =
        some (final.map Prod.snd) ∧ AncestorsWalk graph id [] final visited' := by
  obtain ⟨ids, isId⟩ := built.finite
  induction unvisited : (ids \ visited).card using Nat.strong_induction_on
    generalizing queue taken visited with
  | _ number ih =>
    induction queue with
    | nil => exact ⟨0, fun fuel _ => ⟨taken, visited, by cases fuel <;> rfl, walk⟩⟩
    | cons entry queue skips =>
      obtain ⟨path, cur⟩ := entry
      by_cases isVisited : cur ∈ visited
      · obtain ⟨rounds, ends⟩ := skips (walk.skip isVisited)
        refine ⟨rounds + 1, fun fuel enough => ?_⟩
        obtain ⟨fuel, rfl⟩ : ∃ rest, fuel = rest + 1 := ⟨fuel - 1, by omega⟩
        rw [map_cons, ancestorsLoop, if_pos isVisited]
        exact ends fuel (by omega)
      · have inIds : cur ∈ ids := by
          obtain ⟨down, isParent, -⟩ := head'_iff.mp
            (walk.isPath (path, cur) (mem_append_right _ (.head _))).2
          exact (isId cur down isParent).1
        have less : (ids \ insert cur visited).card < number := by
          rw [← unvisited, Finset.sdiff_insert]
          exact Finset.card_erase_lt_of_mem (Finset.mem_sdiff.mpr ⟨inIds, isVisited⟩)
        obtain ⟨rounds, ends⟩ := ih _ less (walk.take isVisited) rfl
        refine ⟨rounds + 1, fun fuel enough => ?_⟩
        obtain ⟨fuel, rfl⟩ : ∃ rest, fuel = rest + 1 := ⟨fuel - 1, by omega⟩
        rw [map_cons, ancestorsLoop, if_neg isVisited]
        simpa using ends fuel (by omega)

section

variable (walk : AncestorsWalk graph id [] taken visited)
include walk

theorem AncestorsWalk.mem_iff (other : Id) : other ∈ taken.map Prod.snd ↔ graph.Above other id := by
  constructor
  · intro isTaken
    obtain ⟨entry, isEntry, rfl⟩ := mem_map.mp isTaken
    exact (walk.isPath entry (mem_append_left _ isEntry)).2
  · intro isAbove
    have taken_of : ∀ entry ∈ ([], id) :: taken, ∀ up ∈ graph.parents entry.2,
        up ∈ taken.map Prod.snd := by
      intro entry isEntry up isParent
      obtain ⟨path, isFound, -⟩ := walk.goesOn entry isEntry up isParent
      exact mem_map.mpr ⟨_, append_nil taken ▸ isFound, rfl⟩
    induction isAbove using head_induction_on with
    | single isParent => exact taken_of _ (.head _) _ isParent
    | head isParent _ ih =>
      obtain ⟨entry, isEntry, rfl⟩ := mem_map.mp ih
      exact taken_of entry (.tail _ isEntry) _ isParent

theorem AncestorsWalk.exists_first {up : Id} (isPath : graph.PathUp id path up) :
    ∃ first, (first, up) ∈ ([], id) :: taken ∧ pathRank first ≤ pathRank path := by
  induction isPath with
  | start => exact ⟨[], .head _, le_rfl⟩
  | up _ isParent ih =>
    obtain ⟨first, isEntry, atMost⟩ := ih
    obtain ⟨next, isFound, nextAtMost⟩ := walk.goesOn _ isEntry _ isParent
    exact ⟨next, .tail _ (append_nil taken ▸ isFound),
      nextAtMost.trans (pathRank_append_le atMost _)⟩

/-- The first paths to the ancestors decide their order. -/
theorem AncestorsWalk.pairwise_iff (acyclic : graph.Acyclic) :
    ((taken.map Prod.snd).Pairwise fun first second => ¬graph.Above second first) ↔
      graph.ChildrenFirst id := by
  have exists_taken : ∀ {path up}, graph.Above up id → graph.PathUp id path up →
      ∃ first, (first, up) ∈ taken ∧ pathRank first ≤ pathRank path := by
    intro path up isAbove isPath
    obtain ⟨first, isEntry, atMost⟩ := walk.exists_first isPath
    refine ⟨first, (mem_cons.mp isEntry).resolve_left ?_, atMost⟩
    rintro ⟨⟩
    exact acyclic _ isAbove
  rw [pairwise_map]
  constructor
  · intro descending up down isParent isAbove path isPath
    obtain ⟨first, isTaken, atMost⟩ := exists_taken (.head isParent isAbove) isPath
    obtain ⟨⟨sooner, other⟩, isSooner, rfl⟩ := mem_map.mp ((walk.mem_iff down).mpr isAbove)
    let Ordered (one other : List Id × Id) : Prop :=
      pathRank one.1 < pathRank other.1 ∧ ¬graph.Above one.2 other.2 ∨
        pathRank other.1 < pathRank one.1 ∧ ¬graph.Above other.2 one.2
    have symm : Std.Symm Ordered := ⟨fun _ _ => Or.symm⟩
    have ordered : taken.Pairwise Ordered := (walk.inOrder.and descending).imp .inr
    have differ : (first, up) ≠ (sooner, other) := by
      rintro ⟨⟩
      exact acyclic _ (.single isParent)
    refine ⟨sooner, (walk.isPath _ (mem_append_left _ isSooner)).1, ?_⟩
    rcases ordered.forall isTaken isSooner differ with ⟨-, notAbove⟩ | ⟨less, -⟩
    · exact absurd (.single isParent) notAbove
    · exact less.trans_le atMost
  · intro childrenFirst
    refine walk.inOrder.imp_of_mem fun {later sooner} isLater isSooner less isAbove => ?_
    have laterAbove := (walk.isPath later (mem_append_left _ isLater)).2
    have descends : ∃ first, (first, later.2) ∈ taken ∧ pathRank first < pathRank sooner.1 := by
      have step : ∀ {up down path}, up ∈ graph.parents down → graph.Above down id →
          (path, up) ∈ taken → ∃ first, (first, down) ∈ taken ∧ pathRank first < pathRank path := by
        intro up down path isParent isAbove isTaken
        obtain ⟨found, isPath, foundLess⟩ := childrenFirst up down isParent isAbove path
          (walk.isPath _ (mem_append_left _ isTaken)).1
        obtain ⟨first, isFirst, atMost⟩ := exists_taken isAbove isPath
        exact ⟨first, isFirst, atMost.trans_lt foundLess⟩
      obtain ⟨path, up⟩ := sooner
      clear less
      change graph.Above up later.2 at isAbove
      induction isAbove using head_induction_on generalizing path with
      | single isParent => exact step isParent laterAbove isSooner
      | head isParent isAbove ih =>
        obtain ⟨middle, isMiddle, middleLess⟩ := step isParent (.trans isAbove laterAbove) isSooner
        obtain ⟨first, isFirst, firstLess⟩ := ih middle isMiddle
        exact ⟨first, isFirst, firstLess.trans middleLess⟩
    obtain ⟨first, isFirst, firstLess⟩ := descends
    have same := inj_on_of_nodup_map walk.distinct isFirst isLater rfl
    exact lt_asymm less (same ▸ firstLess)

end

/-- In an acyclic graph both walks end.  The descendants are right, and so are the ancestors, but
an ancestor may come behind a descendant of its own to which the only paths are longer. -/
theorem walks_iff (edits : List (GraphEdit Id)) (acyclic : (build edits).Acyclic) (id : Id) :
    ∃ rounds, ∀ fuel, rounds ≤ fuel →
      (∃ children, (build edits).getChildrenRecursive fuel id = some children ∧
        ∀ other, other ∈ children ↔ (build edits).Above id other) ∧
      ∃ ancestors, (build edits).getAncestors fuel id = some ancestors ∧ ancestors.Nodup ∧
        (∀ other, other ∈ ancestors ↔ (build edits).Above other id) ∧
        ((ancestors.Pairwise fun first second => ¬(build edits).Above second first) ↔
          (build edits).ChildrenFirst id) := by
  have built := (built_build edits).1
  obtain ⟨downRounds, found, isFound, walks⟩ := built.walked acyclic id
  have started : AncestorsWalk (build edits) id _ _ _ := .start
  obtain ⟨upRounds, ends⟩ := started.ends built
  refine ⟨downRounds + upRounds, fun fuel enough => ⟨⟨found, ?_, by simpa using isFound⟩, ?_⟩⟩
  · obtain ⟨rest, rfl⟩ : ∃ rest, fuel = rest + downRounds := ⟨fuel - downRounds, by omega⟩
    rw [getChildrenRecursive, ← append_nil [id], walks, Finset.empty_union]
    cases rest <;> rfl
  · obtain ⟨final, visited, isEnd, walk⟩ := ends fuel (by omega)
    exact ⟨_, by simpa [getAncestors] using isEnd, walk.distinct, walk.mem_iff,
      walk.pairwise_iff acyclic⟩

theorem acyclic_of_increasing {edits : List (GraphEdit Id)}
    (increasing : ∀ up down, .addEdge up down ∈ edits → up < down) : (build edits).Acyclic := by
  have above_lt : ∀ up down, (build edits).Above up down → up < down := by
    intro up down isAbove
    induction isAbove with
    | single isParent => exact increasing _ _ ((built_build edits).2 _ _ isParent)
    | tail _ isParent ih => exact ih.trans (increasing _ _ ((built_build edits).2 _ _ isParent))
  exact fun id isAbove => lt_irrefl id (above_lt id id isAbove)

def sampleEdits : List (GraphEdit ℕ) :=
  [.addEdge 1 2, .addEdge 2 3, .addEdge 3 4, .remove 4, .addEdge 2 4]

theorem walks_sample : ∃ rounds, ∀ fuel, rounds ≤ fuel →
    (∃ children, (build sampleEdits).getChildrenRecursive fuel 4 = some children) ∧
      ∃ ancestors, (build sampleEdits).getAncestors fuel 4 = some ancestors := by
  have acyclic : (build sampleEdits).Acyclic := acyclic_of_increasing fun up down isEdge => by
    simp [sampleEdits] at isEdge
    omega
  obtain ⟨rounds, walks⟩ := walks_iff sampleEdits acyclic 4
  exact ⟨rounds, fun fuel enough => ⟨(walks fuel enough).1.imp fun _ => And.left,
    (walks fuel enough).2.imp fun _ => And.left⟩⟩

/-- The parents of 3 are taken in order, and 2 is put before its parent. -/
theorem not_walks_inOrder : ∃ edits : List (GraphEdit ℕ), (build edits).Acyclic ∧
    ∃ ancestors, (build edits).getAncestors 3 3 = some ancestors ∧
      ¬ancestors.Pairwise fun first second => ¬(build edits).Above second first := by
  refine ⟨[.addEdge 1 2, .addEdge 1 3, .addEdge 2 3], acyclic_of_increasing ?_, [2, 1],
    by decide, fun inOrder => ?_⟩
  · intro up down isEdge
    simp at isEdge
    omega
  · exact (pairwise_cons.mp inOrder).1 1 (.head _) (.single (by decide))

end ContextGraph

end Peridot
