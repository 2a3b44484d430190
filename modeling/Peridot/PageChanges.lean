import Peridot.MergeContents
import Peridot.OrderedStore

/-!
# Changes of a page as they are sent to the client

`ComputePageChange` makes a `PageChange` of the difference of two commits, and
`PaginateChanges` splits it into messages.
-/

namespace Peridot

open List

structure MessageLimits where
  maxInlineDataSize : Nat
  maxMessageHandles : Nat
  arrayHeaderSize : Nat

namespace MessageLimits

variable (limits : MessageLimits)

/-- `kPageChangeHeaderSize`: a pointer, the timestamp and two arrays. -/
def pageChangeHeaderSize : Nat :=
  8 + 8 + 2 * limits.arrayHeaderSize

def getByteArraySize (arrayLength : Nat) : Nat :=
  arrayLength + limits.arrayHeaderSize

/-- `GetEntrySize`: a pointer, the key, a handle and an enumeration. -/
def getEntrySize (keyLength : Nat) : Nat :=
  8 + (keyLength + limits.arrayHeaderSize) + 4 + 4

end MessageLimits

def EntryChange.entrySize (limits : MessageLimits) (change : EntryChange) : Nat :=
  if change.deleted then limits.getByteArraySize change.entry.key.length
  else limits.getEntrySize change.entry.key.length

def EntryChange.entryHandleCount (change : EntryChange) : Nat :=
  if change.deleted then 0 else 1

/-- `PageChange`; a value is named by its identifier. -/
structure PageChange where
  timestamp : Int64
  changes : List Entry
  deletedKeys : List Key
deriving DecidableEq

/-- The changes that the client applies when it receives a `PageChange`. -/
def PageChange.entryChanges (page : PageChange) : List EntryChange :=
  page.changes.map (fun entry => ⟨entry, false⟩) ++
    page.deletedKeys.map fun key => ⟨⟨key, default, .eager⟩, true⟩

def PageChange.add (page : PageChange) (change : EntryChange) : PageChange :=
  if change.deleted then { page with deletedKeys := page.deletedKeys ++ [change.entry.key] }
  else { page with changes := page.changes ++ [change.entry] }

inductive PaginationBehavior where
  | noPagination
  | bySize
deriving DecidableEq

/-- `Context` of `ComputePageChange`. -/
structure PageChangeContext where
  pageChange : PageChange
  fidlSize : Nat
  handlesCount : Nat
  nextToken : Key

def matchesPrefix (key start : Key) : Bool :=
  key.take start.length = start

/-- `on_next` of `ComputePageChange`. -/
def PageChangeContext.onNext (limits : MessageLimits) (start : Key)
    (behavior : PaginationBehavior) (context : PageChangeContext) (change : EntryChange) :
    PageChangeContext × Bool :=
  if ¬matchesPrefix change.entry.key start then (context, false)
  else
    if behavior = .bySize ∧
        (context.fidlSize + change.entrySize limits > limits.maxInlineDataSize ∨
          context.handlesCount + change.entryHandleCount > limits.maxMessageHandles) then
      ({ context with nextToken := change.entry.key }, false)
    else
      (⟨context.pageChange.add change, context.fidlSize + change.entrySize limits,
        context.handlesCount + change.entryHandleCount, context.nextToken⟩, true)

/-- `ComputePageChange` on the changes that the storage reports, with the values resolved:
the page change, if there is one, and the next token. -/
def computePageChange (limits : MessageLimits) (timestamp : Int64) (start : Key)
    (behavior : PaginationBehavior) (changes : List EntryChange) : Option PageChange × Key :=
  let context := reportChanges (PageChangeContext.onNext limits start behavior)
    ⟨⟨timestamp, [], []⟩, limits.pageChangeHeaderSize, 0, []⟩ changes
  if context.pageChange.changes = [] then
    if context.pageChange.deletedKeys = [] then (none, []) else (some context.pageChange, [])
  else (some context.pageChange, context.nextToken)

/-- The loop state of `PaginateChanges`: the last page is not finished. -/
structure Pagination where
  finished : List PageChange
  current : Option PageChange
  fidlSize : Nat
  handleCount : Nat

namespace Pagination

def addChange (limits : MessageLimits) (timestamp : Int64) (pagination : Pagination)
    (change : EntryChange) : Pagination :=
  match pagination.current with
  | none => ⟨pagination.finished, some ((⟨timestamp, [], []⟩ : PageChange).add change),
      limits.pageChangeHeaderSize + change.entrySize limits, change.entryHandleCount⟩
  | some page =>
    if pagination.fidlSize + change.entrySize limits > limits.maxInlineDataSize ∨
        pagination.handleCount + change.entryHandleCount > limits.maxMessageHandles then
      ⟨pagination.finished ++ [page], some ((⟨timestamp, [], []⟩ : PageChange).add change),
        limits.pageChangeHeaderSize + change.entrySize limits, change.entryHandleCount⟩
    else
      ⟨pagination.finished, some (page.add change), pagination.fidlSize + change.entrySize limits,
        pagination.handleCount + change.entryHandleCount⟩

def pages (pagination : Pagination) : List PageChange :=
  pagination.finished ++ pagination.current.toList

end Pagination

def interleave : List EntryChange → List EntryChange → List EntryChange
  | [], deletions => deletions
  | entry :: entries, deletions =>
    (deletions.takeWhile fun deletion => ¬entry.entry.key < deletion.entry.key) ++
      entry :: interleave entries
        (deletions.dropWhile fun deletion => ¬entry.entry.key < deletion.entry.key)

/-- `PaginateChanges`: entries and deletions in the order of their keys. -/
def paginateChanges (limits : MessageLimits) (change : PageChange) : List PageChange :=
  let entries := change.changes.map fun entry => (⟨entry, false⟩ : EntryChange)
  let deletions := change.deletedKeys.map fun key => (⟨⟨key, default, .eager⟩, true⟩ : EntryChange)
  ((interleave entries deletions).foldl (Pagination.addChange limits change.timestamp)
    ⟨[], none, 0, 0⟩).pages

def EntryChange.effect (change : EntryChange) : Key × Option Entry :=
  (change.entry.key, change.result)

def effects (pages : List PageChange) : List (Key × Option Entry) :=
  (pages.flatMap PageChange.entryChanges).map EntryChange.effect

variable {changes : List EntryChange}

section Effects

variable {limits : MessageLimits} {effect : Key × Option Entry}

theorem effects_append (first second : List PageChange) :
    effects (first ++ second) = effects first ++ effects second := by
  simp [effects]

variable {change : EntryChange} {pagination : Pagination} {timestamp : Int64}

theorem mem_effects_add {page : PageChange} :
    effect ∈ effects [page.add change] ↔ effect ∈ effects [page] ∨ effect = change.effect := by
  obtain ⟨entry, deleted⟩ := change
  cases deleted with
  | false =>
    simp only [effects, PageChange.add, PageChange.entryChanges, flatMap_singleton,
      map_append, map_cons, map_nil, mem_append, mem_singleton, Bool.false_eq_true, if_false]
    exact or_right_comm
  | true =>
    simp only [effects, PageChange.add, PageChange.entryChanges, flatMap_singleton,
      map_append, map_cons, map_nil, mem_append, mem_singleton, if_true]
    exact or_assoc.symm

theorem effects_empty (timestamp : Int64) : effects [⟨timestamp, [], []⟩] = [] :=
  rfl

theorem Pagination.mem_effects_addChange :
    effect ∈ effects (pagination.addChange limits timestamp change).pages ↔
      effect ∈ effects pagination.pages ∨ effect = change.effect := by
  obtain ⟨finished, current, fidlSize, handleCount⟩ := pagination
  cases current with
  | none => simp [addChange, pages, effects_append, mem_effects_add, effects_empty]
  | some page =>
    simp only [addChange]
    split
    · simp only [pages, Option.toList_some, effects_append, mem_append, mem_effects_add,
        effects_empty, not_mem_nil, false_or]
    · simp [pages, effects_append, mem_effects_add, or_assoc]

theorem Pagination.mem_effects_foldl :
    effect ∈ effects (changes.foldl (addChange limits timestamp) pagination).pages ↔
      effect ∈ effects pagination.pages ∨ effect ∈ changes.map EntryChange.effect := by
  induction changes generalizing pagination with
  | nil => simp
  | cons change changes ih =>
    rw [foldl_cons, ih, mem_effects_addChange, map_cons, mem_cons, or_assoc]

theorem mem_interleave {entries deletions : List EntryChange} :
    change ∈ interleave entries deletions ↔ change ∈ entries ∨ change ∈ deletions := by
  induction entries generalizing deletions with
  | nil => simp [interleave]
  | cons entry entries ih =>
    have split := takeWhile_append_dropWhile
      (p := fun deletion : EntryChange => decide ¬entry.entry.key < deletion.entry.key)
      (l := deletions)
    rw [interleave, mem_append, mem_cons, ih, mem_cons]
    conv_rhs => rw [← split, mem_append]
    tauto

theorem mem_effects_paginateChanges {change : PageChange} :
    effect ∈ effects (paginateChanges limits change) ↔ effect ∈ effects [change] := by
  rw [paginateChanges, Pagination.mem_effects_foldl]
  simp only [Pagination.pages, effects, PageChange.entryChanges, mem_map, mem_interleave,
    flatMap_singleton, mem_append]
  simp

theorem paginateChanges_ne_nil {change : PageChange} (notEmpty : effects [change] ≠ []) :
    paginateChanges limits change ≠ [] := by
  intro noPage
  obtain ⟨effect, inEffects⟩ := exists_mem_of_ne_nil _ notEmpty
  rw [← @mem_effects_paginateChanges limits, noPage] at inEffects
  simp [effects] at inEffects

theorem mem_effects_reportChanges {start : Key} {context : PageChangeContext}
    {changes : List EntryChange} :
    effect ∈ effects [(reportChanges (PageChangeContext.onNext limits start .noPagination) context
        changes).pageChange] ↔ effect ∈ effects [context.pageChange] ∨
        effect ∈ (changes.takeWhile fun change =>
          matchesPrefix change.entry.key start).map EntryChange.effect := by
  induction changes generalizing context with
  | nil => simp [reportChanges]
  | cons change changes ih =>
    by_cases matching : matchesPrefix change.entry.key start = true
    · have goesOn : (PageChangeContext.onNext limits start .noPagination context change).2 =
          true := by
        simp [PageChangeContext.onNext, matching]
      have isPage : (PageChangeContext.onNext limits start .noPagination context
          change).1.pageChange = context.pageChange.add change := by
        simp [PageChangeContext.onNext, matching]
      rw [reportChanges, if_pos goesOn, ih, isPage, mem_effects_add, takeWhile_cons,
        if_pos matching, map_cons, mem_cons, or_assoc]
    · have stops : PageChangeContext.onNext limits start .noPagination context change =
          (context, false) := by
        simp [PageChangeContext.onNext, matching]
      rw [reportChanges, stops, if_neg (by simp), takeWhile_cons, if_neg matching]
      simp

/-- The page change has the changes under the prefix; there is none if nothing changed. -/
theorem computePageChange_spec {timestamp : Int64} {start : Key} {changes : List EntryChange} :
    (∀ page, (computePageChange limits timestamp start .noPagination changes).1 = some page →
      effects [page] ≠ [] ∧
      ∀ effect, effect ∈ effects [page] ↔ effect ∈ (changes.takeWhile fun change =>
        matchesPrefix change.entry.key start).map EntryChange.effect) ∧
    ((computePageChange limits timestamp start .noPagination changes).1 = none →
      (changes.takeWhile fun change => matchesPrefix change.entry.key start) = []) := by
  have hasEffects := fun effect => @mem_effects_reportChanges limits effect start
    ⟨⟨timestamp, [], []⟩, limits.pageChangeHeaderSize, 0, []⟩ changes
  simp only [effects_empty, not_mem_nil, false_or] at hasEffects
  unfold computePageChange
  generalize reportChanges (PageChangeContext.onNext limits start .noPagination)
    ⟨⟨timestamp, [], []⟩, limits.pageChangeHeaderSize, 0, []⟩ changes = context at hasEffects
  simp only []
  split
  case isTrue noChanges =>
    split
    case isTrue noDeletions =>
      refine ⟨by simp, fun _ => ?_⟩
      have noEffects : effects [context.pageChange] = [] := by
        simp [effects, PageChange.entryChanges, noChanges, noDeletions]
      rw [noEffects] at hasEffects
      exact map_eq_nil_iff.mp (eq_nil_iff_forall_not_mem.mpr fun effect inEffects =>
        absurd ((hasEffects effect).mpr inEffects) (by simp))
    case isFalse someDeletions =>
      refine ⟨fun page isPage => ?_, by simp⟩
      cases isPage
      exact ⟨by simp [effects, PageChange.entryChanges, someDeletions], hasEffects⟩
  case isFalse someChanges =>
    refine ⟨fun page isPage => ?_, by simp⟩
    cases isPage
    exact ⟨by simp [effects, PageChange.entryChanges, someChanges], hasEffects⟩

end Effects

def Contents.under (contents : Contents) (start : Key) : Contents := fun key =>
  if matchesPrefix key start then contents key else none

def applyPages (contents : Contents) (pages : List PageChange) : Contents :=
  (pages.flatMap PageChange.entryChanges).foldl applyToMap contents

theorem applyPages_append (contents : Contents) (first second : List PageChange) :
    applyPages contents (first ++ second) = applyPages (applyPages contents first) second := by
  simp [applyPages]

/-- The changes are exactly the differences from `base` to `other` at the keys from `minKey`
on, in the order of the keys: what `GetCommitContentsDiff` reports. -/
structure ExactDiffFrom (minKey : Key) (base other : Contents) (changes : List EntryChange) :
    Prop where
  sorted : KeyedList.Sorted (fun change : EntryChange => change.entry.key) changes
  notBefore : ∀ change ∈ changes, ¬change.entry.key < minKey
  result : ∀ change ∈ changes, other change.entry.key = change.result
  complete : ∀ key, ¬key < minKey → base key ≠ other key →
    ∃ change ∈ changes, change.entry.key = key

variable {start : Key}

theorem matchesPrefix_iff {key : Key} : matchesPrefix key start = true ↔ start <+: key := by
  rw [matchesPrefix, decide_eq_true_eq, prefix_iff_eq_take, eq_comm]

variable {base other : Contents} (exact : ExactDiffFrom start base other changes)
include exact

theorem ExactDiffFrom.takeWhile_eq_filter :
    (changes.takeWhile fun change => matchesPrefix change.entry.key start) =
      changes.filter fun change => matchesPrefix change.entry.key start := by
  refine OrderedStore.takeWhile_eq_filter ?_
  refine exact.sorted.imp_of_mem ?_
  intro first second inChanges _ ordered starts
  rw [matchesPrefix_iff] at starts ⊢
  exact OrderedStore.isPrefix_of_not_lt (exact.notBefore first inChanges) ordered starts

/-- Pages with the changes under a prefix bring the client from one commit to the other. -/
theorem applyPages_under {pages : List PageChange}
    (sameEffects : ∀ effect, effect ∈ effects pages ↔ effect ∈ (changes.takeWhile fun change =>
      matchesPrefix change.entry.key start).map EntryChange.effect) :
    applyPages (base.under start) pages = other.under start := by
  rw [exact.takeWhile_eq_filter] at sameEffects
  funext key
  rw [applyPages, foldl_applyToMap]
  cases isLast : lastChange (pages.flatMap PageChange.entryChanges) key with
  | some change =>
    obtain ⟨inPages, rfl⟩ := mem_of_lastChange isLast
    obtain ⟨original, inFilter, isEffect⟩ := mem_map.mp
      ((sameEffects change.effect).mp (mem_map_of_mem inPages))
    obtain ⟨inChanges, starts⟩ := mem_filter.mp inFilter
    obtain ⟨sameKey, sameResult⟩ := Prod.mk.inj isEffect
    rw [sameKey] at starts
    have isResult : other.under start change.entry.key = change.result := by
      rw [Contents.under, if_pos starts, ← sameKey, exact.result original inChanges, sameResult]
    rw [isResult]
    rfl
  | none =>
    simp only [Contents.under, Option.map_none, Option.getD_none]
    split
    case isFalse => rfl
    case isTrue starts =>
      by_contra differs
      have notBefore := OrderedStore.not_lt_of_isPrefix (matchesPrefix_iff.mp starts)
      obtain ⟨change, inChanges, rfl⟩ := exact.complete key notBefore differs
      have inFilter : change ∈ changes.filter fun change =>
          matchesPrefix change.entry.key start := mem_filter.mpr ⟨inChanges, starts⟩
      obtain ⟨sent, inPages, isEffect⟩ := mem_map.mp
        ((sameEffects change.effect).mpr (mem_map_of_mem inFilter))
      obtain ⟨sameKey, -⟩ := Prod.mk.inj isEffect
      rw [← sameKey] at isLast
      exact lastChange_ne_none inPages isLast

end Peridot
