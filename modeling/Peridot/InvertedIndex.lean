import Mathlib.Data.List.AList
import Peridot.KeyedList

/-!
# Inverted indexes

A set whose members are kept in order, and a map from keys to the sets of the ids that have them.
-/

namespace Peridot

open List KeyedList

structure OrderedSet (α : Type) [LinearOrder α] where
  items : List α
  sorted : KeyedList.Sorted id items

namespace OrderedSet

variable {α : Type} [LinearOrder α]

instance : Membership α (OrderedSet α) where
  mem set item := item ∈ set.items

variable {set second first : OrderedSet α} {item : α}

theorem mem_def : item ∈ set ↔ item ∈ set.items :=
  Iff.rfl

instance (set : OrderedSet α) (item : α) : Decidable (item ∈ set) :=
  inferInstanceAs (Decidable (item ∈ set.items))

instance : DecidableEq (OrderedSet α) := fun first second =>
  decidable_of_iff (first.items = second.items) (by
    cases first
    cases second
    simp)

def empty : OrderedSet α :=
  ⟨[], sorted_nil⟩

@[simp]
theorem notMem_empty (item : α) : item ∉ (empty : OrderedSet α) :=
  not_mem_nil

def insert (set : OrderedSet α) (item : α) : OrderedSet α :=
  ⟨replaceAt id item [item] set.items,
    sorted_replaceAt set.sorted (List.pairwise_singleton _ _)
      fun _ isItem => List.mem_singleton.mp isItem⟩

@[simp]
theorem mem_insert {other : α} : other ∈ set.insert item ↔ other = item ∨ other ∈ set := by
  rw [mem_def, insert, mem_replaceAt, mem_singleton, mem_def, id]
  tauto

def erase (set : OrderedSet α) (item : α) : OrderedSet α :=
  ⟨replaceAt id item [] set.items,
    sorted_replaceAt set.sorted sorted_nil
      fun _ inNil => absurd inNil List.not_mem_nil⟩

@[simp]
theorem mem_erase {other : α} : other ∈ set.erase item ↔ other ∈ set ∧ other ≠ item := by
  rw [mem_def, erase, mem_replaceAt, mem_def, id]
  simp

def union (first second : OrderedSet α) : OrderedSet α :=
  second.items.foldl insert first

@[simp]
theorem mem_union : item ∈ first.union second ↔ item ∈ first ∨ item ∈ second := by
  rw [union]
  change _ ↔ item ∈ first ∨ item ∈ second.items
  induction second.items generalizing first with
  | nil => simp
  | cons other items ih =>
    rw [foldl_cons, ih, mem_insert, mem_cons]
    tauto

def inter (first second : OrderedSet α) : OrderedSet α :=
  ⟨first.items.filter fun item => decide (item ∈ second), first.sorted.filter _⟩

@[simp]
theorem mem_inter : item ∈ first.inter second ↔ item ∈ first ∧ item ∈ second := by
  rw [mem_def, inter, mem_filter, decide_eq_true_iff]
  rfl

def unions (sets : List (OrderedSet α)) : OrderedSet α :=
  sets.foldl union empty

@[simp]
theorem mem_unions {sets : List (OrderedSet α)} :
    item ∈ unions sets ↔ ∃ set ∈ sets, item ∈ set := by
  have fromSet : ∀ first : OrderedSet α, item ∈ sets.foldl union first ↔
      item ∈ first ∨ ∃ set ∈ sets, item ∈ set := by
    induction sets with
    | nil => simp
    | cons set sets ih =>
      intro first
      rw [foldl_cons, ih, mem_union, exists_mem_cons_iff]
      tauto
  rw [unions, fromSet, or_iff_right (notMem_empty item)]

theorem nodup (set : OrderedSet α) : set.items.Nodup :=
  set.sorted.imp fun less => less.ne

end OrderedSet

abbrev InvertedIndex (κ ι : Type) [LinearOrder ι] : Type :=
  AList fun _ : κ => OrderedSet ι

namespace InvertedIndex

variable {κ ι : Type} [DecidableEq κ] [LinearOrder ι]

def ids (index : InvertedIndex κ ι) (key : κ) : OrderedSet ι :=
  (index.lookup key).getD .empty

def post (index : InvertedIndex κ ι) (id : ι) (key : κ) : InvertedIndex κ ι :=
  index.insert key ((index.ids key).insert id)

def unpost (index : InvertedIndex κ ι) (id : ι) (key : κ) : InvertedIndex κ ι :=
  index.insert key ((index.ids key).erase id)

variable {index : InvertedIndex κ ι} {id other : ι} {key : κ} {keys : List κ}

theorem mem_ids_post {first : κ} :
    other ∈ (index.post id first).ids key ↔ other ∈ index.ids key ∨ other = id ∧ key = first := by
  by_cases same : key = first
  · subst same
    rw [ids, post, AList.lookup_insert, Option.getD_some, OrderedSet.mem_insert]
    tauto
  · rw [ids, post, AList.lookup_insert_ne same, ids]
    tauto

theorem mem_ids_unpost {first : κ} : other ∈ (index.unpost id first).ids key ↔
    other ∈ index.ids key ∧ ¬(other = id ∧ key = first) := by
  by_cases same : key = first
  · subst same
    rw [ids, unpost, AList.lookup_insert, Option.getD_some, OrderedSet.mem_erase]
    tauto
  · rw [ids, unpost, AList.lookup_insert_ne same, ids]
    tauto

theorem mem_ids_foldl_post :
    other ∈ (keys.foldl (fun index key => index.post id key) index).ids key ↔
      other ∈ index.ids key ∨ other = id ∧ key ∈ keys := by
  induction keys generalizing index with
  | nil => simp
  | cons first keys ih =>
    rw [foldl_cons, ih, mem_ids_post, mem_cons]
    tauto

theorem mem_ids_foldl_unpost :
    other ∈ (keys.foldl (fun index key => index.unpost id key) index).ids key ↔
      other ∈ index.ids key ∧ ¬(other = id ∧ key ∈ keys) := by
  induction keys generalizing index with
  | nil => simp
  | cons first keys ih =>
    rw [foldl_cons, ih, mem_ids_unpost, mem_cons]
    tauto

def Indexes {α : Type} (index : InvertedIndex κ ι) (keysOf : α → List κ) (find : ι → Option α) :
    Prop :=
  ∀ id key, id ∈ index.ids key ↔ ∃ value, find id = some value ∧ key ∈ keysOf value

variable {α : Type} {keysOf : α → List κ} {find findNext : ι → Option α}
    (indexes : Indexes index keysOf find)
include indexes

theorem Indexes.foldl_post {value : α} (isNew : find id = none) (isFound : findNext id = some value)
    (others : ∀ other, other ≠ id → findNext other = find other) :
    Indexes ((keysOf value).foldl (fun index key => index.post id key) index) keysOf findNext := by
  intro other key
  rw [mem_ids_foldl_post, indexes other key]
  by_cases same : other = id
  · subst same
    simp [isNew, isFound]
  · simp [others other same, same]

theorem Indexes.foldl_unpost {value : α} (isFound : find id = some value)
    (isGone : findNext id = none) (others : ∀ other, other ≠ id → findNext other = find other) :
    Indexes ((keysOf value).foldl (fun index key => index.unpost id key) index) keysOf
      findNext := by
  intro other key
  rw [mem_ids_foldl_unpost, indexes other key]
  by_cases same : other = id
  · subst same
    simp [isFound, isGone]
  · simp [others other same, same]

end InvertedIndex

end Peridot
