import Mathlib.Data.List.Infix
import Mathlib.Data.List.Lex
import Peridot.KeyedList

/-!
# Ordered key-value stores

A store whose keys are strings over an ordered alphabet, in lexicographic order.  The keys
that start with a given string follow each other, so a scan that seeks the string and stops
at the first key that does not start with it finds all of them.
-/

namespace Peridot

open List KeyedList

structure OrderedStore (α V : Type) [LinearOrder α] where
  rows : List (List α × V)
  sorted : KeyedList.Sorted Prod.fst rows

namespace OrderedStore

variable {α V : Type} [LinearOrder α]

theorem not_lt_of_isPrefix {start key : List α} (starts : start <+: key) : ¬key < start := by
  obtain ⟨rest, rfl⟩ := starts
  induction start with
  | nil => exact not_lt_nil _
  | cons letter start ih =>
    rw [cons_append, cons_lt_cons_iff]
    rintro (less | ⟨-, less⟩)
    · exact lt_irrefl _ less
    · exact ih less

/-- Between a string and a key that starts with it, all keys start with it. -/
theorem isPrefix_of_not_lt {start first second : List α} (notSmaller : ¬first < start)
    (ordered : first < second) (starts : start <+: second) : start <+: first := by
  induction start generalizing first second with
  | nil => exact nil_prefix
  | cons letter start ih =>
    obtain ⟨rest, rfl⟩ := starts
    cases first with
    | nil => exact absurd (nil_lt_cons letter start) notSmaller
    | cons other first =>
      rw [cons_lt_cons_iff, not_or] at notSmaller
      rw [cons_append, cons_lt_cons_iff] at ordered
      rcases ordered with less | ⟨rfl, firstLess⟩
      · exact absurd less notSmaller.1
      · have notLess : ¬first < start := fun less => notSmaller.2 ⟨rfl, less⟩
        exact cons_prefix_cons.mpr ⟨rfl, ih notLess firstLess (prefix_append ..)⟩

def empty : OrderedStore α V :=
  ⟨[], KeyedList.sorted_nil⟩

def get (store : OrderedStore α V) (key : List α) : Option V :=
  (KeyedList.find Prod.fst store.rows key).map Prod.snd

def put (store : OrderedStore α V) (key : List α) (value : V) : OrderedStore α V where
  rows := KeyedList.replaceAt Prod.fst key [(key, value)] store.rows
  sorted := KeyedList.sorted_replaceAt store.sorted (by simp) (by simp)

def delete (store : OrderedStore α V) (key : List α) : OrderedStore α V where
  rows := KeyedList.replaceAt Prod.fst key [] store.rows
  sorted := KeyedList.sorted_replaceAt store.sorted (by simp) (by simp)

/-- Seek `start`, and go on while the keys start with it. -/
def scan (store : OrderedStore α V) (start : List α) : List (List α × V) :=
  (store.rows.dropWhile fun row => decide (row.1 < start)).takeWhile fun row =>
    start.isPrefixOf row.1

variable {store : OrderedStore α V} {key other start : List α} {value : V}

@[simp]
theorem get_empty : (empty : OrderedStore α V).get key = none :=
  rfl

theorem get_put : (store.put key value).get other =
    if other = key then some value else store.get other := by
  rw [get, put, find_replaceAt (by simp)]
  split
  · simp [find]
  · rfl

theorem get_delete : (store.delete key).get other =
    if other = key then none else store.get other := by
  rw [get, delete, find_replaceAt (by simp)]
  split
  · rfl
  · rfl

theorem mem_rows : (key, value) ∈ store.rows ↔ store.get key = some value := by
  rw [mem_iff_find store.sorted, get, Option.map_eq_some_iff]
  constructor
  · exact fun found => ⟨_, found, rfl⟩
  · rintro ⟨⟨found, stored⟩, isFound, rfl⟩
    obtain rfl : found = key := key_of_find isFound
    exact isFound

theorem ext_get {first second : OrderedStore α V} (same : ∀ key, first.get key = second.get key) :
    first = second := by
  have sameRows : first.rows = second.rows :=
    eq_of_mem_iff first.sorted second.sorted fun ⟨key, value⟩ => by rw [mem_rows, mem_rows, same]
  cases first
  cases second
  cases sameRows
  rfl

theorem takeWhile_eq_filter {β : Type} {keep : β → Bool} {items : List β}
    (closed : items.Pairwise fun first second => keep second = true → keep first = true) :
    items.takeWhile keep = items.filter keep := by
  induction items with
  | nil => rfl
  | cons item items ih =>
    obtain ⟨headClosed, tailClosed⟩ := pairwise_cons.mp closed
    cases kept : keep item with
    | true => simp [kept, ih tailClosed]
    | false =>
      have none : items.filter keep = [] := by
        refine filter_eq_nil_iff.mpr fun other member isKept => ?_
        rw [headClosed other member isKept] at kept
        cases kept
      simp [kept, none]

theorem dropWhile_eq_filter {β : Type} {pass : β → Bool} {items : List β}
    (closed : items.Pairwise fun first second => pass second = true → pass first = true) :
    items.dropWhile pass = items.filter fun item => !pass item := by
  induction items with
  | nil => rfl
  | cons item items ih =>
    obtain ⟨headClosed, tailClosed⟩ := pairwise_cons.mp closed
    cases passes : pass item with
    | true => simp [passes, ih tailClosed]
    | false =>
      have all : items.filter (fun item => !pass item) = items := by
        refine filter_eq_self.mpr fun other member => ?_
        cases passesOther : pass other with
        | false => rfl
        | true =>
          rw [headClosed other member passesOther] at passes
          cases passes
      simp [passes, all]

theorem scan_eq_filter (store : OrderedStore α V) (start : List α) :
    store.scan start = store.rows.filter fun row => start.isPrefixOf row.1 := by
  have smallerFirst : store.rows.Pairwise fun first second =>
      decide (second.1 < start) = true → decide (first.1 < start) = true :=
    store.sorted.imp fun ordered isSmaller =>
      decide_eq_true (ordered.trans (of_decide_eq_true isSmaller))
  rw [scan, dropWhile_eq_filter smallerFirst]
  have startFirst : (store.rows.filter fun row => !decide (row.1 < start)).Pairwise
      fun first second => start.isPrefixOf second.1 = true → start.isPrefixOf first.1 = true := by
    refine pairwise_filter.mpr (store.sorted.imp ?_)
    intro first second ordered notSmaller _ starts
    rw [ isPrefixOf_iff_prefix] at starts ⊢
    exact isPrefix_of_not_lt (by simpa using notSmaller) ordered starts
  rw [takeWhile_eq_filter startFirst, filter_filter]
  refine filter_congr fun row _ => ?_
  cases starts : start.isPrefixOf row.1 with
  | false => rfl
  | true => simp [not_lt_of_isPrefix ( isPrefixOf_iff_prefix.mp starts)]

theorem mem_scan : (key, value) ∈ store.scan start ↔
    start <+: key ∧ store.get key = some value := by
  rw [scan_eq_filter, mem_filter, mem_rows, isPrefixOf_iff_prefix, and_comm]

theorem sorted_scan (store : OrderedStore α V) (start : List α) :
    Sorted Prod.fst (store.scan start) := by
  rw [scan_eq_filter]
  exact store.sorted.filter _

theorem lt_of_append_lt {first second : List α} (less : start ++ first < start ++ second) :
    first < second := by
  rcases lt_trichotomy first second with isLess | rfl | isGreater
  · exact isLess
  · exact absurd less (lt_irrefl _)
  · exact absurd (less.trans (append_left_lt isGreater)) (lt_irrefl _)

theorem mem_suffixes {suffix : List α} :
    (suffix, value) ∈ (store.scan start).map (fun row => (row.1.drop start.length, row.2)) ↔
      store.get (start ++ suffix) = some value := by
  rw [mem_map]
  constructor
  · rintro ⟨⟨key, stored⟩, found, isSuffix⟩
    obtain ⟨⟨rest, rfl⟩, isStored⟩ := mem_scan.mp found
    rw [drop_left] at isSuffix
    cases isSuffix
    exact isStored
  · intro found
    refine ⟨(start ++ suffix, value), mem_scan.mpr ⟨prefix_append .., found⟩, ?_⟩
    rw [drop_left]

theorem sorted_suffixes (store : OrderedStore α V) (start : List α) : Sorted Prod.fst
    ((store.scan start).map fun row => (row.1.drop start.length, row.2)) := by
  refine pairwise_map.mpr (List.Pairwise.imp_of_mem ?_ (store.sorted_scan start))
  rintro ⟨first, firstValue⟩ ⟨second, secondValue⟩ firstFound secondFound less
  obtain ⟨⟨firstRest, rfl⟩, -⟩ := mem_scan.mp firstFound
  obtain ⟨⟨secondRest, rfl⟩, -⟩ := mem_scan.mp secondFound
  rw [drop_left, drop_left]
  exact lt_of_append_lt less

end OrderedStore

end Peridot
