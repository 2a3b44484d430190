import Mathlib.Data.List.Infix

/-!
# Escaped strings

A string is escaped by putting an escape character before each character that would end it or
escape another one.  What follows an escaped string, from a separator on, can therefore be told
apart from it: no escaped string is continued by a separator in two ways.
-/

namespace Peridot

open List

variable {α : Type*} [DecidableEq α]

def stringEscape (charsToEscape : List α) (escapeChar : α) : List α → List α
  | [] => []
  | c :: input =>
    if c ∈ charsToEscape ∨ c = escapeChar then
      escapeChar :: c :: stringEscape charsToEscape escapeChar input
    else c :: stringEscape charsToEscape escapeChar input

variable {charsToEscape : List α} {escapeChar : α} {first second rest rest' : List α} {sep sep' : α}

/-- A character that ends an escaped string: it is escaped inside of one. -/
def IsSeparator (charsToEscape : List α) (escapeChar sep : α) : Prop :=
  sep ∈ charsToEscape ∧ sep ≠ escapeChar

instance : Decidable (IsSeparator charsToEscape escapeChar sep) :=
  inferInstanceAs (Decidable (_ ∧ _))

theorem stringEscape_cons_ne (separator : IsSeparator charsToEscape escapeChar sep)
    (c : α) (input : List α) :
    ∃ head tail, stringEscape charsToEscape escapeChar (c :: input) = head :: tail ∧
      head ≠ sep := by
  obtain ⟨isEscaped, notEscaper⟩ := separator
  rw [stringEscape]
  split
  · exact ⟨_, _, rfl, notEscaper.symm⟩
  · rename_i plain
    refine ⟨_, _, rfl, ?_⟩
    rintro rfl
    exact plain (.inl isEscaped)

/-- The first characters of two escaped strings can be compared on their own. -/
theorem stringEscape_cons_isPrefix {c d : α} {end' : List α} :
    stringEscape charsToEscape escapeChar (c :: first) ++ rest <+:
        stringEscape charsToEscape escapeChar (d :: second) ++ end' ↔
      c = d ∧ stringEscape charsToEscape escapeChar first ++ rest <+:
        stringEscape charsToEscape escapeChar second ++ end' := by
  by_cases same : c = d
  · subst same
    rw [stringEscape, stringEscape]
    split <;> simp [cons_prefix_cons]
  · simp only [stringEscape, same, false_and, iff_false]
    -- An escape character does not stand for itself without another one before it.
    split <;> split <;> simp only [cons_append, cons_prefix_cons, same] <;> grind

section

variable (separator : IsSeparator charsToEscape escapeChar sep)
include separator

/-- Where an escaped string and a separator start another such string, they start it at the same
place. -/
theorem eq_of_stringEscape_isPrefix (separator' : IsSeparator charsToEscape escapeChar sep')
    (starts : stringEscape charsToEscape escapeChar first ++ sep :: rest <+:
      stringEscape charsToEscape escapeChar second ++ sep' :: rest') :
    first = second ∧ sep = sep' ∧ rest <+: rest' := by
  induction first generalizing second with
  | nil =>
    cases second with
    | nil => simpa [stringEscape, cons_prefix_cons] using starts
    | cons c second =>
      obtain ⟨head, tail, spelled, differs⟩ := stringEscape_cons_ne separator c second
      rw [spelled, stringEscape, nil_append, cons_append, cons_prefix_cons] at starts
      exact absurd starts.1.symm differs
  | cons c first ih =>
    cases second with
    | nil =>
      obtain ⟨head, tail, spelled, differs⟩ := stringEscape_cons_ne separator' c first
      rw [spelled, stringEscape, nil_append, cons_append, cons_prefix_cons] at starts
      exact absurd starts.1 differs
    | cons d second =>
      obtain ⟨sameHead, starts⟩ := stringEscape_cons_isPrefix.mp starts
      obtain ⟨sameTail, sameSep, starts⟩ := ih starts
      exact ⟨by rw [sameHead, sameTail], sameSep, starts⟩

theorem eq_of_stringEscape_eq (same : stringEscape charsToEscape escapeChar first ++ sep :: rest =
      stringEscape charsToEscape escapeChar second ++ sep :: rest') :
    first = second ∧ rest = rest' := by
  obtain ⟨rfl, -, -⟩ := eq_of_stringEscape_isPrefix separator separator
    (prefix_iff_exists_append_eq.mpr ⟨[], (append_nil _).trans same⟩)
  exact ⟨rfl, tail_eq_of_cons_eq (append_cancel_left same)⟩

theorem stringEscape_inj (same : stringEscape charsToEscape escapeChar first =
    stringEscape charsToEscape escapeChar second) : first = second :=
  (eq_of_stringEscape_eq separator (congrArg (· ++ sep :: []) same)).1

/-- An escaped string starts another one exactly when the strings themselves do. -/
theorem stringEscape_isPrefix_iff : stringEscape charsToEscape escapeChar first <+:
    stringEscape charsToEscape escapeChar second ++ sep :: rest ↔ first <+: second := by
  induction first generalizing second with
  | nil => simp [stringEscape]
  | cons c first ih =>
    cases second with
    | nil =>
      obtain ⟨head, tail, spelled, differs⟩ := stringEscape_cons_ne separator c first
      rw [spelled, stringEscape, nil_append, cons_prefix_cons]
      simp [differs]
    | cons d second =>
      have unfolded := @stringEscape_cons_isPrefix α _ charsToEscape escapeChar first second
        [] c d (sep :: rest)
      simp only [append_nil] at unfolded
      rw [unfolded, cons_prefix_cons, ih]

end

/-- An escape character at the end, which a debug build refuses, stands for itself. -/
def stringUnescape (escapeChar : α) : List α → List α
  | c :: d :: input =>
    if c = escapeChar then d :: stringUnescape escapeChar input
    else c :: stringUnescape escapeChar (d :: input)
  | input => input

/-- The loop of `SplitEscapedString`, where `part` is what follows `last_pos`. -/
def splitFrom (splitChar escapeChar : α) (part : List α) : List α → List (List α)
  | [] => if part = [] then [] else [part]
  | c :: input =>
    if c = escapeChar then
      match input with
      | [] => [part ++ [c]]
      | d :: input => splitFrom splitChar escapeChar (part ++ [c, d]) input
    else if c = splitChar then part :: splitFrom splitChar escapeChar [] input
    else splitFrom splitChar escapeChar (part ++ [c]) input

def splitEscapedString (input : List α) (splitChar escapeChar : α) : List (List α) :=
  splitFrom splitChar escapeChar [] input

theorem stringUnescape_cons {c : α} (differs : c ≠ escapeChar) (input : List α) :
    stringUnescape escapeChar (c :: input) = c :: stringUnescape escapeChar input := by
  cases input with
  | nil => rfl
  | cons d input => rw [stringUnescape, if_neg differs]

@[simp]
theorem stringUnescape_stringEscape (input : List α) :
    stringUnescape escapeChar (stringEscape charsToEscape escapeChar input) = input := by
  induction input with
  | nil => rfl
  | cons c input ih =>
    rw [stringEscape]
    split
    · rw [stringUnescape, if_pos rfl, ih]
    · rename_i plain
      rw [stringUnescape_cons fun same => plain (.inr same), ih]

theorem splitFrom_cons {c : α} (differs : c ≠ escapeChar) (part input : List α) :
    splitFrom sep escapeChar part (c :: input) =
      if c = sep then part :: splitFrom sep escapeChar [] input
      else splitFrom sep escapeChar (part ++ [c]) input := by
  cases input <;> simp [splitFrom, differs]

variable (separator : IsSeparator charsToEscape escapeChar sep)
include separator

/-- An escaped string has no separator for the loop. -/
theorem splitFrom_stringEscape (part input : List α) : splitFrom sep escapeChar part
        (stringEscape charsToEscape escapeChar input ++ rest) =
      splitFrom sep escapeChar (part ++ stringEscape charsToEscape escapeChar input) rest := by
  induction input generalizing part with
  | nil => simp [stringEscape]
  | cons c input ih =>
    rw [stringEscape]
    split
    · simp [splitFrom, ih]
    · rename_i plain
      rw [not_or] at plain
      have notSep : c ≠ sep := by
        rintro rfl
        exact plain.1 separator.1
      rw [cons_append, splitFrom_cons plain.2, if_neg notSep, ih]
      simp

/-- Splitting gives back the strings that were joined, but for an empty one at the end. -/
theorem splitEscapedString_join
    (init : List (List α)) (last : List α) : splitEscapedString ([sep].intercalate
        ((init ++ [last]).map (stringEscape charsToEscape escapeChar))) sep escapeChar =
      init.map (stringEscape charsToEscape escapeChar) ++
        if last = [] then [] else [stringEscape charsToEscape escapeChar last] := by
  induction init with
  | nil =>
    have split : splitFrom sep escapeChar []
        (stringEscape charsToEscape escapeChar last ++ []) = _ :=
      splitFrom_stringEscape separator [] last
    rw [append_nil] at split
    have empty : stringEscape charsToEscape escapeChar last = [] ↔ last = [] := by
      cases last with
      | nil => simp [stringEscape]
      | cons c last =>
        obtain ⟨head, tail, spelled, -⟩ := stringEscape_cons_ne separator c last
        simp [spelled]
    simp [splitEscapedString, split, splitFrom, empty]
  | cons first init ih =>
    rw [cons_append, map_cons, intercalate_cons_of_ne_nil (by simp),
      splitEscapedString, append_assoc, splitFrom_stringEscape separator, singleton_append,
      nil_append, splitFrom_cons separator.2, if_pos rfl, ← splitEscapedString, ih]
    rfl

end Peridot
