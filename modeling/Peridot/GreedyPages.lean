import Peridot.KeyedList

/-!
# Cutting a list into pages

Items are put on a page as long as they fit behind what is on it; the first one that does not starts
the next page.  A reader that answers with the page that starts at a token, and with the first item
left out as the next token, gives all pages to a client that follows the tokens.
-/

namespace Peridot

open List KeyedList

/-- The answers of a reader whose tokens are followed until one has none, in a number of calls. -/
def follow {τ β : Type} (read : τ → β × Option τ) : ℕ → τ → Option (List β)
  | 0, _ => none
  | calls + 1, token =>
    match (read token).2 with
    | none => some [(read token).1]
    | some next => (follow read calls next).map ((read token).1 :: ·)

namespace GreedyPages

variable {α β : Type} (fits : List α → α → Bool)

def fill : List α → List α → List α × List α
  | page, [] => (page, [])
  | page, item :: items =>
    if fits page item then fill (page ++ [item]) items else (page, item :: items)

def pagesFrom : List α → List α → List (List α)
  | page, [] => [page]
  | page, item :: items =>
    if fits page item then pagesFrom (page ++ [item]) items
    else page :: pagesFrom [item] items

def pages : List α → List (List α)
  | [] => []
  | item :: items => pagesFrom fits [item] items

def firstPage : List α → List α × List α
  | [] => ([], [])
  | item :: items => fill fits [item] items

def upTo (stops : List α → Bool) : List (List α) → List (List α)
  | [] => []
  | page :: pages => if stops page then [page] else page :: upTo stops pages

variable {fits} {page items : List α} {item : α}

variable (fits) in
theorem fill_append (page items : List α) :
    (fill fits page items).1 ++ (fill fits page items).2 = page ++ items := by
  induction items generalizing page with
  | nil => rfl
  | cons item items ih =>
    rw [fill]
    split
    · rw [ih, append_assoc, singleton_append]
    · rfl

variable (fits) in
theorem page_isPrefix_fill (page items : List α) : page <+: (fill fits page items).1 := by
  induction items generalizing page with
  | nil => exact prefix_rfl
  | cons item items ih =>
    rw [fill]
    split
    · exact (prefix_append page [item]).trans (ih (page ++ [item]))
    · exact prefix_rfl

theorem pagesFrom_eq (page items : List α) : pagesFrom fits page items =
    (fill fits page items).1 :: pages fits (fill fits page items).2 := by
  induction items generalizing page with
  | nil => rfl
  | cons item items ih =>
    rw [pagesFrom, fill]
    split
    · exact ih (page ++ [item])
    · rfl

theorem pages_eq (notEmpty : items ≠ []) :
    pages fits items = (firstPage fits items).1 :: pages fits (firstPage fits items).2 := by
  cases items with
  | nil => exact absurd rfl notEmpty
  | cons item items => exact pagesFrom_eq [item] items

variable (fits) in
theorem firstPage_append (items : List α) :
    (firstPage fits items).1 ++ (firstPage fits items).2 = items := by
  cases items with
  | nil => rfl
  | cons item items => exact fill_append fits [item] items

variable (fits) in
theorem firstPage_ne_nil (notEmpty : items ≠ []) : (firstPage fits items).1 ≠ [] := by
  cases items with
  | nil => exact absurd rfl notEmpty
  | cons item items =>
    intro isNil
    have isPrefix := page_isPrefix_fill fits [item] items
    rw [firstPage] at isNil
    rw [isNil] at isPrefix
    exact absurd (prefix_nil.mp isPrefix) (by simp)

variable (fits) in
theorem length_firstPage_lt (notEmpty : items ≠ []) :
    (firstPage fits items).2.length < items.length := by
  have isWhole := congrArg length (firstPage_append fits items)
  have isPositive := length_pos_iff.mpr (firstPage_ne_nil fits notEmpty)
  rw [length_append] at isWhole
  omega

theorem fill_nil_eq_firstPage (fitsAlone : ∀ item ∈ items, fits [] item = true) :
    fill fits [] items = firstPage fits items := by
  cases items with
  | nil => rfl
  | cons item items => rw [fill, if_pos (fitsAlone item (by simp))]; rfl

variable (fits) in
theorem fill_fill (others : List α → α → Bool) {left : List α}
    (isFirst : (fill fits page items).1 = page ++ left) :
    fill (fun page item => fits page item && others page item) page items =
      ((fill others page left).1, (fill others page left).2 ++ (fill fits page items).2) := by
  induction items generalizing page left with
  | nil =>
    have noneLeft : left = [] := by simpa [fill] using isFirst
    simp [noneLeft, fill]
  | cons item items ih =>
    have whole := fill_append fits page (item :: items)
    rw [isFirst, append_assoc, append_cancel_left_eq] at whole
    rw [fill]
    cases itFits : fits page item with
    | false =>
      rw [fill, if_neg (by simp [itFits])] at isFirst
      have noneLeft : left = [] := by simpa using isFirst
      simp [noneLeft, fill, itFits]
    | true =>
      have same : fill fits page (item :: items) = fill fits (page ++ [item]) items := by
        rw [fill, if_pos itFits]
      obtain ⟨more, isMore⟩ := page_isPrefix_fill fits (page ++ [item]) items
      rw [same, ← isMore, append_assoc, append_cancel_left_eq] at isFirst
      subst isFirst
      rw [singleton_append, fill]
      cases fitsToo : others page item with
      | false => simpa [fitsToo] using whole.symm
      | true => simpa [fitsToo, same] using ih isMore.symm

theorem flatten_pagesFrom (page items : List α) :
    (pagesFrom fits page items).flatten = page ++ items := by
  induction items generalizing page with
  | nil => simp [pagesFrom]
  | cons item items ih =>
    rw [pagesFrom]
    split
    · rw [ih, append_assoc, singleton_append]
    · rw [flatten_cons, ih, singleton_append]

variable (fits) in
@[simp]
theorem flatten_pages (items : List α) : (pages fits items).flatten = items := by
  cases items with
  | nil => rfl
  | cons item items => exact flatten_pagesFrom [item] items

variable {given : List α}

theorem ne_nil_of_mem_pagesFrom (notEmpty : given ≠ [])
    (isPage : page ∈ pagesFrom fits given items) : page ≠ [] := by
  induction items generalizing given with
  | nil =>
    rw [mem_singleton.mp isPage]
    exact notEmpty
  | cons item items ih =>
    rw [pagesFrom] at isPage
    split at isPage
    · exact ih (by simp) isPage
    · rcases mem_cons.mp isPage with rfl | isLater
      · exact notEmpty
      · exact ih (by simp) isLater

theorem ne_nil_of_mem_pages (isPage : page ∈ pages fits items) : page ≠ [] := by
  cases items with
  | nil => exact absurd isPage not_mem_nil
  | cons item items => exact ne_nil_of_mem_pagesFrom (by simp) isPage

theorem pages_eq_nil : pages fits items = [] ↔ items = [] := by
  constructor
  · intro noPage
    rw [← flatten_pages fits items, noPage, flatten_nil]
  · rintro rfl
    rfl

def Filled (fits : List α → α → Bool) (page : List α) : Prop :=
  page.length ≤ 1 ∨ ∃ front item, page = front ++ [item] ∧ fits front item = true

theorem filled_of_mem_pagesFrom (isFilled : Filled fits given)
    (isPage : page ∈ pagesFrom fits given items) : Filled fits page := by
  induction items generalizing given with
  | nil =>
    rw [mem_singleton.mp isPage]
    exact isFilled
  | cons item items ih =>
    rw [pagesFrom] at isPage
    split at isPage
    · rename_i itFits
      exact ih (.inr ⟨given, item, rfl, itFits⟩) isPage
    · rcases mem_cons.mp isPage with rfl | isLater
      · exact isFilled
      · exact ih (.inl (by simp)) isLater

theorem filled_of_mem_pages (isPage : page ∈ pages fits items) : Filled fits page := by
  cases items with
  | nil => exact absurd isPage not_mem_nil
  | cons item items => exact filled_of_mem_pagesFrom (.inl (by simp)) isPage

theorem mem_of_mem_pages (isPage : page ∈ pages fits items) (isItem : item ∈ page) :
    item ∈ items := by
  rw [← flatten_pages fits items]
  exact mem_flatten.mpr ⟨page, isPage, isItem⟩

/-- What holds of single items, and of a page with one more item that fits, holds of all pages. -/
theorem forall_mem_pages {motive : List α → Prop} (single : ∀ item ∈ items, motive [item])
    (more : ∀ front, ∀ item ∈ items, fits front item = true → motive (front ++ [item])) :
    ∀ page ∈ pages fits items, motive page := by
  intro page isPage
  rcases filled_of_mem_pages isPage with isOne | ⟨front, item, rfl, itFits⟩
  · have notEmpty := length_pos_iff.mpr (ne_nil_of_mem_pages isPage)
    obtain ⟨item, rfl⟩ := length_eq_one_iff.mp (by omega : page.length = 1)
    exact single item (mem_of_mem_pages isPage (by simp))
  · exact more front item (mem_of_mem_pages isPage (by simp)) itFits

section Follow

variable {τ : Type} {read : τ → β × Option τ} {calls : ℕ} {token : τ} {answers : List β}
  (followed : follow read calls token = some answers)
include followed

theorem follow_mono {more : ℕ} (atLeast : calls ≤ more) :
    follow read more token = some answers := by
  induction calls generalizing token answers more with
  | zero => simp [follow] at followed
  | succ calls ih =>
    obtain ⟨more, rfl⟩ : ∃ less, more = less + 1 := ⟨more - 1, by omega⟩
    rw [follow] at followed ⊢
    cases next : (read token).2 with
    | none => simpa [next] using followed
    | some later =>
      simp only [next, Option.map_eq_some_iff] at followed ⊢
      obtain ⟨rest, isRest, rfl⟩ := followed
      exact ⟨rest, ih isRest (by omega), rfl⟩

theorem follow_unique {others : ℕ} {otherAnswers : List β}
    (otherFollowed : follow read others token = some otherAnswers) : answers = otherAnswers := by
  have first := follow_mono followed (le_max_left calls others)
  rw [follow_mono otherFollowed (le_max_right calls others)] at first
  exact (Option.some.inj first).symm

end Follow

section Reader

variable {K τ : Type} [LinearOrder K] {key : α → K} {read : τ → β × Option τ} {start : τ → K}
  {token : K → τ} {answer : List α → β} {stops : List α → Bool}

/-- The reader answers with the first page of the items from its start on. Its next token is the
key of the first item that is left out, unless it stops at the page. -/
structure Reads (fits : List α → α → Bool) (key : α → K) (items : List α) (start : τ → K)
    (token : K → τ) (answer : List α → β) (stops : List α → Bool) (read : τ → β × Option τ) :
    Prop where
  sorted : KeyedList.Sorted key items
  startToken : ∀ item ∈ items, start (token (key item)) = key item
  answers : ∀ request, (read request).1 =
    answer (firstPage fits (KeyedList.startingAt key (start request) items)).1
  next : ∀ request, (read request).2 =
    if stops (firstPage fits (KeyedList.startingAt key (start request) items)).1 then none
    else (firstPage fits (KeyedList.startingAt key (start request) items)).2.head?.map
      fun item => token (key item)

def readPages (fits : List α → α → Bool) (items : List α) : List (List α) :=
  if items = [] then [[]] else pages fits items

variable (fits) in
@[simp]
theorem flatten_readPages (items : List α) : (readPages fits items).flatten = items := by
  unfold readPages
  split
  · simp_all
  · exact flatten_pages fits items

theorem startingAt_left {k : K} {rest : List α} (sorted : Sorted key items)
    (left : (firstPage fits (startingAt key k items)).2 = item :: rest) :
    item ∈ items ∧ startingAt key (key item) items = item :: rest := by
  have whole := firstPage_append fits (startingAt key k items)
  rw [left] at whole
  obtain ⟨inItems, atLeast⟩ : item ∈ items ∧ k ≤ key item := by
    apply mem_startingAt.mp
    rw [← whole]
    simp
  refine ⟨inItems, ?_⟩
  have sortedAll : Sorted key (startingAt key k items) := sorted_filter sorted _
  rw [← whole] at sortedAll
  obtain ⟨-, sortedRest, isBelow⟩ := sorted_append.mp sortedAll
  have same : startingAt key (key item) items =
      startingAt key (key item) (startingAt key k items) := by
    simp only [startingAt, filter_filter]
    refine filter_congr fun other _ => ?_
    by_cases reached : key item ≤ key other
    · simp [reached, atLeast.trans reached]
    · simp [reached]
  rw [same, ← whole]
  refine (eq_startingAt rfl ?_ ?_).symm
  · exact fun other inFront => isBelow other inFront item (by simp)
  · intro other inRest
    exact head_le sortedRest other inRest

/-- A client that follows the tokens gets the pages up to the first one at which the reader
stops. -/
theorem Reads.follow (reads : Reads fits key items start token answer stops read) (request : τ) :
    ∃ calls, follow read calls request = some ((upTo stops (readPages fits
      (startingAt key (start request) items))).map answer) := by
  induction size : (startingAt key (start request) items).length
    using Nat.strong_induction_on generalizing request with
  | _ size ih =>
    have isAnswer := reads.answers request
    have isNext := reads.next request
    by_cases nothing : startingAt key (start request) items = []
    · refine ⟨1, ?_⟩
      rw [nothing] at isAnswer isNext ⊢
      rw [show (firstPage fits ([] : List α)) = ([], []) from rfl] at isAnswer isNext
      have noNext : (read request).2 = none := by simpa using isNext
      simp [Peridot.follow, noNext, isAnswer, readPages, upTo]
    · have whole := firstPage_append fits
        (startingAt key (start request) items)
      have less := length_firstPage_lt fits nothing
      rw [readPages, if_neg nothing, pages_eq nothing, upTo]
      split at isNext
      · rename_i isStop
        refine ⟨1, ?_⟩
        simp [Peridot.follow, isNext, isAnswer, isStop]
      · rename_i notStop
        cases left : (firstPage fits (startingAt key (start request) items)).2 with
        | nil =>
          refine ⟨1, ?_⟩
          rw [left] at isNext
          simp [Peridot.follow, isNext, isAnswer, notStop, pages, upTo]
        | cons item rest =>
          rw [left] at isNext less
          obtain ⟨inItems, restStarts⟩ := startingAt_left reads.sorted left
          rw [← reads.startToken item inItems] at restStarts
          obtain ⟨calls, followed⟩ := ih (item :: rest).length (by omega)
            (token (key item)) (by rw [restStarts])
          rw [restStarts, readPages, if_neg (by simp)] at followed
          refine ⟨calls + 1, ?_⟩
          simp [Peridot.follow, isNext, isAnswer, notStop, followed]

end Reader

variable {stops : List α → Bool}

theorem upTo_eq_self {pages : List (List α)}
    (goesOn : ∀ page ∈ pages.dropLast, stops page = false) : upTo stops pages = pages := by
  induction pages with
  | nil => rfl
  | cons page pages ih =>
    cases pages with
    | nil => simp [upTo]
    | cons second pages =>
      rw [dropLast_cons_cons] at goesOn
      rw [upTo, if_neg (by simp [goesOn page (by simp)]), ih fun other isOther =>
        goesOn other (mem_cons_of_mem page isOther)]

theorem upTo_isPrefix (stops : List α → Bool) (pages : List (List α)) :
    upTo stops pages <+: pages := by
  induction pages with
  | nil => exact prefix_rfl
  | cons page pages ih =>
    rw [upTo]
    split
    · exact ⟨pages, rfl⟩
    · exact cons_prefix_cons.mpr ⟨rfl, ih⟩

/-- Everything is read if and only if the reader stops at no page but the last one. -/
theorem length_flatten_upTo_eq_iff {pages : List (List α)} (notEmpty : ∀ page ∈ pages, page ≠ []) :
    (upTo stops pages).flatten.length = pages.flatten.length ↔
      ∀ page ∈ pages.dropLast, stops page = false := by
  constructor
  · intro sameLength
    induction pages with
    | nil => simp
    | cons page pages ih =>
      cases pages with
      | nil => simp
      | cons second pages =>
        have isMore := length_pos_iff.mpr (notEmpty second (by simp))
        rw [upTo] at sameLength
        rw [dropLast_cons_cons, forall_mem_cons]
        cases isStop : stops page with
        | true =>
          rw [if_pos isStop] at sameLength
          simp only [flatten_cons, flatten_nil, length_append, length_nil] at sameLength
          omega
        | false =>
          rw [if_neg (by simp [isStop]), flatten_cons, flatten_cons,
            length_append, length_append, Nat.add_left_cancel_iff] at sameLength
          exact ⟨rfl, ih (fun other isOther =>
            notEmpty other (mem_cons_of_mem page isOther)) sameLength⟩
  · intro goesOn
    rw [upTo_eq_self goesOn]

/-- What starts the page after another did not fit on it. -/
theorem not_fits_of_mem_dropLast (isPage : page ∈ (pages fits items).dropLast) :
    ∃ item ∈ items, fits page item = false := by
  have fromGiven : ∀ (items given : List α), page ∈ (pagesFrom fits given items).dropLast →
      ∃ item ∈ items, fits page item = false := by
    intro items
    induction items with
    | nil => simp [pagesFrom]
    | cons item items ih =>
      intro given isPage
      rw [pagesFrom] at isPage
      split at isPage
      · obtain ⟨other, isOther, notFits⟩ := ih _ isPage
        exact ⟨other, mem_cons_of_mem item isOther, notFits⟩
      · rename_i notFits
        rw [dropLast_cons_of_ne_nil (by simp [pagesFrom_eq])] at isPage
        rcases mem_cons.mp isPage with rfl | isLater
        · exact ⟨item, by simp, by simpa using notFits⟩
        · obtain ⟨other, isOther, notFitsOther⟩ := ih _ isLater
          exact ⟨other, mem_cons_of_mem item isOther, notFitsOther⟩
  cases items with
  | nil => exact absurd isPage (by simp [pages])
  | cons item items =>
    obtain ⟨other, isOther, notFits⟩ := fromGiven items [item] isPage
    exact ⟨other, mem_cons_of_mem item isOther, notFits⟩

end GreedyPages

end Peridot
