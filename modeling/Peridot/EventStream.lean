import Mathlib.Data.List.DropRight
import Peridot.PageStorage

/-!
# Streams of server-sent events

`EventStream` of `event_stream.cc` gets a stream of bytes in pieces, and reports the events that
its lines describe.  What it reports does not depend on the pieces; the W3C's interpretation of an
event stream prescribes it where no value has other spaces than one in front.
-/

namespace Peridot

open List

def newline : UInt8 :=
  UInt8.ofNat '\n'.toNat

def colon : UInt8 :=
  UInt8.ofNat ':'.toNat

def space : UInt8 :=
  UInt8.ofNat ' '.toNat

def kEventField : Bytes :=
  ascii ['e', 'v', 'e', 'n', 't']

def kDataField : Bytes :=
  ascii ['d', 'a', 't', 'a']

structure StreamEvent where
  type : Bytes
  data : Bytes
deriving DecidableEq

/-- `EventStream` with what it has reported, and whether a callback has deleted it. -/
structure EventStream where
  pendingLine : Bytes
  data : Bytes
  eventType : Bytes
  reported : List StreamEvent
  destructed : Bool

/-- `TrimString(value, " ")`. -/
def trimSpaces (value : Bytes) : Bytes :=
  (value.dropWhile (· = space)).rdropWhile (· = space)

variable {stream : EventStream}

namespace EventStream

def new : EventStream :=
  ⟨[], [], [], [], false⟩

def processField (stream : EventStream) (field value : Bytes) : EventStream :=
  if field = kEventField then { stream with eventType := value }
  else if field = kDataField then { stream with data := stream.data ++ (value ++ [newline]) }
  else stream

/-- The callback of the last event deletes the stream if `deletes` holds; then the result is
`false`. -/
def processLine (deletes : List StreamEvent → Bool) (stream : EventStream) (line : Bytes) :
    EventStream :=
  match line with
  | [] =>
    if stream.data = [] then { stream with eventType := [] }
    else
      let data := if stream.data.getLast? = some newline then stream.data.dropLast
        else stream.data
      let reported := stream.reported ++ [⟨stream.eventType, data⟩]
      if deletes reported then { stream with reported, destructed := true }
      else { stream with reported, eventType := [], data := [] }
  | first :: _ =>
    if first = colon then stream
    else if colon ∈ line then
      stream.processField (line.takeWhile (· ≠ colon))
        (trimSpaces (line.dropWhile (· ≠ colon)).tail)
    else stream.processField line []

def onDataAvailable (deletes : List StreamEvent → Bool) (stream : EventStream) (current : Bytes) :
    EventStream :=
  let appended := { stream with
    pendingLine := stream.pendingLine ++ current.takeWhile (· ≠ newline) }
  match _found : current.dropWhile (· ≠ newline) with
  | [] => appended
  | _ :: rest =>
    let processed := appended.processLine deletes appended.pendingLine
    if processed.destructed then processed
    else onDataAvailable deletes { processed with pendingLine := [] } rest
termination_by current.length
decreasing_by
  have shorter := (List.dropWhile_sublist (p := (· ≠ newline)) (l := current)).length_le
  rw [_found] at shorter
  exact shorter

def receive (deletes : List StreamEvent → Bool) (stream : EventStream) (pieces : List Bytes) :
    EventStream :=
  pieces.foldl (fun stream piece =>
    if stream.destructed then stream else stream.onDataAvailable deletes piece) stream

def readByte (deletes : List StreamEvent → Bool) (stream : EventStream) (byte : UInt8) :
    EventStream :=
  if stream.destructed then stream
  else if byte = newline then
    let processed := stream.processLine deletes stream.pendingLine
    if processed.destructed then processed else { processed with pendingLine := [] }
  else { stream with pendingLine := stream.pendingLine ++ [byte] }

variable {deletes : List StreamEvent → Bool}

theorem foldl_readByte_destructed (destructed : stream.destructed = true)
    (bytes : Bytes) : bytes.foldl (readByte deletes) stream = stream := by
  induction bytes with
  | nil => rfl
  | cons byte bytes ih => rw [foldl_cons, readByte, if_pos destructed, ih]

theorem foldl_readByte_line (alive : stream.destructed = false)
    {bytes : Bytes} (inLine : newline ∉ bytes) : bytes.foldl (readByte deletes) stream =
      { stream with pendingLine := stream.pendingLine ++ bytes } := by
  induction bytes generalizing stream with
  | nil => simp
  | cons byte bytes ih =>
    rw [mem_cons, not_or] at inLine
    obtain ⟨differs, inLine⟩ := inLine
    rw [foldl_cons, readByte, if_neg (by simp [alive]), if_neg (Ne.symm differs),
      ih (by exact alive) inLine]
    simp

theorem foldl_readByte_newline (alive : stream.destructed = false) (rest : Bytes) :
    (newline :: rest).foldl (readByte deletes) stream =
      let processed := stream.processLine deletes stream.pendingLine
      if processed.destructed then processed
      else rest.foldl (readByte deletes) { processed with pendingLine := [] } := by
  rw [foldl_cons, readByte, if_neg (by simp [alive]), if_pos rfl]
  dsimp only
  split
  · rename_i destructed
    exact foldl_readByte_destructed destructed rest
  · rfl

theorem takeWhile_newline (current : Bytes) : newline ∉ current.takeWhile (· ≠ newline) :=
  fun member => by simpa using mem_takeWhile_imp member

theorem onDataAvailable_eq (alive : stream.destructed = false) (current : Bytes) :
    stream.onDataAvailable deletes current = current.foldl (readByte deletes) stream := by
  induction length : current.length using Nat.strong_induction_on generalizing stream current with
  | _ n ih =>
    have inLine := takeWhile_newline current
    have cut := takeWhile_append_dropWhile (p := (· ≠ newline)) (l := current)
    rw [onDataAvailable]
    split
    · rename_i found
      rw [found, append_nil] at cut
      rw [← foldl_readByte_line alive inLine, cut]
    · rename_i byte rest found
      have isNewline : byte = newline := by
        have head := head?_dropWhile_not (· ≠ newline) current
        rw [found] at head
        simpa using head
      subst isNewline
      rw [found] at cut
      conv_rhs => rw [← cut, foldl_append, foldl_readByte_line alive inLine]
      rw [foldl_readByte_newline (by exact alive)]
      dsimp only
      split
      · rfl
      · rename_i going
        have shorter : rest.length < n := by
          rw [← length, ← cut]
          simp only [length_append, length_cons]
          omega
        exact ih rest.length shorter (by simpa using going) rest rfl

theorem receive_eq (stream : EventStream) (pieces : List Bytes) :
    stream.receive deletes pieces = pieces.flatten.foldl (readByte deletes) stream := by
  induction pieces generalizing stream with
  | nil => rfl
  | cons piece pieces ih =>
    rw [receive, foldl_cons, ← receive, ih, flatten_cons, foldl_append]
    split
    · rename_i destructed
      rw [foldl_readByte_destructed destructed piece]
    · rename_i alive
      rw [onDataAvailable_eq (by simpa using alive)]

/-- Two ways to cut a stream into pieces make no difference, also if a callback deletes it. -/
theorem reported_eq_of_flatten_eq (deletes : List StreamEvent → Bool) {pieces others : List Bytes}
    (same : pieces.flatten = others.flatten) :
    (new.receive deletes pieces).reported = (new.receive deletes others).reported := by
  rw [receive_eq, receive_eq, same]

theorem reported_eq_of_flatten_eq_line :
    let whole := new.receive (fun _ => false) [kDataField ++ [colon, 42, newline, newline]]
    whole.reported = [⟨[], [42]⟩] ∧ (new.receive (fun _ => false)
      [kDataField.take 2, kDataField.drop 2 ++ [colon, 42], [newline, newline]]).reported =
        whole.reported := by
  refine ⟨?_, reported_eq_of_flatten_eq _ (by decide)⟩
  rw [receive_eq]
  decide

end EventStream

/-- The name and the value of the field of a line, which is its own name if it has no colon. -/
def fieldOf (line : Bytes) : Bytes × Bytes :=
  (line.takeWhile (· ≠ colon), (line.dropWhile (· ≠ colon)).tail)

/-- The values of the fields of a name, as they follow the colon. -/
def fieldValues (field : Bytes) (block : List Bytes) : List Bytes :=
  block.filterMap fun line => if (fieldOf line).1 = field then some (fieldOf line).2 else none

/-- The event that a block of lines describes, with `strip` for the spaces of a value. -/
def eventOf (strip : Bytes → Bytes) (block : List Bytes) : Option StreamEvent :=
  if fieldValues kDataField block = [] then none
  else some ⟨((fieldValues kEventField block).getLast?.map strip).getD [],
    [newline].intercalate ((fieldValues kDataField block).map strip)⟩

/-- The blocks of lines that a blank line ends, where `block` has been read. -/
def blocksFrom (block : List Bytes) : List Bytes → List (List Bytes)
  | [] => []
  | [] :: lines => block :: blocksFrom [] lines
  | (first :: line) :: lines => blocksFrom (block ++ [first :: line]) lines

/-- A value less one leading space. -/
def stripOne (value : Bytes) : Bytes :=
  if value.head? = some space then value.tail else value

/-- The events that the specification prescribes. -/
def prescribedEvents (lines : List Bytes) : List StreamEvent :=
  (blocksFrom [] lines).filterMap (eventOf stripOne)

/-- Less one leading space, the value neither starts nor ends with a space. -/
def SpacedOnce (value : Bytes) : Prop :=
  (stripOne value).head? ≠ some space ∧ (stripOne value).getLast? ≠ some space
deriving Decidable

theorem dropWhile_space {value : Bytes} (noSpace : value.head? ≠ some space) :
    value.dropWhile (· = space) = value := by
  cases value with
  | nil => rfl
  | cons first value =>
    have differs : first ≠ space := by simpa using noSpace
    simp [differs]

theorem head?_dropWhile_space (value : Bytes) :
    (value.dropWhile (· = space)).head? ≠ some space := by
  intro isSpace
  have head := head?_dropWhile_not (· = space) value
  rw [isSpace] at head
  simp at head

theorem trimSpaces_eq_iff (value : Bytes) :
    trimSpaces value = stripOne value ↔ SpacedOnce value := by
  constructor
  · intro same
    rw [SpacedOnce, ← same]
    constructor
    · intro isSpace
      obtain ⟨rest, whole⟩ := rdropWhile_prefix (· = space) (l := value.dropWhile (· = space))
      apply head?_dropWhile_space value
      rw [← whole, head?_append, ← trimSpaces, isSpace, Option.some_or]
    · rw [trimSpaces, rdropWhile, getLast?_reverse]
      exact head?_dropWhile_space _
  · rintro ⟨noHead, noLast⟩
    have dropped : value.dropWhile (· = space) = stripOne value := by
      by_cases isSpace : value.head? = some space
      · obtain ⟨rest, rfl⟩ : ∃ rest, value = space :: rest :=
          ⟨value.tail, eq_cons_of_mem_head? isSpace⟩
        have strip : stripOne (space :: rest) = rest := if_pos rfl
        rw [strip] at noHead ⊢
        simpa using dropWhile_space noHead
      · rw [stripOne, if_neg isSpace, dropWhile_space isSpace]
    rw [trimSpaces, dropped, rdropWhile_eq_self_iff]
    intro nonempty
    rw [getLast?_eq_some_getLast nonempty] at noLast
    simpa using noLast

variable {block : List Bytes}

namespace EventStream

theorem processLine_cons (stream : EventStream) (first : UInt8) (line : Bytes) :
    stream.processLine deletes (first :: line) =
      stream.processField (fieldOf (first :: line)).1 (trimSpaces (fieldOf (first :: line)).2) := by
  rw [processLine]
  split
  · rename_i isColon
    subst isColon
    simp [fieldOf, processField, kEventField, kDataField, ascii]
  · split
    · rfl
    · rename_i noColon
      have name : (first :: line).takeWhile (· ≠ colon) = first :: line :=
        takeWhile_eq_self_iff.mpr (by grind)
      have value : (first :: line).dropWhile (· ≠ colon) = [] := dropWhile_eq_nil_iff.mpr (by grind)
      rw [fieldOf, name, value]
      rfl

/-- What the stream keeps of the lines since the last blank one. -/
structure Reads (block : List Bytes) (events : List StreamEvent) (stream : EventStream) :
    Prop where
  pendingLine : stream.pendingLine = []
  data : stream.data =
    ((fieldValues kDataField block).map trimSpaces).flatMap (· ++ [newline])
  eventType : stream.eventType =
    ((fieldValues kEventField block).getLast?.map trimSpaces).getD []
  reported : stream.reported = events
  alive : stream.destructed = false

variable {events : List StreamEvent}

theorem Reads.line (reads : Reads block events stream) {line : Bytes} (nonempty : line ≠ []) :
    Reads (block ++ [line]) events { stream.processLine deletes line with pendingLine := [] } := by
  obtain ⟨first, line, rfl⟩ := exists_cons_of_ne_nil nonempty
  have different : kEventField ≠ kDataField := by decide
  have values (field : Bytes) : fieldValues field (block ++ [first :: line]) =
      fieldValues field block ++
        if (fieldOf (first :: line)).1 = field then [(fieldOf (first :: line)).2] else [] := by
    rw [fieldValues, filterMap_append]
    split <;> rename_i isField <;> simp [fieldValues, isField]
  rw [processLine_cons, processField]
  split
  · rename_i isEvent
    refine ⟨rfl, ?_, ?_, reads.reported, reads.alive⟩
    · rw [values, isEvent, if_neg different, append_nil]
      exact reads.data
    · simp [values, isEvent]
  · rename_i notEvent
    have sameType : stream.eventType =
        ((fieldValues kEventField (block ++ [first :: line])).getLast?.map trimSpaces).getD [] := by
      rw [values, if_neg notEvent, append_nil]
      exact reads.eventType
    split
    · rename_i isData
      refine ⟨rfl, ?_, sameType, reads.reported, reads.alive⟩
      simp [values, isData, reads.data]
    · rename_i notData
      refine ⟨rfl, ?_, sameType, reads.reported, reads.alive⟩
      rw [values, if_neg notData, append_nil]
      exact reads.data

theorem flatMap_newline {values : List Bytes} (nonempty : values ≠ []) :
    values.flatMap (· ++ [newline]) = [newline].intercalate values ++ [newline] := by
  induction values with
  | nil => exact absurd rfl nonempty
  | cons value values ih =>
    cases values with
    | nil => simp
    | cons next values =>
      rw [flatMap_cons, ih (cons_ne_nil _ _), intercalate_cons_cons]
      simp

variable (reads : Reads block events stream)
include reads

theorem Reads.blank : Reads [] (events ++ (eventOf trimSpaces block).toList)
      { stream.processLine (fun _ => false) [] with pendingLine := [] } := by
  by_cases noData : fieldValues kDataField block = []
  · have empty : stream.data = [] := by rw [reads.data, noData]; rfl
    rw [processLine, if_pos empty, eventOf, if_pos noData]
    exact ⟨rfl, empty, rfl, by simp [reads.reported], reads.alive⟩
  · have joined : stream.data =
        [newline].intercalate ((fieldValues kDataField block).map trimSpaces) ++ [newline] := by
      rw [reads.data, flatMap_newline (by simpa using noData)]
    rw [processLine, if_neg (by simp [joined]), eventOf, if_neg noData]
    refine ⟨rfl, rfl, rfl, ?_, reads.alive⟩
    simp [joined, reads.reported, reads.eventType]

theorem Reads.foldl_readByte {line : Bytes}
    (inLine : newline ∉ line) : (line ++ [newline]).foldl (readByte fun _ => false) stream =
      { stream.processLine (fun _ => false) line with pendingLine := [] } := by
  have alive : (stream.processLine (fun _ => false) line).destructed = false := by
    cases line with
    | nil => exact reads.blank.alive
    | cons first line => exact (reads.line (cons_ne_nil _ _)).alive
  have ofLine : EventStream.processLine (fun _ => false) { stream with pendingLine := line } line =
      { stream.processLine (fun _ => false) line with pendingLine := line } := by
    cases line <;> simp only [processLine, processField] <;> split_ifs <;> rfl
  rw [foldl_append, foldl_readByte_line reads.alive inLine, reads.pendingLine,
    nil_append, foldl_readByte_newline (by exact reads.alive), ofLine]
  simp [alive]

theorem Reads.reported_lines {lines : List Bytes} (inLine : ∀ line ∈ lines, newline ∉ line) :
    ((lines.flatMap (· ++ [newline])).foldl (readByte fun _ => false) stream).reported =
      events ++ (blocksFrom block lines).filterMap (eventOf trimSpaces) := by
  induction lines generalizing block events stream with
  | nil => simp [blocksFrom, reads.reported]
  | cons line lines ih =>
    obtain ⟨ofLine, ofLines⟩ := forall_mem_cons.mp inLine
    rw [flatMap_cons, foldl_append, reads.foldl_readByte ofLine]
    cases line with
    | nil =>
      rw [ih reads.blank ofLines, blocksFrom, filterMap_cons]
      cases eventOf trimSpaces block <;> simp
    | cons first line => rw [ih (reads.line (cons_ne_nil _ _)) ofLines, blocksFrom]

end EventStream

theorem trimSpaces_sublist (value : Bytes) : (trimSpaces value).Sublist (stripOne value) := by
  refine ( rdropWhile_prefix _ _).sublist.trans ?_
  by_cases isSpace : value.head? = some space
  · obtain ⟨rest, rfl⟩ : ∃ rest, value = space :: rest :=
      ⟨value.tail, eq_cons_of_mem_head? isSpace⟩
    have strip : stripOne (space :: rest) = rest := if_pos rfl
    rw [strip, dropWhile_cons_of_pos (by simp)]
    exact dropWhile_sublist _
  · rw [stripOne, if_neg isSpace]
    exact dropWhile_sublist _

/-- What is stripped off makes the joined values shorter. -/
theorem flatMap_strip_iff (values : List Bytes) :
    ((values.map trimSpaces).flatMap (· ++ [newline])).length ≤
        ((values.map stripOne).flatMap (· ++ [newline])).length ∧
      ((values.map trimSpaces).flatMap (· ++ [newline]) =
        (values.map stripOne).flatMap (· ++ [newline]) ↔ ∀ value ∈ values, SpacedOnce value) := by
  induction values with
  | nil => simp
  | cons value values ih =>
    have shorter := (trimSpaces_sublist value).length_le
    rw [forall_mem_cons, ← ih.2, ← trimSpaces_eq_iff]
    simp only [map_cons, flatMap_cons]
    refine ⟨by simp only [length_append]; omega, ?_, fun same => by rw [same.1, same.2]⟩
    intro same
    have lengths := congrArg length same
    simp only [length_append] at lengths
    have sameValue := (trimSpaces_sublist value).eq_of_length (by omega)
    rw [sameValue] at same
    exact ⟨sameValue, append_cancel_left same⟩

theorem eventOf_eq_iff (hasData : fieldValues kDataField block ≠ []) :
    eventOf trimSpaces block = eventOf stripOne block ↔
      (∀ value ∈ fieldValues kDataField block, SpacedOnce value) ∧
        ∀ value ∈ (fieldValues kEventField block).getLast?, SpacedOnce value := by
  rw [eventOf, eventOf, if_neg hasData, if_neg hasData, Option.some_inj, StreamEvent.mk.injEq,
    ← (flatMap_strip_iff _).2, EventStream.flatMap_newline (by simpa using hasData),
    EventStream.flatMap_newline (by simpa using hasData), append_left_inj, and_comm,
    and_congr_right_iff]
  intro _
  cases (fieldValues kEventField block).getLast? <;> simp [trimSpaces_eq_iff]

theorem filterMap_eq_iff {α β : Type} {f g : α → Option β} {xs : List α}
    (both : ∀ x ∈ xs, f x = none ↔ g x = none) :
    xs.filterMap f = xs.filterMap g ↔ ∀ x ∈ xs, f x = g x := by
  induction xs with
  | nil => simp
  | cons x xs ih =>
    obtain ⟨ofHead, ofTail⟩ := forall_mem_cons.mp both
    rw [forall_mem_cons, ← ih ofTail, filterMap_cons, filterMap_cons]
    cases hf : f x <;> cases hg : g x <;> simp_all

/-- The stream reports what the specification prescribes exactly if, in each block that is an
event, the values of its data and of its type have no other spaces than one in front. -/
theorem reported_eq_prescribedEvents_iff {lines pieces : List Bytes}
    (inLine : ∀ line ∈ lines, newline ∉ line)
    (terminated : pieces.flatten = lines.flatMap (· ++ [newline])) :
    (EventStream.new.receive (fun _ => false) pieces).reported = prescribedEvents lines ↔
      ∀ block ∈ blocksFrom [] lines, fieldValues kDataField block ≠ [] →
        (∀ value ∈ fieldValues kDataField block, SpacedOnce value) ∧
          ∀ value ∈ (fieldValues kEventField block).getLast?, SpacedOnce value := by
  have start : EventStream.Reads [] [] .new := ⟨rfl, rfl, rfl, rfl, rfl⟩
  have none_iff (strip : Bytes → Bytes) (block : List Bytes) :
      eventOf strip block = none ↔ fieldValues kDataField block = [] := by
    rw [eventOf]
    split <;> simp [*]
  rw [EventStream.receive_eq, terminated, start.reported_lines inLine, nil_append,
    prescribedEvents, filterMap_eq_iff fun block _ => by rw [none_iff, none_iff]]
  refine forall₂_congr fun block _ => ?_
  by_cases hasData : fieldValues kDataField block = []
  · rw [(none_iff trimSpaces block).mpr hasData, (none_iff stripOne block).mpr hasData]
    simp [hasData]
  · simp [eventOf_eq_iff hasData, hasData]

theorem reported_eq_prescribedEvents_plain :
    (EventStream.new.receive (fun _ => false)
      [kDataField ++ [colon, space, 42, newline, newline]]).reported =
        prescribedEvents [kDataField ++ [colon, space, 42], []] :=
  (reported_eq_prescribedEvents_iff (by decide) (by decide)).mpr (by decide)

/-- The space at the end of a value is lost. -/
theorem reported_ne_prescribedEvents :
    (EventStream.new.receive (fun _ => false)
      [kDataField ++ [colon, 42, space, newline, newline]]).reported ≠
      prescribedEvents [kDataField ++ [colon, 42, space], []] := by
  rw [EventStream.receive_eq]
  decide

end Peridot
