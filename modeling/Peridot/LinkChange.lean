import Peridot.LedgerKeys

/-!
# Changes of links

The value of a link is the result of the changes that are stored for it, in the order of their
keys.  The JSON library is a parameter: what `LinkImpl` calls of it, and nothing of how its
values are laid out.
-/

namespace Peridot

open List

/-- The JSON library.  Pointers are the texts of their segments. -/
structure Rapidjson where
  Value : Type
  null : Value
  /-- `Parse`, without a value when `HasParseError`. -/
  parse : Bytes → Option Value
  /-- `JsonValueToString`. -/
  print : Value → Bytes
  /-- The members of a value that `IsObject`. -/
  members : Value → Option (List (Bytes × Value))
  object : List (Bytes × Value) → Value
  equal : Value → Value → Bool
  set : List Bytes → Value → Value → Value
  /-- `Create`, and what is then written to the value that it refers to. -/
  create : List Bytes → (Value → Value) → Value → Value
  erase : List Bytes → Value → Value × Bool

inductive LinkChangeOp where
  | set
  | update
  | erase
deriving DecidableEq

/-- What a client asks for: a `LinkChange` whose key is null. -/
structure LinkEdit where
  op : LinkChangeOp
  pointer : List Bytes
  json : Option Bytes
deriving DecidableEq

/-- `LinkChange` with its key.  No function reads `origin`: it is the path of the `LinkImpl` that
has made the change. -/
structure LinkChange extends LinkEdit where
  key : Bytes
  origin : LinkPath
deriving DecidableEq

def kEncodingDictionary : Bytes :=
  ascii ['-', '0', '1', '2', '3', '4', '5', '6', '7', '8', '9', 'A', 'B', 'C', 'D', 'E', 'F', 'G',
    'H', 'I', 'J', 'K', 'L', 'M', 'N', 'O', 'P', 'Q', 'R', 'S', 'T', 'U', 'V', 'W', 'X', 'Y', 'Z',
    '_', 'a', 'b', 'c', 'd', 'e', 'f', 'g', 'h', 'i', 'j', 'k', 'l', 'm', 'n', 'o', 'p', 'q', 'r',
    's', 't', 'u', 'v', 'w', 'x', 'y', 'z']

/-- The last `count` digits of a number in base 64, the lowest at the end. -/
def encodeDigits : ℕ → ℕ → Bytes
  | 0, _ => []
  | count + 1, number =>
    encodeDigits count (number / 64) ++ [kEncodingDictionary.getD (number % 64) 0]

structure KeyGenerator where
  lastGenTime : UInt64
  lastRandom : UInt64

/-- `KeyGenerator::Create`, with what the clock and the random numbers give. -/
def KeyGenerator.create (generator : KeyGenerator) (milliseconds randomNumber : UInt64) :
    Bytes × KeyGenerator :=
  let lastRandom :=
    if milliseconds = generator.lastGenTime then generator.lastRandom + 1 else randomNumber
  (encodeDigits 8 milliseconds.toNat ++ encodeDigits 10 lastRandom.toNat,
    ⟨milliseconds, lastRandom⟩)

namespace Rapidjson

variable (json : Rapidjson)

/-- The loop of `MergeObject` for one member of the source. -/
def mergeMember : List (Bytes × json.Value) → Bytes × json.Value →
    List (Bytes × json.Value) × Bool
  | [], member => ([member], true)
  | (name, value) :: members, member =>
    if name = member.1 then
      if json.equal member.2 value then ((name, value) :: members, false)
      else ((name, member.2) :: members, true)
    else
      let merged := mergeMember members member
      ((name, value) :: merged.1, merged.2)

def mergeObject (target source : json.Value) : json.Value × Bool :=
  match json.members source with
  | none => (target, false)
  | some sourceMembers =>
    match json.members target with
    | none => (source, true)
    | some targetMembers =>
      let merged := sourceMembers.foldl (fun result member =>
        let next := json.mergeMember result.1 member
        (next.1, result.2 || next.2)) (targetMembers, false)
      (json.object merged.1, merged.2)

def applySetOp (doc : json.Value) (pointer : List Bytes) (text : Bytes) : json.Value × Bool :=
  match json.parse text with
  | none => (doc, false)
  | some newValue => (json.set pointer newValue doc, true)

def applyUpdateOp (doc : json.Value) (pointer : List Bytes) (text : Bytes) : json.Value × Bool :=
  match json.parse text with
  | none => (doc, false)
  | some newValue =>
    (json.create pointer (fun currentValue => (json.mergeObject currentValue newValue).1) doc, true)

def applyEraseOp (doc : json.Value) (pointer : List Bytes) : json.Value × Bool :=
  json.erase pointer doc

/-- `ApplyChange`.  A string that is null is read as an empty one. -/
def applyChange (doc : json.Value) (change : LinkChange) : json.Value × Bool :=
  match change.op with
  | .set => json.applySetOp doc change.pointer (change.json.getD [])
  | .update => json.applyUpdateOp doc change.pointer (change.json.getD [])
  | .erase => json.applyEraseOp doc change.pointer

def applyChanges (changes : List LinkChange) : json.Value :=
  changes.foldl (fun doc change => (json.applyChange doc change).1) json.null

theorem applyChanges_append_singleton (changes : List LinkChange) (change : LinkChange) :
    json.applyChanges (changes ++ [change]) =
      (json.applyChange (json.applyChanges changes) change).1 := by
  rw [applyChanges, foldl_append]
  rfl

def normalizeJson : Option Bytes → Option (Option Bytes)
  | none => some none
  | some text => (json.parse text).map fun value => some (json.print value)

/-- The values `null` and arrays of numbers, and the pointers to a value as a whole and to the
first element of an array. -/
def numbers : Rapidjson where
  Value := Option (List Bytes)
  null := none
  parse text :=
    if text = ascii ['n', 'u', 'l', 'l'] then some none
    else if text = ascii ['[', ']'] then some (some [])
    else if text.head? = some 91 ∧ text.getLast? = some 93 then
      some (some (text.tail.dropLast.splitOn 44))
    else none
  print value :=
    match value with
    | none => ascii ['n', 'u', 'l', 'l']
    | some elements => ascii ['['] ++ (ascii [',']).intercalate elements ++ ascii [']']
  members _ := none
  object _ := none
  equal first second := first = second
  set pointer value doc := if pointer = [] then value else doc
  create pointer write doc := if pointer = [] then write doc else doc
  erase pointer doc :=
    match pointer, doc with
    | [[48]], some (_ :: elements) => (some elements, true)
    | _, doc => (doc, false)

end Rapidjson

/-- The part of `Replay` that takes the pending changes up to a stored one, and goes on with
`later` for the stored changes after it. -/
def replayUntil (change : LinkChange) (later : List LinkChange → List LinkChange) :
    List LinkChange → List LinkChange
  | [] => change :: later []
  | pending :: pendingOps =>
    if change.key = pending.key then change :: later pendingOps
    else if change.key < pending.key then change :: later (pending :: pendingOps)
    else pending :: replayUntil change later pendingOps

/-- The order in which `Replay` applies the stored changes and the pending ones. -/
def replayOrder : List LinkChange → List LinkChange → List LinkChange
  | [], pendingOps => pendingOps
  | change :: changes, pendingOps => replayUntil change (replayOrder changes) pendingOps

theorem mem_of_mem_replayOrder {changes pendingOps : List LinkChange} {member : LinkChange}
    (isMember : member ∈ replayOrder changes pendingOps) :
    member ∈ changes ∨ member ∈ pendingOps := by
  induction changes generalizing pendingOps with
  | nil => exact .inr isMember
  | cons change changes ih =>
    rw [replayOrder] at isMember
    induction pendingOps with
    | nil =>
      rcases mem_cons.mp isMember with rfl | later
      · exact .inl mem_cons_self
      · exact (ih later).imp_left (mem_cons_of_mem _)
    | cons pending pendingOps ihPending =>
      rw [replayUntil] at isMember
      split at isMember
      · rcases mem_cons.mp isMember with rfl | later
        · exact .inl mem_cons_self
        · exact (ih later).imp (mem_cons_of_mem _) (mem_cons_of_mem _)
      split at isMember
      · rcases mem_cons.mp isMember with rfl | later
        · exact .inl mem_cons_self
        · exact (ih later).imp_left (mem_cons_of_mem _)
      · rcases mem_cons.mp isMember with rfl | later
        · exact .inr mem_cons_self
        · exact (ihPending later).imp_right (mem_cons_of_mem _)

/-- Pending changes that are stored already do not change the order of the stored ones. -/
theorem replayOrder_of_sublist {changes pendingOps : List LinkChange}
    (sorted : KeyedList.Sorted LinkChange.key changes) (stored : pendingOps.Sublist changes) :
    replayOrder changes pendingOps = changes := by
  induction changes generalizing pendingOps with
  | nil => rw [sublist_nil.mp stored, replayOrder]
  | cons change changes ih =>
    obtain ⟨smallest, sorted⟩ := KeyedList.sorted_cons.mp sorted
    rw [replayOrder]
    cases pendingOps with
    | nil => rw [replayUntil, ih sorted (nil_sublist _)]
    | cons pending pendingOps =>
      rw [replayUntil]
      cases stored with
      | cons _ later =>
        have less : change.key < pending.key := smallest _ (later.subset mem_cons_self)
        rw [if_neg less.ne, if_pos less, ih sorted later]
      | cons_cons _ later => rw [if_pos rfl, ih sorted later]

end Peridot
