import Mathlib.Data.List.TakeWhile
import Peridot.JsonValue
import Peridot.PageStorage
import Peridot.Registry
import Peridot.StringEscape

/-!
# References to entities

`EntityProviderRunner` makes a reference from the url of an agent and a cookie, or from the data
of an entity itself, and resolves a reference to one of them.
-/

namespace Peridot

open List Registry JsonValue

def kEntityReferencePrefix : Bytes :=
  ascii ['E', 'n', 't', 'i', 't', 'y', 'R', 'e', 'f']

def kEntityDataReferencePrefix : Bytes :=
  ascii ['E', 'n', 't', 'i', 't', 'y', 'D', 'a', 't', 'a']

def kDataEntityMaxByteSize : ℕ :=
  1024 * 16

def slash : UInt8 :=
  UInt8.ofNat '/'.toNat

def backslash : UInt8 :=
  UInt8.ofNat '\\'.toNat

/-- What comes of a request for an entity.  An entity of data that is there already was made from
the same reference. -/
inductive ResolvedEntity where
  | closed
  | provided (agentUrl cookie : Bytes)
  | data (typeToData : Bytes → Option Bytes)

/-! ## The map of the data in JSON -/

def kXdrKey : Bytes :=
  ascii ['@', 'k']

def kXdrValue : Bytes :=
  ascii ['@', 'v']

/-- `XdrFilter` writes a map as an array of its entries. -/
def xdrWriteMap (typeToData : List (Bytes × Bytes)) : JsonValue :=
  .array (typeToData.map fun entry =>
    .object [(kXdrKey, .string entry.1), (kXdrValue, .string entry.2)])

/-- What is left of a string that is assigned from `GetString()`. -/
def getString (text : Bytes) : Bytes :=
  text.takeWhile (· ≠ 0)

def xdrReadString : Option JsonValue → Option Bytes
  | some (.string text) => some (getString text)
  | _ => none

def xdrReadEntry : JsonValue → Option (Bytes × Bytes)
  | .object members => do
    let key ← xdrReadString (member members kXdrKey)
    let value ← xdrReadString (member members kXdrValue)
    return (key, value)
  | _ => none

/-- `emplace` leaves the entry of a key that has one. -/
def emplace (data : Bytes → Option Bytes) (entry : Bytes × Bytes) : Bytes → Option Bytes :=
  fun key => (data key).or (if entry.1 = key then some entry.2 else none)

def xdrReadMap : JsonValue → Option (Bytes → Option Bytes)
  | .array elements => (elements.mapM xdrReadEntry).map (·.foldl emplace fun _ => none)
  | _ => none

/-! ## References -/

def encodeEntityReference (agentUrl cookie : Bytes) : Bytes :=
  [slash].intercalate [kEntityReferencePrefix, stringEscape [slash] backslash agentUrl,
    stringEscape [slash] backslash cookie]

def decodeEntityReference (reference : Bytes) : Option (Bytes × Bytes) :=
  match splitEscapedString reference slash backslash with
  | [first, agentUrl, cookie] =>
    if stringUnescape backslash first = kEntityReferencePrefix then
      some (stringUnescape backslash agentUrl, stringUnescape backslash cookie)
    else none
  | _ => none

def createReference (agentUrl cookie : Bytes) : Bytes :=
  encodeEntityReference agentUrl cookie

section

variable (json : JsonCode)

def encodeEntityDataReference (typeToData : List (Bytes × Bytes)) : Bytes :=
  [slash].intercalate [kEntityDataReferencePrefix,
    stringEscape [slash] backslash (json.write (xdrWriteMap typeToData))]

def decodeEntityDataReference (reference : Bytes) : Option (Bytes → Option Bytes) :=
  match splitEscapedString reference slash backslash with
  | [first, data] =>
    if stringUnescape backslash first = kEntityDataReferencePrefix then
      (json.parse (stringUnescape backslash data)).bind xdrReadMap
    else none
  | _ => none

def createReferenceFromData (typeToData : List (Bytes × Bytes)) : Option Bytes :=
  if (typeToData.map fun entry => entry.1.length + entry.2.length).sum > kDataEntityMaxByteSize then
    none
  else some (encodeEntityDataReference json typeToData)

def resolveEntity (reference : Bytes) : ResolvedEntity :=
  if kEntityDataReferencePrefix.isPrefixOf reference then
    match decodeEntityDataReference json reference with
    | some typeToData => .data typeToData
    | none => .closed
  else
    match decodeEntityReference reference with
    | some (agentUrl, cookie) => .provided agentUrl cookie
    | none => .closed

theorem isSeparator_slash : IsSeparator [slash] backslash slash := by
  decide

section

variable (agentUrl cookie : Bytes)

theorem encodeEntityReference_eq :
    encodeEntityReference agentUrl cookie = kEntityReferencePrefix ++ slash ::
      (stringEscape [slash] backslash agentUrl ++ slash ::
        stringEscape [slash] backslash cookie) := by
  simp [encodeEntityReference, intercalate, intersperse]

/-- A reference whose cookie is empty ends with the separator, and has one part less. -/
theorem decodeEntityReference_encodeEntityReference :
    decodeEntityReference (encodeEntityReference agentUrl cookie) =
      if cookie = [] then none else some (agentUrl, cookie) := by
  have plain : stringEscape [slash] backslash kEntityReferencePrefix = kEntityReferencePrefix := by
    decide
  have parts := splitEscapedString_join isSeparator_slash [kEntityReferencePrefix, agentUrl] cookie
  simp only [cons_append, nil_append, map_cons, map_nil, plain] at parts
  rw [decodeEntityReference, encodeEntityReference, parts]
  by_cases empty : cookie = []
  · simp [empty]
  · have first : stringUnescape backslash kEntityReferencePrefix = kEntityReferencePrefix := by
      decide
    simp [empty, first]

theorem resolveEntity_encodeEntityReference :
    resolveEntity json (encodeEntityReference agentUrl cookie) =
      if cookie = [] then .closed else .provided agentUrl cookie := by
  have notData : ¬kEntityDataReferencePrefix.isPrefixOf (encodeEntityReference agentUrl cookie) := by
    simp [encodeEntityReference_eq, kEntityReferencePrefix, kEntityDataReferencePrefix, ascii]
  rw [resolveEntity, if_neg notData, decodeEntityReference_encodeEntityReference]
  by_cases empty : cookie = [] <;> simp [empty]

end

theorem encodeEntityReference_inj {agentUrl cookie agentUrl' cookie' : Bytes}
    (same : encodeEntityReference agentUrl cookie = encodeEntityReference agentUrl' cookie') :
    agentUrl = agentUrl' ∧ cookie = cookie' := by
  simp only [encodeEntityReference_eq, append_cancel_left_eq, cons.injEq, true_and] at same
  obtain ⟨rfl, rest⟩ := eq_of_stringEscape_eq isSeparator_slash same
  exact ⟨rfl, stringEscape_inj isSeparator_slash rest⟩

/-! ## Data in references -/

variable (typeToData : List (Bytes × Bytes))

def getStrings (entry : Bytes × Bytes) : Bytes × Bytes :=
  (getString entry.1, getString entry.2)

theorem foldl_emplace (data : Bytes → Option Bytes) :
    typeToData.foldl emplace data = fun key => (data key).or (find typeToData key) := by
  induction typeToData generalizing data with
  | nil => simp [find]
  | cons entry typeToData ih =>
    rw [foldl_cons, ih]
    funext key
    by_cases isKey : entry.1 = key <;> simp [emplace, find, isKey]

/-- The map is read as if each of its strings ended at its first NUL byte. -/
theorem xdrReadMap_xdrWriteMap : xdrReadMap (xdrWriteMap typeToData) =
    some (find (typeToData.map getStrings)) := by
  have entries : (typeToData.map fun entry => object
      [(kXdrKey, .string entry.1), (kXdrValue, .string entry.2)]).mapM xdrReadEntry =
        some (typeToData.map getStrings) := by
    have different : kXdrKey ≠ kXdrValue := by
      decide
    induction typeToData with
    | nil => rfl
    | cons entry typeToData ih =>
      simp [ih, xdrReadEntry, xdrReadString, member, different, getStrings]
  rw [xdrWriteMap, xdrReadMap, entries, Option.map_some, foldl_emplace]
  rfl

theorem getString_eq_iff (text : Bytes) : getString text = text ↔ 0 ∉ text := by
  rw [getString, takeWhile_eq_self_iff]
  constructor
  · intro noNul inText
    simpa using noNul 0 inText
  · intro noNul c inText
    simpa using ne_of_mem_of_not_mem inText noNul

theorem zero_notMem_getString (text : Bytes) : 0 ∉ getString text := fun inText => by
  simpa using mem_takeWhile_imp inText

theorem find_getStrings_iff (distinct : (typeToData.map Prod.fst).Nodup) :
    find (typeToData.map getStrings) = find typeToData ↔
      ∀ entry ∈ typeToData, 0 ∉ entry.1 ∧ 0 ∉ entry.2 := by
  constructor
  · rintro same ⟨key, value⟩ isEntry
    have found := (congrFun same key).trans (find_of_mem distinct isEntry)
    obtain ⟨entry, -, isRead⟩ := mem_map.mp (mem_of_find found)
    rw [getStrings, Prod.mk.injEq] at isRead
    exact ⟨isRead.1 ▸ zero_notMem_getString entry.1, isRead.2 ▸ zero_notMem_getString entry.2⟩
  · intro noNul
    have kept : ∀ entry ∈ typeToData, getStrings entry = id entry := fun entry isEntry =>
      Prod.ext ((getString_eq_iff _).mpr (noNul entry isEntry).1)
        ((getString_eq_iff _).mpr (noNul entry isEntry).2)
    rw [map_congr_left kept, map_id]

variable {json} {typeToData}

theorem isPlain_xdrWriteMap : (xdrWriteMap typeToData).isPlain (fun _ => true) = true := by
  rw [xdrWriteMap, isPlain]
  induction typeToData with
  | nil => rfl
  | cons entry typeToData ih =>
    simpa [arePlain, isPlain, arePlainMembers] using ih

theorem encodeEntityDataReference_eq : encodeEntityDataReference json typeToData =
    kEntityDataReferencePrefix ++ slash ::
      stringEscape [slash] backslash (json.write (xdrWriteMap typeToData)) := by
  simp [encodeEntityDataReference, intercalate, intersperse]

theorem encodeEntityDataReference_ne (agentUrl cookie : Bytes) :
    encodeEntityDataReference json typeToData ≠ encodeEntityReference agentUrl cookie := by
  simp [encodeEntityDataReference_eq, encodeEntityReference_eq, kEntityReferencePrefix,
    kEntityDataReferencePrefix, ascii]

section

variable (faithful : json.ReadsBack (fun _ => true) (xdrWriteMap typeToData))
include faithful

theorem resolveEntity_encodeEntityDataReference (noEmpty : json.parse [] = none) :
    resolveEntity json (encodeEntityDataReference json typeToData) =
      .data (find (typeToData.map getStrings)) := by
  have parsed := faithful isPlain_xdrWriteMap
  have notEmpty : json.write (xdrWriteMap typeToData) ≠ [] := fun empty => by
    simp [empty, noEmpty] at parsed
  have isData : kEntityDataReferencePrefix.isPrefixOf (encodeEntityDataReference json typeToData) := by
    simp [encodeEntityDataReference_eq]
  have plain : stringEscape [slash] backslash kEntityDataReferencePrefix =
      kEntityDataReferencePrefix := by
    decide
  have first : stringUnescape backslash kEntityDataReferencePrefix = kEntityDataReferencePrefix := by
    decide
  have parts := splitEscapedString_join isSeparator_slash [kEntityDataReferencePrefix]
    (json.write (xdrWriteMap typeToData))
  simp only [cons_append, nil_append, map_cons, map_nil, plain, if_neg notEmpty] at parts
  have decoded : decodeEntityDataReference json (encodeEntityDataReference json typeToData) =
      some (find (typeToData.map getStrings)) := by
    rw [decodeEntityDataReference, encodeEntityDataReference, parts]
    simp [first, parsed, xdrReadMap_xdrWriteMap]
  rw [resolveEntity, if_pos isData, decoded]

theorem encodeEntityDataReference_inj {other : List (Bytes × Bytes)}
    (otherFaithful : json.ReadsBack (fun _ => true) (xdrWriteMap other))
    (same : encodeEntityDataReference json other = encodeEntityDataReference json typeToData) :
    other = typeToData := by
  simp only [encodeEntityDataReference_eq, append_cancel_left_eq, cons.injEq, true_and] at same
  have parsed := otherFaithful isPlain_xdrWriteMap
  rw [stringEscape_inj isSeparator_slash same, faithful isPlain_xdrWriteMap] at parsed
  simp only [xdrWriteMap, Option.some.injEq, array.injEq] at parsed
  refine (map_injective_iff.mpr (fun first second sameEntry => ?_) parsed).symm
  simpa [Prod.ext_iff] using sameEntry

/-- A reference is taken for its own kind and made from one input only, but one of an empty cookie
resolves to nothing, and the data loses what follows a NUL byte. -/
theorem resolveEntity_iff (noEmpty : json.parse [] = none)
    (distinct : (typeToData.map Prod.fst).Nodup)
    (small : (typeToData.map fun entry => entry.1.length + entry.2.length).sum ≤
      kDataEntityMaxByteSize) (agentUrl cookie : Bytes) :
    (resolveEntity json (createReference agentUrl cookie) = .provided agentUrl cookie ↔
      cookie ≠ []) ∧ (∀ data, resolveEntity json (createReference agentUrl cookie) ≠ .data data) ∧
    (∀ agentUrl' cookie', createReference agentUrl' cookie' = createReference agentUrl cookie →
      agentUrl' = agentUrl ∧ cookie' = cookie) ∧
    ∃ reference, createReferenceFromData json typeToData = some reference ∧
      (resolveEntity json reference = .data (find typeToData) ↔
        ∀ entry ∈ typeToData, 0 ∉ entry.1 ∧ 0 ∉ entry.2) ∧
      (∃ data, resolveEntity json reference = .data data) ∧
      reference ≠ createReference agentUrl cookie ∧
      ∀ other, json.ReadsBack (fun _ => true) (xdrWriteMap other) →
        createReferenceFromData json other = some reference → other = typeToData := by
  have provided := resolveEntity_encodeEntityReference json agentUrl cookie
  have served := resolveEntity_encodeEntityDataReference faithful noEmpty
  refine ⟨?_, fun data => ?_, fun _ _ => encodeEntityReference_inj,
    encodeEntityDataReference json typeToData, if_neg (Nat.not_lt.mpr small), ?_, ⟨_, served⟩,
    encodeEntityDataReference_ne agentUrl cookie, fun other otherFaithful isReference => ?_⟩
  · rw [createReference, provided]
    by_cases empty : cookie = [] <;> simp [empty]
  · rw [createReference, provided]
    by_cases empty : cookie = [] <;> simp [empty]
  · rw [served, ResolvedEntity.data.injEq, find_getStrings_iff typeToData distinct]
  · rw [createReferenceFromData, Option.ite_none_left_eq_some, Option.some.injEq] at isReference
    exact encodeEntityDataReference_inj faithful otherFaithful isReference.2

end

end

def sampleTypeToData : List (Bytes × Bytes) :=
  [(ascii ['t'], ascii ['d'])]

def sampleEntityJson : JsonCode where
  write
    | .array [.object [(_, .string key), (_, .string value)]] =>
      ascii ['[', '{', '"', '@', 'k', '"', ':', '"'] ++ key ++
        ascii ['"', ',', '"', '@', 'v', '"', ':', '"'] ++ value ++ ascii ['"', '}', ']']
    | _ => ascii ['[', ']']
  parse text :=
    if text = ascii ['[', '{', '"', '@', 'k', '"', ':', '"', 't', '"', ',', '"', '@', 'v', '"', ':',
        '"', 'd', '"', '}', ']'] then
      some (xdrWriteMap sampleTypeToData)
    else none

theorem resolveEntity_sample :
    resolveEntity sampleEntityJson (createReference [] [1]) = .provided [] [1] ∧
      ∃ reference, createReferenceFromData sampleEntityJson sampleTypeToData = some reference ∧
        resolveEntity sampleEntityJson reference = .data (find sampleTypeToData) := by
  have faithful : sampleEntityJson.ReadsBack (fun _ => true) (xdrWriteMap sampleTypeToData) :=
    fun _ => rfl
  obtain ⟨provided_iff, -, -, reference, isReference, served_iff, -⟩ :=
    resolveEntity_iff faithful (by decide) (by decide) (by decide) [] [1]
  exact ⟨provided_iff.mpr (by decide), reference, isReference, served_iff.mpr (by decide)⟩

theorem not_resolveEntity_emptyCookie :
    ¬∀ json agentUrl cookie, resolveEntity json (createReference agentUrl cookie) =
      .provided agentUrl cookie := by
  intro claimed
  have resolved := claimed sampleEntityJson [] []
  rw [createReference, resolveEntity_encodeEntityReference] at resolved
  cases resolved

end Peridot
