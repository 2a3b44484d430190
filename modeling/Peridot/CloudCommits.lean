import Mathlib.Data.Int.Bitwise
import Peridot.FirebaseEncoding
import Peridot.JsonValue
import Peridot.PageRows
import Peridot.StdSort

/-!
# Commits in the cloud

`encoding.cc` of the page handler writes a batch of commits as a JSON object.  The server puts a
timestamp in the place that each commit leaves for it; where a commit stands in its batch can be
told from two members only, since the server may give the commits in any order.
-/

namespace Peridot

open List JsonValue Int64

structure CloudCommit where
  id : Bytes
  content : Bytes
  deriving DecidableEq

structure CloudRecord where
  commit : CloudCommit
  timestamp : Bytes
  batchPosition : ℕ
  batchSize : ℕ
  deriving DecidableEq

def kTimestampVersion : Bytes :=
  ascii ['0', '1']

def serverTimestampToBytes (timestamp : Int64) : Bytes :=
  kTimestampVersion ++ serializeNumber timestamp.toUInt64

def bytesToServerTimestamp (bytes : Bytes) : Int64 :=
  if bytes.take 2 = kTimestampVersion then (deserializeNumber (bytes.drop 2)).toInt64 else 0

@[simp]
theorem bytesToServerTimestamp_toBytes (timestamp : Int64) :
    bytesToServerTimestamp (serverTimestampToBytes timestamp) = timestamp := by
  have version : (kTimestampVersion ++ serializeNumber timestamp.toUInt64).take 2 =
      kTimestampVersion := rfl
  have number : (kTimestampVersion ++ serializeNumber timestamp.toUInt64).drop 2 =
      serializeNumber timestamp.toUInt64 := rfl
  rw [serverTimestampToBytes, bytesToServerTimestamp, if_pos version, number]
  simp

theorem serverTimestampToBytes_injective : Function.Injective serverTimestampToBytes := by
  intro first second same
  simpa using congrArg bytesToServerTimestamp same

def kIdKey : Bytes :=
  ascii ['i', 'd']

def kContentKey : Bytes :=
  ascii ['c', 'o', 'n', 't', 'e', 'n', 't']

def kTimestampKey : Bytes :=
  ascii ['t', 'i', 'm', 'e', 's', 't', 'a', 'm', 'p']

def kBatchPositionKey : Bytes :=
  ascii ['b', 'a', 't', 'c', 'h', '_', 'p', 'o', 's', 'i', 't', 'i', 'o', 'n']

def kBatchSizeKey : Bytes :=
  ascii ['b', 'a', 't', 'c', 'h', '_', 's', 'i', 'z', 'e']

def timestampPlaceholder : JsonValue :=
  .object [(ascii ['.', 's', 'v'], .string kTimestampKey)]

structure CloudCode extends FirebaseCode where
  json : JsonCode
  std : StdSort CloudRecord

namespace CloudCode

variable (code : CloudCode)

/-- The members that `WriteCommit` writes. -/
def commitMembers (commit : CloudCommit) (timestamp : JsonValue) (batchPosition batchSize : ℤ) :
    List (Bytes × JsonValue) :=
  [(kIdKey, .string (code.encodeValue commit.id)),
    (kContentKey, .string (code.encodeValue commit.content)), (kTimestampKey, timestamp),
    (kBatchPositionKey, .integer batchPosition), (kBatchSizeKey, .integer batchSize)]

/-- The object that `EncodeCommits` writes, with something in the place of the timestamps. The
positions and the size are converted to `int`. -/
def encodedCommits (commits : List CloudCommit) (timestamp : JsonValue) :
    List (Bytes × JsonValue) :=
  commits.mapIdx fun position commit =>
    (code.encodeValue commit.id,
      .object (code.commitMembers commit timestamp (Int.bmod position (2 ^ 32))
        (Int.bmod commits.length (2 ^ 32))))

def encodeCommits (commits : List CloudCommit) : Bytes :=
  code.json.write (.object (code.encodedCommits commits timestampPlaceholder))

/-- How decoding fails: with `false`, or in an assertion of `GetInt64`. -/
inductive DecodeError
  | malformed
  | assertion

def decodeMember (members : List (Bytes × JsonValue)) (name : Bytes) :
    Except DecodeError Bytes :=
  match JsonValue.member members name with
  | some (.string text) =>
    match code.decode text with
    | some bytes => .ok bytes
    | none => .error .malformed
  | _ => .error .malformed

end CloudCode

/-- The number of the member `kTimestampKey`. -/
def decodeTimestamp (members : List (Bytes × JsonValue)) : Except CloudCode.DecodeError Int64 :=
  match JsonValue.member members kTimestampKey with
  | some (.integer value) =>
    match (JsonValue.integer value).getInt64 with
    | some timestamp => .ok timestamp
    | none => .error .assertion
  | some (.double _) => .error .assertion
  | _ => .error .malformed

/-- A member of type `int`, as a `size_t`. -/
def decodeSize (members : List (Bytes × JsonValue)) (name : Bytes) (default : ℤ) : ℕ :=
  ((((JsonValue.member members name).bind JsonValue.getInt).getD default) % 2 ^ 64).toNat

/-- The order in which `DecodeMultipleCommitsFromValue` sorts. -/
def recordLess (lhs rhs : CloudRecord) : Bool :=
  if lhs.timestamp ≠ rhs.timestamp then
    decide (bytesToServerTimestamp lhs.timestamp < bytesToServerTimestamp rhs.timestamp)
  else
    decide (lhs.batchPosition < rhs.batchPosition)

namespace CloudCode

variable (code : CloudCode)

def decodeCommitFromValue (members : List (Bytes × JsonValue)) :
    Except DecodeError CloudRecord := do
  let commitId ← code.decodeMember members kIdKey
  let commitContent ← code.decodeMember members kContentKey
  let timestamp ← decodeTimestamp members
  return ⟨⟨commitId, commitContent⟩, serverTimestampToBytes timestamp,
    decodeSize members kBatchPositionKey 0, decodeSize members kBatchSizeKey 1⟩

def decodeRecord : Bytes × JsonValue → Except DecodeError CloudRecord
  | (_, .object members) => code.decodeCommitFromValue members
  | _ => .error .malformed

def decodeMultipleCommitsFromValue (members : List (Bytes × JsonValue)) :
    Except DecodeError (List CloudRecord) := do
  let records ← members.mapM code.decodeRecord
  return code.std.sort recordLess records

def decodeMultipleCommits (json : Bytes) : Except DecodeError (List CloudRecord) :=
  match code.json.parse json with
  | some (.object members) => code.decodeMultipleCommitsFromValue members
  | _ => .error .malformed

end CloudCode

namespace JsonValue

def isPlaceholder : List (Bytes × JsonValue) → Bool
  | [(name, .string text)] => name = ascii ['.', 's', 'v'] && text = kTimestampKey
  | _ => false

mutual

def putTimestamp (timestamp : Int64) : JsonValue → JsonValue
  | object members =>
    if isPlaceholder members then integer timestamp.toInt
    else object (putTimestamps timestamp members)
  | array elements => array (putElementTimestamps timestamp elements)
  | value => value

def putElementTimestamps (timestamp : Int64) : List JsonValue → List JsonValue
  | [] => []
  | value :: values => value.putTimestamp timestamp :: putElementTimestamps timestamp values

def putTimestamps (timestamp : Int64) : List (Bytes × JsonValue) → List (Bytes × JsonValue)
  | [] => []
  | (name, value) :: members =>
    (name, value.putTimestamp timestamp) :: putTimestamps timestamp members

end

/-- An object with its members in another order, or the same value. -/
inductive SameMembers : JsonValue → JsonValue → Prop
  | refl (value : JsonValue) : SameMembers value value
  | perm {members others : List (Bytes × JsonValue)} :
      members.Perm others → SameMembers (object members) (object others)

/-- An object as the server gives it, with its members and theirs in any order. -/
def Reordered (value stored : JsonValue) : Prop :=
  ∃ members others, SameMembers value (object members) ∧ stored = object others ∧
    List.Forall₂ (fun member other => member.1 = other.1 ∧ SameMembers member.2 other.2)
      members others

theorem putTimestamps_eq (timestamp : Int64) (members : List (Bytes × JsonValue)) :
    putTimestamps timestamp members =
      members.map fun member => (member.1, member.2.putTimestamp timestamp) := by
  induction members with
  | nil => rfl
  | cons member members ih => simp only [putTimestamps, ih, map_cons]

end JsonValue

def batchRecords (commits : List CloudCommit) (timestamp : Int64) : List CloudRecord :=
  commits.mapIdx fun position commit =>
    ⟨commit, serverTimestampToBytes timestamp, position, commits.length⟩

variable {members others : List (Bytes × JsonValue)} {commits : List CloudCommit}
    {records : List CloudRecord} {secondTime firstTime : Int64}

namespace CloudCode

variable (code : CloudCode)

theorem member_commitMembers (commit : CloudCommit) (timestamp : JsonValue) (position size : ℤ) :
    member (code.commitMembers commit timestamp position size) = fun name =>
        if kIdKey = name then some (.string (code.encodeValue commit.id))
        else if kContentKey = name then some (.string (code.encodeValue commit.content))
        else if kTimestampKey = name then some timestamp
        else if kBatchPositionKey = name then some (.integer position)
        else if kBatchSizeKey = name then some (.integer size) else none :=
  rfl

theorem names_commitMembers (commit : CloudCommit) (timestamp : JsonValue) (position size : ℤ) :
    ((code.commitMembers commit timestamp position size).map Prod.fst).Nodup := by
  change [kIdKey, kContentKey, kTimestampKey, kBatchPositionKey, kBatchSizeKey].Nodup
  decide

theorem decodeCommitFromValue_perm (perm : members.Perm others)
    (distinct : (members.map Prod.fst).Nodup) :
    code.decodeCommitFromValue others = code.decodeCommitFromValue members := by
  simp only [decodeCommitFromValue, decodeMember, decodeTimestamp, decodeSize,
    member_perm perm distinct]

theorem getInt64_toInt (timestamp : Int64) :
    (integer timestamp.toInt).getInt64 = some timestamp := by
  have lower := timestamp.le_toInt
  have upper := timestamp.toInt_lt
  simp only [getInt64, lower, upper, and_self, if_true, ofInt_toInt]

/-- A commit is decoded to itself, and its place in the batch to what `int` holds of it. -/
theorem decode_commitMembers (commit : CloudCommit) (timestamp : Int64) (position size : ℤ) :
    code.decodeCommitFromValue
        (code.commitMembers commit (.integer timestamp.toInt) position size) =
      .ok ⟨commit, serverTimestampToBytes timestamp,
        (((integer position).getInt.getD 0) % 2 ^ 64).toNat,
        (((integer size).getInt.getD 1) % 2 ^ 64).toNat⟩ := by
  have isId : code.decodeMember (code.commitMembers commit (.integer timestamp.toInt) position
      size) kIdKey = .ok commit.id := by
    simp [decodeMember, member_commitMembers]
  have isContent : code.decodeMember (code.commitMembers commit (.integer timestamp.toInt)
      position size) kContentKey = .ok commit.content := by
    have different : kIdKey ≠ kContentKey := by decide
    simp [decodeMember, member_commitMembers, different]
  have isTimestamp : decodeTimestamp (code.commitMembers commit (.integer timestamp.toInt)
      position size) = .ok timestamp := by
    have notId : kIdKey ≠ kTimestampKey := by decide
    have notContent : kContentKey ≠ kTimestampKey := by decide
    simp [decodeTimestamp, member_commitMembers, notId, notContent, getInt64_toInt]
  rw [decodeCommitFromValue, isId, isContent, isTimestamp]
  rfl

theorem int_of_small {value : ℕ} (small : value < 2 ^ 31) (default : ℤ) :
    (((integer value).getInt.getD default) % 2 ^ 64).toNat = value := by
  have inRange : -2 ^ 31 ≤ (value : ℤ) ∧ (value : ℤ) < 2 ^ 31 := by omega
  simp only [getInt, inRange, and_self, if_true, Option.getD_some]
  omega

theorem decode_commitMembers_of_small (commit : CloudCommit) (timestamp : Int64)
    {position size : ℕ} (smallPosition : position < 2 ^ 31) (smallSize : size < 2 ^ 31) :
    code.decodeCommitFromValue
        (code.commitMembers commit (.integer timestamp.toInt) position size) =
      .ok ⟨commit, serverTimestampToBytes timestamp, position, size⟩ := by
  rw [decode_commitMembers, int_of_small smallPosition, int_of_small smallSize]

end CloudCode

def HasTimestamp (record : CloudRecord) (timestamp : Int64) : Prop :=
  record.timestamp = serverTimestampToBytes timestamp

theorem recordLess_iff {first second : CloudRecord}
    (isFirst : HasTimestamp first firstTime) (isSecond : HasTimestamp second secondTime) :
    recordLess first second = true ↔ firstTime.toInt < secondTime.toInt ∨
      firstTime.toInt = secondTime.toInt ∧ first.batchPosition < second.batchPosition := by
  have sameTime : first.timestamp = second.timestamp ↔ firstTime.toInt = secondTime.toInt := by
    rw [isFirst, isSecond, serverTimestampToBytes_injective.eq_iff, toInt_inj]
  have firstValue : bytesToServerTimestamp first.timestamp = firstTime := by
    rw [isFirst, bytesToServerTimestamp_toBytes]
  have secondValue : bytesToServerTimestamp second.timestamp = secondTime := by
    rw [isSecond, bytesToServerTimestamp_toBytes]
  rw [recordLess, firstValue, secondValue]
  by_cases same : firstTime.toInt = secondTime.toInt
  · simp [sameTime, same]
  · simp [sameTime, same, lt_iff_toInt_lt]

theorem recordLess_eq_false_iff {first second : CloudRecord}
    (isFirst : HasTimestamp first firstTime) (isSecond : HasTimestamp second secondTime) :
    recordLess first second = false ↔ secondTime.toInt < firstTime.toInt ∨
      firstTime.toInt = secondTime.toInt ∧ second.batchPosition ≤ first.batchPosition := by
  rw [← Bool.not_eq_true, recordLess_iff isFirst isSecond]
  omega

theorem strictWeakOrder_recordLess
    (haveTimestamps : ∀ record ∈ records, ∃ timestamp, HasTimestamp record timestamp) :
    StrictWeakOrder recordLess records where
  asymm first inFirst second inSecond isLess := by
    obtain ⟨firstTime, isFirst⟩ := haveTimestamps first inFirst
    obtain ⟨secondTime, isSecond⟩ := haveTimestamps second inSecond
    rw [recordLess_iff isFirst isSecond] at isLess
    rw [recordLess_eq_false_iff isSecond isFirst]
    omega
  trans_notLess first inFirst second inSecond third inThird notFirst notSecond := by
    obtain ⟨firstTime, isFirst⟩ := haveTimestamps first inFirst
    obtain ⟨secondTime, isSecond⟩ := haveTimestamps second inSecond
    obtain ⟨thirdTime, isThird⟩ := haveTimestamps third inThird
    rw [recordLess_eq_false_iff isSecond isFirst] at notFirst
    rw [recordLess_eq_false_iff isThird isSecond] at notSecond
    rw [recordLess_eq_false_iff isThird isFirst]
    omega

theorem hasTimestamp_batchRecords {timestamp : Int64}
    {record : CloudRecord} (inBatch : record ∈ batchRecords commits timestamp) :
    HasTimestamp record timestamp := by
  obtain ⟨position, _, rfl⟩ := mem_mapIdx.mp inBatch
  rfl

theorem pairwise_batchRecords (commits : List CloudCommit) (timestamp : Int64) :
    (batchRecords commits timestamp).Pairwise fun first second =>
      recordLess first second = true := by
  refine pairwise_iff_getElem.mpr fun first second isFirst isSecond before => ?_
  rw [recordLess_iff (hasTimestamp_batchRecords (getElem_mem isFirst))
    (hasTimestamp_batchRecords (getElem_mem isSecond))]
  simpa [batchRecords] using before

theorem mapM_eq_ok {α β ε : Type} {f : α → Except ε β} {items : List α} {results : List β}
    (areOk : items.map f = results.map Except.ok) : items.mapM f = .ok results := by
  induction items generalizing results with
  | nil =>
    cases results with
    | nil => rfl
    | cons result results => simp at areOk
  | cons item items ih =>
    cases results with
    | nil => simp at areOk
    | cons result results =>
      simp only [map_cons, cons.injEq] at areOk
      rw [mapM_cons, areOk.1, ih areOk.2]
      rfl

theorem exists_perm_of_map_ok {β ε : Type} {outcomes : List (Except ε β)} {results : List β}
    (perm : outcomes.Perm (results.map Except.ok)) :
    ∃ others : List β, others.Perm results ∧ outcomes = others.map Except.ok := by
  induction results generalizing outcomes with
  | nil => exact ⟨[], .refl _, by simpa using perm⟩
  | cons result results ih =>
    obtain ⟨before, after, rfl⟩ := append_of_mem (perm.symm.subset mem_cons_self)
    obtain ⟨others, othersPerm, isMap⟩ := ih (List.Perm.cons_inv ((perm_middle.symm).trans perm))
    obtain ⟨first, second, rfl, rfl, rfl⟩ := append_eq_map_iff.mp isMap
    exact ⟨first ++ result :: second, perm_middle.trans (othersPerm.cons result), by simp⟩

namespace CloudCode

variable (code : CloudCode)

theorem decodeRecord_of_sameMembers (first second : Bytes) {value : JsonValue}
    (distinct : (members.map Prod.fst).Nodup) (same : SameMembers (.object members) value) :
    code.decodeRecord (second, value) = code.decodeRecord (first, .object members) := by
  cases same with
  | refl => rfl
  | perm perm => exact code.decodeCommitFromValue_perm perm distinct

/-- An object whose members have been put in another order is decoded to the same records in some
order. -/
theorem mapM_decodeRecord {encoded : List (Bytes × JsonValue)}
    (areOk : encoded.map code.decodeRecord = records.map Except.ok)
    (distinct : ∀ member ∈ encoded, ∃ inner, member.2 = .object inner ∧ (inner.map Prod.fst).Nodup)
    (perm : encoded.Perm members) (same : List.Forall₂ (fun member other => member.1 = other.1 ∧
      SameMembers member.2 other.2) members others) :
    ∃ decoded : List CloudRecord, decoded.Perm records ∧
      others.mapM code.decodeRecord = .ok decoded := by
  have sameOutcomes : others.map code.decodeRecord = members.map code.decodeRecord := by
    have inEncoded : ∀ member ∈ members, member ∈ encoded := fun _ inMembers =>
      perm.symm.subset inMembers
    clear perm
    induction same with
    | nil => rfl
    | cons isSame _ ih =>
      obtain ⟨inner, isObject, innerDistinct⟩ := distinct _ (inEncoded _ mem_cons_self)
      rename_i member other members others _
      obtain ⟨name, value⟩ := member
      subst isObject
      simp only [map_cons, cons.injEq]
      exact ⟨code.decodeRecord_of_sameMembers _ _ innerDistinct isSame.2,
        ih fun _ inMembers => inEncoded _ (mem_cons_of_mem _ inMembers)⟩
  obtain ⟨decoded, decodedPerm, isMap⟩ := exists_perm_of_map_ok
    (areOk ▸ (perm.map code.decodeRecord).symm)
  exact ⟨decoded, decodedPerm, mapM_eq_ok (sameOutcomes.trans isMap)⟩

theorem distinct_encodedCommits {timestamp : JsonValue}
    {member : Bytes × JsonValue} (inEncoded : member ∈ code.encodedCommits commits timestamp) :
    ∃ inner, member.2 = .object inner ∧ (inner.map Prod.fst).Nodup := by
  obtain ⟨position, _, rfl⟩ := mem_mapIdx.mp inEncoded
  exact ⟨_, rfl, code.names_commitMembers _ _ _ _⟩

theorem decodeRecord_encodedCommits (timestamp : Int64) (few : commits.length < 2 ^ 31) :
    (code.encodedCommits commits (.integer timestamp.toInt)).map code.decodeRecord =
      (batchRecords commits timestamp).map Except.ok := by
  have noWrap : ∀ {number : ℕ}, number < 2 ^ 31 → Int.bmod number (2 ^ 32) = number := by
    intro number small
    simp only [Int.bmod]
    omega
  refine ext_getElem (by simp [encodedCommits, batchRecords]) fun position inFirst _ => ?_
  have inCommits : position < commits.length := by simpa [encodedCommits] using inFirst
  have isDecoded := code.decode_commitMembers_of_small commits[position] timestamp
    (inCommits.trans few) few
  rw [← noWrap (inCommits.trans few), ← noWrap few] at isDecoded
  rw [getElem_map, getElem_map]
  simp only [encodedCommits, batchRecords, getElem_mapIdx]
  exact isDecoded

/-- The server puts its timestamp in each commit, and changes nothing else. -/
theorem putTimestamp_encodedCommits (commits : List CloudCommit) (timestamp : Int64) :
    (object (code.encodedCommits commits timestampPlaceholder)).putTimestamp timestamp =
      .object (code.encodedCommits commits (.integer timestamp.toInt)) := by
  have notPlaceholder : isPlaceholder
      (code.encodedCommits commits timestampPlaceholder) = false := by
    cases commits with
    | nil => rfl
    | cons commit commits => cases commits <;> simp [encodedCommits, mapIdx_cons, isPlaceholder]
  rw [putTimestamp, notPlaceholder, putTimestamps_eq]
  refine congrArg object (ext_getElem (by simp [encodedCommits]) ?_)
  intro position _ _
  simp only [encodedCommits, getElem_map, getElem_mapIdx]
  rfl

/-- The JSON library can hold what `EncodeCommits` writes. -/
theorem isPlain_encodedCommits (commits : List CloudCommit) :
    (object (code.encodedCommits commits timestampPlaceholder)).isPlain
      code.isStringUtf8 = true := by
  have ofAscii : ∀ text : Bytes, (text.all fun byte => byte < 128) = true →
      code.isStringUtf8 text = true := fun text allAscii =>
    code.utf8_of_ascii text (by simpa using allAscii)
  rw [isPlain, arePlainMembers_iff]
  intro member inEncoded
  obtain ⟨position, _, rfl⟩ := mem_mapIdx.mp inEncoded
  refine ⟨code.utf8_encodeValue _, ?_⟩
  have inRange : ∀ number : ℕ, -2 ^ 63 ≤ Int.bmod number (2 ^ 32) ∧
      Int.bmod number (2 ^ 32) < 2 ^ 64 := by
    intro number
    have lower := Int.le_bmod (x := (number : ℤ)) (m := 2 ^ 32) (by decide)
    have upper := Int.bmod_lt (x := (number : ℤ)) (m := 2 ^ 32) (by decide)
    omega
  simp only [commitMembers, isPlain, arePlainMembers, timestampPlaceholder,
    code.utf8_encodeValue, ofAscii kIdKey (by decide), ofAscii kContentKey (by decide),
    ofAscii kTimestampKey (by decide), ofAscii kBatchPositionKey (by decide),
    ofAscii kBatchSizeKey (by decide), ofAscii (ascii ['.', 's', 'v']) (by decide), inRange,
    and_self, decide_true, Bool.and_self]

/-- A batch of commits that goes through the cloud is read as it was written, in whatever order
the server gives the members. -/
theorem decode_encodeCommits {commits : List CloudCommit} (few : commits.length < 2 ^ 31)
    (timestamp : Int64) (faithful : code.json.ReadsBack code.isStringUtf8
      (.object (code.encodedCommits commits timestampPlaceholder)))
    {sent stored : JsonValue} (isSent : code.json.parse (code.encodeCommits commits) = some sent)
    (isStored : JsonValue.Reordered (sent.putTimestamp timestamp) stored) {json : Bytes}
    (isRead : code.json.parse json = some stored) :
    code.decodeMultipleCommits json = .ok (batchRecords commits timestamp) := by
  have parsed := faithful (code.isPlain_encodedCommits commits)
  obtain rfl : .object (code.encodedCommits commits timestampPlaceholder) = sent :=
    Option.some.inj (parsed.symm.trans isSent)
  obtain ⟨members, others, sameOuter, rfl, sameInner⟩ := isStored
  rw [putTimestamp_encodedCommits] at sameOuter
  have perm : (code.encodedCommits commits (.integer timestamp.toInt)).Perm members := by
    cases sameOuter with
    | refl => exact .refl _
    | perm perm => exact perm
  obtain ⟨decoded, decodedPerm, isDecoded⟩ := code.mapM_decodeRecord
    (code.decodeRecord_encodedCommits timestamp few)
    (fun _ => code.distinct_encodedCommits) perm sameInner
  have sorted : code.std.sort recordLess decoded = batchRecords commits timestamp := by
    refine code.std.sort_eq (strictWeakOrder_recordLess fun record inDecoded =>
      ⟨timestamp, ?_⟩) (pairwise_batchRecords commits timestamp) decodedPerm.symm
    exact hasTimestamp_batchRecords (decodedPerm.subset inDecoded)
  simp only [decodeMultipleCommits, isRead, decodeMultipleCommitsFromValue, isDecoded]
  exact congrArg Except.ok sorted

end CloudCode

/-- Two letters for each byte. -/
def letters (bytes : Bytes) : Bytes :=
  bytes.flatMap fun byte => [byte / 16 + 65, byte % 16 + 65]

def bytesOfLetters : Bytes → Bytes
  | high :: low :: characters => ((high - 65) * 16 + (low - 65)) :: bytesOfLetters characters
  | _ => []

theorem le_of_mem_letters {bytes : Bytes} {byte : UInt8} (isLetter : byte ∈ letters bytes) :
    65 ≤ byte ∧ byte ≤ 80 := by
  obtain ⟨source, _, isLetter⟩ := mem_flatMap.mp isLetter
  have small := source.toNat_lt
  rcases mem_pair.mp isLetter with rfl | rfl
  all_goals
    simp only [UInt8.le_iff_toNat_le, UInt8.toNat_add, UInt8.toNat_div, UInt8.toNat_mod,
      UInt8.reduceToNat]
    omega

theorem bytesOfLetters_letters (bytes : Bytes) : bytesOfLetters (letters bytes) = bytes := by
  induction bytes with
  | nil => rfl
  | cons byte bytes ih =>
    have small := byte.toNat_lt
    have isByte : (byte / 16 + 65 - 65) * 16 + (byte % 16 + 65 - 65) = byte := by
      rw [UInt8.add_sub_cancel, UInt8.add_sub_cancel, ← UInt8.toNat_inj, UInt8.toNat_add,
        UInt8.toNat_mul, UInt8.toNat_div, UInt8.toNat_mod]
      change (byte.toNat / 16 * 16 % 256 + byte.toNat % 16) % 256 = byte.toNat
      omega
    change _ :: bytesOfLetters (letters bytes) = _
    rw [ih, isByte]

/-- Base64 of one byte, and letters for the other strings. -/
def sampleEncode (bytes : Bytes) : Bytes :=
  if bytes = [255] then ascii ['_', 'w', '=', '='] else letters bytes

def sampleDecode (text : Bytes) : Option Bytes :=
  if text = ascii ['_', 'w', '=', '='] then some [255] else some (bytesOfLetters text)

def sampleFirebaseCode : FirebaseCode where
  isStringUtf8 text := text.all fun byte => byte < 128
  base64UrlEncode := sampleEncode
  base64UrlDecode := sampleDecode
  utf8_of_ascii text allAscii := by simpa using allAscii
  utf8_append first second := by
    simp only [List.all_append, Bool.and_eq_true]
    exact And.intro
  base64Url_ascii bytes byte inEncoded := by
    by_cases isLast : bytes = [255]
    · rw [sampleEncode, if_pos isLast] at inEncoded
      simp [ascii] at inEncoded
      rcases inEncoded with rfl | rfl | rfl <;> decide
    · rw [sampleEncode, if_neg isLast] at inEncoded
      exact (le_of_mem_letters inEncoded).2.trans_lt (by decide)
  base64UrlDecode_encode bytes := by
    by_cases isLast : bytes = [255]
    · rw [isLast]
      rfl
    · have different : letters bytes ≠ ascii ['_', 'w', '=', '='] := fun same =>
        absurd (le_of_mem_letters (same ▸ mem_cons_self : 95 ∈ letters bytes)) (by decide)
      rw [sampleEncode, if_neg isLast, sampleDecode, if_neg different, bytesOfLetters_letters]

/-- The text of a value whose members are written by `write`. -/
def writeWith (write : JsonValue → Bytes) : JsonValue → Bytes
  | .object members => ascii ['{'] ++ [44].intercalate (members.map fun member =>
      ascii ['"'] ++ member.1 ++ ascii ['"', ':'] ++ write member.2) ++ ascii ['}']
  | .string text => ascii ['"'] ++ text ++ ascii ['"']
  | .integer value => ascii (Nat.toDigits 10 value.toNat)
  | _ => []

def sampleWrite : JsonValue → Bytes :=
  writeWith (writeWith (writeWith fun _ => []))

def sampleCommits : List CloudCommit :=
  [⟨ascii ['a'], ascii ['b']⟩, ⟨[255], ascii ['c']⟩]

def sampleMembers (timestamp : JsonValue) : List (Bytes × JsonValue) :=
  [(kIdKey, .string (ascii ['a', 'V'])), (kContentKey, .string (ascii ['b', 'V'])),
    (kTimestampKey, timestamp), (kBatchPositionKey, .integer 0), (kBatchSizeKey, .integer 2)]

def otherMembers (timestamp : JsonValue) : List (Bytes × JsonValue) :=
  [(kIdKey, .string (ascii ['_', 'w', '=', '=', 'B'])),
    (kContentKey, .string (ascii ['c', 'V'])), (kTimestampKey, timestamp),
    (kBatchPositionKey, .integer 1), (kBatchSizeKey, .integer 2)]

def sampleSent : JsonValue :=
  .object [(ascii ['a', 'V'], .object (sampleMembers timestampPlaceholder)),
    (ascii ['_', 'w', '=', '=', 'B'], .object (otherMembers timestampPlaceholder))]

def sampleStored : JsonValue :=
  .object [(ascii ['_', 'w', '=', '=', 'B'], .object (otherMembers (.integer 42)).reverse),
    (ascii ['a', 'V'], .object (sampleMembers (.integer 42)).reverse)]

def sampleCloudCode : CloudCode where
  toFirebaseCode := sampleFirebaseCode
  json := ⟨sampleWrite, fun text =>
    if text = sampleWrite sampleSent then some sampleSent
    else if text = sampleWrite sampleStored then some sampleStored else none⟩
  std := .insertion

theorem reordered_sampleStored : Reordered (sampleSent.putTimestamp 42) sampleStored :=
  ⟨[_, _], _, .perm (.swap _ _ _), rfl, .cons ⟨rfl, .perm (reverse_perm _).symm⟩
    (.cons ⟨rfl, .perm (reverse_perm _).symm⟩ .nil)⟩

theorem decode_encodeCommits_sample :
    sampleCloudCode.decodeMultipleCommits (sampleWrite sampleStored) =
      .ok (batchRecords sampleCommits 42) := by
  have few : sampleCommits.length < 2 ^ 31 := by decide
  have isObject : object (sampleCloudCode.encodedCommits sampleCommits timestampPlaceholder) =
      sampleSent := by
    simp only [CloudCode.encodedCommits, sampleCommits, mapIdx_cons, mapIdx_nil]
    rfl
  have isSent : sampleCloudCode.json.parse (sampleCloudCode.encodeCommits sampleCommits) =
      some sampleSent := by
    rw [CloudCode.encodeCommits, isObject]
    simp only [sampleCloudCode, if_true]
  have isRead : sampleCloudCode.json.parse (sampleWrite sampleStored) = some sampleStored := by
    have different : sampleWrite sampleStored ≠ sampleWrite sampleSent := by decide
    simp only [sampleCloudCode, different, if_true, if_false]
  exact sampleCloudCode.decode_encodeCommits few 42
    (fun _ => isSent.trans (congrArg some isObject.symm)) isSent reordered_sampleStored isRead

end Peridot
