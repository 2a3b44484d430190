import Peridot.CloudCommits

/-!
# What the cloud may hold

`EncodeCommits` names the members of a batch by the encoded ids of its commits, and
`DecodeCommitFromValue` takes the commits of a batch from a text that the server may have changed.
-/

namespace Peridot

open List JsonValue Function

def kIllegalKeyChars : Bytes :=
  ascii ['.', '$', '#', '[', ']', '/', '+']

/-- The characters that `modp_b64_encode` writes. -/
def IsBase64Url (byte : UInt8) : Prop :=
  UInt8.ofNat 'A'.toNat ≤ byte ∧ byte ≤ UInt8.ofNat 'Z'.toNat ∨
    UInt8.ofNat 'a'.toNat ≤ byte ∧ byte ≤ UInt8.ofNat 'z'.toNat ∨
    UInt8.ofNat '0'.toNat ≤ byte ∧ byte ≤ UInt8.ofNat '9'.toNat ∨
    byte ∈ ascii ['-', '_', '=']

variable {byte : UInt8}

namespace FirebaseCode

variable (code : FirebaseCode)

def canKeyBeVerbatim (bytes : Bytes) : Bool :=
  code.canValueBeVerbatim bytes && bytes.all fun byte => byte ∉ kIllegalKeyChars

def encodeKey (bytes : Bytes) : Bytes :=
  code.encode bytes (code.canKeyBeVerbatim bytes)

def isPlainKeyByte (byte : UInt8) : Bool :=
  !(byte ≤ 31 || byte = 127 || byte = UInt8.ofNat '"'.toNat || byte = UInt8.ofNat '\\'.toNat) &&
    byte ∉ kIllegalKeyChars

theorem isPlainKeyByte_of_isBase64Url (isChar : IsBase64Url byte) : isPlainKeyByte byte = true := by
  simp only [isPlainKeyByte, kIllegalKeyChars, ascii, map_cons, map_nil]
  simp [IsBase64Url, ascii, UInt8.le_iff_toNat_le, ← UInt8.toNat_inj] at isChar ⊢
  omega

theorem canKeyBeVerbatim_iff (text : Bytes) : code.canKeyBeVerbatim text = true ↔
    code.isStringUtf8 text = true ∧ ∀ byte ∈ text, isPlainKeyByte byte = true := by
  simp only [canKeyBeVerbatim, canValueBeVerbatim, isPlainKeyByte, Bool.and_eq_true, and_assoc,
    all_eq_true, forall_and]

/-- A string that is put in as it is has to be a key itself; one that is encoded always is one. -/
theorem canKeyBeVerbatim_encode
    (alphabet : ∀ bytes, ∀ byte ∈ code.base64UrlEncode bytes, IsBase64Url byte)
    (bytes : Bytes) {verbatim : Bool}
    (isValue : verbatim = true → code.canValueBeVerbatim bytes = true) :
    code.canKeyBeVerbatim (code.encode bytes verbatim) = true ↔
      (verbatim = true → ∀ byte ∈ bytes, byte ∉ kIllegalKeyChars) := by
  have marks : ∀ mark ∈ [verbatimMark, base64Mark],
      code.isStringUtf8 [mark] = true ∧ isPlainKeyByte mark = true := by
    intro mark isMark
    have isAscii : mark < 128 ∧ isPlainKeyByte mark = true := by
      rcases mem_pair.mp isMark with rfl | rfl <;> decide
    exact ⟨code.utf8_of_ascii _ (by simpa using isAscii.1), isAscii.2⟩
  cases verbatim with
  | false =>
    have plain : ∀ byte ∈ code.base64UrlEncode bytes, isPlainKeyByte byte = true :=
      fun byte isChar => isPlainKeyByte_of_isBase64Url (alphabet bytes byte isChar)
    refine iff_of_true ((code.canKeyBeVerbatim_iff _).mpr ⟨?_, ?_⟩) (by simp)
    · exact code.utf8_append _ _ (code.utf8_of_ascii _ (code.base64Url_ascii bytes))
        (marks base64Mark (by simp)).1
    · exact forall_mem_append.mpr ⟨plain, by simpa using (marks base64Mark (by simp)).2⟩
  | true =>
    have value := isValue rfl
    have key : code.canKeyBeVerbatim bytes = true ↔ ∀ byte ∈ bytes, byte ∉ kIllegalKeyChars := by
      simp [canKeyBeVerbatim, value]
    simp only [true_imp_iff, ← key, canKeyBeVerbatim_iff, encode, if_true, forall_mem_append]
    have utf8 := (Bool.and_eq_true_iff.mp value).1
    have markUtf8 := code.utf8_append _ _ utf8 (marks verbatimMark (by simp)).1
    simp [utf8, markUtf8, (marks verbatimMark (by simp)).2]

end FirebaseCode

/-- The names of the members of a batch are keys, and stand for the ids of its commits. -/
structure NamesCommits (code : CloudCode) (commits : List CloudCommit) (names : List Bytes) :
    Prop where
  legal : ∀ name ∈ names, code.canKeyBeVerbatim name = true
  decoded : names.map code.decode = commits.map fun commit => some commit.id
  distinct : ∀ first second : ℕ, names[first]? = names[second]? →
    commits[first]?.map CloudCommit.id = commits[second]?.map CloudCommit.id

theorem CloudCode.names_encodedCommits (code : CloudCode) (commits : List CloudCommit)
    (timestamp : JsonValue) : (code.encodedCommits commits timestamp).map Prod.fst =
      commits.map fun commit => code.encodeValue commit.id := by
  refine ext_getElem? fun position => ?_
  simp [encodedCommits, comp_def]

/-- The names are safe unless an id that is put in as it is has a character that no key may have. -/
theorem namesCommits_encodedCommits_iff (code : CloudCode)
    (alphabet : ∀ bytes, ∀ byte ∈ code.base64UrlEncode bytes, IsBase64Url byte)
    (commits : List CloudCommit) : NamesCommits code commits
        ((code.encodedCommits commits timestampPlaceholder).map Prod.fst) ↔
      ∀ commit ∈ commits, code.canValueBeVerbatim commit.id = true →
        ∀ byte ∈ commit.id, byte ∉ kIllegalKeyChars := by
  rw [code.names_encodedCommits]
  have legal (commit : CloudCommit) := code.canKeyBeVerbatim_encode alphabet commit.id (fun h => h)
  constructor
  · intro names commit inCommits
    exact (legal commit).mp (names.legal _ (mem_map_of_mem inCommits))
  · intro noneIllegal
    refine ⟨?_, by simp [comp_def], ?_⟩
    · rintro name isName
      obtain ⟨commit, inCommits, rfl⟩ := mem_map.mp isName
      exact (legal commit).mpr (noneIllegal commit inCommits)
    · intro first second same
      refine Option.map_injective code.encodeValue_injective ?_
      simpa [comp_def] using same

theorem isBase64Url_sampleEncode (bytes : Bytes) (isChar : byte ∈ sampleEncode bytes) :
    IsBase64Url byte := by
  by_cases isLast : bytes = [255]
  · rw [sampleEncode, if_pos isLast] at isChar
    simp [ascii] at isChar
    rcases isChar with rfl | rfl | rfl <;> simp [IsBase64Url, ascii]
  · rw [sampleEncode, if_neg isLast] at isChar
    have small := le_of_mem_letters isChar
    exact .inl ⟨small.1, small.2.trans (by decide)⟩

theorem namesCommits_encodedCommits_letter : NamesCommits sampleCloudCode sampleCommits
      ((sampleCloudCode.encodedCommits sampleCommits timestampPlaceholder).map Prod.fst) ↔
    ∀ commit ∈ sampleCommits, sampleCloudCode.canValueBeVerbatim commit.id = true →
      ∀ byte ∈ commit.id, byte ∉ kIllegalKeyChars :=
  namesCommits_encodedCommits_iff sampleCloudCode
    (fun bytes _ isChar => isBase64Url_sampleEncode bytes isChar) sampleCommits

/-- The id of one dot is put in as it is. -/
theorem not_namesCommits_dot : ¬NamesCommits sampleCloudCode [⟨ascii ['.'], []⟩]
    ((sampleCloudCode.encodedCommits [⟨ascii ['.'], []⟩] timestampPlaceholder).map Prod.fst) :=
  fun names => absurd (names.legal (ascii ['.', 'V']) (by decide)) (by decide)

/-- The member `name` if it is an `int`. -/
def intMember (members : List (Bytes × JsonValue)) (name : Bytes) (default : ℤ) : ℤ :=
  ((JsonValue.member members name).bind JsonValue.getInt).getD default

/-- The position is below the size, where negative numbers come after the others. -/
def PositionBelowSize (members : List (Bytes × JsonValue)) : Prop :=
  let position := intMember members kBatchPositionKey 0
  let size := intMember members kBatchSizeKey 1
  0 ≤ position ∧ position < size ∨ size < 0 ∧ (0 ≤ position ∨ position < size)

def timestampIsNumber (members : List (Bytes × JsonValue)) : Bool :=
  match JsonValue.member members kTimestampKey with
  | some (.integer _) | some (.double _) => true
  | _ => false

def timestampIsInt64 (members : List (Bytes × JsonValue)) : Bool :=
  ((JsonValue.member members kTimestampKey).bind JsonValue.getInt64).isSome

/-- No accessor is applied to a value of another type, and what is accepted is in its batch. -/
structure DecodesSafely {α : Type} (records : α → List CloudRecord)
    (result : Except CloudCode.DecodeError α) : Prop where
  noAssertion : result ≠ .error .assertion
  inBatch : ∀ accepted, result = .ok accepted →
    ∀ record ∈ records accepted, record.batchPosition < record.batchSize

namespace CloudCode

variable (code : CloudCode)

/-- The checks of the id, of the content and of the type of the timestamp succeed. -/
def passesChecks (members : List (Bytes × JsonValue)) : Bool :=
  (code.decodeMember members kIdKey).isOk && (code.decodeMember members kContentKey).isOk &&
    timestampIsNumber members

end CloudCode

theorem decodeSize_lt_iff (members : List (Bytes × JsonValue)) :
    decodeSize members kBatchPositionKey 0 < decodeSize members kBatchSizeKey 1 ↔
      PositionBelowSize members := by
  have isInt (name : Bytes) (default : ℤ) (small : -2 ^ 31 ≤ default ∧ default < 2 ^ 31) :
      -2 ^ 31 ≤ intMember members name default ∧ intMember members name default < 2 ^ 31 := by
    rw [intMember]
    cases found : (member members name).bind getInt with
    | none => exact small
    | some number =>
      obtain ⟨value, -, isNumber⟩ := Option.bind_eq_some_iff.mp found
      cases value with
      | integer value =>
        obtain ⟨fits, same⟩ := Option.ite_none_right_eq_some.mp isNumber
        cases same
        exact fits
      | null | bool _ | double _ | string _ | array _ | object _ => cases isNumber
  have position := isInt kBatchPositionKey 0 (by decide)
  have size := isInt kBatchSizeKey 1 (by decide)
  change (intMember members kBatchPositionKey 0 % 2 ^ 64).toNat <
    (intMember members kBatchSizeKey 1 % 2 ^ 64).toNat ↔ _
  simp only [PositionBelowSize]
  omega

namespace CloudCode

variable (code : CloudCode) (members : List (Bytes × JsonValue))
include members

theorem decodeMember_cases (name : Bytes) : (∃ bytes, code.decodeMember members name = .ok bytes) ∨
      code.decodeMember members name = .error .malformed := by
  unfold decodeMember
  split
  · split
    · exact .inl ⟨_, rfl⟩
    · exact .inr rfl
  · exact .inr rfl

theorem decodeTimestamp_cases : if timestampIsNumber members then
      if timestampIsInt64 members then ∃ timestamp, decodeTimestamp members = .ok timestamp
      else decodeTimestamp members = .error .assertion
    else decodeTimestamp members = .error .malformed := by
  unfold timestampIsNumber timestampIsInt64 decodeTimestamp
  cases member members kTimestampKey with
  | none => rfl
  | some value =>
    cases value with
    | integer value => cases found : (integer value).getInt64 <;> simp [found]
    | null | bool _ | double _ | string _ | array _ | object _ => simp [getInt64]

theorem decodeCommitFromValue_cases : if code.passesChecks members then
      if timestampIsInt64 members then ∃ record, code.decodeCommitFromValue members = .ok record ∧
          (record.batchPosition < record.batchSize ↔ PositionBelowSize members)
      else code.decodeCommitFromValue members = .error .assertion
    else code.decodeCommitFromValue members = .error .malformed := by
  have timestamp := decodeTimestamp_cases members
  rw [← decodeSize_lt_iff]
  unfold passesChecks decodeCommitFromValue
  obtain ⟨id, isId⟩ | noId := code.decodeMember_cases members kIdKey
  · obtain ⟨content, isContent⟩ | noContent := code.decodeMember_cases members kContentKey
    · simp only [isId, isContent, Except.isOk, Except.toBool, Bool.true_and]
      split at timestamp
      · rename_i isNumber
        rw [if_pos isNumber]
        split at timestamp
        · rename_i isInt
          obtain ⟨number, isTimestamp⟩ := timestamp
          rw [if_pos isInt, isTimestamp]
          exact ⟨_, rfl, .rfl⟩
        · rename_i notInt
          rw [if_neg notInt, timestamp]
          rfl
      · rename_i notNumber
        rw [if_neg notNumber, timestamp]
        rfl
    · rw [isId, noContent]
      rfl
  · rw [noId]
    rfl

end CloudCode

def JsonValue.members : JsonValue → List (Bytes × JsonValue)
  | .object members => members
  | _ => []

theorem CloudCode.decodeRecord_eq (code : CloudCode) (entry : Bytes × JsonValue) :
    code.decodeRecord entry = code.decodeCommitFromValue entry.2.members := by
  obtain ⟨name, value⟩ := entry
  cases value <;> rfl

/-- The loop over the members stops at the first one that does not pass its checks. -/
theorem CloudCode.mapM_decodeRecord_cases (code : CloudCode) (entries : List (Bytes × JsonValue)) :
    if ∀ entry ∈ entries.takeWhile fun entry : Bytes × JsonValue =>
          code.passesChecks entry.2.members, timestampIsInt64 entry.2.members = true then
      if ∀ entry ∈ entries, code.passesChecks entry.2.members = true then
        ∃ records, entries.mapM code.decodeRecord = .ok records ∧
          ((∀ record ∈ records, record.batchPosition < record.batchSize) ↔
            ∀ entry ∈ entries, PositionBelowSize entry.2.members)
      else entries.mapM code.decodeRecord = .error .malformed
    else entries.mapM code.decodeRecord = .error .assertion := by
  induction entries with
  | nil => exact ⟨[], rfl, by simp⟩
  | cons entry entries ih =>
    have head := code.decodeCommitFromValue_cases entry.2.members
    rw [mapM_cons, code.decodeRecord_eq]
    by_cases passes : code.passesChecks entry.2.members = true
    · by_cases isInt : timestampIsInt64 entry.2.members = true
      · rw [if_pos passes, if_pos isInt] at head
        obtain ⟨record, isRecord, inBatch⟩ := head
        simp only [takeWhile_cons, passes, if_true, forall_mem_cons, isInt, true_and, isRecord]
        split at ih
        · rename_i fit
          rw [if_pos fit]
          split at ih
          · rename_i pass
            obtain ⟨records, areRecords, allInBatch⟩ := ih
            rw [if_pos pass, areRecords]
            exact ⟨record :: records, rfl, by simp [inBatch, allInBatch]⟩
          · rename_i fails
            rw [if_neg fails, ih]
            rfl
        · rename_i noFit
          rw [if_neg noFit, ih]
          rfl
      · rw [if_pos passes, if_neg isInt] at head
        simp only [takeWhile_cons, passes, if_true, forall_mem_cons, isInt, false_and,
          Bool.false_eq_true, if_false, head]
        rfl
    · rw [if_neg passes] at head
      simp only [takeWhile_cons, passes, Bool.false_eq_true, if_false, not_mem_nil,
        false_imp_iff, implies_true, if_true, forall_mem_cons, false_and, head]
      rfl

section

variable {α : Type} {records : α → List CloudRecord}

theorem decodesSafely_ok {accepted : α} : DecodesSafely records (.ok accepted) ↔
    ∀ record ∈ records accepted, record.batchPosition < record.batchSize :=
  ⟨fun safe => safe.inBatch accepted rfl, fun inBatch => ⟨nofun, fun _ same => by
    cases same
    exact inBatch⟩⟩

theorem decodesSafely_malformed : DecodesSafely records (.error .malformed) :=
  ⟨nofun, nofun⟩

theorem not_decodesSafely_assertion : ¬DecodesSafely records (.error .assertion) :=
  fun safe => safe.noAssertion rfl

end

theorem CloudCode.decodesSafely_entries (code : CloudCode) (json : Bytes) :
    DecodesSafely id (code.decodeMultipleCommits json) ↔ DecodesSafely id
      ((((code.json.parse json).map members).getD []).mapM code.decodeRecord) := by
  unfold decodeMultipleCommits
  split
  · rename_i entries parsed
    have isEntries : ((code.json.parse json).map members).getD [] = entries := by
      rw [parsed]
      rfl
    rw [isEntries, decodeMultipleCommitsFromValue]
    cases entries.mapM code.decodeRecord with
    | error failure => cases failure <;> rfl
    | ok records =>
      simp [bind, Except.bind, pure, Except.pure, decodesSafely_ok, id, (code.std.perm recordLess
          records).mem_iff]
  · rename_i notObject
    have noEntries : ((code.json.parse json).map members).getD [] = [] := by
      rcases parsed : code.json.parse json with _ | value
      · rfl
      · cases value <;> first | rfl | exact absurd parsed (notObject _)
    rw [noEntries]
    exact iff_of_true decodesSafely_malformed (decodesSafely_ok.mpr (by simp))

/-- The decoders are safe on exactly the members that pass their checks with a timestamp of 64
bits and a position in their batch. -/
theorem decodesSafely_iff (code : CloudCode) :
    (∀ members, DecodesSafely (fun record => [record]) (code.decodeCommitFromValue members) ↔
      (code.passesChecks members = true →
        timestampIsInt64 members = true ∧ PositionBelowSize members)) ∧
    ∀ json, DecodesSafely id (code.decodeMultipleCommits json) ↔
      let entries := ((code.json.parse json).map members).getD []
      (∀ entry ∈ entries.takeWhile fun entry : Bytes × JsonValue =>
          code.passesChecks entry.2.members,
        timestampIsInt64 entry.2.members = true) ∧
      ((∀ entry ∈ entries, code.passesChecks entry.2.members = true) →
        ∀ entry ∈ entries, PositionBelowSize entry.2.members) := by
  constructor
  · intro members
    have outcome := code.decodeCommitFromValue_cases members
    split at outcome
    · rename_i passes
      split at outcome
      · rename_i isInt
        obtain ⟨record, isRecord, inBatch⟩ := outcome
        rw [isRecord, decodesSafely_ok, forall_mem_singleton, inBatch]
        simp [passes, isInt]
      · rename_i notInt
        exact iff_of_false (outcome ▸ not_decodesSafely_assertion) (by simp [passes, notInt])
    · rename_i fails
      exact iff_of_true (outcome ▸ decodesSafely_malformed) fun passes => absurd passes fails
  · intro json
    dsimp only
    rw [code.decodesSafely_entries json]
    generalize ((code.json.parse json).map members).getD [] = entries
    have outcome := code.mapM_decodeRecord_cases entries
    split at outcome
    · rename_i fit
      split at outcome
      · rename_i pass
        obtain ⟨records, areRecords, inBatch⟩ := outcome
        rw [areRecords, decodesSafely_ok, id, inBatch]
        exact ⟨fun inBatch => ⟨fit, fun _ => inBatch⟩, fun both => both.2 pass⟩
      · rename_i fails
        rw [outcome]
        exact iff_of_true decodesSafely_malformed ⟨fit, fun pass => absurd pass fails⟩
    · rename_i noFit
      rw [outcome]
      exact iff_of_false not_decodesSafely_assertion fun both => noFit both.1

/-- A timestamp that is a number but not a whole one. -/
theorem not_decodesSafely_double : ¬DecodesSafely (fun record => [record])
    (sampleCloudCode.decodeCommitFromValue (sampleMembers (.double (ascii ['1', '.', '5'])))) :=
  not_decodesSafely_assertion

end Peridot
