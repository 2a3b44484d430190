import Peridot.StorageTypes

/-!
# JSON values

The values of the JSON library, with the members of an object in the order of the text.
-/

namespace Peridot

open List

/-- A value of a JSON document. A number is an integer or has a text of another form. -/
inductive JsonValue where
  | null
  | bool (value : Bool)
  | integer (value : ℤ)
  | double (text : Bytes)
  | string (text : Bytes)
  | array (elements : List JsonValue)
  | object (members : List (Bytes × JsonValue))

namespace JsonValue

/-- The value of the first member of a name, which `operator[]` gives. -/
def member : List (Bytes × JsonValue) → Bytes → Option JsonValue
  | [], _ => none
  | (first, value) :: members, name => if first = name then some value else member members name

/-- `GetInt`, where `IsInt` holds. -/
def getInt : JsonValue → Option ℤ
  | integer value => if -2 ^ 31 ≤ value ∧ value < 2 ^ 31 then some value else none
  | _ => none

/-- `GetInt64`, where `IsInt64` holds. -/
def getInt64 : JsonValue → Option Int64
  | integer value =>
    if -2 ^ 63 ≤ value ∧ value < 2 ^ 63 then some (Int64.ofInt value) else none
  | _ => none

mutual

/-- A value that can be written and read again: its integers have 64 bits, and its strings are
UTF-8. -/
def isPlain (isStringUtf8 : Bytes → Bool) : JsonValue → Bool
  | null => true
  | bool _ => true
  | integer value => decide (-2 ^ 63 ≤ value ∧ value < 2 ^ 64)
  | double _ => false
  | string text => isStringUtf8 text
  | array elements => arePlain isStringUtf8 elements
  | object members => arePlainMembers isStringUtf8 members

def arePlain (isStringUtf8 : Bytes → Bool) : List JsonValue → Bool
  | [] => true
  | value :: values => value.isPlain isStringUtf8 && arePlain isStringUtf8 values

def arePlainMembers (isStringUtf8 : Bytes → Bool) : List (Bytes × JsonValue) → Bool
  | [] => true
  | (name, value) :: members =>
    isStringUtf8 name && value.isPlain isStringUtf8 && arePlainMembers isStringUtf8 members

end

theorem arePlainMembers_iff {isStringUtf8 : Bytes → Bool} {members : List (Bytes × JsonValue)} :
    arePlainMembers isStringUtf8 members = true ↔ ∀ member ∈ members,
      isStringUtf8 member.1 = true ∧ member.2.isPlain isStringUtf8 = true := by
  induction members with
  | nil => simp [arePlainMembers]
  | cons member members ih => simp [arePlainMembers, ih]

/-- The members of an object do not depend on their order if their names are different. -/
theorem member_perm {members other : List (Bytes × JsonValue)} (perm : members.Perm other)
    (distinct : (members.map Prod.fst).Nodup) (name : Bytes) :
    member other name = member members name := by
  induction perm with
  | nil => rfl
  | cons head _ ih =>
    simp only [map_cons, nodup_cons] at distinct
    simp only [member, ih distinct.2]
  | swap first second members =>
    have different : second.1 ≠ first.1 := by
      simp only [map_cons, nodup_cons, mem_cons, not_or] at distinct
      exact distinct.1.1
    by_cases isFirst : first.1 = name
    · have notSecond : second.1 ≠ name := fun isSecond =>
        different (isSecond.trans isFirst.symm)
      simp [member, isFirst, notSecond]
    · simp [member, isFirst]
  | trans firstPerm _ firstIh secondIh =>
    rw [secondIh ((firstPerm.map Prod.fst).nodup_iff.mp distinct), firstIh distinct]

end JsonValue

structure JsonCode where
  write : JsonValue → Bytes
  parse : Bytes → Option JsonValue

/-- The text of a value that the library can hold is parsed to this value. -/
def JsonCode.ReadsBack (json : JsonCode) (isStringUtf8 : Bytes → Bool) (value : JsonValue) :
    Prop :=
  value.isPlain isStringUtf8 = true → json.parse (json.write value) = some value

end Peridot
