import Peridot.LedgerManager

/-!
# Parts of values

`ToBuffer` of `page_utils.cc`, which cuts what `FetchPartial` answers.  The client gives signed
numbers, which are compared with and added to the unsigned size of the value.
-/

namespace Peridot

open Int64

/-- What lies in memory has less than `2 ^ 63` bytes. -/
structure ExtendedStringView where
  bytes : Bytes
  inMemory : bytes.length < 2 ^ 63

/-- What `ToBuffer` calls of `fxl` and `fsl`. -/
structure BufferCode (Vmo : Type) where
  substr : ExtendedStringView → UInt64 → UInt64 → Bytes
  vmoFromString : Bytes → Option Vmo

namespace ExtendedStringView

variable (value : ExtendedStringView) (offset maxSize : Int64)

def size : UInt64 :=
  .ofNat value.bytes.length

/-- Valid indices are between -N and N-1. -/
def IsValid : Prop :=
  -value.size.toInt64 ≤ offset ∧ offset < value.size.toInt64
deriving Decidable

def start : UInt64 :=
  if value.IsValid offset then
    if offset < 0 then value.size + offset.toUInt64 else offset.toUInt64
  else value.size

def length : UInt64 :=
  if maxSize < 0 then value.size else maxSize.toUInt64

end ExtendedStringView

/-- The status, and the buffer if there is one. -/
def vmoStatus {Vmo : Type} (buffer : Option Vmo) : LedgerStatus × Option Vmo :=
  (if buffer.isSome then .ok else .unknownError, buffer)

def toBuffer {Vmo : Type} (code : BufferCode Vmo) (value : ExtendedStringView)
    (offset maxSize : Int64) : LedgerStatus × Option Vmo :=
  vmoStatus (code.vmoFromString
    (code.substr value (value.start offset) (value.length maxSize)))

/-- A negative offset counts from the end. -/
def positionOf (bytes : Bytes) (offset : ℤ) : ℤ :=
  if offset < 0 then bytes.length + offset else offset

def suffixFrom (bytes : Bytes) (offset : ℤ) : Bytes :=
  if 0 ≤ positionOf bytes offset ∧ positionOf bytes offset ≤ bytes.length then
    bytes.drop (positionOf bytes offset).toNat
  else []

/-- What `FetchPartial` promises. -/
def partOf (bytes : Bytes) (offset maxSize : ℤ) : Bytes :=
  if maxSize < 0 then suffixFrom bytes offset
  else (suffixFrom bytes offset).take maxSize.toNat

/-- `substr` of a position that is not outside of the value. -/
def BufferCode.Documented {Vmo : Type} (code : BufferCode Vmo) : Prop :=
  ∀ (value : ExtendedStringView) (position count : UInt64),
    position.toNat ≤ value.bytes.length →
      code.substr value position count = (value.bytes.drop position.toNat).take count.toNat

namespace ExtendedStringView

/-- What is converted and computed is the same as for integers. -/
structure Exact (value : ExtendedStringView) (offset maxSize : Int64) : Prop where
  size : value.size.toNat = value.bytes.length
  signed : value.size.toInt64.toInt = value.bytes.length
  negated : (-value.size.toInt64).toInt = -(value.bytes.length : ℤ)
  sum : value.IsValid offset → offset < 0 →
    ((value.size + offset.toUInt64).toNat : ℤ) = value.bytes.length + offset.toInt
  start : (value.start offset).toNat ≤ value.bytes.length
  unsigned : ∀ number ∈ [offset, maxSize], ¬number < 0 →
    (number.toUInt64.toNat : ℤ) = number.toInt

theorem toInt_eq (number : Int64) : number.toInt =
    if number.toUInt64.toNat < 2 ^ 63 then (number.toUInt64.toNat : ℤ)
    else number.toUInt64.toNat - 2 ^ 64 := by
  have eq : number.toInt = _ := BitVec.toInt_eq_toNat_cond number.toBitVec
  rw [eq]
  change (if 2 * number.toUInt64.toNat < 2 ^ 64 then (number.toUInt64.toNat : ℤ) else _) = _
  split <;> split <;> first | rfl | omega

theorem lt_zero_iff (number : Int64) : number < 0 ↔ number.toInt < 0 :=
  lt_iff_toInt_lt

variable (value : ExtendedStringView) (offset maxSize : Int64)

theorem toNat_size : value.size.toNat = value.bytes.length := by
  have inMemory := value.inMemory
  exact UInt64.toNat_ofNat_of_lt (inMemory.trans (by decide))

theorem toInt_size : value.size.toInt64.toInt = value.bytes.length := by
  have inMemory := value.inMemory
  rw [toInt_eq, UInt64.toUInt64_toInt64, toNat_size, if_pos inMemory]

theorem toInt_neg_size : (-value.size.toInt64).toInt = -(value.bytes.length : ℤ) := by
  have inMemory := value.inMemory
  rw [toInt_neg, toInt_size]
  exact Int.bmod_eq_of_le (by omega) (by omega)

theorem isValid_iff : value.IsValid offset ↔
    -(value.bytes.length : ℤ) ≤ offset.toInt ∧ offset.toInt < value.bytes.length := by
  rw [IsValid, le_iff_toInt_le, lt_iff_toInt_lt, toInt_neg_size, toInt_size]

theorem toNat_of_not_neg (notNegative : ¬offset < 0) :
    (offset.toUInt64.toNat : ℤ) = offset.toInt := by
  rw [lt_zero_iff, toInt_eq] at notNegative
  rw [toInt_eq]
  have inRange := offset.toUInt64.toNat_lt
  split at notNegative <;> omega

theorem toNat_sum (isValid : value.IsValid offset) (negative : offset < 0) :
    ((value.size + offset.toUInt64).toNat : ℤ) = value.bytes.length + offset.toInt := by
  have inMemory := value.inMemory
  rw [isValid_iff] at isValid
  rw [lt_zero_iff] at negative
  have eq := toInt_eq offset
  rw [UInt64.toNat_add, toNat_size]
  have inRange := offset.toUInt64.toNat_lt
  split at eq <;> omega

theorem toNat_start : ((value.start offset).toNat : ℤ) =
    if -(value.bytes.length : ℤ) ≤ offset.toInt ∧ offset.toInt < value.bytes.length then
      positionOf value.bytes offset.toInt
    else value.bytes.length := by
  unfold start positionOf
  by_cases isValid : value.IsValid offset
  · rw [if_pos isValid, if_pos ((value.isValid_iff offset).mp isValid)]
    by_cases negative : offset < 0
    · rw [if_pos negative, if_pos ((lt_zero_iff offset).mp negative)]
      exact value.toNat_sum offset isValid negative
    · rw [if_neg negative, if_neg ((lt_zero_iff offset).not.mp negative)]
      exact toNat_of_not_neg offset negative
  · rw [if_neg isValid, if_neg ((value.isValid_iff offset).not.mp isValid), toNat_size]

theorem start_le : (value.start offset).toNat ≤ value.bytes.length := by
  have same := value.toNat_start offset
  unfold positionOf at same
  omega

/-- A valid index is a position in the value; from another one on there is nothing. -/
theorem drop_start : value.bytes.drop (value.start offset).toNat =
    suffixFrom value.bytes offset.toInt := by
  have same := value.toNat_start offset
  have position : positionOf value.bytes offset.toInt =
      if offset.toInt < 0 then value.bytes.length + offset.toInt else offset.toInt := rfl
  unfold suffixFrom
  by_cases isValid : -(value.bytes.length : ℤ) ≤ offset.toInt ∧ offset.toInt < value.bytes.length
  · rw [if_pos isValid] at same
    rw [if_pos (by omega), ← same, Int.toNat_natCast]
  · rw [if_neg isValid] at same
    rw [List.drop_eq_nil_of_le (by omega)]
    split
    · exact (List.drop_eq_nil_of_le (by omega)).symm
    · rfl

theorem take_length {bytes : Bytes} (isPart : bytes.length ≤ value.bytes.length) :
    bytes.take (value.length maxSize).toNat =
      if maxSize.toInt < 0 then bytes else bytes.take maxSize.toInt.toNat := by
  unfold length
  by_cases negative : maxSize < 0
  · rw [if_pos negative, if_pos ((lt_zero_iff maxSize).mp negative), toNat_size,
      List.take_of_length_le isPart]
  · rw [if_neg negative, if_neg ((lt_zero_iff maxSize).not.mp negative),
      ← toNat_of_not_neg maxSize negative, Int.toNat_natCast]

end ExtendedStringView

/-- What is answered is the part that is asked for, and no number overflows or is a position outside
of the value. -/
theorem toBuffer_eq {Vmo : Type} {code : BufferCode Vmo} (documented : code.Documented)
    (value : ExtendedStringView) (offset maxSize : Int64) : value.Exact offset maxSize ∧
      toBuffer code value offset maxSize =
        vmoStatus (code.vmoFromString (partOf value.bytes offset.toInt maxSize.toInt)) := by
  refine ⟨?_, ?_⟩
  · exact ⟨value.toNat_size, value.toInt_size, value.toInt_neg_size, value.toNat_sum offset,
      value.start_le offset, fun number _ => ExtendedStringView.toNat_of_not_neg number⟩
  · have isPart := (value.bytes.length_drop (i := (value.start offset).toNat)).trans_le
      (Nat.sub_le ..)
    rw [toBuffer, documented _ _ _ (value.start_le offset), value.take_length _ isPart,
      value.drop_start, partOf]

/-- The last three bytes of a value, cut to two, where a `Vmo` is what was copied to it. -/
theorem toBuffer_eq_sample :
    toBuffer ⟨fun value position count => (value.bytes.drop position.toNat).take count.toNat, some⟩
      ⟨[1, 2, 3, 4, 5], by decide⟩ (-3) 2 = (.ok, some [3, 4]) :=
  (toBuffer_eq (fun _ _ _ _ => rfl) _ (-3) 2).2.trans (by decide)

end Peridot
