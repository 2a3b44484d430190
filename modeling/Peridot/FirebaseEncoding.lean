import Peridot.PageStorage

/-!
# Strings in Firebase

A string is put in Firebase as it is, or encoded as base64 where JSON could not hold it; the last
character says which.
-/

namespace Peridot

/-- The libraries that `encoding.cc` uses. -/
structure FirebaseCode where
  isStringUtf8 : Bytes → Bool
  base64UrlEncode : Bytes → Bytes
  base64UrlDecode : Bytes → Option Bytes
  utf8_of_ascii : ∀ text : Bytes, (∀ byte ∈ text, byte < 128) → isStringUtf8 text = true
  utf8_append : ∀ first second, isStringUtf8 first = true → isStringUtf8 second = true →
    isStringUtf8 (first ++ second) = true
  base64Url_ascii : ∀ bytes, ∀ byte ∈ base64UrlEncode bytes, byte < 128
  base64UrlDecode_encode : ∀ bytes, base64UrlDecode (base64UrlEncode bytes) = some bytes

def verbatimMark : UInt8 :=
  UInt8.ofNat 'V'.toNat

def base64Mark : UInt8 :=
  UInt8.ofNat 'B'.toNat

namespace FirebaseCode

variable (code : FirebaseCode)

def canValueBeVerbatim (bytes : Bytes) : Bool :=
  code.isStringUtf8 bytes && bytes.all fun byte =>
    !(byte ≤ 31 || byte = 127 || byte = UInt8.ofNat '"'.toNat || byte = UInt8.ofNat '\\'.toNat)

def encode (bytes : Bytes) (verbatim : Bool) : Bytes :=
  if verbatim then bytes ++ [verbatimMark] else code.base64UrlEncode bytes ++ [base64Mark]

def encodeValue (bytes : Bytes) : Bytes :=
  code.encode bytes (code.canValueBeVerbatim bytes)

def decode (input : Bytes) : Option Bytes :=
  match input.getLast? with
  | none => none
  | some mark =>
    if mark = verbatimMark then some input.dropLast
    else if mark = base64Mark then code.base64UrlDecode input.dropLast
    else none

@[simp]
theorem decode_encode (bytes : Bytes) (verbatim : Bool) :
    code.decode (code.encode bytes verbatim) = some bytes := by
  have different : base64Mark ≠ verbatimMark := by decide
  cases verbatim with
  | false => simp [decode, encode, different, code.base64UrlDecode_encode]
  | true => simp [decode, encode]

@[simp]
theorem decode_encodeValue (bytes : Bytes) : code.decode (code.encodeValue bytes) = some bytes :=
  code.decode_encode bytes _

theorem encodeValue_injective : Function.Injective code.encodeValue := by
  intro first second same
  simpa using congrArg code.decode same

theorem utf8_encodeValue (bytes : Bytes) : code.isStringUtf8 (code.encodeValue bytes) = true := by
  unfold encodeValue encode
  split
  · rename_i verbatim
    simp only [canValueBeVerbatim, Bool.and_eq_true] at verbatim
    have isAscii : verbatimMark < 128 := by decide
    exact code.utf8_append _ _ verbatim.1
      (code.utf8_of_ascii _ fun byte isMark => List.mem_singleton.mp isMark ▸ isAscii)
  · have isAscii : base64Mark < 128 := by decide
    exact code.utf8_append _ _ (code.utf8_of_ascii _ (code.base64Url_ascii bytes))
      (code.utf8_of_ascii _ fun byte isMark => List.mem_singleton.mp isMark ▸ isAscii)

end FirebaseCode

end Peridot
