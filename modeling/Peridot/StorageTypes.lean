import Mathlib.Algebra.Group.Int.Defs
import Mathlib.Algebra.GroupWithZero.Nat
import Mathlib.Data.List.Lex
import Mathlib.Order.Lattice

/-!
# Data types of the storage layer

The types of `bin/ledger/storage/public/types.h` that the B-tree and the page
storage share.  Strings of the source are byte strings, compared byte by byte.
-/

namespace Peridot

/-- Bytes are compared as unsigned numbers, as `std::string` does. -/
instance byteOrder : LinearOrder UInt8 where
  le_refl := UInt8.le_refl
  le_trans := fun _ _ _ => UInt8.le_trans
  le_antisymm := fun _ _ => UInt8.le_antisymm
  le_total := UInt8.le_total
  lt_iff_le_not_ge := by
    intro first second
    simp only [UInt8.lt_iff_toNat_lt, UInt8.le_iff_toNat_le]
    omega
  toDecidableLE := inferInstance
  toDecidableLT := inferInstance
  toDecidableEq := inferInstance

/-- A byte string; `<` is the lexicographic order of `std::string`. -/
abbrev Bytes := List UInt8

instance byteLawful : LawfulBEq UInt8 :=
  inferInstance

instance bytesLawful : LawfulBEq Bytes :=
  inferInstance

abbrev Key := Bytes

abbrev ObjectDigest := Bytes

/-- `KeyPriority`: when the value of a key is downloaded. -/
inductive KeyPriority where
  | eager
  | lazy
deriving DecidableEq, Inhabited

/-- `ObjectIdentifier`: the digest of an object and what is needed to hide it. -/
structure ObjectIdentifier where
  keyIndex : UInt32
  deletionScopeId : UInt32
  objectDigest : ObjectDigest
deriving DecidableEq, Inhabited

/-- `Entry`: a key of a commit with its value and priority. -/
structure Entry where
  key : Key
  objectIdentifier : ObjectIdentifier
  priority : KeyPriority
deriving DecidableEq, Inhabited

/-- `EntryChange`: an upsert of `entry`, or the deletion of its key. -/
structure EntryChange where
  entry : Entry
  deleted : Bool
deriving Inhabited

/-- `ThreeWayChange`: the entries of three commits at one key. -/
structure ThreeWayChange where
  base : Option Entry
  left : Option Entry
  right : Option Entry
deriving DecidableEq, Inhabited

/-- `Status`: the result codes of the storage layer. -/
inductive Status where
  | ok
  | ioError
  | notFound
  | formatError
  | illegalState
  | internalIoError
  | interrupted
  | notConnectedError
  | noSuchChild
  | objectDigestMismatch
  | notImplemented
deriving DecidableEq, Inhabited

/-- `ChangeSource`: where a commit comes from. -/
inductive ChangeSource where
  | localChange
  | sync
deriving DecidableEq, Inhabited

end Peridot
