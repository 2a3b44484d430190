import Peridot.NodeCode
import Peridot.PageStorage

/-!
# Making commits

`CommitImpl` with the first commit of a page, and `FromContentAndParents`, which makes a
commit from its root and its parents.
-/

namespace Peridot

/-- `CommitImpl`: what is read of a commit, the first one of the page included. -/
structure CommitImpl where
  id : CommitId
  storage : CommitStorage
deriving DecidableEq, Inhabited

namespace CommitImpl

def generation (commit : CommitImpl) : UInt64 :=
  commit.storage.generation

def timestamp (commit : CommitImpl) : Int64 :=
  commit.storage.timestamp

def rootIdentifier (commit : CommitImpl) : ObjectIdentifier :=
  commit.storage.rootNodeId

def parentIds (commit : CommitImpl) : List CommitId :=
  commit.storage.parents

/-- `CommitImpl::Empty`, with the identifier of the empty node. -/
def empty (rootIdentifier : ObjectIdentifier) : CommitImpl :=
  ⟨kFirstPageCommitId, ⟨0, 0, rootIdentifier, []⟩⟩

end CommitImpl

def Commit.toImpl {formats : StorageFormats} (commit : Commit formats) : CommitImpl :=
  ⟨commit.id, commit.storage⟩

/-- The generated code that serializes commits, and `SHA256WithLengthHash`. -/
structure CommitCode (formats : StorageFormats) where
  serialize : CommitStorage → Bytes
  hash : Bytes → CommitId
  parse_serialize : ∀ storage, formats.parseCommit (serialize storage) = some storage

namespace CommitCode

variable {formats : StorageFormats} (code : CommitCode formats)

def nextGeneration (parentCommits : List CommitImpl) : UInt64 :=
  parentCommits.foldl (fun parentGeneration commit =>
    if parentGeneration < commit.generation then commit.generation else parentGeneration) 0 + 1

/-- What `FromContentAndParents` serializes; `now` is the time of `gettimeofday`. -/
def storageOf (now : Int64) (rootIdentifier : ObjectIdentifier) (parentCommits : List CommitImpl) :
    CommitStorage :=
  let sorted := parentCommits.mergeSort fun c1 c2 => !decide (c2.id < c1.id)
  { generation := nextGeneration parentCommits
    timestamp := match sorted with
      | [first, second] =>
        if first.timestamp < second.timestamp then second.timestamp else first.timestamp
      | _ => now
    rootNodeId := rootIdentifier
    parents := sorted.map CommitImpl.id }

theorem storageOf_merge (now other : Int64) (rootIdentifier : ObjectIdentifier)
    (left right : CommitImpl) :
    storageOf now rootIdentifier [left, right] = storageOf other rootIdentifier [left, right] := by
  have two : ([left, right].mergeSort fun c1 c2 => !decide (c2.id < c1.id)).length = 2 :=
    List.length_mergeSort _
  obtain ⟨first, second, isSorted⟩ := List.length_eq_two.mp two
  simp only [storageOf, isSorted]

def fromContentAndParents (now : Int64) (rootIdentifier : ObjectIdentifier)
    (parentCommits : List CommitImpl)
    (oneOrTwo : parentCommits ≠ [] ∧ parentCommits.length ≤ 2) : Commit formats where
  id := code.hash (code.serialize (storageOf now rootIdentifier parentCommits))
  storageBytes := code.serialize (storageOf now rootIdentifier parentCommits)
  storage := storageOf now rootIdentifier parentCommits
  parsed := code.parse_serialize _
  hasParents := by
    simpa [storageOf, ← List.length_eq_zero_iff, List.length_mergeSort] using oneOrTwo

theorem fromContentAndParents_merge (now other : Int64) (rootIdentifier : ObjectIdentifier)
    {left right : CommitImpl} (oneOrTwo : [left, right] ≠ [] ∧ [left, right].length ≤ 2) :
    code.fromContentAndParents now rootIdentifier [left, right] oneOrTwo =
      code.fromContentAndParents other rootIdentifier [left, right] oneOrTwo := by
  have same := storageOf_merge now other rootIdentifier left right
  simp only [fromContentAndParents, same]

end CommitCode

def commitCode (storage : CommitStorage) : Bytes :=
  natCode storage.timestamp.toUInt64.toNat ++ (natCode storage.generation.toNat ++
    (identifierCode storage.rootNodeId ++ listCode bytesCode storage.parents))

theorem commitCode_injective : Function.Injective commitCode := by
  refine (SelfDelimiting.comp (natCode_selfDelimiting.append (natCode_selfDelimiting.append
    (identifierCode_selfDelimiting.append bytesCode_selfDelimiting.list)))
    (f := fun storage : CommitStorage => (storage.timestamp.toUInt64.toNat,
      storage.generation.toNat, storage.rootNodeId, storage.parents)) ?_).injective
  rintro ⟨timestamp, generation, root, parents⟩ ⟨timestamp', generation', root', parents'⟩ same
  simp only [Prod.mk.injEq, UInt64.toNat_inj] at same
  obtain ⟨sameBits, rfl, rfl, rfl⟩ := same
  have sameTime := congrArg UInt64.toInt64 sameBits
  rw [Int64.toInt64_toUInt64, Int64.toInt64_toUInt64] at sameTime
  rw [sameTime]

noncomputable def codeFormats : StorageFormats where
  parseCommit := Function.partialInv commitCode
  parseFileIndex _ := none

noncomputable def CommitCode.byCode : CommitCode codeFormats where
  serialize := commitCode
  hash bytes := bytes
  parse_serialize := Function.partialInv_left commitCode_injective

end Peridot
