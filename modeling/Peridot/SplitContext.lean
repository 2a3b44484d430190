import Mathlib.Data.UInt
import Peridot.AddCommits
import Peridot.LevelStack
import Peridot.RollSumSplit

/-!
# Splitting of objects

`SplitDataSource` cuts the data of a source into pieces, with index pieces above them.  The
identifiers of the pieces are collected in a stack of levels; a cut of the rolling hash adds an
identifier at level 0 and says how many levels are flushed.
-/

namespace Peridot

def kMinChunkSize : ℕ := 4 * 1024

def kMaxChunkSize : ℕ := 65535

def kBitsPerLevel : ℕ := 4

def kMaxIdentifierSize : ℕ := 77

def kMaxIdentifiersPerIndex : ℕ := kMaxChunkSize / kMaxIdentifierSize

inductive ObjectType
  | value
  | index

structure ObjectIdentifierAndSize where
  identifier : ObjectIdentifier
  size : UInt64

/-- What the splitting uses from outside: `SHA256WithLengthHash`, the code that is generated for
`FileIndex`, and the identifier that the caller makes for a digest. -/
structure SplitCode extends StorageFormats where
  sha256WithLengthHash : Bytes → Bytes
  buildFileIndexBuffer : FileIndex → Bytes
  makeObjectIdentifier : ObjectDigest → ObjectIdentifier
  length_hash : ∀ content, (sha256WithLengthHash content).length = kStorageHashSize
  parse_build : ∀ fileIndex, parseFileIndex (buildFileIndexBuffer fileIndex) = some fileIndex
  digest_make : ∀ digest, (makeObjectIdentifier digest).objectDigest = digest

/-- What is sent to the client: `IN_PROGRESS` with a piece, `DONE` with the digest of the object,
or `ERROR`. -/
inductive IterationOutput
  | inProgress (digest : ObjectDigest) (content : Bytes)
  | done (digest : ObjectDigest)
  | error

inductive DataSourceStatus
  | done
  | toBeContinued
  | error

def IsIndexHash (digest : ObjectDigest) : Prop :=
  getObjectDigestType digest = .indexHash
deriving Decidable

def buildFileIndex (children : List ObjectIdentifierAndSize) : FileIndex :=
  ⟨(children.map ObjectIdentifierAndSize.size).sum,
    children.map fun child => (child.size, child.identifier)⟩

/-- The callbacks of a data source. `sent` is what was sent to the client, `crashed` the use of a
level that does not exist. The chunks behind the views are not modelled: each view is a chunk, or
the rest of one. -/
structure SplitContext where
  rollSumSplit : RollSumSplit
  views : List Bytes
  currentIdentifiersPerLevel : List (List ObjectIdentifierAndSize)
  sent : List IterationOutput
  crashed : Bool

namespace SplitCode

variable (code : SplitCode)

def computeObjectDigest (type : ObjectType) (content : Bytes) : ObjectDigest :=
  match type with
  | .value =>
    if content.length ≤ kStorageHashSize then content
    else 1 :: code.sha256WithLengthHash content
  | .index => 2 :: code.sha256WithLengthHash content

def indexContent (children : List ObjectIdentifierAndSize) : Bytes :=
  code.buildFileIndexBuffer (buildFileIndex children)

/-- The piece that `BuildAndSendIndex` sends. -/
def indexOutput (children : List ObjectIdentifierAndSize) : IterationOutput :=
  .inProgress (code.computeObjectDigest .index (code.indexContent children))
    (code.indexContent children)

def buildAndSendIndex (children : List ObjectIdentifierAndSize) : ObjectIdentifierAndSize :=
  ⟨code.makeObjectIdentifier (code.computeObjectDigest .index (code.indexContent children)),
    (buildFileIndex children).size⟩

def chunkIdentifier (data : Bytes) : ObjectIdentifierAndSize :=
  ⟨code.makeObjectIdentifier (code.computeObjectDigest .value data), UInt64.ofNat data.length⟩

/-- The piece that `BuildAndSendNextChunk` sends. -/
def chunkOutput (data : Bytes) : IterationOutput :=
  .inProgress (code.computeObjectDigest .value data) data

/-- `AddIdentifierAtLevel`, with the index files that it builds. -/
def addIdentifierAtLevel (levels : List (List ObjectIdentifierAndSize)) (level : ℕ)
    (data : ObjectIdentifierAndSize) :
    List (List ObjectIdentifierAndSize) × List (List ObjectIdentifierAndSize) :=
  LevelStack.add kMaxIdentifiersPerIndex code.buildAndSendIndex levels level data

/-- `BuildIndexAtLevel` for all levels below `level`, with the index files that it builds. -/
def buildIndexesBelow (levels : List (List ObjectIdentifierAndSize)) (level : ℕ) :
    List (List ObjectIdentifierAndSize) × List (List ObjectIdentifierAndSize) :=
  LevelStack.flushAll kMaxIdentifiersPerIndex code.buildAndSendIndex levels level

end SplitCode

def getLevel (bits : ℕ) : ℕ :=
  (bits - kBlobBits) / kBitsPerLevel

namespace SplitContext

def new : SplitContext :=
  ⟨.new kMinChunkSize kMaxChunkSize, [], [], [], false⟩

variable (code : SplitCode)

/-- `BuildNextChunk`: the data of all views, up to `index` in the last one. -/
def nextChunk (context : SplitContext) (index : ℕ) : Bytes :=
  context.views.dropLast.flatten ++ (context.views.getLastD []).take index

/-- The views that `BuildNextChunk` leaves. -/
def nextViews (context : SplitContext) (index : ℕ) : List Bytes :=
  if index < (context.views.getLastD []).length then [(context.views.getLastD []).drop index]
  else []

def buildAndSendNextChunk (context : SplitContext) (splitIndex : ℕ) : SplitContext :=
  let data := context.nextChunk splitIndex
  let (levels, indexes) :=
    code.addIdentifierAtLevel context.currentIdentifiersPerLevel 0 (code.chunkIdentifier data)
  { context with
    views := context.nextViews splitIndex
    currentIdentifiersPerLevel := levels
    sent := context.sent ++ [code.chunkOutput data] ++ indexes.map code.indexOutput }

/-- The loop of `ProcessChunk` that builds the index files of a cut. -/
def buildIndexes (context : SplitContext) (level : ℕ) : SplitContext :=
  let (levels, indexes) := code.buildIndexesBelow context.currentIdentifiersPerLevel level
  { context with
    currentIdentifiersPerLevel := levels
    sent := context.sent ++ indexes.map code.indexOutput }

/-- The loop of `ProcessChunk`; each round with a cut leaves less of the view. -/
def processViews : ℕ → SplitContext → SplitContext
  | 0, context => context
  | fuel + 1, context =>
    match context.views.getLast? with
    | none => context
    | some view =>
      match context.rollSumSplit.feed view with
      | (rollSumSplit, none) => { context with rollSumSplit }
      | (rollSumSplit, some (splitIndex, bits)) =>
        processViews fuel
          ((({ context with rollSumSplit }.buildAndSendNextChunk code splitIndex).buildIndexes
            code (getLevel bits)))

def processChunk (context : SplitContext) (chunk : Bytes) : SplitContext :=
  processViews code (chunk.length + 1) { context with views := context.views ++ [chunk] }

/-- The end of `AddChunk`: what remains is sent, and the levels are collapsed. -/
def finish (context : SplitContext) : SplitContext :=
  let context := if context.views = [] then context
    else context.buildAndSendNextChunk code (context.views.getLastD []).length
  let levels := context.currentIdentifiersPerLevel
  match LevelStack.collapse kMaxIdentifiersPerIndex code.buildAndSendIndex levels 0
      (levels.length + 1) with
  | (some object, indexes) =>
    { context with sent := context.sent ++ indexes.map code.indexOutput ++
        [.done object.identifier.objectDigest] }
  | (none, indexes) =>
    { context with
      sent := context.sent ++ indexes.map code.indexOutput
      crashed := true }

def addChunk (context : SplitContext) (chunk : Option Bytes) (status : DataSourceStatus) :
    SplitContext :=
  match status with
  | .error => { context with sent := context.sent ++ [.error] }
  | .toBeContinued => (chunk.map (context.processChunk code)).getD context
  | .done => ((chunk.map (context.processChunk code)).getD context).finish code

end SplitContext

/-- `SplitDataSource` of a source that delivers the given chunks, all but the last of them with
`TO_BE_CONTINUED`; the last delivery may be without a chunk. -/
def splitDataSource (code : SplitCode) (chunks : List Bytes) (last : Option Bytes) :
    SplitContext :=
  let fed := chunks.foldl
    (fun (context : SplitContext) chunk => context.addChunk code (some chunk) .toBeContinued)
    SplitContext.new
  fed.addChunk code last .done

end Peridot
