import Peridot.JsonValue
import Peridot.LedgerKeys

/-!
# The types of nouns

The module resolver learns the entity types of a noun from the noun itself, or asks the entity
that it refers to.
-/

namespace Peridot

structure ResolverLinkInfo where
  path : LinkPath
  allowedTypes : Option (List Bytes)
  contentSnapshot : Option Bytes

inductive ResolverNounConstraint where
  | entityReference (entityReference : Bytes)
  | json (text : Bytes)
  | entityType (types : List Bytes)
  | linkInfo (linkInfo : ResolverLinkInfo)

def kEntityTypeProperty : Bytes :=
  ascii ['@', 't', 'y', 'p', 'e']

def kEntityRefAttribute : Bytes :=
  ascii ['@', 'e', 'n', 't', 'i', 't', 'y', 'R', 'e', 'f']

def kEntityTypeString : Bytes :=
  ascii ['c', 'o', 'm', '.', 'g', 'o', 'o', 'g', 'l', 'e', '.', 'f', 'u', 'c', 'h', 's', 'i', 'a',
    '.', 's', 't', 'r', 'i', 'n', 'g']

/-- `GetString` of a string, which a zero byte ends. -/
def cString (text : Bytes) : Bytes :=
  text.takeWhile (· ≠ 0)

def stringElement : JsonValue → Option Bytes
  | .string text => some (cString text)
  | _ => none

/-- `ExtractEntityTypesFromJson` of a value. -/
def extractEntityTypes : JsonValue → Option (List Bytes)
  | .string _ => some [kEntityTypeString]
  | .object members =>
    match JsonValue.member members kEntityTypeProperty with
    | some (.string text) => some [cString text]
    | some (.array elements) => elements.mapM stringElement
    | _ => none
  | _ => none

/-- `EntityReferenceFromJson` of a value. -/
def entityReferenceOf : JsonValue → Option Bytes
  | .object members =>
    match JsonValue.member members kEntityRefAttribute with
    | some (.string text) => some (cString text)
    | _ => none
  | _ => none

variable (json : JsonCode)

def extractEntityTypesFromJson (text : Bytes) : Option (List Bytes) :=
  (json.parse text).bind extractEntityTypes

def entityReferenceFromJson (text : Bytes) : Option Bytes :=
  (json.parse text).bind entityReferenceOf

def entityReferenceToJson (entityReference : Bytes) : Bytes :=
  cString (json.write (.object [(kEntityRefAttribute, .string entityReference)]))

/-- What `GetNounTypes` does: it calls back at once, or asks the entity resolver and calls back when
the types are there, or does not call back. -/
inductive NounTypes where
  | known (types : List Bytes)
  | asked (entityReference : Bytes)
  | never
deriving DecidableEq

def getNounTypes : ResolverNounConstraint → NounTypes
  | .entityType types => .known types
  | .json text => .known ((extractEntityTypesFromJson json text).getD [])
  | .entityReference entityReference => .asked entityReference
  | .linkInfo linkInfo =>
    match linkInfo.allowedTypes with
    | some types => .known types
    | none =>
      match linkInfo.contentSnapshot.bind (entityReferenceFromJson json) with
      | some entityReference => .asked entityReference
      | none => .never

end Peridot
