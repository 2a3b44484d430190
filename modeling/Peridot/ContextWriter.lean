import Peridot.ContextSelect

/-!
# Writers of the context

`ContextWriterImpl` and `ContextValueWriterImpl` on one repository, with the requests for entity
types that are not answered yet and the tasks that wait on the message loop.
-/

namespace Peridot

open Function

/-- `ContextWriterImpl`. -/
structure ContextWriter where
  parentValueSelector : Option ContextSelector
  topicValueIds : Bytes → Option ℕ

/-- `ContextValueWriterImpl`.  `onReady` are the types of the children that wait for `value_id_`. -/
structure ContextValueWriter where
  writer : ℕ
  parentId : Option ℕ
  type : ContextValueType
  valueId : Option ℕ
  onReady : List ContextValueType

/-- What is done when the types of an entity are known.  `number` counts the writes to the topic:
no function reads it. -/
inductive TypesCallback where
  | topic (writer : ℕ) (topic value : Bytes) (number : ℕ)
  | set (valueWriter : ℕ) (content : Option Bytes) (metadata : Option ContextMetadata)

/-- How far `GetEntityTypesFromEntityReference` is: without an answer, with an answer of `GetTypes`,
or with an error of the connection, after which nothing more comes. -/
inductive EntityStatus where
  | awaiting
  | answered
  | failed
deriving DecidableEq

structure EntityRequest where
  callback : TypesCallback
  status : EntityStatus

/-- A continuation of `CreateChildValue` on the message loop. -/
structure ChildTask where
  this : ℕ
  type : ContextValueType
  valueId : ℕ

/-- The writers of a repository.  `crashed` says that a check has failed or that freed memory was
read.  No function reads `written`, `settled` and `origin`: the values that were written to a topic,
how many of them are settled, and for which topic a value was added. -/
structure WriterWorld where
  context : ContextWorld
  writers : List ContextWriter
  valueWriters : List (Option ContextValueWriter)
  requests : List EntityRequest
  tasks : List ChildTask
  crashed : Bool
  written : ℕ → Bytes → List (Option Bytes)
  settled : ℕ → Bytes → ℕ
  origin : ℕ → Option (ℕ × Bytes)

namespace WriterWorld

def initial : WriterWorld where
  context := .initial
  writers := []
  valueWriters := []
  requests := []
  tasks := []
  crashed := false
  written _ _ := []
  settled _ _ := 0
  origin _ := none

variable (world : WriterWorld)

def callRepository (called : ContextCall) : WriterWorld :=
  match world.context.call called with
  | some context => { world with context }
  | none => { world with crashed := true }

def valueWriter? (id : ℕ) : Option ContextValueWriter :=
  (world.valueWriters[id]?).join

def maybeFindParentValueId (selector : Option ContextSelector) : Option ℕ :=
  selector.bind fun selector =>
    match sortedIds (world.context.repository.select selector) with
    | [id] => some id
    | _ => none

/-- `AddContextValueWriter` of a new value writer. -/
def addContextValueWriter (writer : ℕ) (parentId : Option ℕ) (type : ContextValueType) :
    WriterWorld :=
  { world with
    valueWriters := world.valueWriters ++ [some ⟨writer, parentId, type, none, []⟩] }

def maybeFillEntityTypeMetadata (types : Option (List Bytes)) (value : ContextValue) :
    ContextValue :=
  if value.type ≠ .entity ∨ types = none then value
  else
    let metadata := value.metadata.getD .new
    let entity := metadata.entity.getD ⟨none, none⟩
    { value with
      metadata := some { metadata with entity := some { entity with type := types } } }

def topicValue (topic value : Bytes) (types : Option (List Bytes)) : ContextValue :=
  ⟨.entity, some value, some { ContextMetadata.new with entity := some ⟨some topic, types⟩ }⟩

/-- The continuation of `WriteEntityTopic`. -/
def doneTopic (id : ℕ) (topic value : Bytes) (number : ℕ) (types : Option (List Bytes)) :
    WriterWorld :=
  match world.writers[id]? with
  | none => world
  | some writer =>
    let world := { world with
      settled := update world.settled id
        (update (world.settled id) topic number) }
    match writer.topicValueIds topic with
    | none =>
      let newId := world.context.repository.createValueId
      let parentId := world.maybeFindParentValueId writer.parentValueSelector
      { world.callRepository (.add parentId (topicValue topic value types)) with
        writers := world.writers.set id { writer with
          topicValueIds := update writer.topicValueIds topic (some newId) }
        origin := update world.origin newId (some (id, topic)) }
    | some valueId => world.callRepository (.update valueId (topicValue topic value types))

/-- The continuation `done_getting_types` of `Set`. -/
def doneSet (id : ℕ) (content : Option Bytes) (metadata : Option ContextMetadata)
    (types : Option (List Bytes)) : WriterWorld :=
  match world.valueWriter? id with
  | none => world
  | some writer =>
    match writer.valueId with
    | none =>
      let newId := world.context.repository.createValueId
      let value := maybeFillEntityTypeMetadata types ⟨writer.type, content, metadata⟩
      { world.callRepository (.add writer.parentId value) with
        valueWriters := world.valueWriters.set id
          (some { writer with valueId := some newId, onReady := [] })
        tasks := world.tasks ++ writer.onReady.map fun type => ⟨id, type, newId⟩ }
    | some valueId =>
      match world.context.repository.get valueId with
      | none => { world with crashed := true }
      | some value =>
        world.callRepository (.update valueId (maybeFillEntityTypeMetadata types { value with
            content := content.or value.content
            metadata := metadata.or value.metadata }))

def done (callback : TypesCallback) (types : Option (List Bytes)) : WriterWorld :=
  match callback with
  | .topic writer topic value number => world.doneTopic writer topic value number types
  | .set valueWriter content metadata => world.doneSet valueWriter content metadata types

/-- `GetEntityTypesFromEntityReference`. -/
def getEntityTypes (callback : TypesCallback) : WriterWorld :=
  { world with requests := world.requests ++ [⟨callback, .awaiting⟩] }

def createValue (id : ℕ) (type : ContextValueType) : Option WriterWorld :=
  (world.writers[id]?).map fun writer =>
    world.addContextValueWriter id (world.maybeFindParentValueId writer.parentValueSelector) type

def writeEntityTopic (id : ℕ) (topic : Bytes) (value : Option Bytes) : Option WriterWorld :=
  (world.writers[id]?).map fun writer =>
    let number := (world.written id topic).length + 1
    let world := { world with
      written := update world.written id
        (update (world.written id) topic (world.written id topic ++ [value])) }
    match value with
    | none =>
      let world := { world with
        settled := update world.settled id
          (update (world.settled id) topic number) }
      match writer.topicValueIds topic with
      | none => world
      | some valueId => world.callRepository (.remove valueId)
    | some value => world.getEntityTypes (.topic id topic value number)

def createChildValue (id : ℕ) (type : ContextValueType) : Option WriterWorld :=
  (world.valueWriter? id).map fun writer =>
    match writer.valueId with
    | none => { world with
        valueWriters := world.valueWriters.set id
          (some { writer with onReady := writer.onReady ++ [type] }) }
    | some valueId => { world with tasks := world.tasks ++ [⟨id, type, valueId⟩] }

def set (id : ℕ) (content : Option Bytes) (metadata : Option ContextMetadata) :
    Option WriterWorld :=
  (world.valueWriter? id).map fun writer =>
    if writer.type ≠ .entity then world.doneSet id content metadata none
    else world.getEntityTypes (.set id content metadata)

/-- `DestroyContextValueWriter`, with the destructor. -/
def destroyContextValueWriter (id : ℕ) : Option WriterWorld :=
  (world.valueWriter? id).map fun writer =>
    let world := { world with valueWriters := world.valueWriters.set id none }
    match writer.valueId with
    | none => world
    | some valueId => world.callRepository (.remove valueId)

/-- The answer of `GetTypes`. -/
def getTypes (id : ℕ) (types : Option (List Bytes)) : Option WriterWorld :=
  match world.requests[id]? with
  | some ⟨callback, .awaiting⟩ =>
    some ({ world with requests := world.requests.set id ⟨callback, .answered⟩ }.done callback
      types)
  | _ => none

/-- The error handler of the connection to the entity, with what
`Deprecated_GetTypesFromJsonEntity` reads. -/
def entityError (id : ℕ) (types : Option (List Bytes)) : Option WriterWorld :=
  match world.requests[id]? with
  | some ⟨callback, .awaiting⟩ | some ⟨callback, .answered⟩ =>
    some ({ world with requests := world.requests.set id ⟨callback, .failed⟩ }.done callback types)
  | _ => none

def runTask : Option WriterWorld :=
  match world.tasks with
  | [] => none
  | task :: tasks =>
    let world := { world with tasks }
    match world.valueWriter? task.this with
    | none => some { world with crashed := true }
    | some writer => some (world.addContextValueWriter writer.writer (some task.valueId) task.type)

end WriterWorld

inductive WriterEvent where
  | getWriter (parentValueSelector : Option ContextSelector)
  | createValue (writer : ℕ) (type : ContextValueType)
  | createChildValue (valueWriter : ℕ) (type : ContextValueType)
  | set (valueWriter : ℕ) (content : Option Bytes) (metadata : Option ContextMetadata)
  | close (valueWriter : ℕ)
  | writeEntityTopic (writer : ℕ) (topic : Bytes) (value : Option Bytes)
  | getTypes (request : ℕ) (types : Option (List Bytes))
  | entityError (request : ℕ) (types : Option (List Bytes))
  | runTask

namespace WriterWorld

def step (world : WriterWorld) (event : WriterEvent) : Option WriterWorld :=
  if world.crashed then none
  else
    match event with
    | .getWriter selector => some { world with
        writers := world.writers ++ [⟨selector, fun _ => none⟩] }
    | .createValue writer type => world.createValue writer type
    | .createChildValue valueWriter type => world.createChildValue valueWriter type
    | .set valueWriter content metadata => world.set valueWriter content metadata
    | .close valueWriter => world.destroyContextValueWriter valueWriter
    | .writeEntityTopic writer topic value => world.writeEntityTopic writer topic value
    | .getTypes request types => world.getTypes request types
    | .entityError request types => world.entityError request types
    | .runTask => world.runTask

end WriterWorld

end Peridot
