import Peridot.Registry
import Peridot.SessionQueues

/-!
# The story provider

`StoryProviderImpl` runs its operations one after the other: the front of its queue is the one that
runs.  Other devices change and delete rows of the root page between the calls of an operation.
The calls of the ledger succeed.
-/

namespace Peridot

open Registry

structure StoryInfo where
  url : Bytes
  id : Bytes
  lastFocusTime : ℤ
  extra : List (Bytes × Bytes)
deriving DecidableEq

structure StoryData where
  storyInfo : StoryInfo
  storyPageId : Bytes
deriving DecidableEq

/-- What the `mutate` of `SetStoryInfoExtra` and of `OnFocusChange` changes; both return true. -/
inductive StoryMutation where
  | extra (name value : Bytes)
  | lastFocusTime (time : ℤ)
deriving DecidableEq

/-- `mutate`. -/
def StoryMutation.apply (data : StoryData) : StoryMutation → StoryData
  | .extra name value =>
    { data with storyInfo.extra := erase data.storyInfo.extra name ++ [(name, value)] }
  | .lastFocusTime time => { data with storyInfo.lastFocusTime := time }

inductive ControllerOperation where
  | deleteCall
  | other

/-- How far the `StopCall` of a `DeleteCall` has come. -/
inductive StopPhase where
  | posted
  | connections (left : ℕ)
  | storyShell
  | links (left : ℕ)
  | done
deriving DecidableEq

/-- `StoryControllerImpl`: its operations, and what a `StopCall` tears down. -/
structure StoryController where
  operations : List ControllerOperation
  stop : StopPhase
  connections : ℕ
  storyShell : Bool
  links : ℕ

/-- What happens to a controller. An operation of another kind can start and stop modules. -/
inductive ControllerEvent where
  | enqueue
  | finish (connections : ℕ) (storyShell : Bool) (links : ℕ)
  | run
  | connectionDown
  | storyShellDown
  | linkDown

namespace StoryController

def start : StoryController :=
  ⟨[], .posted, 0, false, 0⟩

def stopForDelete (controller : StoryController) : StoryController :=
  { controller with operations := controller.operations ++ [.deleteCall] }

/-- `Cleanup`; `StopCall` is done, and `DeleteCall` is not. -/
def cleanup (controller : StoryController) : StoryController × Bool :=
  ({ controller with links := 0, connections := 0, stop := .done }, true)

def stopLinks (controller : StoryController) : StoryController × Bool :=
  if controller.links = 0 then controller.cleanup
  else ({ controller with stop := .links controller.links }, false)

def storyShellDown (controller : StoryController) : StoryController × Bool :=
  stopLinks { controller with storyShell := false }

def stopStoryShell (controller : StoryController) : StoryController × Bool :=
  if controller.storyShell then ({ controller with stop := .storyShell }, false)
  else controller.storyShellDown

/-- `StopCall::Run`. -/
def runStop (controller : StoryController) : StoryController × Bool :=
  if controller.connections = 0 then controller.stopStoryShell
  else ({ controller with stop := .connections controller.connections }, false)

def connectionDown (controller : StoryController) (left : ℕ) : StoryController × Bool :=
  if left - 1 > 0 then ({ controller with stop := .connections (left - 1) }, false)
  else controller.stopStoryShell

def linkDown (controller : StoryController) (left : ℕ) : StoryController × Bool :=
  if left - 1 > 0 then ({ controller with stop := .links (left - 1) }, false)
  else controller.cleanup

/-- A step of the controller, and whether it calls the callback of `StopForDelete`. -/
def step (controller : StoryController) (event : ControllerEvent) :
    Option (StoryController × Bool) :=
  match event, controller.operations with
  | .enqueue, _ =>
    some ({ controller with operations := controller.operations ++ [.other] }, false)
  | .finish connections storyShell links, .other :: operations =>
    some (⟨operations, controller.stop, connections, storyShell, links⟩, false)
  | .run, .deleteCall :: _ => if controller.stop = .posted then some controller.runStop else none
  | .connectionDown, .deleteCall :: _ =>
    match controller.stop with
    | .connections left => some (controller.connectionDown left)
    | _ => none
  | .storyShellDown, .deleteCall :: _ =>
    if controller.stop = .storyShell then some controller.storyShellDown else none
  | .linkDown, .deleteCall :: _ =>
    match controller.stop with
    | .links left => some (controller.linkDown left)
    | _ => none
  | _, _ => none

end StoryController

/-- The operations; `readOnly` are `GetStoryInfo` and others that only read. -/
inductive StoryOperation where
  | createStory (url : Bytes) (extraInfo : List (Bytes × Bytes))
  | deleteStory (storyId : Bytes) (alreadyDeleted : Bool)
  | getController (storyId : Bytes)
  | mutateStoryData (storyId : Bytes) (mutation : StoryMutation)
  | readOnly
deriving DecidableEq

inductive OperationPhase where
  /-- The task that runs it is posted. -/
  | posted
  /-- Nothing of the provider is touched until it is done. -/
  | running
  | gettingPage
  /-- The page has not handled `GetSnapshot` yet. -/
  | reading
  /-- The snapshot was taken with this row. -/
  | read (row : Option StoryData)
  /-- The page has not handled `Put` yet. -/
  | writing (data : StoryData)
  | written
  /-- The page has not handled `Delete` yet. -/
  | deleting
  | deleted
  /-- The controller has been asked to stop. -/
  | stopping
  /-- The task that erases the controller is posted. -/
  | erasing
  | deletingNamespace
  | namespaceDeleted
deriving DecidableEq

/-- `StoryProviderImpl`, with the rows of the root page by story id and the message queues.
`storyIds` are the ids that have been given to stories. `deletedStories` are those whose
row was deleted, `broughtBack` those for which an operation has written it again, and `answered` is
the story whose `DeleteStory` the last step has answered. -/
structure StoryProvider where
  rows : List (Bytes × StoryData)
  storyControllers : List (Bytes × StoryController)
  queues : SessionQueues
  operations : List StoryOperation
  phase : OperationPhase
  notifications : List Bytes
  storyIds : List Bytes
  deletedStories : List Bytes
  broughtBack : List Bytes
  answered : Option Bytes

/-- What clients, the message loop, the pages and other devices do. -/
inductive StoryProviderEvent where
  | createStory (url : Bytes) (extraInfo : List (Bytes × Bytes))
  | deleteStory (storyId : Bytes)
  | getController (storyId : Bytes)
  | setStoryInfoExtra (storyId name value : Bytes)
  | onFocusChange (storyId : Bytes) (time : ℤ)
  | readOnly
  /-- The task that was posted runs. -/
  | run
  /-- The root page handles the call of the operation. -/
  | page
  /-- The operation is answered. -/
  | reply
  /-- The ledger makes a page for the story of this id, and the time is taken. -/
  | getPage (storyId storyPageId : Bytes) (time : ℤ)
  /-- `DeleteNamespaceCall` runs. -/
  | deleteNamespace
  /-- The page tells that a row was deleted. -/
  | onPageDelete (storyId : Bytes)
  | controller (storyId : Bytes) (event : ControllerEvent)
  /-- A module of the story obtains a message queue. -/
  | obtainMessageQueue (storyId : Bytes) (info : MessageQueueInfo) (file : Option QueueDocument)
  | getMessageSender (queueToken : Bytes) (file : Option QueueDocument)
  | deleteMessageQueue (info : MessageQueueInfo)
  /-- A row that another device changed or deleted, or that of a story with a new id that it
  created, is merged into the page. -/
  | remoteChange (data : StoryData)
  | remoteDelete (storyId : Bytes)

def encodeModuleComponentNamespace (storyId : Bytes) : Bytes :=
  ascii ['s', 't', 'o', 'r', 'y', ':'] ++ storyId

namespace StoryProvider

/-- The constructor, with the stories and the message queues of an earlier session. -/
def start (stories : List StoryData) (queuePage : MessageQueuePage) : StoryProvider where
  rows := stories.map fun data => (data.storyInfo.id, data)
  storyControllers := []
  queues := .start queuePage
  operations := []
  phase := .posted
  notifications := []
  storyIds := stories.map fun data => data.storyInfo.id
  deletedStories := []
  broughtBack := []
  answered := none

def enqueue (provider : StoryProvider) (operation : StoryOperation) : StoryProvider :=
  { provider with operations := provider.operations ++ [operation] }

def finish (provider : StoryProvider) : StoryProvider :=
  { provider with operations := provider.operations.tail, phase := .posted }

def deleteRow (provider : StoryProvider) (storyId : Bytes) : StoryProvider :=
  if (find provider.rows storyId).isSome then
    { provider with
      rows := erase provider.rows storyId
      notifications := provider.notifications ++ [storyId]
      deletedStories := storyId :: provider.deletedStories }
  else provider

/-- `Put` of the row of a story, under the id in its data. -/
def putRow (provider : StoryProvider) (data : StoryData) : StoryProvider :=
  { provider with
    rows := erase provider.rows data.storyInfo.id ++ [(data.storyInfo.id, data)]
    broughtBack :=
      if data.storyInfo.id ∈ provider.deletedStories then
        data.storyInfo.id :: provider.broughtBack
      else provider.broughtBack }

/-- The end of a `DeleteStoryCall`, which is answered unless it was made for a notification. -/
def finishDelete (provider : StoryProvider) (storyId : Bytes) (alreadyDeleted : Bool) :
    StoryProvider :=
  { provider.finish with answered := if alreadyDeleted then none else some storyId }

def teardown (provider : StoryProvider) (storyId : Bytes) (alreadyDeleted : Bool) :
    StoryProvider :=
  if (find provider.storyControllers storyId).isSome then
    { provider with
      storyControllers :=
        update provider.storyControllers storyId StoryController.stopForDelete
      phase := .stopping }
  else provider.finishDelete storyId alreadyDeleted

def run (provider : StoryProvider) : Option StoryProvider :=
  match provider.operations, provider.phase with
  | .createStory _ _ :: _, .posted => some { provider with phase := .gettingPage }
  | .deleteStory storyId alreadyDeleted :: _, .posted =>
    if alreadyDeleted then some (provider.teardown storyId alreadyDeleted)
    else some { provider with phase := .deleting }
  | .getController storyId :: _, .posted =>
    if (find provider.storyControllers storyId).isSome then some provider.finish
    else some { provider with phase := .reading }
  | .mutateStoryData _ _ :: _, .posted => some { provider with phase := .reading }
  | .readOnly :: _, .posted => some { provider with phase := .running }
  | .deleteStory storyId _ :: _, .erasing =>
    some { provider with
      storyControllers := erase provider.storyControllers storyId
      phase := .deletingNamespace }
  | _, _ => none

def page (provider : StoryProvider) : Option StoryProvider :=
  match provider.operations, provider.phase with
  | .deleteStory storyId _ :: _, .deleting =>
    some { provider.deleteRow storyId with phase := .deleted }
  | .getController storyId :: _, .reading =>
    some { provider with phase := .read (find provider.rows storyId) }
  | .mutateStoryData storyId _ :: _, .reading =>
    some { provider with phase := .read (find provider.rows storyId) }
  | _, .writing data => some { provider.putRow data with phase := .written }
  | _, _ => none

def reply (provider : StoryProvider) : Option StoryProvider :=
  match provider.operations, provider.phase with
  | .createStory _ _ :: _, .written => some { provider with phase := .running }
  | .createStory _ _ :: _, .running => some provider.finish
  | .deleteStory storyId alreadyDeleted :: _, .deleted =>
    some (provider.teardown storyId alreadyDeleted)
  | .deleteStory storyId alreadyDeleted :: _, .namespaceDeleted =>
    some (provider.finishDelete storyId alreadyDeleted)
  | .getController _ :: _, .read none => some provider.finish
  | .getController storyId :: _, .read (some _) =>
    some { provider.finish with
      storyControllers := provider.storyControllers ++ [(storyId, .start)] }
  | .mutateStoryData _ _ :: _, .read none => some provider.finish
  | .mutateStoryData _ mutation :: _, .read (some data) =>
    some { provider with phase := .writing (mutation.apply data) }
  | .mutateStoryData _ _ :: _, .written => some provider.finish
  | .readOnly :: _, .running => some provider.finish
  | _, _ => none

/-- `CreateStoryCall` gets the page of the story, whose id no other story has. -/
def getPage (provider : StoryProvider) (storyId storyPageId : Bytes) (time : ℤ) :
    Option StoryProvider :=
  match provider.operations, provider.phase with
  | .createStory url extraInfo :: _, .gettingPage =>
    if storyId ∈ provider.storyIds then none
    else some { provider with
      storyIds := storyId :: provider.storyIds
      phase := .writing ⟨⟨url, storyId, time, extraInfo⟩, storyPageId⟩ }
  | _, _ => none

def deleteNamespace (provider : StoryProvider) : Option StoryProvider :=
  match provider.operations, provider.phase with
  | .deleteStory storyId _ :: _, .deletingNamespace =>
    some { provider with
      queues := provider.queues.deleteNamespace (encodeModuleComponentNamespace storyId)
      phase := .namespaceDeleted }
  | _, _ => none

/-- `DeleteStoryCall::Erase`, the callback of `StopForDelete`. -/
def onStopped (provider : StoryProvider) (storyId : Bytes) : StoryProvider :=
  match provider.operations, provider.phase with
  | .deleteStory deleted _ :: _, .stopping =>
    if deleted = storyId then { provider with phase := .erasing } else provider
  | _, _ => provider

def stepController (provider : StoryProvider) (storyId : Bytes) (event : ControllerEvent) :
    Option StoryProvider :=
  ((find provider.storyControllers storyId).bind fun controller =>
    controller.step event).map fun (controller, stopped) =>
      let provider := { provider with
        storyControllers := update provider.storyControllers storyId fun _ => controller }
      if stopped then provider.onStopped storyId else provider

/-- `OnFocusChange`, on the device with the focus. -/
def onFocusChange (provider : StoryProvider) (storyId : Bytes) (time : ℤ) : StoryProvider :=
  if (find provider.storyControllers storyId).isSome then
    provider.enqueue (.mutateStoryData storyId (.lastFocusTime time))
  else provider

def act (provider : StoryProvider) : StoryProviderEvent → Option StoryProvider
  | .createStory url extraInfo => some (provider.enqueue (.createStory url extraInfo))
  | .deleteStory storyId => some (provider.enqueue (.deleteStory storyId false))
  | .getController storyId => some (provider.enqueue (.getController storyId))
  | .setStoryInfoExtra storyId name value =>
    some (provider.enqueue (.mutateStoryData storyId (.extra name value)))
  | .onFocusChange storyId time => some (provider.onFocusChange storyId time)
  | .readOnly => some (provider.enqueue .readOnly)
  | .run => provider.run
  | .page => provider.page
  | .reply => provider.reply
  | .getPage storyId storyPageId time => provider.getPage storyId storyPageId time
  | .deleteNamespace => provider.deleteNamespace
  | .onPageDelete storyId =>
    if storyId ∈ provider.notifications then
      some (enqueue { provider with notifications := provider.notifications.erase storyId }
        (.deleteStory storyId true))
    else none
  | .controller storyId event => provider.stepController storyId event
  | .obtainMessageQueue storyId info file =>
    if (find provider.storyControllers storyId).isSome ∧
        info.componentNamespace = encodeModuleComponentNamespace storyId then
      some { provider with queues := provider.queues.obtainMessageQueue info file }
    else none
  | .getMessageSender queueToken file =>
    some { provider with queues := provider.queues.getMessageSender queueToken file }
  | .deleteMessageQueue info =>
    if isOwn : ∀ found ∈ provider.queues.opened,
        provider.queues.state.page.getQueueToken info = some found.queueToken →
          found.names = info.names then
      some { provider with queues := provider.queues.deleteMessageQueue info isOwn }
    else none
  | .remoteChange data =>
    let storyId := data.storyInfo.id
    if (find provider.rows storyId).isSome then
      some { provider with rows := update provider.rows storyId fun _ => data }
    else if storyId ∈ provider.storyIds ∨ .deleteStory storyId false ∈ provider.operations then none
    else
      some { provider with
        rows := provider.rows ++ [(storyId, data)]
        storyIds := storyId :: provider.storyIds }
  | .remoteDelete storyId =>
    if (find provider.rows storyId).isSome then some (provider.deleteRow storyId)
    else none

def step (provider : StoryProvider) (event : StoryProviderEvent) : Option StoryProvider :=
  act { provider with answered := none } event

def Idle (provider : StoryProvider) : Prop :=
  provider.operations = [] → provider.phase = .posted

variable {provider : StoryProvider}

theorem Idle.of_front {operation : StoryOperation} {rest : List StoryOperation}
    (isFront : provider.operations = operation :: rest) : Idle provider :=
  fun isEmpty => nomatch isFront.symm.trans isEmpty

@[simp]
theorem operations_deleteRow (storyId : Bytes) :
    (provider.deleteRow storyId).operations = provider.operations := by
  rw [deleteRow]
  split <;> rfl

@[simp]
theorem answered_deleteRow (storyId : Bytes) :
    (provider.deleteRow storyId).answered = provider.answered := by
  rw [deleteRow]
  split <;> rfl

theorem find_deleteRow (storyId : Bytes) :
    find (provider.deleteRow storyId).rows storyId = none := by
  rw [deleteRow]
  split
  case isTrue => exact find_erase provider.rows storyId
  case isFalse notThere => exact not_isSome_iff.mp notThere

end StoryProvider

end Peridot
