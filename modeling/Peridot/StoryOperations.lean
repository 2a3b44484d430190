import Peridot.StepRun
import Peridot.StoryModules

/-!
# The operations of a story

`StoryControllerImpl` runs its operations one after the other.  An operation that writes the data of
a module goes on when the page has told that the data changed.  The page tells of exactly the writes
that change what it has.
-/

namespace Peridot

open List Registry

inductive ModuleSource where
  | internal
  | external
deriving DecidableEq

structure ModuleData where
  moduleUrl : Bytes
  modulePath : List Bytes
  chainData : List (Bytes × LinkPath)
  linkPath : LinkPath
  moduleSource : ModuleSource
  surfaceRelation : Option SurfaceRelation
  moduleStopped : Bool
deriving DecidableEq

/-- What `StartModuleCall` is given. The default link of the parent is used for no link name. -/
structure ModuleRequest where
  parentPath : List Bytes
  name : Bytes
  moduleUrl : Bytes
  linkName : Option Bytes
  moduleSource : ModuleSource
  surfaceRelation : Option SurfaceRelation
  incomingServices : Bool
  embedModuleWatcher : Bool

def ModuleRequest.modulePath (request : ModuleRequest) : List Bytes :=
  request.parentPath ++ [request.name]

/-- The data that `StartModuleCall` and `AddModuleCall` write. -/
def ModuleRequest.moduleData (request : ModuleRequest) (linkPath : LinkPath) : ModuleData :=
  ⟨request.moduleUrl, request.modulePath, [], linkPath, request.moduleSource,
    request.surfaceRelation, false⟩

/-- What `AddModule` is given, as a request. -/
def ModuleRequest.added (parentPath : List Bytes) (name moduleUrl linkName : Bytes)
    (surfaceRelation : Option SurfaceRelation) : ModuleRequest :=
  ⟨parentPath, name, moduleUrl, some linkName, .external, surfaceRelation, false, false⟩

def ModuleData.request (data : ModuleData) : ModuleRequest :=
  ⟨data.modulePath.dropLast, data.modulePath.getLastD [], data.moduleUrl,
    some data.linkPath.linkName, data.moduleSource, data.surfaceRelation, false, false⟩

/-- The operations on the queue of the story; `other` do not write the data of modules. -/
inductive ModuleOperation where
  | addModule (parentPath : List Bytes) (name moduleUrl linkName : Bytes)
      (surfaceRelation : Option SurfaceRelation)
  | startModule (request : ModuleRequest)
  | stopModule (modulePath : List Bytes)
  | ledgerNotification (data : ModuleData)
  | start
  | stop
  | other

/-- What a `ReadDataCall` is for. -/
inductive ReadPurpose where
  /-- The default link of the parent. -/
  | parentLink (request : ModuleRequest)
  /-- Whether the data is there already. -/
  | current (data : ModuleData) (request : ModuleRequest)
  | stopped (modulePath : List Bytes)
  | allModules

/-- What follows a `BlockingModuleDataWriteCall`. -/
inductive AfterWrite where
  | added (request : ModuleRequest)
  | launch (request : ModuleRequest)
  | kill

inductive ModuleOperationStage where
  /-- The task that runs it is posted. -/
  | posted
  | running
  /-- The page has not handled the read yet. -/
  | reading (purpose : ReadPurpose)
  /-- The page has read the rows, and the answer is on its way. -/
  | read (purpose : ReadPurpose) (rows : List ModuleData)
  /-- The page has not handled `Put` yet. -/
  | writing (data : ModuleData) (after : AfterWrite)
  | written (data : ModuleData) (after : AfterWrite)
  /-- `Put` is answered, and `Continue` is awaited. -/
  | blocked (data : ModuleData) (after : AfterWrite)
  /-- The instance that runs is torn down before the new one is launched. -/
  | relaunching (data : ModuleData)
  /-- The answer of the story shell to `DefocusView` is on its way. -/
  | defocusing (data : ModuleData)
  | killing (data : ModuleData)
  /-- The teardowns of `StopCall`. -/
  | stopping

/-- `StoryControllerImpl`, with the data of the modules in the page of the story and the
notifications of the page that are on their way. `requests` are the modules that the operation at
the front still has to start. -/
structure StoryControllerImpl where
  rows : List (List Bytes × ModuleData)
  notifications : List ModuleData
  connections : Connections
  storyShell : Bool
  isRunning : Bool
  blockedOperations : List ModuleData
  operations : List ModuleOperation
  stage : ModuleOperationStage
  requests : List ModuleRequest

/-- What clients, the message loop, the page, the modules and other devices do. -/
inductive StoryControllerEvent where
  | call (operation : ModuleOperation)
  /-- The task that was posted runs. -/
  | run
  /-- The page handles the call of the operation, successfully or not. -/
  | page (isOk : Bool)
  /-- The operation is answered. -/
  | reply
  /-- The page tells of a change. -/
  | onPageChange
  /-- The teardown that the operation waits for is done. -/
  | tornDown
  | remoteChange (data : ModuleData)
  | onRootStateChange (isRunning : Bool)

namespace StoryControllerImpl

def start (modules : List ModuleData) : StoryControllerImpl :=
  ⟨modules.map fun data => (data.modulePath, data), [], [], false, false, [], [], .posted, []⟩

def finish (controller : StoryControllerImpl) : StoryControllerImpl :=
  { controller with operations := controller.operations.tail, stage := .posted }

def put (controller : StoryControllerImpl) (data : ModuleData) : StoryControllerImpl :=
  if find controller.rows data.modulePath = some data then controller
  else { controller with
    rows := erase controller.rows data.modulePath ++ [(data.modulePath, data)]
    notifications := controller.notifications ++ [data] }

/-- `BlockingModuleDataWriteCall`. -/
def blockingWrite (controller : StoryControllerImpl) (data : ModuleData) (after : AfterWrite) :
    StoryControllerImpl :=
  { controller with
    blockedOperations := controller.blockedOperations ++ [data]
    stage := .writing data after }

def cont1 (controller : StoryControllerImpl) (request : ModuleRequest) (linkPath : LinkPath) :
    StoryControllerImpl :=
  { controller with stage := .reading (.current (request.moduleData linkPath) request) }

/-- `StartModuleCall::Run`. -/
def startModule (controller : StoryControllerImpl) (request : ModuleRequest) :
    StoryControllerImpl :=
  match request.linkName with
  | some linkName => controller.cont1 request ⟨request.parentPath, linkName⟩
  | none => { controller with stage := .reading (.parentLink request) }

def nextRequest (controller : StoryControllerImpl) : StoryControllerImpl :=
  match controller.requests with
  | [] => controller.finish
  | request :: requests => startModule { controller with requests } request

def launch (controller : StoryControllerImpl) (data : ModuleData) : StoryControllerImpl :=
  nextRequest { controller with
    connections := controller.connections ++
      [(data.modulePath, ⟨data.moduleUrl, data.linkPath, data.surfaceRelation⟩)] }

/-- `LaunchModuleCall::Run`. -/
def launchModule (controller : StoryControllerImpl) (data : ModuleData)
    (request : ModuleRequest) : StoryControllerImpl :=
  match find controller.connections data.modulePath with
  | none => controller.launch data
  | some connection =>
    if connection.moduleUrl ≠ data.moduleUrl ∨ connection.linkPath ≠ data.linkPath ∨
        request.embedModuleWatcher ∨ request.incomingServices then
      { controller with stage := .relaunching data }
    else controller.nextRequest

/-- `KillModuleCall::Cont`. -/
def killCont (controller : StoryControllerImpl) (data : ModuleData) : StoryControllerImpl :=
  if (find controller.connections data.modulePath).isSome then
    { controller with stage := .killing data }
  else controller.finish

/-- `KillModuleCall::Run`. -/
def killModule (controller : StoryControllerImpl) (data : ModuleData) : StoryControllerImpl :=
  if controller.storyShell ∧ data.moduleSource = .external then
    { controller with stage := .defocusing data }
  else controller.killCont data

/-- `LedgerNotificationCall::Run`. -/
def ledgerNotification (controller : StoryControllerImpl) (data : ModuleData) :
    StoryControllerImpl :=
  if controller.isRunning = false ∨ data.moduleSource ≠ .external then controller.finish
  else if data.moduleStopped then
    if (find controller.connections data.modulePath).isSome then
      controller.killModule data
    else controller.finish
  else controller.startModule data.request

def run (controller : StoryControllerImpl) : Option StoryControllerImpl :=
  match controller.operations, controller.stage with
  | .addModule parentPath name moduleUrl linkName surfaceRelation :: _, .posted =>
    let request := ModuleRequest.added parentPath name moduleUrl linkName surfaceRelation
    some (controller.blockingWrite (request.moduleData ⟨parentPath, linkName⟩) (.added request))
  | .startModule request :: _, .posted => some (controller.startModule request)
  | .stopModule modulePath :: _, .posted =>
    some { controller with stage := .reading (.stopped modulePath) }
  | .ledgerNotification data :: _, .posted => some (controller.ledgerNotification data)
  | .start :: _, .posted =>
    if controller.isRunning then some controller.finish
    else some { controller with storyShell := true, stage := .reading .allModules }
  | .stop :: _, .posted => some { controller with stage := .stopping }
  | .other :: _, .posted => some { controller with stage := .running }
  | _, _ => none

def readRows (controller : StoryControllerImpl) : ReadPurpose → List ModuleData
  | .parentLink request => (find controller.rows request.parentPath).toList
  | .current _ request => (find controller.rows request.modulePath).toList
  | .stopped modulePath => (find controller.rows modulePath).toList
  | .allModules => controller.rows.map Prod.snd

def page (controller : StoryControllerImpl) (isOk : Bool) : Option StoryControllerImpl :=
  match controller.stage with
  | .reading purpose =>
    some { controller with
      stage := .read purpose (if isOk then controller.readRows purpose else []) }
  | .writing data after =>
    some { if isOk then controller.put data else controller with stage := .written data after }
  | _ => none

def continueWith (controller : StoryControllerImpl) (data : ModuleData) :
    AfterWrite → StoryControllerImpl
  | .added request =>
    if controller.isRunning then controller.startModule request else controller.finish
  | .launch request => controller.launchModule data request
  | .kill => controller.killModule data

/-- A `ReadDataCall` is answered. The process does not go on where a module is stopped that has no
data, or takes the link of a parent that has none. -/
def onRead (controller : StoryControllerImpl) (purpose : ReadPurpose) (rows : List ModuleData) :
    Option StoryControllerImpl :=
  match purpose, rows with
  | .parentLink request, parent :: _ => some (controller.cont1 request parent.linkPath)
  | .current data request, rows =>
    if rows.head? = some data then some (controller.launchModule data request)
    else some (controller.blockingWrite data (.launch request))
  | .stopped _, data :: _ =>
    if data.moduleStopped then some (controller.killModule data)
    else some (controller.blockingWrite { data with moduleStopped := true } .kill)
  | .allModules, rows =>
    some (nextRequest { controller with
      isRunning := true
      requests := (rows.filter fun data =>
        data.moduleSource = .external ∧ data.moduleStopped = false).map ModuleData.request })
  | _, _ => none

def reply (controller : StoryControllerImpl) : Option StoryControllerImpl :=
  match controller.stage with
  | .read purpose rows => controller.onRead purpose rows
  | .written data after =>
    if data ∈ controller.blockedOperations then
      some { controller with stage := .blocked data after }
    else some (controller.continueWith data after)
  | .defocusing data => some (controller.killCont data)
  | .running => some controller.finish
  | _ => none

def onPageChange (controller : StoryControllerImpl) : Option StoryControllerImpl :=
  match controller.notifications with
  | [] => none
  | data :: notifications =>
    let controller := { controller with notifications }
    if data ∈ controller.blockedOperations then
      let controller := { controller with
        blockedOperations := controller.blockedOperations.erase data }
      match controller.stage with
      | .blocked written after =>
        some (if written = data then controller.continueWith written after else controller)
      | _ => some controller
    else
      some { controller with operations := controller.operations ++ [.ledgerNotification data] }

/-- A teardown is done, and `ReleaseModule` was called. -/
def tornDown (controller : StoryControllerImpl) : Option StoryControllerImpl :=
  match controller.stage with
  | .relaunching data =>
    some (launch { controller with
      connections := erase controller.connections data.modulePath } data)
  | .killing data =>
    some (finish { controller with
      connections := erase controller.connections data.modulePath })
  | .stopping =>
    some (finish { controller with connections := [], storyShell := false, isRunning := false })
  | _ => none

def step (controller : StoryControllerImpl) : StoryControllerEvent → Option StoryControllerImpl
  | .call (.ledgerNotification _) => none
  | .call operation => some { controller with operations := controller.operations ++ [operation] }
  | .run => controller.run
  | .page isOk => controller.page isOk
  | .reply => controller.reply
  | .onPageChange => controller.onPageChange
  | .tornDown => controller.tornDown
  | .remoteChange data => some (controller.put data)
  | .onRootStateChange isRunning => some { controller with isRunning }

/-- No notification is on its way, and the operation at the front, if there is one, waits for
`Continue` only. -/
def Quiescent (controller : StoryControllerImpl) : Prop :=
  controller.notifications = [] ∧
    (controller.operations ≠ [] → ∃ data after, controller.stage = .blocked data after)

/-- No operation of the story waits or runs. -/
structure Idle (controller : StoryControllerImpl) : Prop where
  noneBlocked : controller.blockedOperations = []
  noOperation : controller.operations = []

/-- A blocking write changes what the page has, or the page has told of the same data since the
write was registered, or a notification with the same data is on its way. -/
def WriteIsTold (controller : StoryControllerImpl) : StoryControllerEvent → Prop
  | .page isOk =>
    match controller.stage with
    | .writing data _ =>
      (isOk = true ∧ find controller.rows data.modulePath ≠ some data) ∨
        data ∈ controller.notifications ∨ data ∉ controller.blockedOperations
    | _ => True
  | _ => True

section

variable (controller : StoryControllerImpl)
include controller

variable (data : ModuleData)
include data

@[simp]
theorem operations_put : (controller.put data).operations = controller.operations := by
  rw [put]
  split <;> rfl

@[simp]
theorem blockedOperations_put :
    (controller.put data).blockedOperations = controller.blockedOperations := by
  rw [put]
  split <;> rfl

@[simp]
theorem stage_put : (controller.put data).stage = controller.stage := by
  rw [put]
  split <;> rfl

theorem mem_notifications_put {other : ModuleData} (isOther : other ∈ controller.notifications) :
    other ∈ (controller.put data).notifications := by
  rw [put]
  split
  · exact isOther
  · exact mem_append_left _ isOther

theorem mem_notifications_put_self
    (isNew : find controller.rows data.modulePath ≠ some data) :
    data ∈ (controller.put data).notifications := by
  rw [put, if_neg isNew]
  apply mem_append_right
  exact mem_singleton_self data

end

instance (controller : StoryControllerImpl) (event : StoryControllerEvent) :
    Decidable (controller.WriteIsTold event) := by
  unfold WriteIsTold
  split
  · split <;> infer_instance
  · infer_instance

def Waits (controller : StoryControllerImpl) : Prop :=
  match controller.stage with
  | .writing data _ => controller.blockedOperations = [] ∨ controller.blockedOperations = [data]
  | .written data _ => controller.blockedOperations = [] ∨
      controller.blockedOperations = [data] ∧ data ∈ controller.notifications
  | .blocked data _ => controller.blockedOperations = [data] ∧ data ∈ controller.notifications
  | _ => controller.blockedOperations = []

/-- The invariant: an operation that is blocked will be told. -/
structure Told (controller : StoryControllerImpl) : Prop where
  begun : controller.operations = [] → controller.stage = .posted
  waits : Waits controller

/-- An operation that goes on: it is at the front, and none is blocked. -/
structure GoesOn (controller : StoryControllerImpl) : Prop where
  isFront : controller.operations ≠ []
  noneBlocked : controller.blockedOperations = []

variable {controller next : StoryControllerImpl}

namespace GoesOn

variable (goesOn : GoesOn controller)
include goesOn

theorem told (sameOperations : next.operations = controller.operations)
    (waits : Waits next) : Told next :=
  ⟨fun isEmpty => absurd (sameOperations.symm.trans isEmpty) goesOn.isFront, waits⟩

theorem finish : Told controller.finish :=
  ⟨fun _ => rfl, goesOn.noneBlocked⟩

theorem cont1 (request : ModuleRequest) (linkPath : LinkPath) :
    Told (controller.cont1 request linkPath) :=
  goesOn.told rfl goesOn.noneBlocked

theorem blockingWrite (data : ModuleData) (after : AfterWrite) :
    Told (controller.blockingWrite data after) := by
  have isBlocked : (controller.blockingWrite data after).blockedOperations = [data] := by
    rw [StoryControllerImpl.blockingWrite, goesOn.noneBlocked]
    rfl
  exact goesOn.told rfl (.inr isBlocked)

theorem startModule (request : ModuleRequest) : Told (controller.startModule request) := by
  rw [StoryControllerImpl.startModule]
  split
  · exact goesOn.cont1 request _
  · exact goesOn.told rfl goesOn.noneBlocked

theorem nextRequest : Told controller.nextRequest := by
  rw [StoryControllerImpl.nextRequest]
  split
  case h_1 => exact goesOn.finish
  case h_2 request requests isRequests =>
    have rest : GoesOn { controller with requests } :=
      ⟨goesOn.isFront, goesOn.noneBlocked⟩
    exact rest.startModule request

section

variable (data : ModuleData)
include data

theorem launch : Told (controller.launch data) :=
  nextRequest ⟨goesOn.isFront, goesOn.noneBlocked⟩

theorem launchModule (request : ModuleRequest) : Told (controller.launchModule data request) := by
  rw [StoryControllerImpl.launchModule]
  split
  · exact goesOn.launch data
  · split
    · exact goesOn.told rfl goesOn.noneBlocked
    · exact goesOn.nextRequest

theorem killCont : Told (controller.killCont data) := by
  rw [StoryControllerImpl.killCont]
  split
  · exact goesOn.told rfl goesOn.noneBlocked
  · exact goesOn.finish

theorem killModule : Told (controller.killModule data) := by
  rw [StoryControllerImpl.killModule]
  split
  · exact goesOn.told rfl goesOn.noneBlocked
  · exact goesOn.killCont data

theorem ledgerNotification : Told (controller.ledgerNotification data) := by
  rw [StoryControllerImpl.ledgerNotification]
  split
  · exact goesOn.finish
  · split
    · split
      · exact goesOn.killModule data
      · exact goesOn.finish
    · exact goesOn.startModule data.request

theorem continueWith (after : AfterWrite) : Told (controller.continueWith data after) := by
  cases after with
  | added request =>
    rw [StoryControllerImpl.continueWith]
    split
    · exact goesOn.startModule request
    · exact goesOn.finish
  | launch request => exact goesOn.launchModule data request
  | kill => exact goesOn.killModule data

end

theorem onRead {purpose : ReadPurpose} {rows : List ModuleData}
    (isStep : controller.onRead purpose rows = some next) : Told next := by
  unfold StoryControllerImpl.onRead at isStep
  split at isStep
  case h_1 request parent others =>
    cases isStep
    exact goesOn.cont1 request parent.linkPath
  case h_2 data request =>
    split at isStep
    · cases isStep
      exact goesOn.launchModule data request
    · cases isStep
      exact goesOn.blockingWrite data (.launch request)
  case h_3 modulePath data others =>
    split at isStep
    · cases isStep
      exact goesOn.killModule data
    · cases isStep
      exact goesOn.blockingWrite _ .kill
  case h_4 =>
    cases isStep
    exact nextRequest ⟨goesOn.isFront, goesOn.noneBlocked⟩
  case h_5 => cases isStep

end GoesOn

theorem Waits.mono (waits : Waits controller) (sameStage : next.stage = controller.stage)
    (sameBlocked : next.blockedOperations = controller.blockedOperations)
    (more : ∀ data ∈ controller.blockedOperations, data ∈ controller.notifications →
      data ∈ next.notifications) : Waits next := by
  have isLater {data : ModuleData} (isBlocked : controller.blockedOperations = [data])
      (isTold : data ∈ controller.notifications) : data ∈ next.notifications := by
    apply more data _ isTold
    rw [isBlocked]
    exact mem_singleton_self data
  rw [Waits, sameStage, sameBlocked]
  rw [Waits] at waits
  split at waits
  case h_1 => exact waits
  case h_2 =>
    apply waits.imp_right
    intro isWaiting
    exact ⟨isWaiting.1, isLater isWaiting.1 isWaiting.2⟩
  case h_3 => exact ⟨waits.1, isLater waits.1 waits.2⟩
  case h_4 => exact waits

namespace Told

section

variable (told : Told controller)
include told

theorem isFront (notPosted : controller.stage ≠ .posted) : controller.operations ≠ [] :=
  fun isEmpty => notPosted (told.begun isEmpty)

/-- Where the operation at the front does not write, none is blocked. -/
theorem goesOn {stage : ModuleOperationStage}
    (isStage : controller.stage = stage) (notPosted : stage ≠ .posted)
    (noneWaits : Waits { controller with stage } → controller.blockedOperations = []) :
    GoesOn controller where
  isFront := told.isFront (isStage ▸ notPosted)
  noneBlocked := noneWaits (told.waits.mono isStage.symm rfl fun _ _ => id)

/-- Other notifications than those that are waited for change nothing. -/
theorem mono (sameStage : next.stage = controller.stage)
    (sameOperations : next.operations = controller.operations)
    (sameBlocked : next.blockedOperations = controller.blockedOperations)
    (more : ∀ data ∈ controller.notifications, data ∈ next.notifications) : Told next := by
  constructor
  · intro isEmpty
    rw [sameStage]
    exact told.begun (sameOperations.symm.trans isEmpty)
  · exact told.waits.mono sameStage sameBlocked fun data _ => more data

theorem put (data : ModuleData) : Told (controller.put data) :=
  told.mono (stage_put controller data) (operations_put controller data)
    (blockedOperations_put controller data) fun _ => mem_notifications_put controller data

theorem run (isStep : controller.run = some next) : Told next := by
  rw [StoryControllerImpl.run] at isStep
  have goesOn {operation : ModuleOperation} {rest : List ModuleOperation}
      (isFront : controller.operations = operation :: rest)
      (isPosted : controller.stage = .posted) : GoesOn controller := by
    have waits := told.waits
    rw [Waits, isPosted] at waits
    exact ⟨fun isEmpty => cons_ne_nil _ _ (isFront.symm.trans isEmpty), waits⟩
  split at isStep
  case h_1 isFront isPosted =>
    cases isStep
    exact (goesOn isFront isPosted).blockingWrite _ _
  case h_2 request rest isFront isPosted =>
    cases isStep
    exact (goesOn isFront isPosted).startModule request
  case h_4 data rest isFront isPosted =>
    cases isStep
    exact (goesOn isFront isPosted).ledgerNotification data
  case h_5 rest isFront isPosted =>
    split at isStep
    · cases isStep
      exact (goesOn isFront isPosted).finish
    · cases isStep
      exact (goesOn isFront isPosted).told rfl (goesOn isFront isPosted).noneBlocked
  case h_8 => cases isStep
  all_goals
    rename_i isFront isPosted
    cases isStep
    exact (goesOn isFront isPosted).told rfl (goesOn isFront isPosted).noneBlocked

theorem page {isOk : Bool} (isTold : controller.WriteIsTold (.page isOk))
    (isStep : controller.page isOk = some next) : Told next := by
  rw [StoryControllerImpl.page] at isStep
  split at isStep
  case h_1 purpose isReading =>
    cases isStep
    have goesOn := told.goesOn isReading nofun id
    exact goesOn.told rfl goesOn.noneBlocked
  case h_2 data after isWriting =>
    cases isStep
    have isFront := told.isFront (by rw [isWriting]; nofun)
    have waits := told.waits
    rw [Waits, isWriting] at waits
    rw [WriteIsTold, isWriting] at isTold
    have isNotified (isBlocked : controller.blockedOperations = [data]) :
        data ∈ (if isOk then controller.put data else controller).notifications := by
      cases isOk with
      | true =>
        apply isTold.elim
        · intro isChanged
          exact mem_notifications_put_self controller data isChanged.2
        · intro isTold
          apply mem_notifications_put
          apply isTold.resolve_right
          intro isFree
          exact isFree (isBlocked ▸ mem_singleton_self data)
      | false =>
        apply (isTold.resolve_left fun isChanged => Bool.noConfusion isChanged.1).resolve_right
        intro isFree
        exact isFree (isBlocked ▸ mem_singleton_self data)
    have sameOperations :
        (if isOk then controller.put data else controller).operations = controller.operations := by
      split
      · exact operations_put controller data
      · rfl
    have sameBlocked : (if isOk then controller.put data else controller).blockedOperations =
        controller.blockedOperations := by
      split
      · exact blockedOperations_put controller data
      · rfl
    constructor
    · intro isEmpty
      exact absurd (sameOperations.symm.trans isEmpty) isFront
    · apply waits.imp
      · exact sameBlocked.trans
      · intro isBlocked
        exact ⟨sameBlocked.trans isBlocked, isNotified isBlocked⟩
  case h_3 => cases isStep

end

/-- Where the write is answered and the page has told of it, the operation goes on. -/
theorem reply (told : Told controller) (isStep : controller.reply = some next) : Told next := by
  rw [StoryControllerImpl.reply] at isStep
  split at isStep
  case h_1 purpose rows isRead => exact (told.goesOn isRead nofun id).onRead isStep
  case h_2 data after isWritten =>
    have waits := told.waits
    rw [Waits, isWritten] at waits
    have isFront := told.isFront (by rw [isWritten]; nofun)
    split at isStep
    case isTrue isBlocked =>
      cases isStep
      have isWaiting := waits.resolve_left fun isFree => ne_nil_of_mem isBlocked isFree
      exact ⟨fun isEmpty => absurd isEmpty isFront, isWaiting⟩
    case isFalse notBlocked =>
      cases isStep
      have isFree : controller.blockedOperations = [] := by
        apply waits.resolve_right
        intro isWaiting
        exact notBlocked (isWaiting.1 ▸ mem_singleton_self data)
      exact GoesOn.continueWith ⟨isFront, isFree⟩ data after
  case h_3 data isDefocusing =>
    cases isStep
    exact (told.goesOn isDefocusing nofun id).killCont data
  case h_4 isRunning =>
    cases isStep
    exact (told.goesOn isRunning nofun id).finish
  case h_5 => cases isStep

variable (told : Told controller)
include told

/-- What is blocked is the data that the page tells of, and it is the only one. -/
theorem blocked_of_mem {data : ModuleData}
    (isBlocked : data ∈ controller.blockedOperations) : controller.blockedOperations = [data] := by
  have ofSingle {other : ModuleData} (isSingle : controller.blockedOperations = [other]) :
      controller.blockedOperations = [data] := by
    rw [isSingle] at isBlocked ⊢
    rw [mem_singleton.mp isBlocked]
  have waits := told.waits
  unfold Waits at waits
  split at waits
  case h_1 => exact ofSingle (waits.resolve_left (ne_nil_of_mem isBlocked))
  case h_2 => exact ofSingle (waits.resolve_left (ne_nil_of_mem isBlocked)).1
  case h_3 => exact ofSingle waits.1
  case h_4 => exact absurd waits (ne_nil_of_mem isBlocked)

theorem onPageChange (isStep : controller.onPageChange = some next) : Told next := by
  rw [StoryControllerImpl.onPageChange] at isStep
  split at isStep
  case h_1 => cases isStep
  case h_2 data notifications isFirst =>
    simp only at isStep
    split at isStep
    case isTrue isBlocked =>
      have isSingle := told.blocked_of_mem isBlocked
      have isFree : controller.blockedOperations.erase data = [] := by
        rw [isSingle]
        exact erase_cons_head data []
      have waits := told.waits
      split at isStep
      case h_1 written after isStage =>
        cases isStep
        rw [Waits, isStage] at waits
        have isWritten : written = data := (singleton_inj.mp (waits.1.symm.trans isSingle))
        rw [if_pos isWritten]
        apply GoesOn.continueWith
        exact ⟨told.isFront (by rw [isStage]; nofun), isFree⟩
      case h_2 notWaiting =>
        cases isStep
        refine ⟨told.begun, ?_⟩
        unfold Waits
        split
        case h_1 | h_2 => exact .inl isFree
        case h_3 written after isStage => exact absurd isStage (notWaiting written after)
        case h_4 => exact isFree
    case isFalse notBlocked =>
      cases isStep
      constructor
      · intro isEmpty
        exact absurd isEmpty (append_ne_nil_of_right_ne_nil _ (cons_ne_nil _ _))
      · refine told.waits.mono rfl rfl fun other isBlocked isTold => ?_
        rw [isFirst] at isTold
        apply (mem_cons.mp isTold).resolve_left
        intro isSame
        exact notBlocked (isSame ▸ isBlocked)

theorem tornDown (isStep : controller.tornDown = some next) : Told next := by
  rw [StoryControllerImpl.tornDown] at isStep
  split at isStep
  case h_1 data isStage =>
    cases isStep
    have goesOn := told.goesOn isStage nofun id
    have rest : GoesOn { controller with
        connections := erase controller.connections data.modulePath } :=
      ⟨goesOn.isFront, goesOn.noneBlocked⟩
    exact rest.launch data
  case h_2 _ isStage | h_3 isStage =>
    cases isStep
    have goesOn := told.goesOn isStage nofun id
    exact GoesOn.finish ⟨goesOn.isFront, goesOn.noneBlocked⟩
  case h_4 => cases isStep

theorem step {event : StoryControllerEvent}
    (isTold : controller.WriteIsTold event) (isStep : controller.step event = some next) :
    Told next := by
  cases event with
  | call operation =>
    have isCalled : next =
        { controller with operations := controller.operations ++ [operation] } := by
      cases operation with
      | ledgerNotification => cases isStep
      | _ => exact (Option.some.inj isStep).symm
    subst isCalled
    refine ⟨fun isEmpty => ?_, told.waits⟩
    exact absurd isEmpty (append_ne_nil_of_right_ne_nil _ (cons_ne_nil _ _))
  | run => exact told.run isStep
  | page isOk => exact told.page isTold isStep
  | reply => exact told.reply isStep
  | onPageChange => exact told.onPageChange isStep
  | tornDown => exact told.tornDown isStep
  | remoteChange data =>
    cases isStep
    exact told.put data
  | onRootStateChange isRunning =>
    cases isStep
    exact told.mono rfl rfl rfl fun _ => id

end Told

theorem told_start (modules : List ModuleData) : Told (start modules) :=
  ⟨fun _ => rfl, rfl⟩

theorem Told.idle (told : Told controller) (quiescent : Quiescent controller) :
    Idle controller := by
  have noOperation : controller.operations = [] := by
    by_contra isFront
    obtain ⟨data, after, isBlocked⟩ := quiescent.2 isFront
    have waits := told.waits
    rw [Waits, isBlocked, quiescent.1] at waits
    exact not_mem_nil waits.2
  have waits := told.waits
  rw [Waits, told.begun noOperation] at waits
  exact ⟨waits, noOperation⟩

end StoryControllerImpl

open StoryControllerImpl

theorem told_run {modules : List ModuleData} {events : List StoryControllerEvent}
    {final : StoryControllerImpl} (allowed : EachStep step WriteIsTold (.start modules) events)
    (isRun : runSteps step (.start modules) events = some final) : Told final :=
  invariant_runSteps Told (fun told isTold isStep => told.step isTold isStep) (told_start modules)
    allowed isRun

/-- When nothing is pending, no operation is blocked and the queue is idle, if each blocking write
is told of. -/
theorem idle_run (modules : List ModuleData) (events : List StoryControllerEvent)
    (final : StoryControllerImpl) (allowed : EachStep step WriteIsTold (.start modules) events)
    (isRun : runSteps step (.start modules) events = some final) (quiescent : Quiescent final) :
    Idle final :=
  (told_run allowed isRun).idle quiescent

/-- A module is added, and stopped after that. -/
theorem idle_run_sample : ∃ final, runSteps step (.start [])
    [.call (.addModule [] [97] [1] [2] none), .run, .page true, .onPageChange, .reply,
      .call (.stopModule [[97]]), .run, .page true, .reply, .page true, .reply,
      .onPageChange] = some final ∧ Idle final := by
  refine ⟨_, rfl, ?_⟩
  apply idle_run [] [.call (.addModule [] [97] [1] [2] none), .run, .page true, .onPageChange,
    .reply, .call (.stopModule [[97]]), .run, .page true, .reply, .page true, .reply, .onPageChange]
  · decide +kernel
  · rfl
  · exact ⟨rfl, absurd rfl⟩

/-- A module is added twice with the same arguments. The second write changes nothing, and the
operation is blocked for good. -/
theorem not_idle_run : ∃ final, runSteps step (.start [])
      [.call (.addModule [] [97] [1] [2] none), .run, .page true, .onPageChange, .reply,
        .call (.addModule [] [97] [1] [2] none), .run, .page true, .reply] = some final ∧
    Quiescent final ∧ ¬Idle final :=
  ⟨_, rfl, ⟨rfl, fun _ => ⟨_, _, rfl⟩⟩, fun idle => cons_ne_nil _ _ idle.noOperation⟩

end Peridot
