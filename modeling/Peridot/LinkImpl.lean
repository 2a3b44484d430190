import Peridot.LinkChange
import Peridot.OrderedStore
import Peridot.StepRun

/-!
# Links

`LinkImpl` with its operations, which run one after the other, on the page of its story.  The
calls to the page are answered later, and so are the changes delivered that the page has got in
the meantime.
-/

namespace Peridot

abbrev StoryPage : Type := OrderedStore UInt8 LinkChange

/-- The `data` of an `IncrementalChangeCall`: without a key if a client asks for the change. -/
inductive LinkChangeData where
  | request (edit : LinkEdit)
  | stored (change : LinkChange)

inductive LinkStage where
  /-- No operation runs. -/
  | idle
  /-- `ReadAllDataCall` gets a snapshot of the page. -/
  | reload
  /-- `ReadAllDataCall` gets the entries of its snapshot. -/
  | reading (changes : List LinkChange)
  /-- `WriteDataCall` puts a change, and a `ReloadCall` may come after it. -/
  | writing (change : LinkChange) (reload : Bool)
  /-- The change is in the page, and the answer to `Put` is on its way. -/
  | written (reload : Bool)
deriving DecidableEq

/-- `LinkImpl`.  `operationQueue` are the operations after the one that runs, `untold` the changes
of the page that its watcher has not been told of, and `applied` records the arguments of
`ApplyChange`. -/
structure LinkImpl (json : Rapidjson) where
  linkPath : LinkPath
  initialData : Option Bytes
  doc : json.Value
  pendingOps : List LinkChange
  latestKey : Bytes
  keyGenerator : KeyGenerator
  operationQueue : List LinkChangeData
  stage : LinkStage
  untold : List LinkChange
  applied : List LinkChange

inductive LinkEvent where
  /-- A client calls `Set`, `UpdateObject` or `Erase`. -/
  | request (edit : LinkEdit)
  /-- The watcher is told of a change. -/
  | onPageChange (index : ℕ)
  /-- The next `IncrementalChangeCall` runs.  `Create` may ask for the time and a random number. -/
  | run (milliseconds randomNumber : UInt64)
  | getSnapshot
  | getEntries (milliseconds randomNumber : UInt64)
  /-- The page commits the change that is written. -/
  | commitPut
  | answerPut

namespace LinkImpl

variable {json : Rapidjson}

/-- `LinkImpl::LinkImpl`: the watcher is registered and a `ReloadCall` runs. -/
def new (json : Rapidjson) (linkPath : LinkPath) (initialData : Option Bytes) : LinkImpl json where
  linkPath := linkPath
  initialData := initialData
  doc := json.null
  pendingOps := []
  latestKey := []
  keyGenerator := ⟨0, 0⟩
  operationQueue := []
  stage := .reload
  untold := []
  applied := []

def replay (link : LinkImpl json) (changes : List LinkChange) : LinkImpl json :=
  let order := replayOrder changes link.pendingOps
  { link with
    doc := json.applyChanges order
    latestKey := (order.getLast?.map LinkChange.key).getD link.latestKey
    applied := link.applied ++ order }

def applyLatest (link : LinkImpl json) (change : LinkChange) : LinkImpl json :=
  { link with
    doc := (json.applyChange link.doc change).1
    latestKey := change.key
    applied := link.applied ++ [change] }

/-- A change that a client asks for, with its text and the key that is created for it. -/
def newChange (link : LinkImpl json) (edit : LinkEdit) (text : Option Bytes)
    (milliseconds randomNumber : UInt64) : LinkChange where
  op := edit.op
  pointer := edit.pointer
  json := text
  key := (link.keyGenerator.create milliseconds randomNumber).1
  origin := link.linkPath

def push (link : LinkImpl json) (change : LinkChange) (milliseconds randomNumber : UInt64) :
    LinkImpl json :=
  { link with
    keyGenerator := (link.keyGenerator.create milliseconds randomNumber).2
    pendingOps := link.pendingOps ++ [change] }

def runRequest (link : LinkImpl json) (edit : LinkEdit) (milliseconds randomNumber : UInt64) :
    LinkImpl json :=
  match json.normalizeJson edit.json with
  | none => { link with stage := .idle }
  | some text =>
    let change := link.newChange edit text milliseconds randomNumber
    let pushed := link.push change milliseconds randomNumber
    if change.key < link.latestKey then { pushed with stage := .writing change true }
    else { pushed.applyLatest change with stage := .writing change false }

def runStored (link : LinkImpl json) (change : LinkChange) : LinkImpl json :=
  if link.pendingOps.head?.map LinkChange.key = some change.key then
    { link with
      pendingOps := link.pendingOps.tail
      stage := .idle }
  else if change.key < link.latestKey then { link with stage := .reload }
  else { link.applyLatest change with stage := .idle }

def runChange (link : LinkImpl json) (data : LinkChangeData)
    (milliseconds randomNumber : UInt64) : LinkImpl json :=
  match data with
  | .request edit => link.runRequest edit milliseconds randomNumber
  | .stored change => link.runStored change

def dataToSet (link : LinkImpl json) : Option Bytes :=
  link.initialData.filter fun initialData => initialData ≠ []

/-- The callback of the `ReadAllDataCall` in `ReloadCall::Run`. -/
def onEntries (link : LinkImpl json) (changes : List LinkChange)
    (milliseconds randomNumber : UInt64) : LinkImpl json :=
  if changes = [] then
    match link.dataToSet with
    | none => { link with stage := .idle }
    | some initialData =>
      { link with initialData := none }.runRequest ⟨.set, [], some initialData⟩
        milliseconds randomNumber
  else { link.replay changes with stage := .idle }

def step (page : StoryPage) (link : LinkImpl json) :
    LinkEvent → Option (LinkImpl json × Option (Bytes × LinkChange))
  | .request edit =>
    some ({ link with operationQueue := link.operationQueue ++ [.request edit] }, none)
  | .onPageChange index =>
    (link.untold[index]?).map fun change =>
      ({ link with
          untold := link.untold.eraseIdx index
          operationQueue := link.operationQueue ++ [.stored change] }, none)
  | .run milliseconds randomNumber =>
    match link.stage, link.operationQueue with
    | .idle, data :: operationQueue =>
      some ({ link with operationQueue }.runChange data
        milliseconds randomNumber, none)
    | _, _ => none
  | .getSnapshot =>
    match link.stage with
    | .reload =>
      some ({ link with
        stage := .reading ((page.scan (makeLinkKey link.linkPath)).map Prod.snd) }, none)
    | _ => none
  | .getEntries milliseconds randomNumber =>
    match link.stage with
    | .reading changes => some (link.onEntries changes milliseconds randomNumber, none)
    | _ => none
  | .commitPut =>
    match link.stage with
    | .writing change reload =>
      some ({ link with stage := .written reload },
        some (makeSequencedLinkKey link.linkPath change.key, change))
    | _ => none
  | .answerPut =>
    match link.stage with
    | .written reload => some ({ link with stage := if reload then .reload else .idle }, none)
    | _ => none

/-- The watcher of a link is told of a row if its key starts with the key of the link. -/
def watch (link : LinkImpl json) (row : Bytes × LinkChange) : LinkImpl json :=
  if makeLinkKey link.linkPath <+: row.1 then
    { link with untold := link.untold ++ [row.2] }
  else link

@[simp]
theorem linkPath_watch (link : LinkImpl json) (row : Bytes × LinkChange) :
    (link.watch row).linkPath = link.linkPath := by
  unfold watch
  split <;> rfl

end LinkImpl

end Peridot
