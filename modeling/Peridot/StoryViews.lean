import Peridot.StepRun
import Peridot.StoryModules

/-!
# The views of a story

The story shell is told of a view when that of its anchor is known to it; until then the view is
pending.  The operations of `StoryControllerImpl` run one after the other, and each is one step.
-/

namespace Peridot

open List Registry Connections Option

structure StartRequest where
  parentPath : List Bytes
  name : Bytes
  moduleUrl : Bytes
  linkPath : LinkPath
  surfaceRelation : Option SurfaceRelation
  incomingServices : Bool
  embedModuleWatcher : Bool

def StartRequest.modulePath (request : StartRequest) : List Bytes :=
  request.parentPath ++ [request.name]

/-- What `StoryControllerImpl` keeps of modules and views; the pending views are in the order of
their ids. `shellViews` are the ids that the current story shell was told, `shownModules` those
modules whose view was connected to it and that were not stopped since, `viewPaths` the modules that
got a view id. `unknownAnchor` is set when the shell is told of a view with an anchor that it was
not told of. -/
structure StoryViews where
  connections : Connections
  isRunning : Bool
  storyShell : Bool
  connectedViews : List Bytes
  pendingViews : List (Bytes × List Bytes)
  shellViews : List Bytes
  shownModules : List (List Bytes)
  viewPaths : List (List Bytes)
  unknownAnchor : Bool
deriving DecidableEq

/-- The operations, and the changes of the state of the root module. `startModule` are those that
start a module outside of the shell, `start` has the modules that the story starts with. -/
inductive StoryViewsEvent where
  | startModuleInShell (request : StartRequest)
  | startModule (request : StartRequest)
  | stopModule (modulePath : List Bytes)
  | start (requests : List StartRequest)
  | stop
  | onRootStateChange (isRunning : Bool)

namespace StoryViews

def initial : StoryViews :=
  ⟨[], false, false, [], [], [], [], [], false⟩

/-- `StoryShell.ConnectView`, and the id is kept. -/
def connectView (views : StoryViews) (modulePath : List Bytes) (anchorViewId : Bytes) :
    StoryViews :=
  { views with
    connectedViews := views.connectedViews.insert (pathString modulePath)
    shellViews := pathString modulePath :: views.shellViews
    shownModules := modulePath :: views.shownModules
    unknownAnchor := views.unknownAnchor ||
      (anchorViewId ≠ [] && anchorViewId ∉ views.shellViews) }

def connectedAnchor (views : StoryViews) (modulePath : List Bytes) : Option (List Bytes) :=
  (views.connections.findAnchor modulePath).filter fun anchor =>
    pathString anchor ∈ views.connectedViews

/-- The loop of `ProcessPendingViews`, with the keys that it adds. -/
def connectPending : List (Bytes × List Bytes) → StoryViews → StoryViews × List Bytes
  | [], views => (views, [])
  | (key, modulePath) :: pending, views =>
    match views.connectedAnchor modulePath with
    | none => connectPending pending views
    | some anchor =>
      let rest := connectPending pending (views.connectView modulePath (pathString anchor))
      (rest.1, key :: rest.2)

/-- `ProcessPendingViews`, for a number of calls. -/
def processPendingViews : ℕ → StoryViews → StoryViews
  | 0, views => views
  | calls + 1, views =>
    if views.storyShell then
      match connectPending views.pendingViews views with
      | (next, []) => next
      | (next, addedKeys) =>
        processPendingViews calls { next with
          pendingViews := addedKeys.foldl Registry.erase next.pendingViews }
    else views

/-- `StartModuleInShellCall::ConnectView`. Each call of `ProcessPendingViews` but the last one
removes a pending view. -/
def connectAndProcess (views : StoryViews) (modulePath : List Bytes) (anchorViewId : Bytes) :
    StoryViews :=
  processPendingViews (views.pendingViews.length + 1) (views.connectView modulePath anchorViewId)

def addPending (views : StoryViews) (modulePath : List Bytes) : StoryViews :=
  if (Registry.find views.pendingViews (pathString modulePath)).isSome then views
  else { views with
    pendingViews := views.pendingViews.orderedInsert (fun first second => ¬second.1 < first.1)
      (pathString modulePath, modulePath) }

/-- `StartModuleInShellCall::Cont`. -/
def showModule (views : StoryViews) (modulePath : List Bytes) : StoryViews :=
  if views.storyShell then
    let views := { views with viewPaths := modulePath :: views.viewPaths }
    if modulePath.length = 1 then views.connectAndProcess modulePath []
    else
      match views.connectedAnchor modulePath with
      | some anchor => views.connectAndProcess modulePath (pathString anchor)
      | none => views.addPending modulePath
  else views

def releaseModule (views : StoryViews) (modulePath : List Bytes) : StoryViews :=
  { views with
    connections := Registry.erase views.connections modulePath
    pendingViews := Registry.erase views.pendingViews (pathString modulePath)
    shownModules := views.shownModules.filter fun shown => shown ≠ modulePath }

def launch (views : StoryViews) (request : StartRequest) : StoryViews :=
  { views with
    connections := views.connections ++
      [(request.modulePath, ⟨request.moduleUrl, request.linkPath, request.surfaceRelation⟩)] }

/-- `LaunchModuleCall::Run`. -/
def launchModule (views : StoryViews) (request : StartRequest) : StoryViews :=
  match Registry.find views.connections request.modulePath with
  | none => views.launch request
  | some connection =>
    if connection.moduleUrl ≠ request.moduleUrl ∨ connection.linkPath ≠ request.linkPath ∨
        request.embedModuleWatcher ∨ request.incomingServices then
      (views.releaseModule request.modulePath).launch request
    else views

/-- `StartModuleInShellCall`. -/
def startModuleInShell (views : StoryViews) (request : StartRequest) : StoryViews :=
  (views.launchModule { request with embedModuleWatcher := false }).showModule request.modulePath

/-- `StartModule` and `EmbedModule`, which give no surface relation. -/
def startModule (views : StoryViews) (request : StartRequest) : StoryViews :=
  views.launchModule { request with surfaceRelation := none }

/-- `KillModuleCall`. -/
def stopModule (views : StoryViews) (modulePath : List Bytes) : StoryViews :=
  if (Registry.find views.connections modulePath).isSome then views.releaseModule modulePath
  else views

/-- `StartCall`; the story shell is a new one. -/
def start (views : StoryViews) (requests : List StartRequest) : StoryViews :=
  if views.isRunning then views
  else requests.foldl startModuleInShell
    { views with isRunning := true, storyShell := true, shellViews := [], shownModules := [] }

/-- `StopCall`. -/
def stop (views : StoryViews) : StoryViews :=
  { (views.connections.map Prod.fst).foldl releaseModule views with
    connections := []
    isRunning := false
    storyShell := false
    shellViews := []
    shownModules := [] }

def step (views : StoryViews) : StoryViewsEvent → Option StoryViews
  | .startModuleInShell request => some (views.startModuleInShell request)
  | .startModule request => some (views.startModule request)
  | .stopModule modulePath => some (views.stopModule modulePath)
  | .start requests => some (views.start requests)
  | .stop => some views.stop
  | .onRootStateChange isRunning => some { views with isRunning }

end StoryViews

/-- Modules have different view ids, the story shell was told of each anchor, and no view is pending
whose anchor runs with its view connected. -/
structure ViewsInOrder (views : StoryViews) : Prop where
  distinctIds : ∀ first ∈ views.viewPaths, ∀ second ∈ views.viewPaths,
    pathString first = pathString second → first = second
  knownAnchors : views.unknownAnchor = false
  noneLeft : ∀ entry ∈ views.pendingViews,
    ∀ anchor ∈ views.connections.findAnchor entry.2, anchor ∉ views.shownModules

namespace StoryViews

/-- The view of a module was not connected to an earlier shell only. -/
def Known (views : StoryViews) (modulePath : List Bytes) : Prop :=
  views.storyShell = true → pathString modulePath ∈ views.connectedViews →
    pathString modulePath ∈ views.shellViews
deriving Decidable

/-- The names of a module have no separator, and if its view was connected to an earlier shell only,
then it is connected at once. -/
def StartsInOrder (views : StoryViews) (request : StartRequest) : Prop :=
  let launched := views.launchModule { request with embedModuleWatcher := false }
  PlainPath request.modulePath ∧ (launched.Known request.modulePath ∨
    request.modulePath.length = 1 ∨
      ∃ anchor ∈ launched.connectedAnchor request.modulePath, launched.Known anchor)
deriving Decidable

def newShell (views : StoryViews) : StoryViews :=
  { views with isRunning := true, storyShell := true, shellViews := [], shownModules := [] }

/-- Modules start in order, a story shell starts where no module runs whose view was connected, and
no module starts outside of the shell above a pending view. -/
def KeepsOrder (views : StoryViews) : StoryViewsEvent → Prop
  | .startModuleInShell request => views.StartsInOrder request
  | .startModule request => views.Known request.modulePath ∧
    ∀ entry ∈ views.pendingViews, request.modulePath <+: entry.2 → entry.2 = request.modulePath
  | .start requests => views.isRunning = false →
      (∀ entry ∈ views.connections, pathString entry.1 ∉ views.connectedViews) ∧
        EachStep (fun views request => some (views.startModuleInShell request)) StartsInOrder
          views.newShell requests
  | _ => True

instance decidableKeepsOrder (views : StoryViews) : ∀ event, Decidable (views.KeepsOrder event)
  | .startModuleInShell request => inferInstanceAs (Decidable (views.StartsInOrder request))
  | .startModule request => inferInstanceAs (Decidable (_ ∧ ∀ entry ∈ views.pendingViews,
      request.modulePath <+: entry.2 → entry.2 = request.modulePath))
  | .start requests => inferInstanceAs (Decidable (_ → (∀ entry ∈ views.connections,
      pathString entry.1 ∉ views.connectedViews) ∧ EachStep _ StartsInOrder _ requests))
  | .stopModule _ | .stop | .onRootStateChange _ => .isTrue trivial

/-- The invariant, but for the pending views that could be connected, and for one module. -/
structure ArrangedBut (exception : Option (List Bytes)) (views : StoryViews) : Prop where
  pendingOwn : ∀ entry ∈ views.pendingViews, entry.1 = pathString entry.2 ∧
    (Registry.find views.connections entry.2).isSome
  shownRun : ∀ shown ∈ views.shownModules, (Registry.find views.connections shown).isSome
  shownConnected : ∀ shown ∈ views.shownModules, pathString shown ∈ views.connectedViews
  told : ∀ path, (Registry.find views.connections path).isSome → exception ≠ some path →
    views.Known path
  notShown : views.storyShell = false → views.shownModules = []
  plainPaths : ∀ path ∈ views.viewPaths, PlainPath path
  knownAnchors : views.unknownAnchor = false

abbrev Arranged :=
  ArrangedBut none

/-- No pending view has an anchor that is shown, unless it is that of one module. -/
def SettledBut (views : StoryViews) (exception : Option (List Bytes)) : Prop :=
  ∀ entry ∈ views.pendingViews, ∀ anchor ∈ views.connections.findAnchor entry.2,
    anchor ∈ views.shownModules → exception = some anchor

def Settled (views : StoryViews) : Prop :=
  views.SettledBut none

variable {views next : StoryViews} {modulePath anchor : List Bytes} {request : StartRequest}

theorem settled_of_notShown (notShown : views.shownModules = []) : views.Settled := by
  intro entry _ anchor _ isShown
  rw [notShown] at isShown
  cases isShown

theorem connectedAnchor_eq_none (isNone : views.connectedAnchor modulePath = none)
    (isAnchor : views.connections.findAnchor modulePath = some anchor) :
    pathString anchor ∉ views.connectedViews := by
  rw [connectedAnchor, isAnchor, filter_some] at isNone
  intro isConnected
  rw [if_pos (decide_eq_true isConnected)] at isNone
  cases isNone

theorem mem_of_connectedAnchor (isConnected : views.connectedAnchor modulePath = some anchor) :
    pathString anchor ∈ views.connectedViews :=
  of_decide_eq_true (filter_eq_some_iff.mp isConnected).2

theorem isSome_of_connectedAnchor (isConnected : views.connectedAnchor modulePath = some anchor) :
    (find views.connections anchor).isSome := by
  obtain ⟨-, isAnchor⟩ := ite_none_right_eq_some.mp (filter_eq_some_iff.mp isConnected).1
  exact isSome_of_anchorAbove isAnchor

variable {pending : List (Bytes × List Bytes)} {entry : Bytes × List Bytes} {anchorViewId key : Bytes}
    {path : List Bytes} {exception : Option (List Bytes)}

namespace ArrangedBut

theorem full (arranged : ArrangedBut (some modulePath) views) (isKnown : views.Known modulePath) :
    Arranged views where
  __ := arranged
  told path isRunning _ := by
    by_cases same : path = modulePath
    · exact same ▸ isKnown
    · exact arranged.told path isRunning fun isPath => same (some.inj isPath).symm

theorem connectView (arranged : ArrangedBut exception views)
    (isException : ∀ path ∈ exception, path = modulePath) (hasShell : views.storyShell = true)
    (isRunning : (find views.connections modulePath).isSome)
    (isKnown : anchorViewId = [] ∨ anchorViewId ∈ views.shellViews) :
    Arranged (views.connectView modulePath anchorViewId) where
  __ := arranged
  shownRun shown isShown := by
    rcases mem_cons.mp isShown with rfl | wasShown
    · exact isRunning
    · exact arranged.shownRun shown wasShown
  shownConnected shown isShown := by
    rcases mem_cons.mp isShown with rfl | wasShown
    · exact mem_insert_self
    · exact mem_insert_of_mem (arranged.shownConnected shown wasShown)
  told path isRunning _ _ isConnected := by
    by_cases same : path = modulePath
    · exact same ▸ mem_cons_self
    · rcases mem_insert_iff.mp isConnected with sameId | wasConnected
      · exact sameId ▸ mem_cons_self
      · exact mem_cons_of_mem _ (arranged.told path isRunning
          (fun isPath => same (isException path isPath)) hasShell wasConnected)
  notShown noShell := by
    rw [StoryViews.connectView, hasShell] at noShell
    cases noShell
  knownAnchors := by
    rw [StoryViews.connectView, arranged.knownAnchors]
    rcases isKnown with isEmpty | isConnected
    · simp [isEmpty]
    · simp [isConnected]

theorem connectPending (arranged : Arranged views) (hasShell : views.storyShell = true)
    (areRunning : ∀ entry ∈ pending, (find views.connections entry.2).isSome) :
    Arranged (StoryViews.connectPending pending views).1 := by
  induction pending generalizing views with
  | nil => exact arranged
  | cons entry pending ih =>
    obtain ⟨key, modulePath⟩ := entry
    have rest : ∀ entry ∈ pending, (find views.connections entry.2).isSome :=
      fun entry isEntry => areRunning entry (mem_cons_of_mem _ isEntry)
    rw [StoryViews.connectPending]
    cases isConnected : views.connectedAnchor modulePath with
    | none => exact ih arranged hasShell rest
    | some anchor =>
      have isKnown := arranged.told anchor (isSome_of_connectedAnchor isConnected) (by simp)
        hasShell (mem_of_connectedAnchor isConnected)
      have connected := arranged.connectView (by simp) hasShell (areRunning _ (mem_cons_self ..))
        (.inr isKnown)
      exact ih connected hasShell rest

end ArrangedBut

structure SameModules (views next : StoryViews) : Prop where
  connections : next.connections = views.connections
  pendingViews : next.pendingViews = views.pendingViews
  storyShell : next.storyShell = views.storyShell

theorem sameModules_connectPending (pending : List (Bytes × List Bytes)) (views : StoryViews) :
    SameModules views (connectPending pending views).1 := by
  induction pending generalizing views with
  | nil => exact ⟨rfl, rfl, rfl⟩
  | cons entry pending ih =>
    rw [connectPending]
    cases views.connectedAnchor entry.2 with
    | none => exact ih views
    | some anchor =>
      have same := ih (views.connectView entry.2 (pathString anchor))
      exact ⟨same.connections, same.pendingViews, same.storyShell⟩

theorem mem_connectPending (isAdded : key ∈ (connectPending pending views).2) :
    key ∈ pending.map Prod.fst := by
  induction pending generalizing views with
  | nil => cases isAdded
  | cons entry pending ih =>
    rw [connectPending] at isAdded
    cases isConnected : views.connectedAnchor entry.2 with
    | none =>
      rw [isConnected] at isAdded
      exact mem_cons_of_mem _ (ih isAdded)
    | some anchor =>
      rw [isConnected] at isAdded
      rcases mem_cons.mp isAdded with rfl | isRest
      · exact mem_cons_self ..
      · exact mem_cons_of_mem _ (ih isRest)

theorem connectPending_nil (isPass : connectPending pending views = (next, [])) :
    next = views ∧ ∀ entry ∈ pending, views.connectedAnchor entry.2 = none := by
  induction pending with
  | nil => exact ⟨(Prod.mk.inj isPass).1.symm, nofun⟩
  | cons entry pending ih =>
    rw [connectPending] at isPass
    cases isConnected : views.connectedAnchor entry.2 with
    | none =>
      rw [isConnected] at isPass
      obtain ⟨same, others⟩ := ih isPass
      exact ⟨same, forall_mem_cons.mpr ⟨isConnected, others⟩⟩
    | some anchor =>
      rw [isConnected] at isPass
      cases (Prod.mk.inj isPass).2

theorem mem_foldl_erase {keys : List Bytes} (isLeft : entry ∈ keys.foldl erase pending) :
    entry ∈ pending ∧ entry.1 ∉ keys := by
  induction keys generalizing pending with
  | nil => exact ⟨isLeft, not_mem_nil⟩
  | cons key keys ih =>
    obtain ⟨inErased, notKey⟩ := ih isLeft
    obtain ⟨inPending, isOther⟩ := mem_filter.mp inErased
    refine ⟨inPending, fun isKey => ?_⟩
    rcases mem_cons.mp isKey with same | isRest
    · exact of_decide_eq_true isOther same
    · exact notKey isRest

theorem length_foldl_erase_le (keys : List Bytes) (pending : List (Bytes × List Bytes)) :
    (keys.foldl erase pending).length ≤ pending.length := by
  induction keys generalizing pending with
  | nil => exact le_rfl
  | cons key keys ih => exact (ih _).trans (length_filter_le _ _)

theorem length_foldl_erase_lt (keys : List Bytes) (isKey : key ∈ pending.map Prod.fst) :
    ((key :: keys).foldl erase pending).length < pending.length := by
  apply (length_foldl_erase_le keys _).trans_lt
  obtain ⟨entry, isEntry, rfl⟩ := mem_map.mp isKey
  apply length_filter_lt_length_iff_exists.mpr
  exact ⟨entry, isEntry, by simp⟩

theorem find_of_find_erase {connections : Connections} {other : List Bytes}
    {connection : Connection} (found : find (erase connections other) path = some connection) :
    find connections path = some connection := by
  by_cases same : path = other
  · rw [same, find_erase] at found
    cases found
  · rwa [find_erase_of_ne _ same] at found

namespace ArrangedBut

theorem processPendingViews (arranged : Arranged views) {calls : ℕ}
    (enough : views.pendingViews.length < calls) :
    Arranged (StoryViews.processPendingViews calls views) ∧
      Settled (StoryViews.processPendingViews calls views) := by
  induction calls generalizing views with
  | zero => exact absurd enough (Nat.not_lt_zero _)
  | succ calls ih =>
    rw [StoryViews.processPendingViews]
    split
    case isFalse noShell =>
      exact ⟨arranged, settled_of_notShown (arranged.notShown (Bool.not_eq_true _ ▸ noShell))⟩
    case isTrue hasShell =>
      have passed := arranged.connectPending hasShell fun entry isEntry =>
        (arranged.pendingOwn entry isEntry).2
      have same := sameModules_connectPending views.pendingViews views
      split
      case h_1 next isPass =>
        obtain ⟨rfl, noneConnected⟩ := connectPending_nil isPass
        refine ⟨arranged, fun entry isEntry anchor isAnchor isShown => ?_⟩
        exact absurd (arranged.shownConnected anchor isShown)
          (connectedAnchor_eq_none (noneConnected entry isEntry) isAnchor)
      case h_2 next addedKeys notNil isPass =>
        rw [isPass] at passed same
        cases addedKeys with
        | nil => exact absurd rfl notNil
        | cons key keys =>
          have isKey : key ∈ views.pendingViews.map Prod.fst := by
            apply mem_connectPending
            rw [isPass]
            exact mem_cons_self ..
          have shorter := length_foldl_erase_lt keys isKey
          have erased : Arranged { next with
              pendingViews := (key :: keys).foldl erase next.pendingViews } :=
            { passed with
              pendingOwn := fun entry isEntry =>
                passed.pendingOwn entry (mem_foldl_erase isEntry).1 }
          apply ih erased
          show ((key :: keys).foldl erase next.pendingViews).length < calls
          rw [same.pendingViews]
          omega

theorem connectAndProcess (arranged : ArrangedBut (some modulePath) views)
    (hasShell : views.storyShell = true) (isRunning : (find views.connections modulePath).isSome)
    (isKnown : anchorViewId = [] ∨ anchorViewId ∈ views.shellViews) :
    Arranged (views.connectAndProcess modulePath anchorViewId) ∧
      Settled (views.connectAndProcess modulePath anchorViewId) :=
  (arranged.connectView (fun _ same => (some.inj same).symm) hasShell isRunning
    isKnown).processPendingViews (Nat.lt_succ_self _)

theorem addPending (arranged : Arranged views) (isRunning : (find views.connections modulePath).isSome) :
    Arranged (views.addPending modulePath) := by
  rw [StoryViews.addPending]
  split
  · exact arranged
  · refine { arranged with pendingOwn := fun entry isEntry => ?_ }
    rcases (mem_orderedInsert _).mp isEntry with rfl | wasPending
    · exact ⟨rfl, isRunning⟩
    · exact arranged.pendingOwn entry wasPending

theorem showModule (arranged : ArrangedBut (some modulePath) views) (plain : PlainPath modulePath)
    (isRunning : (find views.connections modulePath).isSome)
    (known : views.Known modulePath ∨ modulePath.length = 1 ∨
      ∃ anchor ∈ views.connectedAnchor modulePath, views.Known anchor)
    (settledBut : views.SettledBut (views.connections.findAnchor modulePath)) :
    Arranged (views.showModule modulePath) ∧ Settled (views.showModule modulePath) := by
  rw [StoryViews.showModule]
  split
  case isFalse noShell =>
    exact ⟨arranged.full fun hasShell => absurd hasShell noShell,
      settled_of_notShown (arranged.notShown (Bool.not_eq_true _ ▸ noShell))⟩
  case isTrue hasShell =>
    have withPath : ArrangedBut (some modulePath) { views with viewPaths := modulePath :: views.viewPaths } :=
      { arranged with plainPaths := forall_mem_cons.mpr ⟨plain, arranged.plainPaths⟩ }
    simp only
    split
    · exact withPath.connectAndProcess hasShell isRunning (.inl rfl)
    · rename_i notRoot
      split
      case h_1 anchor isConnected =>
        have isKnown : views.Known anchor := by
          rcases known.imp_right (Or.resolve_left · notRoot) with isKnown | ⟨other, isOther, isKnown⟩
          · exact (arranged.full isKnown).told anchor (isSome_of_connectedAnchor isConnected)
              (by simp)
          · cases isOther.symm.trans isConnected
            exact isKnown
        exact withPath.connectAndProcess hasShell isRunning
          (.inr (isKnown hasShell (mem_of_connectedAnchor isConnected)))
      case h_2 isNone =>
        have isNone : views.connectedAnchor modulePath = none := isNone
        have isKnown : views.Known modulePath := by simpa [notRoot, isNone] using known
        refine ⟨(withPath.full isKnown).addPending isRunning, ?_⟩
        -- the exception is not connected, as the view of the module would be connected else
        have settled : ∀ entry : Bytes × List Bytes, entry.2 = modulePath ∨
            entry ∈ views.pendingViews → ∀ anchor ∈ views.connections.findAnchor entry.2,
              anchor ∉ views.shownModules := by
          intro entry isEntry anchor isAnchor isShown
          have isOf : views.connections.findAnchor modulePath = some anchor := by
            rcases isEntry with rfl | isPending
            · exact isAnchor
            · exact settledBut entry isPending anchor isAnchor isShown
          exact connectedAnchor_eq_none isNone isOf (arranged.shownConnected anchor isShown)
        intro entry isEntry anchor isAnchor isShown
        rw [StoryViews.addPending] at isEntry isAnchor isShown
        split at isEntry
        case isTrue isThere =>
          rw [if_pos isThere] at isAnchor isShown
          exact (settled entry (.inr isEntry) anchor isAnchor isShown).elim
        case isFalse notThere =>
          rw [if_neg notThere] at isAnchor isShown
          rcases (mem_orderedInsert _).mp isEntry with rfl | wasPending
          · exact (settled _ (.inl rfl) anchor isAnchor isShown).elim
          · exact (settled entry (.inr wasPending) anchor isAnchor isShown).elim

theorem releaseModule (arranged : Arranged views) (modulePath : List Bytes) :
    Arranged (views.releaseModule modulePath) where
  pendingOwn entry isEntry := by
    obtain ⟨wasPending, isOther⟩ := mem_filter.mp isEntry
    obtain ⟨isOwn, isRunning⟩ := arranged.pendingOwn entry wasPending
    refine ⟨isOwn, ?_⟩
    have different : entry.2 ≠ modulePath := by
      rintro rfl
      exact of_decide_eq_true isOther isOwn
    rw [StoryViews.releaseModule, find_erase_of_ne _ different]
    exact isRunning
  shownRun shown isShown := by
    obtain ⟨wasShown, isOther⟩ := mem_filter.mp isShown
    rw [StoryViews.releaseModule, find_erase_of_ne _ (of_decide_eq_true isOther)]
    exact arranged.shownRun shown wasShown
  shownConnected shown isShown := arranged.shownConnected shown (mem_filter.mp isShown).1
  told path isRunning := by
    obtain ⟨connection, found⟩ := isSome_iff_exists.mp isRunning
    exact arranged.told path (isSome_of_mem (find_of_find_erase found))
  __ := arranged
  notShown noShell := by
    rw [StoryViews.releaseModule, arranged.notShown noShell]
    rfl

end ArrangedBut

theorem Settled.releaseModule (settled : views.Settled) (modulePath : List Bytes) :
    (views.releaseModule modulePath).Settled := by
  intro entry isEntry anchor isAnchor isShown
  apply settled entry (mem_filter.mp isEntry).1 anchor
  · exact findAnchor_mono (fun _ _ => find_of_find_erase) isAnchor
  · exact (mem_filter.mp isShown).1

theorem find_launch (notRunning : find views.connections request.modulePath = none)
    (path : List Bytes) : find (views.launch request).connections path =
      if path = request.modulePath then
        some ⟨request.moduleUrl, request.linkPath, request.surfaceRelation⟩
      else find views.connections path := by
  rw [launch, find_append]
  split
  case isTrue same =>
    rw [same, notRunning, find, find?_cons_of_pos (by simp)]
    rfl
  case isFalse different =>
    have notNew : find [(request.modulePath, (⟨request.moduleUrl, request.linkPath,
        request.surfaceRelation⟩ : Connection))] path = none := by
      rw [find, find?_cons_of_neg (by simpa using Ne.symm different)]
      rfl
    rw [notNew, or_none]

theorem Arranged.launch (arranged : Arranged views)
    (notRunning : find views.connections request.modulePath = none) :
    ArrangedBut (some request.modulePath) (views.launch request) := by
  have stillRuns : ∀ path, (find views.connections path).isSome →
      (find (views.launch request).connections path).isSome := by
    intro path isRunning
    rw [find_launch notRunning]
    split
    · rfl
    · exact isRunning
  exact { arranged with
    pendingOwn := fun entry isEntry =>
      ⟨(arranged.pendingOwn entry isEntry).1, stillRuns _ (arranged.pendingOwn entry isEntry).2⟩
    shownRun := fun shown isShown => stillRuns shown (arranged.shownRun shown isShown)
    told := fun path isRunning notNew => by
      rw [find_launch notRunning, if_neg fun same => notNew (congrArg some same.symm)] at isRunning
      exact arranged.told path isRunning (by simp) }

/-- A pending view gets another anchor that is shown only below a new embedded module, and then it
is that of this module. -/
theorem shown_of_launch (arranged : Arranged views) (settled : views.Settled)
    (notRunning : find views.connections request.modulePath = none) (isEntry : entry ∈ views.pendingViews)
    (isAnchor : (views.launch request).connections.findAnchor entry.2 = some anchor)
    (isShown : anchor ∈ views.shownModules) : request.modulePath <+: entry.2 ∧
      (views.launch request).connections.findAnchor request.modulePath = some anchor := by
  have isRunning := (arranged.pendingOwn entry isEntry).2
  have different : entry.2 ≠ request.modulePath := by
    intro same
    rw [same, notRunning] at isRunning
    cases isRunning
  obtain ⟨connection, found⟩ := isSome_iff_exists.mp isRunning
  have foundNext : find (views.launch request).connections entry.2 = some connection := by
    rw [find_launch notRunning, if_neg different]
    exact found
  rw [findAnchor_of_find foundNext] at isAnchor
  rcases anchorAbove_add (find_launch notRunning) isAnchor with
    isOld | rfl | ⟨-, isAbove, isOf⟩
  · have wasAnchor : views.connections.findAnchor entry.2 = some anchor :=
      (findAnchor_of_find found).trans isOld
    exact nomatch settled entry isEntry anchor wasAnchor isShown
  · have wasRunning := arranged.shownRun _ isShown
    rw [notRunning] at wasRunning
    cases wasRunning
  · refine ⟨?_, isOf⟩
    have isSuffix := isAbove.trans (tail_suffix _)
    rwa [reverse_suffix] at isSuffix

structure InOrder (views : StoryViews) : Prop where
  arranged : Arranged views
  settled : Settled views

namespace InOrder

theorem releaseModule (inOrder : InOrder views) (modulePath : List Bytes) :
    InOrder (views.releaseModule modulePath) :=
  ⟨inOrder.arranged.releaseModule modulePath, inOrder.settled.releaseModule modulePath⟩

structure Launched (views : StoryViews) (modulePath : List Bytes) : Prop where
  arranged : ArrangedBut (some modulePath) views
  isRunning : (Registry.find views.connections modulePath).isSome
  settledBut : views.SettledBut (views.connections.findAnchor modulePath)

variable {paths : List (List Bytes)}

section

variable (inOrder : InOrder views) {requests : List StartRequest}
include inOrder

theorem launch (notRunning : find views.connections request.modulePath = none) :
    Launched (views.launch request) request.modulePath where
  arranged := inOrder.arranged.launch notRunning
  isRunning := by
    rw [find_launch notRunning, if_pos rfl]
    rfl
  settledBut entry isEntry anchor isAnchor isShown :=
    (shown_of_launch inOrder.arranged inOrder.settled notRunning isEntry isAnchor isShown).2

theorem launchModule (request : StartRequest) :
    Launched (views.launchModule request) request.modulePath := by
  rw [StoryViews.launchModule]
  cases found : find views.connections request.modulePath with
  | none => exact inOrder.launch found
  | some connection =>
    simp only
    split
    · exact (inOrder.releaseModule request.modulePath).launch
        (find_erase views.connections request.modulePath)
    · refine ⟨{ inOrder.arranged with
        told := fun path isRunning _ => inOrder.arranged.told path isRunning (by simp) }, ?_, ?_⟩
      · rw [found]
        rfl
      · intro entry isEntry anchor isAnchor isShown
        exact nomatch inOrder.settled entry isEntry anchor isAnchor isShown

theorem startModuleInShell (starts : views.StartsInOrder request) :
    InOrder (views.startModuleInShell request) := by
  have launched := inOrder.launchModule { request with embedModuleWatcher := false }
  have shown := launched.arranged.showModule starts.1 launched.isRunning starts.2
    launched.settledBut
  exact ⟨shown.1, shown.2⟩

/-- A module that no pending view is below can start outside of the shell. -/
theorem launch_notAbove (isKnown : views.Known request.modulePath)
    (notRunning : find views.connections request.modulePath = none)
    (notAbove : ∀ entry ∈ views.pendingViews, request.modulePath <+: entry.2 →
      entry.2 = request.modulePath) : InOrder (views.launch request) := by
  refine ⟨(inOrder.arranged.launch notRunning).full isKnown,
    fun entry isEntry anchor isAnchor isShown => ?_⟩
  have isAbove :=
    (shown_of_launch inOrder.arranged inOrder.settled notRunning isEntry isAnchor isShown).1
  have isRunning := (inOrder.arranged.pendingOwn entry isEntry).2
  rw [notAbove entry isEntry isAbove, notRunning] at isRunning
  cases isRunning

theorem startModule (isKnown : views.Known request.modulePath)
    (notAbove : ∀ entry ∈ views.pendingViews, request.modulePath <+: entry.2 →
      entry.2 = request.modulePath) : InOrder (views.startModule request) := by
  rw [StoryViews.startModule, StoryViews.launchModule]
  split
  case h_1 notRunning => exact inOrder.launch_notAbove isKnown notRunning notAbove
  case h_2 connection isRunning =>
    split
    · refine launch_notAbove (inOrder.releaseModule request.modulePath) isKnown
        (find_erase views.connections request.modulePath) fun entry isEntry => ?_
      exact notAbove entry (mem_filter.mp isEntry).1
    · exact inOrder

theorem stopModule (modulePath : List Bytes) : InOrder (views.stopModule modulePath) := by
  rw [StoryViews.stopModule]
  split
  · exact inOrder.releaseModule modulePath
  · exact inOrder

theorem foldl_startModuleInShell (allowed : EachStep
      (fun views request => some (views.startModuleInShell request)) StartsInOrder views requests) :
    InOrder (requests.foldl StoryViews.startModuleInShell views) := by
  induction requests generalizing views with
  | nil => exact inOrder
  | cons request requests ih => exact ih (inOrder.startModuleInShell allowed.1) (allowed.2 _ rfl)

theorem start (keeps : views.KeepsOrder (.start requests)) : InOrder (views.start requests) := by
  rw [StoryViews.start]
  split
  case isTrue => exact inOrder
  case isFalse notRunning =>
    obtain ⟨notConnected, allowed⟩ := keeps (Bool.not_eq_true _ ▸ notRunning)
    refine @foldl_startModuleInShell views.newShell ⟨{ inOrder.arranged with
      shownRun := fun _ isShown => absurd isShown not_mem_nil
      shownConnected := fun _ isShown => absurd isShown not_mem_nil
      told := fun path isRunning _ _ isConnected => ?_
      notShown := fun _ => rfl }, settled_of_notShown rfl⟩ requests allowed
    obtain ⟨connection, found⟩ := isSome_iff_exists.mp isRunning
    exact absurd isConnected (notConnected _ (mem_of_find found))

theorem foldl_releaseModule : InOrder (paths.foldl StoryViews.releaseModule views) := by
  induction paths generalizing views with
  | nil => exact inOrder
  | cons path paths ih => exact ih (inOrder.releaseModule path)

end

theorem find_foldl_releaseModule (isGone : path ∈ paths ∨ find views.connections path = none) :
    find (paths.foldl StoryViews.releaseModule views).connections path = none := by
  induction paths generalizing views with
  | nil => exact isGone.resolve_left not_mem_nil
  | cons first paths ih =>
    apply ih
    rcases isGone with isPath | isNone
    · rcases mem_cons.mp isPath with rfl | isRest
      · exact .inr (find_erase views.connections path)
      · exact .inl isRest
    · exact .inr (find_erase_none first isNone)

variable (inOrder : InOrder views)
include inOrder

theorem stop : InOrder views.stop := by
  have released : InOrder ((views.connections.map Prod.fst).foldl StoryViews.releaseModule views) :=
    inOrder.foldl_releaseModule
  refine ⟨{ released.arranged with
    pendingOwn := fun entry isEntry => ?_
    shownRun := nofun
    shownConnected := nofun
    told := nofun
    notShown := fun _ => rfl }, settled_of_notShown rfl⟩
  have isRunning := (released.arranged.pendingOwn entry isEntry).2
  have isGone : find ((views.connections.map Prod.fst).foldl StoryViews.releaseModule
      views).connections entry.2 = none := by
    apply find_foldl_releaseModule
    by_cases isKey : entry.2 ∈ views.connections.map Prod.fst
    · exact .inl isKey
    · exact .inr (find_eq_none_iff.mpr isKey)
  rw [isGone] at isRunning
  cases isRunning

theorem step {event : StoryViewsEvent} (keeps : views.KeepsOrder event)
    (isStep : views.step event = some next) : InOrder next := by
  cases event with
  | startModuleInShell request =>
    cases isStep
    exact inOrder.startModuleInShell keeps
  | startModule request =>
    cases isStep
    exact inOrder.startModule keeps.1 keeps.2
  | stopModule modulePath =>
    cases isStep
    exact inOrder.stopModule modulePath
  | start requests =>
    cases isStep
    exact inOrder.start keeps
  | stop =>
    cases isStep
    exact inOrder.stop
  | onRootStateChange isRunning =>
    cases isStep
    exact ⟨{ inOrder.arranged with }, inOrder.settled⟩

theorem viewsInOrder : ViewsInOrder views where
  distinctIds first isFirst second isSecond same :=
    (inOrder.arranged.plainPaths first isFirst).eq_of_pathString
      (inOrder.arranged.plainPaths second isSecond) same
  knownAnchors := inOrder.arranged.knownAnchors
  noneLeft entry isEntry anchor isAnchor isShown :=
    nomatch inOrder.settled entry isEntry anchor isAnchor isShown

end InOrder

theorem inOrder_initial : InOrder initial :=
  ⟨⟨nofun, nofun, nofun, nofun, fun _ => rfl, nofun, rfl⟩, settled_of_notShown rfl⟩

end StoryViews

/-- In a run in which names have no separator, a view of an earlier shell is connected at once, and
no module starts outside of the shell above a pending view, the views are in order. -/
theorem viewsInOrder_run (events : List StoryViewsEvent) (final : StoryViews)
    (allowed : EachStep StoryViews.step StoryViews.KeepsOrder .initial events)
    (isRun : runSteps StoryViews.step .initial events = some final) : ViewsInOrder final := by
  apply StoryViews.InOrder.viewsInOrder
  exact invariant_runSteps StoryViews.InOrder
    (fun inOrder keeps isStep => inOrder.step keeps isStep) StoryViews.inOrder_initial allowed isRun

def shownRequest (parentPath : List Bytes) (name : Bytes) : StartRequest :=
  ⟨parentPath, name, [1], ⟨[], []⟩, some ⟨.none, .none, 1⟩, false, false⟩

/-- A module waits for the one above it, and is shown with it; then the story starts again. -/
theorem viewsInOrder_run_sample :
    let connection : Connection := ⟨[1], ⟨[], []⟩, some ⟨.none, .none, 1⟩⟩
    ViewsInOrder
      ⟨[([[97]], connection), ([[97], [98]], connection)], true, true, [[97, 58, 98], [97]], [],
        [[97, 58, 98], [97]], [[[97], [98]], [[97]]], [[[97], [98]], [[97]], [[97]], [[97], [98]]],
        false⟩ :=
  viewsInOrder_run
    [.start [], .startModuleInShell (shownRequest [[97]] [98]),
      .startModuleInShell (shownRequest [] [97]), .stop,
      .start [shownRequest [] [97], shownRequest [[97]] [98]]] _ (by decide +kernel)
    (by decide +kernel)

/-- Two modules get the same id; a restarted shell is told of a view whose anchor it was not told
of; a view is left pending when the embedded module between it and its anchor starts. -/
theorem not_viewsInOrder_run : (∃ final, runSteps StoryViews.step .initial
        [.start [], .startModuleInShell (shownRequest [] [97]),
          .startModuleInShell (shownRequest [[97]] [98]),
          .startModuleInShell (shownRequest [] [97, 58, 98])] = some final ∧ ¬ViewsInOrder final) ∧
    (∃ final, runSteps StoryViews.step .initial
        [.start [], .startModuleInShell (shownRequest [] [97]),
          .startModuleInShell (shownRequest [[97]] [98]), .stopModule [[97]], .stop,
          .start [shownRequest [[97]] [98], shownRequest [[97], [98]] [99]]] = some final ∧
      ¬ViewsInOrder final) ∧ ∃ final, runSteps StoryViews.step .initial
        [.start [], .startModuleInShell (shownRequest [] [97]),
          .startModuleInShell (shownRequest [[97], [98]] [99]),
          .startModule (shownRequest [[97]] [98])] = some final ∧ ¬ViewsInOrder final := by
  refine ⟨⟨_, rfl, fun inOrder => ?_⟩, ⟨_, rfl, fun inOrder => ?_⟩, _, rfl, fun inOrder => ?_⟩
  · have same := inOrder.distinctIds [[97], [98]] (by decide +kernel) [[97, 58, 98]]
      (by decide +kernel) (by decide +kernel)
    exact absurd same (by decide)
  · exact absurd inOrder.knownAnchors (by decide +kernel)
  · exact inOrder.noneLeft ([97, 58, 98, 58, 99], [[97], [98], [99]]) (by decide +kernel) [[97]]
      (by decide +kernel) (by decide +kernel)

end Peridot
