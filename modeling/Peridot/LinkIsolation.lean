import Peridot.LinkImpl

/-!
# Links of one page

All links of a story share its page, and each of them is told of the rows whose keys start with
its own key.  No separator follows the name of the link there, so a link also gets the changes of
the links whose names continue its name.
-/

namespace Peridot

open LinkImpl List Option OrderedStore

structure StoryLinks (json : Rapidjson) where
  page : StoryPage
  links : LinkPath → Option (LinkImpl json)

inductive StoryLinksEvent where
  /-- A `LinkImpl` is created, and replaces the one of the same path. -/
  | create (linkPath : LinkPath) (initialData : Option Bytes)
  | link (linkPath : LinkPath) (event : LinkEvent)
  /-- The page gets a change that a link has written on another device. -/
  | receive (change : LinkChange)

namespace StoryLinks

variable {json : Rapidjson}

def empty (json : Rapidjson) : StoryLinks json :=
  ⟨OrderedStore.empty, fun _ => none⟩

/-- `Put`: the watchers whose key starts the key of the row get it. -/
def put (story : StoryLinks json) (row : Bytes × LinkChange) : StoryLinks json :=
  ⟨story.page.put row.1 row.2, fun linkPath => (story.links linkPath).map fun link =>
    link.watch row⟩

def setLink (story : StoryLinks json) (linkPath : LinkPath) (link : LinkImpl json) :
    StoryLinks json :=
  { story with links := Function.update story.links linkPath (some link) }

def stepLink (story : StoryLinks json) (linkPath : LinkPath) (link : LinkImpl json)
    (event : LinkEvent) : Option (StoryLinks json) :=
  match link.step story.page event with
  | none => none
  | some (link', none) => some (story.setLink linkPath link')
  | some (link', some row) => some ((story.setLink linkPath link').put row)

def step (story : StoryLinks json) : StoryLinksEvent → Option (StoryLinks json)
  | .create linkPath initialData =>
    some (story.setLink linkPath (LinkImpl.new json linkPath initialData))
  | .link linkPath event =>
    match story.links linkPath with
    | none => none
    | some link => story.stepLink linkPath link event
  | .receive change => some (story.put (makeSequencedLinkKey change.origin change.key, change))

end StoryLinks

def LinkStage.changes : LinkStage → List LinkChange
  | .reading changes => changes
  | .writing change _ => [change]
  | _ => []

namespace LinkImpl

variable {json : Rapidjson}

/-- All changes that a link holds, or has applied, have a property. -/
structure Holds (property : LinkChange → Prop) (link : LinkImpl json) : Prop where
  pendingOps : ∀ change ∈ link.pendingOps, property change
  operationQueue : ∀ change, .stored change ∈ link.operationQueue → property change
  stage : ∀ change ∈ link.stage.changes, property change
  untold : ∀ change ∈ link.untold, property change
  applied : ∀ change ∈ link.applied, property change

variable {property : LinkChange → Prop} {link link' : LinkImpl json}
    {row : Option (Bytes × LinkChange)} {event : LinkEvent} {page : StoryPage}

section

variable (holds : link.Holds property) {changes : List LinkChange} {milliseconds randomNumber : UInt64}
    {change : LinkChange}
include holds

theorem Holds.replay (haveProperty : ∀ change ∈ changes, property change) :
    ∀ change ∈ (link.replay changes).applied, property change := by
  intro change isApplied
  rcases mem_append.mp isApplied with isApplied | isApplied
  · exact holds.applied change isApplied
  · rcases mem_of_mem_replayOrder isApplied with isStored | isPending
    · exact haveProperty change isStored
    · exact holds.pendingOps change isPending

theorem Holds.append_applied (hasProperty : property change) :
    ∀ member ∈ link.applied ++ [change], property member := by
  simpa [or_imp, forall_and] using ⟨holds.applied, hasProperty⟩

theorem Holds.runRequest {edit : LinkEdit}
    (own : ∀ change, change.origin = link.linkPath → property change) :
    (link.runRequest edit milliseconds randomNumber).Holds property := by
  unfold LinkImpl.runRequest
  cases json.normalizeJson edit.json with
  | none => exact { holds with stage := by simp [LinkStage.changes] }
  | some text =>
    have hasProperty := own (link.newChange edit text milliseconds randomNumber) rfl
    have pending : ∀ member ∈
        link.pendingOps ++ [link.newChange edit text milliseconds randomNumber],
          property member := by
      simpa [or_imp, forall_and] using ⟨holds.pendingOps, hasProperty⟩
    simp only
    split
    · exact { holds with
        pendingOps := pending
        stage := by simpa [LinkStage.changes] using hasProperty }
    · exact { holds with
        pendingOps := pending
        stage := by simpa [LinkStage.changes] using hasProperty
        applied := holds.append_applied hasProperty }

theorem Holds.runStored (hasProperty : property change) :
    (link.runStored change).Holds property := by
  have idle : ∀ member ∈ LinkStage.idle.changes, property member := by simp [LinkStage.changes]
  unfold LinkImpl.runStored
  split
  · exact { holds with
      pendingOps := fun member isPending => holds.pendingOps member (mem_of_mem_tail isPending)
      stage := idle }
  split
  · exact { holds with stage := by simp [LinkStage.changes] }
  · exact { holds with
      stage := idle
      applied := holds.append_applied hasProperty }

variable (own : ∀ change, change.origin = link.linkPath → property change)
include own

theorem Holds.onEntries (haveProperty : ∀ change ∈ changes, property change) :
    (link.onEntries changes milliseconds randomNumber).Holds property := by
  have idle : ∀ member ∈ LinkStage.idle.changes, property member := by simp [LinkStage.changes]
  unfold LinkImpl.onEntries
  split
  · cases link.dataToSet with
    | none => exact { holds with stage := idle }
    | some initialData =>
      have unset : ({ link with initialData := none } : LinkImpl json).Holds property :=
        { holds with }
      exact unset.runRequest own
  · exact { holds with
      stage := idle
      applied := holds.replay haveProperty }

theorem Holds.step
    (seen : ∀ key change, (key, change) ∈ page.scan (makeLinkKey link.linkPath) → property change)
    (stepped : link.step page event = some (link', row)) : link'.Holds property := by
  cases event with
  | request edit =>
    obtain ⟨rfl, -⟩ := Prod.mk.inj (some.inj stepped)
    exact { holds with
      operationQueue := fun change isQueued => holds.operationQueue change (by simpa using isQueued) }
  | onPageChange index =>
    obtain ⟨change, isUntold, same⟩ := map_eq_some_iff.mp stepped
    obtain ⟨rfl, -⟩ := Prod.mk.inj same
    have hasProperty := holds.untold change (mem_of_getElem? isUntold)
    exact { holds with
      operationQueue := by
        intro member isQueued
        rcases mem_append.mp isQueued with isQueued | isQueued
        · exact holds.operationQueue member isQueued
        · obtain ⟨⟩ := mem_singleton.mp isQueued
          exact hasProperty
      untold := fun member isUntold => holds.untold member (mem_of_mem_eraseIdx isUntold) }
  | run milliseconds randomNumber =>
    simp only [LinkImpl.step] at stepped
    split at stepped
    · rename_i data operationQueue isIdle isQueued
      obtain ⟨rfl, -⟩ := Prod.mk.inj (some.inj stepped)
      have next : ({ link with operationQueue } : LinkImpl json).Holds
          property :=
        { holds with
          operationQueue := fun change member =>
            holds.operationQueue change (isQueued ▸ mem_cons_of_mem _ member) }
      cases data with
      | request edit => exact next.runRequest own
      | stored change =>
        exact next.runStored (holds.operationQueue change (isQueued ▸ mem_cons_self))
    · simp at stepped
  | getSnapshot =>
    simp only [LinkImpl.step] at stepped
    split at stepped
    · obtain ⟨rfl, -⟩ := Prod.mk.inj (some.inj stepped)
      refine { holds with stage := ?_ }
      intro change isRead
      obtain ⟨⟨key, _⟩, isRow, rfl⟩ := mem_map.mp isRead
      exact seen key _ isRow
    · simp at stepped
  | getEntries milliseconds randomNumber =>
    simp only [LinkImpl.step] at stepped
    split at stepped
    · rename_i changes isReading
      obtain ⟨rfl, -⟩ := Prod.mk.inj (some.inj stepped)
      refine holds.onEntries own fun change isRead => holds.stage change ?_
      rw [isReading]
      exact isRead
    · simp at stepped
  | commitPut =>
    simp only [LinkImpl.step] at stepped
    split at stepped
    · obtain ⟨rfl, -⟩ := Prod.mk.inj (some.inj stepped)
      exact { holds with stage := by simp [LinkStage.changes] }
    · simp at stepped
  | answerPut =>
    simp only [LinkImpl.step] at stepped
    split at stepped
    · rename_i reload isWritten
      obtain ⟨rfl, -⟩ := Prod.mk.inj (some.inj stepped)
      refine { holds with stage := ?_ }
      cases reload <;> simp [LinkStage.changes]
    · simp at stepped

end

def WritesOwn (link : LinkImpl json) : Prop :=
  ∀ change reload, link.stage = .writing change reload → change.origin = link.linkPath

theorem writesOwn_of_changes (none : link'.stage.changes = []) : link'.WritesOwn := by
  intro change reload isWriting
  simp [isWriting, LinkStage.changes] at none

section

variable (link : LinkImpl json)

theorem runRequest_path (edit : LinkEdit) (milliseconds randomNumber : UInt64) :
    (link.runRequest edit milliseconds randomNumber).linkPath = link.linkPath ∧
      (link.runRequest edit milliseconds randomNumber).WritesOwn := by
  unfold runRequest
  cases json.normalizeJson edit.json with
  | none => exact ⟨rfl, writesOwn_of_changes rfl⟩
  | some text =>
    simp only
    split
    · refine ⟨rfl, ?_⟩
      rintro change reload ⟨⟩
      rfl
    · refine ⟨rfl, ?_⟩
      rintro change reload ⟨⟩
      rfl

theorem runStored_path (change : LinkChange) :
    (link.runStored change).linkPath = link.linkPath ∧ (link.runStored change).WritesOwn := by
  unfold runStored
  split
  · exact ⟨rfl, writesOwn_of_changes rfl⟩
  · split <;> exact ⟨rfl, writesOwn_of_changes rfl⟩

theorem onEntries_path (changes : List LinkChange) (milliseconds randomNumber : UInt64) :
    (link.onEntries changes milliseconds randomNumber).linkPath = link.linkPath ∧
      (link.onEntries changes milliseconds randomNumber).WritesOwn := by
  unfold onEntries
  split
  · cases link.dataToSet with
    | none => exact ⟨rfl, writesOwn_of_changes rfl⟩
    | some initialData => exact runRequest_path { link with initialData := none } ..
  · exact ⟨rfl, writesOwn_of_changes rfl⟩

end

theorem step_path (writesOwn : link.WritesOwn)
    (stepped : link.step page event = some (link', row)) :
    link'.linkPath = link.linkPath ∧ link'.WritesOwn ∧
      ∀ written ∈ row, written.2.origin = link.linkPath ∧
        written.1 = makeSequencedLinkKey link.linkPath written.2.key := by
  cases event with
  | request edit =>
    obtain ⟨rfl, rfl⟩ := Prod.mk.inj (some.inj stepped)
    exact ⟨rfl, writesOwn, by simp⟩
  | onPageChange index =>
    obtain ⟨change, -, same⟩ := map_eq_some_iff.mp stepped
    obtain ⟨rfl, rfl⟩ := Prod.mk.inj same
    exact ⟨rfl, writesOwn, by simp⟩
  | run milliseconds randomNumber =>
    simp only [step] at stepped
    split at stepped
    · rename_i data operationQueue isIdle isQueued
      obtain ⟨rfl, rfl⟩ := Prod.mk.inj (some.inj stepped)
      cases data with
      | request edit =>
        obtain ⟨samePath, ownWrites⟩ := runRequest_path
          { link with operationQueue } edit milliseconds randomNumber
        exact ⟨samePath, ownWrites, by simp⟩
      | stored change =>
        obtain ⟨samePath, ownWrites⟩ := runStored_path
          { link with operationQueue } change
        exact ⟨samePath, ownWrites, by simp⟩
    · simp at stepped
  | getSnapshot =>
    simp only [step] at stepped
    split at stepped
    · obtain ⟨rfl, rfl⟩ := Prod.mk.inj (some.inj stepped)
      refine ⟨rfl, ?_, by simp⟩
      rintro change reload ⟨⟩
    · simp at stepped
  | getEntries milliseconds randomNumber =>
    simp only [step] at stepped
    split at stepped
    · obtain ⟨rfl, rfl⟩ := Prod.mk.inj (some.inj stepped)
      obtain ⟨samePath, ownWrites⟩ := onEntries_path link _ milliseconds randomNumber
      exact ⟨samePath, ownWrites, by simp⟩
    · simp at stepped
  | commitPut =>
    simp only [step] at stepped
    split at stepped
    · rename_i change reload isWriting
      obtain ⟨rfl, rfl⟩ := Prod.mk.inj (some.inj stepped)
      refine ⟨rfl, writesOwn_of_changes rfl, ?_⟩
      rintro written ⟨⟩
      exact ⟨writesOwn change reload isWriting, rfl⟩
    · simp at stepped
  | answerPut =>
    simp only [step] at stepped
    split at stepped
    · rename_i reload isWritten
      obtain ⟨rfl, rfl⟩ := Prod.mk.inj (some.inj stepped)
      refine ⟨rfl, ?_, by simp⟩
      cases reload <;> exact writesOwn_of_changes rfl
    · simp at stepped

theorem Holds.watch (holds : link.Holds property) {row : Bytes × LinkChange}
    (hasProperty : makeLinkKey link.linkPath <+: row.1 → property row.2) :
    (link.watch row).Holds property := by
  unfold LinkImpl.watch
  split
  · rename_i starts
    exact { holds with
      untold := by simpa [or_imp, forall_and] using ⟨holds.untold, hasProperty starts⟩ }
  · exact holds

theorem holds_new (linkPath : LinkPath) (initialData : Option Bytes) :
    (new json linkPath initialData).Holds property := by
  constructor <;> simp [new, LinkStage.changes]

end LinkImpl

def LinkPath.Sees (linkPath : LinkPath) (change : LinkChange) : Prop :=
  makeLinkKey linkPath <+: makeSequencedLinkKey change.origin change.key

namespace StoryLinks

variable {json : Rapidjson} {story story' : StoryLinks json}

/-- Each link holds changes only whose rows start with its key. -/
structure Separated (story : StoryLinks json) : Prop where
  rows : ∀ key change, story.page.get key = some change →
    key = makeSequencedLinkKey change.origin change.key
  links : ∀ linkPath link, story.links linkPath = some link →
    link.linkPath = linkPath ∧ link.WritesOwn ∧ link.Holds linkPath.Sees

theorem separated_empty : (empty json).Separated :=
  ⟨by simp [empty], by simp [empty]⟩

section

variable (separated : story.Separated)
include separated

theorem Separated.setLink {linkPath : LinkPath}
    {link : LinkImpl json} (samePath : link.linkPath = linkPath) (writesOwn : link.WritesOwn)
    (holds : link.Holds linkPath.Sees) : (story.setLink linkPath link).Separated := by
  refine ⟨separated.rows, fun other link' isLink => ?_⟩
  by_cases same : other = linkPath
  · subst same
    obtain rfl : link = link' := by simpa [StoryLinks.setLink] using isLink
    exact ⟨samePath, writesOwn, holds⟩
  · exact separated.links other link' (by simpa [StoryLinks.setLink, same] using isLink)

theorem Separated.put {row : Bytes × LinkChange}
    (isRow : row.1 = makeSequencedLinkKey row.2.origin row.2.key) : (story.put row).Separated := by
  constructor
  · intro key change isStored
    simp only [StoryLinks.put, get_put] at isStored
    split at isStored
    · rename_i same
      cases isStored
      rw [same, isRow]
    · exact separated.rows key change isStored
  · intro linkPath link isLink
    obtain ⟨watched, isWatched, rfl⟩ := map_eq_some_iff.mp isLink
    obtain ⟨rfl, writesOwn, holds⟩ := separated.links linkPath watched isWatched
    refine ⟨linkPath_watch .., ?_, holds.watch fun starts => ?_⟩
    · unfold LinkImpl.watch
      split <;> exact writesOwn
    · rwa [LinkPath.Sees, ← isRow]

theorem Separated.step {event : StoryLinksEvent}
    (stepped : story.step event = some story') : story'.Separated := by
  cases event with
  | create linkPath initialData =>
    cases stepped
    exact separated.setLink rfl (writesOwn_of_changes rfl) (holds_new ..)
  | receive change =>
    cases stepped
    exact separated.put rfl
  | link linkPath event =>
    simp only [StoryLinks.step] at stepped
    split at stepped
    · simp at stepped
    rename_i link isLink
    obtain ⟨rfl, writesOwn, holds⟩ := separated.links linkPath link isLink
    have own : ∀ change, change.origin = link.linkPath → link.linkPath.Sees change := by
      intro change isOwn
      rw [LinkPath.Sees, isOwn, makeSequencedLinkKey, append_assoc]
      exact prefix_append ..
    have seen : ∀ key change, (key, change) ∈ story.page.scan (makeLinkKey link.linkPath) →
        link.linkPath.Sees change := by
      intro key change isRow
      obtain ⟨starts, isStored⟩ := mem_scan.mp isRow
      rwa [LinkPath.Sees, ← separated.rows key change isStored]
    unfold stepLink at stepped
    split at stepped
    · simp at stepped
    · rename_i link' linkStepped
      cases stepped
      obtain ⟨samePath, ownWrites, -⟩ := step_path writesOwn linkStepped
      exact separated.setLink samePath ownWrites (holds.step own seen linkStepped)
    · rename_i link' row linkStepped
      cases stepped
      obtain ⟨samePath, ownWrites, isRow⟩ := step_path writesOwn linkStepped
      obtain ⟨isOwn, isKey⟩ := isRow row rfl
      exact (separated.setLink samePath ownWrites (holds.step own seen linkStepped)).put
        (by rw [isKey, isOwn])

end

/-- No run of a page makes the link of the first path apply a change of the second one. -/
def Isolated (json : Rapidjson) (first second : LinkPath) : Prop :=
  ∀ events story, runSteps step (empty json) events = some story →
    ∀ link, story.links first = some link → ∀ change ∈ link.applied, change.origin ≠ second

theorem isolated_of_not_sees {first second : LinkPath}
    (notSeen : ∀ change, change.origin = second → ¬first.Sees change) :
    Isolated json first second := by
  intro events story ran link isLink change isApplied isSecond
  have separated : story.Separated := invariant_runSteps Separated
    (fun separated _ stepped => separated.step stepped) separated_empty
    (eachStep_true events _) ran
  obtain ⟨-, -, holds⟩ := separated.links first link isLink
  exact notSeen change isSecond (holds.applied change isApplied)

def overheard (first second : LinkPath) : List StoryLinksEvent :=
  [.create first none, .link first .getSnapshot, .link first (.getEntries 0 0),
    .create second none, .link second .getSnapshot, .link second (.getEntries 0 0),
    .link second (.request ⟨.erase, [], none⟩), .link second (.run 0 0), .link second .commitPut,
    .link first (.onPageChange 0), .link first (.run 0 0)]

theorem not_isolated {first second : LinkPath} (distinct : first ≠ second)
    (starts : ∀ sequenceKey, makeLinkKey first <+: makeSequencedLinkKey second sequenceKey) :
    ¬Isolated json first second := by
  intro isolated
  have notApplied := isolated (overheard first second)
  -- The run up to its last step, which applies a change of the second link.
  simp [overheard, runSteps, step, stepLink, setLink, put, empty, distinct, Function.update,
    LinkImpl.step, new, LinkImpl.onEntries, dataToSet, runChange,
    LinkImpl.runRequest, LinkImpl.runStored, newChange, push,
    applyLatest, LinkImpl.watch, Rapidjson.normalizeJson, OrderedStore.scan,
    OrderedStore.empty, starts] at notApplied

/-- A link never applies the changes of another one exactly when the module paths are not written
the same way, or its name is not the start of the other name. -/
theorem isolated_iff (json : Rapidjson) {first second : LinkPath} (distinct : first ≠ second) :
    Isolated json first second ↔
      ¬(writtenModules first.modulePath = writtenModules second.modulePath ∧
        first.linkName <+: second.linkName) := by
  constructor
  · intro isolated seen
    exact not_isolated distinct
      (fun sequenceKey => (makeLinkKey_isPrefix_iff first second sequenceKey).mpr seen) isolated
  · intro apart
    refine isolated_of_not_sees fun change isSecond sees => apart ?_
    rw [LinkPath.Sees, isSecond] at sees
    exact (makeLinkKey_isPrefix_iff first second change.key).mp sees

theorem isolated_iff_names :
    Isolated .numbers ⟨[ascii ['m']], ascii ['a', 'b']⟩ ⟨[ascii ['m']], ascii ['a']⟩ :=
  (isolated_iff .numbers (by decide)).mpr (by decide)

/-- The link `a` applies a change of the link `ab` of the same module. -/
theorem not_isolated_names :
    ¬Isolated .numbers ⟨[ascii ['m']], ascii ['a']⟩ ⟨[ascii ['m']], ascii ['a', 'b']⟩ :=
  not_isolated (by decide) fun sequenceKey =>
    (makeLinkKey_isPrefix_iff _ _ sequenceKey).mpr (by decide)

end StoryLinks

end Peridot
