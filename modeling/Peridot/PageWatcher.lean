import Peridot.CommitGraph
import Peridot.PageChanges

/-!
# Page watchers

`PageWatcherContainer`: what was sent to one watcher, and what has still to be sent.
-/

namespace Peridot

open List Option

inductive ResultState where
  | completed
  | partialStarted
  | partialContinued
  | partialCompleted
deriving DecidableEq

/-- The callback of `BranchTracker::StartTransaction`: nothing for an implicit transaction,
the answer to the client for an explicit one. -/
inductive DrainedCallback where
  | nothing
  | answer
deriving DecidableEq

/-- A call of `ComputePageChange` that was not answered. -/
structure PendingDiff where
  base : CommitId
  newCommit : CommitId
deriving DecidableEq

/-- A call of `OnChange` that was not acknowledged, and what the coroutine sends after it. -/
structure OnChangeCall where
  state : ResultState
  newCommit : CommitId
  rest : List PageChange
deriving DecidableEq

/-- `PageWatcherContainer`, with the calls that it waits for. -/
structure PageWatcherContainer where
  keyPrefix : Key
  changeInFlight : Bool
  lastCommit : CommitId
  currentCommit : Option CommitId
  onDrained : Option DrainedCallback
  diffs : List PendingDiff
  calls : List OnChangeCall
  /-- History: the commit of the snapshot with which the watcher was registered. -/
  baseCommit : CommitId
  /-- History: all calls of `OnChange`. -/
  sent : List (PageChange × ResultState)
  /-- History: a difference could not be computed. -/
  diffFailed : Bool
deriving DecidableEq

namespace PageWatcherContainer

def new (keyPrefix : Key) (baseCommit : CommitId) : PageWatcherContainer where
  keyPrefix := keyPrefix
  changeInFlight := false
  lastCommit := baseCommit
  currentCommit := none
  onDrained := none
  diffs := []
  calls := []
  baseCommit := baseCommit
  sent := []
  diffFailed := false

def drained (container : PageWatcherContainer) : Bool :=
  match container.currentCommit with
  | none => true
  | some commit => container.lastCommit = commit

/-- `SendCommit`; a callback that is called is removed. -/
def sendCommit (container : PageWatcherContainer) : PageWatcherContainer :=
  if container.changeInFlight then container
  else if container.drained then { container with onDrained := none }
  else { container with
    changeInFlight := true
    currentCommit := none
    diffs := container.diffs ++ container.currentCommit.toList.map fun newCommit =>
      ⟨container.lastCommit, newCommit⟩ }

def updateCommit (container : PageWatcherContainer) (commit : CommitId) : PageWatcherContainer :=
  { container with currentCommit := some commit }.sendCommit

/-- `SetOnDrainedCallback`: an earlier callback is called, and the new one as well if the
container is drained. -/
def setOnDrainedCallback (container : PageWatcherContainer)
    (onDrained : Option DrainedCallback) : PageWatcherContainer :=
  { container with onDrained := if container.drained then none else onDrained }

def sendChange (container : PageWatcherContainer) (page : PageChange) (state : ResultState)
    (newCommit : CommitId) (rest : List PageChange) : PageWatcherContainer :=
  { container with
    sent := container.sent ++ [(page, state)]
    calls := container.calls ++ [⟨state, newCommit, rest⟩] }

def finishChange (container : PageWatcherContainer) (newCommit : CommitId) :
    PageWatcherContainer :=
  { container with changeInFlight := false, lastCommit := newCommit }.sendCommit

/-- The answer to a call of `ComputePageChange`, with the changes that the storage reports. -/
def onPageChange (limits : MessageLimits) (timestamp : CommitId → Int64)
    (container : PageWatcherContainer) (index : Nat)
    (answer : Except Status (List EntryChange)) : Option PageWatcherContainer :=
  match container.diffs[index]? with
  | none => none
  | some diff =>
    let waiting := { container with diffs := container.diffs.eraseIdx index }
    match answer with
    | .error _ => some { waiting with changeInFlight := false, diffFailed := true }
    | .ok changes =>
      match (computePageChange limits (timestamp diff.newCommit) container.keyPrefix
          .noPagination changes).1 with
      | none => some (waiting.finishChange diff.newCommit)
      | some page =>
        match paginateChanges limits page with
        | [] => some waiting
        | [only] => some (waiting.sendChange only .completed diff.newCommit [])
        | first :: rest =>
          some (waiting.sendChange first .partialStarted diff.newCommit rest)

/-- The callback of a call of `OnChange`. -/
def onAcknowledged (container : PageWatcherContainer) (index : Nat) :
    Option PageWatcherContainer :=
  match container.calls[index]? with
  | none => none
  | some call =>
    let waiting := { container with calls := container.calls.eraseIdx index }
    if call.state ≠ .completed ∧ call.state ≠ .partialCompleted then
      match call.rest with
      | [] => some waiting
      | page :: rest =>
        some (waiting.sendChange page (if rest = [] then .partialCompleted
          else .partialContinued) call.newCommit rest)
    else some (waiting.finishChange call.newCommit)

end PageWatcherContainer

def IsChange (states : List ResultState) : Prop :=
  states = [.completed] ∨
    ∃ count, states = .partialStarted :: (List.replicate count .partialContinued ++
      [.partialCompleted])

/-- Whole changes, and the beginning of one more if `isOpen` holds. -/
def ChangesSent (states : List ResultState) (isOpen : Bool) : Prop :=
  ∃ (changes : List (List ResultState)) (count : Nat), (∀ change ∈ changes, IsChange change) ∧
    states = changes.flatten ++
      if isOpen then .partialStarted :: List.replicate count .partialContinued else []

section ChangesSent

variable {states : List ResultState}

theorem changesSent_nil : ChangesSent [] false :=
  ⟨[], 0, by simp, rfl⟩

theorem ChangesSent.completed (sent : ChangesSent states false) :
    ChangesSent (states ++ [.completed]) false := by
  obtain ⟨changes, count, each, rfl⟩ := sent
  refine ⟨changes ++ [[.completed]], 0, ?_, by simp⟩
  intro change inChanges
  rcases mem_append.mp inChanges with inChanges | isLast
  · exact each change inChanges
  · exact .inl (mem_singleton.mp isLast)

theorem ChangesSent.started (sent : ChangesSent states false) :
    ChangesSent (states ++ [.partialStarted]) true := by
  obtain ⟨changes, count, each, rfl⟩ := sent
  exact ⟨changes, 0, each, by simp⟩

theorem ChangesSent.continued (sent : ChangesSent states true) :
    ChangesSent (states ++ [.partialContinued]) true := by
  obtain ⟨changes, count, each, rfl⟩ := sent
  exact ⟨changes, count + 1, each, by simp [replicate_succ']⟩

theorem ChangesSent.partialCompleted (sent : ChangesSent states true) :
    ChangesSent (states ++ [.partialCompleted]) false := by
  obtain ⟨changes, count, each, rfl⟩ := sent
  refine ⟨changes ++ [.partialStarted :: (replicate count .partialContinued ++
    [.partialCompleted])], 0, ?_, by simp⟩
  intro change inChanges
  rcases mem_append.mp inChanges with inChanges | isLast
  · exact each change inChanges
  · exact .inr ⟨count, mem_singleton.mp isLast⟩

end ChangesSent

inductive WatcherActivity where
  | idle
  | diffing (newCommit : CommitId)
  | sending (call : OnChangeCall)

namespace PageWatcherContainer

variable {graph : CommitGraph} {limits : MessageLimits} {container next : PageWatcherContainer}

def received (graph : CommitGraph) (container : PageWatcherContainer) : Contents :=
  applyPages ((graph.contents container.baseCommit).under container.keyPrefix)
    (container.sent.map Prod.fst)

def Doing (container : PageWatcherContainer) : WatcherActivity → Prop
  | .idle => container.changeInFlight = false ∧ container.diffs = [] ∧ container.calls = []
  | .diffing newCommit => container.changeInFlight = true ∧
      container.diffs = [⟨container.lastCommit, newCommit⟩] ∧ container.calls = []
  | .sending call => container.changeInFlight = true ∧ container.diffs = [] ∧
      container.calls = [call] ∧
      (call.rest ≠ [] ↔ call.state ≠ .completed ∧ call.state ≠ .partialCompleted)

def Received (graph : CommitGraph) (container : PageWatcherContainer) : WatcherActivity → Prop
  | .idle | .diffing _ => ChangesSent (container.sent.map Prod.snd) false ∧
      container.received graph =
        (graph.contents container.lastCommit).under container.keyPrefix
  | .sending call => ChangesSent (container.sent.map Prod.snd) (call.rest ≠ []) ∧
      applyPages (container.received graph) call.rest =
        (graph.contents call.newCommit).under container.keyPrefix

theorem sendCommit_idle (isIdle : container.Doing .idle) :
    (container.drained = true ∧ container.sendCommit = { container with onDrained := none }) ∨
    ∃ newCommit, container.currentCommit = some newCommit ∧ container.lastCommit ≠ newCommit ∧
      container.sendCommit = { container with
        changeInFlight := true
        currentCommit := none
        diffs := [⟨container.lastCommit, newCommit⟩] } := by
  obtain ⟨notInFlight, noDiffs, noCalls⟩ := isIdle
  by_cases isDrained : container.drained = true
  · exact .inl ⟨isDrained, by simp [sendCommit, notInFlight, isDrained]⟩
  · cases isCurrent : container.currentCommit with
    | none => simp [drained, isCurrent] at isDrained
    | some newCommit =>
      refine .inr ⟨newCommit, rfl, by simpa [drained, isCurrent] using isDrained, ?_⟩
      simp [sendCommit, notInFlight, isDrained, noDiffs, isCurrent]

theorem sendCommit_inFlight (inFlight : container.changeInFlight = true) :
    container.sendCommit = container := by
  rw [sendCommit, if_pos inFlight]

theorem updateCommit_inFlight (inFlight : container.changeInFlight = true) (commit : CommitId) :
    container.updateCommit commit = { container with currentCommit := some commit } :=
  sendCommit_inFlight inFlight

variable {activity : WatcherActivity}

theorem Doing.notInFlight (doing : container.Doing activity)
    (notInFlight : container.changeInFlight = false) : container.Doing .idle := by
  cases activity with
  | idle => exact doing
  | diffing newCommit | sending call => exact nomatch doing.1.symm.trans notInFlight

theorem Doing.setOnDrainedCallback (doing : container.Doing activity)
    (onDrained : Option DrainedCallback) :
    (container.setOnDrainedCallback onDrained).Doing activity := by
  cases activity <;> exact doing

variable {index : Nat} {answer : Except Status (List EntryChange)} {timestamp : CommitId → Int64}

theorem onPageChange_cases (doing : container.Doing activity)
    (isNext : container.onPageChange limits timestamp index answer = some next) :
    ∃ newCommit, activity = .diffing newCommit ∧ ((∃ status, answer = .error status ∧
          next = { container with diffs := [], changeInFlight := false, diffFailed := true }) ∨
        (∃ changes, answer = .ok changes ∧
          (∀ effect, effect ∈ effects [] ↔ effect ∈ (changes.takeWhile fun change =>
            matchesPrefix change.entry.key container.keyPrefix).map EntryChange.effect) ∧
          next = { container with diffs := [] }.finishChange newCommit) ∨
        ∃ changes page state rest, answer = .ok changes ∧
          (∀ effect, effect ∈ effects (page :: rest) ↔ effect ∈ (changes.takeWhile fun change =>
            matchesPrefix change.entry.key container.keyPrefix).map EntryChange.effect) ∧
          (rest = [] ∧ state = .completed ∨ rest ≠ [] ∧ state = .partialStarted) ∧
          next = { container with diffs := [] }.sendChange page state newCommit rest) := by
  unfold onPageChange at isNext
  cases isDiff : container.diffs[index]? with
  | none => simp [isDiff] at isNext
  | some diff =>
    cases activity with
    | idle | sending call => simp [doing.2.1] at isDiff
    | diffing newCommit =>
      refine ⟨newCommit, rfl, ?_⟩
      obtain ⟨inFlight, isDiffs, noCalls⟩ := doing
      rw [isDiffs, getElem?_singleton] at isDiff
      obtain ⟨rfl, rfl⟩ : index = 0 ∧ ⟨container.lastCommit, newCommit⟩ = diff := by
        split at isDiff
        · exact ⟨by assumption, some.inj isDiff⟩
        · simp at isDiff
      simp only [isDiffs, getElem?_cons_zero, eraseIdx_cons_zero] at isNext
      cases answer with
      | error status => exact .inl ⟨status, rfl, (some.inj isNext).symm⟩
      | ok changes =>
        refine .inr ?_
        obtain ⟨ofPage, ofNone⟩ := @computePageChange_spec limits (timestamp newCommit)
          container.keyPrefix changes
        simp only [] at isNext
        cases isPage : (computePageChange limits (timestamp newCommit) container.keyPrefix
            .noPagination changes).1 with
        | none =>
          simp only [isPage, some.injEq] at isNext
          exact .inl ⟨changes, rfl, by simp [ofNone isPage, effects], isNext.symm⟩
        | some page =>
          obtain ⟨notEmpty, sameEffects⟩ := ofPage page isPage
          have samePages : ∀ effect, effect ∈ effects (paginateChanges limits page) ↔ _ :=
            fun effect => mem_effects_paginateChanges.trans (sameEffects effect)
          refine .inr ⟨changes, ?_⟩
          simp only [isPage] at isNext
          split at isNext
          case h_1 noPages => exact absurd noPages (paginateChanges_ne_nil notEmpty)
          case h_2 only isOnly =>
            rw [isOnly] at samePages
            exact ⟨only, .completed, [], rfl, samePages, .inl ⟨rfl, rfl⟩,
              (some.inj isNext).symm⟩
          case h_3 first rest notOnly isPages =>
            rw [isPages] at samePages
            refine ⟨first, .partialStarted, rest, rfl, samePages, .inr ⟨?_, rfl⟩,
              (some.inj isNext).symm⟩
            rintro rfl
            exact notOnly rfl

/-- An acknowledgement: the next page is sent, or the change is finished. -/
theorem onAcknowledged_cases (doing : container.Doing activity)
    (isNext : container.onAcknowledged index = some next) : ∃ call, activity = .sending call ∧
      ((∃ page rest, call.rest = page :: rest ∧ next = { container with calls := [] }.sendChange
          page (if rest = [] then .partialCompleted else .partialContinued) call.newCommit rest) ∨
        call.rest = [] ∧ next = { container with calls := [] }.finishChange call.newCommit) := by
  unfold onAcknowledged at isNext
  cases isCall : container.calls[index]? with
  | none => simp [isCall] at isNext
  | some call =>
    cases activity with
    | idle | diffing newCommit => simp [doing.2.2] at isCall
    | sending other =>
      obtain ⟨inFlight, noDiffs, isCalls, isLast⟩ := doing
      rw [isCalls, getElem?_singleton] at isCall
      obtain ⟨rfl, rfl⟩ : index = 0 ∧ other = call := by
        split at isCall
        · exact ⟨by assumption, some.inj isCall⟩
        · simp at isCall
      refine ⟨other, rfl, ?_⟩
      simp only [isCalls, getElem?_cons_zero, eraseIdx_cons_zero] at isNext
      cases isRest : other.rest with
      | nil =>
        have isFinal : ¬(other.state ≠ .completed ∧ other.state ≠ .partialCompleted) := by
          rw [← isLast, isRest]
          simp
        rw [if_neg isFinal] at isNext
        exact .inr ⟨rfl, (some.inj isNext).symm⟩
      | cons page rest =>
        have notFinal : other.state ≠ .completed ∧ other.state ≠ .partialCompleted := by
          rw [← isLast, isRest]
          simp
        rw [if_pos notFinal] at isNext
        simp only [isRest, some.injEq] at isNext
        exact .inl ⟨page, rest, rfl, isNext.symm⟩

/-- The watcher has been sent whole changes, and has the contents that belong to them. -/
def Watching (graph : CommitGraph) (container : PageWatcherContainer) : Prop :=
  ∃ activity, container.Doing activity ∧ container.Received graph activity

theorem watching_new (keyPrefix : Key) (commit : CommitId) :
    (new keyPrefix commit).Watching graph :=
  ⟨.idle, ⟨rfl, rfl, rfl⟩, changesSent_nil, rfl⟩

theorem Received.congr (received : container.Received graph activity)
    (samePrefix : next.keyPrefix = container.keyPrefix)
    (sameLast : next.lastCommit = container.lastCommit)
    (sameBase : next.baseCommit = container.baseCommit) (sameSent : next.sent = container.sent) :
    next.Received graph activity := by
  cases activity <;>
    simpa only [Received, PageWatcherContainer.received, samePrefix, sameLast, sameBase, sameSent]
      using received

theorem Watching.setOnDrainedCallback (watching : container.Watching graph)
    (onDrained : Option DrainedCallback) :
    (container.setOnDrainedCallback onDrained).Watching graph := by
  obtain ⟨activity, doing, received⟩ := watching
  exact ⟨activity, doing.setOnDrainedCallback onDrained, received.congr rfl rfl rfl rfl⟩

theorem watching_sendCommit_idle (isIdle : container.Doing .idle)
    (received : container.Received graph .idle) : container.sendCommit.Watching graph := by
  rcases sendCommit_idle isIdle with ⟨-, isSent⟩ | ⟨newCommit, -, -, isSent⟩
  · rw [isSent]
    exact ⟨.idle, isIdle, received⟩
  · rw [isSent]
    exact ⟨.diffing newCommit, ⟨rfl, rfl, isIdle.2.2⟩, received⟩

theorem Watching.updateCommit (watching : container.Watching graph) (commit : CommitId) :
    (container.updateCommit commit).Watching graph := by
  obtain ⟨activity, doing, received⟩ := watching
  cases activity with
  | idle => exact watching_sendCommit_idle doing received
  | diffing newCommit =>
    rw [updateCommit_inFlight doing.1]
    exact ⟨.diffing newCommit, doing, received⟩
  | sending call =>
    rw [updateCommit_inFlight doing.1]
    exact ⟨.sending call, doing, received⟩

theorem received_sendChange (page : PageChange) (state : ResultState) (newCommit : CommitId)
    (rest : List PageChange) : (container.sendChange page state newCommit rest).received graph =
      applyPages (container.received graph) [page] := by
  simp [received, sendChange, applyPages_append]

section

variable (watching : container.Watching graph)
include watching

theorem Watching.onPageChange
    (exact : ∀ changes, answer = .ok changes → ∀ diff, container.diffs[index]? = some diff →
      ExactDiffFrom container.keyPrefix (graph.contents diff.base)
        (graph.contents diff.newCommit) changes)
    (isNext : container.onPageChange limits timestamp index answer = some next) :
    next.Watching graph := by
  obtain ⟨activity, doing, received⟩ := watching
  have isDiff : ∃ diff, container.diffs[index]? = some diff := by
    unfold PageWatcherContainer.onPageChange at isNext
    cases isDiff : container.diffs[index]? with
    | none => simp [isDiff] at isNext
    | some diff => exact ⟨diff, rfl⟩
  obtain ⟨diff, isDiff⟩ := isDiff
  obtain ⟨newCommit, rfl, outcome⟩ := onPageChange_cases doing isNext
  obtain ⟨inFlight, isDiffs, noCalls⟩ := doing
  obtain ⟨sent, isReceived⟩ := received
  have sameDiff : diff = ⟨container.lastCommit, newCommit⟩ := by
    rw [isDiffs] at isDiff
    exact mem_singleton.mp (mem_of_getElem? isDiff)
  subst sameDiff
  rcases outcome with ⟨status, rfl, rfl⟩ | ⟨changes, rfl, sameEffects, rfl⟩ |
    ⟨changes, page, state, rest, rfl, sameEffects, isState, rfl⟩
  · exact ⟨.idle, ⟨rfl, rfl, noCalls⟩, sent, isReceived⟩
  · have isApplied := applyPages_under (exact changes rfl _ isDiff) sameEffects
    refine watching_sendCommit_idle ⟨rfl, rfl, noCalls⟩ ⟨sent, ?_⟩
    exact isReceived.trans isApplied
  · have isApplied := applyPages_under (exact changes rfl _ isDiff) sameEffects
    have arrives : applyPages ((container.sendChange page state newCommit rest).received graph)
        rest = (graph.contents newCommit).under container.keyPrefix := by
      rw [received_sendChange, ← applyPages_append, singleton_append, isReceived, isApplied]
    rcases isState with ⟨rfl, rfl⟩ | ⟨notLast, rfl⟩
    · refine ⟨.sending ⟨.completed, newCommit, []⟩,
        ⟨inFlight, rfl, by simp [sendChange, noCalls], by simp⟩, ?_, arrives⟩
      simpa [sendChange] using sent.completed
    · refine ⟨.sending ⟨.partialStarted, newCommit, rest⟩,
        ⟨inFlight, rfl, by simp [sendChange, noCalls], by simpa using notLast⟩, ?_, arrives⟩
      simpa [sendChange, notLast] using sent.started

/-- An acknowledgement; after the last page, the watcher has the new commit. -/
theorem Watching.onAcknowledged (isNext : container.onAcknowledged index = some next) :
    next.Watching graph := by
  obtain ⟨activity, doing, received⟩ := watching
  obtain ⟨call, rfl, outcome⟩ := onAcknowledged_cases doing isNext
  obtain ⟨inFlight, noDiffs, isCalls, isLast⟩ := doing
  obtain ⟨sent, isReceived⟩ := received
  rcases outcome with ⟨page, rest, isRest, rfl⟩ | ⟨isRest, rfl⟩
  · have isOpen : ChangesSent (container.sent.map Prod.snd) true := by simpa [isRest] using sent
    have arrives : applyPages ((container.sendChange page (if rest = [] then .partialCompleted
        else .partialContinued) call.newCommit rest).received graph) rest =
        (graph.contents call.newCommit).under container.keyPrefix := by
      rw [received_sendChange, ← applyPages_append, singleton_append, ← isRest, isReceived]
    refine ⟨.sending ⟨_, call.newCommit, rest⟩, ⟨inFlight, noDiffs, rfl, ?_⟩, ?_, arrives⟩
    · by_cases isNil : rest = []
      · simp [isNil]
      · simp [isNil]
    · by_cases isNil : rest = []
      · simpa [sendChange, isNil] using isOpen.partialCompleted
      · simpa [sendChange, isNil] using isOpen.continued
  · have isClosed : ChangesSent (container.sent.map Prod.snd) false := by simpa [isRest] using sent
    rw [isRest] at isReceived
    exact watching_sendCommit_idle ⟨rfl, noDiffs, rfl⟩ ⟨isClosed, isReceived⟩

theorem Watching.calls_length : container.calls.length ≤ 1 := by
  obtain ⟨activity, doing, -⟩ := watching
  cases activity with
  | idle => simp [doing.2.2]
  | diffing newCommit => simp [doing.2.2]
  | sending call => simp [doing.2.2.1]

theorem Watching.changesSent : ∃ isOpen, ChangesSent (container.sent.map Prod.snd) isOpen := by
  obtain ⟨activity, -, received⟩ := watching
  cases activity with
  | idle | diffing newCommit => exact ⟨false, received.1⟩
  | sending call => exact ⟨_, received.1⟩

theorem Watching.received_eq (noCalls : container.calls = []) : container.received graph =
    (graph.contents container.lastCommit).under container.keyPrefix := by
  obtain ⟨activity, doing, received⟩ := watching
  cases activity with
  | idle => exact received.2
  | diffing newCommit => exact received.2
  | sending call =>
    rw [doing.2.2.1] at noCalls
    simp at noCalls

end

theorem lastCommit_sendCommit (container : PageWatcherContainer) :
    container.sendCommit.lastCommit = container.lastCommit ∧
      container.sendCommit.calls = container.calls := by
  unfold sendCommit
  split
  · exact ⟨rfl, rfl⟩
  · split <;> exact ⟨rfl, rfl⟩

theorem Watching.received_onAcknowledged {call : OnChangeCall} (watching : container.Watching graph)
    (isCall : container.calls[index]? = some call)
    (isLast : call.state = .completed ∨ call.state = .partialCompleted)
    (isNext : container.onAcknowledged index = some next) : next.lastCommit = call.newCommit ∧
      next.received graph = (graph.contents next.lastCommit).under next.keyPrefix := by
  have watchingNext := watching.onAcknowledged isNext
  obtain ⟨activity, doing, -⟩ := watching
  obtain ⟨sent, rfl, outcome⟩ := onAcknowledged_cases doing isNext
  obtain ⟨-, -, isCalls, hasRest⟩ := doing
  obtain rfl : call = sent := by
    rw [isCalls] at isCall
    exact mem_singleton.mp (mem_of_getElem? isCall)
  rcases outcome with ⟨page, rest, isRest, -⟩ | ⟨-, rfl⟩
  · obtain ⟨notCompleted, notPartial⟩ := hasRest.mp (by simp [isRest])
    rcases isLast with isCompleted | isPartial
    · exact absurd isCompleted notCompleted
    · exact absurd isPartial notPartial
  · have unsent := lastCommit_sendCommit
      { container with calls := [], changeInFlight := false, lastCommit := call.newCommit }
    exact ⟨unsent.1, watchingNext.received_eq unsent.2⟩

end PageWatcherContainer

end Peridot
