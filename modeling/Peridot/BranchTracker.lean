import Peridot.PageWatcher

/-!
# The branch of a page connection

`BranchTracker` follows one branch of the page and tells its watchers.
-/

namespace Peridot

/-- `BranchTracker`; `currentCommit` is null until the head has moved. -/
structure BranchTracker where
  currentCommitId : CommitId
  currentCommit : Option CommitId
  transactionInProgress : Bool
  watchers : List PageWatcherContainer

namespace BranchTracker

variable (graph : CommitGraph)

def new (commitId : CommitId) : BranchTracker :=
  ⟨commitId, none, false, []⟩

/-- The loop of `OnNewCommits`: the head, and whether it has moved. -/
def followCommits (head : CommitId) (commits : List CommitId) : CommitId × Bool :=
  commits.foldl (fun state commit =>
    if commit = state.1 then state
    else if state.1 ∈ graph.parents commit then (commit, true)
    else state) (head, false)

def onNewCommits (tracker : BranchTracker) (commits : List CommitId) : BranchTracker :=
  let followed := followCommits graph tracker.currentCommitId commits
  if ¬followed.2 then tracker
  else
    { tracker with
      currentCommitId := followed.1
      currentCommit := some followed.1
      watchers :=
        if tracker.transactionInProgress then tracker.watchers
        else tracker.watchers.map fun watcher => watcher.updateCommit followed.1 }

/-- `StartTransaction`; it asserts that no transaction is in progress. -/
def startTransaction (tracker : BranchTracker) (onDrained : DrainedCallback) :
    Option BranchTracker :=
  if tracker.transactionInProgress then none
  else some { tracker with
    transactionInProgress := true
    watchers := tracker.watchers.map fun watcher => watcher.setOnDrainedCallback (some onDrained) }

/-- The end of `StopTransaction`: the watchers are told about the current commit. -/
def updateWatchers (tracker : BranchTracker) : BranchTracker :=
  match tracker.currentCommit with
  | none => tracker
  | some commit => { tracker with
      watchers := tracker.watchers.map fun watcher =>
        (watcher.setOnDrainedCallback none).updateCommit commit }

/-- `StopTransaction`; it asserts that there is no commit without a transaction. -/
def stopTransaction (tracker : BranchTracker) (commit : Option CommitId) :
    Option BranchTracker :=
  if ¬tracker.transactionInProgress then if commit = none then some tracker else none
  else some { tracker with
    transactionInProgress := false
    currentCommitId := commit.getD tracker.currentCommitId
    currentCommit := commit.or tracker.currentCommit }.updateWatchers

def registerPageWatcher (tracker : BranchTracker) (baseCommit : CommitId) (keyPrefix : Key) :
    BranchTracker :=
  { tracker with watchers := tracker.watchers ++ [.new keyPrefix baseCommit] }

def updateWatcher (tracker : BranchTracker) (index : Nat)
    (react : PageWatcherContainer → Option PageWatcherContainer) : Option BranchTracker :=
  match tracker.watchers[index]? with
  | none => none
  | some watcher => (react watcher).map fun next =>
    { tracker with watchers := tracker.watchers.set index next }

/-- The client closes a watcher: its container is destroyed, which calls its callback. -/
def disconnect (tracker : BranchTracker) (index : Nat) : BranchTracker :=
  { tracker with watchers := tracker.watchers.eraseIdx index }

variable {graph} {tracker next : BranchTracker}

theorem ancestor_followCommits (head : CommitId) (commits : List CommitId) :
    (followCommits graph head commits).2 = true ∧
        graph.StrictAncestor head (followCommits graph head commits).1 ∨
      followCommits graph head commits = (head, false) := by
  induction commits using List.reverseRecOn with
  | nil => exact .inr rfl
  | append_singleton commits commit ih =>
    rw [followCommits, List.foldl_append, List.foldl_cons, List.foldl_nil, ← followCommits]
    split
    case isTrue => exact ih
    case isFalse =>
      split
      case isFalse => exact ih
      case isTrue isParent =>
        refine .inl ⟨rfl, ?_⟩
        rcases ih with ⟨-, strict⟩ | isHead
        · exact Relation.TransGen.tail strict isParent
        · rw [isHead] at isParent
          exact .of_parent isParent

/-- What `OnNewCommits` does: nothing, or the head moves to a descendant and is told to the
watchers unless a transaction is in progress. -/
theorem onNewCommits_cases (tracker : BranchTracker) (commits : List CommitId) :
    tracker.onNewCommits graph commits = tracker ∨
      ∃ head, graph.StrictAncestor tracker.currentCommitId head ∧
        tracker.onNewCommits graph commits = { tracker with
          currentCommitId := head
          currentCommit := some head
          watchers :=
            if tracker.transactionInProgress then tracker.watchers
            else tracker.watchers.map fun watcher => watcher.updateCommit head } := by
  rcases @ancestor_followCommits graph tracker.currentCommitId commits with
    ⟨hasMoved, strict⟩ | unmoved
  · refine .inr ⟨_, strict, ?_⟩
    simp [onNewCommits, hasMoved]
  · refine .inl ?_
    simp [onNewCommits, unmoved]

end BranchTracker

end Peridot
