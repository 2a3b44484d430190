import Peridot.ForEachEntry
import Peridot.JournalCalls
import Peridot.PageHeads

/-!
# Committing a journal

The commit of a journal holds the contents of the base with the last operation on every key
applied.  A journal of one parent that changes nothing is committed by its base.
-/

namespace Peridot

open JournalRows

variable {formats : StorageFormats} {ids : NodeIdentifiers} {env : JournalEnv formats}
  {state next final : JournalState formats ids} {contents : Contents}

open JournalCall JournalState

/-- What a commit holds: nothing if it is the first one, or the entries of its tree. -/
inductive CommitContents (env : JournalEnv formats) (state : JournalState formats ids) :
    CommitId → CommitImpl → Contents → Prop where
  | first : CommitContents env state kFirstPageCommitId
      (.empty (ids.identify NodeBuilder.emptyNode)) fun _ => none
  | stored {commitId : CommitId} {bytes : Bytes} {commit : Commit formats} {contents : Contents}
      (notFirst : commitId ≠ kFirstPageCommitId)
      (inDb : state.page.db.lookup (.commit commitId) = some bytes)
      (parsed : Commit.fromStorageBytes formats commitId bytes = .ok commit)
      (holds : HoldsContents env.level state.nodes.read commit.rootIdentifier contents) :
      CommitContents env state commitId commit.toImpl contents

theorem quiet_getCommit (commitId : CommitId) :
    JournalCall.Keeps Quiet (getCommit env commitId : JournalCall formats ids CommitImpl) := by
  unfold getCommit
  split
  · refine (idle_access _).of_idle.bind .trans fun _ => ?_
    refine JournalCall.Keeps.bind .trans ?_ fun _ => (idle_pure _).of_idle
    exact fun state => ⟨rfl, .writePieces _ _⟩
  · refine (idle_access _).of_idle.bind .trans fun _ => ?_
    exact (idle_ofResult _).of_idle.bind .trans fun _ => (idle_pure _).of_idle

theorem extends_getCommit (commitId : CommitId) :
    JournalCall.Keeps (fun before after => NodeStore.Extends after.nodes.read before.nodes.read)
      (getCommit env commitId : JournalCall formats ids CommitImpl) := by
  have idle : ∀ {α : Type} {call : JournalCall formats ids α}, JournalCall.Keeps Idle call →
      JournalCall.Keeps (fun before after =>
        NodeStore.Extends after.nodes.read before.nodes.read) call := by
    intro α call keeps state
    rw [(keeps state).nodes]
    exact .refl _
  unfold getCommit
  split
  · refine (idle (idle_access _)).bind (fun before after => after.trans before) fun _ => ?_
    refine JournalCall.Keeps.bind (fun before after => after.trans before) ?_ fun _ =>
      idle (idle_pure _)
    exact fun state => NodeStore.add_extends _ _
  · refine (idle (idle_access _)).bind (fun before after => after.trans before) fun _ => ?_
    exact (idle (idle_ofResult _)).bind (fun before after => after.trans before)
      fun _ => idle (idle_pure _)

variable {commit : CommitImpl}

theorem getCommit_eq_ok {commitId : CommitId} {stored : CommitImpl}
    (succeeds : getCommit env commitId state = (.ok commit, next))
    (isCommit : CommitContents env state commitId stored contents) :
    commit = stored ∧ HoldsContents env.level next.nodes.read commit.rootIdentifier contents := by
  have larger := @extends_getCommit formats ids env commitId state
  rw [succeeds] at larger
  cases isCommit with
  | first =>
    rw [getCommit, if_pos rfl] at succeeds
    obtain ⟨⟨⟩, middle, -, succeeds⟩ := bind_eq_ok.mp succeeds
    obtain ⟨⟨⟩, after, adds, returns⟩ := bind_eq_ok.mp succeeds
    cases returns
    cases adds
    exact ⟨rfl, holdsContents_emptyNode _ _⟩
  | stored notFirst inDb parsed holds =>
    rw [getCommit, if_neg notFirst] at succeeds
    obtain ⟨bytes, middle, reads, succeeds⟩ := bind_eq_ok.mp succeeds
    obtain ⟨found, after, parses, returns⟩ := bind_eq_ok.mp succeeds
    have isBytes := (access_eq_ok reads).1
    rw [PageDb.read, inDb] at isBytes
    cases isBytes
    have isParsed := congrArg Prod.fst parses
    simp only [ofResult, parsed] at isParsed
    cases isParsed
    cases returns
    exact ⟨rfl, holds.mono larger⟩

theorem quiet_getParents :
    JournalCall.Keeps Quiet (JournalImpl.getParents env : JournalCall formats ids _) := by
  refine idle_get.of_idle.bind .trans fun state => ?_
  refine (quiet_getCommit _).bind .trans fun base => ?_
  split
  · exact (idle_pure _).of_idle
  · exact (quiet_getCommit _).bind .trans fun _ => (idle_pure _).of_idle

variable {base : CommitImpl} {other : Option CommitImpl}

theorem getParents_eq_ok (succeeds : JournalImpl.getParents env state = (.ok (base, other), next))
    (isBase : CommitContents env state state.journal.base commit contents) :
    base = commit ∧ other.isSome = state.journal.other.isSome ∧
      HoldsContents env.level next.nodes.read base.rootIdentifier contents := by
  obtain ⟨_, _, gets, succeeds⟩ := bind_eq_ok.mp succeeds
  cases gets
  obtain ⟨found, middle, getsBase, succeeds⟩ := bind_eq_ok.mp succeeds
  obtain ⟨isCommit, holds⟩ := getCommit_eq_ok getsBase isBase
  rcases others : state.journal.other with - | otherId <;> rw [others] at succeeds
  · cases succeeds
    exact ⟨isCommit, rfl, holds⟩
  · obtain ⟨foundOther, after, getsOther, returns⟩ := bind_eq_ok.mp succeeds
    have larger := @extends_getCommit formats ids env otherId middle
    rw [getsOther] at larger
    cases returns
    exact ⟨isCommit, rfl, holds.mono larger⟩

theorem idle_getJournalEntries :
    JournalCall.Keeps Idle (getJournalEntries : JournalCall formats ids _) :=
  idle_get.bind .trans fun _ => idle_access _

variable {changes : List EntryChange}

theorem getJournalEntries_eq_ok (succeeds : getJournalEntries state = (.ok changes, next)) :
    changes = (state.page.db.journalRows state.journal.id).changes ∧ Idle state next := by
  obtain ⟨_, _, gets, succeeds⟩ := bind_eq_ok.mp succeeds
  cases gets
  obtain ⟨isChanges, idle⟩ := access_eq_ok succeeds
  exact ⟨(Except.ok.inj isChanges).symm, idle⟩

theorem quiet_applyChangesOnPage (root : ObjectIdentifier) (changes : List EntryChange) :
    JournalCall.Keeps Quiet (applyChangesOnPage env root changes : JournalCall formats ids _) := by
  refine (idle_access _).of_idle.bind .trans fun _ => ?_
  refine JournalCall.Keeps.get fun state => ?_
  rcases applyChanges env.level env.fuel env.indeterminate state.nodes root ⟨changes, .ok⟩ with
    fault | result
  · exact .refl state
  · exact ⟨rfl, .writePieces _ _⟩

theorem applyChangesOnPage_eq_ok {root newRoot : ObjectIdentifier} {newNodes : List ObjectIdentifier}
    (succeeds : applyChangesOnPage env root changes state = (.ok (newRoot, newNodes), next)) :
    ∃ result, applyChanges env.level env.fuel env.indeterminate state.nodes root ⟨changes, .ok⟩ =
      .ok result ∧ newRoot = result.root ∧ next.nodes = result.store := by
  obtain ⟨⟨⟩, middle, accesses, succeeds⟩ := bind_eq_ok.mp succeeds
  obtain ⟨_, _, gets, succeeds⟩ := bind_eq_ok.mp succeeds
  cases gets
  rw [← (access_eq_ok accesses).2.nodes]
  rcases applied : applyChanges env.level env.fuel env.indeterminate middle.nodes root
    ⟨changes, .ok⟩ with fault | result <;> rw [applied] at succeeds
  · cases succeeds
  · cases succeeds
    exact ⟨result, rfl, rfl, rfl⟩

theorem idle_getObjectsToSync :
    JournalCall.Keeps Idle (JournalImpl.getObjectsToSync : JournalCall formats ids _) := by
  refine idle_getJournalEntries.bind .trans fun changes => ?_
  refine (idle_mapM fun identifier => ?_).bind .trans fun _ => idle_pure _
  unfold objectIsUntracked
  split
  · exact idle_pure _
  · exact (idle_ofPage (PageWorld.computes_getObjectStatus ∅ identifier).readOnly).bind .trans
      fun _ => idle_pure _

theorem removeJournal_cases (state : JournalState formats ids) :
    ∃ result next, removeJournal state = (result, next) ∧
      next.journal = state.journal ∧ next.nodes = state.nodes ∧
      (result = .ok () ∧ (∀ row, next.page.db.lookup row =
          if row.journal = some state.journal.id then none else state.page.db.lookup row) ∨
        (∃ fault, result = .error fault) ∧ next.page.db = state.page.db) := by
  obtain ⟨result, next, removes, sameJournal, sameNodes, outcome⟩ := mutate_cases
    (if state.journal.id.head? = some kImplicitPrefix then 2 else 1)
    (.removeJournal state.journal.id) state
  refine ⟨result, next, removes, sameJournal, sameNodes, outcome.imp_left fun ⟨isOk, removed⟩ => ?_⟩
  exact ⟨isOk, fun row => by rw [removed, PageDb.lookup_removeJournal]⟩

theorem PageDb.SameRows.sameCommits {before after : PageDb} (same : SameRows before after) :
    SameCommits before after :=
  fun _ => ⟨same _ rfl, same _ rfl⟩

theorem attempt_eq_ok {α : Type} {call : JournalCall formats ids α} {result : Except Fault α}
    (attempted : call.attempt state = (.ok result, next)) : call state = (result, next) := by
  cases attempted
  rfl

namespace JournalImpl

theorem rollbackInternal_eq_ok (succeeds : rollbackInternal state = (.ok (), next)) :
    next.nodes = state.nodes ∧ state.page.db.SameCommits next.page.db := by
  obtain ⟨_, _, gets, succeeds⟩ := bind_eq_ok.mp succeeds
  cases gets
  split at succeeds
  case isFalse => cases succeeds
  case isTrue =>
    obtain ⟨⟨⟩, middle, removes, marks⟩ := bind_eq_ok.mp succeeds
    obtain ⟨result, after, removed, -, sameNodes, outcome⟩ := removeJournal_cases state
    cases removes.symm.trans removed
    cases marks
    rcases outcome with ⟨-, lookups⟩ | ⟨⟨fault, failed⟩, -⟩
    · exact ⟨sameNodes, fun _ => ⟨lookups _, lookups _⟩⟩
    · cases failed

/-- `CreateCommitFromChanges` makes a commit of the base with the changes, or returns the base
when they change nothing. -/
theorem createCommitFromChanges_eq_ok (enough : 257 < env.fuel)
    (holds : HoldsContents env.level state.nodes.read base.rootIdentifier contents)
    (succeeds : createCommitFromChanges env base other changes state = (.ok commit, final)) :
    HoldsContents env.level final.nodes.read commit.rootIdentifier
        (changes.foldl applyToMap contents) ∧
      (other = none → (∀ change ∈ changes, contents change.entry.key = change.result) →
        commit = base ∧ state.page.db.SameCommits final.page.db) := by
  obtain ⟨⟨root, newNodes⟩, middle, applies, succeeds⟩ := bind_eq_ok.mp succeeds
  have quiet := @quiet_applyChangesOnPage formats ids env base.rootIdentifier changes state
  rw [applies] at quiet
  obtain ⟨result, isResult, rfl, sameNodes⟩ := applyChangesOnPage_eq_ok applies
  obtain ⟨expected, -, isExpected, -, -, stored, -⟩ :=
    applyChanges_agree holds holds changes env.indeterminate env.indeterminate enough
  obtain rfl := Except.ok.inj (isResult.symm.trans isExpected)
  rw [← sameNodes] at stored
  dsimp only at succeeds
  split at succeeds
  case isTrue unchanged =>
    obtain ⟨⟨⟩, after, rollsBack, returns⟩ := bind_eq_ok.mp succeeds
    obtain ⟨keptNodes, keptCommits⟩ := rollbackInternal_eq_ok rollsBack
    cases returns
    rw [keptNodes, unchanged.2]
    exact ⟨stored, fun _ _ => ⟨rfl, quiet.rows.sameCommits.trans keptCommits⟩⟩
  case isFalse changed =>
    obtain ⟨objectsToSync, synced, collects, succeeds⟩ := bind_eq_ok.mp succeeds
    obtain ⟨added, after, adds, succeeds⟩ := bind_eq_ok.mp succeeds
    obtain ⟨⟨⟩, marked, marks, succeeds⟩ := bind_eq_ok.mp succeeds
    obtain ⟨⟨⟩, kept, keeps, succeeds⟩ := bind_eq_ok.mp succeeds
    obtain ⟨removed, last, removes, returns⟩ := bind_eq_ok.mp succeeds
    have idle := idle_getObjectsToSync middle
    rw [collects] at idle
    have sameMarked : marked.nodes = middle.nodes := by
      cases marks
      cases attempt_eq_ok adds
      exact idle.nodes
    obtain ⟨outcome, lastState, isRemoved, -, lastNodes, -⟩ := removeJournal_cases kept
    cases (attempt_eq_ok removes).symm.trans isRemoved
    cases keeps
    cases returns
    refine ⟨?_, fun noOther same => ?_⟩
    · rw [lastNodes, sameMarked]
      exact stored
    · exact absurd ⟨noOther, (applyChanges_unchanged holds same enough isResult).symm⟩ changed

theorem commit_eq_ok (enough : 257 < env.fuel)
    (isBase : CommitContents env state state.journal.base base contents)
    (succeeds : JournalImpl.commit env state = (.ok commit, final)) :
    HoldsContents env.level final.nodes.read commit.rootIdentifier
        ((state.page.db.journalRows state.journal.id).result contents) ∧
      (state.journal.other = none →
        (state.page.db.journalRows state.journal.id).result contents = contents →
        commit = base ∧ state.page.db.SameCommits final.page.db) := by
  obtain ⟨_, _, gets, succeeds⟩ := bind_eq_ok.mp succeeds
  cases gets
  split at succeeds
  case isTrue => cases succeeds
  case isFalse =>
    obtain ⟨⟨found, other⟩, middle, getsParents, succeeds⟩ := bind_eq_ok.mp succeeds
    obtain ⟨changes, after, getsEntries, succeeds⟩ := bind_eq_ok.mp succeeds
    have quiet := @quiet_getParents formats ids env state
    rw [getsParents] at quiet
    obtain ⟨rfl, sameOther, holds⟩ := getParents_eq_ok getsParents isBase
    obtain ⟨rfl, idle⟩ := getJournalEntries_eq_ok getsEntries
    rw [quiet.journal, quiet.rows.journalRows] at succeeds
    rw [← idle.nodes] at holds
    obtain ⟨holdsChanged, unchanged⟩ := createCommitFromChanges_eq_ok enough holds succeeds
    have sorted := state.page.db.sorted_journalRows state.journal.id
    have isResult : (state.page.db.journalRows state.journal.id).changes.foldl applyToMap contents =
        (state.page.db.journalRows state.journal.id).result contents :=
      funext fun key => foldl_changes sorted contents
    rw [isResult] at holdsChanged
    refine ⟨holdsChanged, fun noOther same => ?_⟩
    have isNone : other = none := by
      rwa [noOther, Option.isSome_none, Option.isSome_eq_false_iff, Option.isNone_iff_eq_none]
        at sameOther
    obtain ⟨isBase, kept⟩ := unchanged isNone fun change inChanges => by
      obtain ⟨row, inRows, rfl⟩ := List.mem_map.mp inChanges
      rw [change_key, ← congrFun same, result, KeyedList.find_of_mem sorted inRows]
    refine ⟨isBase, PageDb.SameCommits.trans ?_ kept⟩
    rw [idle.db]
    exact quiet.rows.sameCommits

/-- `Put` or `Delete`, by the row that it writes. -/
def perform : Key × JournalValue → JournalCall formats ids Unit
  | (key, .add objectIdentifier priority) => put key objectIdentifier priority
  | (key, .delete) => delete key

theorem write_cases (mutation : JournalId → Mutation) (state : JournalState formats ids) :
    ∃ result next, write mutation state = (result, next) ∧ next.journal.id = state.journal.id ∧
      (result = .ok () ∧ next.page.db = state.page.db.execute [mutation state.journal.id] ∨
        (∃ fault, result = .error fault) ∧ next.page.db = state.page.db) := by
  by_cases closed : state.journal.isClosed = true
  · refine ⟨.error (.status .illegalState), state, ?_, rfl, .inr ⟨⟨_, rfl⟩, rfl⟩⟩
    rw [write, get_bind, if_pos closed]
    rfl
  · obtain ⟨result, next, mutates, sameJournal, -, outcome⟩ :=
      mutate_cases 1 (mutation state.journal.id) state
    have sameId : next.journal.id = state.journal.id := by rw [sameJournal]
    have attempts : (mutate 1 (mutation state.journal.id)).attempt state = (.ok result, next) := by
      rw [attempt, mutates]
    rw [write, get_bind, if_neg closed, bind_of_ok attempts]
    rcases result with fault | ⟨⟩
    · rcases outcome with ⟨isOk, -⟩ | ⟨-, sameDb⟩
      · cases isOk
      · exact ⟨_, _, rfl, sameId, .inr ⟨⟨_, rfl⟩, sameDb⟩⟩
    · rcases outcome with ⟨-, written⟩ | ⟨⟨fault, isError⟩, -⟩
      · exact ⟨_, _, rfl, sameId, .inl ⟨rfl, written⟩⟩
      · cases isError

/-- An operation writes its row, or fails and writes nothing. -/
theorem perform_cases (operation : Key × JournalValue) (state : JournalState formats ids) :
    ∃ result next, perform operation state = (result, next) ∧
      next.journal.id = state.journal.id ∧ (result = .ok () ∧ next.page.db = state.page.db.write
          (.put (.journalEntry state.journal.id operation.1) operation.2) ∨
        (∃ fault, result = .error fault) ∧ next.page.db = state.page.db) := by
  obtain ⟨key, value⟩ := operation
  cases value with
  | add objectIdentifier priority =>
    have written := write_cases (fun id => .addJournalEntry id key objectIdentifier priority) state
    rwa [PageDb.execute_singleton] at written
  | delete =>
    have written := write_cases (fun id => .removeJournalEntry id key) state
    rwa [PageDb.execute_singleton] at written

/-- What happens between the start of a journal and its commit: operations that succeed, those
that fail, and whatever else happens to the page. -/
inductive Operations (start : JournalState formats ids) :
    List (Key × JournalValue) → JournalState formats ids → Prop where
  | start : Operations start [] start
  | performed {operations : List (Key × JournalValue)} {operation : Key × JournalValue}
      {state next : JournalState formats ids} (before : Operations start operations state)
      (succeeds : perform operation state = (.ok (), next)) :
      Operations start (operations ++ [operation]) next
  | failed {operations : List (Key × JournalValue)} {operation : Key × JournalValue}
      {state next : JournalState formats ids} {fault : Fault}
      (before : Operations start operations state)
      (fails : perform operation state = (.error fault, next)) : Operations start operations next
  | elsewhere {operations : List (Key × JournalValue)} {state next : JournalState formats ids}
      (before : Operations start operations state) (sameJournal : next.journal = state.journal)
      (sameRows : ∀ key, next.page.db.lookup (.journalEntry state.journal.id key) =
        state.page.db.lookup (.journalEntry state.journal.id key)) :
      Operations start operations next

theorem Operations.rows {start : JournalState formats ids} {operations : List (Key × JournalValue)}
    (run : Operations start operations state) : state.page.db.journalRows state.journal.id =
      (start.page.db.journalRows start.journal.id).writeAll operations := by
  induction run with
  | start => rfl
  | @performed operations operation state next before succeeds ih =>
    obtain ⟨result, after, performs, sameId, outcome⟩ := perform_cases operation state
    cases succeeds.symm.trans performs
    rcases outcome with ⟨-, written⟩ | ⟨⟨fault, isError⟩, -⟩
    · rw [sameId, written, PageDb.journalRows_put, ih, writeAll, writeAll, List.foldl_append]
      rfl
    · cases isError
  | @failed operations operation state next fault before fails ih =>
    obtain ⟨result, after, performs, sameId, outcome⟩ := perform_cases operation state
    cases fails.symm.trans performs
    rcases outcome with ⟨isOk, -⟩ | ⟨-, sameDb⟩
    · cases isOk
    · rw [sameId, sameDb, ih]
  | elsewhere before sameJournal sameRows ih =>
    rw [sameJournal, PageDb.journalRows_congr sameRows, ih]

def applyOperations (operations : List (Key × JournalValue)) (contents : Contents) : Contents :=
  fun key => match JournalRows.lastOperation operations key with
    | some operation => (operation.2.change operation.1).result
    | none => contents key

/-- A commit holds the contents of its base, or of its left parent, with the last operation on
every key applied.  When this changes nothing and there is one parent, it is the base. -/
theorem commit_contents {start : JournalState formats ids}
    {operations : List (Key × JournalValue)} {base commit : CommitImpl} (enough : 257 < env.fuel)
    (isNew : start.page.db.journalRows start.journal.id = [])
    (run : Operations start operations state)
    (isBase : CommitContents env state state.journal.base base contents)
    (succeeds : JournalImpl.commit env state = (.ok commit, final)) :
    HoldsContents env.level final.nodes.read commit.rootIdentifier
        (applyOperations operations contents) ∧
      (state.journal.other = none → applyOperations operations contents = contents →
        commit = base ∧ state.page.db.SameCommits final.page.db) := by
  have rows := run.rows
  rw [isNew] at rows
  have isResult : (state.page.db.journalRows state.journal.id).result contents =
      applyOperations operations contents := by
    funext key
    rw [rows, result, find_writeAll, applyOperations]
    cases JournalRows.lastOperation operations key <;> rfl
  have committed := commit_eq_ok enough isBase succeeds
  rwa [isResult] at committed

/-- `GetEntryFromCommit` reads what the operations of a journal have made of the base. -/
theorem getEntryFromCommit_commit {start : JournalState formats ids}
    {operations : List (Key × JournalValue)} {base commit : CommitImpl} (enough : 257 < env.fuel)
    (isNew : start.page.db.journalRows start.journal.id = [])
    (run : Operations start operations state)
    (isBase : CommitContents env state state.journal.base base contents)
    (succeeds : JournalImpl.commit env state = (.ok commit, final)) (key : Key) :
    ∃ bound, ∀ fuel ≥ bound, getEntryFromCommit ids final.nodes.read fuel commit key =
      .ok [match applyOperations operations contents key with
        | some entry => (.ok, entry)
        | none => (.notFound, default)] := by
  obtain ⟨tree, wellFormed, isContents⟩ := (commit_eq_ok enough isBase succeeds).1
  obtain ⟨bound, reads⟩ := getEntryFromCommit_eq ids wellFormed key
  refine ⟨bound, fun fuel isEnough => (reads fuel isEnough commit rfl).trans ?_⟩
  rw [isContents, run.rows, isNew, result, find_writeAll, applyOperations]
  cases JournalRows.lastOperation operations key <;> rfl

noncomputable section

def undoneEnv : JournalEnv codeFormats where
  code := .byCode
  level _ := 0
  fuel := 258
  indeterminate := false
  now := 0
  pieces _ := []

def undoneStart : JournalState codeFormats .byCode where
  journal := ⟨.implicit, sampleJournalId, kFirstPageCommitId, none, true, false⟩
  page := .emptyPage codeFormats
  nodes := .initial .byCode

def undoneOperations : List (Key × JournalValue) :=
  [([1], .add default .eager), ([1], .delete)]

def undoneState : JournalState codeFormats .byCode :=
  (perform ([1], .delete) (perform ([1], .add default .eager) undoneStart).2).2

def undoneBase : CommitImpl :=
  .empty (NodeIdentifiers.byCode.identify NodeBuilder.emptyNode)

theorem journalRows_undoneStart : undoneStart.page.db.journalRows undoneStart.journal.id = [] := by
  refine List.eq_nil_iff_forall_not_mem.mpr fun ⟨key, value⟩ inRows => ?_
  cases PageDb.mem_journalRows.mp inRows

theorem operations_undone : Operations undoneStart undoneOperations undoneState :=
  .performed (.performed .start rfl) rfl

theorem commit_undone : ∃ final,
    JournalImpl.commit undoneEnv undoneState = (.ok undoneBase, final) := by
  have succeeds : (JournalImpl.commit undoneEnv undoneState).1 = .ok undoneBase := by
    decide +kernel
  exact ⟨_, Prod.ext succeeds rfl⟩

def madeOperations : List (Key × JournalValue) :=
  [([1], .add default .eager)]

def madeState : JournalState codeFormats .byCode :=
  (perform ([1], .add default .eager) undoneStart).2

def madeStorage : CommitStorage :=
  ⟨0, 1, NodeIdentifiers.byCode.identify ⟨0, [⟨[1], default, .eager⟩], [], sorted_childless⟩,
    [kFirstPageCommitId]⟩

def madeCommit : CommitImpl :=
  ⟨commitCode madeStorage, madeStorage⟩

theorem applyOperations_undone :
    applyOperations undoneOperations (fun _ => none) = fun _ => none := by
  funext key
  rw [applyOperations, undoneOperations]
  by_cases isKey : [1] = key <;> simp [JournalRows.lastOperation, isKey]
  rfl

theorem commit_contents_undone : (∃ final : JournalState codeFormats .byCode,
      JournalImpl.commit undoneEnv madeState = (.ok madeCommit, final) ∧
        HoldsContents undoneEnv.level final.nodes.read madeCommit.rootIdentifier
          (applyOperations madeOperations fun _ => none)) ∧
    ∃ final : JournalState codeFormats .byCode,
      JournalImpl.commit undoneEnv undoneState = (.ok undoneBase, final) ∧
        HoldsContents undoneEnv.level final.nodes.read undoneBase.rootIdentifier
          (applyOperations undoneOperations fun _ => none) ∧
        undoneState.page.db.SameCommits final.page.db := by
  have made : (JournalImpl.commit undoneEnv madeState).1 = .ok madeCommit := by
    decide +kernel
  have madeRun : Operations undoneStart madeOperations madeState := .performed .start rfl
  have madeHolds := (commit_contents (by decide) journalRows_undoneStart madeRun .first
    (Prod.ext made rfl)).1
  obtain ⟨final, succeeds⟩ := commit_undone
  obtain ⟨holds, unchanged⟩ := commit_contents (by decide) journalRows_undoneStart
    operations_undone .first succeeds
  exact ⟨⟨_, Prod.ext made rfl, madeHolds⟩, final, succeeds, holds,
    (unchanged rfl applyOperations_undone).2⟩

theorem getEntryFromCommit_commit_undone : ∃ final bound,
    JournalImpl.commit undoneEnv undoneState = (.ok undoneBase, final) ∧ ∀ fuel ≥ bound,
      getEntryFromCommit .byCode final.nodes.read fuel undoneBase [1] =
        .ok [(.notFound, default)] := by
  obtain ⟨final, succeeds⟩ := commit_undone
  obtain ⟨bound, reads⟩ := getEntryFromCommit_commit (by decide) journalRows_undoneStart
    operations_undone .first succeeds [1]
  exact ⟨final, bound, succeeds, reads⟩

end

end JournalImpl

end Peridot
