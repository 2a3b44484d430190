import Peridot.AddCommitsRules
import Peridot.CommitHistory
import Peridot.CommitSync

/-!
# What is stored of a history

The calls of a page whose commits belong to one history store only commits of it, and mark
as unsynced, with their generations, only commits that they store.
-/

namespace Peridot

open List

variable {formats : StorageFormats} {α β : Type}

open Coroutine

def writeDiscipline (formats : StorageFormats) (allowed : List Write → Prop) :
    Discipline (PageOp formats) PageOp.Reply Unit where
  permits
    | _, .execute writes => allowed writes
    | _, _ => True
  learn known _ _ := known

abbrev Writes (allowed : List Write → Prop) (routine : PageRoutine formats α)
    (post : α → Prop) : Prop :=
  ObeysExcept (writeDiscipline formats allowed) routine () (fun value _ => post value)
    fun _ => True

variable {routine : PageRoutine formats α} {post : α → Prop}

section Writes

variable {allowed : List Write → Prop}

theorem Writes.bind {f : α → PageRoutine formats β}
    {post : β → Prop} (writes : Writes allowed routine fun value => Writes allowed (f value) post) :
    Writes allowed (routine >>= f) post :=
  ObeysExcept.bind writes

theorem Writes.mono {weaker : α → Prop}
    (writes : Writes allowed routine post) (implies : ∀ value, post value → weaker value) :
    Writes allowed routine weaker :=
  ObeysExcept.mono writes fun value _ => implies value

theorem Writes.pure {value : α} (holds : post value) :
    Writes allowed (Pure.pure value : PageRoutine formats α) post :=
  ObeysExcept.pure holds

theorem Writes.throw {fault : Fault} :
    Writes allowed (MonadExcept.throw fault : PageRoutine formats α) post :=
  ObeysExcept.throw trivial

theorem Writes.perform {op : PageOp formats} {f : op.Reply → PageRoutine formats α}
    (permitted : (writeDiscipline formats allowed).permits () op)
    (writes : ∀ reply, Writes allowed (f reply) post) :
    Writes allowed (ExceptT.lift (.perform op) >>= f) post :=
  ObeysExcept.bind (ObeysExcept.lift (.perform permitted writes))

/-- A routine that starts with another one, which does not fail. -/
theorem Writes.ask {attempt : PageCoroutine formats β} {f : β → PageRoutine formats α}
    {known : β → Prop}
    (obeys : attempt.Obeys (writeDiscipline formats allowed) () fun reply _ => known reply)
    (writes : ∀ reply, known reply → Writes allowed (f reply) post) :
    Writes allowed (ExceptT.lift attempt >>= f) post :=
  ObeysExcept.bind (ObeysExcept.lift (obeys.mono fun reply _ => writes reply))

theorem writes_returnOnError {attempt : PageCoroutine formats (Except Status α)}
    (obeys : attempt.Obeys (writeDiscipline formats allowed) ()
      fun reply _ => ∀ value, reply = .ok value → post value) :
    Writes allowed (returnOnError attempt) post := by
  refine ObeysExcept.bind (ObeysExcept.lift (obeys.mono fun reply _ holds => ?_))
  cases reply with
  | ok value => exact holds value rfl
  | error status => trivial

theorem writes_addWrite (batch : List Write) (write : Write) :
    Writes allowed (addWrite batch write : PageRoutine formats (List Write)) fun result =>
      result = batch ++ [write] :=
  .bind (writes_returnOnError (.perform trivial fun _ _ _ => .pure rfl))

theorem obeys_writes_containsCommit (id : CommitId) :
    (containsCommit id : PageCoroutine formats Status).Obeys (writeDiscipline formats allowed) ()
      fun _ _ => True := by
  unfold containsCommit
  split
  · trivial
  · refine Obeys.bind (.perform trivial fun reply => ?_)
    cases reply <;> trivial

end Writes

namespace CommitHistory

variable {code : CommitCode formats} (history : CommitHistory code)

def Holds (commit : Commit formats) : Prop :=
  history.find commit.id = some commit.toImpl

/-- The batch stores commits of the history, and marks as unsynced, with their generations,
commits that it stores. -/
structure Stores (batch : List Write) : Prop where
  commits : ∀ write ∈ batch, ∀ id, write.row = .commit id →
    ∃ commit : Commit formats, history.Holds commit ∧
      write = .put (.commit commit.id) commit.storageBytes
  unsynced : ∀ write ∈ batch, ∀ id, write.row = .unsyncedCommit id → write.isPut = true →
    ∃ commit : Commit formats, history.Holds commit ∧
      write = .put (.unsyncedCommit commit.id) commit.generation ∧
      ∃ added ∈ batch, added.row = .commit commit.id

variable {history} {batch : List Write} {source : ChangeSource}

theorem Stores.nil : history.Stores [] :=
  ⟨by simp, by simp⟩

theorem Stores.append {writes : List Write} (stores : history.Stores batch)
    (more : history.Stores writes) : history.Stores (batch ++ writes) := by
  refine ⟨fun write member => ?_, fun write member id isRow isPut => ?_⟩
  · exact (mem_append.mp member).elim (stores.commits write) (more.commits write)
  · rcases mem_append.mp member with earlier | new
    · obtain ⟨commit, held, isWrite, added, inBatch, isCommit⟩ :=
        stores.unsynced write earlier id isRow isPut
      exact ⟨commit, held, isWrite, added, mem_append_left _ inBatch, isCommit⟩
    · obtain ⟨commit, held, isWrite, added, inWrites, isCommit⟩ :=
        more.unsynced write new id isRow isPut
      exact ⟨commit, held, isWrite, added, mem_append_right _ inWrites, isCommit⟩

theorem Stores.of_isOther {write : Write} (isOther : write.IsOther) : history.Stores [write] := by
  refine ⟨fun written member id isRow => ?_, fun written member id isRow isPut => ?_⟩
  · rw [mem_singleton.mp member] at isRow
    exact absurd isRow (isOther id).1
  · rw [mem_singleton.mp member] at isRow isPut
    exact nomatch ((isOther id).2 isRow).symm.trans isPut

theorem Stores.commit {commit : Commit formats} (held : history.Holds commit) :
    history.Stores [.put (.commit commit.id) commit.storageBytes] := by
  refine ⟨fun write member id isRow => ?_, by simp [Write.row]⟩
  exact ⟨commit, held, mem_singleton.mp member⟩

theorem Stores.unsyncedCommit {commit : Commit formats} (held : history.Holds commit) :
    history.Stores [.put (.commit commit.id) commit.storageBytes,
      .put (.unsyncedCommit commit.id) commit.generation] := by
  refine ⟨fun write member id isRow => ?_, fun write member id isRow isPut => ?_⟩
  · rcases mem_pair.mp member with rfl | rfl
    · exact ⟨commit, held, rfl⟩
    · cases isRow
  · rcases mem_pair.mp member with rfl | rfl
    · cases isRow
    · exact ⟨commit, held, rfl, _, mem_cons_self, rfl⟩

theorem addInvariant_stores :
    AddInvariant (writeDiscipline formats history.Stores) source (fun _ batch pending =>
      history.Stores batch ∧ ∀ commit ∈ pending, history.Holds commit) (fun _ _ => True)
      (fun _ _ => True) fun _ => True where
  quiet known op isQuiet := by
    cases op with
    | execute => cases isQuiet
    | _ => exact ⟨trivial, fun _ => rfl⟩
  failed _ := trivial
  contains stores id := (obeys_writes_containsCommit id).mono fun _ _ _ =>
    ⟨stores, fun _ _ => trivial, fun _ => trivial, fun _ => trivial⟩
  other stores isOther := ⟨stores.1.append (.of_isOther isOther), stores.2⟩
  skip {_ _ commit _ _} stores _ := by
    refine ⟨stores.1.append ?_, fun other member => stores.2 other (by grind)⟩
    cases source with
    | localChange => exact .nil
    | sync => exact .of_isOther (by simp [Write.IsOther, Write.row, Write.isPut])
  store stores _ := by
    refine ⟨stores.1.append ?_, fun other member => stores.2 other (by grind)⟩
    cases source with
    | localChange => exact .unsyncedCommit (stores.2 _ (by simp))
    | sync => exact .commit (stores.2 _ (by simp))

variable {commits : List (Commit formats)} {idsAndBytes : List CommitIdAndBytes}

theorem writes_prepareCommits (fuel : Nat) (held : ∀ commit ∈ commits, history.Holds commit)
    (newObjects : List ObjectIdentifier) :
    Writes history.Stores (prepareCommits fuel commits source newObjects) fun prepared =>
      history.Stores prepared.1 :=
  (addInvariant_stores.prepareCommits fuel ⟨.nil, held⟩ newObjects).mono fun _ _ stores => stores.1

theorem writes_withLock (writes : Writes history.Stores routine post) :
    Writes history.Stores (withLock routine) post := by
  refine .bind (writes_returnOnError (.perform trivial fun _ _ _ => ?_))
  refine .ask (Obeys.mono writes fun result _ holds =>
    (?_ : ∀ value, result = .ok value → post value)) ?_
  · rintro value rfl
    exact holds
  refine fun result holds => .perform trivial fun _ => ?_
  cases result with
  | ok value => exact .pure (holds value rfl)
  | error fault => exact .throw

theorem writes_addCommits (fuel : Nat) (held : ∀ commit ∈ commits, history.Holds commit)
    (newObjects : List ObjectIdentifier) :
    Writes history.Stores (synchronousAddCommits fuel commits source newObjects) fun _ => True := by
  refine writes_withLock (.bind (.mono (writes_prepareCommits fuel held newObjects) ?_))
  rintro ⟨batch, sent⟩ stores
  refine .perform stores fun executed => .perform trivial fun _ => ?_
  exact writes_returnOnError fun _ _ => trivial

theorem writes_markCommitSynced (commitId : CommitId) :
    Writes history.Stores (synchronousMarkCommitSynced commitId : PageRoutine formats Unit)
      fun _ => True := by
  refine .bind (writes_returnOnError (.perform trivial fun _ _ _ => ?_))
  refine .bind (.mono (writes_addWrite _ _) ?_)
  rintro _ rfl
  exact writes_returnOnError (.perform (Stores.of_isOther (by simp [Write.IsOther, Write.row, Write.isPut]))
    fun _ _ _ => trivial)

def Receives (history : CommitHistory code) (idAndBytes : CommitIdAndBytes) : Prop :=
  ∀ commit, Commit.fromStorageBytes formats idAndBytes.id idAndBytes.bytes = .ok commit →
    history.Holds commit

theorem writes_newCommits (received : ∀ idAndBytes ∈ idsAndBytes, history.Receives idAndBytes) :
    Writes history.Stores (newCommits idsAndBytes : PageRoutine formats _) fun commits =>
      ∀ commit ∈ commits, history.Holds commit := by
  induction idsAndBytes with
  | nil => exact .pure (by simp)
  | cons idAndBytes idsAndBytes ih =>
    obtain ⟨first, rest⟩ := forall_mem_cons.mp received
    refine .ask (obeys_writes_containsCommit idAndBytes.id) fun status _ => ?_
    cases status with
    | ok => exact .bind (.mono (writes_markCommitSynced _) fun _ _ => ih rest)
    | notFound =>
      refine .bind (writes_returnOnError fun commit parsed => ?_)
      refine .bind (.mono (ih rest) fun commits held => .pure ?_)
      exact forall_mem_cons.mpr ⟨first commit parsed, held⟩
    | _ => exact .throw

theorem obeys_writes_downloadLeaves (leaves : List (Commit formats)) :
    (downloadLeaves leaves).Obeys (writeDiscipline formats history.Stores) () fun _ _ => True := by
  induction leaves with
  | nil => trivial
  | cons leaf leaves ih =>
    exact Obeys.bind (.perform trivial fun _ => Obeys.bind (ih.mono fun _ _ _ => trivial))

theorem writes_addCommitsFromSync (fuel : Nat)
    (received : ∀ idAndBytes ∈ idsAndBytes, history.Receives idAndBytes) :
    Writes history.Stores (synchronousAddCommitsFromSync fuel idsAndBytes : PageRoutine formats Unit)
      fun _ => True := by
  refine .bind (.mono (writes_withLock (writes_newCommits received)) fun commits held => ?_)
  split
  · exact .pure trivial
  · refine .bind (writes_returnOnError ((obeys_writes_downloadLeaves _).mono fun _ _ _ _ _ => ?_))
    exact writes_addCommits fuel held []

def Adds (history : CommitHistory code) : PageCall formats → Prop
  | .addCommitFromLocal commit _ => history.Holds commit
  | .addCommitsFromSync idsAndBytes => ∀ idAndBytes ∈ idsAndBytes, history.Receives idAndBytes
  | .markCommitSynced _ => True

theorem writes_routine (fuel : Nat) {call : PageCall formats} (adds : history.Adds call) :
    Writes history.Stores (call.routine fuel) fun _ => True := by
  cases call with
  | addCommitFromLocal commit newObjects =>
    exact writes_addCommits fuel (forall_mem_singleton.mpr adds) newObjects
  | addCommitsFromSync idsAndBytes => exact writes_addCommitsFromSync fuel adds
  | markCommitSynced commitId => exact writes_markCommitSynced commitId

end CommitHistory

end Peridot
