import Peridot.AddCommitsRules
import Peridot.CommitSync

/-!
# The calls keep to the discipline

Each call permits only what it knows of the commits: it marks a commit as unsynced only
when it has not found it under the lock, and what it receives from sync is settled at its
end.
-/

namespace Peridot

open List PageDb Function

open Coroutine

variable {formats : StorageFormats} {α β : Type}

namespace CommitKnowledge

structure Extends (known more : CommitKnowledge) : Prop where
  locked : more.locked = known.locked
  absent : ∀ id, known.absent id → more.absent id
  stored : ∀ id, known.stored id → more.stored id
  settled : ∀ id, known.settled id → more.settled id

theorem Extends.refl (known : CommitKnowledge) : known.Extends known :=
  ⟨rfl, fun _ => id, fun _ => id, fun _ => id⟩

theorem Extends.trans {first second third : CommitKnowledge} (before : first.Extends second)
    (after : second.Extends third) : first.Extends third :=
  ⟨after.locked.trans before.locked, fun id absent => after.absent id (before.absent id absent),
    fun id stored => after.stored id (before.stored id stored),
    fun id settled => after.settled id (before.settled id settled)⟩

/-- The lock is as it was, and what is stored and settled stays so. -/
structure Gains (known more : CommitKnowledge) : Prop where
  locked : more.locked = known.locked
  stored : ∀ id, known.stored id → more.stored id
  settled : ∀ id, known.settled id → more.settled id

theorem Extends.gains {known more : CommitKnowledge} (extend : known.Extends more) :
    known.Gains more :=
  ⟨extend.locked, extend.stored, extend.settled⟩

theorem Gains.refl (known : CommitKnowledge) : known.Gains known :=
  (Extends.refl known).gains

theorem Gains.trans {first second third : CommitKnowledge} (before : first.Gains second)
    (after : second.Gains third) : first.Gains third :=
  ⟨after.locked.trans before.locked, fun id stored => after.stored id (before.stored id stored),
    fun id settled => after.settled id (before.settled id settled)⟩

end CommitKnowledge

open CommitKnowledge

abbrev Keeps (routine : PageRoutine formats α) (known : CommitKnowledge)
    (post : α → CommitKnowledge → Prop) : Prop :=
  ObeysExcept commitDiscipline routine known post fun final => final.locked = known.locked

variable {known : CommitKnowledge} {routine : PageRoutine formats α}

theorem Keeps.bind {f : α → PageRoutine formats β}
    {post : β → CommitKnowledge → Prop} (keeps : Keeps routine known fun value middle =>
      middle.locked = known.locked ∧ Keeps (f value) middle post) :
    Keeps (routine >>= f) known post := by
  refine ObeysExcept.bind (ObeysExcept.mono keeps fun value middle holds => ?_)
  rw [← holds.1]
  exact holds.2

/-- An access to the database that tells nothing of the commits. -/
theorem keeps_returnOnError {attempt : PageCoroutine formats (Except Status α)}
    {post : α → CommitKnowledge → Prop}
    (obeys : attempt.Obeys commitDiscipline known fun reply final =>
      final.locked = known.locked ∧ ∀ value, reply = .ok value → post value final) :
    Keeps (returnOnError attempt) known post := by
  refine ObeysExcept.bind (ObeysExcept.lift (obeys.mono fun reply final holds => ?_))
  cases reply with
  | ok value => exact holds.2 value rfl
  | error status => exact holds.1

theorem keeps_addWrite (batch : List Write) (write : Write) :
    Keeps (addWrite batch write : PageRoutine formats (List Write)) known fun result final =>
      result = batch ++ [write] ∧ final = known := by
  refine Keeps.bind (keeps_returnOnError (.perform trivial fun reply => ?_))
  exact ⟨rfl, fun _ _ => ⟨rfl, .pure ⟨rfl, rfl⟩⟩⟩

/-- `ContainsCommit` tells whether a commit is stored; under the lock it stays away. -/
theorem obeys_containsCommit (id : CommitId) :
    (containsCommit id : PageCoroutine formats Status).Obeys commitDiscipline known
      fun status final => known.Extends final ∧
        (status = .ok → id = kFirstPageCommitId ∨ final.stored id) ∧
        (status = .notFound → known.locked = true → final.absent id) := by
  unfold containsCommit
  split
  case isTrue isFirst => exact ⟨.refl known, fun _ => .inl isFirst, by simp⟩
  case isFalse notFirst =>
    refine Obeys.bind (.perform trivial fun reply => ?_)
    cases reply with
    | ok storageBytes =>
      refine ⟨⟨rfl, fun _ holds => holds, fun _ => .inr, fun _ holds => holds⟩, fun _ => ?_, by simp⟩
      exact .inr (.inl rfl)
    | error status =>
      cases status with
      | notFound =>
        refine ⟨⟨rfl, fun _ => .inr, fun _ holds => holds, fun _ holds => holds⟩, by simp, ?_⟩
        exact fun _ locked => .inl ⟨locked, rfl, notFirst⟩
      | ok =>
        refine ⟨⟨rfl, fun _ holds => holds, fun _ => .inr, fun _ holds => holds⟩, fun _ => ?_,
          by simp⟩
        exact .inr (.inl rfl)
      | _ => exact ⟨.refl known, by simp, by simp⟩

/-- A batch that can be executed: it adds commits, and marks as unsynced only commits that
it adds, that are absent and that are local. -/
structure BatchKnown (source : ChangeSource) (known : CommitKnowledge) (batch : List Write) :
    Prop where
  commits : ∀ write ∈ batch, ∀ id, write.row = .commit id → write.isPut = true
  unsynced : ∀ write ∈ batch, ∀ id, write.row = .unsyncedCommit id → write.isPut = true →
    source = .localChange ∧ known.absent id ∧ ∃ added ∈ batch, added.row = .commit id

def Handled (known : CommitKnowledge) (batch : List Write) (id : CommitId) : Prop :=
  ((id = kFirstPageCommitId ∨ known.stored id) ∧ ∃ write ∈ batch, write.row = .unsyncedCommit id) ∨
    known.absent id ∧ ∃ write ∈ batch, write.row = .commit id

variable {source : ChangeSource} {more : CommitKnowledge} {batch writes : List Write} {id : CommitId}

theorem BatchKnown.mono (batchKnown : BatchKnown source known batch) (extend : known.Extends more) :
    BatchKnown source more batch :=
  ⟨batchKnown.commits, fun write member id isRow isPut =>
    (batchKnown.unsynced write member id isRow isPut).imp_right fun found =>
      ⟨extend.absent id found.1, found.2⟩⟩

theorem BatchKnown.append (batchKnown : BatchKnown source known batch)
    (others : BatchKnown source known writes) : BatchKnown source known (batch ++ writes) := by
  refine ⟨fun write member => ?_, fun write member id isRow isPut => ?_⟩
  · exact (mem_append.mp member).elim (batchKnown.commits write) (others.commits write)
  · rcases mem_append.mp member with earlier | new
    · obtain ⟨isLocal, absent, added, inBatch, isCommit⟩ :=
        batchKnown.unsynced write earlier id isRow isPut
      exact ⟨isLocal, absent, added, mem_append_left _ inBatch, isCommit⟩
    · obtain ⟨isLocal, absent, added, inWrites, isCommit⟩ :=
        others.unsynced write new id isRow isPut
      exact ⟨isLocal, absent, added, mem_append_right _ inWrites, isCommit⟩

theorem BatchKnown.of_isOther {write : Write} (isOther : write.IsOther) :
    BatchKnown source known [write] := by
  refine ⟨fun written member id isRow => ?_, fun written member id isRow isPut => ?_⟩
  · rw [mem_singleton.mp member] at isRow
    exact absurd isRow (isOther id).1
  · rw [mem_singleton.mp member] at isRow isPut
    exact nomatch ((isOther id).2 isRow).symm.trans isPut

variable {commit : Commit formats}

theorem BatchKnown.commitWrites (absent : known.absent commit.id) :
    BatchKnown source known (PageDb.commitWrites source commit) := by
  cases source with
  | localChange =>
    refine ⟨fun write member id isRow => ?_, fun write member id isRow isPut => ?_⟩
    · rcases mem_pair.mp member with rfl | rfl <;> rfl
    · rcases mem_pair.mp member with rfl | rfl
      · cases isRow
      · cases isRow
        exact ⟨rfl, absent, _, mem_cons_self, rfl⟩
  | sync =>
    refine ⟨fun write member id isRow => ?_, fun write member id isRow isPut => ?_⟩
    · rw [mem_singleton.mp member]
      rfl
    · rw [mem_singleton.mp member] at isRow
      cases isRow

theorem Handled.mono (handled : Handled known batch id) (extend : known.Extends more) :
    Handled more batch id :=
  handled.imp (.imp_left (.imp_right (extend.stored id))) (.imp_left (extend.absent id))

theorem Handled.append (handled : Handled known batch id) (writes : List Write) :
    Handled known (batch ++ writes) id := by
  rcases handled with ⟨stored, write, member, isRow⟩ | ⟨absent, write, member, isRow⟩
  · exact .inl ⟨stored, write, mem_append_left _ member, isRow⟩
  · exact .inr ⟨absent, write, mem_append_left _ member, isRow⟩

/-- What `SynchronousAddCommits` has learned, its batch, and the commits that it has not handled. -/
structure Adding (source : ChangeSource) (start : CommitKnowledge)
    (commits : List (Commit formats)) (known : CommitKnowledge) (batch : List Write)
    (pending : List (Commit formats)) : Prop where
  extends_start : start.Extends known
  batchKnown : BatchKnown source known batch
  handled : source = .sync → ∀ commit ∈ commits, Handled known batch commit.id ∨ commit ∈ pending

section

variable {start : CommitKnowledge} {commits pending first rest : List (Commit formats)}

section

variable (adding : Adding source start commits known batch pending)
include adding

theorem Adding.mono (extend : known.Extends more) :
    Adding source start commits more batch pending where
  extends_start := adding.extends_start.trans extend
  batchKnown := adding.batchKnown.mono extend
  handled isSync commit member :=
    (adding.handled isSync commit member).imp_left fun handled => handled.mono extend

theorem Adding.write {write : Write}
    (isOther : write.IsOther) : Adding source start commits known (batch ++ [write]) pending where
  extends_start := adding.extends_start
  batchKnown := adding.batchKnown.append (.of_isOther isOther)
  handled isSync commit member :=
    (adding.handled isSync commit member).imp_left fun handled => handled.append _

end

theorem Adding.handle (adding : Adding source start commits known batch (first ++ commit :: rest))
    (writesKnown : BatchKnown source known writes)
    (isHandled : source = .sync → Handled known (batch ++ writes) commit.id) :
    Adding source start commits known (batch ++ writes) (first ++ rest) where
  extends_start := adding.extends_start
  batchKnown := adding.batchKnown.append writesKnown
  handled isSync other member := by
    rcases adding.handled isSync other member with handled | isPending
    · exact .inl (handled.append _)
    · rcases mem_append.mp isPending with inFirst | inRest
      · exact .inr (mem_append_left _ inFirst)
      · rcases mem_cons.mp inRest with rfl | inRest
        · exact .inl (isHandled isSync)
        · exact .inr (mem_append_right _ inRest)

theorem addInvariant_adding (locked : start.locked = true) (commits : List (Commit formats)) :
    AddInvariant commitDiscipline source (Adding source start commits)
      (fun known id => id = kFirstPageCommitId ∨ known.stored id) CommitKnowledge.absent
      fun final => final.locked = start.locked where
  quiet known op isQuiet := by
    cases op with
    | get row => cases row <;> first | exact ⟨trivial, fun _ => rfl⟩ | cases isQuiet
    | startBatch | updateBatch | hasKey => exact ⟨trivial, fun _ => rfl⟩
    | _ => cases isQuiet
  failed adding := adding.extends_start.locked
  contains adding id := by
    refine (obeys_containsCommit id).mono fun status final ⟨more, stored, absent⟩ => ?_
    exact ⟨adding.mono more, more.absent, stored, fun isAbsent =>
      absent isAbsent (adding.extends_start.locked.trans locked)⟩
  other adding := adding.write
  skip {_ _ commit _ _} adding stored := by
    cases source with
    | localChange => exact adding.handle ⟨by simp [PageDb.skipWrites], by simp [PageDb.skipWrites]⟩ nofun
    | sync =>
      refine adding.handle (.of_isOther (by simp [Write.IsOther, Write.row, Write.isPut])) fun _ => ?_
      exact .inl ⟨stored, .delete (.unsyncedCommit commit.id), by simp [PageDb.skipWrites], rfl⟩
  store {_ _ commit _ _} adding absent := by
    refine adding.handle (.commitWrites absent) fun _ => .inr ⟨absent, ?_⟩
    exact ⟨.put (.commit commit.id) commit.storageBytes, by simp [PageDb.commitWrites], rfl⟩

end

theorem keeps_parse (result : Except Status α) :
    Keeps (returnOnError (pure result) : PageRoutine formats α) known fun value final =>
      final = known ∧ result = .ok value :=
  keeps_returnOnError ⟨rfl, fun _ isOk => ⟨rfl, isOk⟩⟩

theorem keeps_prepareCommits (fuel : Nat) (commits : List (Commit formats))
    (newObjects : List ObjectIdentifier) (locked : known.locked = true) :
    Keeps (prepareCommits fuel commits source newObjects) known fun prepared final =>
      known.Extends final ∧ BatchKnown source final prepared.1 ∧
        (source = .sync → ∀ commit ∈ commits, Handled final prepared.1 commit.id) := by
  have adding : Adding source known commits known [] commits :=
    ⟨.refl known, ⟨by simp, by simp⟩, fun _ _ => .inr⟩
  refine ((addInvariant_adding locked commits).prepareCommits fuel adding newObjects).mono
    fun prepared final adding => ⟨adding.extends_start, adding.batchKnown, fun isSync commit member => ?_⟩
  exact (adding.handled isSync commit member).resolve_right not_mem_nil

theorem BatchKnown.permitted (batchKnown : BatchKnown source known batch)
    (locked : known.locked = true) : known.Permitted batch :=
  ⟨fun write member id isRow => ⟨batchKnown.commits write member id isRow, locked⟩,
    fun write member id isRow isPut => (batchKnown.unsynced write member id isRow isPut).2⟩

theorem BatchKnown.settles (batchKnown : BatchKnown .sync known batch)
    (first : known.stored kFirstPageCommitId) (handled : Handled known batch id) :
    known.Settles batch id := by
  refine ⟨fun write member isRow => ?_, handled.imp_left fun ⟨stored, written⟩ => ⟨?_, written⟩⟩
  · by_contra isPut
    exact nomatch (batchKnown.unsynced write member id isRow (Bool.not_eq_false _ ▸ isPut)).1
  · exact stored.elim (fun isFirst => isFirst ▸ first) fun isStored => isStored

theorem obeys_execute (permitted : known.Permitted batch) :
    (execute batch : PageCoroutine formats (Except Status Unit)).Obeys commitDiscipline known
      fun reply final => known.Gains final ∧
        (reply = .ok () → ∀ id, known.Settles batch id → final.settled id) := by
  refine .perform permitted fun reply => ?_
  cases reply with
  | ok => exact ⟨⟨rfl, fun _ holds => holds, fun _ => .inr⟩, fun _ id settles => .inl settles⟩
  | error status => exact ⟨.refl known, by simp⟩

theorem keeps_addCommitsLocked (fuel : Nat) (commits : List (Commit formats))
    (newObjects : List ObjectIdentifier) (locked : known.locked = true)
    (first : known.stored kFirstPageCommitId) :
    Keeps (addCommitsLocked fuel commits source newObjects) known fun _ final =>
      known.Gains final ∧ (source = .sync → ∀ commit ∈ commits, final.settled commit.id) := by
  refine Keeps.bind (ObeysExcept.mono (keeps_prepareCommits fuel commits newObjects locked) ?_)
  rintro ⟨batch, sent⟩ middle ⟨more, batchKnown, handled⟩
  refine ⟨more.locked, Keeps.bind (.lift ((obeys_execute
    (batchKnown.permitted (more.locked.trans locked))).mono ?_))⟩
  rintro executed final ⟨gains, settled⟩
  refine ⟨gains.locked, Keeps.bind (.lift (.perform trivial fun _ => ⟨rfl, ?_⟩))⟩
  refine keeps_returnOnError ⟨rfl, ?_⟩
  rintro ⟨⟩ isOk
  refine ⟨more.gains.trans gains, ?_⟩
  rintro rfl commit member
  exact settled isOk commit.id
    (batchKnown.settles (more.stored _ first) (handled rfl commit member))

theorem keeps_withLock {post : α → CommitKnowledge → Prop} (unlocked : known.locked = false)
    (keeps : Keeps routine { known with locked := true } fun value final =>
      final.locked = true ∧ post value { final with locked := false, absent := fun _ => False }) :
    Keeps (withLock routine) known post := by
  have acquires : Keeps (returnOnError acquireLock : PageRoutine formats Unit) known
      fun _ middle => middle = { known with locked := true } := by
    refine ObeysExcept.bind (.lift (.perform unlocked fun reply => ?_))
    cases reply with
    | error status => exact .throw rfl
    | ok => exact .pure rfl
  refine ObeysExcept.bind (ObeysExcept.mono acquires ?_)
  rintro _ _ rfl
  refine ObeysExcept.bind (.lift (Obeys.mono keeps fun result final holds => ?_))
  have locked : final.locked = true := by
    cases result with
    | ok value => exact holds.1
    | error fault => exact holds
  refine ObeysExcept.bind (.lift (.perform locked fun _ => ?_))
  cases result with
  | ok value => exact .pure holds.2
  | error fault => exact .throw unlocked.symm

theorem keeps_markCommitSynced (commitId : CommitId) :
    Keeps (synchronousMarkCommitSynced commitId : PageRoutine formats Unit) known fun _ final =>
      known.Gains final ∧ (known.stored commitId → final.settled commitId) := by
  refine Keeps.bind (keeps_returnOnError (.perform trivial fun _ => ⟨rfl, fun _ _ => ⟨rfl, ?_⟩⟩))
  refine Keeps.bind (ObeysExcept.mono (keeps_addWrite _ _) ?_)
  rintro batch _ ⟨rfl, rfl⟩
  refine ⟨rfl, keeps_returnOnError (Obeys.mono (obeys_execute ⟨?_, ?_⟩) ?_)⟩
  · simp [Write.row]
  · simp [Write.isPut]
  · rintro reply final ⟨gains, settled⟩
    refine ⟨gains.locked, ?_⟩
    rintro ⟨⟩ isOk
    refine ⟨gains, fun stored => settled isOk commitId ⟨by simp [Write.isPut], .inl ⟨stored, ?_⟩⟩⟩
    exact ⟨.delete (.unsyncedCommit commitId), by simp, rfl⟩

theorem keeps_newCommits (idsAndBytes : List CommitIdAndBytes)
    (first : known.stored kFirstPageCommitId) :
    Keeps (newCommits idsAndBytes : PageRoutine formats (List (Commit formats))) known
      fun commits final => known.Gains final ∧ ∀ idAndBytes ∈ idsAndBytes,
        final.settled idAndBytes.id ∨ ∃ commit ∈ commits, commit.id = idAndBytes.id := by
  induction idsAndBytes generalizing known with
  | nil => exact .pure ⟨.refl known, by simp⟩
  | cons idAndBytes idsAndBytes ih =>
    refine Keeps.bind (.lift ((obeys_containsCommit idAndBytes.id).mono ?_))
    rintro status middle ⟨more, ifStored, -⟩
    refine ⟨more.locked, ?_⟩
    have stillFirst := more.stored _ first
    cases status with
    | ok =>
      refine Keeps.bind (ObeysExcept.mono (keeps_markCommitSynced idAndBytes.id) ?_)
      rintro _ next ⟨gains, marked⟩
      have stored : middle.stored idAndBytes.id :=
        (ifStored rfl).elim (fun isFirst => isFirst ▸ stillFirst) fun isStored => isStored
      refine ⟨gains.locked, ObeysExcept.mono (ih (gains.stored _ stillFirst)) ?_⟩
      rintro commits final ⟨later, settled⟩
      refine ⟨(more.gains.trans gains).trans later, forall_mem_cons.mpr ⟨.inl ?_, settled⟩⟩
      exact later.settled _ (marked stored)
    | notFound =>
      refine Keeps.bind (ObeysExcept.mono (keeps_parse _) ?_)
      rintro commit _ ⟨rfl, parsed⟩
      refine ⟨rfl, Keeps.bind (ObeysExcept.mono (ih stillFirst) ?_)⟩
      rintro commits final ⟨later, settled⟩
      refine ⟨later.locked, .pure ⟨more.gains.trans later, forall_mem_cons.mpr ⟨?_, ?_⟩⟩⟩
      · exact .inr ⟨commit, mem_cons_self, (Commit.fromStorageBytes_ok parsed).1⟩
      · intro other member
        refine (settled other member).imp_right fun ⟨found, inCommits, sameId⟩ => ?_
        exact ⟨found, mem_cons_of_mem _ inCommits, sameId⟩
    | _ => exact .throw rfl

theorem obeys_downloadLeaves (leaves : List (Commit formats)) :
    (downloadLeaves leaves).Obeys commitDiscipline known fun _ final => final = known := by
  induction leaves with
  | nil => exact rfl
  | cons leaf leaves ih =>
    refine Obeys.bind (.perform trivial fun _ => Obeys.bind (ih.mono ?_))
    rintro _ _ rfl
    exact rfl

theorem keeps_addCommits (fuel : Nat) (commits : List (Commit formats))
    (newObjects : List ObjectIdentifier) (unlocked : known.locked = false)
    (first : known.stored kFirstPageCommitId) :
    Keeps (synchronousAddCommits fuel commits source newObjects) known fun _ final =>
      known.Gains final ∧ (source = .sync → ∀ commit ∈ commits, final.settled commit.id) := by
  refine keeps_withLock unlocked (ObeysExcept.mono (keeps_addCommitsLocked fuel commits newObjects
    rfl first) ?_)
  rintro _ final ⟨gains, settled⟩
  exact ⟨gains.locked, ⟨unlocked.symm, gains.stored, gains.settled⟩, settled⟩

theorem keeps_addCommitsFromSync (fuel : Nat) (idsAndBytes : List CommitIdAndBytes)
    (unlocked : known.locked = false) (first : known.stored kFirstPageCommitId) :
    Keeps (synchronousAddCommitsFromSync fuel idsAndBytes : PageRoutine formats Unit) known
      fun _ final => ∀ idAndBytes ∈ idsAndBytes, final.settled idAndBytes.id := by
  have finds : Keeps (withLock (newCommits idsAndBytes) : PageRoutine formats _) known
      fun commits final => known.Gains final ∧ ∀ idAndBytes ∈ idsAndBytes,
        final.settled idAndBytes.id ∨ ∃ commit ∈ commits, commit.id = idAndBytes.id := by
    refine keeps_withLock unlocked (ObeysExcept.mono (keeps_newCommits idsAndBytes first) ?_)
    rintro commits final ⟨gains, settled⟩
    exact ⟨gains.locked, ⟨unlocked.symm, gains.stored, gains.settled⟩, settled⟩
  refine Keeps.bind (ObeysExcept.mono finds ?_)
  rintro commits middle ⟨gains, settledOrNew⟩
  refine ⟨gains.locked, ?_⟩
  split
  case isTrue noneNew =>
    refine .pure fun idAndBytes member => (settledOrNew idAndBytes member).resolve_right ?_
    rw [noneNew]
    simp
  case isFalse =>
    refine Keeps.bind (keeps_returnOnError ((obeys_downloadLeaves _).mono ?_))
    rintro reply _ rfl
    refine ⟨rfl, fun _ _ => ⟨rfl, ?_⟩⟩
    refine ObeysExcept.mono (keeps_addCommits fuel commits [] (gains.locked.trans unlocked)
      (gains.stored _ first)) ?_
    rintro _ final ⟨later, allSettled⟩ idAndBytes member
    rcases settledOrNew idAndBytes member with settled | ⟨commit, inCommits, isId⟩
    · exact later.settled _ settled
    · exact isId ▸ allSettled rfl commit inCommits

namespace PageRun

/-- The states of a page that its calls can lead to, whatever their order. -/
inductive Reachable : PageRun formats → Prop where
  | start {run : PageRun formats} (isStart : run.Start) : Reachable run
  | step {run next : PageRun formats} (before : Reachable run) (step : run.Step next) :
      Reachable next

def Post (syncs : List CommitId) (result : Except Fault Unit) (known : CommitKnowledge) : Prop :=
  result = .ok () → ∀ id ∈ syncs, known.settled id

def knownAtStart (db : PageDb) : CommitKnowledge where
  locked := false
  absent := fun _ => False
  stored := fun id => db.Contains id
  settled := fun _ => False

theorem Keeps.post {routine : PageRoutine formats Unit} {syncs : List CommitId}
    (keeps : Keeps routine known fun _ final => ∀ id ∈ syncs, final.settled id) :
    routine.run.Obeys commitDiscipline known (Post syncs) := by
  refine Obeys.mono keeps fun result final holds isOk => ?_
  rw [isOk] at holds
  exact holds

theorem obeys_call (fuel : Nat) (call : PageCall formats) (db : PageDb) :
    (call.routine fuel).run.Obeys commitDiscipline (knownAtStart db) (Post (call.syncs db)) := by
  have first : (knownAtStart db).stored kFirstPageCommitId := .inl rfl
  cases call with
  | addCommitFromLocal commit newObjects =>
    exact Keeps.post (ObeysExcept.mono (keeps_addCommits fuel [commit] newObjects rfl first)
      fun _ _ _ id member => absurd member not_mem_nil)
  | addCommitsFromSync idsAndBytes =>
    refine Keeps.post (ObeysExcept.mono (keeps_addCommitsFromSync fuel idsAndBytes rfl first) ?_)
    intro _ final settled id member
    obtain ⟨idAndBytes, inList, rfl⟩ := mem_map.mp member
    exact settled idAndBytes inList
  | markCommitSynced commitId =>
    refine Keeps.post (ObeysExcept.mono (keeps_markCommitSynced commitId) ?_)
    rintro _ final ⟨-, settled⟩ id member
    rw [PageCall.syncs] at member
    split at member
    case isTrue contains => exact mem_singleton.mp member ▸ settled contains
    case isFalse => exact absurd member not_mem_nil

/-- All tasks keep to the discipline, and what is synced is settled. -/
structure Disciplines (run : PageRun formats) : Prop where
  pool : run.pool.Disciplined commitDiscipline UnsyncedStored Knows Post
  synced : ∀ id ∈ run.synced, CommitKnowledge.Settled run.pool.shared.db id

theorem same_of_others {db : PageDb}
    (others : ∀ write ∈ writes, ∀ id, write.row ≠ .commit id ∧ write.row ≠ .unsyncedCommit id)
    (id : CommitId) : ((db.writeAll writes).Contains id ↔ db.Contains id) ∧
      (.unsyncedCommit id ∈ db.writeAll writes ↔ .unsyncedCommit id ∈ db) := by
  have sameCommit : (db.writeAll writes).lookup (.commit id) = db.lookup (.commit id) :=
    lookup_writeAll_of_ne fun write member => (others write member id).1
  have sameUnsynced :
      (db.writeAll writes).lookup (.unsyncedCommit id) = db.lookup (.unsyncedCommit id) :=
    lookup_writeAll_of_ne fun write member => (others write member id).2
  simp [PageDb.Contains, mem_iff_lookup, sameCommit, sameUnsynced]

variable {run : PageRun formats}

theorem Disciplines.start (isStart : run.Start) : run.Disciplines where
  pool := ⟨isStart.unsynced, fun id task isTask => by
    rw [isStart.noTasks id] at isTask
    cases isTask⟩
  synced id member := by
    rw [isStart.noneSynced] at member
    cases member

theorem Disciplines.settled_advances (inv : run.Disciplines)
    {next : Pool PageShared (PageOp formats) PageOp.Reply (List CommitId) (Except Fault Unit)}
    (advances : run.pool.Advances pageAction next)
    (settled : CommitKnowledge.Settled run.pool.shared.db id) :
    CommitKnowledge.Settled next.shared.db id := by
  cases advances with
  | @call owner goal op following reply shared isNext acts =>
    obtain ⟨known, isKnown, permitted, -⟩ := inv.pool.tasks owner _ isNext
    -- a task that knows nothing else
    have onlySettled : Knows run.pool.shared (owner + 1)
        ⟨false, fun _ => False, fun _ => False, fun other => other = id⟩ :=
      ⟨(nomatch ·), fun _ absent => absent.elim, fun _ stored => stored.elim,
        fun other same => same ▸ settled⟩
    exact (isKnown.spares permitted acts (Nat.succ_ne_self owner) onlySettled).settled id rfl

theorem Disciplines.write (inv : run.Disciplines)
    (others : ∀ write ∈ writes, ∀ id, write.row ≠ .commit id ∧ write.row ≠ .unsyncedCommit id) :
    Disciplines ⟨⟨{ run.pool.shared with db := run.pool.shared.db.writeAll writes }, run.pool.tasks⟩,
      run.synced⟩ := by
  have same : ∀ id, ((run.pool.shared.db.writeAll writes).Contains id ↔
        run.pool.shared.db.Contains id) ∧ (.unsyncedCommit id ∈ run.pool.shared.db.writeAll writes ↔
        .unsyncedCommit id ∈ run.pool.shared.db) := same_of_others others
  have settled : ∀ id, CommitKnowledge.Settled run.pool.shared.db id →
      CommitKnowledge.Settled (run.pool.shared.db.writeAll writes) id := fun id settled =>
    ⟨(same id).1.mpr settled.1, fun unsynced => settled.2 ((same id).2.mp unsynced)⟩
  refine ⟨inv.pool.environment ?_ ?_, fun id member => settled id (inv.synced id member)⟩
  · intro id unsynced
    have stored := inv.pool.inv id ((same id).2.mp unsynced)
    have sameCommit : (run.pool.shared.db.writeAll writes).lookup (.commit id) =
        run.pool.shared.db.lookup (.commit id) :=
      lookup_writeAll_of_ne fun write member => (others write member id).1
    exact mem_iff_lookup.mpr (sameCommit ▸ mem_iff_lookup.mp stored)
  · intro owner known knows
    exact ⟨knows.locked, fun id absent => ⟨(knows.absent id absent).1, fun contains =>
        (knows.absent id absent).2 ((same id).1.mp contains)⟩,
      fun id stored => (same id).1.mpr (knows.stored id stored),
      fun id isSettled => settled id (knows.settled id isSettled)⟩

theorem Disciplines.step {next : PageRun formats} (inv : run.Disciplines) (step : run.Step next) :
    next.Disciplines := by
  cases step with
  | start id fuel call isFree =>
    refine ⟨inv.pool.start ?_ (obeys_call fuel call run.pool.shared.db), inv.synced⟩
    exact ⟨(nomatch ·), fun _ absent => absent.elim, fun _ stored => stored,
      fun _ settled => settled.elim⟩
  | advance advances =>
    refine ⟨inv.pool.advances respects advances, fun id member => ?_⟩
    exact inv.settled_advances advances (inv.synced id member)
  | @succeed id syncs isDone =>
    obtain ⟨known, isKnown, post⟩ := inv.pool.tasks id _ isDone
    refine ⟨inv.pool.finish id, fun other member => ?_⟩
    rcases mem_append.mp member with isSynced | earlier
    · exact isKnown.settled other (post rfl other isSynced)
    · exact inv.synced other earlier
  | @fail id syncs fault isDone => exact ⟨inv.pool.finish id, inv.synced⟩
  | write writes others => exact inv.write others

theorem Reachable.inv (reachable : Reachable run) : run.Disciplines := by
  induction reachable with
  | start isStart => exact .start isStart
  | step before step ih => exact ih.step step

/-- A commit that has been received from sync, or marked as synced while it is stored, is
not unsynced again. -/
theorem synced_stays_synced {run : PageRun formats} (reachable : Reachable run) :
    ∀ id ∈ run.synced, id ∉ run.pool.shared.db.getUnsyncedCommitIds := by
  intro id member isUnsynced
  exact (reachable.inv.synced id member).2 (mem_getUnsyncedCommitIds.mp isUnsynced)

def perform (id : Nat) : (op : PageOp formats) → PageShared → op.Reply × PageShared
  | .acquireLock, shared =>
    if shared.owner = none then (.ok (), { shared with owner := some id })
    else (.error .interrupted, shared)
  | .releaseLock, shared => ((), { shared with owner := none })
  | .startBatch, shared => (.ok (), shared)
  | .get row, shared => (shared.db.read row, shared)
  | .hasKey row, shared => (.ok (decide (row ∈ shared.db)), shared)
  | .updateBatch, shared => (.ok (), shared)
  | .execute writes, shared => (.ok (), { shared with db := shared.db.writeAll writes })
  | .getObjectsFromSync _, shared => (.ok (), shared)
  | .notifyWatchers _ _, shared => ((), shared)

theorem pageAction_perform (id : Nat) (op : PageOp formats) (shared : PageShared) :
    pageAction id op shared (perform id op shared).1 (perform id op shared).2 := by
  cases op with
  | acquireLock =>
    rw [perform]
    split
    case isTrue isFree => exact .inl ⟨isFree, rfl, rfl⟩
    case isFalse => exact .inr ⟨rfl, rfl⟩
  | execute writes => exact .inl ⟨rfl, rfl⟩
  | releaseLock | getObjectsFromSync rootIdentifier | notifyWatchers source commits => exact rfl
  | startBatch | get row | hasKey row | updateBatch => exact ⟨.inl rfl, rfl⟩

def begin (run : PageRun formats) (id : Nat) (call : PageCall formats) : PageRun formats :=
  if run.pool.tasks id = none then
    ⟨⟨run.pool.shared, update run.pool.tasks id
      (some ⟨call.syncs run.pool.shared.db, (call.routine 0).run⟩)⟩, run.synced⟩
  else run

def advance (run : PageRun formats) (id : Nat) : PageRun formats :=
  match run.pool.tasks id with
  | none => run
  | some ⟨goal, .call op next⟩ =>
    ⟨⟨(perform id op run.pool.shared).2, update run.pool.tasks id
      (some ⟨goal, next (perform id op run.pool.shared).1⟩)⟩, run.synced⟩
  | some ⟨goal, .done (.ok ())⟩ =>
    ⟨⟨run.pool.shared, update run.pool.tasks id none⟩, goal ++ run.synced⟩
  | some ⟨_, .done (.error _)⟩ =>
    ⟨⟨run.pool.shared, update run.pool.tasks id none⟩, run.synced⟩

theorem Reachable.begin (reachable : Reachable run) (id : Nat) (call : PageCall formats) :
    Reachable (run.begin id call) := by
  unfold PageRun.begin
  split
  case isTrue isFree => exact reachable.step (.start id 0 call isFree)
  case isFalse => exact reachable

theorem Reachable.advance (reachable : Reachable run) (id : Nat) : Reachable (run.advance id) := by
  unfold PageRun.advance
  split
  · exact reachable
  case h_2 goal op next isNext =>
    exact reachable.step (.advance (.call isNext (pageAction_perform id op _)))
  case h_3 goal isDone => exact reachable.step (.succeed isDone)
  case h_4 goal fault isDone => exact reachable.step (.fail isDone)

theorem Reachable.advances (reachable : Reachable run) (schedule : List Nat) :
    Reachable (schedule.foldl PageRun.advance run) :=
  foldlRecOn schedule _ reachable fun _ reached id _ => reached.advance id

def ofDb (db : PageDb) : PageRun sampleFormats :=
  ⟨⟨⟨db, none⟩, fun _ => none⟩, []⟩

/-- A page with an unsynced commit that is marked as synced. -/
theorem synced_stays_synced_marked :
    let db := PageDb.initial.writeAll [.put (.commit [1]) [0], .put (.unsyncedCommit [1]) 1]
    let run := [0, 0, 0, 0].foldl advance ((ofDb db).begin 0 (.markCommitSynced [1]))
    run.synced = [[1]] ∧ [1] ∉ run.pool.shared.db.getUnsyncedCommitIds := by
  intro db run
  have unsyncedStored : ∀ id ∈ db.getUnsyncedCommitIds, .commit id ∈ db := by decide
  have start : (ofDb db).Start := ⟨fun _ => rfl, rfl, rfl, fun id unsynced =>
    unsyncedStored id (mem_getUnsyncedCommitIds.mpr unsynced)⟩
  have reachable : Reachable run := (Reachable.start start |>.begin 0 _).advances _
  exact ⟨rfl, synced_stays_synced reachable [1] (by decide)⟩

/-- A commit that is not stored is marked as synced, and then created locally. -/
theorem marked_becomes_unsynced :
    let marked := [0, 0, 0].foldl advance ((ofDb .initial).begin 0 (.markCommitSynced [1]))
    let created := (replicate 12 1).foldl advance
      (marked.begin 1 (.addCommitFromLocal (sampleCommit 1 [0] (by decide)) []))
    Reachable created ∧ marked.pool.tasks 0 = some ⟨[], .done (.ok ())⟩ ∧
      created.pool.tasks 1 = none ∧ [1] ∈ created.pool.shared.db.getUnsyncedCommitIds := by
  intro marked created
  have noneUnsynced : ∀ id ∈ PageDb.initial.getUnsyncedCommitIds, .commit id ∈ PageDb.initial := by
    decide
  have start : (ofDb .initial).Start := ⟨fun _ => rfl, rfl, rfl, fun id unsynced =>
    noneUnsynced id (mem_getUnsyncedCommitIds.mpr unsynced)⟩
  have markedReachable : Reachable marked := (Reachable.start start |>.begin 0 _).advances _
  have isDone : created.pool.tasks 1 = none := Option.isNone_iff_eq_none.mp (by decide +kernel)
  exact ⟨(markedReachable.begin 1 _).advances _, rfl, isDone, by decide +kernel⟩

end PageRun

end Peridot
