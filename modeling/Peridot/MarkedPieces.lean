import Peridot.AddCommitsOutcome
import Peridot.ObjectStatus

/-!
# The pieces that are marked local

`MarkAllPiecesLocal` of `page_storage_impl.cc` follows the pieces of the given objects.  It comes
to an end on every database, and raises the status of all pieces that it reaches and that have
none or are transient.
-/

namespace Peridot

open List PageDb Relation.TransGen

variable {formats : StorageFormats} {α β : Type} {fuel : ℕ} {identifiers : List ObjectIdentifier}

namespace PageDb

variable {db : PageDb} {given seen pending rest children : List ObjectIdentifier}
  {piece index child : ObjectIdentifier}

def readFileIndex (formats : StorageFormats) (db : PageDb) (index : ObjectIdentifier) :
    Except Status FileIndex := do
  let content ← db.read (.object index.objectDigest)
  parseFileIndex formats content

structure HasPiece (formats : StorageFormats) (db : PageDb) (index piece : ObjectIdentifier) :
    Prop where
  isIndex : getObjectDigestType index.objectDigest = .indexHash
  isChild : ∃ fileIndex, db.readFileIndex formats index = .ok fileIndex ∧
    piece ∈ fileIndex.children.map Prod.snd
  notInline : getObjectDigestType piece.objectDigest ≠ .inline

/-- The given identifiers, and the pieces below them that are not inline. -/
inductive ReachedPiece (formats : StorageFormats) (db : PageDb) (given : List ObjectIdentifier) :
    ObjectIdentifier → Prop where
  | given {piece : ObjectIdentifier} (isGiven : piece ∈ given) : ReachedPiece formats db given piece
  | piece {index piece : ObjectIdentifier} (isReached : ReachedPiece formats db given index)
      (hasPiece : HasPiece formats db index piece) : ReachedPiece formats db given piece

def Readable (formats : StorageFormats) (db : PageDb) (piece : ObjectIdentifier) : Prop :=
  getObjectDigestType piece.objectDigest = .indexHash →
    ∃ fileIndex, db.readFileIndex formats piece = .ok fileIndex

theorem ReachedPiece.mono {others : List ObjectIdentifier}
    (within : ∀ root ∈ given, ReachedPiece formats db others root)
    (isReached : ReachedPiece formats db given piece) : ReachedPiece formats db others piece := by
  induction isReached with
  | given isGiven => exact within _ isGiven
  | piece _ hasPiece ih => exact .piece ih hasPiece

def newPieces (formats : StorageFormats) (db : PageDb) (seen : List ObjectIdentifier)
    (piece : ObjectIdentifier) : Except Status (List ObjectIdentifier) :=
  if getObjectDigestType piece.objectDigest = .indexHash then
    (db.readFileIndex formats piece).map fun fileIndex =>
      (childrenToMark fileIndex (piece :: seen)).reverse
  else .ok []

theorem mem_newPieces (isNew : db.newPieces formats seen index = .ok children) :
    child ∈ children ↔ HasPiece formats db index child ∧ child ∉ index :: seen := by
  rw [newPieces] at isNew
  split at isNew
  case isTrue isIndex =>
    cases isRead : db.readFileIndex formats index with
    | error status => rw [isRead] at isNew; cases isNew
    | ok fileIndex =>
      rw [isRead] at isNew
      cases isNew
      rw [mem_reverse, childrenToMark, mem_filter, decide_eq_true_eq]
      constructor
      · rintro ⟨isChild, notInline, unseen⟩
        exact ⟨⟨isIndex, ⟨fileIndex, isRead, isChild⟩, notInline⟩, unseen⟩
      · rintro ⟨hasPiece, unseen⟩
        obtain ⟨other, isOther, isChild⟩ := hasPiece.isChild
        cases isRead.symm.trans isOther
        exact ⟨isChild, hasPiece.notInline, unseen⟩
  case isFalse notIndex =>
    cases isNew
    simp only [not_mem_nil, false_iff, not_and]
    exact fun hasPiece => absurd hasPiece.isIndex notIndex

theorem newPieces_isOk :
    (∃ children, db.newPieces formats seen piece = .ok children) ↔ Readable formats db piece := by
  rw [newPieces, Readable]
  split
  case isTrue isIndex =>
    cases db.readFileIndex formats piece with
    | error status => simp [isIndex, Except.map]
    | ok fileIndex => simp [Except.map]
  case isFalse notIndex => simp [notIndex]

theorem markPieces_cons (fuel : ℕ) (batch : List Write) :
    db.markPieces formats (fuel + 1) batch seen (piece :: rest) = (do
      let children ← (db.newPieces formats seen piece).mapError Fault.status
      db.markPieces formats fuel (batch ++ db.statusWrites piece .localObject) (piece :: seen)
        (children ++ rest)) := by
  rw [markPieces, newPieces]
  split
  · rw [readFileIndex]
    cases db.read (.object piece.objectDigest) with
    | error status => rfl
    | ok content =>
      change (do
        let fileIndex ← (parseFileIndex formats content).mapError Fault.status
        _) = _
      cases isParsed : parseFileIndex formats content with
      | error status | ok fileIndex =>
        simp [isParsed, Except.mapError, Except.map, bind, Except.bind]
  · rfl

def marksOf (db : PageDb) (visited : List ObjectIdentifier) : List Write :=
  visited.flatMap fun piece => db.statusWrites piece .localObject

/-- The pieces that a loop visits: all that were pending, their pieces, and no others. -/
structure Visits (formats : StorageFormats) (db : PageDb)
    (seen pending visited : List ObjectIdentifier) : Prop where
  given : ∀ piece ∈ pending, piece ∈ visited
  readable : ∀ piece ∈ visited, Readable formats db piece
  closed : ∀ index ∈ visited, ∀ piece, HasPiece formats db index piece →
    piece ∈ visited ∨ piece ∈ seen
  reached : ∀ piece ∈ visited, ReachedPiece formats db pending piece

variable {visited : List ObjectIdentifier}

theorem Visits.cons (isNew : db.newPieces formats seen piece = .ok children)
    (visits : Visits formats db (piece :: seen) (children ++ rest) visited) :
    Visits formats db seen (piece :: rest) (piece :: visited) where
  given other isPending := by
    rcases mem_cons.mp isPending with rfl | isRest
    · exact mem_cons_self
    · exact mem_cons_of_mem _ (visits.given other (mem_append_right _ isRest))
  readable other isVisited := by
    rcases mem_cons.mp isVisited with rfl | isLater
    · exact newPieces_isOk.mp ⟨children, isNew⟩
    · exact visits.readable other isLater
  closed index isVisited child hasPiece := by
    have ofSeen : ∀ other, other ∈ visited ∨ other ∈ piece :: seen →
        other ∈ piece :: visited ∨ other ∈ seen := by
      rintro other (isVisited | isSeen)
      · exact .inl (mem_cons_of_mem _ isVisited)
      · rcases mem_cons.mp isSeen with rfl | isSeen
        · exact .inl mem_cons_self
        · exact .inr isSeen
    apply ofSeen
    rcases mem_cons.mp isVisited with rfl | isLater
    · by_cases isSeen : child ∈ index :: seen
      · exact .inr isSeen
      · have isChild := (mem_newPieces isNew).mpr ⟨hasPiece, isSeen⟩
        exact .inl (visits.given child (mem_append_left _ isChild))
    · exact visits.closed index isLater child hasPiece
  reached other isVisited := by
    rcases mem_cons.mp isVisited with rfl | isLater
    · exact .given mem_cons_self
    · apply (visits.reached other isLater).mono
      intro root isRoot
      rcases mem_append.mp isRoot with isChild | isRest
      · have hasPiece := ((mem_newPieces isNew).mp isChild).1
        exact .piece (.given mem_cons_self) hasPiece
      · exact .given (mem_cons_of_mem _ isRest)

theorem visits_of_markPieces {batch writes : List Write}
    (isOk : db.markPieces formats fuel batch seen pending = .ok writes) :
    ∃ visited, writes = batch ++ db.marksOf visited ∧ Visits formats db seen pending visited := by
  induction fuel generalizing batch seen pending with
  | zero =>
    cases pending with
    | nil =>
      cases isOk
      exact ⟨[], (append_nil _).symm, by simp, by simp, by simp, by simp⟩
    | cons piece rest => cases isOk
  | succ fuel ih =>
    cases pending with
    | nil =>
      cases isOk
      exact ⟨[], (append_nil _).symm, by simp, by simp, by simp, by simp⟩
    | cons piece rest =>
      rw [markPieces_cons] at isOk
      cases isNew : db.newPieces formats seen piece with
      | error status => rw [isNew] at isOk; cases isOk
      | ok children =>
        rw [isNew] at isOk
        obtain ⟨visited, rfl, visits⟩ := ih isOk
        use piece :: visited
        exact ⟨by simp [marksOf], visits.cons isNew⟩

theorem Visits.of_reverse (visits : Visits formats db seen given.reverse visited) :
    Visits formats db seen given visited where
  given piece isGiven := visits.given piece (mem_reverse.mpr isGiven)
  __ := visits
  reached piece isVisited := (visits.reached piece isVisited).mono fun _ isRoot =>
    .given (mem_reverse.mp isRoot)

/-- When all pieces below can be read, the loop fails for want of fuel only. -/
theorem markPieces_isOk (batch : List Write)
    (readable : ∀ index, ReachedPiece formats db pending index → Readable formats db index)
    (isEnough : db.markPieces formats fuel batch seen pending ≠ .error .outOfFuel) :
    ∃ writes, db.markPieces formats fuel batch seen pending = .ok writes := by
  induction fuel generalizing batch seen pending with
  | zero =>
    cases pending with
    | nil => exact ⟨batch, rfl⟩
    | cons piece rest => exact absurd rfl isEnough
  | succ fuel ih =>
    cases pending with
    | nil => exact ⟨batch, rfl⟩
    | cons piece rest =>
      obtain ⟨children, isNew⟩ := newPieces_isOk.mpr (readable piece (.given mem_cons_self))
      rw [markPieces_cons, isNew] at isEnough
      rw [markPieces_cons, isNew]
      apply ih _ _ isEnough
      intro index isReached
      apply readable index (isReached.mono _)
      intro root isRoot
      rcases mem_append.mp isRoot with isChild | isRest
      · exact .piece (.given mem_cons_self) ((mem_newPieces isNew).mp isChild).1
      · exact .given (mem_cons_of_mem _ isRest)

theorem Visits.mem_iff (visits : Visits formats db [] given visited) :
    piece ∈ visited ↔ ReachedPiece formats db given piece := by
  constructor
  · exact visits.reached piece
  · intro isReached
    induction isReached with
    | given isGiven => exact visits.given _ isGiven
    | piece _ hasPiece ih => exact (visits.closed _ ih _ hasPiece).resolve_right not_mem_nil

def IsLow (db : PageDb) (piece : ObjectIdentifier) : Prop :=
  (db.objectStatus piece).rank < PageDbObjectStatus.localObject.rank

theorem statusRow_marksOf (visited : List ObjectIdentifier) (status : PageDbObjectStatus) :
    .objectStatus status piece ∈ db.writeAll (db.marksOf visited) ↔
      (piece ∈ visited ∧ db.IsLow piece ∧ status = .localObject) ∨
        (¬(piece ∈ visited ∧ db.IsLow piece) ∨ status ≠ db.objectStatus piece) ∧
          .objectStatus status piece ∈ db := by
  induction visited using reverseRecOn with
  | nil => simp [marksOf]
  | append_singleton visited marked ih =>
    have last : db.marksOf (visited ++ [marked]) =
        db.marksOf visited ++ db.statusWrites marked .localObject := by simp [marksOf]
    rw [last, writeAll_append, statusWrites]
    split
    case isTrue high =>
      rw [writeAll_nil, ih, mem_append, mem_singleton]
      by_cases isMarked : piece = marked
      · have notLow : ¬db.IsLow piece := isMarked ▸ Nat.not_lt.mpr high
        simp [notLow]
      · simp [isMarked]
    case isFalse isLow =>
      rw [← singleton_append, writeAll_append, writeAll_singleton, writeAll_singleton,
        mem_write, mem_write, ih, mem_append, mem_singleton]
      simp only [Write.row, Write.isPut, Row.objectStatus.injEq]
      by_cases isMarked : marked = piece
      · subst isMarked
        have low : db.IsLow marked := Nat.not_le.mp isLow
        have notLocal : db.objectStatus marked ≠ .localObject := by
          intro isLocal
          rw [IsLow, isLocal] at low
          exact Nat.lt_irrefl _ low
        by_cases isLocal : status = .localObject
        · simp [isLocal, low]
        · by_cases isSame : db.objectStatus marked = status
          · simp [isSame, isLocal, low, Ne.symm isLocal]
          · simp [isSame, isLocal, low, Ne.symm isLocal, Ne.symm isSame]
      · simp [isMarked, Ne.symm isMarked]

theorem objectStatus_marksOf (isVisited : piece ∈ visited) (isLow : db.IsLow piece) :
    (db.writeAll (db.marksOf visited)).objectStatus piece = .localObject := by
  have notSynced : .objectStatus .synced piece ∉ db := by
    intro isSynced
    rw [IsLow, objectStatus, if_pos isSynced] at isLow
    exact absurd isLow (by decide)
  have isTransient : .objectStatus .transient piece ∈ db → db.objectStatus piece = .transient := by
    intro isTransient
    rw [objectStatus, if_neg notSynced, if_pos isTransient]
  have rows : ∀ status, .objectStatus status piece ∈ db.writeAll (db.marksOf visited) ↔ _ :=
    statusRow_marksOf visited
  rw [objectStatus, if_neg, if_neg, if_pos]
  · exact (rows .localObject).mpr (.inl ⟨isVisited, isLow, rfl⟩)
  · rw [rows]
    rintro (⟨-, -, isLocal⟩ | ⟨isOther, inDb⟩)
    · cases isLocal
    · exact isOther.elim (fun other => other ⟨isVisited, isLow⟩)
        fun other => other (isTransient inDb).symm
  · rw [rows]
    rintro (⟨-, -, isLocal⟩ | ⟨-, inDb⟩)
    · cases isLocal
    · exact notSynced inDb

/-- The database after the pieces of the given objects are marked. -/
structure MarkedLocal (formats : StorageFormats) (db : PageDb) (given : List ObjectIdentifier)
    (after : PageDb) : Prop where
  raised : ∀ piece, ReachedPiece formats db given piece → db.IsLow piece →
    after.objectStatus piece = .localObject
  kept : ∀ piece, ¬(ReachedPiece formats db given piece ∧ db.IsLow piece) →
    ∀ status, .objectStatus status piece ∈ after ↔ .objectStatus status piece ∈ db
  others : ∀ row, (∀ status piece, row ≠ .objectStatus status piece) →
    after.lookup row = db.lookup row

theorem Visits.markedLocal (visits : Visits formats db [] given visited) :
    MarkedLocal formats db given (db.writeAll (db.marksOf visited)) where
  raised piece isReached isLow := objectStatus_marksOf (visits.mem_iff.mpr isReached) isLow
  kept piece notRaised status := by
    rw [← visits.mem_iff] at notRaised
    rw [statusRow_marksOf]
    constructor
    · rintro (⟨isVisited, isLow, -⟩ | ⟨-, inDb⟩)
      · exact absurd ⟨isVisited, isLow⟩ notRaised
      · exact inDb
    · exact fun inDb => .inr ⟨.inl notRaised, inDb⟩
  others row isOther := by
    apply lookup_writeAll_of_ne
    intro write isWrite isRow
    obtain ⟨piece, -, isStatus⟩ := mem_flatMap.mp isWrite
    rw [statusWrites] at isStatus
    split at isStatus
    · cases isStatus
    · rcases mem_pair.mp isStatus with rfl | rfl
      · exact isOther _ _ isRow.symm
      · exact isOther _ _ isRow.symm

def storedPieces (formats : StorageFormats) (db : PageDb) : List ObjectIdentifier :=
  db.entries.flatMap fun
    | ⟨.object _, content⟩ =>
      ((formats.parseFileIndex content).map fun fileIndex =>
        fileIndex.children.map Prod.snd).getD []
    | _ => []

theorem HasPiece.mem_storedPieces (hasPiece : HasPiece formats db index piece) :
    piece ∈ storedPieces formats db := by
  obtain ⟨fileIndex, isRead, isChild⟩ := hasPiece.isChild
  rw [readFileIndex, read] at isRead
  cases isFound : db.lookup (.object index.objectDigest) with
  | none => rw [isFound] at isRead; cases isRead
  | some content =>
    rw [isFound] at isRead
    have isParsed : parseFileIndex formats content = .ok fileIndex := isRead
    rw [parseFileIndex] at isParsed
    split at isParsed
    case h_1 isIndex =>
      cases isParsed
      apply mem_flatMap.mpr
      use ⟨.object index.objectDigest, content⟩
      exact ⟨AList.mem_lookup_iff.mp isFound, by simpa [isIndex] using isChild⟩
    case h_2 => cases isParsed

def unseen (identifiers seen : List ObjectIdentifier) : ℕ :=
  (identifiers.filter (· ∉ seen)).length

theorem unseen_le : unseen identifiers (piece :: seen) ≤ unseen identifiers seen := by
  apply List.Sublist.length_le
  apply monotone_filter_right
  intro other isUnseen
  simp only [mem_cons, not_or, decide_eq_true_eq] at isUnseen ⊢
  exact isUnseen.2

theorem unseen_lt (isPiece : piece ∈ identifiers)
    (isNew : piece ∉ seen) : unseen identifiers (piece :: seen) < unseen identifiers seen := by
  have isFiltered : piece ∈ identifiers.filter (· ∉ seen) := by simp [isPiece, isNew]
  have same : identifiers.filter (· ∉ piece :: seen) =
      (identifiers.filter (· ∉ seen)).filter (· ≠ piece) := by
    rw [filter_filter]
    congr 1
    funext other
    simp
  rw [unseen, unseen, same]
  exact length_filter_lt_length_iff_exists.mpr ⟨piece, isFiltered, by simp⟩

end PageDb

open PageWorld

/-- Whatever accesses fail, the routine does not run out of fuel on the database. -/
def Finishes (db : PageDb) (routine : PageRoutine formats α) : Prop :=
  ∀ world : PageWorld formats, world.db = db → (world.call routine).1 ≠ .error .outOfFuel

namespace Finishes

variable {db : PageDb}

theorem pure (value : α) : Finishes db (Pure.pure value : PageRoutine formats α) := by
  rintro world - isFault
  cases isFault

theorem returnOnError (attempt : PageCoroutine formats (Except Status α)) :
    Finishes db (Peridot.returnOnError attempt) := by
  intro world _
  rw [call_returnOnError]
  cases (Coroutine.run handle attempt world).1 with
  | error status => simp [Except.mapError]
  | ok value => simp [Except.mapError]

theorem bind {routine : PageRoutine formats α} {f : α → PageRoutine formats β}
    {result : Except Fault α} (computes : Computes db routine result)
    (first : Finishes db routine) (second : ∀ value, result = .ok value → Finishes db (f value)) :
    Finishes db (routine >>= f) := by
  intro world sameDb
  have untouched := computes.readOnly.untouched world
  have sound := computes.sound world sameDb
  have noFuel := first world sameDb
  rw [call] at untouched sound noFuel ⊢
  rw [Coroutine.outcome_bind]
  generalize Coroutine.outcome handle routine world = reply at untouched sound noFuel
  rcases reply with ⟨fault | value, next⟩
  · simpa using noFuel
  · exact second value (sound value rfl) next (untouched.db.trans sameDb)

end Finishes

variable (db : PageDb)

theorem finishes_hasKey (row : Row) :
    Finishes db (returnOnError (hasKey row) : PageRoutine formats Bool) :=
  .returnOnError _

theorem finishes_addWrite (batch : List Write) (write : Write) :
    Finishes db (addWrite batch write : PageRoutine formats (List Write)) :=
  .bind (.returnOnError (.ok ()) (.perform trivial) fun _ _ => rfl) (.returnOnError _)
    fun _ _ => .pure _

theorem finishes_getObjectStatus (identifier : ObjectIdentifier) :
    Finishes db (getObjectStatus identifier : PageRoutine formats PageDbObjectStatus) := by
  have asks : ∀ status, Computes db (returnOnError _ : PageRoutine formats Bool) _ :=
    fun status => computes_hasKey db (.objectStatus status identifier)
  apply Finishes.bind (asks .synced) (finishes_hasKey db _)
  intro isSynced _
  split
  · exact .pure _
  · apply Finishes.bind (asks .transient) (finishes_hasKey db _)
    intro isTransient _
    split
    · exact .pure _
    · apply Finishes.bind (asks .localObject) (finishes_hasKey db _)
      intro isLocal _
      split
      · exact .pure _
      · exact .pure _

theorem finishes_setObjectStatus (batch : List Write) (identifier : ObjectIdentifier)
    (objectStatus : PageDbObjectStatus) :
    Finishes db (setObjectStatus batch identifier objectStatus :
      PageRoutine formats (List Write)) := by
  apply Finishes.bind (computes_getObjectStatus db _) (finishes_getObjectStatus db _)
  intro previous _
  split
  · exact .pure _
  · apply Finishes.bind (computes_addWrite db _ _) (finishes_addWrite db _ _)
    intro longer _
    exact finishes_addWrite db _ _

variable {db} {given seen pending rest children : List ObjectIdentifier}
  {piece : ObjectIdentifier}

def LoopEnds (formats : StorageFormats) (db : PageDb) (seen pending : List ObjectIdentifier) :
    Prop :=
  ∃ enough, ∀ fuel, enough ≤ fuel → ∀ batch,
    Finishes db (markPieces fuel batch seen pending : PageRoutine formats (List Write))

theorem loopEnds_nil : LoopEnds formats db seen [] := by
  use 0
  intro fuel _ batch
  cases fuel with
  | zero => exact .pure _
  | succ fuel => exact .pure _

theorem finishes_markPieces_cons (batch : List Write)
    (later : ∀ children, db.newPieces formats seen piece = .ok children → ∀ batch,
      Finishes db (markPieces fuel batch (piece :: seen) (children ++ rest) :
        PageRoutine formats (List Write))) :
    Finishes db (markPieces (fuel + 1) batch seen (piece :: rest) :
      PageRoutine formats (List Write)) := by
  apply Finishes.bind (computes_setObjectStatus db _ _ _) (finishes_setObjectStatus db _ _ _)
  intro longer _
  split
  case isTrue isIndex =>
    apply Finishes.bind (computes_readObject db piece) (.returnOnError _)
    intro content isRead
    apply Finishes.bind (computes_parseFileIndex db content) (.returnOnError _)
    intro fileIndex isParsed
    apply later
    rw [newPieces, if_pos isIndex, readFileIndex]
    cases found : db.read (.object piece.objectDigest) with
    | error status => rw [found] at isRead; cases isRead
    | ok stored =>
      rw [found] at isRead
      cases isRead
      cases parsed : parseFileIndex formats content with
      | error status => rw [parsed] at isParsed; cases isParsed
      | ok index =>
        rw [parsed] at isParsed
        cases isParsed
        simp [parsed, Except.map, bind, Except.bind]
  case isFalse notIndex => exact later [] (by rw [newPieces, if_neg notIndex]) _

theorem LoopEnds.cons (later : ∀ children, db.newPieces formats seen piece = .ok children →
    LoopEnds formats db (piece :: seen) (children ++ rest)) :
    LoopEnds formats db seen (piece :: rest) := by
  have common : ∃ enough, ∀ fuel, enough ≤ fuel → ∀ children,
      db.newPieces formats seen piece = .ok children → ∀ batch,
      Finishes db (markPieces fuel batch (piece :: seen) (children ++ rest) :
        PageRoutine formats (List Write)) := by
    cases isNew : db.newPieces formats seen piece with
    | error status =>
      use 0
      rintro fuel - children ⟨⟩
    | ok children =>
      obtain ⟨enough, ends⟩ := later children isNew
      use enough
      rintro fuel isEnough others ⟨⟩
      exact ends fuel isEnough
  obtain ⟨enough, ends⟩ := common
  use enough + 1
  intro fuel isEnough batch
  obtain ⟨fuel, rfl⟩ := Nat.exists_eq_add_of_le' (Nat.le_of_add_left_le isEnough)
  exact finishes_markPieces_cons batch (ends fuel (by omega))

/-- The loop ends for all identifiers of a list that is closed under pieces.  A piece that is not
seen yet leaves fewer such pieces; one that is seen is dropped, or brings one that is not. -/
theorem loopEnds_of_closed
    (closed : ∀ index piece, HasPiece formats db index piece → piece ∈ identifiers)
    (within : ∀ piece ∈ pending, piece ∈ identifiers) : LoopEnds formats db seen pending := by
  induction bound : unseen identifiers seen using Nat.strong_induction_on
    generalizing seen pending with
  | h left outer =>
    have withinNew : ∀ {seen piece children rest}, (∀ other ∈ piece :: rest, other ∈ identifiers) →
        db.newPieces formats seen piece = .ok children →
        ∀ other ∈ children ++ rest, other ∈ identifiers := by
      intro seen piece children rest within isNew other isPending
      rcases mem_append.mp isPending with isChild | isRest
      · exact closed _ _ ((mem_newPieces isNew).mp isChild).1
      · exact within other (mem_cons_of_mem _ isRest)
    have fresh : ∀ {seen piece rest}, unseen identifiers seen ≤ left → piece ∉ seen →
        (∀ other ∈ piece :: rest, other ∈ identifiers) →
        LoopEnds formats db seen (piece :: rest) := by
      intro seen piece rest atMost isUnseen within
      apply LoopEnds.cons
      intro children isNew
      have fewer := unseen_lt (within piece mem_cons_self) isUnseen
      exact outer _ (fewer.trans_le atMost) (withinNew within isNew) rfl
    have atMost := bound.le
    clear bound
    induction pending generalizing seen with
    | nil => exact loopEnds_nil
    | cons piece rest inner =>
      by_cases isSeen : piece ∈ seen
      · apply LoopEnds.cons
        intro children isNew
        have stillAtMost : unseen identifiers (piece :: seen) ≤ left := unseen_le.trans atMost
        have withinRest := withinNew within isNew
        cases children with
        | nil => exact inner withinRest stillAtMost
        | cons child others =>
          have isUnseen := ((mem_newPieces isNew).mp mem_cons_self).2
          exact fresh stillAtMost isUnseen withinRest
      · exact fresh atMost isSeen within

theorem loopEnds (formats : StorageFormats) (db : PageDb) (seen pending : List ObjectIdentifier) :
    LoopEnds formats db seen pending := by
  apply loopEnds_of_closed
  · intro index piece hasPiece
    exact mem_append_right pending hasPiece.mem_storedPieces
  · intro piece isPending
    exact mem_append_left _ isPending

/-- What a call of `MarkAllPiecesLocal` gives with enough fuel. -/
structure MarksPieces (world : PageWorld formats) (batch : List Write)
    (given : List ObjectIdentifier) (outcome : Except Fault (List Write)) : Prop where
  terminates : outcome ≠ .error .outOfFuel
  marks : ∀ writes, outcome = .ok writes → ∃ marks, writes = batch ++ marks ∧
    PageDb.MarkedLocal formats world.db given (world.db.writeAll marks)
  fails : ∀ index, PageDb.ReachedPiece formats world.db given index →
    ¬PageDb.Readable formats world.db index → ∃ status, outcome = .error (.status status)
  succeeds : world.failures = [] →
    (∀ index, PageDb.ReachedPiece formats world.db given index →
      PageDb.Readable formats world.db index) → ∃ writes, outcome = .ok writes

/-- On every database `MarkAllPiecesLocal` ends, and marks the pieces that it reaches. -/
theorem markAllPiecesLocal_run (formats : StorageFormats) (db : PageDb) (batch : List Write)
    (given : List ObjectIdentifier) :
    ∃ enough, ∀ fuel, enough ≤ fuel → ∀ world : PageWorld formats, world.db = db →
      MarksPieces world batch given (world.call (markAllPiecesLocal fuel batch given)).1 := by
  obtain ⟨enough, ends⟩ := loopEnds formats db [] given.reverse
  use enough
  rintro fuel isEnough world rfl
  have computes := @computes_markPieces formats world.db fuel batch [] given.reverse
  have terminates := ends fuel isEnough batch world rfl
  have visits : ∀ writes, (world.call (markAllPiecesLocal fuel batch given)).1 = .ok writes →
      ∃ visited, writes = batch ++ world.db.marksOf visited ∧
        Visits formats world.db [] given visited := by
    intro writes isOk
    obtain ⟨visited, isBatch, visits⟩ :=
      visits_of_markPieces (computes.sound world rfl writes isOk)
    exact ⟨visited, isBatch, visits.of_reverse⟩
  constructor
  case terminates => exact terminates
  case marks =>
    intro writes isOk
    obtain ⟨visited, isBatch, visits⟩ := visits writes isOk
    exact ⟨_, isBatch, visits.markedLocal⟩
  case fails =>
    intro index isReached unreadable
    cases outcome : (world.call (markAllPiecesLocal fuel batch given)).1 with
    | error fault =>
      cases fault with
      | outOfFuel => exact absurd outcome terminates
      | status status => exact ⟨status, rfl⟩
    | ok writes =>
      obtain ⟨visited, -, visits⟩ := visits writes outcome
      exact absurd (visits.readable index (visits.mem_iff.mpr isReached)) unreadable
  case succeeds =>
    intro noFailures readable
    have exact := computes.exact world rfl noFailures
    have isEnough := terminates
    rw [exact] at isEnough
    rw [markAllPiecesLocal, exact]
    apply markPieces_isOk batch _ isEnough
    intro index isReached
    apply readable index (isReached.mono _)
    exact fun root isRoot => .given (mem_reverse.mp isRoot)

def singleFormats : StorageFormats where
  parseCommit _ := none
  parseFileIndex
    | [1] => some ⟨1, [(1, ⟨0, 0, List.replicate 33 1⟩)]⟩
    | _ => none

/-- A page with an index that is transient, and no row for its only piece. -/
def singleWorld : PageWorld singleFormats :=
  let index : ObjectIdentifier := ⟨0, 0, List.replicate 33 2⟩
  { emptyPage singleFormats with
    db := PageDb.initial.writeAll [.put (.object index.objectDigest) [1],
      .put (.objectStatus .transient index) ()] }

theorem singleWorld_acyclic (piece : ObjectIdentifier) :
    ¬Relation.TransGen (HasPiece singleFormats singleWorld.db) piece piece := by
  intro isCycle
  obtain ⟨_, hasPiece, -⟩ := head'_iff.mp isCycle
  obtain ⟨_, -, isPiece⟩ := tail'_iff.mp isCycle
  have isStored := isPiece.mem_storedPieces
  have isOnly : storedPieces singleFormats singleWorld.db = [⟨0, 0, replicate 33 1⟩] := by decide
  rw [isOnly, mem_singleton] at isStored
  have isIndex := hasPiece.isIndex
  rw [isStored] at isIndex
  exact absurd isIndex (by decide)

/-- A piece without a status gets one too. -/
theorem not_markAllPiecesLocal :
    ¬∀ (formats : StorageFormats) (world : PageWorld formats) (fuel : ℕ)
      (given : List ObjectIdentifier) (writes : List Write),
      (∀ piece, ¬Relation.TransGen (PageDb.HasPiece formats world.db) piece piece) →
      (world.call (markAllPiecesLocal fuel [] given)).1 = .ok writes →
      ∀ piece, (world.db.writeAll writes).objectStatus piece ≠ world.db.objectStatus piece →
        world.db.objectStatus piece = .transient := by
  intro holds
  have isTransient := holds singleFormats singleWorld 2 [⟨0, 0, replicate 33 2⟩] _
    singleWorld_acyclic rfl ⟨0, 0, replicate 33 1⟩ (by decide)
  exact absurd isTransient (by decide)

end Peridot
