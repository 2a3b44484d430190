import Peridot.CollectPieces

/-!
# What is collected

`CollectPieces` ends once, after it has told of all pieces.  It has told of the identifiers that are
reached through the indexes it was to go on with, unless an accessor call or an index has failed.
-/

namespace Peridot

open List PieceCollector Option CollectCall

namespace PieceCollector

variable {formats : StorageFormats} {content : ObjectIdentifier → Bytes}
  {collector next : PieceCollector} {onDone : OnDone}

/-- While anything is still to be called, so is the closure of `CollectPieces`. -/
theorem Joined.held_pos (joined : collector.Joined []) (isHeld : 0 < collector.held onDone) :
    0 < collector.held .collectPieces := by
  cases onDone with
  | collectPieces => exact isHeld
  | callback index =>
    induction index using Nat.strong_induction_on with
    | _ index ih =>
      have inIndexes := joined.isIndex index (by simpa using isHeld)
      have isIndex := getElem?_eq_getElem inIndexes
      have isPending := joined.pending index _ isIndex
      have isOpen : IsOpen collector.indexes[index] = true := isOpen_of_pending (by omega)
      have isCounted : 0 < collector.indexes.countP fun pieces =>
          IsOpen pieces && pieces.onDone == collector.indexes[index].onDone :=
        countP_pos_iff.mpr ⟨_, getElem_mem inIndexes, by simp [isOpen]⟩
      have holdsParent : 0 < collector.held collector.indexes[index].onDone := by
        rw [held]
        omega
      cases isParent : collector.indexes[index].onDone with
      | collectPieces => rwa [isParent] at holdsParent
      | callback parent =>
        rw [isParent] at holdsParent
        exact ih parent (joined.parent index _ parent isIndex isParent) holdsParent

theorem held_pos_of_open {pieces : IndexPieces} (isPieces : pieces ∈ collector.indexes)
    (isOpen : IsOpen pieces = true) : 0 < collector.held pieces.onDone := by
  have isCounted : 0 < collector.indexes.countP fun other =>
      IsOpen other && other.onDone == pieces.onDone :=
    countP_pos_iff.mpr ⟨pieces, isPieces, by simp [isOpen]⟩
  rw [held]
  omega

theorem held_pos_of_call {call : ObjectIdentifier × OnDone} (isCall : call ∈ collector.accessorCalls) :
    0 < collector.held call.2 := by
  have isCounted : 0 < (collector.accessorCalls.map Prod.snd).count call.2 :=
    count_pos_iff.mpr (mem_map_of_mem isCall)
  rw [held]
  omega

theorem held_pos_of_closure (isClosure : onDone ∈ collector.closures) :
    0 < collector.held onDone := by
  have isCounted := count_pos_iff.mpr isClosure
  rw [held]
  omega

variable {event : CollectEvent} {root : ObjectIdentifier}

section

variable (joined : collector.Joined [])
include joined

/-- An index with a piece that is still to be told of has not been finalized. -/
theorem Joined.not_finalized {child : ObjectIdentifier}
    {remaining : List ObjectIdentifier} {waiter : BaseWaiter completionAccumulator}
    (isMember : ⟨child :: remaining, waiter, onDone⟩ ∈ collector.indexes) :
    waiter.finalized = false := by
  rw [Bool.eq_false_iff]
  intro finalized
  have isEmpty := joined.noneRemains _ isMember finalized
  simp at isEmpty

theorem Joined.finals_eq_zero
    (isStep : PieceCollector.step formats content collector event = some next) :
    collector.finals = 0 := by
  have isHeld : 0 < collector.held .collectPieces := by
    cases collectStep_of_eq_some isStep with
    | reply isOk isCall => exact joined.held_pos (held_pos_of_call (mem_of_getElem? isCall))
    | piece accepted isPieces =>
      have isMember := mem_of_getElem? isPieces
      exact joined.held_pos (held_pos_of_open isMember
        (isOpen_of_not_finalized (joined.not_finalized isMember)))
    | finalize isPieces notFinalized =>
      exact joined.held_pos (held_pos_of_open (mem_of_getElem? isPieces)
        (isOpen_of_not_finalized notFinalized))
    | collectPieces isClosure | callback isClosure =>
      exact joined.held_pos (held_pos_of_closure (mem_of_getElem? isClosure))
  have isOnce := joined.last
  omega

/-- When nothing can happen any more, the end has been reached. -/
theorem Joined.ended
    (isStuck : ∀ event, PieceCollector.step formats content collector event = none) :
    collector.held .collectPieces = 0 := by
  have noCalls : collector.accessorCalls = [] := by
    cases isCalls : collector.accessorCalls with
    | nil => rfl
    | cons call calls =>
      have cannot := isStuck (.reply 0 true)
      simp [PieceCollector.step, isCalls] at cannot
  have noClosures : collector.closures = [] := by
    cases isClosures : collector.closures with
    | nil => rfl
    | cons onDone closures =>
      have cannot := isStuck (.runClosure 0)
      cases onDone with
      | collectPieces => simp [PieceCollector.step, isClosures, run] at cannot
      | callback index =>
        have isHeld : 0 < collector.held (.callback index) :=
          held_pos_of_closure (by simp [isClosures])
        have inIndexes := joined.isIndex index (by simpa using isHeld)
        simp [PieceCollector.step, isClosures, run, getElem?_eq_getElem inIndexes] at cannot
  have finalized : ∀ (index : ℕ) pieces, collector.indexes[index]? = some pieces →
      pieces.waiter.finalized = true := by
    rintro index ⟨remaining, waiter, onDone⟩ isPieces
    cases remaining with
    | cons child remaining =>
      have cannot := isStuck (.piece index true)
      simp [PieceCollector.step, isPieces] at cannot
    | nil =>
      have cannot := isStuck (.finalize index)
      simpa [PieceCollector.step, isPieces] using cannot
  -- An index waits for a later one, and the last of them for nothing.
  have allClosed : ∀ fromEnd index pieces, collector.indexes.length - index = fromEnd →
      collector.indexes[index]? = some pieces → IsOpen pieces = false := by
    intro fromEnd
    induction fromEnd using Nat.strong_induction_on with
    | _ fromEnd ih =>
      intro index pieces isPlace isPieces
      have isPending := joined.pending index pieces isPieces
      have noWaiting : (collector.indexes.countP fun other =>
          IsOpen other && other.onDone == .callback index) = 0 := by
        rw [countP_eq_zero]
        intro other isOther
        obtain ⟨place, isOther⟩ := mem_iff_getElem?.mp isOther
        by_cases isChild : other.onDone = .callback index
        · have isLater := joined.parent place other index isOther isChild
          have inIndexes := lt_of_getElem?_eq_some isOther
          simp [ih _ (by omega) place other rfl isOther]
        · simp [isChild]
      simp only [held, noCalls, noClosures, noWaiting, map_nil, count_nil] at isPending
      simp [IsOpen, finalized index pieces isPieces, isPending]
  have noneOpen : (collector.indexes.countP fun pieces =>
      IsOpen pieces && pieces.onDone == .collectPieces) = 0 := by
    rw [countP_eq_zero]
    intro pieces isPieces
    obtain ⟨index, isPieces⟩ := mem_iff_getElem?.mp isPieces
    simp [allClosed _ index pieces rfl isPieces]
  simp [held, noCalls, noClosures, noneOpen]

end

def Reported (log : List CollectCall) (identifier : ObjectIdentifier) : Prop :=
  ∃ accepted, .inProgress identifier accepted ∈ log

/-- The callback has been told of an identifier, and was to be told of its pieces. -/
def Accepted (log : List CollectCall) (identifier : ObjectIdentifier) : Prop :=
  .inProgress identifier true ∈ log

def IsIndex (identifier : ObjectIdentifier) : Prop :=
  getObjectDigestType identifier.objectDigest = .indexHash

/-- What is reached from an identifier through indexes that are accepted. -/
inductive Reached (formats : StorageFormats) (content : ObjectIdentifier → Bytes)
    (root : ObjectIdentifier) (accepted : ObjectIdentifier → Prop) : ObjectIdentifier → Prop where
  | root : Reached formats content root accepted root
  | piece {index child : ObjectIdentifier} {children : List ObjectIdentifier}
      (isReached : Reached formats content root accepted index) (isIndex : IsIndex index)
      (isAccepted : accepted index) (hasPieces : pieces formats content index = some children)
      (isChild : child ∈ children) : Reached formats content root accepted child

theorem Reached.mono {identifier : ObjectIdentifier} {accepted wider : ObjectIdentifier → Prop}
    (isReached : Reached formats content root accepted identifier)
    (isWider : ∀ other, accepted other → wider other) :
    Reached formats content root wider identifier := by
  induction isReached with
  | root => exact .root
  | piece _ isIndex isAccepted hasPieces isChild ih =>
    exact .piece ih isIndex (isWider _ isAccepted) hasPieces isChild

/-- The pieces of an index have been reported, or they are still to be. -/
def Expanded (formats : StorageFormats) (content : ObjectIdentifier → Bytes)
    (collector : PieceCollector) (inHand : List ObjectIdentifier) (identifier : ObjectIdentifier) :
    Prop :=
  ∃ children, pieces formats content identifier = some children ∧ ∀ child ∈ children,
    Reported collector.log child ∨ child ∈ inHand ∨
      ∃ index ∈ collector.indexes, child ∈ index.remaining

/-- What holds for the identifiers that the callback is told of, while it is about to be told of
some of them. -/
structure Collects (formats : StorageFormats) (content : ObjectIdentifier → Bytes)
    (first : ObjectIdentifier) (collector : PieceCollector) (inHand : List ObjectIdentifier) :
    Prop where
  isFirst : Reported collector.log first ∨ first ∈ inHand
  reported : ∀ identifier, Reported collector.log identifier →
    Reached formats content first (Accepted collector.log) identifier
  next : ∀ identifier ∈ inHand, Reached formats content first (Accepted collector.log) identifier
  calls : ∀ call ∈ collector.accessorCalls, IsIndex call.1 ∧ Accepted collector.log call.1
  remaining : ∀ index ∈ collector.indexes, ∀ child ∈ index.remaining,
    Reached formats content first (Accepted collector.log) child
  expanded : ∀ identifier, Accepted collector.log identifier → IsIndex identifier →
    collector.failures ≠ [] ∨ (∃ call ∈ collector.accessorCalls, call.1 = identifier) ∨
      Expanded formats content collector inHand identifier
  failures : ∀ identifier ∈ collector.failures, IsIndex identifier ∧
    Accepted collector.log identifier
  running : collector.running = true ↔ collector.failures = []

variable {log calls : List CollectCall} {identifier : ObjectIdentifier}

theorem Accepted.reported (isAccepted : Accepted log identifier) : Reported log identifier :=
  ⟨true, isAccepted⟩

theorem reported_append :
    Reported (log ++ calls) identifier ↔ Reported log identifier ∨ Reported calls identifier := by
  simp only [Reported, mem_append, exists_or]

theorem accepted_append :
    Accepted (log ++ calls) identifier ↔ Accepted log identifier ∨ Accepted calls identifier := by
  simp [Accepted]

variable {first : ObjectIdentifier} {inHand : List ObjectIdentifier}

/-- Closures and waiters do not matter to what is reported. -/
theorem Collects.of_eq (collects : Collects formats content first collector inHand)
    (reported : Reported next.log = Reported collector.log)
    (accepted : Accepted next.log = Accepted collector.log)
    (sameCalls : next.accessorCalls = collector.accessorCalls)
    (sameIndexes : next.indexes.map IndexPieces.remaining =
      collector.indexes.map IndexPieces.remaining)
    (sameFailures : next.failures = collector.failures)
    (sameRunning : next.running = collector.running) :
    Collects formats content first next inHand := by
  have sameRemaining : ∀ child, (∃ index ∈ next.indexes, child ∈ index.remaining) ↔
      ∃ index ∈ collector.indexes, child ∈ index.remaining := by
    intro child
    have same : (∃ remaining ∈ next.indexes.map IndexPieces.remaining, child ∈ remaining) ↔
        ∃ remaining ∈ collector.indexes.map IndexPieces.remaining, child ∈ remaining := by
      rw [sameIndexes]
    simpa only [List.mem_map, exists_exists_and_eq_and] using same
  constructor
  case isFirst => simpa only [reported] using collects.isFirst
  case reported => simpa only [reported, accepted] using collects.reported
  case next => simpa only [accepted] using collects.next
  case calls => simpa only [sameCalls, accepted] using collects.calls
  case remaining =>
    intro index isIndex child isChild
    obtain ⟨other, isOther, isSame⟩ := (sameRemaining child).mp ⟨index, isIndex, isChild⟩
    rw [accepted]
    exact collects.remaining other isOther child isSame
  case expanded =>
    simpa only [Expanded, reported, accepted, sameFailures, sameCalls, sameRemaining] using
      collects.expanded
  case failures => simpa only [sameFailures, accepted] using collects.failures
  case running => rw [sameRunning, sameFailures, collects.running]

theorem reported_append_last (log : List CollectCall) {last : CollectCall}
    (isLast : last = .done ∨ last = .error) : Reported (log ++ [last]) = Reported log ∧
      Accepted (log ++ [last]) = Accepted log := by
  have notReport : ∀ identifier accepted, (.inProgress identifier accepted : CollectCall) ≠ last := by
    rintro identifier accepted rfl
    simp at isLast
  constructor
  · funext identifier
    simp [Reported, notReport]
  · funext identifier
    simp [Accepted, notReport]

theorem Collects.collectPiecesInternal
    (collects : Collects formats content first collector (identifier :: inHand)) (onDone : OnDone)
    (accepted : Bool) : Collects formats content first
      (collector.collectPiecesInternal identifier onDone accepted) inHand := by
  have isReached := collects.next identifier (mem_cons_self ..)
  have widen : ∀ other, Accepted collector.log other →
      Accepted (collector.log ++ [.inProgress identifier accepted]) other := fun other isAccepted =>
    accepted_append.mpr (.inl isAccepted)
  have isReported : Reported [.inProgress identifier accepted] identifier := ⟨accepted, by simp⟩
  have isNew : ∀ {other}, Reported [.inProgress identifier accepted] other → other = identifier := by
    rintro other ⟨verdict, isCall⟩
    simp only [mem_singleton, inProgress.injEq] at isCall
    exact isCall.1
  have logged : ∀ calls : List (ObjectIdentifier × OnDone),
      (∀ call ∈ calls, call ∈ collector.accessorCalls ∨ call.1 = identifier ∧ IsIndex identifier ∧
        accepted = true) →
      (∀ call ∈ collector.accessorCalls, call ∈ calls) →
      (accepted = true → IsIndex identifier → ∃ call ∈ calls, call.1 = identifier) →
      Collects formats content first { collector with
        log := collector.log ++ [.inProgress identifier accepted]
        accessorCalls := calls } inHand := by
    intro calls isCall isKept isCalled
    constructor
    case isFirst =>
      rw [reported_append]
      rcases collects.isFirst with isOld | isNext
      · exact .inl (.inl isOld)
      · rcases mem_cons.mp isNext with rfl | isRest
        · exact .inl (.inr isReported)
        · exact .inr isRest
    case reported =>
      intro other isOther
      rcases reported_append.mp isOther with isOld | isLast
      · exact (collects.reported other isOld).mono widen
      · rw [isNew isLast]
        exact isReached.mono widen
    case next =>
      exact fun other isOther => (collects.next other (mem_cons_of_mem _ isOther)).mono widen
    case calls =>
      intro call inCalls
      rcases isCall call inCalls with isOld | ⟨isSame, isIndex, rfl⟩
      · exact (collects.calls call isOld).imp_right (widen _)
      · rw [isSame]
        exact ⟨isIndex, accepted_append.mpr (.inr (by simp [Accepted]))⟩
    case remaining =>
      exact fun index isIndex child isChild => (collects.remaining index isIndex child isChild).mono widen
    case expanded =>
      intro other isAccepted isIndex
      rcases accepted_append.mp isAccepted with isOld | isLast
      · rcases collects.expanded other isOld isIndex with failed | ⟨call, inCalls, isSame⟩ | expanded
        · exact .inl failed
        · exact .inr (.inl ⟨call, isKept call inCalls, isSame⟩)
        · obtain ⟨children, hasPieces, others⟩ := expanded
          refine .inr (.inr ⟨children, hasPieces, fun child isChild => ?_⟩)
          rw [reported_append]
          rcases others child isChild with isReported | isNext | isRemaining
          · exact .inl (.inl isReported)
          · rcases mem_cons.mp isNext with rfl | isRest
            · exact .inl (.inr ‹_›)
            · exact .inr (.inl isRest)
          · exact .inr (.inr isRemaining)
      · simp only [Accepted, mem_singleton, inProgress.injEq] at isLast
        obtain ⟨rfl, rfl⟩ := isLast
        exact .inr (.inl (isCalled rfl isIndex))
    case failures => exact fun other isFailure => (collects.failures other isFailure).imp_right (widen _)
    case running => exact collects.running
  rw [PieceCollector.collectPiecesInternal]
  cases accepted with
  | false =>
    exact (logged collector.accessorCalls (fun _ isCall => .inl isCall) (fun _ isCall => isCall)
      (by simp)).of_eq rfl rfl rfl rfl rfl rfl
  | true =>
    by_cases isIndex : getObjectDigestType identifier.objectDigest = .indexHash
    · rw [if_neg (by simp), if_neg (not_not.mpr isIndex)]
      refine logged _ ?_ (fun _ isCall => mem_append_left _ isCall) ?_
      · exact forall_mem_concat.mpr ⟨fun call isOld => .inl isOld, .inr ⟨rfl, isIndex, rfl⟩⟩
      · exact fun _ _ => ⟨_, mem_append_right _ (mem_singleton_self _), rfl⟩
    · rw [if_neg (by simp), if_pos isIndex]
      exact (logged collector.accessorCalls (fun _ isCall => .inl isCall) (fun _ isCall => isCall)
        fun _ isIndexToo => absurd isIndexToo isIndex).of_eq rfl rfl rfl rfl rfl rfl

theorem collects_collectPieces (root : ObjectIdentifier) (accepted : Bool) :
    Collects formats content root (collectPieces root accepted) [] := by
  apply Collects.collectPiecesInternal
  constructor
  case isFirst => exact .inr (mem_singleton_self root)
  case reported =>
    rintro identifier ⟨verdict, isCall⟩
    simp at isCall
  case next =>
    intro identifier isNext
    rw [mem_singleton.mp isNext]
    exact .root
  case calls | remaining | failures | running => simp
  case expanded =>
    intro identifier isAccepted
    simp [Accepted] at isAccepted

theorem Collects.piece (collects : Collects formats content first collector []) {index : ℕ}
    {child : ObjectIdentifier} {remaining : List ObjectIdentifier}
    {waiter after : BaseWaiter completionAccumulator}
    (isPieces : collector.indexes[index]? = some ⟨child :: remaining, waiter, onDone⟩) :
    Collects formats content first
      { collector with indexes := collector.indexes.set index ⟨remaining, after, onDone⟩ }
      [child] := by
  have isMember := mem_of_getElem? isPieces
  have isNew : (⟨remaining, after, onDone⟩ : IndexPieces) ∈
      collector.indexes.set index ⟨remaining, after, onDone⟩ :=
    mem_set (lt_of_getElem?_eq_some isPieces) _
  exact { collects with
    isFirst := collects.isFirst.imp_right fun isNext => by simp at isNext
    next := by
      intro identifier isNext
      rw [mem_singleton.mp isNext]
      exact collects.remaining _ isMember child (mem_cons_self ..)
    remaining := by
      intro other isOther identifier isRemaining
      rcases mem_or_eq_of_mem_set isOther with isOld | rfl
      · exact collects.remaining other isOld identifier isRemaining
      · exact collects.remaining _ isMember identifier (mem_cons_of_mem _ isRemaining)
    expanded := by
      intro identifier isAccepted isIndex
      rcases collects.expanded identifier isAccepted isIndex with failed | isCalled | expanded
      · exact .inl failed
      · exact .inr (.inl isCalled)
      · obtain ⟨children, hasPieces, others⟩ := expanded
        refine .inr (.inr ⟨children, hasPieces, fun other isChild => ?_⟩)
        rcases others other isChild with isReported | isNext | ⟨pieces, isOld, isRemaining⟩
        · exact .inl isReported
        · simp at isNext
        · obtain ⟨place, isPlace⟩ := mem_iff_getElem?.mp isOld
          by_cases same : place = index
          · subst same
            obtain rfl := some.inj (isPieces.symm.trans isPlace)
            rcases mem_cons.mp isRemaining with rfl | isLater
            · exact .inr (.inl (mem_singleton_self _))
            · exact .inr (.inr ⟨_, isNew, isLater⟩)
          · have isKept : pieces ∈ collector.indexes.set index ⟨remaining, after, onDone⟩ :=
              mem_of_getElem? (getElem?_set_eq_some.mpr (.inr ⟨same, isPlace⟩))
            exact .inr (.inr ⟨pieces, isKept, isRemaining⟩) }

/-- Once something has failed, what is reported need not be complete. -/
theorem Collects.stop (collects : Collects formats content first collector inHand)
    (sameLog : next.log = collector.log) (sameIndexes : next.indexes = collector.indexes)
    (fewerCalls : ∀ call ∈ next.accessorCalls, call ∈ collector.accessorCalls)
    (failed : next.failures ≠ []) (failures : ∀ identifier ∈ next.failures, IsIndex identifier ∧
      Accepted collector.log identifier)
    (notRunning : next.running = false) : Collects formats content first next inHand where
  isFirst := sameLog ▸ collects.isFirst
  reported := sameLog ▸ collects.reported
  next := sameLog ▸ collects.next
  calls := fun call isCall => sameLog ▸ collects.calls call (fewerCalls call isCall)
  remaining := sameLog ▸ sameIndexes ▸ collects.remaining
  expanded := fun _ _ _ => .inl failed
  failures := sameLog ▸ failures
  running := by simp [notRunning, failed]

theorem Collects.reply (collects : Collects formats content first collector []) {call : ℕ}
    {root : ObjectIdentifier} (isCall : collector.accessorCalls[call]? = some (root, onDone))
    (isOk : Bool) : Collects formats content first (onData formats content { collector with
          accessorCalls := collector.accessorCalls.eraseIdx call
          failures :=
            if !isOk || (pieces formats content root).isNone then collector.failures ++ [root]
            else collector.failures } root onDone isOk) [] := by
  obtain ⟨inCalls, isElement⟩ := List.getElem?_eq_some_iff.mp isCall
  have isMember := mem_of_getElem? isCall
  have fewer : ∀ other ∈ collector.accessorCalls.eraseIdx call, other ∈ collector.accessorCalls :=
    fun other isOther => mem_of_mem_eraseIdx isOther
  by_cases fails : (!isOk || (pieces formats content root).isNone) = true
  · have failures : ∀ identifier ∈ collector.failures ++ [root], IsIndex identifier ∧
        Accepted collector.log identifier := by
      exact forall_mem_concat.mpr ⟨collects.failures, collects.calls _ isMember⟩
    rw [if_pos fails, onData]
    split
    case isTrue notRunning =>
      exact collects.stop rfl rfl fewer (by simp) failures (by simpa using notRunning)
    case isFalse =>
      split
      case isTrue => exact collects.stop rfl rfl fewer (by simp) failures rfl
      case isFalse hasData =>
        have noPieces : pieces formats content root = none := by simpa [hasData] using fails
        rw [noPieces]
        exact collects.stop rfl rfl fewer (by simp) failures rfl
  · have hasPieces : isOk = true ∧ ∃ children, pieces formats content root = some children := by
      simpa [isSome_iff_exists, ne_none_iff_exists'] using fails
    obtain ⟨rfl, children, hasPieces⟩ := hasPieces
    rw [if_neg fails, onData]
    cases isRunning : collector.running with
    | false =>
      have failed : collector.failures ≠ [] := fun noFailure => by
        simp [collects.running.mpr noFailure] at isRunning
      simp only [Bool.not_false, if_true]
      exact collects.stop rfl rfl fewer failed collects.failures rfl
    | true =>
      simp only [Bool.not_true, Bool.false_eq_true, if_false, hasPieces]
      exact { collects with
        calls := fun other isOther => collects.calls other (fewer other isOther)
        remaining := by
          intro index isIndex child isChild
          rcases mem_append.mp isIndex with isOld | isLast
          · exact collects.remaining index isOld child isChild
          · rw [mem_singleton.mp isLast] at isChild
            obtain ⟨isIndex, isAccepted⟩ := collects.calls _ isMember
            exact .piece (collects.reported root isAccepted.reported) isIndex isAccepted hasPieces
              isChild
        expanded := by
          intro identifier isAccepted isIndex
          rcases collects.expanded identifier isAccepted isIndex with
            failed | ⟨other, isOther, isSame⟩ | expanded
          · exact .inl failed
          · have isPerm := getElem_cons_eraseIdx_perm inCalls
            rw [isElement] at isPerm
            rcases mem_cons.mp (isPerm.mem_iff.mpr isOther) with rfl | isKept
            · subst isSame
              refine .inr (.inr ⟨children, hasPieces, fun child isChild => .inr (.inr ?_)⟩)
              exact ⟨_, mem_append_right _ (mem_singleton_self _), isChild⟩
            · exact .inr (.inl ⟨other, isKept, isSame⟩)
          · obtain ⟨others, othersPieces, isTold⟩ := expanded
            refine .inr (.inr ⟨others, othersPieces, fun child isChild => ?_⟩)
            rcases isTold child isChild with isReported | isNext | ⟨index, isOld, isRemaining⟩
            · exact .inl isReported
            · exact .inr (.inl isNext)
            · exact .inr (.inr ⟨index, mem_append_left _ isOld, isRemaining⟩)
        running := iff_of_true rfl (collects.running.mp isRunning) }

def InProgressOnly (log : List CollectCall) : Prop :=
  ∀ call ∈ log, ∃ identifier accepted, call = .inProgress identifier accepted

def Ends (log : List CollectCall) (last : CollectCall) : Prop :=
  ∃ told, InProgressOnly told ∧ log = told ++ [last]

def lastCall (collector : PieceCollector) : CollectCall :=
  if collector.failures = [] then .done else .error

def EndsLast (collector : PieceCollector) : Prop :=
  InProgressOnly collector.log ∧ collector.finals = 0 ∨
    Ends collector.log (lastCall collector) ∧ collector.finals = 1

theorem finals_of_inProgressOnly (told : InProgressOnly collector.log) : collector.finals = 0 := by
  rw [finals, countP_eq_zero]
  intro call isCall
  obtain ⟨identifier, accepted, rfl⟩ := told call isCall
  simp

theorem log_step (isStep : PieceCollector.step formats content collector event = some next) :
    next.log = collector.log ∨
      (∃ identifier accepted, next.log = collector.log ++ [.inProgress identifier accepted]) ∨
      next.failures = collector.failures ∧
        next.log = collector.log ++ [if collector.running then .done else .error] := by
  cases collectStep_of_eq_some isStep with
  | reply =>
    left
    simp only [onData]
    split
    · rfl
    · split
      · rfl
      · split <;> rfl
  | @piece _ child _ _ _ accepted =>
    refine .inr (.inl ⟨child, accepted, ?_⟩)
    simp only [collectPiecesInternal]
    split
    · rfl
    · split <;> rfl
  | collectPieces => exact .inr (.inr ⟨rfl, rfl⟩)
  | finalize | callback =>
    left
    rw [fire]
    split <;> rfl

theorem Collects.step (collects : Collects formats content first collector [])
    (isStep : PieceCollector.step formats content collector event = some next) :
    Collects formats content first next [] := by
  have fires : ∀ (before : PieceCollector) (fired : Option Bool) (onDone : OnDone),
      Collects formats content first before [] →
        Collects formats content first (before.fire fired onDone) [] := by
    intro before fired onDone beforeCollects
    rw [fire]
    split
    · exact beforeCollects.of_eq rfl rfl rfl rfl rfl rfl
    · exact beforeCollects
  have sameRemaining : ∀ {index : ℕ} {pieces after : IndexPieces},
      collector.indexes[index]? = some pieces → after.remaining = pieces.remaining →
        (collector.indexes.set index after).map IndexPieces.remaining =
          collector.indexes.map IndexPieces.remaining := by
    intro index pieces after isPieces same
    obtain ⟨inIndexes, rfl⟩ := List.getElem?_eq_some_iff.mp isPieces
    have inMap : index < (collector.indexes.map IndexPieces.remaining).length := by
      simpa using inIndexes
    rw [map_set, same]
    simpa using set_getElem_self inMap
  cases collectStep_of_eq_some isStep with
  | reply isOk isCall => exact collects.reply isCall isOk
  | piece accepted isPieces => exact (collects.piece isPieces).collectPiecesInternal _ accepted
  | finalize isPieces | callback _ isPieces =>
    exact fires _ _ _ (collects.of_eq rfl rfl rfl (sameRemaining isPieces rfl) rfl rfl)
  | collectPieces =>
    have isLast : (if collector.running then done else .error) = .done ∨
        (if collector.running then done else .error) = .error := by
      split
      · exact .inl rfl
      · exact .inr rfl
    obtain ⟨sameReported, sameAccepted⟩ := reported_append_last collector.log isLast
    exact collects.of_eq sameReported sameAccepted rfl rfl rfl rfl

/-- The last call is made once, and says whether anything has failed. -/
theorem EndsLast.step (endsLast : EndsLast collector) (joined : collector.Joined [])
    (collects : Collects formats content first collector [])
    (isStep : PieceCollector.step formats content collector event = some next) : EndsLast next := by
  have notEnded := joined.finals_eq_zero isStep
  have isOnce := (joined.step isStep).last
  have told : InProgressOnly collector.log := by
    rcases endsLast with ⟨told, -⟩ | ⟨-, hasEnded⟩
    · exact told
    · omega
  rcases log_step isStep with sameLog | ⟨identifier, accepted, isLog⟩ | ⟨sameFailures, isLog⟩
  · have nextTold : InProgressOnly next.log := sameLog ▸ told
    exact .inl ⟨nextTold, finals_of_inProgressOnly nextTold⟩
  · have nextTold : InProgressOnly next.log := by
      rw [isLog]
      intro call isCall
      rcases mem_append.mp isCall with isOld | isLast
      · exact told call isOld
      · exact ⟨identifier, accepted, mem_singleton.mp isLast⟩
    exact .inl ⟨nextTold, finals_of_inProgressOnly nextTold⟩
  · have isLast : (if collector.running then done else .error) = lastCall next := by
      rw [lastCall, sameFailures]
      by_cases noFailure : collector.failures = []
      · rw [if_pos (collects.running.mpr noFailure), if_pos noFailure]
      · rw [if_neg (mt collects.running.mp noFailure), if_neg noFailure]
    rw [isLast] at isLog
    refine .inr ⟨⟨collector.log, told, isLog⟩, ?_⟩
    have isFinal : (lastCall next == .done || lastCall next == .error) = true := by
      rw [lastCall]
      split <;> rfl
    have wasZero : collector.log.countP (fun call => call == .done || call == .error) = 0 := notEnded
    rw [finals, isLog, countP_append, wasZero, countP_cons, if_pos isFinal]
    rfl

theorem endsLast_collectPieces (root : ObjectIdentifier) (accepted : Bool) :
    EndsLast (collectPieces root accepted) := by
  have told : InProgressOnly (collectPieces root accepted).log := by
    intro call isCall
    have isLog : (collectPieces root accepted).log = [.inProgress root accepted] := by
      simp only [collectPieces, collectPiecesInternal]
      split
      · rfl
      · split <;> rfl
    rw [isLog] at isCall
    exact ⟨root, accepted, mem_singleton.mp isCall⟩
  exact .inl ⟨told, finals_of_inProgressOnly told⟩

structure Serves (formats : StorageFormats) (content : ObjectIdentifier → Bytes)
    (root : ObjectIdentifier) (collector : PieceCollector) : Prop where
  joined : collector.Joined []
  collects : Collects formats content root collector []
  endsLast : EndsLast collector

theorem serves_collectPieces (root : ObjectIdentifier) (accepted : Bool) :
    Serves formats content root (collectPieces root accepted) where
  joined := joined_collectPieces root accepted
  collects := collects_collectPieces root accepted
  endsLast := endsLast_collectPieces root accepted

theorem Serves.step (serves : Serves formats content first collector)
    (isStep : PieceCollector.step formats content collector event = some next) :
    Serves formats content first next where
  joined := serves.joined.step isStep
  collects := serves.collects.step isStep
  endsLast := serves.endsLast.step serves.joined serves.collects isStep

/-- With nothing left to be called, all that is reached has been reported, unless something has
failed. -/
theorem Serves.reported_iff (serves : Serves formats content first collector)
    (hasEnded : collector.held .collectPieces = 0) (noFailure : collector.failures = [])
    (identifier : ObjectIdentifier) : Reported collector.log identifier ↔
      Reached formats content first (Accepted collector.log) identifier := by
  have noneHeld : ∀ onDone, collector.held onDone = 0 := by
    intro onDone
    by_contra isHeld
    have isLast := serves.joined.held_pos (Nat.pos_of_ne_zero isHeld)
    omega
  have noCalls : ∀ call, call ∉ collector.accessorCalls := by
    intro call isCall
    have isHeld := held_pos_of_call isCall
    rw [noneHeld] at isHeld
    exact absurd isHeld (lt_irrefl 0)
  have noneRemains : ∀ index ∈ collector.indexes, index.remaining = [] := by
    intro index isIndex
    apply serves.joined.noneRemains index isIndex
    by_contra notFinalized
    have isHeld := held_pos_of_open isIndex
      (isOpen_of_not_finalized (Bool.eq_false_iff.mpr notFinalized))
    rw [noneHeld] at isHeld
    exact absurd isHeld (lt_irrefl 0)
  constructor
  · exact serves.collects.reported identifier
  · intro isReached
    induction isReached with
    | root => exact serves.collects.isFirst.resolve_right (by simp)
    | @piece index child children _ isIndex isAccepted hasPieces isChild _ =>
      rcases serves.collects.expanded index isAccepted isIndex with
        failed | ⟨call, isCall, -⟩ | ⟨others, othersPieces, isTold⟩
      · exact absurd noFailure failed
      · exact absurd isCall (noCalls call)
      · obtain rfl := some.inj (hasPieces.symm.trans othersPieces)
        rcases isTold child isChild with isReported | isNext | ⟨pieces, isPieces, isRemaining⟩
        · exact isReported
        · simp at isNext
        · rw [noneRemains pieces isPieces] at isRemaining
          simp at isRemaining

def IsPiece (formats : StorageFormats) (content : ObjectIdentifier → Bytes)
    (child index : ObjectIdentifier) : Prop :=
  IsIndex index ∧ child ∈ (pieces formats content index).getD []

/-- Going from an object to one of its pieces again and again comes to an end. -/
def Acyclic (formats : StorageFormats) (content : ObjectIdentifier → Bytes) : Prop :=
  WellFounded (IsPiece formats content)

/-- A number of steps that is enough for an identifier with all its pieces. -/
def IsWeight (formats : StorageFormats) (content : ObjectIdentifier → Bytes)
    (weight : ObjectIdentifier → ℕ) : Prop :=
  ∀ identifier, 4 ≤ weight identifier ∧ (IsIndex identifier →
    4 + (((pieces formats content identifier).getD []).map weight).sum ≤ weight identifier)

theorem exists_isWeight (acyclic : Acyclic formats content) :
    ∃ weight, IsWeight formats content weight := by
  classical
  use acyclic.fix fun index recurse =>
    if isIndex : IsIndex index then
      4 + (((pieces formats content index).getD []).attach.map fun child =>
        recurse child.1 ⟨isIndex, child.2⟩).sum
    else 4
  intro index
  rw [acyclic.fix_eq]
  split
  case isTrue isIndex => simp
  case isFalse notIndex => simp [notIndex]

def indexCost (weight : ObjectIdentifier → ℕ) (index : IndexPieces) : ℕ :=
  (index.remaining.map weight).sum + (if index.waiter.finalized then 0 else 1) +
    if IsOpen index then 1 else 0

def cost (weight : ObjectIdentifier → ℕ) (collector : PieceCollector) : ℕ :=
  (collector.accessorCalls.map fun call => weight call.1 - 1).sum +
    (collector.indexes.map (indexCost weight)).sum + collector.closures.length

theorem sum_map_set {α : Type} (f : α → ℕ) {elements : List α} {place : ℕ} {before : α}
    (isElement : elements[place]? = some before) (after : α) :
    ((elements.set place after).map f).sum + f before = (elements.map f).sum + f after := by
  obtain ⟨inElements, rfl⟩ := List.getElem?_eq_some_iff.mp isElement
  have afterSum := ((set_perm_cons_eraseIdx inElements after).map f).sum_nat
  have beforeSum := ((getElem_cons_eraseIdx_perm inElements).map f).sum_nat
  simp only [map_cons, sum_cons] at afterSum beforeSum
  omega

theorem cost_setIndex (weight : ObjectIdentifier → ℕ) {index : ℕ} {before : IndexPieces}
    (isIndex : collector.indexes[index]? = some before) (after : IndexPieces) :
    cost weight { collector with indexes := collector.indexes.set index after } +
      indexCost weight before = cost weight collector + indexCost weight after := by
  have sums := sum_map_set (indexCost weight) isIndex after
  simp only [cost]
  omega

theorem cost_fire (weight : ObjectIdentifier → ℕ) (fired : Option Bool) (onDone : OnDone) :
    cost weight (collector.fire fired onDone) =
      cost weight collector + if fired.isSome then 1 else 0 := by
  rw [fire]
  split
  · simp only [cost, length_append, length_singleton]
    omega
  · rfl

variable {weight : ObjectIdentifier → ℕ}

theorem cost_collectPiecesInternal (isWeight : IsWeight formats content weight)
    (root : ObjectIdentifier) (onDone : OnDone) (accepted : Bool) :
    cost weight (collector.collectPiecesInternal root onDone accepted) <
      cost weight collector + weight root := by
  have atLeast := (isWeight root).1
  rw [collectPiecesInternal]
  split
  · simp only [cost, length_append, length_singleton]
    omega
  · split
    · simp only [cost, length_append, length_singleton]
      omega
    · simp only [cost, map_append, map_cons, map_nil, sum_append, sum_cons, sum_nil]
      omega

theorem cost_onData (isWeight : IsWeight formats content weight)
    (isIndex : IsIndex root) (onDone : OnDone) (isOk : Bool) :
    cost weight (onData formats content collector root onDone isOk) + 1 <
      cost weight collector + weight root := by
  obtain ⟨atLeast, withPieces⟩ := isWeight root
  have withPieces := withPieces isIndex
  rw [onData]
  split
  · simp only [cost, length_append, length_singleton]
    omega
  · split
    · simp only [cost, length_append, length_singleton]
      omega
    · split
      · simp only [cost, length_append, length_singleton]
        omega
      case h_2 children hasPieces =>
        have newCost : indexCost weight ⟨children, BaseWaiter.create (), onDone⟩ =
            (children.map weight).sum + 2 := rfl
        rw [hasPieces, getD_some] at withPieces
        simp only [cost, map_append, map_cons, map_nil, sum_append, sum_cons, sum_nil, newCost]
        omega

theorem cost_takeCall (weight : ObjectIdentifier → ℕ) {call : ℕ}
    {accessorCall : ObjectIdentifier × OnDone}
    (isCall : collector.accessorCalls[call]? = some accessorCall)
    (failures : List ObjectIdentifier) : cost weight { collector with
      accessorCalls := collector.accessorCalls.eraseIdx call
      failures } + (weight accessorCall.1 - 1) = cost weight collector := by
  obtain ⟨inCalls, rfl⟩ := List.getElem?_eq_some_iff.mp isCall
  have sums := ((getElem_cons_eraseIdx_perm inCalls).map fun call => weight call.1 - 1).sum_nat
  simp only [map_cons, sum_cons] at sums
  simp only [cost]
  omega

theorem Serves.cost_step (isWeight : IsWeight formats content weight)
    (serves : Serves formats content first collector)
    (isStep : PieceCollector.step formats content collector event = some next) :
    cost weight next < cost weight collector := by
  have joined := serves.joined
  have takenCost : ∀ {place : ℕ} {onDone : OnDone}, collector.closures[place]? = some onDone →
      cost weight { collector with closures := collector.closures.eraseIdx place } + 1 =
        cost weight collector := by
    intro place onDone isClosure
    have inClosures := lt_of_getElem?_eq_some isClosure
    simp only [cost, length_eraseIdx_of_lt inClosures]
    omega
  cases collectStep_of_eq_some isStep with
  | @reply call root onDone isOk isCall =>
    have atLeast := (isWeight root).1
    have isIndex := (serves.collects.calls _ (mem_of_getElem? isCall)).1
    have isTaken := cost_takeCall weight isCall
      (if !isOk || (pieces formats content root).isNone then collector.failures ++ [root]
        else collector.failures)
    apply Nat.lt_of_succ_lt_succ
    apply (cost_onData isWeight isIndex onDone isOk).trans_le
    omega
  | @piece index child remaining waiter onDone accepted isPieces =>
    have isMember := mem_of_getElem? isPieces
    have notDone : waiter.done = false := joined.notDone _ isMember
    have notFinalized := joined.not_finalized isMember
    have setCost := cost_setIndex weight isPieces ⟨remaining, waiter.newCallback.2, onDone⟩
    have fewer : indexCost weight ⟨remaining, waiter.newCallback.2, onDone⟩ + weight child =
        indexCost weight ⟨child :: remaining, waiter, onDone⟩ := by
      simp only [indexCost, IsOpen, BaseWaiter.newCallback, notDone, notFinalized,
        map_cons, sum_cons]
      simp
      omega
    refine (cost_collectPiecesInternal isWeight child _ accepted).trans_le ?_
    omega
  | @finalize index waiter onDone isPieces notFinalized =>
    have notCancelled : waiter.cancelled = false := joined.notCancelled _ (mem_of_getElem? isPieces)
    have setCost := cost_setIndex weight isPieces ⟨[], waiter.finalize.2, onDone⟩
    have wasOpen : indexCost weight ⟨[], waiter, onDone⟩ = 2 := by
      simp [indexCost, IsOpen, notFinalized]
    have isClosed : waiter.finalize.2.finalized = true := by simp [BaseWaiter.finalize]
    rw [cost_fire, isSome_finalize notCancelled onDone]
    simp only [indexCost, map_nil, sum_nil, isClosed, if_true] at setCost wasOpen
    cases isOpen : IsOpen ⟨[], waiter.finalize.2, onDone⟩ <;>
      simp only [isOpen, Bool.not_true, Bool.not_false, if_true, Bool.false_eq_true,
        if_false] at setCost ⊢ <;> omega
  | @collectPieces place isClosure =>
    have sameCost : ∀ log, cost weight { collector with
        closures := collector.closures.eraseIdx place
        log } = cost weight { collector with
        closures := collector.closures.eraseIdx place } := fun _ => rfl
    have isTaken := takenCost isClosure
    rw [sameCost]
    omega
  | @callback place index pieces isClosure isPieces =>
    have isTaken := takenCost isClosure
    have taken := joined.takeClosure isClosure
    have isMember := mem_of_getElem? isPieces
    have notDone := taken.notDone pieces isMember
    have notCancelled := taken.notCancelled pieces isMember
    have isPending := taken.pending index pieces isPieces
    rw [count_cons_self] at isPending
    have wasOpen : IsOpen pieces = true := isOpen_of_pending (by omega)
    have stillPieces : ({ collector with
        closures := collector.closures.eraseIdx place }).indexes[index]? = some pieces := isPieces
    have setCost := cost_setIndex weight stillPieces
      { pieces with waiter := (pieces.waiter.callCallback (some true) ()).2 }
    have sameFinalized : (pieces.waiter.callCallback (some true) ()).2.finalized =
        pieces.waiter.finalized := by
      simp [BaseWaiter.callCallback, BaseWaiter.returnResult, notDone]
    rw [cost_fire, isSome_callCallback notDone notCancelled]
    simp only [indexCost, wasOpen, sameFinalized, if_true] at setCost
    cases isOpen : IsOpen { pieces with
        waiter := (pieces.waiter.callCallback (some true) ()).2 } <;>
      simp only [isOpen, Bool.not_true, Bool.not_false, if_true, Bool.false_eq_true,
        if_false] at setCost ⊢ <;> omega

/-- There is one end, after all reports: an error exactly when an index that was reached could not
be read, and otherwise the pieces that were reached have been reported, and no others. -/
structure CollectsOnce (formats : StorageFormats) (content : ObjectIdentifier → Bytes)
    (root : ObjectIdentifier) (collector : PieceCollector) : Prop where
  endsLast : InProgressOnly collector.log ∨ Ends collector.log .done ∨ Ends collector.log .error
  stops : (∀ event, PieceCollector.step formats content collector event = none) ↔
    Ends collector.log .done ∨ Ends collector.log .error
  complete : Ends collector.log .done → ∀ identifier, Reported collector.log identifier ↔
    Reached formats content root (Accepted collector.log) identifier
  isError : Ends collector.log .done ∨ Ends collector.log .error →
    (Ends collector.log .error ↔ collector.failures ≠ [])
  failures : ∀ identifier ∈ collector.failures, IsIndex identifier ∧
    Accepted collector.log identifier ∧
      Reached formats content root (Accepted collector.log) identifier

theorem ends_unique {first second : CollectCall} (isFirst : Ends log first)
    (isSecond : Ends log second) : first = second := by
  obtain ⟨told, -, rfl⟩ := isFirst
  obtain ⟨others, -, same⟩ := isSecond
  exact (append_inj' same rfl).2 |> singleton_inj.mp

theorem Serves.collectsOnce (serves : Serves formats content first collector) :
    CollectsOnce formats content first collector := by
  have isOnce := serves.joined.last
  have endsWith : ∀ {last : CollectCall}, last = .done ∨ last = .error → Ends collector.log last →
      collector.finals = 1 ∧ last = lastCall collector := by
    rintro last isLast hasEnded
    rcases serves.endsLast with ⟨told, -⟩ | ⟨isEnd, isFinal⟩
    · obtain ⟨before, -, isLog⟩ := hasEnded
      obtain ⟨identifier, accepted, rfl⟩ := told last (by simp [isLog])
      simp at isLast
    · exact ⟨isFinal, ends_unique hasEnded isEnd⟩
  have ended : Ends collector.log .done ∨ Ends collector.log .error → collector.finals = 1 := by
    rintro (isDone | isError)
    · exact (endsWith (.inl rfl) isDone).1
    · exact (endsWith (.inr rfl) isError).1
  have isEnd : collector.finals = 1 → Ends collector.log .done ∨ Ends collector.log .error := by
    intro isFinal
    rcases serves.endsLast with ⟨-, notFinal⟩ | ⟨isEnd, -⟩
    · omega
    · rw [lastCall] at isEnd
      split at isEnd
      · exact .inl isEnd
      · exact .inr isEnd
  constructor
  case endsLast =>
    rcases serves.endsLast with ⟨told, -⟩ | ⟨-, isFinal⟩
    · exact .inl told
    · exact .inr (isEnd isFinal)
  case stops =>
    constructor
    · intro isStuck
      have noneHeld := serves.joined.ended isStuck
      apply isEnd
      simp only [count_nil] at isOnce
      omega
    · intro hasEnded event
      have isFinal := ended hasEnded
      by_contra isStep
      obtain ⟨next, isStep⟩ := ne_none_iff_exists'.mp isStep
      have notEnded := serves.joined.finals_eq_zero isStep
      omega
  case complete =>
    intro isDone identifier
    obtain ⟨isFinal, isLast⟩ := endsWith (.inl rfl) isDone
    apply serves.reported_iff
    · simp only [count_nil] at isOnce
      omega
    · by_contra failed
      rw [lastCall, if_neg failed] at isLast
      simp at isLast
  case isError =>
    intro hasEnded
    constructor
    · intro isError noFailure
      have isLast := (endsWith (.inr rfl) isError).2
      rw [lastCall, if_pos noFailure] at isLast
      simp at isLast
    · intro failed
      refine hasEnded.resolve_left fun isDone => ?_
      have isLast := (endsWith (.inl rfl) isDone).2
      rw [lastCall, if_neg failed] at isLast
      simp at isLast
  case failures =>
    intro identifier isFailure
    obtain ⟨isIndex, isAccepted⟩ := serves.collects.failures identifier isFailure
    exact ⟨isIndex, isAccepted, serves.collects.reported identifier isAccepted.reported⟩

/-- Whatever the callback answers, and whatever the accessor calls give in whatever order, a
collection of pieces ends after a bounded number of steps. -/
theorem collectsOnce_run (acyclic : Acyclic formats content) (root : ObjectIdentifier) :
    ∃ bound, ∀ (accepted : Bool) (events : List CollectEvent) (final : PieceCollector),
      runSteps (PieceCollector.step formats content) (collectPieces root accepted) events =
        some final → events.length ≤ bound ∧ CollectsOnce formats content root final := by
  obtain ⟨weight, isWeight⟩ := exists_isWeight acyclic
  use max (cost weight (collectPieces root true)) (cost weight (collectPieces root false))
  intro accepted events final isRun
  have serves : Serves formats content root _ := serves_collectPieces root accepted
  constructor
  · have isShort := length_le_of_decreases (Serves formats content root) (cost weight)
      (fun serves isStep => serves.step isStep)
      (fun serves isStep => serves.cost_step isWeight isStep) serves isRun
    cases accepted with
    | true => exact isShort.trans (le_max_left ..)
    | false => exact isShort.trans (le_max_right ..)
  · exact (invariant_runSteps (Serves formats content root)
      (fun serves _ isStep => serves.step isStep) serves (eachStep_true events _) isRun).collectsOnce

/-- The first index has a value and the second index, which has the same value. -/
def nestedFormats : StorageFormats where
  parseCommit _ := none
  parseFileIndex
    | [1] => some ⟨2, [(1, ⟨0, 0, [7]⟩), (1, ⟨0, 0, List.replicate 33 2⟩)]⟩
    | [2] => some ⟨1, [(1, ⟨0, 0, [7]⟩)]⟩
    | _ => none

def nestedContent (identifier : ObjectIdentifier) : Bytes :=
  if identifier.objectDigest = 2 :: List.replicate 32 1 then [1]
  else if identifier.objectDigest = List.replicate 33 2 then [2]
  else identifier.objectDigest

theorem nested_acyclic : Acyclic nestedFormats nestedContent := by
  have ofValue : ∀ child, ¬ IsPiece nestedFormats nestedContent child ⟨0, 0, [7]⟩ :=
    fun _ isPiece => absurd isPiece.1 (by unfold IsIndex; decide)
  have value : Acc (IsPiece nestedFormats nestedContent) ⟨0, 0, [7]⟩ :=
    ⟨_, fun child isPiece => absurd isPiece (ofValue child)⟩
  have ofSecond : ∀ index, nestedContent index = [2] →
      Acc (IsPiece nestedFormats nestedContent) index := by
    intro index isSecond
    constructor
    intro child isPiece
    have isChild := isPiece.2
    simp [pieces, nestedFormats, isSecond] at isChild
    rwa [isChild]
  constructor
  intro index
  constructor
  intro child isPiece
  have isChild := isPiece.2
  simp only [pieces, nestedFormats] at isChild
  split at isChild
  · simp at isChild
    rcases isChild with rfl | rfl
    · exact value
    · exact ofSecond _ (by decide)
  · simp at isChild
    rwa [isChild]
  · simp at isChild

theorem collectsOnce_run_sample :
    (∃ bound, ∀ (accepted : Bool) (events : List CollectEvent) (final : PieceCollector),
      runSteps (PieceCollector.step nestedFormats nestedContent)
        (collectPieces ⟨0, 0, 2 :: List.replicate 32 1⟩ accepted) events = some final →
      events.length ≤ bound ∧
        CollectsOnce nestedFormats nestedContent ⟨0, 0, 2 :: List.replicate 32 1⟩ final) ∧
    ((runSteps (PieceCollector.step nestedFormats nestedContent)
        (collectPieces ⟨0, 0, 2 :: List.replicate 32 1⟩ true)
        [.reply 0 true, .piece 0 false, .piece 0 true, .runClosure 0, .reply 0 true, .finalize 0,
          .piece 1 true, .finalize 1, .runClosure 0, .runClosure 0, .runClosure 0]).map
        PieceCollector.log =
      some [.inProgress ⟨0, 0, 2 :: List.replicate 32 1⟩ true, .inProgress ⟨0, 0, [7]⟩ false,
        .inProgress ⟨0, 0, List.replicate 33 2⟩ true, .inProgress ⟨0, 0, [7]⟩ true, .done]) :=
  ⟨collectsOnce_run nested_acyclic _, by decide⟩

end PieceCollector

end Peridot
