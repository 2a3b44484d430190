import Mathlib.Data.List.Perm.Basic
import Peridot.AddCommits
import Peridot.CallList
import Peridot.Waiter

/-!
# Collecting pieces

`CollectPieces` of `split.cc`.  The callback is told of an identifier, and of the pieces of each
index that it accepts; the pieces of an index are joined by a waiter.  Accessor calls are answered
in any order, and a closure that is called runs at some later step.
-/

namespace Peridot

open List Option BaseWaiter

variable {formats : StorageFormats}

/-- A call of the callback: `IN_PROGRESS` with its verdict, `DONE` or `ERROR`. -/
inductive CollectCall where
  | inProgress (identifier : ObjectIdentifier) (accepted : Bool)
  | done
  | error
deriving DecidableEq

/-- The `on_done` of a call: the one of `CollectPieces`, or a callback of the waiter of an index. -/
inductive OnDone where
  | collectPieces
  | callback (index : ℕ)
deriving DecidableEq

structure IndexPieces where
  remaining : List ObjectIdentifier
  waiter : BaseWaiter completionAccumulator
  onDone : OnDone

/-- `CollectPiecesState`, with the calls and closures that are on their way. -/
structure PieceCollector where
  running : Bool
  accessorCalls : List (ObjectIdentifier × OnDone)
  indexes : List IndexPieces
  closures : List OnDone
  log : List CollectCall
  /-- The identifiers whose accessor call has failed, or has given what cannot be parsed. -/
  failures : List ObjectIdentifier

inductive CollectEvent where
  /-- An accessor call is answered. -/
  | reply (call : ℕ) (isOk : Bool)
  /-- The next piece of an index. -/
  | piece (index : ℕ) (accepted : Bool)
  | finalize (index : ℕ)
  | runClosure (place : ℕ)

namespace PieceCollector

/-- `CollectPiecesInternal`, up to the answer of its accessor call. -/
def collectPiecesInternal (collector : PieceCollector) (root : ObjectIdentifier) (onDone : OnDone)
    (accepted : Bool) : PieceCollector :=
  let collector := { collector with log := collector.log ++ [CollectCall.inProgress root accepted] }
  if !accepted then { collector with closures := collector.closures ++ [onDone] }
  else if getObjectDigestType root.objectDigest ≠ .indexHash then
    { collector with closures := collector.closures ++ [onDone] }
  else { collector with accessorCalls := collector.accessorCalls ++ [(root, onDone)] }

def collectPieces (root : ObjectIdentifier) (accepted : Bool) : PieceCollector :=
  collectPiecesInternal ⟨true, [], [], [], [], []⟩ root .collectPieces accepted

def pieces (formats : StorageFormats) (content : ObjectIdentifier → Bytes)
    (root : ObjectIdentifier) : Option (List ObjectIdentifier) :=
  (formats.parseFileIndex (content root)).map fun fileIndex => fileIndex.children.map Prod.snd

def onData (formats : StorageFormats) (content : ObjectIdentifier → Bytes)
    (collector : PieceCollector) (root : ObjectIdentifier) (onDone : OnDone) (isOk : Bool) :
    PieceCollector :=
  if !collector.running then { collector with closures := collector.closures ++ [onDone] }
  else if !isOk then
    { collector with
      running := false
      closures := collector.closures ++ [onDone] }
  else
    match pieces formats content root with
    | none =>
      { collector with
        running := false
        closures := collector.closures ++ [onDone] }
    | some children =>
      { collector with
        indexes := collector.indexes ++ [⟨children, create (), onDone⟩] }

/-- A waiter that fires calls the `on_done` of its index. -/
def fire (collector : PieceCollector) (fired : Option Bool) (onDone : OnDone) : PieceCollector :=
  if fired.isSome then { collector with closures := collector.closures ++ [onDone] } else collector

def run (collector : PieceCollector) : OnDone → Option PieceCollector
  | .collectPieces =>
    some { collector with
      log := collector.log ++ [if collector.running then .done else .error] }
  | .callback index =>
    (collector.indexes[index]?).map fun pieces =>
      let called := pieces.waiter.callCallback (some true) ()
      fire { collector with
        indexes := collector.indexes.set index { pieces with waiter := called.2 } }
        called.1 pieces.onDone

def step (formats : StorageFormats) (content : ObjectIdentifier → Bytes)
    (collector : PieceCollector) : CollectEvent → Option PieceCollector
  | .reply call isOk =>
    (collector.accessorCalls[call]?).map fun accessorCall =>
      onData formats content
        { collector with
          accessorCalls := collector.accessorCalls.eraseIdx call
          failures :=
            if !isOk || (pieces formats content accessorCall.1).isNone then
              collector.failures ++ [accessorCall.1]
            else collector.failures }
        accessorCall.1 accessorCall.2 isOk
  | .piece index accepted =>
    match collector.indexes[index]? with
    | some ⟨child :: remaining, waiter, onDone⟩ =>
      some (collectPiecesInternal { collector with
          indexes := collector.indexes.set index ⟨remaining, waiter.newCallback.2, onDone⟩ }
        child (.callback index) accepted)
    | _ => none
  | .finalize index =>
    match collector.indexes[index]? with
    | some ⟨[], waiter, onDone⟩ =>
      if waiter.finalized then none
      else
        some (fire { collector with
            indexes := collector.indexes.set index ⟨[], waiter.finalize.2, onDone⟩ }
          waiter.finalize.1 onDone)
    | _ => none
  | .runClosure place =>
    (collector.closures[place]?).bind fun onDone =>
      run { collector with closures := collector.closures.eraseIdx place } onDone

/-- What each event makes of a collector. -/
inductive CollectStep (formats : StorageFormats) (content : ObjectIdentifier → Bytes)
    (collector : PieceCollector) : PieceCollector → Prop where
  | reply {call : ℕ} {root : ObjectIdentifier} {onDone : OnDone} (isOk : Bool)
      (isCall : collector.accessorCalls[call]? = some (root, onDone)) :
      CollectStep formats content collector
        (onData formats content { collector with
            accessorCalls := collector.accessorCalls.eraseIdx call
            failures :=
              if !isOk || (pieces formats content root).isNone then collector.failures ++ [root]
              else collector.failures } root onDone isOk)
  | piece {index : ℕ} {child : ObjectIdentifier} {remaining : List ObjectIdentifier}
      {waiter : BaseWaiter completionAccumulator} {onDone : OnDone} (accepted : Bool)
      (isPieces : collector.indexes[index]? = some ⟨child :: remaining, waiter, onDone⟩) :
      CollectStep formats content collector
        (collectPiecesInternal { collector with
            indexes := collector.indexes.set index ⟨remaining, waiter.newCallback.2, onDone⟩ }
          child (.callback index) accepted)
  | finalize {index : ℕ} {waiter : BaseWaiter completionAccumulator} {onDone : OnDone}
      (isPieces : collector.indexes[index]? = some ⟨[], waiter, onDone⟩)
      (notFinalized : waiter.finalized = false) :
      CollectStep formats content collector
        (fire { collector with
            indexes := collector.indexes.set index ⟨[], waiter.finalize.2, onDone⟩ }
          waiter.finalize.1 onDone)
  | collectPieces {place : ℕ} (isClosure : collector.closures[place]? = some .collectPieces) :
      CollectStep formats content collector
        { collector with
          closures := collector.closures.eraseIdx place
          log := collector.log ++ [if collector.running then .done else .error] }
  | callback {place index : ℕ} {pieces : IndexPieces}
      (isClosure : collector.closures[place]? = some (.callback index))
      (isPieces : collector.indexes[index]? = some pieces) :
      CollectStep formats content collector
        (fire { collector with
            closures := collector.closures.eraseIdx place
            indexes := collector.indexes.set index
              { pieces with waiter := (pieces.waiter.callCallback (some true) ()).2 } }
          (pieces.waiter.callCallback (some true) ()).1 pieces.onDone)

variable {event : CollectEvent}

theorem collectStep_of_eq_some {content : ObjectIdentifier → Bytes}
    {collector next : PieceCollector} (isStep : step formats content collector event = some next) :
    CollectStep formats content collector next := by
  cases event with
  | reply call isOk =>
    obtain ⟨_, isCall, rfl⟩ := map_eq_some_iff.mp isStep
    exact .reply isOk isCall
  | piece index accepted =>
    rw [step] at isStep
    split at isStep
    case h_2 => simp at isStep
    case h_1 isPieces =>
      cases isStep
      exact .piece accepted isPieces
  | finalize index =>
    rw [step] at isStep
    split at isStep
    case h_2 => simp at isStep
    case h_1 isPieces =>
      rw [ite_none_left_eq_some, Bool.not_eq_true] at isStep
      obtain ⟨notFinalized, ⟨⟩⟩ := isStep
      exact .finalize isPieces notFinalized
  | runClosure place =>
    obtain ⟨onDone, isClosure, isRun⟩ := bind_eq_some_iff.mp isStep
    cases onDone with
    | collectPieces =>
      cases isRun
      exact .collectPieces isClosure
    | callback index =>
      obtain ⟨pieces, isPieces, rfl⟩ := map_eq_some_iff.mp isRun
      exact .callback isClosure isPieces

/-- An index whose `on_done` has not been called. -/
def IsOpen (pieces : IndexPieces) : Bool :=
  !(pieces.waiter.finalized && pieces.waiter.pendingCallbacks == 0)

def held (collector : PieceCollector) (onDone : OnDone) : ℕ :=
  (collector.accessorCalls.map Prod.snd).count onDone + collector.closures.count onDone +
    collector.indexes.countP fun pieces => IsOpen pieces && pieces.onDone == onDone

/-- The calls with which `CollectPieces` ends. -/
def finals (collector : PieceCollector) : ℕ :=
  collector.log.countP fun call => call == .done || call == .error

/-- What holds for the waiters and the closures, while some of these are about to be called: each
waiter has counted the closures that call it, and the last closure has been called or is called
once. -/
structure Joined (collector : PieceCollector) (inHand : List OnDone) : Prop where
  notDone : ∀ pieces ∈ collector.indexes, pieces.waiter.done = false
  notCancelled : ∀ pieces ∈ collector.indexes, pieces.waiter.cancelled = false
  noneRemains : ∀ pieces ∈ collector.indexes, pieces.waiter.finalized → pieces.remaining = []
  pending : ∀ (index : ℕ) pieces, collector.indexes[index]? = some pieces →
    pieces.waiter.pendingCallbacks =
      collector.held (.callback index) + inHand.count (.callback index)
  parent : ∀ (index : ℕ) pieces parent, collector.indexes[index]? = some pieces →
    pieces.onDone = .callback parent → parent < index
  isIndex : ∀ index, 0 < collector.held (.callback index) + inHand.count (.callback index) →
    index < collector.indexes.length
  last : collector.held .collectPieces + inHand.count .collectPieces + collector.finals = 1

variable {collector next : PieceCollector} {inHand others : List OnDone}

theorem Joined.pass (joined : collector.Joined inHand) (indexes : next.indexes = collector.indexes)
    (held : ∀ onDone, next.held onDone + others.count onDone =
      collector.held onDone + inHand.count onDone)
    (finals : next.finals = collector.finals) : next.Joined others where
  notDone := indexes ▸ joined.notDone
  notCancelled := indexes ▸ joined.notCancelled
  noneRemains := indexes ▸ joined.noneRemains
  pending := by simpa only [indexes, held] using joined.pending
  parent := indexes ▸ joined.parent
  isIndex := by simpa only [indexes, held] using joined.isIndex
  last := by simpa only [held, finals] using joined.last

variable {onDone : OnDone}

section

variable (joined : collector.Joined (onDone :: inHand))
include joined

theorem Joined.addClosure :
    ({ collector with closures := collector.closures ++ [onDone] }).Joined inHand := by
  refine joined.pass rfl (fun other => ?_) rfl
  simp only [held, count_append, count_cons, count_nil]
  omega

theorem Joined.addCall (root : ObjectIdentifier) :
    ({ collector with accessorCalls := collector.accessorCalls ++ [(root, onDone)] }).Joined
      inHand := by
  refine joined.pass rfl (fun other => ?_) rfl
  simp only [held, map_append, map_cons, map_nil, count_append, count_cons, count_nil]
  omega

theorem Joined.addIndex (children : List ObjectIdentifier) : ({ collector with
      indexes := collector.indexes ++
        [(⟨children, create (), onDone⟩ : IndexPieces)] }).Joined inHand := by
  have sameHeld : ∀ other, ({ collector with
      indexes := collector.indexes ++
        [(⟨children, create (), onDone⟩ : IndexPieces)] }).held other +
      inHand.count other = collector.held other + (onDone :: inHand).count other := by
    intro other
    have isOpen : IsOpen ⟨children, create (), onDone⟩ = true := rfl
    simp only [held, countP_append, countP_cons, countP_nil, count_cons, isOpen, Bool.true_and]
    omega
  have notYet : collector.held (.callback collector.indexes.length) +
      (onDone :: inHand).count (.callback collector.indexes.length) = 0 := by
    by_contra isHeld
    exact absurd (joined.isIndex _ (Nat.pos_of_ne_zero isHeld)) (lt_irrefl _)
  constructor
  case notDone => exact forall_mem_concat.mpr ⟨joined.notDone, rfl⟩
  case notCancelled => exact forall_mem_concat.mpr ⟨joined.notCancelled, rfl⟩
  case noneRemains =>
    intro pieces isPieces finalized
    rcases mem_append.mp isPieces with isOld | isNew
    · exact joined.noneRemains pieces isOld finalized
    · rw [mem_singleton.mp isNew] at finalized
      simp [create] at finalized
  case pending =>
    intro index pieces isPieces
    rw [sameHeld]
    rcases getElem?_concat_eq_some.mp isPieces with isOld | ⟨rfl, rfl⟩
    · exact joined.pending index pieces isOld
    · exact notYet.symm
  case parent =>
    intro index pieces parent isPieces isParent
    rcases getElem?_concat_eq_some.mp isPieces with isOld | ⟨rfl, rfl⟩
    · exact joined.parent index pieces parent isOld isParent
    · apply joined.isIndex
      rw [← isParent, count_cons_self]
      omega
  case isIndex =>
    intro index isHeld
    rw [sameHeld] at isHeld
    have inIndexes := joined.isIndex index isHeld
    rw [length_append]
    omega
  case last =>
    rw [sameHeld]
    exact joined.last

end

variable {index : ℕ}

theorem Joined.setIndex (joined : collector.Joined inHand) {pieces after : IndexPieces}
    (isPieces : collector.indexes[index]? = some pieces)
    (onDone : after.onDone = pieces.onDone) (notDone : after.waiter.done = false)
    (notCancelled : after.waiter.cancelled = false)
    (noneRemains : after.waiter.finalized → after.remaining = [])
    (pending : after.waiter.pendingCallbacks + inHand.count (.callback index) =
      pieces.waiter.pendingCallbacks + others.count (.callback index))
    (passed : ∀ other, other ≠ .callback index →
      (if IsOpen after && pieces.onDone == other then 1 else 0) + others.count other =
        (if IsOpen pieces && pieces.onDone == other then 1 else 0) + inHand.count other) :
    ({ collector with indexes := collector.indexes.set index after }).Joined others := by
  obtain ⟨inIndexes, isElement⟩ := List.getElem?_eq_some_iff.mp isPieces
  have heldAfter : ∀ other,
      ({ collector with indexes := collector.indexes.set index after }).held other +
        (if IsOpen pieces && pieces.onDone == other then 1 else 0) =
        collector.held other + if IsOpen after && pieces.onDone == other then 1 else 0 := by
    intro other
    have atLeast : (if IsOpen pieces && pieces.onDone == other then 1 else 0) ≤
        collector.indexes.countP fun pieces => IsOpen pieces && pieces.onDone == other := by
      split
      case isTrue isCounted =>
        exact countP_pos_iff.mpr ⟨pieces, mem_of_getElem? isPieces, isCounted⟩
      case isFalse => exact Nat.zero_le _
    simp only [held, countP_set inIndexes, isElement, onDone]
    omega
  have notSelf : (pieces.onDone == .callback index) = false := by
    rw [beq_eq_false_iff_ne]
    intro isSelf
    exact absurd (joined.parent index pieces index isPieces isSelf) (lt_irrefl _)
  have heldSelf := heldAfter (.callback index)
  have wasPending := joined.pending index pieces isPieces
  simp only [notSelf, Bool.and_false, Bool.false_eq_true, if_false] at heldSelf
  have heldOther : ∀ other, other ≠ .callback index →
      ({ collector with indexes := collector.indexes.set index after }).held other +
        others.count other = collector.held other + inHand.count other := by
    intro other different
    have isPassed := passed other different
    have isHeld := heldAfter other
    omega
  constructor
  case notDone =>
    intro other isOther
    rcases mem_or_eq_of_mem_set isOther with isOld | rfl
    · exact joined.notDone other isOld
    · exact notDone
  case notCancelled =>
    intro other isOther
    rcases mem_or_eq_of_mem_set isOther with isOld | rfl
    · exact joined.notCancelled other isOld
    · exact notCancelled
  case noneRemains =>
    intro other isOther
    rcases mem_or_eq_of_mem_set isOther with isOld | rfl
    · exact joined.noneRemains other isOld
    · exact noneRemains
  case pending =>
    intro place other isOther
    rcases getElem?_set_eq_some.mp isOther with ⟨rfl, -, rfl⟩ | ⟨different, isOld⟩
    · omega
    · rw [heldOther _ fun same => different (OnDone.callback.inj same)]
      exact joined.pending place other isOld
  case parent =>
    intro place other parent isOther isParent
    rcases getElem?_set_eq_some.mp isOther with ⟨rfl, -, rfl⟩ | ⟨-, isOld⟩
    · exact joined.parent _ pieces parent isPieces (onDone.symm.trans isParent)
    · exact joined.parent place other parent isOld isParent
  case isIndex =>
    intro place isHeld
    rw [length_set]
    by_cases same : place = index
    · exact same ▸ inIndexes
    · rw [heldOther _ fun sameCallback => same (OnDone.callback.inj sameCallback)] at isHeld
      exact joined.isIndex place isHeld
  case last =>
    rw [heldOther _ (by simp)]
    exact joined.last

theorem Joined.fire {fired : Option Bool}
    (joined : collector.Joined (if fired.isSome then onDone :: inHand else inHand)) :
    (collector.fire fired onDone).Joined inHand := by
  rw [PieceCollector.fire]
  split
  case isTrue isFired =>
    rw [if_pos isFired] at joined
    exact joined.addClosure
  case isFalse notFired =>
    rw [if_neg notFired] at joined
    exact joined

variable {pieces : IndexPieces}

/-- A closure that calls a waiter closes its index if it is the last one. -/
theorem isSome_callCallback (notDone : pieces.waiter.done = false)
    (notCancelled : pieces.waiter.cancelled = false) :
    (pieces.waiter.callCallback (some true) ()).1.isSome =
      !IsOpen { pieces with waiter := (pieces.waiter.callCallback (some true) ()).2 } := by
  simp only [BaseWaiter.callCallback, returnResult, notDone, IsOpen,
    executeCallbackIfFinished]
  by_cases finished : pieces.waiter.finalized ∧ pieces.waiter.pendingCallbacks - 1 = 0
  · simp [finished, notCancelled]
  · simp only [Bool.not_true, if_true, Bool.false_eq_true, if_false, finished]
    simpa using finished

variable {waiter : BaseWaiter completionAccumulator}

theorem isSome_finalize (notCancelled : waiter.cancelled = false) (onDone : OnDone) :
    waiter.finalize.1.isSome = !IsOpen ⟨[], waiter.finalize.2, onDone⟩ := by
  by_cases nonePending : waiter.pendingCallbacks = 0 <;>
    simp [BaseWaiter.finalize, executeCallbackIfFinished, IsOpen, nonePending, notCancelled]

theorem isOpen_of_not_finalized (notFinalized : pieces.waiter.finalized = false) :
    IsOpen pieces = true := by
  simp [IsOpen, notFinalized]

theorem isOpen_of_pending (pending : 0 < pieces.waiter.pendingCallbacks) :
    IsOpen pieces = true := by
  simp only [IsOpen, Bool.not_eq_true', Bool.and_eq_false_imp, beq_eq_false_iff_ne]
  omega

theorem Joined.newCallback (joined : collector.Joined inHand) {child : ObjectIdentifier}
    {remaining : List ObjectIdentifier}
    (isPieces : collector.indexes[index]? = some ⟨child :: remaining, waiter, onDone⟩) :
    ({ collector with
      indexes := collector.indexes.set index ⟨remaining, waiter.newCallback.2, onDone⟩ }).Joined
      (.callback index :: inHand) := by
  have isMember := mem_of_getElem? isPieces
  have notDone : waiter.done = false := joined.notDone _ isMember
  have notCancelled : waiter.cancelled = false := joined.notCancelled _ isMember
  have notFinalized : waiter.finalized = false := by
    rw [Bool.eq_false_iff]
    intro finalized
    have isEmpty := joined.noneRemains _ isMember finalized
    simp at isEmpty
  have isNew : waiter.newCallback.2 = { waiter with
      pendingCallbacks := waiter.pendingCallbacks + 1 } := by
    simp [BaseWaiter.newCallback, notDone]
  rw [isNew]
  refine joined.setIndex isPieces ?_ ?_ ?_ ?_ ?_ ?_
  · rfl
  · exact notDone
  · exact notCancelled
  · simp [notFinalized]
  · simp only [count_cons_self]
    omega
  · intro other different
    simp [IsOpen, notFinalized, count_cons_of_ne (Ne.symm different)]

theorem Joined.finalize (joined : collector.Joined inHand)
    (isPieces : collector.indexes[index]? = some ⟨[], waiter, onDone⟩)
    (notFinalized : waiter.finalized = false) : ({ collector with
      indexes := collector.indexes.set index ⟨[], waiter.finalize.2, onDone⟩ }).Joined
      (if waiter.finalize.1.isSome then onDone :: inHand else inHand) := by
  have isMember := mem_of_getElem? isPieces
  have notCancelled : waiter.cancelled = false := joined.notCancelled _ isMember
  have notSelf : onDone ≠ .callback index := fun isSelf =>
    absurd (joined.parent index _ index isPieces isSelf) (lt_irrefl _)
  have wasOpen : IsOpen ⟨[], waiter, onDone⟩ = true := isOpen_of_not_finalized notFinalized
  refine joined.setIndex isPieces ?_ ?_ ?_ ?_ ?_ ?_
  · rfl
  · simpa [BaseWaiter.finalize] using joined.notDone _ isMember
  · simpa [BaseWaiter.finalize] using notCancelled
  · simp
  · split <;> simp [BaseWaiter.finalize, count_cons_of_ne notSelf]
  · intro other different
    rw [wasOpen, isSome_finalize notCancelled onDone]
    cases IsOpen ⟨[], waiter.finalize.2, onDone⟩ with
    | true => simp
    | false => simp [count_cons, Nat.add_comm]

theorem Joined.callCallback (joined : collector.Joined (.callback index :: inHand))
    (isPieces : collector.indexes[index]? = some pieces) : ({ collector with
      indexes := collector.indexes.set index
        { pieces with waiter := (pieces.waiter.callCallback (some true) ()).2 } }).Joined
      (if (pieces.waiter.callCallback (some true) ()).1.isSome then pieces.onDone :: inHand
        else inHand) := by
  have isMember := mem_of_getElem? isPieces
  have notDone := joined.notDone _ isMember
  have notCancelled := joined.notCancelled _ isMember
  have isPending := joined.pending index pieces isPieces
  rw [count_cons_self] at isPending
  have notSelf : pieces.onDone ≠ .callback index := fun isSelf =>
    absurd (joined.parent index _ index isPieces isSelf) (lt_irrefl _)
  have wasOpen : IsOpen pieces = true := isOpen_of_pending (by omega)
  refine joined.setIndex isPieces ?_ ?_ ?_ ?_ ?_ ?_
  · rfl
  · simp [BaseWaiter.callCallback, returnResult, notDone]
  · simpa [BaseWaiter.callCallback, returnResult, notDone] using notCancelled
  · simpa [BaseWaiter.callCallback, returnResult, notDone] using
      joined.noneRemains _ isMember
  · have sameCount : (if (pieces.waiter.callCallback (some true) ()).1.isSome then
        pieces.onDone :: inHand else inHand).count (.callback index) =
        inHand.count (.callback index) := by
      split
      · exact count_cons_of_ne notSelf
      · rfl
    have isFewer : (pieces.waiter.callCallback (some true) ()).2.pendingCallbacks =
        pieces.waiter.pendingCallbacks - 1 := by
      simp [BaseWaiter.callCallback, returnResult, notDone]
    rw [sameCount, count_cons_self]
    simp only [isFewer]
    omega
  · intro other different
    rw [count_cons_of_ne (Ne.symm different), wasOpen, isSome_callCallback notDone notCancelled]
    cases IsOpen { pieces with waiter := (pieces.waiter.callCallback (some true) ()).2 } with
    | true => simp
    | false => simp [count_cons, Nat.add_comm]

/-- The last closure calls the callback for the last time. -/
theorem Joined.callLast (joined : collector.Joined (.collectPieces :: inHand)) {call : CollectCall}
    (isLast : call = .done ∨ call = .error) :
    ({ collector with log := collector.log ++ [call] }).Joined inHand where
  __ := joined
  pending index pieces isPieces := by
    have isPending := joined.pending index pieces isPieces
    rwa [count_cons_of_ne (by simp)] at isPending
  isIndex index isHeld := by
    apply joined.isIndex
    rwa [count_cons_of_ne (by simp)]
  last := by
    have isOnce := joined.last
    rw [count_cons_self] at isOnce
    have isFinal : (call == .done || call == .error) = true := by
      rcases isLast with rfl | rfl <;> rfl
    simp only [held, finals, countP_append, countP_cons, countP_nil, isFinal] at isOnce ⊢
    simp only [if_true]
    omega

theorem Joined.takeCall (joined : collector.Joined inHand) {call : ℕ}
    {accessorCall : ObjectIdentifier × OnDone}
    (isCall : collector.accessorCalls[call]? = some accessorCall)
    (failures : List ObjectIdentifier) : ({ collector with
      accessorCalls := collector.accessorCalls.eraseIdx call
      failures }).Joined (accessorCall.2 :: inHand) := by
  obtain ⟨inCalls, rfl⟩ := List.getElem?_eq_some_iff.mp isCall
  have isPerm := (getElem_cons_eraseIdx_perm inCalls).map Prod.snd
  refine joined.pass rfl (fun other => ?_) rfl
  have sameCount := isPerm.count_eq other
  simp only [map_cons, count_cons] at sameCount
  simp only [held, count_cons]
  omega

theorem Joined.takeClosure (joined : collector.Joined inHand) {place : ℕ}
    (isClosure : collector.closures[place]? = some onDone) :
    ({ collector with closures := collector.closures.eraseIdx place }).Joined
      (onDone :: inHand) := by
  obtain ⟨inClosures, rfl⟩ := List.getElem?_eq_some_iff.mp isClosure
  have isPerm := getElem_cons_eraseIdx_perm inClosures
  refine joined.pass rfl (fun other => ?_) rfl
  have sameCount := isPerm.count_eq other
  simp only [count_cons] at sameCount
  simp only [held, count_cons]
  omega

theorem Joined.collectPiecesInternal (joined : collector.Joined (onDone :: inHand))
    (root : ObjectIdentifier) (accepted : Bool) :
    (collector.collectPiecesInternal root onDone accepted).Joined inHand := by
  have logged : ({ collector with
      log := collector.log ++ [CollectCall.inProgress root accepted] }).Joined (onDone :: inHand) := by
    refine joined.pass rfl (fun _ => rfl) ?_
    simp only [finals, countP_append, countP_cons, countP_nil]
    simp
  rw [PieceCollector.collectPiecesInternal]
  split
  · exact logged.addClosure
  · split
    · exact logged.addClosure
    · exact logged.addCall root

theorem joined_collectPieces (root : ObjectIdentifier) (accepted : Bool) :
    (collectPieces root accepted).Joined [] := by
  apply Joined.collectPiecesInternal
  constructor <;> simp [held, finals]

variable {content : ObjectIdentifier → Bytes}

theorem Joined.onData (joined : collector.Joined (onDone :: inHand)) (root : ObjectIdentifier)
    (isOk : Bool) : (onData formats content collector root onDone isOk).Joined inHand := by
  have stopped : ({ collector with
      running := false
      closures := collector.closures ++ [onDone] }).Joined inHand :=
    joined.addClosure.pass rfl (fun _ => rfl) rfl
  rw [PieceCollector.onData]
  split
  · exact joined.addClosure
  · split
    · exact stopped
    · split
      · exact stopped
      · exact joined.addIndex _

theorem Joined.step (joined : collector.Joined [])
    (isStep : step formats content collector event = some next) : next.Joined [] := by
  cases collectStep_of_eq_some isStep with
  | reply isOk isCall => exact (joined.takeCall isCall _).onData _ isOk
  | piece accepted isPieces => exact (joined.newCallback isPieces).collectPiecesInternal _ accepted
  | finalize isPieces notFinalized => exact (joined.finalize isPieces notFinalized).fire
  | collectPieces isClosure =>
    apply (joined.takeClosure isClosure).callLast
    split
    · exact .inl rfl
    · exact .inr rfl
  | callback isClosure isPieces => exact ((joined.takeClosure isClosure).callCallback isPieces).fire

end PieceCollector

end Peridot
