import Mathlib.Data.List.Perm.Basic
import Mathlib.Data.List.Sort
import Peridot.LinkImpl

/-!
# Convergence of links

A link and the rows of its page, to which other devices add changes too.  The value of the link is
the result of the stored changes once all of them have been delivered, provided that keys are new,
that those of the link itself grow while its changes are pending, and that no change is delivered
as the latest one after a snapshot has contained it.
-/

namespace Peridot

open List Option KeyedList OrderedStore LinkChange

structure LinkWorld (json : Rapidjson) where
  page : StoryPage
  link : LinkImpl json

inductive LinkWorldEvent where
  | link (event : LinkEvent)
  /-- The page gets a change that was made on another device. -/
  | receive (change : LinkChange)

namespace LinkWorld

variable {json : Rapidjson}

def putChange (linkPath : LinkPath) (page : StoryPage) (change : LinkChange) : StoryPage :=
  page.put (makeSequencedLinkKey linkPath change.key) change

def initial (json : Rapidjson) (linkPath : LinkPath) (initialData : Option Bytes)
    (changes : List LinkChange) : LinkWorld json :=
  ⟨changes.foldl (putChange linkPath) OrderedStore.empty, LinkImpl.new json linkPath initialData⟩

/-- `Put`, and what the watcher of the link makes of it. -/
def put (world : LinkWorld json) (row : Bytes × LinkChange) : LinkWorld json :=
  ⟨world.page.put row.1 row.2, world.link.watch row⟩

def step (world : LinkWorld json) : LinkWorldEvent → Option (LinkWorld json)
  | .link event =>
    match world.link.step world.page event with
    | none => none
    | some (link, none) => some { world with link }
    | some (link, some row) => some (put { world with link } row)
  | .receive change =>
    some (world.put (makeSequencedLinkKey world.link.linkPath change.key, change))

def stored (world : LinkWorld json) : List LinkChange :=
  world.page.rows.map Prod.snd

/-- Every stored change has been delivered, and all operations have finished. -/
def Finished (world : LinkWorld json) : Prop :=
  world.link.untold = [] ∧ world.link.operationQueue = [] ∧ world.link.stage = .idle

instance (world : LinkWorld json) : Decidable world.Finished :=
  inferInstanceAs (Decidable (_ ∧ _ ∧ _))

/-- The value is the result of the stored changes, and none is pending. -/
def Converged (world : LinkWorld json) : Prop :=
  KeyedList.Sorted key world.stored ∧
    world.link.doc = json.applyChanges world.stored ∧ world.link.pendingOps = []

def Fresh (world : LinkWorld json) (key : Bytes) : Prop :=
  (∀ change ∈ world.stored, change.key ≠ key) ∧
    ∀ change ∈ world.link.pendingOps, change.key ≠ key
deriving Decidable

def createdKey (world : LinkWorld json) (milliseconds randomNumber : UInt64) : Bytes :=
  (world.link.keyGenerator.create milliseconds randomNumber).1

/-- The change that runs is told apart from the ones that the link has applied: its key is new and
greater than the pending ones if the link makes it; else it is the first pending one, or it is not
pending and not the latest one. -/
def ToldApart (world : LinkWorld json) (milliseconds randomNumber : UInt64) :
    LinkChangeData → Prop
  | .request edit => (json.normalizeJson edit.json).isSome →
      world.Fresh (world.createdKey milliseconds randomNumber) ∧
        ∀ pending ∈ world.link.pendingOps,
          pending.key < world.createdKey milliseconds randomNumber
  | .stored change => world.link.pendingOps.head?.map key = some change.key ∨
      (∀ pending ∈ world.link.pendingOps, pending.key ≠ change.key) ∧
        change.key ≠ world.link.latestKey

instance (world : LinkWorld json) (milliseconds randomNumber : UInt64) :
    ∀ data, Decidable (world.ToldApart milliseconds randomNumber data)
  | .request _ => inferInstanceAs (Decidable (_ → _ ∧ _))
  | .stored _ => inferInstanceAs (Decidable (_ ∨ _))

/-- A change that is received has a new key, and one that runs is told apart. -/
def Unambiguous (world : LinkWorld json) : LinkWorldEvent → Prop
  | .receive change => world.Fresh change.key
  | .link (.run milliseconds randomNumber) =>
    ∀ data ∈ world.link.operationQueue.head?, world.ToldApart milliseconds randomNumber data
  | .link (.getEntries milliseconds randomNumber) =>
    world.link.stage = .reading [] → ∀ initialData ∈ world.link.dataToSet,
      world.ToldApart milliseconds randomNumber (.request ⟨.set, [], some initialData⟩)
  | _ => True

def Awaited (world : LinkWorld json) (change : LinkChange) : Prop :=
  change ∈ world.link.untold ∨ .stored change ∈ world.link.operationQueue

end LinkWorld

def LinkStage.inFlight : LinkStage → List LinkChange
  | .writing change _ => [change]
  | _ => []

def LinkStage.isSettled : LinkStage → Bool
  | .idle | .writing _ false | .written false => true
  | _ => false

namespace LinkWorld

variable {json : Rapidjson}

/-- The snapshot contains what was pending or applied when it was taken; what it does not contain
will be delivered. -/
structure Snapshot (world : LinkWorld json) (done changes : List LinkChange) : Prop where
  sorted : KeyedList.Sorted key changes
  pending : ∀ change ∈ world.link.pendingOps, change ∈ changes
  done : ∀ change ∈ done, change ∈ changes
  stored : ∀ change ∈ changes, change ∈ world.stored
  complete : ∀ change ∈ world.stored, change ∈ changes ∨ world.Awaited change

/-- The value is the result of the changes `done`, and those that are not among them are still to
come. -/
structure Converging (world : LinkWorld json) (done : List LinkChange) : Prop where
  rows : ∀ row ∈ world.page.rows, row.1 = makeSequencedLinkKey world.link.linkPath row.2.key
  pendingSorted : KeyedList.Sorted key world.link.pendingOps
  doneSorted : KeyedList.Sorted key done
  doc : world.link.doc = json.applyChanges done
  latestKey : world.link.latestKey = (done.getLast?.map key).getD []
  pendingStored : ∀ change ∈ world.link.pendingOps,
    change ∈ world.stored ∨ change ∈ world.link.stage.inFlight
  doneStored : ∀ change ∈ done, change ∈ world.stored ∨ change ∈ world.link.stage.inFlight
  awaitedStored : ∀ change, world.Awaited change → change ∈ world.stored
  echoed : ∀ change ∈ world.link.pendingOps,
    world.Awaited change ∨ change ∈ world.link.stage.inFlight
  inFlight : ∀ change ∈ world.link.stage.inFlight, change ∈ world.link.pendingOps ∧
    ∀ other ∈ world.stored, other.key ≠ change.key
  settled : world.link.stage.isSettled → (∀ change ∈ world.link.pendingOps, change ∈ done) ∧
    ∀ change ∈ world.stored, change ∈ done ∨ world.Awaited change
  snapshot : ∀ changes, world.link.stage = .reading changes → world.Snapshot done changes

variable {world world' : LinkWorld json} {done : List LinkChange}

theorem Converging.sorted (converging : world.Converging done) :
    Sorted key world.stored := by
  refine pairwise_map.mpr (world.page.sorted.imp_of_mem fun {row other} isRow isOther less => ?_)
  rw [converging.rows row isRow, converging.rows other isOther] at less
  exact lt_of_append_lt less

theorem Converging.eq_of_key (converging : world.Converging done) {first second : LinkChange}
    (isFirst : first ∈ world.stored) (isSecond : second ∈ world.stored)
    (sameKey : first.key = second.key) : first = second := by
  have found := find_of_mem converging.sorted isFirst
  rw [sameKey, find_of_mem converging.sorted isSecond] at found
  exact (some.inj found).symm

theorem sublist_of_sorted {first second : List LinkChange}
    (sortedFirst : Sorted key first) (sortedSecond : Sorted key second)
    (contained : ∀ change ∈ first, change ∈ second) : first.Sublist second := by
  have nodup : first.Nodup := sortedFirst.imp fun less same => less.ne (congrArg _ same)
  have antisymm : Std.Antisymm fun first second : LinkChange => first.key < second.key :=
    ⟨fun _ _ less greater => (lt_asymm less greater).elim⟩
  exact sublist_of_subperm_of_pairwise (subperm_of_subset nodup contained) sortedFirst sortedSecond

section

variable (converging : world.Converging done)
include converging

/-- While no change is being written, all of them are stored. -/
theorem Converging.all_stored (noneInFlight : world.link.stage.inFlight = []) :
    (∀ change ∈ world.link.pendingOps, change ∈ world.stored) ∧
      (∀ change ∈ done, change ∈ world.stored) ∧
      ∀ change ∈ world.link.pendingOps, world.Awaited change := by
  obtain ⟨_, _, _, _, _, pendingStored, doneStored, _, echoed⟩ := converging
  simp only [noneInFlight, not_mem_nil, or_false] at pendingStored doneStored echoed
  exact ⟨pendingStored, doneStored, echoed⟩

theorem Converging.converged (finished : world.Finished) : world.Converged := by
  obtain ⟨noneUntold, noneQueued, isIdle⟩ := finished
  have notAwaited : ∀ change, ¬world.Awaited change := by
    rintro change (isUntold | isQueued)
    · simp [noneUntold] at isUntold
    · simp [noneQueued] at isQueued
  obtain ⟨-, doneStored, echoed⟩ := converging.all_stored (by rw [isIdle]; rfl)
  obtain ⟨-, complete⟩ := converging.settled (by rw [isIdle]; rfl)
  have same : done = world.stored :=
    eq_of_mem_iff converging.doneSorted converging.sorted fun change => ⟨doneStored change,
        fun isStored => (complete change isStored).resolve_right (notAwaited change)⟩
  refine ⟨converging.sorted, same ▸ converging.doc, eq_nil_iff_forall_not_mem.mpr ?_⟩
  exact fun change isPending => notAwaited change (echoed change isPending)

/-- What runs next does not matter to the value, as long as the changes to come stay the same. -/
theorem Converging.queue (untold : List LinkChange) (operationQueue : List LinkChangeData)
    (same : ∀ change, change ∈ untold ∨ .stored change ∈ operationQueue ↔ world.Awaited change) :
    Converging { world with
      link := { world.link with untold, operationQueue } } done where
  __ := converging
  awaitedStored change isAwaited := converging.awaitedStored change ((same change).mp isAwaited)
  echoed change isPending := (converging.echoed change isPending).imp_left (same change).mpr
  settled isSettled := by
    obtain ⟨pending, complete⟩ := converging.settled isSettled
    exact ⟨pending, fun change isStored => (complete change isStored).imp_right (same change).mpr⟩
  snapshot changes isReading :=
    { converging.snapshot changes isReading with
      complete := fun change isStored =>
        ((converging.snapshot changes isReading).complete change isStored).imp_right
          (same change).mpr }

end

variable {change : LinkChange}

/-- A change whose key is greater than the latest one is greater than all that are applied. -/
theorem Converging.sorted_append (converging : world.Converging done)
    (notOlder : ¬change.key < world.link.latestKey)
    (notLatest : ∀ last ∈ done.getLast?, change.key ≠ last.key) :
    Sorted key (done ++ [change]) := by
  refine KeyedList.sorted_append.mpr ⟨converging.doneSorted, pairwise_singleton .., ?_⟩
  intro member isDone other isChange
  obtain rfl := mem_singleton.mp isChange
  obtain ⟨last, isLast⟩ : ∃ last, done.getLast? = some last :=
    isSome_iff_exists.mp (by simpa using ne_nil_of_mem isDone)
  rw [converging.latestKey, isLast] at notOlder
  exact (key_le_getLast converging.doneSorted isDone isLast).trans_lt
    (lt_of_le_of_ne (not_lt.mp notOlder) (notLatest last isLast).symm)

theorem latestKey_append (done : List LinkChange) (change : LinkChange) :
    (((done ++ [change]).getLast?).map key).getD [] = change.key := by
  simp

variable {milliseconds randomNumber : UInt64}

section

variable (converging : world.Converging done)
include converging

/-- The link makes a change whose key is new and greater than the pending ones. -/
theorem Converging.runRequest (isIdle : world.link.stage = .idle) {edit : LinkEdit}
    (toldApart : world.ToldApart milliseconds randomNumber (.request edit)) : ∃ done, Converging
      { world with link := world.link.runRequest edit milliseconds randomNumber } done := by
  unfold LinkImpl.runRequest
  cases normalized : json.normalizeJson edit.json with
  | none => exact ⟨done, isIdle ▸ converging⟩
  | some text =>
    obtain ⟨fresh, greater⟩ := toldApart (by rw [normalized]; rfl)
    obtain ⟨pendingDone, complete⟩ := converging.settled (by rw [isIdle]; rfl)
    obtain ⟨pendingStored, stored, echoed⟩ := converging.all_stored (by rw [isIdle]; rfl)
    obtain ⟨change, isNew⟩ : ∃ change, change = world.link.newChange edit text milliseconds
        randomNumber := ⟨_, rfl⟩
    have isCreated : change.key = world.createdKey milliseconds randomNumber := by rw [isNew]; rfl
    rw [← isCreated] at fresh greater
    have pendingSorted : Sorted key (world.link.pendingOps ++ [change]) :=
      KeyedList.sorted_append.mpr ⟨converging.pendingSorted, pairwise_singleton .., by
        simpa using greater⟩
    have pendingStored : ∀ member ∈ world.link.pendingOps ++ [change],
        member ∈ world.stored ∨ member ∈ [change] := fun member isMember =>
      (mem_append.mp isMember).imp_left (pendingStored member)
    have echoed : ∀ member ∈ world.link.pendingOps ++ [change],
        world.Awaited member ∨ member ∈ [change] := fun member isMember =>
      (mem_append.mp isMember).imp_left (echoed member)
    have inFlight : ∀ member ∈ [change], member ∈ world.link.pendingOps ++ [change] ∧
        ∀ other ∈ world.stored, other.key ≠ member.key := by
      intro member isMember
      obtain rfl := mem_singleton.mp isMember
      exact ⟨by simp, fresh.1⟩
    simp only [← isNew]
    split
    · exact ⟨done, {
        __ := converging
        pendingSorted
        pendingStored
        doneStored := fun member isDone => .inl (stored member isDone)
        echoed
        inFlight
        settled := nofun
        snapshot := nofun }⟩
    · rename_i notOlder
      have notLatest : ∀ last ∈ done.getLast?, change.key ≠ last.key := fun last isLast =>
        (fresh.1 last (stored last (mem_of_getLast? isLast))).symm
      refine ⟨done ++ [change], {
        __ := converging
        pendingSorted
        doneSorted := converging.sorted_append notOlder notLatest
        doc := ?_
        latestKey := (latestKey_append done change).symm
        pendingStored
        doneStored := ?_
        echoed
        inFlight
        settled := fun _ => ⟨?_, ?_⟩
        snapshot := nofun }⟩
      · rw [Rapidjson.applyChanges_append_singleton, ← converging.doc]
        rfl
      · intro member isDone
        exact (mem_append.mp isDone).imp_left (stored member)
      · intro member isPending
        exact mem_append.mpr ((mem_append.mp isPending).imp_left (pendingDone member))
      · intro member isStored
        exact (complete member isStored).imp_left (mem_append_left _)

theorem Converging.runStored {operationQueue : List LinkChangeData} (isIdle : world.link.stage = .idle)
    (isNext : world.link.operationQueue = .stored change :: operationQueue)
    (toldApart : world.ToldApart milliseconds randomNumber (.stored change)) :
    ∃ done, Converging { world with
      link := { world.link with operationQueue }.runStored change } done := by
  obtain ⟨pendingDone, complete⟩ := converging.settled (by rw [isIdle]; rfl)
  obtain ⟨pendingStored, doneStored, echoed⟩ := converging.all_stored (by rw [isIdle]; rfl)
  have isStored : change ∈ world.stored :=
    converging.awaitedStored change (.inr (by rw [isNext]; exact mem_cons_self))
  have sameChange : ∀ member ∈ world.stored, member.key = change.key → member = change :=
    fun member isMember sameKey => converging.eq_of_key isMember isStored sameKey
  have stillAwaited : ∀ member, world.Awaited member → member ≠ change →
      member ∈ world.link.untold ∨ .stored member ∈ operationQueue := by
    rintro member (isUntold | isQueued) differs
    · exact .inl isUntold
    · rw [isNext] at isQueued
      exact .inr ((mem_cons.mp isQueued).resolve_left fun same => differs (by
        injection same))
  have awaitedStored : ∀ member, member ∈ world.link.untold ∨ .stored member ∈ operationQueue →
      member ∈ world.stored := fun member isAwaited =>
    converging.awaitedStored member (isAwaited.imp_right fun isQueued => by
      rw [isNext]
      exact mem_cons_of_mem _ isQueued)
  unfold LinkImpl.runStored
  split
  · rename_i isHead
    obtain ⟨pending, isPending, sameKey⟩ := map_eq_some_iff.mp isHead
    obtain ⟨later, isPendingOps⟩ := head?_eq_some_iff.mp isPending
    obtain rfl : pending = change :=
      sameChange pending (pendingStored pending (mem_of_mem_head? isPending)) sameKey
    obtain ⟨smallest, sortedLater⟩ := sorted_cons.mp (isPendingOps ▸ converging.pendingSorted)
    have tailSorted : Sorted key world.link.pendingOps.tail := by
      rw [isPendingOps]
      exact sortedLater
    have isLater : ∀ member ∈ world.link.pendingOps.tail, member ∈ later := by
      rw [isPendingOps, tail_cons]
      exact fun member => id
    refine ⟨done, {
      __ := converging
      pendingSorted := tailSorted
      pendingStored := fun member isTail => .inl (pendingStored member (mem_of_mem_tail isTail))
      doneStored := fun member isDone => .inl (doneStored member isDone)
      awaitedStored
      echoed := ?_
      inFlight := nofun
      settled := fun _ => ⟨fun member isTail => pendingDone member (mem_of_mem_tail isTail), ?_⟩
      snapshot := nofun }⟩
    · intro member isTail
      have differs : member ≠ pending := by
        rintro rfl
        exact lt_irrefl _ (smallest _ (isLater _ isTail))
      exact .inl (stillAwaited member (echoed member (mem_of_mem_tail isTail)) differs)
    · intro member isMember
      rcases eq_or_ne member pending with rfl | differs
      · exact .inl (pendingDone _ (mem_of_mem_head? isPending))
      · exact (complete member isMember).imp_right fun isAwaited =>
          stillAwaited member isAwaited differs
  rename_i notHead
  obtain ⟨notPending, notLatest⟩ := toldApart.resolve_left notHead
  have echoed : ∀ member ∈ world.link.pendingOps,
      member ∈ world.link.untold ∨ .stored member ∈ operationQueue := by
    intro member isPending
    refine stillAwaited member (echoed member isPending) ?_
    rintro rfl
    exact notPending _ isPending rfl
  split
  · exact ⟨done, {
      __ := converging
      pendingStored := fun member isPending => .inl (pendingStored member isPending)
      doneStored := fun member isDone => .inl (doneStored member isDone)
      awaitedStored
      echoed := fun member isPending => .inl (echoed member isPending)
      inFlight := nofun
      settled := nofun
      snapshot := nofun }⟩
  · rename_i notOlder
    have differs : ∀ last ∈ done.getLast?, change.key ≠ last.key := by
      intro last isLast same
      rw [converging.latestKey, isLast] at notLatest
      exact notLatest same
    refine ⟨done ++ [change], {
      __ := converging
      doneSorted := converging.sorted_append notOlder differs
      doc := ?_
      latestKey := (latestKey_append done change).symm
      pendingStored := fun member isPending => .inl (pendingStored member isPending)
      doneStored := ?_
      awaitedStored
      echoed := fun member isPending => .inl (echoed member isPending)
      inFlight := nofun
      settled := fun _ => ⟨fun member isPending =>
        mem_append_left _ (pendingDone member isPending), ?_⟩
      snapshot := nofun }⟩
    · rw [Rapidjson.applyChanges_append_singleton, ← converging.doc]
      rfl
    · intro member isDone
      rcases mem_append.mp isDone with isDone | isChange
      · exact .inl (doneStored member isDone)
      · exact .inl (mem_singleton.mp isChange ▸ isStored)
    · intro member isMember
      rcases eq_or_ne member change with rfl | differs
      · exact .inl (by simp)
      · exact (complete member isMember).imp (mem_append_left _) fun isAwaited =>
          stillAwaited member isAwaited differs

theorem Converging.scan :
    (world.page.scan (makeLinkKey world.link.linkPath)).map Prod.snd = world.stored := by
  rw [scan_eq_filter, stored, filter_eq_self.mpr]
  intro row isRow
  rw [converging.rows row isRow, makeSequencedLinkKey, append_assoc]
  exact isPrefixOf_iff_prefix.mpr (prefix_append ..)

theorem Converging.getSnapshot (isReload : world.link.stage = .reload) :
    Converging { world with link.stage := .reading world.stored } done := by
  obtain ⟨pendingStored, doneStored, echoed⟩ := converging.all_stored (by rw [isReload]; rfl)
  exact {
    __ := converging
    pendingStored := fun change isPending => .inl (pendingStored change isPending)
    doneStored := fun change isDone => .inl (doneStored change isDone)
    echoed := fun change isPending => .inl (echoed change isPending)
    inFlight := nofun
    settled := nofun
    snapshot := by
      rintro changes ⟨⟩
      exact {
        sorted := converging.sorted
        pending := pendingStored
        done := doneStored
        stored := fun change => id
        complete := fun change => .inl } }

variable {changes : List LinkChange} (isReading : world.link.stage = .reading changes)
include isReading

/-- The link becomes idle again when the changes that its value results from are those of the
snapshot. -/
theorem Converging.endReading (link : LinkImpl json) (isLink : link = { world.link with
      initialData := link.initialData
      doc := json.applyChanges changes
      latestKey := (changes.getLast?.map key).getD []
      stage := .idle
      applied := link.applied }) :
    Converging { world with link } changes := by
  obtain ⟨sorted, pending, _, storedChanges, complete⟩ := converging.snapshot changes isReading
  obtain ⟨-, -, echoed⟩ := converging.all_stored (by rw [isReading]; rfl)
  rw [isLink]
  exact {
    __ := converging
    doneSorted := sorted
    doc := rfl
    latestKey := rfl
    pendingStored := fun change isPending => .inl (storedChanges change (pending change isPending))
    doneStored := fun change isDone => .inl (storedChanges change isDone)
    echoed := fun change isPending => .inl (echoed change isPending)
    inFlight := nofun
    settled := fun _ => ⟨pending, complete⟩
    snapshot := nofun }

theorem Converging.getEntries
    (toldApart : world.Unambiguous (.link (.getEntries milliseconds randomNumber))) :
    ∃ done, Converging { world with
      link := world.link.onEntries changes milliseconds randomNumber } done := by
  have snapshot := converging.snapshot changes isReading
  unfold LinkImpl.onEntries
  split
  · rename_i isEmpty
    subst isEmpty
    obtain rfl : done = [] := eq_nil_iff_forall_not_mem.mpr fun change isDone =>
      not_mem_nil (snapshot.done change isDone)
    have isNew : world.link.doc = json.applyChanges [] ∧ world.link.latestKey = [] :=
      ⟨converging.doc, converging.latestKey⟩
    cases isSet : world.link.dataToSet with
    | none => exact ⟨[], converging.endReading isReading _ (by simp [← isNew.1, isNew.2])⟩
    | some initialData =>
      have idle := converging.endReading isReading
        { world.link with initialData := none, stage := .idle } (by simp [← isNew.1, isNew.2])
      have told : ToldApart
          { world with link.initialData := none, link.stage := .idle }
          milliseconds randomNumber (.request ⟨.set, [], some initialData⟩) :=
        toldApart isReading initialData isSet
      obtain ⟨done, isDone⟩ := idle.runRequest rfl told
      exact ⟨done, isDone⟩
  · rename_i notEmpty
    have pendingStored : world.link.pendingOps.Sublist changes :=
      sublist_of_sorted converging.pendingSorted snapshot.sorted snapshot.pending
    obtain ⟨last, isLast⟩ : ∃ last, changes.getLast? = some last :=
      isSome_iff_exists.mp (by simpa using notEmpty)
    refine ⟨changes, converging.endReading isReading _ ?_⟩
    simp [LinkImpl.replay, replayOrder_of_sublist snapshot.sorted pendingStored, isLast]

end

theorem makeSequencedLinkKey_injective {linkPath : LinkPath} {first second : Bytes}
    (same : makeSequencedLinkKey linkPath first = makeSequencedLinkKey linkPath second) :
    first = second :=
  append_cancel_left same

theorem mem_stored_put (converging : world.Converging done)
    (isNew : ∀ other ∈ world.stored, other.key ≠ change.key) {member : LinkChange} :
    member ∈ (world.put (makeSequencedLinkKey world.link.linkPath change.key, change)).stored ↔
      member = change ∨ member ∈ world.stored := by
  have isRow : ∀ {page : StoryPage}, member ∈ page.rows.map Prod.snd ↔
      ∃ key, page.get key = some member := by
    intro page
    simp [← mem_rows]
  rw [stored, stored, isRow, isRow]
  simp only [put, get_put]
  constructor
  · rintro ⟨key, found⟩
    split at found
    · exact .inl (some.inj found).symm
    · exact .inr ⟨key, found⟩
  · rintro (rfl | ⟨key, found⟩)
    · exact ⟨_, if_pos rfl⟩
    · refine ⟨key, (if_neg ?_).trans found⟩
      rintro rfl
      have isMember := mem_rows.mpr found
      exact isNew member (mem_map.mpr ⟨_, isMember, rfl⟩)
        (makeSequencedLinkKey_injective (converging.rows _ isMember)).symm

theorem Converging.put (converging : world.Converging done)
    (isNew : ∀ other ∈ world.stored, other.key ≠ change.key) (stage : LinkStage)
    (inFlight : ∀ other ∈ world.link.stage.inFlight, other = change ∨ other ∈ stage.inFlight)
    (stillInFlight : ∀ other ∈ stage.inFlight, other ∈ world.link.stage.inFlight ∧
      other.key ≠ change.key) (isSettled : stage.isSettled → world.link.stage.isSettled)
    (isReading : ∀ changes, stage = .reading changes → world.link.stage = .reading changes) :
    Converging (LinkWorld.put { world with link := { world.link with stage } }
      (makeSequencedLinkKey world.link.linkPath change.key, change)) done := by
  have told : LinkWorld.put { world with link := { world.link with stage } }
      (makeSequencedLinkKey world.link.linkPath change.key, change) =
        { world.put (makeSequencedLinkKey world.link.linkPath change.key, change) with
          link := { world.link with
            stage
            untold := world.link.untold ++ [change] } } := by
    have starts : makeLinkKey world.link.linkPath <+:
        makeSequencedLinkKey world.link.linkPath change.key := by
      rw [makeSequencedLinkKey, append_assoc]
      exact prefix_append ..
    simp only [LinkWorld.put, LinkImpl.watch]
    rw [if_pos starts]
  rw [told]
  have isStored : ∀ member ∈ world.stored,
      member ∈ (world.put (makeSequencedLinkKey world.link.linkPath change.key, change)).stored :=
    fun member isMember => (mem_stored_put converging isNew).mpr (.inr isMember)
  have changeStored :
      change ∈ (world.put (makeSequencedLinkKey world.link.linkPath change.key, change)).stored :=
    (mem_stored_put converging isNew).mpr (.inl rfl)
  have isAwaited : ∀ member, world.Awaited member →
      member ∈ world.link.untold ++ [change] ∨ .stored member ∈ world.link.operationQueue :=
    fun member => Or.imp_left (mem_append_left _)
  have changeAwaited :
      change ∈ world.link.untold ++ [change] ∨ .stored change ∈ world.link.operationQueue :=
    .inl (by simp)
  have storedOrInFlight : ∀ member, member ∈ world.stored ∨ member ∈ world.link.stage.inFlight →
      member ∈ (world.put (makeSequencedLinkKey world.link.linkPath change.key, change)).stored ∨
        member ∈ stage.inFlight := by
    rintro member (isMember | isInFlight)
    · exact .inl (isStored member isMember)
    · rcases inFlight member isInFlight with rfl | isInFlight
      · exact .inl changeStored
      · exact .inr isInFlight
  exact {
    rows := by
      rintro ⟨key, value⟩ isRow
      rw [mem_rows, LinkWorld.put, get_put] at isRow
      split at isRow
      · rename_i same
        cases isRow
        exact same
      · exact converging.rows _ (mem_rows.mpr isRow)
    __ := converging
    pendingStored := fun member isPending =>
      storedOrInFlight member (converging.pendingStored member isPending)
    doneStored := fun member isDone => storedOrInFlight member (converging.doneStored member isDone)
    awaitedStored := by
      rintro member (isUntold | isQueued)
      · rcases mem_append.mp isUntold with isUntold | isChange
        · exact isStored member (converging.awaitedStored member (.inl isUntold))
        · exact mem_singleton.mp isChange ▸ changeStored
      · exact isStored member (converging.awaitedStored member (.inr isQueued))
    echoed := by
      intro member isPending
      rcases converging.echoed member isPending with isAwaited' | isInFlight
      · exact .inl (isAwaited member isAwaited')
      · rcases inFlight member isInFlight with rfl | isInFlight
        · exact .inl changeAwaited
        · exact .inr isInFlight
    inFlight := by
      intro member isInFlight
      obtain ⟨wasInFlight, differs⟩ := stillInFlight member isInFlight
      obtain ⟨isPending, otherKeys⟩ := converging.inFlight member wasInFlight
      refine ⟨isPending, fun other isMember => ?_⟩
      rcases (mem_stored_put converging isNew).mp isMember with rfl | isMember
      · exact differs.symm
      · exact otherKeys other isMember
    settled := by
      intro settled
      obtain ⟨pending, complete⟩ := converging.settled (isSettled settled)
      refine ⟨pending, fun member isMember => ?_⟩
      rcases (mem_stored_put converging isNew).mp isMember with rfl | isMember
      · exact .inr changeAwaited
      · exact (complete member isMember).imp_right (isAwaited member)
    snapshot := by
      intro changes reading
      have snapshot := converging.snapshot changes (isReading changes reading)
      exact {
        __ := snapshot
        stored := fun member isRead => isStored member (snapshot.stored member isRead)
        complete := by
          intro member isMember
          rcases (mem_stored_put converging isNew).mp isMember with rfl | isMember
          · exact .inr changeAwaited
          · exact (snapshot.complete member isMember).imp_right (isAwaited member) } }

theorem step_link {event : LinkEvent} (stepped : world.step (.link event) = some world') :
    ∃ link row, world.link.step world.page event = some (link, row) ∧
      world' = row.elim { world with link } (put { world with link }) := by
  simp only [LinkWorld.step] at stepped
  split at stepped
  · simp at stepped
  · exact ⟨_, none, ‹_›, (some.inj stepped).symm⟩
  · exact ⟨_, some _, ‹_›, (some.inj stepped).symm⟩

theorem Converging.step (converging : world.Converging done) {event : LinkWorldEvent}
    (toldApart : world.Unambiguous event) (stepped : world.step event = some world') :
    ∃ done, world'.Converging done := by
  cases event with
  | receive change =>
    cases stepped
    refine ⟨done, converging.put toldApart.1 world.link.stage (fun _ => .inr) ?_ id (fun _ => id)⟩
    exact fun other isInFlight =>
      ⟨isInFlight, toldApart.2 other (converging.inFlight other isInFlight).1⟩
  | link event =>
    obtain ⟨link, row, linkStepped, rfl⟩ := step_link stepped
    cases event with
    | request edit =>
      obtain ⟨rfl, rfl⟩ := Prod.mk.inj (some.inj linkStepped)
      exact ⟨done, converging.queue _ _ fun change => by simp [Awaited]⟩
    | onPageChange index =>
      obtain ⟨change, isUntold, same⟩ := map_eq_some_iff.mp linkStepped
      obtain ⟨rfl, rfl⟩ := Prod.mk.inj same
      refine ⟨done, converging.queue _ _ fun member => ?_⟩
      obtain ⟨inBounds, rfl⟩ := List.getElem?_eq_some_iff.mp isUntold
      rw [Awaited, ← (getElem_cons_eraseIdx_perm inBounds).mem_iff]
      simp only [mem_append, mem_cons, LinkChangeData.stored.injEq]
      tauto
    | run milliseconds randomNumber =>
      simp only [LinkImpl.step] at linkStepped
      split at linkStepped
      · rename_i data operationQueue isIdle isQueued
        obtain ⟨rfl, rfl⟩ := Prod.mk.inj (some.inj linkStepped)
        have told := toldApart data (by rw [isQueued]; rfl)
        cases data with
        | request edit =>
          have next := converging.queue world.link.untold operationQueue fun change => by
            simp [Awaited, isQueued]
          exact next.runRequest isIdle told
        | stored change => exact converging.runStored isIdle isQueued told
      · simp at linkStepped
    | getSnapshot =>
      simp only [LinkImpl.step] at linkStepped
      split at linkStepped
      · rename_i isReload
        obtain ⟨rfl, rfl⟩ := Prod.mk.inj (some.inj linkStepped)
        rw [converging.scan]
        exact ⟨done, converging.getSnapshot isReload⟩
      · simp at linkStepped
    | getEntries milliseconds randomNumber =>
      simp only [LinkImpl.step] at linkStepped
      split at linkStepped
      · rename_i changes isReading
        obtain ⟨rfl, rfl⟩ := Prod.mk.inj (some.inj linkStepped)
        exact converging.getEntries isReading toldApart
      · simp at linkStepped
    | commitPut =>
      simp only [LinkImpl.step] at linkStepped
      split at linkStepped
      · rename_i change reload isWriting
        obtain ⟨rfl, rfl⟩ := Prod.mk.inj (some.inj linkStepped)
        obtain ⟨-, isNew⟩ := converging.inFlight change (by
          rw [isWriting]
          exact mem_singleton_self _)
        refine ⟨done, converging.put isNew (.written reload) ?_ ?_ ?_ ?_⟩
        · intro other isInFlight
          rw [isWriting] at isInFlight
          exact .inl (mem_singleton.mp isInFlight)
        · simp [LinkStage.inFlight]
        · cases reload <;> simp [isWriting, LinkStage.isSettled]
        · simp
      · simp at linkStepped
    | answerPut =>
      simp only [LinkImpl.step] at linkStepped
      split at linkStepped
      · rename_i reload isWritten
        obtain ⟨rfl, rfl⟩ := Prod.mk.inj (some.inj linkStepped)
        obtain ⟨pendingStored, doneStored, echoed⟩ := converging.all_stored (by rw [isWritten]; rfl)
        have stillNone : ∀ change, change ∉ (if reload then LinkStage.reload
            else .idle).inFlight := by
          cases reload <;> simp [LinkStage.inFlight]
        exact ⟨done, {
          converging with
          pendingStored := fun change isPending => .inl (pendingStored change isPending)
          doneStored := fun change isDone => .inl (doneStored change isDone)
          echoed := fun change isPending => .inl (echoed change isPending)
          inFlight := fun change isInFlight => absurd isInFlight (stillNone change)
          settled := by
            intro isSettled
            refine converging.settled ?_
            cases reload
            · rw [isWritten]
              rfl
            · simp [LinkStage.isSettled] at isSettled
          snapshot := by cases reload <;> simp }⟩
      · simp at linkStepped

/-- A link that is created on a page has not applied any of its changes. -/
theorem converging_initial (linkPath : LinkPath) (initialData : Option Bytes)
    (changes : List LinkChange) : (initial json linkPath initialData changes).Converging [] where
  rows := by
    suffices keyed : ∀ (page : StoryPage), (∀ row ∈ page.rows,
        row.1 = makeSequencedLinkKey linkPath row.2.key) →
          ∀ row ∈ (changes.foldl (putChange linkPath) page).rows,
            row.1 = makeSequencedLinkKey linkPath row.2.key from
      keyed empty nofun
    induction changes with
    | nil => exact fun page keyed => keyed
    | cons change changes ih =>
      refine fun page keyed => ih _ ?_
      rintro ⟨key, value⟩ isRow
      rw [mem_rows, putChange, get_put] at isRow
      split at isRow
      · rename_i same
        cases isRow
        exact same
      · exact keyed _ (mem_rows.mpr isRow)
  pendingSorted := sorted_nil
  doneSorted := sorted_nil
  doc := rfl
  latestKey := rfl
  pendingStored := nofun
  doneStored := nofun
  awaitedStored := by rintro change (isUntold | isQueued) <;> contradiction
  echoed := nofun
  inFlight := nofun
  settled := nofun
  snapshot := nofun

/-- If all changes can be told apart, the value of a link is the result of the stored changes, each
of them once and in the order of their keys, when all of them are delivered. -/
theorem converged_of_finished (json : Rapidjson) (linkPath : LinkPath)
    (initialData : Option Bytes) (changes : List LinkChange) {events : List LinkWorldEvent}
    {world : LinkWorld json}
    (toldApart : EachStep step Unambiguous (initial json linkPath initialData changes) events)
    (ran : runSteps step (initial json linkPath initialData changes) events = some world)
    (finished : world.Finished) : world.Converged := by
  obtain ⟨done, converging⟩ := invariant_runSteps (fun world => ∃ done, world.Converging done)
    (fun ⟨_, converging⟩ told stepped => converging.step told stepped)
    ⟨[], converging_initial linkPath initialData changes⟩ toldApart ran
  exact converging.converged finished

def samplePath : LinkPath :=
  ⟨[ascii ['m']], ascii ['a']⟩

def sampleKey (milliseconds : UInt64) : Bytes :=
  (KeyGenerator.create ⟨0, 0⟩ milliseconds 7).1

def setArray (key : Bytes) : LinkChange :=
  ⟨⟨.set, [], some (ascii ['[', '1', ',', '2', ']'])⟩, key, samplePath⟩

def eraseFirst (key : Bytes) : LinkChange :=
  ⟨⟨.erase, [ascii ['0']], none⟩, key, samplePath⟩

instance (world : LinkWorld json) : ∀ event, Decidable (world.Unambiguous event)
  | .receive change => inferInstanceAs (Decidable (world.Fresh change.key))
  | .link (.run milliseconds randomNumber) =>
    inferInstanceAs (Decidable (∀ data ∈ world.link.operationQueue.head?,
      world.ToldApart milliseconds randomNumber data))
  | .link (.getEntries milliseconds randomNumber) =>
    inferInstanceAs (Decidable (world.link.stage = .reading [] →
      ∀ initialData ∈ world.link.dataToSet,
        world.ToldApart milliseconds randomNumber (.request ⟨.set, [], some initialData⟩)))
  | .link (.request _) | .link (.onPageChange _) | .link .getSnapshot | .link .commitPut
  | .link .answerPut => .isTrue trivial

/-- A link erases an element; a change that is older than this one is delivered after it, and all
changes are replayed. -/
theorem converged_of_finished_late :
    let events : List LinkWorldEvent := [.link .getSnapshot, .link (.getEntries 0 0),
      .link (.request (eraseFirst []).toLinkEdit), .link (.run 5 5), .link .commitPut,
      .receive (eraseFirst (sampleKey 2)), .link (.onPageChange 1), .link (.onPageChange 0),
      .link .answerPut, .link (.run 0 0), .link .getSnapshot, .link (.getEntries 0 0),
      .link (.run 0 0)]
    ∃ world, runSteps step (initial .numbers samplePath none [setArray (sampleKey 1)]) events = some world ∧
      world.link.doc = some [] ∧ world.Converged := by
  intro events
  refine ⟨_, rfl, rfl, ?_⟩
  exact @converged_of_finished .numbers samplePath none [setArray (sampleKey 1)] events _
    (by decide) rfl (by decide)

/-- A snapshot contains an array and the erasure of its first element, which are delivered
afterwards: the erasure is the latest change by then, and is applied once more. -/
theorem not_converged_reload :
    let events : List LinkWorldEvent := [.receive (setArray (sampleKey 1)),
      .receive (eraseFirst (sampleKey 2)), .link .getSnapshot, .link (.getEntries 0 0),
      .link (.onPageChange 0), .link (.run 0 0), .link .getSnapshot, .link (.getEntries 0 0),
      .link (.onPageChange 0), .link (.run 0 0)]
    ∃ world, runSteps step (initial .numbers samplePath none []) events = some world ∧
      world.Finished ∧ world.link.doc = some [] ∧
        Rapidjson.numbers.applyChanges world.stored = some [ascii ['2']] ∧ ¬world.Converged := by
  intro events
  refine ⟨_, rfl, by decide, rfl, rfl, fun converged => ?_⟩
  have same : (some [] : Option (List Bytes)) = some [ascii ['2']] := converged.2.1
  exact absurd same (by decide)

end LinkWorld

end Peridot
