import Peridot.CallList
import Peridot.StoryProvider

/-!
# Mutations of deleted stories

A mutation reads the row of its story and writes it in another call.  A deletion that another
device has made can come between the two.
-/

namespace Peridot

open List Registry Option

namespace StoryProvider

variable {provider next : StoryProvider} {storyId : Bytes}

def toWrite (provider : StoryProvider) : Option StoryData :=
  match provider.operations.head?, provider.phase with
  | some (.mutateStoryData _ mutation), .read (some data) => some (mutation.apply data)
  | _, .writing data => some data
  | _, _ => none

/-- No deletion of another device comes for the story whose row is about to be written. -/
def NotUnderMutation (provider : StoryProvider) : StoryProviderEvent → Prop
  | .remoteDelete storyId => ∀ data ∈ provider.toWrite, data.storyInfo.id ≠ storyId
  | _ => True

instance decidableNotUnderMutation (provider : StoryProvider) :
    ∀ event, Decidable (provider.NotUnderMutation event)
  | .remoteDelete storyId =>
    inferInstanceAs (Decidable (∀ data ∈ provider.toWrite, data.storyInfo.id ≠ storyId))
  | .createStory _ _ | .deleteStory _ | .getController _ | .setStoryInfoExtra _ _ _
  | .onFocusChange _ _ | .readOnly | .run | .page | .reply | .getPage _ _ _ | .deleteNamespace
  | .onPageDelete _ | .controller _ _ | .obtainMessageQueue _ _ _ | .getMessageSender _ _
  | .deleteMessageQueue _ | .remoteChange _ => .isTrue trivial

/-- No story has been written again after its deletion. -/
def StayDeleted (provider : StoryProvider) : Prop :=
  provider.broughtBack = []

/-- The invariant: the rows of deleted stories are gone, and they are not about to be written. -/
structure KeepsDeleted (provider : StoryProvider) : Prop where
  idle : Idle provider
  ownIds : ∀ entry ∈ provider.rows, entry.2.storyInfo.id = entry.1
  rowsKnown : ∀ entry ∈ provider.rows, entry.1 ∈ provider.storyIds
  deletedKnown : ∀ storyId ∈ provider.deletedStories, storyId ∈ provider.storyIds
  deletedGone : ∀ storyId ∈ provider.deletedStories, Registry.find provider.rows storyId = none
  writtenKnown : ∀ data ∈ provider.toWrite, data.storyInfo.id ∈ provider.storyIds
  notWritten : ∀ data ∈ provider.toWrite, data.storyInfo.id ∉ provider.deletedStories
  stayDeleted : provider.StayDeleted

theorem id_apply (mutation : StoryMutation) (data : StoryData) :
    (mutation.apply data).storyInfo.id = data.storyInfo.id := by
  cases mutation <;> rfl

namespace KeepsDeleted

theorem toWrite_eq_none (notRead : ∀ data, next.phase ≠ .read (some data))
    (notWriting : ∀ data, next.phase ≠ .writing data) : next.toWrite = none := by
  rw [toWrite]
  split
  case h_1 data _ isPhase => exact absurd isPhase (notRead data)
  case h_2 _ _ data isPhase => exact absurd isPhase (notWriting data)
  case h_3 => rfl

section

variable (keeps : KeepsDeleted provider)
include keeps

section

variable (sameRows : next.rows = provider.rows) (sameIds : next.storyIds = provider.storyIds)
  (sameDeleted : next.deletedStories = provider.deletedStories)
  (sameBack : next.broughtBack = provider.broughtBack)
include sameRows sameIds sameDeleted sameBack

/-- A step that writes no row, and is then about to write that of a story that is not deleted. -/
theorem frame (idle : Idle next)
    (written : ∀ data ∈ next.toWrite, data.storyInfo.id ∈ provider.storyIds ∧
      data.storyInfo.id ∉ provider.deletedStories) : KeepsDeleted next where
  idle := idle
  ownIds := sameRows ▸ keeps.ownIds
  rowsKnown := by
    rw [sameRows, sameIds]
    exact keeps.rowsKnown
  deletedKnown := by
    rw [sameDeleted, sameIds]
    exact keeps.deletedKnown
  deletedGone := by
    rw [sameDeleted, sameRows]
    exact keeps.deletedGone
  writtenKnown data isWritten := sameIds ▸ (written data isWritten).1
  notWritten data isWritten := sameDeleted ▸ (written data isWritten).2
  stayDeleted := sameBack.trans keeps.stayDeleted

/-- A step that writes no row, and after which nothing is about to be written. -/
theorem of_notWriting (idle : Idle next) (notRead : ∀ data, next.phase ≠ .read (some data))
    (notWriting : ∀ data, next.phase ≠ .writing data) : KeepsDeleted next := by
  apply keeps.frame sameRows sameIds sameDeleted sameBack idle
  intro data isWritten
  rw [toWrite_eq_none notRead notWriting] at isWritten
  cases isWritten

theorem same (sameOperations : next.operations = provider.operations)
    (samePhase : next.phase = provider.phase) : KeepsDeleted next := by
  apply keeps.frame sameRows sameIds sameDeleted sameBack
  · intro isEmpty
    exact samePhase.trans (keeps.idle (sameOperations.symm.trans isEmpty))
  · intro data isWritten
    rw [toWrite, sameOperations, samePhase] at isWritten
    exact ⟨keeps.writtenKnown data isWritten, keeps.notWritten data isWritten⟩

end

theorem enqueue (operation : StoryOperation) : KeepsDeleted (provider.enqueue operation) := by
  refine keeps.frame rfl rfl rfl rfl ?_ ?_
  · intro isEmpty
    exact absurd isEmpty (append_ne_nil_of_right_ne_nil _ (cons_ne_nil _ _))
  · intro data isWritten
    cases operations : provider.operations with
    | nil =>
      have isPosted := keeps.idle operations
      rw [toWrite_eq_none] at isWritten
      · cases isWritten
      · exact fun data isRead => nomatch isPosted.symm.trans isRead
      · exact fun data isWriting => nomatch isPosted.symm.trans isWriting
    | cons first rest =>
      have sameToWrite : (provider.enqueue operation).toWrite = provider.toWrite := by
        simp [toWrite, StoryProvider.enqueue, operations]
      rw [sameToWrite] at isWritten
      exact ⟨keeps.writtenKnown data isWritten, keeps.notWritten data isWritten⟩

theorem finish : KeepsDeleted provider.finish :=
  keeps.of_notWriting rfl rfl rfl rfl (fun _ => rfl) nofun nofun

theorem deleteRow (notWritten : ∀ data ∈ provider.toWrite, data.storyInfo.id ≠ storyId) :
    KeepsDeleted (provider.deleteRow storyId) := by
  rw [StoryProvider.deleteRow]
  split
  case isFalse => exact keeps
  case isTrue isThere =>
    obtain ⟨row, isRow⟩ := isSome_iff_exists.mp isThere
    constructor
    · exact keeps.idle
    · exact fun entry isEntry => keeps.ownIds entry (mem_filter.mp isEntry).1
    · exact fun entry isEntry => keeps.rowsKnown entry (mem_filter.mp isEntry).1
    · intro other isDeleted
      rcases mem_cons.mp isDeleted with rfl | wasDeleted
      · exact keeps.rowsKnown _ (mem_of_find isRow)
      · exact keeps.deletedKnown other wasDeleted
    · intro other isDeleted
      rcases mem_cons.mp isDeleted with rfl | wasDeleted
      · exact find_erase provider.rows other
      · exact find_erase_none storyId (keeps.deletedGone other wasDeleted)
    · exact keeps.writtenKnown
    · intro data isWritten isDeleted
      rcases mem_cons.mp isDeleted with same | wasDeleted
      · exact notWritten data isWritten same
      · exact keeps.notWritten data isWritten wasDeleted
    · exact keeps.stayDeleted

theorem putRow {data : StoryData}
    (isWritten : data ∈ provider.toWrite) : KeepsDeleted (provider.putRow data) := by
  have notDeleted := keeps.notWritten data isWritten
  constructor
  · exact keeps.idle
  · exact forall_mem_concat.mpr ⟨fun entry isOld => keeps.ownIds entry (mem_filter.mp isOld).1, rfl⟩
  · exact forall_mem_concat.mpr ⟨fun entry isOld => keeps.rowsKnown entry (mem_filter.mp isOld).1,
      keeps.writtenKnown data isWritten⟩
  · exact keeps.deletedKnown
  · intro storyId isDeleted
    have different : data.storyInfo.id ≠ storyId := fun same => notDeleted (same ▸ isDeleted)
    apply (find_append _ _ storyId).trans
    rw [find_erase_none _ (keeps.deletedGone storyId isDeleted), none_or,
      find, find?_cons_of_neg (by simpa using different)]
    rfl
  · exact keeps.writtenKnown
  · exact keeps.notWritten
  · exact (if_neg notDeleted).trans keeps.stayDeleted

theorem teardown {alreadyDeleted : Bool} {rest : List StoryOperation}
    (isFront : provider.operations = .deleteStory storyId alreadyDeleted :: rest) :
    KeepsDeleted (provider.teardown storyId alreadyDeleted) := by
  rw [StoryProvider.teardown]
  split
  · exact keeps.of_notWriting rfl rfl rfl rfl (.of_front isFront) (by simp) (by simp)
  · exact keeps.of_notWriting rfl rfl rfl rfl (fun _ => rfl) (by rintro _ ⟨⟩) (by rintro _ ⟨⟩)

theorem run (isStep : provider.run = some next) : KeepsDeleted next := by
  rw [StoryProvider.run] at isStep
  split at isStep
  case h_2 storyId alreadyDeleted rest isFront isPhase =>
    split at isStep
    · cases isStep
      exact keeps.teardown isFront
    · cases isStep
      exact keeps.of_notWriting rfl rfl rfl rfl (.of_front isFront) (by simp) (by simp)
  case h_3 storyId rest isFront isPhase =>
    split at isStep
    · cases isStep
      exact keeps.finish
    · cases isStep
      exact keeps.of_notWriting rfl rfl rfl rfl (.of_front isFront) (by simp) (by simp)
  case h_7 => cases isStep
  all_goals
    rename_i isFront isPhase
    cases isStep
    exact keeps.of_notWriting rfl rfl rfl rfl (.of_front isFront) (by simp) (by simp)

theorem page (isStep : provider.page = some next) : KeepsDeleted next := by
  rw [StoryProvider.page] at isStep
  split at isStep
  case h_1 storyId alreadyDeleted rest isFront isPhase =>
    cases isStep
    have isNone : provider.toWrite = none := by
      apply toWrite_eq_none
      · exact fun data isRead => absurd (isPhase.symm.trans isRead) (by simp)
      · exact fun data isWriting => absurd (isPhase.symm.trans isWriting) (by simp)
    have deleted : KeepsDeleted (provider.deleteRow storyId) := by
      apply keeps.deleteRow
      rw [isNone]
      exact fun data isWritten => absurd (isWritten) (by simp)
    have sameFront := (operations_deleteRow storyId).trans isFront
    exact deleted.of_notWriting rfl rfl rfl rfl (.of_front sameFront) (by simp) (by simp)
  case h_2 storyId rest isFront isPhase =>
    cases isStep
    refine keeps.frame rfl rfl rfl rfl (.of_front isFront) ?_
    intro data isWritten
    simp only [toWrite, isFront, head?_cons] at isWritten
    cases isWritten
  case h_3 storyId mutation rest isFront isPhase =>
    cases isStep
    refine keeps.frame rfl rfl rfl rfl (.of_front isFront) ?_
    intro data isWritten
    cases found : find provider.rows storyId with
    | none =>
      simp only [toWrite, isFront, head?_cons, found] at isWritten
      cases isWritten
    | some row =>
      simp only [toWrite, isFront, head?_cons, found] at isWritten
      cases isWritten
      have isRow := mem_of_find found
      have sameId := keeps.ownIds _ isRow
      rw [id_apply, sameId]
      refine ⟨keeps.rowsKnown _ isRow, fun isDeleted => ?_⟩
      exact absurd ((keeps.deletedGone storyId isDeleted).symm.trans found) (by simp)
  case h_4 _ _ data isPhase =>
    cases isStep
    have isWritten : data ∈ provider.toWrite := by
      rw [toWrite, isPhase]
      split
      case h_1 isRead => cases isRead
      case h_2 isWriting => exact congrArg some (OperationPhase.writing.inj isWriting).symm
      case h_3 notWriting _ => exact absurd rfl (notWriting data)
    refine (keeps.putRow isWritten).of_notWriting rfl rfl rfl rfl ?_ (by simp) (by simp)
    intro isEmpty
    exact absurd (isPhase.symm.trans (keeps.idle isEmpty)) (by simp)
  case h_5 => cases isStep

end

theorem reply (keeps : KeepsDeleted provider) (isStep : provider.reply = some next) :
    KeepsDeleted next := by
  rw [StoryProvider.reply] at isStep
  split at isStep
  case h_1 isFront isPhase =>
    cases isStep
    exact keeps.of_notWriting rfl rfl rfl rfl (.of_front isFront) nofun nofun
  case h_3 storyId alreadyDeleted rest isFront isPhase =>
    cases isStep
    exact keeps.teardown isFront
  case h_8 mutation rest data isFront isPhase =>
    cases isStep
    refine keeps.frame rfl rfl rfl rfl (.of_front isFront) ?_
    intro written isWritten
    have wasWritten : written ∈ provider.toWrite := by
      simp only [toWrite, isFront, head?_cons] at isWritten
      simp only [toWrite, isFront, head?_cons, isPhase]
      exact isWritten
    exact ⟨keeps.writtenKnown written wasWritten, keeps.notWritten written wasWritten⟩
  case h_11 => cases isStep
  all_goals
    cases isStep
    exact keeps.of_notWriting rfl rfl rfl rfl (fun _ => rfl) nofun nofun

variable (keeps : KeepsDeleted provider)
include keeps

theorem getPage {storyPageId : Bytes} {time : ℤ}
    (isStep : provider.getPage storyId storyPageId time = some next) : KeepsDeleted next := by
  rw [StoryProvider.getPage] at isStep
  split at isStep
  case h_1 url extraInfo rest isFront isPhase =>
    split at isStep
    case isTrue => cases isStep
    case isFalse isNew =>
      cases isStep
      constructor
      · exact Idle.of_front isFront
      · exact keeps.ownIds
      · exact fun entry isEntry => mem_cons_of_mem _ (keeps.rowsKnown entry isEntry)
      · exact fun other isDeleted => mem_cons_of_mem _ (keeps.deletedKnown other isDeleted)
      · exact keeps.deletedGone
      · intro data isWritten
        simp only [toWrite, isFront, head?_cons] at isWritten
        cases isWritten
        exact mem_cons_self ..
      · intro data isWritten isDeleted
        simp only [toWrite, isFront, head?_cons] at isWritten
        cases isWritten
        exact isNew (keeps.deletedKnown storyId isDeleted)
      · exact keeps.stayDeleted
  case h_2 => cases isStep

theorem deleteNamespace (isStep : provider.deleteNamespace = some next) : KeepsDeleted next := by
  rw [StoryProvider.deleteNamespace] at isStep
  split at isStep
  case h_1 isFront isPhase =>
    cases isStep
    exact keeps.of_notWriting rfl rfl rfl rfl (.of_front isFront) nofun nofun
  case h_2 => cases isStep

theorem onStopped (storyId : Bytes) : KeepsDeleted (provider.onStopped storyId) := by
  rw [StoryProvider.onStopped]
  split
  case h_1 isFront isPhase =>
    split
    · exact keeps.of_notWriting rfl rfl rfl rfl (.of_front isFront) nofun nofun
    · exact keeps
  case h_2 => exact keeps

theorem stepController {event : ControllerEvent}
    (isStep : provider.stepController storyId event = some next) : KeepsDeleted next := by
  obtain ⟨⟨controller, stopped⟩, -, rfl⟩ := map_eq_some_iff.mp isStep
  have changed : KeepsDeleted { provider with
      storyControllers := update provider.storyControllers storyId fun _ => controller } :=
    keeps.same rfl rfl rfl rfl rfl rfl
  cases stopped with
  | true => exact changed.onStopped storyId
  | false => exact changed

theorem remoteChange (data : StoryData) : KeepsDeleted { provider with
    rows := update provider.rows data.storyInfo.id fun _ => data } := by
  have sameKeys : ∀ entry ∈ update provider.rows data.storyInfo.id fun _ => data,
      (∃ other ∈ provider.rows, entry.1 = other.1) ∧ entry.2.storyInfo.id = entry.1 := by
    intro entry isEntry
    obtain ⟨other, isOther, rfl⟩ := mem_map.mp isEntry
    split
    case isTrue isKey => exact ⟨⟨other, isOther, isKey.symm⟩, rfl⟩
    case isFalse => exact ⟨⟨other, isOther, rfl⟩, keeps.ownIds other isOther⟩
  constructor
  · exact keeps.idle
  · exact fun entry isEntry => (sameKeys entry isEntry).2
  · intro entry isEntry
    obtain ⟨⟨other, isOther, sameKey⟩, -⟩ := sameKeys entry isEntry
    rw [sameKey]
    exact keeps.rowsKnown other isOther
  · exact keeps.deletedKnown
  · intro other isDeleted
    exact find_update_none data.storyInfo.id (fun _ => data)
      (keeps.deletedGone other isDeleted)
  · exact keeps.writtenKnown
  · exact keeps.notWritten
  · exact keeps.stayDeleted

theorem remoteCreate (data : StoryData) (isNew : data.storyInfo.id ∉ provider.storyIds) :
    KeepsDeleted { provider with
      rows := provider.rows ++ [(data.storyInfo.id, data)]
      storyIds := data.storyInfo.id :: provider.storyIds } where
  __ := keeps
  ownIds := forall_mem_concat.mpr ⟨keeps.ownIds, rfl⟩
  rowsKnown := forall_mem_concat.mpr ⟨fun entry isEntry =>
    mem_cons_of_mem _ (keeps.rowsKnown entry isEntry), mem_cons_self⟩
  deletedKnown storyId isDeleted := mem_cons_of_mem _ (keeps.deletedKnown storyId isDeleted)
  deletedGone storyId isDeleted := by
    apply find_concat_none (keeps.deletedGone storyId isDeleted)
    rintro rfl
    exact isNew (keeps.deletedKnown _ isDeleted)
  writtenKnown other isWritten := mem_cons_of_mem _ (keeps.writtenKnown other isWritten)

variable {event : StoryProviderEvent} (notUnder : NotUnderMutation provider event)
include notUnder

theorem act (isStep : provider.act event = some next) : KeepsDeleted next := by
  cases event with
  | createStory url extraInfo | deleteStory storyId | getController storyId
  | setStoryInfoExtra storyId name value | readOnly =>
    cases isStep
    exact keeps.enqueue _
  | onFocusChange storyId time =>
    cases isStep
    rw [onFocusChange]
    split
    · exact keeps.enqueue _
    · exact keeps
  | run => exact keeps.run isStep
  | page => exact keeps.page isStep
  | reply => exact keeps.reply isStep
  | getPage storyId storyPageId time => exact keeps.getPage isStep
  | deleteNamespace => exact keeps.deleteNamespace isStep
  | onPageDelete storyId =>
    rw [act] at isStep
    split at isStep
    · cases isStep
      have told : KeepsDeleted { provider with
          notifications := provider.notifications.erase storyId } :=
        keeps.same rfl rfl rfl rfl rfl rfl
      exact told.enqueue _
    · cases isStep
  | controller storyId event => exact keeps.stepController isStep
  | obtainMessageQueue storyId info file | deleteMessageQueue info =>
    rw [act] at isStep
    split at isStep
    · cases isStep
      exact keeps.same rfl rfl rfl rfl rfl rfl
    · cases isStep
  | getMessageSender queueToken file =>
    cases isStep
    exact keeps.same rfl rfl rfl rfl rfl rfl
  | remoteChange data =>
    rw [act] at isStep
    split at isStep
    · cases isStep
      exact keeps.remoteChange data
    · obtain ⟨isNew, isNext⟩ := ite_none_left_eq_some.mp isStep
      cases isNext
      exact keeps.remoteCreate data fun isKnown => isNew (.inl isKnown)
  | remoteDelete storyId =>
    rw [act] at isStep
    split at isStep
    · cases isStep
      exact keeps.deleteRow notUnder
    · cases isStep

theorem step (isStep : provider.step event = some next) : KeepsDeleted next := by
  have reset : KeepsDeleted { provider with answered := none } := keeps.same rfl rfl rfl rfl rfl rfl
  apply reset.act _ isStep
  exact notUnder

end KeepsDeleted

theorem keepsDeleted_start (stories : List StoryData) (queuePage : MessageQueuePage) :
    KeepsDeleted (start stories queuePage) where
  idle _ := rfl
  ownIds entry isEntry := by
    obtain ⟨data, -, rfl⟩ := mem_map.mp isEntry
    rfl
  rowsKnown entry isEntry := by
    obtain ⟨data, isStory, rfl⟩ := mem_map.mp isEntry
    exact mem_map_of_mem isStory
  deletedKnown := nofun
  deletedGone := nofun
  writtenKnown data isWritten := nomatch isWritten
  notWritten data isWritten := nomatch isWritten
  stayDeleted := rfl

end StoryProvider

/-- In a run in which no deletion of another device comes between the read and the write of a
mutation of the same story, no operation writes the row of a story that was deleted. -/
theorem stayDeleted_run (stories : List StoryData) (queuePage : MessageQueuePage)
    (events : List StoryProviderEvent) (final : StoryProvider)
    (allowed : EachStep StoryProvider.step StoryProvider.NotUnderMutation
      (.start stories queuePage) events)
    (isRun : runSteps StoryProvider.step (.start stories queuePage) events = some final) :
    final.StayDeleted := by
  apply StoryProvider.KeepsDeleted.stayDeleted
  exact invariant_runSteps StoryProvider.KeepsDeleted
    (fun keeps notUnder isStep => keeps.step notUnder isStep)
    (StoryProvider.keepsDeleted_start stories queuePage) allowed isRun

/-- The row of a story is mutated before another device deletes it. -/
theorem stayDeleted_run_sample : StoryProvider.StayDeleted { StoryProvider.start [] .empty with
    notifications := [[2]], storyIds := [[2]], deletedStories := [[2]] } :=
  stayDeleted_run [⟨⟨[1], [2], 0, []⟩, [3]⟩] .empty
    [.setStoryInfoExtra [2] [4] [5], .run, .page, .reply, .page, .reply, .remoteDelete [2]] _
    (by decide) rfl

/-- The row of a story that another device deletes while it is mutated is written again. -/
theorem not_stayDeleted_run :
    ∃ final, runSteps StoryProvider.step (.start [⟨⟨[1], [2], 0, []⟩, [3]⟩] .empty)
        [.setStoryInfoExtra [2] [4] [5], .run, .page, .remoteDelete [2], .reply, .page] =
      some final ∧ ¬final.StayDeleted :=
  ⟨_, rfl, nofun⟩

end Peridot
