import Peridot.StoryProvider

/-!
# Deleted stories

What a `DeleteStory` call has deleted when it is answered, and which operations write the row of a
story after it was deleted.
-/

namespace Peridot

open Registry StoryProvider SessionQueues List

theorem encodeModuleComponentNamespace_injective :
    Function.Injective encodeModuleComponentNamespace :=
  fun _ _ same => append_cancel_left same

namespace StoryProvider

variable {provider next : StoryProvider} {storyId : Bytes} {phases : List OperationPhase}
  {property : Bytes → Bool → Prop}

/-- Where a `DeleteStoryCall` at the front is in one of some phases, it has a property. -/
def AtDelete (provider : StoryProvider) (phases : List OperationPhase)
    (property : Bytes → Bool → Prop) : Prop :=
  ∀ storyId alreadyDeleted rest,
    provider.operations = .deleteStory storyId alreadyDeleted :: rest →
      provider.phase ∈ phases → property storyId alreadyDeleted

variable {alreadyDeleted : Bool} {rest : List StoryOperation} {operation : StoryOperation}

namespace AtDelete

theorem of_notMem (notMem : provider.phase ∉ phases) : AtDelete provider phases property :=
  fun _ _ _ _ isPhase => absurd isPhase notMem

/-- The `DeleteStoryCall` at the front has the property. -/
theorem of_front (isFront : provider.operations = .deleteStory storyId alreadyDeleted :: rest)
    (holds : property storyId alreadyDeleted) : AtDelete provider phases property := by
  intro frontId frontAlready others isSame _
  have same := (List.cons.inj (isFront.symm.trans isSame)).1
  injection same with sameId sameAlready
  subst sameId sameAlready
  exact holds

/-- With another operation at the end of the queue, the front is the same or has not begun. -/
theorem append (atDelete : AtDelete provider phases property) (idle : Idle provider)
    (notPosted : .posted ∉ phases)
    (isAppended : next.operations = provider.operations ++ [operation])
    (samePhase : next.phase = provider.phase) : AtDelete next phases property := by
  intro storyId alreadyDeleted rest isFront isPhase
  rw [samePhase] at isPhase
  cases operations : provider.operations with
  | nil =>
    rw [idle operations] at isPhase
    exact absurd isPhase notPosted
  | cons first others =>
    rw [isAppended, operations, cons_append] at isFront
    exact atDelete storyId alreadyDeleted others
      (operations.trans (congrArg (· :: others) (List.cons.inj isFront).1)) isPhase

theorem congr {others : List OperationPhase} (atDelete : AtDelete provider others property)
    (sameOperations : next.operations = provider.operations)
    (isIn : next.phase ∈ phases → provider.phase ∈ others) : AtDelete next phases property :=
  fun storyId alreadyDeleted rest isFront isPhase =>
    atDelete storyId alreadyDeleted rest (sameOperations.symm.trans isFront) (isIn isPhase)

end AtDelete

/-- The row, the controller and the message queues of a story are gone. -/
structure Deleted (provider : StoryProvider) (storyId : Bytes) : Prop where
  row : Registry.find provider.rows storyId = none
  controller : Registry.find provider.storyControllers storyId = none
  queues : provider.queues.NoneLeft (encodeModuleComponentNamespace storyId)

/-- Where the last step has answered `DeleteStory`, the story is deleted. -/
def AnswersDeleted (provider : StoryProvider) : Prop :=
  ∀ storyId ∈ provider.answered, provider.Deleted storyId

/-- Where `Teardown` runs for a `DeleteStory` call, a controller of the story is loaded or no
message queue of it is recorded; and where the call is answered, none has been opened in this session
that was not deleted by itself. -/
def TeardownReachesQueues (provider : StoryProvider) : StoryProviderEvent → Prop
  | .reply =>
    match provider.operations, provider.phase with
    | .deleteStory storyId false :: _, .deleted =>
      (Registry.find provider.storyControllers storyId).isSome ∨
        NoQueues provider.queues.state.page (encodeModuleComponentNamespace storyId) ∧
          provider.queues.NotOpened (encodeModuleComponentNamespace storyId)
    | .deleteStory storyId false :: _, .namespaceDeleted =>
      provider.queues.NotOpened (encodeModuleComponentNamespace storyId)
    | _, _ => True
  | _ => True

instance (provider : StoryProvider) (event : StoryProviderEvent) :
    Decidable (provider.TeardownReachesQueues event) := by
  unfold TeardownReachesQueues
  split
  · split <;> infer_instance
  · infer_instance

/-- The invariant of the deletions: what is gone in which phase. -/
structure Deletes (provider : StoryProvider) : Prop where
  idle : Idle provider
  rowGone : AtDelete provider [.deleted, .stopping, .erasing, .deletingNamespace, .namespaceDeleted]
    fun storyId alreadyDeleted => alreadyDeleted = false →
      Registry.find provider.rows storyId = none
  controllerGone : AtDelete provider [.deletingNamespace, .namespaceDeleted] fun storyId _ =>
    Registry.find provider.storyControllers storyId = none
  queuesGone : AtDelete provider [.namespaceDeleted] fun storyId _ =>
    NoQueues provider.queues.state.page (encodeModuleComponentNamespace storyId)
  answersDeleted : AnswersDeleted provider

variable {event : StoryProviderEvent}

namespace Deletes

theorem answers_none (notAnswered : next.answered = none) : AnswersDeleted next := by
  intro storyId isAnswered
  exact nomatch notAnswered.symm.trans isAnswered

theorem append (deletes : Deletes provider)
    (isAppended : next.operations = provider.operations ++ [operation])
    (samePhase : next.phase = provider.phase) (sameRows : next.rows = provider.rows)
    (sameControllers : next.storyControllers = provider.storyControllers)
    (sameQueues : next.queues = provider.queues) (notAnswered : next.answered = none) :
    Deletes next where
  idle isEmpty := absurd (isAppended.symm.trans isEmpty) (append_ne_nil_of_right_ne_nil _
    (cons_ne_nil _ _))
  rowGone := by
    rw [sameRows]
    exact deletes.rowGone.append deletes.idle (by decide) isAppended samePhase
  controllerGone := by
    rw [sameControllers]
    exact deletes.controllerGone.append deletes.idle (by decide) isAppended samePhase
  queuesGone := by
    rw [sameQueues]
    exact deletes.queuesGone.append deletes.idle (by decide) isAppended samePhase
  answersDeleted := answers_none notAnswered

theorem of_phase (idle : Idle next) (answers : AnswersDeleted next)
    (isOther : next.phase ∉ [.deleted, .stopping, .erasing, .deletingNamespace,
      .namespaceDeleted]) : Deletes next where
  idle := idle
  rowGone := .of_notMem isOther
  controllerGone := .of_notMem fun isPhase => isOther (mem_of_mem_drop (i := 3) isPhase)
  queuesGone := .of_notMem fun isPhase => isOther (mem_of_mem_drop (i := 4) isPhase)
  answersDeleted := answers

theorem of_posted (isPosted : next.phase = .posted) (answers : AnswersDeleted next) :
    Deletes next :=
  of_phase (fun _ => isPosted) answers (by rw [isPosted]; decide)

theorem of_front (isFront : next.operations = operation :: rest)
    (notAnswered : next.answered = none)
    (isOther : next.phase ∉ [.deleted, .stopping, .erasing, .deletingNamespace,
      .namespaceDeleted]) : Deletes next :=
  of_phase (.of_front isFront) (answers_none notAnswered) isOther

theorem finishDelete (isDeleted : alreadyDeleted = false → provider.Deleted storyId) :
    Deletes (provider.finishDelete storyId alreadyDeleted) := by
  apply of_posted rfl
  intro answeredId isAnswered
  cases alreadyDeleted with
  | true => cases isAnswered
  | false =>
    cases isAnswered
    have deleted := isDeleted rfl
    exact ⟨deleted.row, deleted.controller, deleted.queues⟩

theorem teardown (isFront : provider.operations = .deleteStory storyId alreadyDeleted :: rest)
    (notAnswered : provider.answered = none)
    (rowGone : alreadyDeleted = false → find provider.rows storyId = none)
    (reaches : alreadyDeleted = false → (find provider.storyControllers storyId).isSome ∨
        provider.queues.NoneLeft (encodeModuleComponentNamespace storyId)) :
    Deletes (provider.teardown storyId alreadyDeleted) := by
  rw [StoryProvider.teardown]
  split
  case isTrue isLoaded =>
    constructor
    · exact Idle.of_front isFront
    · exact AtDelete.of_front isFront rowGone
    · exact .of_notMem (show (.stopping : OperationPhase) ∉ _ by decide)
    · exact .of_notMem (show (.stopping : OperationPhase) ∉ _ by decide)
    · exact answers_none notAnswered
  case isFalse notLoaded =>
    apply finishDelete
    intro isCall
    exact ⟨rowGone isCall, not_isSome_iff.mp notLoaded, (reaches isCall).resolve_left notLoaded⟩

theorem frame (notAnswered : next.answered = none) (deletes : Deletes provider)
    (sameOperations : next.operations = provider.operations)
    (samePhase : next.phase = provider.phase) (rows : ∀ storyId, find provider.rows storyId = none →
      find next.rows storyId = none)
    (controllers : ∀ storyId, find provider.storyControllers storyId = none →
      find next.storyControllers storyId = none)
    (queues : ∀ storyId, find provider.storyControllers storyId = none →
      NoQueues provider.queues.state.page (encodeModuleComponentNamespace storyId) →
        NoQueues next.queues.state.page (encodeModuleComponentNamespace storyId)) :
    Deletes next where
  idle isEmpty := samePhase.trans (deletes.idle (sameOperations.symm.trans isEmpty))
  rowGone := by
    intro storyId alreadyDeleted rest isFront isPhase isCall
    rw [sameOperations] at isFront
    rw [samePhase] at isPhase
    exact rows storyId (deletes.rowGone storyId alreadyDeleted rest isFront isPhase isCall)
  controllerGone := by
    intro storyId alreadyDeleted rest isFront isPhase
    rw [sameOperations] at isFront
    rw [samePhase] at isPhase
    exact controllers storyId (deletes.controllerGone storyId alreadyDeleted rest isFront isPhase)
  queuesGone := by
    intro storyId alreadyDeleted rest isFront isPhase
    rw [sameOperations] at isFront
    rw [samePhase] at isPhase
    apply queues
    · exact deletes.controllerGone storyId alreadyDeleted rest isFront (mem_cons_of_mem _ isPhase)
    · exact deletes.queuesGone storyId alreadyDeleted rest isFront isPhase
  answersDeleted := answers_none notAnswered

theorem getPage {storyPageId : Bytes} {time : ℤ} (notAnswered : provider.answered = none)
    (isStep : provider.getPage storyId storyPageId time = some next) : Deletes next := by
  rw [StoryProvider.getPage] at isStep
  split at isStep
  case h_1 isFront isPhase =>
    split at isStep
    · cases isStep
    · cases isStep
      exact of_front isFront notAnswered (by simp)
  case h_2 => cases isStep

section

variable (notAnswered : provider.answered = none) (deletes : Deletes provider)
include notAnswered deletes

theorem run (isStep : provider.run = some next) : Deletes next := by
  rw [StoryProvider.run] at isStep
  split at isStep
  case h_1 isFront _ | h_4 isFront _ | h_5 isFront _ =>
    cases isStep
    exact of_front isFront notAnswered (by simp)
  case h_2 storyId alreadyDeleted rest isFront isPhase =>
    cases alreadyDeleted with
    | true =>
      cases isStep
      exact teardown isFront notAnswered (by simp) (by simp)
    | false =>
      cases isStep
      exact of_front isFront notAnswered (by simp)
  case h_3 storyId rest isFront isPhase =>
    split at isStep
    · cases isStep
      exact of_posted rfl (answers_none notAnswered)
    · cases isStep
      exact of_front isFront notAnswered (by simp)
  case h_6 storyId alreadyDeleted rest isFront isPhase =>
    cases isStep
    constructor
    · exact Idle.of_front isFront
    · exact deletes.rowGone.congr rfl fun _ => by rw [isPhase]; decide
    · exact AtDelete.of_front isFront (find_erase provider.storyControllers storyId)
    · exact .of_notMem (show (.deletingNamespace : OperationPhase) ∉ _ by decide)
    · exact answers_none notAnswered
  case h_7 => cases isStep

theorem page (isStep : provider.page = some next) : Deletes next := by
  rw [StoryProvider.page] at isStep
  split at isStep
  case h_1 storyId alreadyDeleted rest isFront isPhase =>
    cases isStep
    have sameFront := (operations_deleteRow storyId).trans isFront
    constructor
    · exact Idle.of_front sameFront
    · exact AtDelete.of_front sameFront fun _ => find_deleteRow storyId
    · exact .of_notMem (show (.deleted : OperationPhase) ∉ _ by decide)
    · exact .of_notMem (show (.deleted : OperationPhase) ∉ _ by decide)
    · exact answers_none ((answered_deleteRow storyId).trans notAnswered)
  case h_2 isFront _ | h_3 isFront _ =>
    cases isStep
    exact of_front isFront notAnswered (by simp)
  case h_4 _ _ data isPhase =>
    cases isStep
    apply of_phase
    · intro isEmpty
      exact absurd (isPhase.symm.trans (deletes.idle isEmpty)) (by simp)
    · exact answers_none notAnswered
    · simp
  case h_5 => cases isStep

theorem reply (reaches : TeardownReachesQueues provider .reply)
    (isStep : provider.reply = some next) : Deletes next := by
  rw [StoryProvider.reply] at isStep
  split at isStep
  case h_1 isFront _ | h_8 isFront _ =>
    cases isStep
    exact of_front isFront notAnswered (by simp)
  case h_3 storyId alreadyDeleted rest isFront isPhase =>
    cases isStep
    apply teardown isFront notAnswered
    · exact deletes.rowGone storyId alreadyDeleted rest isFront (by rw [isPhase]; decide)
    · rintro rfl
      simpa only [TeardownReachesQueues, isFront, isPhase, noneLeft_iff] using reaches
  case h_4 storyId alreadyDeleted rest isFront isPhase =>
    cases isStep
    apply finishDelete
    intro isCall
    constructor
    · exact deletes.rowGone storyId alreadyDeleted rest isFront (by rw [isPhase]; decide) isCall
    · exact deletes.controllerGone storyId alreadyDeleted rest isFront (by rw [isPhase]; decide)
    · subst isCall
      simp only [TeardownReachesQueues, isFront, isPhase] at reaches
      exact noneLeft_iff.mpr
        ⟨deletes.queuesGone storyId false rest isFront (by rw [isPhase]; decide), reaches⟩
  case h_11 => cases isStep
  all_goals
    cases isStep
    exact of_posted rfl (answers_none notAnswered)

theorem deleteNamespace (isStep : provider.deleteNamespace = some next) : Deletes next := by
  rw [StoryProvider.deleteNamespace] at isStep
  split at isStep
  case h_1 storyId alreadyDeleted rest isFront isPhase =>
    cases isStep
    constructor
    · exact Idle.of_front isFront
    · exact deletes.rowGone.congr rfl fun _ => by rw [isPhase]; decide
    · exact deletes.controllerGone.congr rfl fun _ => by rw [isPhase]; decide
    · exact AtDelete.of_front isFront (noQueues_deleteNamespace _ _)
    · exact answers_none notAnswered
  case h_2 => cases isStep

theorem onStopped (storyId : Bytes) : Deletes (provider.onStopped storyId) := by
  rw [StoryProvider.onStopped]
  split
  case h_1 deleted alreadyDeleted rest isFront isPhase =>
    split
    · constructor
      · exact Idle.of_front isFront
      · exact deletes.rowGone.congr rfl fun _ => by rw [isPhase]; decide
      · exact .of_notMem (show (.erasing : OperationPhase) ∉ _ by decide)
      · exact .of_notMem (show (.erasing : OperationPhase) ∉ _ by decide)
      · exact answers_none notAnswered
    · exact deletes
  case h_2 => exact deletes

theorem stepController {event : ControllerEvent}
    (isStep : provider.stepController storyId event = some next) :
    Deletes next := by
  obtain ⟨⟨controller, stopped⟩, -, rfl⟩ := Option.map_eq_some_iff.mp isStep
  have changed : Deletes { provider with
      storyControllers := update provider.storyControllers storyId fun _ => controller } :=
    deletes.frame notAnswered rfl rfl (fun _ => id)
      (fun _ isGone => find_update_none storyId (fun _ => controller) isGone) fun _ _ => id
  cases stopped with
  | true =>
    apply onStopped _ changed
    exact notAnswered
  | false => exact changed

theorem act (reaches : TeardownReachesQueues provider event)
    (isStep : provider.act event = some next) : Deletes next := by
  cases event with
  | createStory url extraInfo | deleteStory storyId | getController storyId
  | setStoryInfoExtra storyId name value | readOnly =>
    cases isStep
    exact deletes.append rfl rfl rfl rfl rfl notAnswered
  | onFocusChange storyId time =>
    cases isStep
    rw [onFocusChange]
    split
    · exact deletes.append rfl rfl rfl rfl rfl notAnswered
    · exact deletes
  | run => exact deletes.run notAnswered isStep
  | page => exact deletes.page notAnswered isStep
  | reply => exact deletes.reply notAnswered reaches isStep
  | getPage storyId storyPageId time => exact getPage notAnswered isStep
  | deleteNamespace => exact deletes.deleteNamespace notAnswered isStep
  | onPageDelete storyId =>
    rw [act] at isStep
    split at isStep
    · cases isStep
      exact deletes.append rfl rfl rfl rfl rfl notAnswered
    · cases isStep
  | controller storyId event => exact deletes.stepController notAnswered isStep
  | obtainMessageQueue storyId info file =>
    rw [act] at isStep
    split at isStep
    case isTrue isModule =>
      cases isStep
      refine deletes.frame notAnswered rfl rfl (fun _ => id) (fun _ => id)
        fun other isGone noQueues => ?_
      apply noQueues.obtainMessageQueue
      intro isNamespace
      rw [isModule.2] at isNamespace
      rw [← encodeModuleComponentNamespace_injective isNamespace] at isGone
      rw [isGone] at isModule
      exact absurd isModule.1 (by decide)
    case isFalse => cases isStep
  | getMessageSender queueToken file =>
    cases isStep
    refine deletes.frame notAnswered rfl rfl (fun _ => id) (fun _ => id)
      fun other _ noQueues => ?_
    rwa [page_getMessageSender]
  | deleteMessageQueue info =>
    rw [act] at isStep
    split at isStep
    case isTrue isOwn =>
      cases isStep
      exact deletes.frame notAnswered rfl rfl (fun _ => id) (fun _ => id)
        fun other _ noQueues => noQueues.deleteMessageQueue info
    case isFalse => cases isStep
  | remoteChange data =>
    rw [act] at isStep
    split at isStep
    · cases isStep
      exact deletes.frame notAnswered rfl rfl
        (fun _ isGone => find_update_none data.storyInfo.id (fun _ => data) isGone)
        (fun _ => id) fun _ _ => id
    · obtain ⟨isNew, isNext⟩ := Option.ite_none_left_eq_some.mp isStep
      cases isNext
      refine { deletes with
        rowGone := fun storyId alreadyDeleted rest isFront isPhase isCall => ?_
        answersDeleted := answers_none notAnswered }
      apply find_concat_none
        (deletes.rowGone storyId alreadyDeleted rest isFront isPhase isCall)
      rintro rfl
      subst isCall
      exact isNew (.inr (isFront ▸ mem_cons_self))
  | remoteDelete storyId =>
    rw [act] at isStep
    split at isStep
    case isTrue isThere =>
      cases isStep
      rw [deleteRow, if_pos isThere]
      exact deletes.frame notAnswered rfl rfl
        (fun _ isGone => find_erase_none storyId isGone) (fun _ => id) fun _ _ => id
    case isFalse => cases isStep

end

theorem step (deletes : Deletes provider)
    (reaches : TeardownReachesQueues provider event) (isStep : provider.step event = some next) :
    Deletes next := by
  have reset : Deletes { provider with answered := none } :=
    deletes.frame rfl rfl rfl (fun _ => id) (fun _ => id) fun _ _ => id
  apply reset.act rfl _ isStep
  exact reaches

end Deletes

theorem deletes_start (stories : List StoryData) (queuePage : MessageQueuePage) :
    Deletes (start stories queuePage) :=
  .of_posted rfl (Deletes.answers_none rfl)

/-- Where a step answers `DeleteStory` and everything is deleted, its `Teardown` has reached the
queues. -/
theorem teardownReachesQueues (isStep : provider.step event = some next)
    (answers : AnswersDeleted next) : TeardownReachesQueues provider event := by
  cases event
  case reply =>
    rw [TeardownReachesQueues]
    split
    case h_1 storyId rest isFront isPhase =>
      by_cases isLoaded : (find provider.storyControllers storyId).isSome = true
      · exact .inl isLoaded
      · simp only [step, act, reply, isFront, isPhase, teardown, isLoaded] at isStep
        cases isStep
        exact .inr (noneLeft_iff.mp (answers storyId rfl).queues)
    case h_2 storyId rest isFront isPhase =>
      simp only [step, act, reply, isFront, isPhase] at isStep
      cases isStep
      exact (noneLeft_iff.mp (answers storyId rfl).queues).2
    case h_3 => trivial
  all_goals trivial

end StoryProvider

/-- Each `DeleteStory` call that is answered has deleted the row, the controller and the message
queues of its story in exactly the runs in which `Teardown` always finds a controller, unless the
story has no message queues, and in which no queue of the story is open in the manager. -/
theorem deletesStory_run (stories : List StoryData) (queuePage : MessageQueuePage)
    (events : List StoryProviderEvent) (final : StoryProvider)
    (isRun : runSteps StoryProvider.step (.start stories queuePage) events = some final) :
    EachStep StoryProvider.step
        (fun provider event => ∀ next ∈ provider.step event, next.AnswersDeleted)
        (.start stories queuePage) events ↔
      EachStep StoryProvider.step StoryProvider.TeardownReachesQueues (.start stories queuePage)
        events :=
  eachStep_next_iff Deletes (fun deletes reaches isStep => deletes.step reaches isStep)
    AnswersDeleted (fun deletes => deletes.answersDeleted)
    (fun _ isStep answers => teardownReachesQueues isStep answers)
    (deletes_start stories queuePage) isRun

/-- A story with a message queue of an earlier session is loaded and deleted; a module of it has
obtained another queue and deleted it again. -/
theorem deletesStory_run_sample :
    let componentNamespace := encodeModuleComponentNamespace [2]
    let page := MessageQueuePage.putQueue .empty ⟨componentNamespace, [4], [5], [6]⟩
    let provider := start [⟨⟨[1], [2], 0, []⟩, [3]⟩] page
    let events : List StoryProviderEvent :=
      [.getController [2], .run, .page, .reply,
        .obtainMessageQueue [2] ⟨componentNamespace, [4], [7], [8]⟩ none,
        .deleteMessageQueue ⟨componentNamespace, [4], [7], []⟩,
        .deleteStory [2], .run, .page, .onPageDelete [2], .reply, .controller [2] .run, .run,
        .deleteNamespace, .reply]
    EachStep step (fun provider event => ∀ next ∈ provider.step event, next.AnswersDeleted)
      provider events := by
  intro componentNamespace page provider events
  obtain ⟨final, isRun⟩ := Option.isSome_iff_exists.mp
    (show (runSteps step provider events).isSome by decide +kernel)
  exact (deletesStory_run _ page events final isRun).mpr (by decide +kernel)

/-- The message queue of a story that is not loaded is left, and that of one whose module has
obtained it. -/
theorem not_deletesStory_run :
    let queue : MessageQueueInfo := ⟨encodeModuleComponentNamespace [2], [4], [5], [6]⟩
    let story : StoryData := ⟨⟨[1], [2], 0, []⟩, [3]⟩
    (∃ final, runSteps step (start [story] (.putQueue .empty queue))
        [.deleteStory [2], .run, .page, .reply] = some final ∧ ¬final.AnswersDeleted) ∧
      ∃ final, runSteps step (start [story] .empty)
          [.getController [2], .run, .page, .reply, .obtainMessageQueue [2] queue none,
            .deleteStory [2], .run, .page, .reply, .controller [2] .run, .run, .deleteNamespace,
            .reply] = some final ∧ ¬final.AnswersDeleted := by
  intro queue story
  constructor
  · exact ⟨_, rfl, fun answers => absurd (answers [2] rfl).queues.row (by decide +kernel)⟩
  · refine ⟨_, rfl, fun answers => ?_⟩
    exact (noneLeft_iff.mp (answers [2] rfl).queues).2 queue (by decide +kernel) rfl

end Peridot
