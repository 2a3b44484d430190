import Peridot.ContextWriter

/-!
# Topics of context writers

A topic keeps the id of its value also when the value has been removed, and answers are taken in
the order in which they come.  When answers come in the order of the writes and no value is written
to a topic whose value was removed, every topic has the value that was written to it last.
-/

namespace Peridot

open List Option Function ContextForest ContextWorld

namespace WriterWorld

def topicValueId (world : WriterWorld) (id : ℕ) (topic : Bytes) : Option ℕ :=
  (world.writers[id]?).bind fun writer => writer.topicValueIds topic

def lastWritten (world : WriterWorld) (id : ℕ) (topic : Bytes) : Option Bytes :=
  (world.written id topic).getLast?.join

/-- The context has the last value written for the topic, in one place, or none. -/
def Holds (world : WriterWorld) (id : ℕ) (topic : Bytes) : Prop :=
  match world.lastWritten id topic with
  | some value => ∃ valueId,
      (∀ other, world.origin other = some (id, topic) ∧
        (world.context.repository.get other).isSome ↔ other = valueId) ∧
      ∃ stored, world.context.repository.get valueId = some stored ∧ stored.content = some value
  | none => ∀ other, world.origin other = some (id, topic) →
      world.context.repository.get other = none

def CanAdd (world : WriterWorld) (parentId : Option ℕ) : Prop :=
  world.context.forest.size < 2 ^ 32 ∧ ∀ up ∈ parentId, (world.context.forest.value up).isSome

def CanSet (world : WriterWorld) (id : ℕ) : Prop :=
  ∀ writer ∈ world.valueWriter? id, writer.valueId = none → world.CanAdd writer.parentId

/-- No later write to the topic is settled, and the value of the topic is not removed. -/
def CanWrite (world : WriterWorld) (id : ℕ) (topic : Bytes) (number : ℕ) : Prop :=
  world.settled id topic ≤ number ∧
    (∀ valueId ∈ world.topicValueId id topic, (world.context.forest.value valueId).isSome) ∧
    (world.topicValueId id topic = none → world.context.forest.size < 2 ^ 32)

def CanDo (world : WriterWorld) : TypesCallback → Prop
  | .topic id topic _ number => world.CanWrite id topic number
  | .set id _ _ => world.CanSet id

/-- Answers for a topic come in the order of the writes, not after the removal of its value; the
parent of a new value is stored; and a value writer is not closed before its tasks have run. -/
def Orderly (world : WriterWorld) : WriterEvent → Prop
  | .set id _ _ => world.CanSet id ∨ ∀ writer ∈ world.valueWriter? id, writer.type = .entity
  | .getTypes request _ => ∀ found ∈ world.requests[request]?, world.CanDo found.callback
  | .entityError request _ => ∀ found ∈ world.requests[request]?, world.CanDo found.callback
  | .runTask => ∀ task ∈ world.tasks.head?, (world.valueWriter? task.this).isSome
  | _ => True

instance (world : WriterWorld) (parentId : Option ℕ) : Decidable (world.CanAdd parentId) := by
  unfold CanAdd
  infer_instance

instance (world : WriterWorld) (id : ℕ) : Decidable (world.CanSet id) := by
  unfold CanSet
  infer_instance

instance (world : WriterWorld) (callback : TypesCallback) : Decidable (world.CanDo callback) := by
  cases callback <;> unfold CanDo <;> try unfold CanWrite
  all_goals infer_instance

instance (world : WriterWorld) (event : WriterEvent) : Decidable (world.Orderly event) := by
  cases event <;> unfold Orderly <;> infer_instance

def settledValue (world : WriterWorld) (id : ℕ) (topic : Bytes) : Option Bytes :=
  ((world.written id topic).take (world.settled id topic)).getLast?.join

/-- What is remembered for a topic is what was settled last, and what is written later is awaited. -/
structure TopicSound (world : WriterWorld) (id : ℕ) (topic : Bytes) : Prop where
  settled_le : world.settled id topic ≤ (world.written id topic).length
  awaited : ∀ number, world.settled id topic < number →
    number ≤ (world.written id topic).length →
      ∃ value, ⟨.topic id topic value number, .awaiting⟩ ∈ world.requests
  present : ∀ value, world.settledValue id topic = some value →
    ∃ valueId stored, world.topicValueId id topic = some valueId ∧
      world.context.forest.value valueId = some stored ∧ stored.content = some value
  absent : world.settledValue id topic = none → ∀ valueId ∈ world.topicValueId id topic,
    world.context.forest.value valueId = none
  entity : ∀ valueId ∈ world.topicValueId id topic,
    ∀ stored ∈ world.context.forest.value valueId, stored.type = .entity
  origin : ∀ valueId, world.origin valueId = some (id, topic) ↔
    world.topicValueId id topic = some valueId

/-- Every value writer has a value of its own, if it has one. -/
structure ValuesSound (world : WriterWorld) : Prop where
  stored : ∀ id, ∀ writer ∈ world.valueWriter? id, ∀ valueId ∈ writer.valueId,
    (world.context.forest.value valueId).isSome
  origin : ∀ id, ∀ writer ∈ world.valueWriter? id, ∀ valueId ∈ writer.valueId,
    world.origin valueId = none
  distinct : ∀ first second, ∀ writer ∈ world.valueWriter? first,
    ∀ other ∈ world.valueWriter? second, ∀ valueId ∈ writer.valueId, valueId ∈ other.valueId →
      first = second

structure Sound (world : WriterWorld) : Prop where
  synced : world.context.repository.Synced world.context.forest
  running : world.crashed = false
  topics : ∀ id topic, world.TopicSound id topic
  numbers : ∀ request ∈ world.requests, ∀ id topic value number,
    request.callback = .topic id topic value number →
      id < world.writers.length ∧ 1 ≤ number ∧
        (world.written id topic)[number - 1]? = some (some value)
  values : world.ValuesSound
  small : ∀ valueId, (world.origin valueId).isSome → valueId < world.context.forest.size

variable {world : WriterWorld}

theorem callRepository_eq {called : ContextCall}
    (synced : world.context.repository.Synced world.context.forest)
    (allowed : world.context.Allows called) :
    ∃ repository : ContextRepository, repository.Synced (world.context.forest.call called) ∧
      world.callRepository called =
        { world with context := ⟨repository, world.context.forest.call called⟩ } := by
  obtain ⟨context, isNext, nextSynced⟩ := call_synced synced allowed
  have isCalled : world.callRepository called = { world with context } := by
    rw [callRepository, isNext]
  obtain ⟨repository, _, rfl⟩ := map_eq_some_iff.mp isNext
  exact ⟨repository, nextSynced, isCalled⟩

theorem createValueId_eq (synced : world.context.repository.Synced world.context.forest)
    (small : world.context.forest.size < 2 ^ 32) :
    world.context.repository.createValueId = world.context.forest.size := by
  rw [ContextRepository.createValueId, synced.shape.size, Nat.mod_eq_of_lt small]

theorem isSome_maybeFindParentValueId
    (synced : world.context.repository.Synced world.context.forest)
    {selector : Option ContextSelector} {up : ℕ}
    (isFound : world.maybeFindParentValueId selector = some up) :
    (world.context.forest.value up).isSome := by
  obtain ⟨wanted, rfl, isOnly⟩ := bind_eq_some_iff.mp isFound
  clear isFound
  rcases isOne : sortedIds (world.context.repository.select wanted) with _ | ⟨id, _ | _⟩
  · rw [isOne] at isOnly
    cases isOnly
  · rw [isOne] at isOnly
    obtain rfl := some.inj isOnly
    have member : id ∈ sortedIds (world.context.repository.select wanted) := by simp [isOne]
    rw [mem_sortedIds, synced.mem_select] at member
    obtain ⟨value, isValue⟩ := value_of_keys (mem_matchingIds.mp member)
    rw [isValue]
    rfl
  · rw [isOne] at isOnly
    cases isOnly

variable {id : ℕ} {next : WriterWorld} {topic : Bytes}

structure TopicFrame (world next : WriterWorld) (id : ℕ) (topic : Bytes) : Prop where
  settled : next.settled id topic = world.settled id topic
  written : next.written id topic = world.written id topic
  topicValueId : next.topicValueId id topic = world.topicValueId id topic
  requests : ∀ value number, world.settled id topic < number →
    ⟨.topic id topic value number, .awaiting⟩ ∈ world.requests →
      ⟨.topic id topic value number, .awaiting⟩ ∈ next.requests
  values : ∀ valueId ∈ world.topicValueId id topic,
    next.context.forest.value valueId = world.context.forest.value valueId
  origin : ∀ valueId, next.origin valueId = some (id, topic) ↔
    world.origin valueId = some (id, topic)

theorem TopicSound.of_frame (sound : world.TopicSound id topic)
    (frame : TopicFrame world next id topic) : next.TopicSound id topic where
  settled_le := by rw [frame.settled, frame.written]; exact sound.settled_le
  awaited number less atMost := by
    rw [frame.settled] at less
    rw [frame.written] at atMost
    obtain ⟨value, member⟩ := sound.awaited number less atMost
    exact ⟨value, frame.requests value number less member⟩
  present value isSettled := by
    rw [settledValue, frame.settled, frame.written] at isSettled
    obtain ⟨valueId, stored, isId, isStored, content⟩ := sound.present value isSettled
    exact ⟨valueId, stored, frame.topicValueId.trans isId, (frame.values valueId isId).trans isStored,
      content⟩
  absent isSettled valueId isId := by
    rw [settledValue, frame.settled, frame.written] at isSettled
    rw [frame.topicValueId] at isId
    exact (frame.values valueId isId).trans (sound.absent isSettled valueId isId)
  entity valueId isId stored isStored := by
    rw [frame.topicValueId] at isId
    rw [frame.values valueId isId] at isStored
    exact sound.entity valueId isId stored isStored
  origin valueId := by rw [frame.origin, frame.topicValueId]; exact sound.origin valueId

theorem TopicSound.frame (sound : world.TopicSound id topic)
    (changes : TopicFrame world world id topic → TopicFrame world next id topic) :
    next.TopicSound id topic :=
  sound.of_frame (changes ⟨rfl, rfl, rfl, fun _ _ _ member => member, fun _ _ => rfl, fun _ => .rfl⟩)

/-- Value writers keep values that they had, and these are left or changed. -/
structure ValuesFrame (world next : WriterWorld) : Prop where
  valueWriters : ∀ id, ∀ writer ∈ next.valueWriter? id, ∀ valueId ∈ writer.valueId,
    ∃ before ∈ world.valueWriter? id, valueId ∈ before.valueId
  stored : ∀ valueId, (∃ id, ∃ writer ∈ world.valueWriter? id, valueId ∈ writer.valueId) →
    (world.context.forest.value valueId).isSome → (next.context.forest.value valueId).isSome
  origin : ∀ valueId, (world.context.forest.value valueId).isSome →
    world.origin valueId = none → next.origin valueId = none

theorem ValuesSound.of_frame (sound : world.ValuesSound)
    (frame : ValuesFrame world next) : next.ValuesSound where
  stored id writer isWriter valueId isId := by
    obtain ⟨before, isBefore, isOld⟩ := frame.valueWriters id writer isWriter valueId isId
    exact frame.stored valueId ⟨id, before, isBefore, isOld⟩
      (sound.stored id before isBefore valueId isOld)
  origin id writer isWriter valueId isId := by
    obtain ⟨before, isBefore, isOld⟩ := frame.valueWriters id writer isWriter valueId isId
    exact frame.origin valueId (sound.stored id before isBefore valueId isOld)
      (sound.origin id before isBefore valueId isOld)
  distinct first second writer isWriter other isOther valueId isId isOtherId := by
    obtain ⟨before, isBefore, isOld⟩ := frame.valueWriters first writer isWriter valueId isId
    obtain ⟨before', isBefore', isOld'⟩ := frame.valueWriters second other isOther valueId isOtherId
    exact sound.distinct first second before isBefore before' isBefore' valueId isOld isOld'

theorem ValuesSound.frame (sound : world.ValuesSound)
    (changes : ValuesFrame world world → ValuesFrame world next) : next.ValuesSound :=
  sound.of_frame (changes ⟨fun _ writer isWriter _ isId => ⟨writer, isWriter, isId⟩,
    fun _ _ isStored => isStored, fun _ _ isNone => isNone⟩)

variable {valueId : ℕ}

theorem Sound.value_ne (sound : world.Sound)
    (isId : world.topicValueId id topic = some valueId) : valueId ≠ world.context.forest.size := by
  have isOrigin := ((sound.topics id topic).origin valueId).mpr isId
  exact Nat.ne_of_lt (sound.small valueId (by rw [isOrigin]; rfl))

theorem Sound.origin_size (sound : world.Sound) :
    world.origin world.context.forest.size = none := by
  by_contra isSome
  exact Nat.lt_irrefl _ (sound.small _ (isSome_iff_ne_none.mpr isSome))

/-- A call of the repository for a value that is of no topic, and that stays if some value writer
has it. -/
theorem Sound.changed (sound : world.Sound) {repository : ContextRepository}
    {forest : ContextForest} (synced : repository.Synced forest)
    (sameSize : forest.size = world.context.forest.size) (isOrigin : world.origin valueId = none)
    (others : ∀ other, other ≠ valueId → forest.value other = world.context.forest.value other)
    (stays : (∃ id, ∃ writer ∈ world.valueWriter? id, valueId ∈ writer.valueId) →
      (forest.value valueId).isSome) :
    Sound { world with context := ⟨repository, forest⟩ } := by
  refine ⟨synced, sound.running, fun id topic => ?_, sound.numbers, ?_, ?_⟩
  · refine (sound.topics id topic).frame fun base => { base with
      values := fun other isId => others other ?_ }
    rintro rfl
    have isTopic := ((sound.topics id topic).origin other).mpr isId
    exact nomatch isOrigin.symm.trans isTopic
  · refine sound.values.frame fun base => { base with stored := fun other isWriter isStored => ?_ }
    change (forest.value other).isSome
    by_cases same : other = valueId
    · exact same ▸ stays (same ▸ isWriter)
    · rwa [others other same]
  · exact fun other isSome => (sound.small other isSome).trans_eq sameSize.symm

variable {callback : TypesCallback} {before : EntityStatus} {otherTopic : Bytes} {request : ℕ}

theorem Sound.setRequest (sound : world.Sound) (status : EntityStatus)
    (isRequest : world.requests[request]? = some ⟨callback, before⟩)
    (isSettled : ∀ id topic value number, callback = .topic id topic value number →
      number ≤ world.settled id topic) :
    Sound { world with requests := world.requests.set request ⟨callback, status⟩ } := by
  refine ⟨sound.synced, sound.running, fun id topic => ?_, ?_, ?_, sound.small⟩
  · refine (sound.topics id topic).frame fun base => { base with
      requests := fun value number isLater member => ?_ }
    obtain ⟨index, isIndex⟩ := mem_iff_getElem?.mp member
    refine mem_iff_getElem?.mpr ⟨index, ?_⟩
    have other : request ≠ index := by
      rintro rfl
      obtain ⟨rfl, -⟩ := EntityRequest.mk.inj (some.inj (isRequest.symm.trans isIndex))
      have early := isSettled id topic value number rfl
      omega
    simpa [getElem?_set_ne other] using isIndex
  · intro found member id topic value number isTopic
    rcases mem_or_eq_of_mem_set member with member | rfl
    · exact sound.numbers found member id topic value number isTopic
    · exact sound.numbers _ (mem_of_getElem? isRequest) id topic value number isTopic
  · exact sound.values.frame fun base => { base with }

theorem type_maybeFillEntityTypeMetadata (types : Option (List Bytes)) (value : ContextValue) :
    (maybeFillEntityTypeMetadata types value).type = value.type := by
  unfold maybeFillEntityTypeMetadata
  split <;> rfl

theorem update_topic_of_ne {β : Type} {entries : ℕ → Bytes → β} {other : ℕ} (entry : β)
    (differs : ¬ (other = id ∧ otherTopic = topic)) :
    update entries id (update (entries id) topic entry) other otherTopic =
      entries other otherTopic := by
  by_cases same : other = id
  · subst same
    rw [update_self, update_of_ne fun sameTopic => differs ⟨rfl, sameTopic⟩]
  · rw [update_of_ne same]

theorem update_topic_self {β : Type} {entries : ℕ → Bytes → β} (entry : β) :
    update entries id (update (entries id) topic entry) id topic = entry := by
  rw [update_self, update_self]

variable {writer : ContextWriter}

theorem topicValueId_set (isWriter : world.writers[id]? = some writer) (topic : Bytes)
    (valueId other : ℕ) (otherTopic : Bytes) : (((world.writers.set id { writer with
        topicValueIds := update writer.topicValueIds topic (some valueId) })[other]?).bind
      fun writer => writer.topicValueIds otherTopic) =
      if other = id ∧ otherTopic = topic then some valueId
      else world.topicValueId other otherTopic := by
  have inRange := (List.getElem?_eq_some_iff.mp isWriter).1
  by_cases same : other = id
  · subst same
    rw [getElem?_set_self inRange, bind_some, topicValueId, isWriter, bind_some]
    by_cases sameTopic : otherTopic = topic
    · simp [sameTopic]
    · simp [sameTopic]
  · rw [getElem?_set_ne (Ne.symm same), topicValueId, if_neg fun both => same both.1]

variable {topic value : Bytes} {number : ℕ} {types : Option (List Bytes)}

section

variable (positive : 1 ≤ number)
  (isWritten : (world.written id topic)[number - 1]? = some (some value))
include positive isWritten

theorem settledValue_of_written :
    ((world.written id topic).take number).getLast?.join = some value := by
  rw [getLast?_take, if_neg (by omega), isWritten]
  rfl

theorem TopicSound.answered {stored : ContextValue}
    (sound : world.TopicSound id topic) (isBefore : world.settled id topic ≤ number)
    (isNumber : next.settled id topic = number)
    (sameWritten : next.written id topic = world.written id topic)
    (sameRequests : next.requests = world.requests)
    (isId : next.topicValueId id topic = some valueId)
    (isStored : next.context.forest.value valueId = some stored)
    (isContent : stored.content = some value) (isEntity : stored.type = .entity)
    (origin : ∀ other, next.origin other = some (id, topic) ↔ other = valueId) :
    next.TopicSound id topic := by
  have isSettled : next.settledValue id topic = some value := by
    rw [settledValue, isNumber, sameWritten]
    exact settledValue_of_written positive isWritten
  have inRange := (List.getElem?_eq_some_iff.mp isWritten).1
  constructor
  case settled_le =>
    rw [isNumber, sameWritten]
    omega
  case awaited =>
    rw [isNumber, sameWritten, sameRequests]
    exact fun later isLater atMost => sound.awaited later (isBefore.trans_lt isLater) atMost
  case present =>
    intro found isFound
    cases isSettled.symm.trans isFound
    exact ⟨_, _, isId, isStored, isContent⟩
  case absent => exact fun isNone => nomatch isSettled.symm.trans isNone
  case entity =>
    intro other isOther found isFound
    cases isId.symm.trans isOther
    cases isStored.symm.trans isFound
    exact isEntity
  case origin =>
    intro other
    rw [origin, isId, some.injEq, eq_comm]

variable (sound : world.Sound) (canWrite : world.CanWrite id topic number)
include sound canWrite

theorem Sound.addTopic (isWriter : world.writers[id]? = some writer)
    (isNew : writer.topicValueIds topic = none) :
    (world.doneTopic id topic value number types).Sound ∧
      (world.doneTopic id topic value number types).settled id topic = number := by
  have isEmpty : world.topicValueId id topic = none := by
    rw [topicValueId, isWriter, bind_some, isNew]
  have small := canWrite.2.2 isEmpty
  let answered : WriterWorld := { world with
    settled := update world.settled id (update (world.settled id) topic number) }
  let called : ContextCall :=
    .add (answered.maybeFindParentValueId writer.parentValueSelector) (topicValue topic value types)
  obtain ⟨repository, synced, isCalled⟩ := @callRepository_eq answered called sound.synced
    ⟨small, fun up isUp => @isSome_maybeFindParentValueId answered sound.synced _ up isUp⟩
  have isDone : world.doneTopic id topic value number types = { answered with
      context := ⟨repository, world.context.forest.call called⟩
      writers := world.writers.set id { writer with
        topicValueIds := update writer.topicValueIds topic (some world.context.forest.size) }
      origin := update world.origin world.context.forest.size (some (id, topic)) } := by
    simp only [doneTopic, isWriter, isNew]
    rw [isCalled, @createValueId_eq answered sound.synced small]
  have oldOrigin := sound.origin_size
  rw [isDone]
  refine ⟨⟨synced, sound.running, fun other otherTopic => ?_, ?_, ?_, ?_⟩, update_topic_self _⟩
  · by_cases same : other = id ∧ otherTopic = topic
    · obtain ⟨rfl, rfl⟩ := same
      refine (sound.topics other otherTopic).answered positive isWritten canWrite.1
        (update_topic_self number) rfl rfl ((topicValueId_set isWriter otherTopic _ other
        otherTopic).trans (if_pos ⟨rfl, rfl⟩)) (update_self ..) rfl rfl fun valueId => ?_
      by_cases same : valueId = world.context.forest.size
      · simp [same]
      · have isNone := (sound.topics other otherTopic).origin valueId
        rw [isEmpty] at isNone
        simp [isNone, same]
    · refine (sound.topics other otherTopic).frame fun base => { base with
        settled := update_topic_of_ne number same
        topicValueId := (topicValueId_set isWriter _ _ _ _).trans (if_neg same)
        values := fun valueId isId => update_of_ne (sound.value_ne isId) _ _
        origin := fun valueId => ?_ }
      by_cases isNewId : valueId = world.context.forest.size
      · subst isNewId
        have notSame : ¬ (id = other ∧ topic = otherTopic) := fun both =>
          same ⟨both.1.symm, both.2.symm⟩
        simp [oldOrigin, notSame]
      · simp [update_of_ne isNewId]
  · intro request member other otherTopic found later isTopic
    rw [length_set]
    exact sound.numbers request member other otherTopic found later isTopic
  · have old : ∀ valueId, (world.context.forest.value valueId).isSome →
        valueId ≠ world.context.forest.size := fun _ isStored =>
      Nat.ne_of_lt (world.context.forest.value_lt isStored)
    exact sound.values.frame fun base => { base with
      stored := fun valueId _ isStored => (congrArg _ (update_of_ne (old valueId isStored) _ _)).trans
        isStored
      origin := fun valueId isStored isNone =>
        (update_of_ne (old valueId isStored) _ _).trans isNone }
  · intro valueId isSome
    change valueId < world.context.forest.size + 1
    by_cases same : valueId = world.context.forest.size
    · omega
    · change (update world.origin _ _ valueId).isSome at isSome
      rw [update_of_ne same] at isSome
      exact Nat.lt_succ_of_lt (sound.small valueId isSome)

theorem Sound.updateTopic (isWriter : world.writers[id]? = some writer)
    (isId : writer.topicValueIds topic = some valueId) :
    (world.doneTopic id topic value number types).Sound ∧
      (world.doneTopic id topic value number types).settled id topic = number := by
  have isTopicId : world.topicValueId id topic = some valueId := by
    rw [topicValueId, isWriter, bind_some, isId]
  have isOrigin := ((sound.topics id topic).origin valueId).mpr isTopicId
  obtain ⟨old, isOld⟩ := isSome_iff_exists.mp (canWrite.2.1 valueId isTopicId)
  have isEntity := (sound.topics id topic).entity valueId isTopicId old isOld
  let answered : WriterWorld := { world with
    settled := update world.settled id (update (world.settled id) topic number) }
  let called : ContextCall := .update valueId (topicValue topic value types)
  obtain ⟨repository, synced, isCalled⟩ :=
    @callRepository_eq answered called sound.synced ⟨old, isOld, isEntity⟩
  have isDone : world.doneTopic id topic value number types =
      { answered with context := ⟨repository, world.context.forest.call called⟩ } := by
    simp only [doneTopic, isWriter, isId]
    exact isCalled
  have isUpdated : (world.context.forest.call called).value valueId =
      some (topicValue topic value types) :=
    (update_self ..).trans (congrArg _ isOld)
  rw [isDone]
  refine ⟨⟨synced, sound.running, fun other otherTopic => ?_, sound.numbers, ?_, sound.small⟩,
    update_topic_self _⟩
  · by_cases same : other = id ∧ otherTopic = topic
    · obtain ⟨rfl, rfl⟩ := same
      refine (sound.topics other otherTopic).answered positive isWritten canWrite.1
        (update_topic_self number) rfl rfl isTopicId isUpdated rfl rfl fun found => ?_
      rw [(sound.topics other otherTopic).origin, isTopicId, some.injEq, eq_comm]
    · refine (sound.topics other otherTopic).frame fun base => { base with
        settled := update_topic_of_ne number same
        values := fun otherId isOther => update_of_ne ?_ _ _ }
      rintro rfl
      have isOtherOrigin := ((sound.topics other otherTopic).origin otherId).mpr isOther
      obtain ⟨rfl, rfl⟩ := Prod.mk.inj (some.inj (isOrigin.symm.trans isOtherOrigin))
      exact same ⟨rfl, rfl⟩
  · refine sound.values.frame fun base => { base with stored := fun other _ isStored => ?_ }
    change (update world.context.forest.value _ _ other).isSome
    by_cases same : other = valueId
    · rw [same]
      exact congrArg Option.isSome isUpdated
    · rwa [update_of_ne same]

theorem Sound.doneTopic (types : Option (List Bytes)) (inRange : id < world.writers.length) :
    (world.doneTopic id topic value number types).Sound ∧
      (world.doneTopic id topic value number types).settled id topic = number := by
  obtain ⟨writer, isWriter⟩ : ∃ writer, world.writers[id]? = some writer :=
    ⟨_, getElem?_eq_getElem inRange⟩
  cases isId : writer.topicValueIds topic with
  | none => exact sound.addTopic positive isWritten canWrite isWriter isId
  | some valueId => exact sound.updateTopic positive isWritten canWrite isWriter isId

end

theorem valueWriter?_set {writer : ContextValueWriter}
    (isWriter : world.valueWriter? id = some writer) (next : Option ContextValueWriter)
    (other : ℕ) : ((world.valueWriters.set id next)[other]?).join =
      if other = id then next else world.valueWriter? other := by
  have inRange : id < world.valueWriters.length := by
    by_contra outside
    rw [valueWriter?, getElem?_eq_none (Nat.le_of_not_lt outside)] at isWriter
    nomatch isWriter
  by_cases same : other = id
  · subst same
    rw [getElem?_set_self inRange, if_pos rfl]
    rfl
  · rw [getElem?_set_ne (Ne.symm same), if_neg same]
    rfl

theorem valueWriter?_append (next : ContextValueWriter) (other : ℕ) :
    ((world.valueWriters ++ [some next])[other]?).join =
      if other = world.valueWriters.length then some next else world.valueWriter? other := by
  by_cases same : other = world.valueWriters.length
  · subst same
    simp
  · rw [if_neg same, valueWriter?]
    by_cases inRange : other < world.valueWriters.length
    · rw [List.getElem?_append_left inRange]
    · rw [getElem?_eq_none (by simp; omega), getElem?_eq_none (by omega)]

section

variable (sound : world.Sound)
include sound

/-- Value writers come and go, or get more to do, and keep their values. -/
theorem Sound.setValueWriters (valueWriters : List (Option ContextValueWriter))
    (tasks : List ChildTask)
    (kept : ∀ id, ∀ writer ∈ (valueWriters[id]?).join, ∀ valueId ∈ writer.valueId,
      ∃ before ∈ world.valueWriter? id, valueId ∈ before.valueId) :
    Sound { world with valueWriters, tasks } := by
  refine ⟨sound.synced, sound.running, fun id topic => ?_, sound.numbers, ?_, sound.small⟩
  · exact (sound.topics id topic).frame fun base => { base with }
  · exact sound.values.frame fun base => { base with valueWriters := kept }

theorem Sound.addContextValueWriter (writer : ℕ) (parentId : Option ℕ)
    (type : ContextValueType) : (world.addContextValueWriter writer parentId type).Sound := by
  refine sound.setValueWriters _ _ fun id found isFound valueId isId => ?_
  rw [valueWriter?_append] at isFound
  split at isFound
  · cases isFound
    nomatch isId
  · exact ⟨found, isFound, isId⟩

/-- The value of a value writer, from its first `Set`. -/
theorem Sound.doneSet (canSet : world.CanSet id) (content : Option Bytes)
    (metadata : Option ContextMetadata) (types : Option (List Bytes)) :
    (world.doneSet id content metadata types).Sound := by
  cases isWriter : world.valueWriter? id with
  | none =>
    simp only [WriterWorld.doneSet, isWriter]
    exact sound
  | some writer =>
    cases isId : writer.valueId with
    | none =>
      have canAdd := canSet writer isWriter isId
      let value := maybeFillEntityTypeMetadata types ⟨writer.type, content, metadata⟩
      let called : ContextCall := .add writer.parentId value
      obtain ⟨repository, synced, isCalled⟩ := @callRepository_eq world called sound.synced canAdd
      have isDone : world.doneSet id content metadata types = { world with
          context := ⟨repository, world.context.forest.call called⟩
          valueWriters := world.valueWriters.set id (some { writer with
            valueId := some world.context.forest.size, onReady := [] })
          tasks := world.tasks ++ writer.onReady.map fun type =>
            ⟨id, type, world.context.forest.size⟩ } := by
        simp only [WriterWorld.doneSet, isWriter, isId]
        rw [isCalled, createValueId_eq sound.synced canAdd.1]
      have valueWriters : ∀ other found, ((world.valueWriters.set id (some { writer with
            valueId := some world.context.forest.size, onReady := [] }))[other]?).join =
            some found → (other = id ∧ found.valueId = some world.context.forest.size) ∨
              world.valueWriter? other = some found := by
        intro other found isFound
        rw [valueWriter?_set isWriter] at isFound
        split at isFound
        · cases isFound
          exact .inl ⟨‹_›, rfl⟩
        · exact .inr isFound
      have isOld : ∀ other found, world.valueWriter? other = some found →
          ∀ valueId ∈ found.valueId, valueId ≠ world.context.forest.size :=
        fun other found isFound valueId isId => Nat.ne_of_lt (world.context.forest.value_lt
          (sound.values.stored other found isFound valueId isId))
      rw [isDone]
      refine ⟨synced, sound.running, fun other topic => ?_, sound.numbers, ?_, fun valueId isSome =>
        Nat.lt_succ_of_lt (sound.small valueId isSome)⟩
      · exact (sound.topics other topic).frame fun base => { base with
          values := fun valueId isId => update_of_ne (sound.value_ne isId) _ _ }
      · constructor
        · intro other found isFound valueId isFoundId
          change (update world.context.forest.value _ _ valueId).isSome
          rcases valueWriters other found isFound with ⟨rfl, isNewId⟩ | isBefore
          · obtain rfl := some.inj (isNewId.symm.trans isFoundId)
            rw [update_self]
            rfl
          · rw [update_of_ne (isOld other found isBefore valueId isFoundId)]
            exact sound.values.stored other found isBefore valueId isFoundId
        · intro other found isFound valueId isFoundId
          rcases valueWriters other found isFound with ⟨rfl, isNewId⟩ | isBefore
          · obtain rfl := some.inj (isNewId.symm.trans isFoundId)
            exact sound.origin_size
          · exact sound.values.origin other found isBefore valueId isFoundId
        · intro first second found isFound other isOther valueId isFoundId isOtherId
          rcases valueWriters first found isFound with ⟨rfl, isNewId⟩ | isBefore <;>
            rcases valueWriters second other isOther with ⟨rfl, isNewId'⟩ | isBefore'
          · rfl
          · obtain rfl := some.inj (isNewId.symm.trans isFoundId)
            exact absurd rfl (isOld second other isBefore' _ isOtherId)
          · obtain rfl := some.inj (isNewId'.symm.trans isOtherId)
            exact absurd rfl (isOld first found isBefore _ isFoundId)
          · exact sound.values.distinct first second found isBefore other isBefore' valueId
              isFoundId isOtherId
    | some valueId =>
      have isStored := sound.values.stored id writer isWriter valueId isId
      obtain ⟨old, isOld⟩ := isSome_iff_exists.mp isStored
      let value := maybeFillEntityTypeMetadata types { old with
        content := content.or old.content
        metadata := metadata.or old.metadata }
      have sameType : old.type = value.type := by rw [type_maybeFillEntityTypeMetadata]
      let called : ContextCall := .update valueId value
      obtain ⟨repository, synced, isCalled⟩ :=
        @callRepository_eq world called sound.synced ⟨old, isOld, sameType⟩
      have isDone : world.doneSet id content metadata types =
          { world with context := ⟨repository, world.context.forest.call called⟩ } := by
        simp only [WriterWorld.doneSet, isWriter, isId, sound.synced.shape.values, isOld]
        exact isCalled
      have isUpdated : (world.context.forest.call called).value valueId = some value :=
        (update_self ..).trans (congrArg _ isOld)
      rw [isDone]
      exact sound.changed synced rfl (sound.values.origin id writer isWriter valueId isId)
        (fun _ differs => update_of_ne differs _ _) fun _ => isUpdated ▸ rfl

theorem Sound.destroyContextValueWriter (isNext : world.destroyContextValueWriter id = some next) :
    next.Sound := by
  obtain ⟨writer, isWriter, isClosed⟩ := map_eq_some_iff.mp isNext
  let closed : WriterWorld := { world with valueWriters := world.valueWriters.set id none }
  have valueWriters : ∀ other found, closed.valueWriter? other = some found →
      other ≠ id ∧ world.valueWriter? other = some found := by
    intro other found isFound
    have isFound' := (valueWriter?_set isWriter none other).symm.trans isFound
    split at isFound'
    · nomatch isFound'
    · exact ⟨‹_›, isFound'⟩
  have closedSound : closed.Sound :=
    sound.setValueWriters _ _ fun other found isFound _ isId =>
      ⟨found, (valueWriters other found isFound).2, isId⟩
  cases isId : writer.valueId with
  | none =>
    simp only [isId] at isClosed
    exact isClosed ▸ closedSound
  | some valueId =>
    simp only [isId] at isClosed
    obtain ⟨repository, synced, isCalled⟩ :=
      @callRepository_eq closed (.remove valueId) sound.synced trivial
    rw [← isCalled.symm.trans isClosed]
    refine closedSound.changed synced rfl (sound.values.origin id writer isWriter valueId isId)
      (fun other differs => update_of_ne differs _ _) ?_
    rintro ⟨other, found, isFound, isFoundId⟩
    obtain ⟨differs, isBefore⟩ := valueWriters other found isFound
    exact absurd (sound.values.distinct other id found isBefore writer isWriter valueId
      isFoundId isId) differs

theorem Sound.createChildValue {type : ContextValueType}
    (isNext : world.createChildValue id type = some next) : next.Sound := by
  obtain ⟨writer, isWriter, isNext⟩ := map_eq_some_iff.mp isNext
  cases isId : writer.valueId with
  | none =>
    simp only [isId] at isNext
    subst isNext
    refine sound.setValueWriters _ _ fun other found isFound valueId isFoundId => ?_
    rw [valueWriter?_set isWriter] at isFound
    split at isFound
    · cases isFound
      simp at isFoundId
    · exact ⟨found, isFound, isFoundId⟩
  | some valueId =>
    simp only [isId] at isNext
    subst isNext
    exact sound.setValueWriters _ _ fun _ found isFound _ isFoundId => ⟨found, isFound, isFoundId⟩

end

theorem getElem?_written (value : Option Bytes) {other : ℕ} {index : ℕ} {found : Option Bytes}
    (isFound : (world.written other otherTopic)[index]? = some found) :
    (update world.written id (update (world.written id) topic
      (world.written id topic ++ [value])) other otherTopic)[index]? = some found := by
  by_cases same : other = id ∧ otherTopic = topic
  · obtain ⟨rfl, rfl⟩ := same
    rw [update_topic_self, List.getElem?_append_left (List.getElem?_eq_some_iff.mp isFound).1]
    exact isFound
  · rwa [update_topic_of_ne _ same]

theorem Sound.writeNull (sound : world.Sound)
    (isNext : world.writeEntityTopic id topic none = some next) : next.Sound := by
  obtain ⟨writer, isWriter, isWritten⟩ := map_eq_some_iff.mp isNext
  let number := (world.written id topic).length + 1
  let settled : WriterWorld := { world with
    written := update world.written id
      (update (world.written id) topic (world.written id topic ++ [none]))
    settled := update world.settled id (update (world.settled id) topic number) }
  have isTopicId : world.topicValueId id topic = writer.topicValueIds topic := by
    rw [topicValueId, isWriter, bind_some]
  -- the removal leaves the other topics and the value writers alone
  have removed : ∃ context : ContextWorld, next = { settled with context } ∧
      context.repository.Synced context.forest ∧
      context.forest.size = world.context.forest.size ∧
      ∀ other, context.forest.value other = if writer.topicValueIds topic = some other then none
        else world.context.forest.value other := by
    cases isId : writer.topicValueIds topic with
    | none =>
      simp only [isId] at isWritten
      refine ⟨world.context, isWritten.symm, sound.synced, rfl, fun other => ?_⟩
      simp
    | some valueId =>
      simp only [isId] at isWritten
      obtain ⟨repository, synced, isCalled⟩ :=
        @callRepository_eq settled (.remove valueId) sound.synced trivial
      refine ⟨_, isWritten.symm.trans isCalled, synced, rfl, fun other => ?_⟩
      refine (update_apply ..).trans ?_
      simp only [some.injEq, eq_comm]
      rfl
  obtain ⟨context, rfl, synced, sameSize, values⟩ := removed
  have ofTopic : ∀ other, writer.topicValueIds topic = some other →
      world.origin other = some (id, topic) := fun other isId =>
    ((sound.topics id topic).origin other).mpr (isTopicId.trans isId)
  refine ⟨synced, sound.running, fun other otherTopic => ?_, ?_, ?_, ?_⟩
  · by_cases same : other = id ∧ otherTopic = topic
    · obtain ⟨rfl, rfl⟩ := same
      have isNumber : settled.settled other otherTopic = number := update_topic_self number
      have nowWritten : settled.written other otherTopic =
          world.written other otherTopic ++ [none] := update_topic_self _
      have isSettled : settled.settledValue other otherTopic = none := by
        rw [settledValue, isNumber, nowWritten, take_of_length_le (by simp [number])]
        simp
      have isLength : (settled.written other otherTopic).length = number := by
        rw [nowWritten, length_append]
        rfl
      refine ⟨isNumber.le.trans isLength.ge, ?_, ?_, ?_, ?_, (sound.topics other otherTopic).origin⟩
      · intro later less atMost
        have tooLate := (isNumber.symm.le.trans_lt less).trans_le (atMost.trans isLength.le)
        exact absurd tooLate (Nat.lt_irrefl _)
      · exact fun value isValue => nomatch isSettled.symm.trans isValue
      · intro _ valueId isId
        refine (values valueId).trans (if_pos ?_)
        exact isTopicId.symm.trans isId
      · intro valueId isId stored isStored
        have isNone := (values valueId).trans (if_pos (isTopicId.symm.trans isId))
        exact nomatch isNone.symm.trans isStored
    · refine (sound.topics other otherTopic).frame fun base => { base with
        settled := update_topic_of_ne _ same
        written := update_topic_of_ne _ same
        values := fun valueId isId => (values valueId).trans (if_neg fun isRemoved => ?_) }
      have isOrigin := ((sound.topics other otherTopic).origin valueId).mpr isId
      obtain ⟨rfl, rfl⟩ := Prod.mk.inj (some.inj (isOrigin.symm.trans (ofTopic valueId isRemoved)))
      exact same ⟨rfl, rfl⟩
  · intro request member other otherTopic value later isTopic
    obtain ⟨inRange, positive, isFound⟩ :=
      sound.numbers request member other otherTopic value later isTopic
    exact ⟨inRange, positive, getElem?_written none isFound⟩
  · refine sound.values.frame fun base => { base with stored := fun other isHeld isStored => ?_ }
    change (context.forest.value other).isSome
    rwa [values, if_neg]
    intro isRemoved
    obtain ⟨holder, found, isHolder, isFoundId⟩ := isHeld
    have isNone := sound.values.origin holder found isHolder other isFoundId
    exact nomatch isNone.symm.trans (ofTopic other isRemoved)
  · exact fun other isSome => (sound.small other isSome).trans_eq sameSize.symm

theorem Sound.writeValue (sound : world.Sound)
    (isNext : world.writeEntityTopic id topic (some value) = some next) : next.Sound := by
  obtain ⟨writer, isWriter, rfl⟩ := map_eq_some_iff.mp isNext
  have inRange := (List.getElem?_eq_some_iff.mp isWriter).1
  refine ⟨sound.synced, sound.running, fun other otherTopic => ?_, ?_, ?_, sound.small⟩
  · by_cases same : other = id ∧ otherTopic = topic
    · obtain ⟨rfl, rfl⟩ := same
      have before := sound.topics other otherTopic
      have nowWritten : update world.written other (update (world.written other)
          otherTopic (world.written other otherTopic ++ [some value])) other otherTopic =
            world.written other otherTopic ++ [some value] := update_topic_self _
      have isSettled : ∀ written, written = world.written other otherTopic ++ [some value] →
          (written.take (world.settled other otherTopic)).getLast?.join =
            world.settledValue other otherTopic := by
        rintro written rfl
        rw [take_append_of_le_length before.settled_le]
        rfl
      have isLength := (congrArg length nowWritten).trans (length_append ..)
      refine ⟨?_, ?_, fun found isFound => before.present found
        ((isSettled _ nowWritten).symm.trans isFound), fun isNone => before.absent
        ((isSettled _ nowWritten).symm.trans isNone), before.entity, before.origin⟩
      · refine (before.settled_le.trans (Nat.le_add_right _ 1)).trans isLength.ge
      · intro later less atMost
        have atMostNext : later ≤ (world.written other otherTopic).length + 1 :=
          atMost.trans isLength.le
        by_cases isLast : later = (world.written other otherTopic).length + 1
        · subst isLast
          exact ⟨value, mem_append_right _ (mem_singleton_self _)⟩
        · obtain ⟨found, member⟩ := before.awaited later less (by omega)
          exact ⟨found, mem_append_left _ member⟩
    · exact (sound.topics other otherTopic).frame fun base => { base with
        written := update_topic_of_ne _ same
        requests := fun _ _ _ member => mem_append_left _ member }
  · intro request member other otherTopic found later isTopic
    rcases mem_append.mp member with member | member
    · obtain ⟨otherRange, positive, isFound⟩ :=
        sound.numbers request member other otherTopic found later isTopic
      exact ⟨otherRange, positive, getElem?_written _ isFound⟩
    · obtain rfl := mem_singleton.mp member
      obtain ⟨rfl, rfl, rfl, rfl⟩ := TypesCallback.topic.inj isTopic
      refine ⟨inRange, Nat.le_add_left 1 _, ?_⟩
      change (update world.written id (update (world.written id) topic
        (world.written id topic ++ [some value])) id topic)[_]? = _
      rw [update_topic_self]
      simp
  · exact sound.values.frame fun base => { base with }

theorem Sound.getEntityTypes (sound : world.Sound)
    (isSet : ∀ id topic value number, callback ≠ .topic id topic value number) :
    (world.getEntityTypes callback).Sound := by
  refine ⟨sound.synced, sound.running, fun id topic => ?_, ?_, ?_, sound.small⟩
  · exact (sound.topics id topic).frame fun base => { base with
      requests := fun _ _ _ member => mem_append_left _ member }
  · intro request member id topic value number isTopic
    rcases mem_append.mp member with member | member
    · exact sound.numbers request member id topic value number isTopic
    · obtain rfl := mem_singleton.mp member
      exact absurd isTopic (isSet id topic value number)
  · exact sound.values.frame fun base => { base with }

theorem done_requests (world : WriterWorld) (requests : List EntityRequest)
    (callback : TypesCallback) (types : Option (List Bytes)) :
    { world with requests }.done callback types = { world.done callback types with requests } := by
  cases callback with
  | topic id topic value number =>
    simp only [done, doneTopic, callRepository, maybeFindParentValueId]
    cases world.writers[id]? with
    | none => rfl
    | some writer =>
      dsimp only
      cases writer.topicValueIds topic <;> dsimp only <;>
        generalize world.context.call _ = called <;> cases called <;> rfl
  | set id content metadata =>
    simp only [done, doneSet, callRepository, valueWriter?]
    cases (world.valueWriters[id]?).join with
    | none => rfl
    | some writer =>
      dsimp only
      cases writer.valueId with
      | none =>
        dsimp only
        generalize world.context.call _ = called
        cases called <;> rfl
      | some valueId =>
        dsimp only
        cases world.context.repository.get valueId with
        | none => rfl
        | some value =>
          dsimp only
          generalize world.context.call _ = called
          cases called <;> rfl

theorem requests_done (world : WriterWorld) (callback : TypesCallback)
    (types : Option (List Bytes)) : (world.done callback types).requests = world.requests := by
  have same := congrArg (fun world : WriterWorld => world.requests)
    (done_requests world world.requests callback types)
  exact same

theorem Sound.done (sound : world.Sound) (status : EntityStatus)
    (types : Option (List Bytes)) (isRequest : world.requests[request]? = some ⟨callback, before⟩)
    (canDo : world.CanDo callback) : ({ world with
      requests := world.requests.set request ⟨callback, status⟩ }.done callback types).Sound := by
  rw [done_requests]
  cases callback with
  | topic id topic value number =>
    obtain ⟨inRange, positive, isWritten⟩ := sound.numbers _ (mem_of_getElem? isRequest)
      id topic value number rfl
    obtain ⟨doneSound, isSettled⟩ := sound.doneTopic positive isWritten canDo types inRange
    have sameRequests := requests_done world (.topic id topic value number) types
    have next := doneSound.setRequest status
      (show (world.done (.topic id topic value number) types).requests[request]? = _ from
        sameRequests ▸ isRequest) (by
        intro other otherTopic otherValue later isTopic
        obtain ⟨rfl, rfl, rfl, rfl⟩ := TypesCallback.topic.inj isTopic
        exact isSettled.ge)
    rwa [show (world.doneTopic id topic value number types).requests = world.requests from
      sameRequests] at next
  | set id content metadata =>
    have doneSound := sound.doneSet canDo content metadata types
    have sameRequests := requests_done world (.set id content metadata) types
    have next := doneSound.setRequest status
      (show (world.done (.set id content metadata) types).requests[request]? = _ from
        sameRequests ▸ isRequest) (by simp)
    rwa [show (world.doneSet id content metadata types).requests = world.requests from
      sameRequests] at next

theorem Sound.step {event : WriterEvent} (sound : world.Sound)
    (orderly : world.Orderly event) (isStep : world.step event = some next) : next.Sound := by
  unfold WriterWorld.step at isStep
  rw [if_neg (by simp [sound.running])] at isStep
  cases event with
  | getWriter selector =>
    cases isStep
    refine ⟨sound.synced, sound.running, fun id topic => ?_, ?_, ?_, sound.small⟩
    · refine (sound.topics id topic).frame fun base => { base with topicValueId := ?_ }
      change ((world.writers ++ [_])[id]?).bind _ = (world.writers[id]?).bind _
      by_cases inRange : id < world.writers.length
      · rw [List.getElem?_append_left inRange]
      · rw [getElem?_eq_none (Nat.le_of_not_lt inRange)]
        by_cases isNew : id = world.writers.length
        · simp [isNew]
        · rw [getElem?_eq_none (by simp; omega)]
    · intro request member id topic value number isTopic
      obtain ⟨inRange, isNumber⟩ := sound.numbers request member id topic value number isTopic
      exact ⟨Nat.lt_of_lt_of_le inRange (by simp), isNumber⟩
    · exact sound.values.frame fun base => { base with }
  | createValue writer type =>
    obtain ⟨_, -, rfl⟩ := map_eq_some_iff.mp isStep
    exact sound.addContextValueWriter writer _ type
  | createChildValue id type => exact sound.createChildValue isStep
  | set id content metadata =>
    obtain ⟨writer, isWriter, isSet⟩ := map_eq_some_iff.mp isStep
    split at isSet
    · rename_i notEntity
      subst isSet
      rcases orderly with canSet | isEntity
      · exact sound.doneSet canSet content metadata none
      · exact absurd (isEntity writer isWriter) notEntity
    · subst isSet
      exact sound.getEntityTypes nofun
  | close id => exact sound.destroyContextValueWriter isStep
  | writeEntityTopic id topic value =>
    cases value with
    | none => exact sound.writeNull isStep
    | some value => exact sound.writeValue isStep
  | getTypes request types =>
    simp only [getTypes] at isStep
    split at isStep
    · rename_i callback isRequest
      cases isStep
      exact sound.done .answered types isRequest (orderly _ isRequest)
    · nomatch isStep
  | entityError request types =>
    simp only [entityError] at isStep
    split at isStep
    · rename_i callback isRequest
      cases isStep
      exact sound.done .failed types isRequest (orderly _ isRequest)
    · rename_i callback isRequest
      cases isStep
      exact sound.done .failed types isRequest (orderly _ isRequest)
    · nomatch isStep
  | runTask =>
    simp only [runTask] at isStep
    split at isStep
    · nomatch isStep
    · rename_i task tasks isTask
      have isAlive := orderly task (by rw [isTask]; rfl)
      obtain ⟨writer, isWriter⟩ := isSome_iff_exists.mp isAlive
      have tasksSound : Sound { world with tasks } :=
        sound.setValueWriters _ _ fun _ writer isWriter _ isId => ⟨writer, isWriter, isId⟩
      have isWriter' : valueWriter? { world with tasks } task.this = some writer := isWriter
      rw [isWriter'] at isStep
      cases isStep
      exact tasksSound.addContextValueWriter _ _ _

theorem initial_sound : initial.Sound where
  synced := initial_synced
  running := rfl
  topics id topic := by
    refine ⟨Nat.le_refl _, fun number less atMost => ?_, ?_, ?_, ?_, ?_⟩
    · exact absurd (Nat.lt_of_lt_of_le less atMost) (Nat.lt_irrefl _)
    all_goals simp [initial, topicValueId, settledValue]
  numbers := by simp [initial]
  values := by constructor <;> simp [initial, valueWriter?]
  small := by simp [initial]

theorem Sound.holds (sound : world.Sound)
    (answered : ∀ request ∈ world.requests, request.status ≠ .awaiting) (id : ℕ) (topic : Bytes) :
    world.Holds id topic := by
  have ofTopic := sound.topics id topic
  have allSettled : world.settled id topic = (world.written id topic).length := by
    refine Nat.le_antisymm ofTopic.settled_le (Nat.le_of_not_lt fun less => ?_)
    obtain ⟨value, member⟩ := ofTopic.awaited _ less (Nat.le_refl _)
    exact answered _ member rfl
  have isSettled : world.settledValue id topic = world.lastWritten id topic := by
    rw [settledValue, allSettled, take_length, lastWritten]
  rw [Holds]
  split
  · rename_i value isLast
    obtain ⟨valueId, stored, isId, isStored, content⟩ := ofTopic.present value
      (isSettled.trans isLast)
    refine ⟨valueId, fun other => ?_, stored, (sound.synced.shape.values valueId).trans isStored,
      content⟩
    rw [ofTopic.origin, isId, sound.synced.shape.values, some.injEq]
    constructor
    · rintro ⟨same, -⟩
      exact same.symm
    · rintro rfl
      exact ⟨rfl, by rw [isStored]; rfl⟩
  · rename_i isLast
    intro other isOrigin
    rw [sound.synced.shape.values]
    exact ofTopic.absent (isSettled.trans isLast) other ((ofTopic.origin other).mp isOrigin)

/-- In a run of orderly events no check fails, and when no answer is awaited every topic has what
was last written to it. -/
theorem topics_run (events : List WriterEvent) (world : WriterWorld)
    (orderly : EachStep step Orderly initial events)
    (isRun : runSteps step initial events = some world) : world.crashed = false ∧
      ((∀ request ∈ world.requests, request.status ≠ .awaiting) →
        ∀ id topic, world.Holds id topic) := by
  have sound : world.Sound := invariant_runSteps Sound
    (fun inv cond stepped => inv.step cond stepped) initial_sound orderly isRun
  exact ⟨sound.running, sound.holds⟩

/-- A topic that is written twice and then cleared, beside a value and its child. -/
def orderlyWrites : List WriterEvent :=
  [.getWriter none, .createValue 0 .story, .set 0 none none, .createChildValue 0 .entity, .runTask,
    .writeEntityTopic 0 (ascii ['t']) (some (ascii ['a'])),
    .writeEntityTopic 0 (ascii ['t']) (some (ascii ['b'])), .set 1 (some (ascii ['c'])) none,
    .getTypes 0 none, .getTypes 2 (some [ascii ['C']]), .entityError 1 (some [ascii ['B']]),
    .close 0, .close 1, .writeEntityTopic 0 (ascii ['t']) none]

theorem topics_run_orderlyWrites : ∃ world, runSteps step initial orderlyWrites = some world ∧
    world.crashed = false ∧ ((∀ request ∈ world.requests, request.status ≠ .awaiting) →
        ∀ id topic, world.Holds id topic) :=
  ⟨_, rfl, topics_run orderlyWrites _ (by decide) rfl⟩

def writesAfterNull : List WriterEvent :=
  [.getWriter none, .writeEntityTopic 0 (ascii ['t']) (some (ascii ['a'])), .getTypes 0 none,
    .writeEntityTopic 0 (ascii ['t']) none,
    .writeEntityTopic 0 (ascii ['t']) (some (ascii ['b'])), .getTypes 1 none]

def lateTypes : List WriterEvent :=
  [.getWriter none, .writeEntityTopic 0 (ascii ['t']) (some (ascii ['a'])),
    .writeEntityTopic 0 (ascii ['t']) none, .getTypes 0 none]

/-- The first run updates an id that is not stored; after the second one the cleared topic has a
value. -/
theorem not_topics_run :
    (∃ world, runSteps step initial writesAfterNull = some world ∧ world.crashed = true) ∧
      ∃ world, runSteps step initial lateTypes = some world ∧
        (∀ request ∈ world.requests, request.status ≠ .awaiting) ∧
        ¬ world.Holds 0 (ascii ['t']) := by
  refine ⟨⟨_, rfl, by decide⟩, _, rfl, by decide, fun holds => ?_⟩
  have isStored := holds 0 rfl
  revert isStored
  decide

end WriterWorld

end Peridot
