import Peridot.CallList
import Peridot.LRUCache

/-!
# Runs of the cache

Whatever the order of calls and replies, the cache has the values of the keys used last, a key has
one call of the generator that is outstanding, and each caller gets the reply to its call.
-/

namespace Peridot

open List Option Function LRUCache

namespace CacheWorld

variable {K V S : Type} {size : ℕ} {okStatus : S} {world : CacheWorld K V S}

/-- How often the callback of a call of `Get` is still to be called. -/
def due (world : CacheWorld K V S) (index : ℕ) (key : K) : ℕ :=
  (world.loops.flatMap CallbackLoop.callbacks).count index +
    ((world.cache.requests key).getD []).count index

/-- What holds for the callers: each one is to be called, or has been called, with the reply to the
last call of the generator for its key. -/
structure Owed (world : CacheWorld K V S) : Prop where
  waiting : ∀ key callbacks, world.cache.requests key = some callbacks → ∀ callback ∈ callbacks,
    ∃ record, world.gets[callback]? = some record ∧ record.key = key ∧
      record.source = world.latest key
  running : ∀ loop ∈ world.loops, ∀ callback ∈ loop.callbacks, ∃ record, ∃ call : ℕ,
    world.gets[callback]? = some record ∧ record.source = some call ∧
      world.generatorCalls[call]? = some ⟨record.key, some loop.reply⟩
  received : ∀ (index : ℕ) record, world.gets[index]? = some record → ∀ reply ∈ record.received,
    ∃ call : ℕ, record.source = some call ∧
      world.generatorCalls[call]? = some ⟨record.key, some reply⟩
  once : ∀ (index : ℕ) record, world.gets[index]? = some record →
    record.received.length + world.due index record.key = 1

theorem owed_create : (create : CacheWorld K V S).Owed where
  waiting := by simp [create, LRUCache.create]
  running := by simp [create]
  received := by simp [create]
  once := by simp [create]

theorem Owed.due_length (owed : world.Owed) (key : K) : world.due world.gets.length key = 0 := by
  have notRunning : world.gets.length ∉ world.loops.flatMap CallbackLoop.callbacks := by
    intro isRunning
    obtain ⟨loop, isLoop, isCallback⟩ := mem_flatMap.mp isRunning
    obtain ⟨record, -, isRecord, -⟩ := owed.running loop isLoop _ isCallback
    exact absurd (lt_of_getElem?_eq_some isRecord) (lt_irrefl _)
  have notWaiting : world.gets.length ∉ (world.cache.requests key).getD [] := by
    intro isWaiting
    cases isRequest : world.cache.requests key with
    | none => simp [isRequest] at isWaiting
    | some callbacks =>
      rw [isRequest, getD_some] at isWaiting
      obtain ⟨record, isRecord, -⟩ := owed.waiting key callbacks isRequest _ isWaiting
      exact absurd (lt_of_getElem?_eq_some isRecord) (lt_irrefl _)
  rw [due, count_eq_zero_of_not_mem notRunning, count_eq_zero_of_not_mem notWaiting]

variable {callbacks : List ℕ} {loops : List (CallbackLoop V S)}

theorem Owed.receive (owed : world.Owed) {callback : ℕ} {reply : S × V}
    (isLoop : world.loops = ⟨callback :: callbacks, reply⟩ :: loops) :
    ({ world with loops := ⟨callbacks, reply⟩ :: loops }.receive callback reply).Owed := by
  obtain ⟨called, calledCall, isCalled, isCalledSource, isCalledCall⟩ :=
    owed.running _ (isLoop ▸ mem_cons_self ..) callback (mem_cons_self ..)
  have keeps : ∀ {index : ℕ} {record}, world.gets[index]? = some record →
      ∃ after, (world.gets.modify callback fun record =>
          { record with received := record.received ++ [reply] })[index]? = some after ∧
        after.key = record.key ∧ after.source = record.source := by
    intro index record isRecord
    by_cases same : index = callback
    · exact ⟨_, getElem?_modify_eq_some.mpr (.inl ⟨record, same, isRecord, rfl⟩), rfl, rfl⟩
    · exact ⟨record, getElem?_modify_eq_some.mpr (.inr ⟨same, isRecord⟩), rfl, rfl⟩
  constructor
  case waiting =>
    intro key others isOthers other isOther
    obtain ⟨record, isRecord, isKey, isSource⟩ := owed.waiting key others isOthers other isOther
    obtain ⟨after, isAfter, sameKey, sameSource⟩ := keeps isRecord
    exact ⟨after, isAfter, sameKey.trans isKey, sameSource.trans isSource⟩
  case running =>
    intro loop isMember other isOther
    have wasRunning : ∃ before ∈ world.loops, other ∈ before.callbacks ∧ before.reply = loop.reply := by
      rw [isLoop]
      rcases mem_cons.mp isMember with rfl | isOld
      · exact ⟨_, mem_cons_self .., mem_cons_of_mem _ isOther, rfl⟩
      · exact ⟨loop, mem_cons_of_mem _ isOld, isOther, rfl⟩
    obtain ⟨before, isBefore, isWaiting, sameReply⟩ := wasRunning
    obtain ⟨record, call, isRecord, isSource, isCall⟩ := owed.running before isBefore other isWaiting
    obtain ⟨after, isAfter, sameKey, sameSource⟩ := keeps isRecord
    refine ⟨after, call, isAfter, sameSource.trans isSource, ?_⟩
    rw [sameKey, ← sameReply]
    exact isCall
  case received =>
    intro index record isRecord received isReceived
    rcases getElem?_modify_eq_some.mp isRecord with ⟨before, rfl, isBefore, rfl⟩ | ⟨-, isOld⟩
    · obtain rfl := some.inj (isCalled.symm.trans isBefore)
      rcases mem_append.mp isReceived with isOld | isNew
      · exact owed.received _ called isCalled received isOld
      · obtain rfl := mem_singleton.mp isNew
        exact ⟨calledCall, isCalledSource, isCalledCall⟩
    · exact owed.received index record isOld received isReceived
  case once =>
    intro index record isRecord
    rcases getElem?_modify_eq_some.mp isRecord with ⟨before, rfl, isBefore, rfl⟩ | ⟨different, isOld⟩
    · have isOnce := owed.once _ before isBefore
      simp only [due, isLoop, CacheWorld.receive, flatMap_cons, count_append,
        count_cons_self, length_append, length_singleton] at isOnce ⊢
      omega
    · have isOnce := owed.once index record isOld
      simp only [due, isLoop, CacheWorld.receive, flatMap_cons, count_append,
        count_cons_of_ne (Ne.symm different)] at isOnce ⊢
      exact isOnce

theorem Owed.endLoop (owed : world.Owed) {reply : S × V}
    (isLoop : world.loops = ⟨[], reply⟩ :: loops) : ({ world with loops }).Owed where
  __ := owed
  running loop isMember := owed.running loop (isLoop ▸ mem_cons_of_mem _ isMember)
  once index record isRecord := by
    have isOnce := owed.once index record isRecord
    simpa only [due, isLoop, flatMap_cons, nil_append] using isOnce

variable [DecidableEq K]

structure Valid (size : ℕ) (okStatus : S) (world : CacheWorld K V S) : Prop where
  linked : world.cache.Linked
  recent : world.cache.values.map CacheEntry.key = (mostRecent world.uses).take size
  latest : ∀ key (call : ℕ), world.latest key = some call →
    ∃ reply, world.generatorCalls[call]? = some ⟨key, reply⟩
  outstanding : ∀ key (call : ℕ), world.generatorCalls[call]? = some ⟨key, none⟩ →
    world.latest key = some call
  cached : ∀ entry ∈ world.cache.values, ∃ call : ℕ, world.latest entry.key = some call ∧
    world.generatorCalls[call]? = some ⟨entry.key, some (okStatus, entry.value)⟩
  requested : ∀ key, (world.cache.requests key).isSome ↔
    ∃ call : ℕ, world.generatorCalls[call]? = some ⟨key, none⟩

theorem valid_create : (create : CacheWorld K V S).Valid size okStatus where
  linked := linked_create
  recent := by simp [create, LRUCache.create, mostRecent]
  latest := by simp [create]
  outstanding := by simp [create]
  cached := by simp [create, LRUCache.create]
  requested := by simp [create, LRUCache.create]

variable {key : K} {call : ℕ} {entry : CacheEntry K V}

section

variable (valid : world.Valid size okStatus)
include valid

theorem Valid.map_eq_none (isOutstanding : world.generatorCalls[call]? = some ⟨key, none⟩) :
    world.cache.map key = none := by
  rw [eq_none_iff_forall_ne_some]
  intro iterator isIterator
  obtain ⟨entry, isEntry, rfl, -⟩ := (valid.linked.map key iterator).mp isIterator
  obtain ⟨other, isLatest, isReplied⟩ := valid.cached entry isEntry
  rw [valid.outstanding _ _ isOutstanding] at isLatest
  cases isLatest
  rw [isOutstanding] at isReplied
  simp at isReplied

theorem Valid.hit {iterator : ℕ} (isIterator : world.cache.map key = some iterator)
    (isFound : (world.cache.values.find? fun entry => entry.node = iterator) = some entry) :
    (world.afterGet okStatus key { world.cache with
      values := entry :: world.cache.values.eraseP fun entry => entry.node = iterator }
      (.hit entry.value)).Valid size okStatus := by
  obtain ⟨found, isSame, isEntry, rfl⟩ := valid.linked.find isIterator
  obtain rfl := some.inj (isFound.symm.trans isSame)
  obtain ⟨linked, keys⟩ := valid.linked.touch isFound
  have isRecent : entry.key ∈ (mostRecent world.uses).take size := by
    rw [← valid.recent]
    exact mem_map_of_mem isEntry
  exact { valid with
    linked
    recent := by rw [afterGet, keys, valid.recent, mostRecent, take_front_of_mem isRecent]
    cached := by
      intro other isOther
      rcases mem_cons.mp isOther with rfl | isOld
      · exact valid.cached _ isEntry
      · exact valid.cached other (mem_of_mem_eraseP isOld) }

theorem Valid.waits {others : List ℕ} (isRequest : world.cache.requests key = some callbacks) :
    (world.afterGet okStatus key { world.cache with
      requests := update world.cache.requests key (some others) } .waits).Valid
      size okStatus := by
  exact { valid with
    linked := valid.linked.of_eq rfl rfl rfl
    requested := by
      intro other
      by_cases same : other = key
      · subst same
        simp only [afterGet, update_self, isSome_some, true_iff]
        exact (valid.requested other).mp (by simp [isRequest])
      · simp only [afterGet, update_of_ne same]
        exact valid.requested other }

theorem Valid.generates (notCached : world.cache.map key = none)
    (notRequested : world.cache.requests key = none) :
    (world.afterGet okStatus key { world.cache with
      requests := update world.cache.requests key (some callbacks) } .generates).Valid
      size okStatus := by
  have noOutstanding : ∀ call : ℕ, world.generatorCalls[call]? ≠ some ⟨key, none⟩ := fun call isCall => by
    have isSome := (valid.requested key).mpr ⟨call, isCall⟩
    simp [notRequested] at isSome
  constructor
  case linked => exact valid.linked.of_eq rfl rfl rfl
  case recent => exact valid.recent
  case latest =>
    intro other call isLatest
    simp only [afterGet, getElem?_concat_eq_some] at isLatest ⊢
    by_cases same : other = key
    · subst same
      rw [update_self] at isLatest
      exact ⟨none, .inr ⟨(some.inj isLatest).symm, rfl⟩⟩
    · rw [update_of_ne same] at isLatest
      obtain ⟨reply, isReply⟩ := valid.latest other call isLatest
      exact ⟨reply, .inl isReply⟩
  case outstanding =>
    intro other call isOutstanding
    simp only [afterGet, getElem?_concat_eq_some] at isOutstanding ⊢
    rcases isOutstanding with isOld | ⟨rfl, isNew⟩
    · have different : other ≠ key := fun same => noOutstanding call (same ▸ isOld)
      rw [update_of_ne different]
      exact valid.outstanding other call isOld
    · obtain rfl : other = key := congrArg GeneratorCall.key isNew
      exact update_self ..
  case cached =>
    intro entry isEntry
    have different : entry.key ≠ key := by
      intro same
      have isSome := (valid.linked.isSome_map key).mpr (mem_map.mpr ⟨entry, isEntry, same⟩)
      simp [notCached] at isSome
    obtain ⟨call, isLatest, isReplied⟩ := valid.cached entry isEntry
    use call
    simp only [afterGet, getElem?_concat_eq_some, update_of_ne different]
    exact ⟨isLatest, .inl isReplied⟩
  case requested =>
    intro other
    simp only [afterGet, getElem?_concat_eq_some]
    by_cases same : other = key
    · subst same
      simp only [update_self, isSome_some, true_iff]
      exact ⟨_, .inr ⟨rfl, trivial⟩⟩
    · rw [update_of_ne same, valid.requested]
      constructor
      · rintro ⟨call, isCall⟩
        exact ⟨call, .inl isCall⟩
      · rintro ⟨call, isOld | ⟨-, isNew⟩⟩
        · exact ⟨call, isOld⟩
        · exact absurd (congrArg GeneratorCall.key isNew) same

theorem Valid.replied (reply : S × V)
    (isOutstanding : world.generatorCalls[call]? = some ⟨key, none⟩) :
    (∀ other (outstandingCall : ℕ),
      (world.generatorCalls.set call ⟨key, some reply⟩)[outstandingCall]? = some ⟨other, none⟩ ↔
        other ≠ key ∧ world.generatorCalls[outstandingCall]? = some ⟨other, none⟩) ∧
      ∀ (place : ℕ) (record : GeneratorCall K V S), record.reply.isSome →
        world.generatorCalls[place]? = some record →
          (world.generatorCalls.set call ⟨key, some reply⟩)[place]? = some record := by
  constructor
  · intro other outstandingCall
    rw [getElem?_set_eq_some]
    constructor
    · rintro (⟨-, -, isNew⟩ | ⟨different, isOld⟩)
      · simp at isNew
      · refine ⟨?_, isOld⟩
        rintro rfl
        have isLatest := valid.outstanding _ _ isOutstanding
        rw [valid.outstanding _ _ isOld] at isLatest
        exact different (some.inj isLatest)
    · rintro ⟨different, isOld⟩
      refine .inr ⟨?_, isOld⟩
      rintro rfl
      rw [isOutstanding] at isOld
      exact different (congrArg GeneratorCall.key (some.inj isOld)).symm
  · intro place record isReplied isRecord
    rw [getElem?_set_eq_some]
    refine .inr ⟨?_, isRecord⟩
    rintro rfl
    obtain rfl := some.inj (isOutstanding.symm.trans isRecord)
    simp at isReplied

end

variable {next : CacheWorld K V S}

theorem Valid.afterReply (valid : world.Valid size okStatus) {reply : S × V}
    (isOutstanding : world.generatorCalls[call]? = some ⟨key, none⟩)
    (linked : next.cache.Linked)
    (recent : next.cache.values.map CacheEntry.key = (mostRecent next.uses).take size)
    (requests : next.cache.requests = update world.cache.requests key none)
    (calls : next.generatorCalls = world.generatorCalls.set call ⟨key, some reply⟩)
    (latest : next.latest = world.latest)
    (values : ∀ entry ∈ next.cache.values, entry ∈ world.cache.values ∨
      entry.key = key ∧ reply = (okStatus, entry.value)) : next.Valid size okStatus := by
  obtain ⟨outstandingCalls, replies⟩ := valid.replied reply isOutstanding
  have isReplied : (world.generatorCalls.set call ⟨key, some reply⟩)[call]? =
      some ⟨key, some reply⟩ :=
    getElem?_set_eq_some.mpr (.inl ⟨rfl, lt_of_getElem?_eq_some isOutstanding, rfl⟩)
  constructor
  case linked => exact linked
  case recent => exact recent
  case latest =>
    intro other place isLatest
    rw [latest] at isLatest
    rw [calls]
    obtain ⟨before, isCall⟩ := valid.latest other place isLatest
    cases before with
    | some received => exact ⟨some received, replies place _ rfl isCall⟩
    | none =>
      by_cases same : place = call
      · subst same
        obtain rfl := congrArg GeneratorCall.key (some.inj (isOutstanding.symm.trans isCall))
        exact ⟨some reply, isReplied⟩
      · exact ⟨none, getElem?_set_eq_some.mpr (.inr ⟨same, isCall⟩)⟩
  case outstanding =>
    intro other place isCall
    rw [calls, outstandingCalls] at isCall
    rw [latest]
    exact valid.outstanding other place isCall.2
  case cached =>
    intro entry isEntry
    rw [latest, calls]
    rcases values entry isEntry with isOld | ⟨rfl, rfl⟩
    · obtain ⟨place, isLatest, isCall⟩ := valid.cached entry isOld
      exact ⟨place, isLatest, replies place _ rfl isCall⟩
    · exact ⟨call, valid.outstanding _ _ isOutstanding, isReplied⟩
  case requested =>
    intro other
    simp only [requests, calls, outstandingCalls]
    by_cases same : other = key
    · subst same
      simp
    · rw [update_of_ne same, valid.requested]
      simp [same]

section

variable (owed : world.Owed)
include owed

theorem Owed.hit (valid : world.Valid size okStatus)
    {cache : LRUCache K V} (isEntry : entry ∈ world.cache.values)
    (sameRequests : cache.requests = world.cache.requests) :
    (world.afterGet okStatus entry.key cache (.hit entry.value)).Owed := by
  constructor
  case waiting =>
    intro key callbacks isRequest callback isCallback
    simp only [afterGet, sameRequests] at isRequest
    obtain ⟨record, isRecord, others⟩ := owed.waiting key callbacks isRequest callback isCallback
    exact ⟨record, getElem?_concat_eq_some.mpr (.inl isRecord), others⟩
  case running =>
    intro loop isLoop callback isCallback
    obtain ⟨record, call, isRecord, others⟩ := owed.running loop isLoop callback isCallback
    exact ⟨record, call, getElem?_concat_eq_some.mpr (.inl isRecord), others⟩
  case received =>
    intro index record isRecord reply isReply
    rcases getElem?_concat_eq_some.mp isRecord with isOld | ⟨-, rfl⟩
    · exact owed.received index record isOld reply isReply
    · obtain rfl := mem_singleton.mp isReply
      exact valid.cached entry isEntry
  case once =>
    intro index record isRecord
    have sameDue : (world.afterGet okStatus entry.key cache (.hit entry.value)).due index record.key =
        world.due index record.key := by
      simp only [due, afterGet, sameRequests]
    rw [sameDue]
    rcases getElem?_concat_eq_some.mp isRecord with isOld | ⟨rfl, rfl⟩
    · exact owed.once index record isOld
    · rw [owed.due_length]
      rfl

theorem Owed.wait (key : K) (callbacks : List ℕ)
    (isRequest : (world.cache.requests key).getD [] = callbacks) (requests : next.cache.requests =
      update world.cache.requests key (some (callbacks ++ [world.gets.length])))
    (gets : next.gets = world.gets ++ [⟨key, next.latest key, []⟩])
    (latest : ∀ other, (world.cache.requests other).isSome → next.latest other = world.latest other)
    (calls : ∀ (call : ℕ) record, world.generatorCalls[call]? = some record →
      next.generatorCalls[call]? = some record) (loops : next.loops = world.loops) : next.Owed := by
  have isOld : ∀ {index : ℕ} {record}, world.gets[index]? = some record →
      next.gets[index]? = some record := fun isRecord => by
    rw [gets]
    exact getElem?_concat_eq_some.mpr (.inl isRecord)
  have isNew : next.gets[world.gets.length]? = some ⟨key, next.latest key, []⟩ := by
    rw [gets]
    exact getElem?_concat_eq_some.mpr (.inr ⟨rfl, rfl⟩)
  constructor
  case waiting =>
    intro other others isOthers callback isCallback
    rw [requests] at isOthers
    by_cases same : other = key
    · subst same
      rw [update_self] at isOthers
      cases isOthers
      rcases mem_append.mp isCallback with isWaiting | isLast
      · cases isSome : world.cache.requests other with
        | none =>
          rw [isSome] at isRequest
          simp [← isRequest] at isWaiting
        | some before =>
          rw [isSome, getD_some] at isRequest
          obtain ⟨record, isRecord, isKey, isSource⟩ :=
            owed.waiting other before isSome callback (isRequest ▸ isWaiting)
          refine ⟨record, isOld isRecord, isKey, ?_⟩
          rw [isSource, latest other (by simp [isSome])]
      · obtain rfl := mem_singleton.mp isLast
        exact ⟨_, isNew, rfl, rfl⟩
    · rw [update_of_ne same] at isOthers
      obtain ⟨record, isRecord, isKey, isSource⟩ := owed.waiting other others isOthers callback isCallback
      refine ⟨record, isOld isRecord, isKey, ?_⟩
      rw [isSource, latest other (by simp [isOthers])]
  case running =>
    intro loop isLoop callback isCallback
    rw [loops] at isLoop
    obtain ⟨record, call, isRecord, isSource, isCall⟩ := owed.running loop isLoop callback isCallback
    exact ⟨record, call, isOld isRecord, isSource, calls call _ isCall⟩
  case received =>
    intro index record isRecord reply isReply
    rw [gets] at isRecord
    rcases getElem?_concat_eq_some.mp isRecord with isBefore | ⟨-, rfl⟩
    · obtain ⟨call, isSource, isCall⟩ := owed.received index record isBefore reply isReply
      exact ⟨call, isSource, calls call _ isCall⟩
    · simp at isReply
  case once =>
    intro index record isRecord
    rw [gets] at isRecord
    have isDue : next.due index record.key = world.due index record.key +
        if record.key = key then [world.gets.length].count index else 0 := by
      simp only [due, loops, requests]
      by_cases same : record.key = key
      · rw [same, update_self, isRequest, getD_some, count_append, if_pos rfl]
        omega
      · rw [update_of_ne same, if_neg same]
        omega
    rw [isDue]
    rcases getElem?_concat_eq_some.mp isRecord with isBefore | ⟨rfl, rfl⟩
    · have isLess := lt_of_getElem?_eq_some isBefore
      have notNew : [world.gets.length].count index = 0 :=
        count_eq_zero_of_not_mem (by simp [isLess.ne])
      have isOnce := owed.once index record isBefore
      split <;> omega
    · rw [owed.due_length]
      simp

theorem Owed.afterReply (valid : world.Valid size okStatus)
    {reply : S × V} (isOutstanding : world.generatorCalls[call]? = some ⟨key, none⟩)
    (isRequest : world.cache.requests key = some callbacks)
    (requests : next.cache.requests = update world.cache.requests key none)
    (calls : next.generatorCalls = world.generatorCalls.set call ⟨key, some reply⟩)
    (loops : next.loops = ⟨callbacks, reply⟩ :: world.loops) (gets : next.gets = world.gets)
    (latest : next.latest = world.latest) : next.Owed := by
  have replies := (valid.replied reply isOutstanding).2
  constructor
  case waiting =>
    intro other others isOthers callback isCallback
    rw [requests] at isOthers
    have different : other ≠ key := by
      rintro rfl
      simp at isOthers
    rw [update_of_ne different] at isOthers
    rw [gets, latest]
    exact owed.waiting other others isOthers callback isCallback
  case running =>
    intro loop isLoop callback isCallback
    rw [loops] at isLoop
    rw [gets, calls]
    rcases mem_cons.mp isLoop with rfl | isOld
    · obtain ⟨record, isRecord, rfl, isSource⟩ := owed.waiting _ callbacks isRequest callback isCallback
      refine ⟨record, call, isRecord, ?_, ?_⟩
      · rw [isSource, valid.outstanding _ _ isOutstanding]
      · exact getElem?_set_eq_some.mpr (.inl ⟨rfl, lt_of_getElem?_eq_some isOutstanding, rfl⟩)
    · obtain ⟨record, place, isRecord, isSource, isCall⟩ := owed.running loop isOld callback isCallback
      exact ⟨record, place, isRecord, isSource, replies place _ rfl isCall⟩
  case received =>
    intro index record isRecord received isReceived
    rw [gets] at isRecord
    obtain ⟨place, isSource, isCall⟩ := owed.received index record isRecord received isReceived
    rw [calls]
    exact ⟨place, isSource, replies place _ rfl isCall⟩
  case once =>
    intro index record isRecord
    rw [gets] at isRecord
    have isOnce := owed.once index record isRecord
    simp only [due, loops, requests, flatMap_cons, count_append] at isOnce ⊢
    by_cases same : record.key = key
    · rw [same, isRequest, getD_some] at isOnce
      rw [same, update_self, getD_none, count_nil]
      omega
    · have notWaiting : index ∉ callbacks := by
        intro isWaiting
        obtain ⟨waiting, isSame, isKey, -⟩ := owed.waiting key callbacks isRequest index isWaiting
        obtain rfl := some.inj (isRecord.symm.trans isSame)
        exact same isKey
      rw [update_of_ne same, count_eq_zero_of_not_mem notWaiting]
      omega

/-- A caller that has not been called yet waits for the generator or for its place in a loop. -/
theorem Owed.calledOnce (valid : world.Valid size okStatus) {index : ℕ}
    {record : GetCall K V S} (isRecord : world.gets[index]? = some record) :
    ∃ call : ℕ, ∃ reply, record.source = some call ∧
      world.generatorCalls[call]? = some ⟨record.key, reply⟩ ∧ (record.received = [] ∧
          (reply = none ∨ ∃ loop ∈ world.loops, index ∈ loop.callbacks ∧ reply = some loop.reply) ∨
        ∃ value, reply = some value ∧ record.received = [value]) := by
  have isOnce := owed.once index record isRecord
  cases isReceived : record.received with
  | cons value others =>
    rw [isReceived, length_cons] at isOnce
    have noOthers : others = [] := length_eq_zero_iff.mp (by omega)
    obtain ⟨call, isSource, isCall⟩ := owed.received index record isRecord value (by simp [isReceived])
    exact ⟨call, some value, isSource, isCall, .inr ⟨value, rfl, by rw [noOthers]⟩⟩
  | nil =>
    rw [isReceived, length_nil, Nat.zero_add, due] at isOnce
    by_cases isRunning : index ∈ world.loops.flatMap CallbackLoop.callbacks
    · obtain ⟨loop, isLoop, isCallback⟩ := mem_flatMap.mp isRunning
      obtain ⟨same, call, isSame, isSource, isCall⟩ := owed.running loop isLoop index isCallback
      obtain rfl := some.inj (isRecord.symm.trans isSame)
      exact ⟨call, some loop.reply, isSource, isCall, .inl ⟨rfl, .inr ⟨loop, isLoop, isCallback, rfl⟩⟩⟩
    · have isWaiting : index ∈ (world.cache.requests record.key).getD [] := by
        rw [count_eq_zero_of_not_mem isRunning] at isOnce
        exact count_pos_iff.mp (by omega)
      cases isRequest : world.cache.requests record.key with
      | none => simp [isRequest] at isWaiting
      | some callbacks =>
        rw [isRequest, getD_some] at isWaiting
        obtain ⟨same, isSame, -, isSource⟩ := owed.waiting _ callbacks isRequest index isWaiting
        obtain rfl := some.inj (isRecord.symm.trans isSame)
        obtain ⟨call, isCall⟩ := (valid.requested record.key).mp (by simp [isRequest])
        refine ⟨call, none, ?_, isCall, .inl ⟨rfl, .inl rfl⟩⟩
        rw [isSource, valid.outstanding _ _ isCall]

end

variable [DecidableEq S] {event : CacheEvent K V S}

theorem Valid.reply (valid : world.Valid size okStatus) {call : ℕ} {reply : S × V}
    {cache : LRUCache K V} (isOutstanding : world.generatorCalls[call]? = some ⟨key, none⟩)
    (generated : world.cache.onGenerated size okStatus key reply = some (cache, callbacks)) :
    (world.afterReply okStatus call key reply cache callbacks).Valid size okStatus := by
  obtain ⟨waiting, -, isResult⟩ := map_eq_some_iff.mp generated
  have notCached := valid.map_eq_none isOutstanding
  have notKey : key ∉ (mostRecent world.uses).take size := by
    rw [← valid.recent, ← valid.linked.isSome_map, notCached]
    simp
  have cleared : ({ world.cache with
      requests := update world.cache.requests key none }).Linked :=
    valid.linked.of_eq rfl rfl rfl
  by_cases isOk : reply.1 = okStatus
  · rw [if_neg (not_not.mpr isOk)] at isResult
    obtain ⟨rfl, -⟩ := Prod.mk.inj isResult
    have inSize : world.cache.values.length ≤ size := by
      rw [← length_map CacheEntry.key, valid.recent]
      exact length_take_le ..
    have values := @values_evict _ _ (LRUCache.insert { world.cache with
      requests := update world.cache.requests key none } key reply.2) _ size
      (Nat.succ_le_succ inSize)
    apply valid.afterReply isOutstanding
    · exact (cleared.insert notCached reply.2).evict size
    · simp only [CacheWorld.afterReply, isOk, ne_eq, not_true_eq_false, if_false, values, mostRecent]
      rw [take_front_of_not_mem notKey, ← valid.recent, map_take]
      rfl
    · simp [CacheWorld.afterReply, LRUCache.insert]
    · rfl
    · rfl
    · intro entry isEntry
      simp only [CacheWorld.afterReply, values] at isEntry
      rcases mem_cons.mp (mem_of_mem_take isEntry) with rfl | isOld
      · exact .inr ⟨rfl, Prod.ext isOk rfl⟩
      · exact .inl isOld
  · rw [if_pos isOk] at isResult
    obtain ⟨rfl, -⟩ := Prod.mk.inj isResult
    apply valid.afterReply isOutstanding
    · exact cleared
    · simp only [CacheWorld.afterReply, isOk, ne_eq, not_false_eq_true, if_true]
      exact valid.recent
    · rfl
    · rfl
    · rfl
    · exact fun entry isEntry => .inl isEntry

theorem valid_step (valid : world.Valid size okStatus)
    (owed : world.Owed) (isStep : world.step size okStatus event = some next) :
    next.Valid size okStatus ∧ next.Owed := by
  cases event with
  | get key =>
    obtain ⟨⟨cache, outcome⟩, gets, rfl⟩ := map_eq_some_iff.mp isStep
    obtain ⟨iterator, entry, isIterator, isFound, rfl, rfl⟩ | ⟨notCached, isMiss⟩ := get_cases gets
    · obtain ⟨found, isSame, isEntry, rfl⟩ := valid.linked.find isIterator
      obtain rfl := some.inj (isFound.symm.trans isSame)
      exact ⟨valid.hit isIterator isFound, owed.hit valid isEntry rfl⟩
    · obtain ⟨callbacks, isRequest, rfl, rfl⟩ | ⟨notRequested, rfl, rfl⟩ := isMiss
      · refine ⟨valid.waits isRequest, ?_⟩
        apply owed.wait key callbacks
        · rw [isRequest, getD_some]
        · rfl
        · rfl
        · exact fun _ _ => rfl
        · exact fun _ _ isCall => isCall
        · rfl
      · refine ⟨valid.generates notCached notRequested, ?_⟩
        apply owed.wait key []
        · rw [notRequested, getD_none]
        · rfl
        · simp [afterGet]
        · intro other isRequested
          have different : other ≠ key := by
            rintro rfl
            simp [notRequested] at isRequested
          exact update_of_ne different ..
        · exact fun _ _ isCall => getElem?_concat_eq_some.mpr (.inl isCall)
        · rfl
  | reply call reply =>
    rw [step] at isStep
    split at isStep
    case h_2 => simp at isStep
    case h_1 key isOutstanding =>
      obtain ⟨⟨cache, callbacks⟩, generated, rfl⟩ := map_eq_some_iff.mp isStep
      refine ⟨valid.reply isOutstanding generated, ?_⟩
      obtain ⟨waiting, isRequest, isResult⟩ := map_eq_some_iff.mp generated
      have sameCallbacks : waiting = callbacks := by
        have second := congrArg Prod.snd isResult
        split at second <;> exact second
      have requests : cache.requests = update world.cache.requests key none := by
        have first := congrArg (fun result => result.1.requests) isResult
        split at first
        · exact first.symm
        · simpa [LRUCache.insert] using first.symm
      subst sameCallbacks
      exact owed.afterReply valid isOutstanding isRequest requests rfl rfl rfl rfl
  | callBack =>
    rw [step] at isStep
    split at isStep
    case h_1 callback callbacks reply loops isLoop =>
      cases isStep
      exact ⟨⟨valid.linked, valid.recent, valid.latest, valid.outstanding, valid.cached,
        valid.requested⟩, owed.receive isLoop⟩
    case h_2 reply loops isLoop =>
      cases isStep
      exact ⟨⟨valid.linked, valid.recent, valid.latest, valid.outstanding, valid.cached,
        valid.requested⟩, owed.endLoop isLoop⟩
    case h_3 => simp at isStep

theorem valid_run {events : List (CacheEvent K V S)}
    (isRun : runSteps (step size okStatus) create events = some world) :
    world.Valid size okStatus ∧ world.Owed :=
  invariant_runSteps (fun world => world.Valid size okStatus ∧ world.Owed)
    (fun holds _ isStep => valid_step holds.1 holds.2 isStep) ⟨valid_create, owed_create⟩
    (eachStep_true events _) isRun

theorem uses_step (isStep : world.step size okStatus event = some next) :
    next.uses = world.uses ∨ ∃ key, next.uses = key :: world.uses := by
  cases event with
  | get key =>
    obtain ⟨⟨cache, outcome⟩, -, rfl⟩ := map_eq_some_iff.mp isStep
    cases outcome with
    | hit value => exact .inr ⟨key, rfl⟩
    | waits => exact .inl rfl
    | generates => exact .inl rfl
  | reply call reply =>
    rw [step] at isStep
    split at isStep
    case h_2 => simp at isStep
    case h_1 key _ =>
      obtain ⟨⟨cache, callbacks⟩, -, rfl⟩ := map_eq_some_iff.mp isStep
      simp only [afterReply]
      split
      · exact .inl rfl
      · exact .inr ⟨key, rfl⟩
  | callBack =>
    rw [step] at isStep
    split at isStep
    case h_1 | h_2 =>
      cases isStep
      exact .inl rfl
    case h_3 => simp at isStep

/-- What is dropped is what has not been used for the longest time. -/
theorem Valid.dropped (valid : world.Valid size okStatus) (nextValid : next.Valid size okStatus)
    (isStep : world.step size okStatus event = some next)
    (wasCached : key ∈ world.cache.values.map CacheEntry.key)
    (isDropped : key ∉ next.cache.values.map CacheEntry.key) :
    (world.cache.values.map CacheEntry.key).getLast? = some key := by
  rw [valid.recent] at wasCached ⊢
  rw [nextValid.recent] at isDropped
  rcases uses_step isStep with same | ⟨used, isUsed⟩
  · exact absurd (same ▸ wasCached) isDropped
  · exact getLast?_of_dropped wasCached (isUsed ▸ isDropped)

/-- No call of `Get` goes through an iterator that is not valid, and each reply finds its
request. -/
theorem Valid.progress (valid : world.Valid size okStatus) :
    (∀ key, (world.step size okStatus (.get key)).isSome) ∧
      ∀ key (call : ℕ) (reply : S × V), world.generatorCalls[call]? = some ⟨key, none⟩ →
        (world.step size okStatus (.reply call reply)).isSome := by
  constructor
  · intro key
    rw [step, isSome_map, LRUCache.get]
    split
    case h_1 iterator isIterator =>
      obtain ⟨entry, isFound, -⟩ := valid.linked.find isIterator
      rw [isFound]
      rfl
    case h_2 => split <;> rfl
  · intro key call reply isOutstanding
    have isRequested := (valid.requested key).mpr ⟨call, isOutstanding⟩
    simpa [step, isOutstanding, LRUCache.onGenerated] using isRequested

/-- The entries are the keys used last, each found by its iterator; the oldest one makes room, one
call is made for a key at a time, and every caller gets the value of its call once. -/
structure Sound (size : ℕ) (okStatus : S) (world : CacheWorld K V S) : Prop where
  atMost : world.cache.values.length ≤ size
  nodup : (world.cache.values.map CacheEntry.key).Nodup
  sameKeys : ∀ key, (world.cache.map key).isSome ↔ key ∈ world.cache.values.map CacheEntry.key
  iterators : ∀ key node, world.cache.map key = some node ↔
    ∃ entry ∈ world.cache.values, entry.key = key ∧ entry.node = node
  recent : world.cache.values.map CacheEntry.key = (mostRecent world.uses).take size
  evicts : ∀ event next, world.step size okStatus event = some next →
    ∀ key ∈ world.cache.values.map CacheEntry.key, key ∉ next.cache.values.map CacheEntry.key →
      (world.cache.values.map CacheEntry.key).getLast? = some key
  oneCall : ∀ key (first second : ℕ), world.generatorCalls[first]? = some ⟨key, none⟩ →
    world.generatorCalls[second]? = some ⟨key, none⟩ → first = second
  calledOnce : ∀ (index : ℕ) record, world.gets[index]? = some record →
    ∃ call : ℕ, ∃ reply, record.source = some call ∧
      world.generatorCalls[call]? = some ⟨record.key, reply⟩ ∧
      (record.received = [] ∧
          (reply = none ∨ ∃ loop ∈ world.loops, index ∈ loop.callbacks ∧ reply = some loop.reply) ∨
        ∃ value, reply = some value ∧ record.received = [value])
  progress : (∀ key, (world.step size okStatus (.get key)).isSome) ∧
    ∀ key (call : ℕ) (reply : S × V), world.generatorCalls[call]? = some ⟨key, none⟩ →
      (world.step size okStatus (.reply call reply)).isSome

/-- Whatever the order of the calls and the replies. -/
theorem sound_run (events : List (CacheEvent K V S))
    (isRun : runSteps (step size okStatus) create events = some world) :
    world.Sound size okStatus := by
  obtain ⟨valid, owed⟩ := valid_run isRun
  constructor
  case atMost =>
    rw [← length_map CacheEntry.key, valid.recent]
    exact length_take_le ..
  case nodup => exact valid.linked.keys
  case sameKeys => exact valid.linked.isSome_map
  case iterators => exact valid.linked.map
  case recent => exact valid.recent
  case evicts =>
    intro event next isStep key wasCached isDropped
    exact valid.dropped (valid_step valid owed isStep).1 isStep wasCached isDropped
  case oneCall =>
    intro key first second isFirst isSecond
    have isLatest := valid.outstanding _ _ isFirst
    rw [valid.outstanding _ _ isSecond] at isLatest
    exact (some.inj isLatest).symm
  case calledOnce => exact fun index record isRecord => owed.calledOnce valid isRecord
  case progress => exact valid.progress

/-- Two keys in a cache for one: the replies come back out of order, and the second of them
evicts what the first one has put there. -/
def outOfOrder : List (CacheEvent ℕ ℕ ℕ) :=
  [.get 5, .get 6, .get 5, .reply 1 (0, 60), .callBack, .reply 0 (0, 50), .callBack]

theorem sound_run_sample : (runSteps (step 1 0) create outOfOrder).map (fun world =>
        (world.cache.values.map CacheEntry.key, world.gets.map GetCall.received)) =
      some ([5], [[(0, 50)], [(0, 60)], []]) ∧
    ((runSteps (step 1 0) create outOfOrder).get rfl).Sound 1 0 :=
  ⟨rfl, sound_run outOfOrder (some_get _).symm⟩

end CacheWorld

end Peridot
