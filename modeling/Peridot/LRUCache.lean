import Mathlib.Data.List.Nodup
import Mathlib.Logic.Function.Basic
import Peridot.MostRecent
import Peridot.StepRun

/-!
# A cache of the values used last

The cache keeps a number of values that a generator gives for their keys, and drops those that have
not been used for the longest time.  Callers that ask for a key while its generator runs wait for
the same reply.
-/

namespace Peridot

open List Function Option

/-- An element of `values_`, with what its iterators refer to. -/
structure CacheEntry (K V : Type) where
  node : ℕ
  key : K
  value : V

/-- `LRUCache`.  The callers are known by the number of their call. -/
structure LRUCache (K V : Type) where
  values : List (CacheEntry K V)
  map : K → Option ℕ
  requests : K → Option (List ℕ)
  nextNode : ℕ

/-- What `Get` does for its caller. -/
inductive GetOutcome (V : Type) where
  | hit (value : V)
  | waits
  | generates

namespace LRUCache

variable {K V S : Type}

def create : LRUCache K V :=
  ⟨[], fun _ => none, fun _ => none, 0⟩

section Operations

variable [DecidableEq K] [DecidableEq S]

/-- `Get`, without a result where it goes through an iterator that is not valid. -/
def get (cache : LRUCache K V) (key : K) (callback : ℕ) : Option (LRUCache K V × GetOutcome V) :=
  match cache.map key with
  | some iterator =>
    (cache.values.find? fun entry => entry.node = iterator).map fun entry =>
      ({ cache with
          values := entry :: cache.values.eraseP fun entry => entry.node = iterator },
        .hit entry.value)
  | none =>
    match cache.requests key with
    | some callbacks =>
      some ({ cache with
        requests := Function.update cache.requests key (some (callbacks ++ [callback])) }, .waits)
    | none =>
      some ({ cache with
        requests := Function.update cache.requests key (some [callback]) }, .generates)

def insert (cache : LRUCache K V) (key : K) (value : V) : LRUCache K V :=
  { cache with
    values := ⟨cache.nextNode, key, value⟩ :: cache.values
    map := Function.update cache.map key (some cache.nextNode)
    nextNode := cache.nextNode + 1 }

def evict (size : ℕ) (cache : LRUCache K V) : LRUCache K V :=
  if size < cache.values.length then
    match cache.values.getLast? with
    | some entry =>
      { cache with
        values := cache.values.dropLast
        map := Function.update cache.map entry.key none }
    | none => cache
  else cache

/-- What `Get` gives to the generator, with the callbacks that it then calls.  It has no result
where there is no request for the key. -/
def onGenerated (size : ℕ) (okStatus : S) (cache : LRUCache K V) (key : K) (reply : S × V) :
    Option (LRUCache K V × List ℕ) :=
  (cache.requests key).map fun callbacks =>
    let cache := { cache with requests := Function.update cache.requests key none }
    if reply.1 ≠ okStatus then (cache, callbacks)
    else ((cache.insert key reply.2).evict size, callbacks)

end Operations

structure Linked (cache : LRUCache K V) : Prop where
  keys : (cache.values.map CacheEntry.key).Nodup
  nodes : (cache.values.map CacheEntry.node).Nodup
  nextNode : ∀ entry ∈ cache.values, entry.node < cache.nextNode
  map : ∀ key node, cache.map key = some node ↔
    ∃ entry ∈ cache.values, entry.key = key ∧ entry.node = node

theorem linked_create : (create : LRUCache K V).Linked where
  keys := nodup_nil
  nodes := nodup_nil
  nextNode := by simp [create]
  map := by simp [create]

variable {cache : LRUCache K V}

theorem Linked.isSome_map (linked : cache.Linked) (key : K) :
    (cache.map key).isSome ↔ key ∈ cache.values.map CacheEntry.key := by
  rw [isSome_iff_exists, List.mem_map]
  constructor
  · rintro ⟨node, isNode⟩
    obtain ⟨entry, isEntry, isKey, -⟩ := (linked.map key node).mp isNode
    exact ⟨entry, isEntry, isKey⟩
  · rintro ⟨entry, isEntry, isKey⟩
    exact ⟨entry.node, (linked.map key entry.node).mpr ⟨entry, isEntry, isKey, rfl⟩⟩

theorem Linked.of_eq {other : LRUCache K V} (linked : cache.Linked)
    (sameValues : other.values = cache.values) (sameMap : other.map = cache.map)
    (sameNode : other.nextNode = cache.nextNode) : other.Linked where
  keys := sameValues ▸ linked.keys
  nodes := sameValues ▸ linked.nodes
  nextNode := by simpa [sameValues, sameNode] using linked.nextNode
  map := by simpa [sameValues, sameMap] using linked.map

theorem eraseP_of_find? {α : Type} {elements : List α} {condition : α → Bool} {element : α}
    (found : elements.find? condition = some element) :
    ∃ before after, elements = before ++ element :: after ∧
      elements.eraseP condition = before ++ after := by
  obtain ⟨holds, before, after, isSplit, notBefore⟩ := find?_eq_some_iff_append.mp found
  refine ⟨before, after, isSplit, ?_⟩
  rw [isSplit, eraseP_append_right, eraseP_cons_of_pos holds]
  intro other isOther
  simpa using notBefore other isOther

variable {key : K} {iterator : ℕ}

theorem Linked.find (linked : cache.Linked) (isIterator : cache.map key = some iterator) :
    ∃ entry, (cache.values.find? fun entry => entry.node = iterator) = some entry ∧
      entry ∈ cache.values ∧ entry.key = key := by
  obtain ⟨entry, isEntry, isKey, isNode⟩ := (linked.map key iterator).mp isIterator
  have isFound : (cache.values.find? fun entry => entry.node = iterator).isSome :=
    find?_isSome.mpr ⟨entry, isEntry, by simpa using isNode⟩
  obtain ⟨found, isFound⟩ := isSome_iff_exists.mp isFound
  have isMember := mem_of_find?_eq_some isFound
  have sameNode : found.node = entry.node := by
    rw [isNode]
    simpa using find?_some isFound
  have same : found = entry := inj_on_of_nodup_map linked.nodes isMember isEntry sameNode
  exact ⟨found, isFound, isMember, same ▸ isKey⟩

variable [DecidableEq K]

theorem Linked.touch (linked : cache.Linked) {entry : CacheEntry K V}
    (isFound : (cache.values.find? fun entry => entry.node = iterator) = some entry) : ({ cache with
        values := entry :: cache.values.eraseP fun entry => entry.node = iterator }).Linked ∧
      (entry :: cache.values.eraseP fun entry => entry.node = iterator).map CacheEntry.key =
        entry.key :: (cache.values.map CacheEntry.key).erase entry.key := by
  obtain ⟨before, after, isSplit, isErased⟩ := eraseP_of_find? isFound
  have isPerm : (entry :: (before ++ after)).Perm cache.values := by
    rw [isSplit]
    exact perm_middle.symm
  have keys := linked.keys
  rw [isErased]
  constructor
  · constructor
    case keys => exact ((isPerm.map _).nodup_iff).mpr linked.keys
    case nodes => exact ((isPerm.map _).nodup_iff).mpr linked.nodes
    case nextNode => exact fun other isOther => linked.nextNode other (isPerm.mem_iff.mp isOther)
    case map =>
      intro key node
      simp only [linked.map, isPerm.mem_iff]
  · rw [isSplit, map_append, map_cons, nodup_append] at keys
    have notBefore : entry.key ∉ before.map CacheEntry.key := fun isBefore =>
      keys.2.2 _ isBefore _ (mem_cons_self ..) rfl
    simp [isSplit, erase_append_right _ notBefore]

theorem Linked.insert (linked : cache.Linked) (notCached : cache.map key = none) (value : V) :
    (cache.insert key value).Linked := by
  have notKey : key ∉ cache.values.map CacheEntry.key := by
    rw [← linked.isSome_map, notCached]
    simp
  constructor
  case keys => exact nodup_cons.mpr ⟨notKey, linked.keys⟩
  case nodes =>
    refine nodup_cons.mpr ⟨?_, linked.nodes⟩
    intro isNode
    obtain ⟨entry, isEntry, sameNode⟩ := mem_map.mp isNode
    exact absurd sameNode (linked.nextNode entry isEntry).ne
  case nextNode =>
    intro entry isEntry
    rcases mem_cons.mp isEntry with rfl | isOld
    · exact Nat.lt_succ_self _
    · exact (linked.nextNode entry isOld).trans (Nat.lt_succ_self _)
  case map =>
    intro other node
    simp only [LRUCache.insert, mem_cons, exists_eq_or_imp]
    by_cases same : other = key
    · subst same
      rw [update_self, some.injEq]
      constructor
      · intro isNode
        exact .inl ⟨rfl, isNode⟩
      · rintro (⟨-, isNode⟩ | ⟨entry, isEntry, isKey, -⟩)
        · exact isNode
        · exact absurd (mem_map.mpr ⟨entry, isEntry, isKey⟩) notKey
    · rw [update_of_ne same, linked.map]
      constructor
      · exact .inr
      · rintro (⟨isKey, -⟩ | isOld)
        · exact absurd isKey.symm same
        · exact isOld

theorem Linked.evict (linked : cache.Linked) (size : ℕ) : (cache.evict size).Linked := by
  rw [LRUCache.evict]
  split
  case isFalse => exact linked
  case isTrue isOver =>
    split
    case h_2 => exact linked
    case h_1 entry isLast =>
      have isSplit := dropLast_append_getLast? entry isLast
      have keys := linked.keys
      rw [← isSplit, map_append, nodup_append] at keys
      have notLast : ∀ other ∈ cache.values.dropLast, other.key ≠ entry.key := fun other isOther =>
        keys.2.2 _ (mem_map_of_mem isOther) _ (by simp)
      constructor
      case keys => exact keys.1
      case nodes => exact linked.nodes.sublist ((dropLast_sublist _).map _)
      case nextNode =>
        exact fun other isOther => linked.nextNode other ((dropLast_sublist _).subset isOther)
      case map =>
        intro key node
        change Function.update cache.map entry.key none key = some node ↔
          ∃ other ∈ cache.values.dropLast, other.key = key ∧ other.node = node
        by_cases same : key = entry.key
        · subst same
          simp only [update_self, reduceCtorEq, false_iff, not_exists, not_and]
          exact fun other isOther isKey => absurd isKey (notLast other isOther)
        · rw [update_of_ne same, linked.map, ← isSplit]
          simp only [mem_append, mem_singleton, dropLast_concat]
          constructor
          · rintro ⟨other, isOther | rfl, isKey, isNode⟩
            · exact ⟨other, isOther, isKey, isNode⟩
            · exact absurd isKey.symm same
          · rintro ⟨other, isOther, isKey, isNode⟩
            exact ⟨other, .inl isOther, isKey, isNode⟩

theorem values_evict (size : ℕ) (atMostOneMore : cache.values.length ≤ size + 1) :
    (cache.evict size).values = cache.values.take size := by
  rw [evict]
  split
  case isFalse notOver => exact (take_of_length_le (by omega)).symm
  case isTrue isOver =>
    have isSize : cache.values.length - 1 = size := by omega
    split
    case h_1 => rw [dropLast_eq_take, isSize]
    case h_2 isEmpty =>
      rw [getLast?_eq_none_iff] at isEmpty
      simp [isEmpty] at isOver

@[simp]
theorem evict_requests (size : ℕ) (cache : LRUCache K V) :
    (cache.evict size).requests = cache.requests := by
  rw [evict]
  split
  · split <;> rfl
  · rfl

theorem get_cases {next : LRUCache K V} {callback : ℕ} {outcome : GetOutcome V}
    (gets : cache.get key callback = some (next, outcome)) :
    (∃ iterator entry, cache.map key = some iterator ∧
      (cache.values.find? fun entry => entry.node = iterator) = some entry ∧
      next = { cache with
        values := entry :: cache.values.eraseP fun entry => entry.node = iterator } ∧
      outcome = .hit entry.value) ∨
    cache.map key = none ∧ ((∃ callbacks, cache.requests key = some callbacks ∧ next = { cache with
          requests := Function.update cache.requests key (some (callbacks ++ [callback])) } ∧
        outcome = .waits) ∨ cache.requests key = none ∧
        next = { cache with
          requests := Function.update cache.requests key (some [callback]) } ∧
        outcome = .generates) := by
  rw [get] at gets
  split at gets
  case h_1 iterator isIterator =>
    obtain ⟨entry, isFound, isResult⟩ := map_eq_some_iff.mp gets
    obtain ⟨rfl, rfl⟩ := Prod.mk.inj isResult
    exact .inl ⟨iterator, entry, isIterator, isFound, rfl, rfl⟩
  case h_2 notCached =>
    split at gets
    case h_1 callbacks isRequest =>
      obtain ⟨rfl, rfl⟩ := Prod.mk.inj (some.inj gets)
      exact .inr ⟨notCached, .inl ⟨callbacks, isRequest, rfl, rfl⟩⟩
    case h_2 notRequested =>
      obtain ⟨rfl, rfl⟩ := Prod.mk.inj (some.inj gets)
      exact .inr ⟨notCached, .inr ⟨notRequested, rfl, rfl⟩⟩

end LRUCache

structure GetCall (K V S : Type) where
  key : K
  /-- The last call of the generator for the key. -/
  source : Option ℕ
  /-- What the callback has been called with. -/
  received : List (S × V)

structure GeneratorCall (K V S : Type) where
  key : K
  reply : Option (S × V)

structure CallbackLoop (V S : Type) where
  callbacks : List ℕ
  reply : S × V

structure CacheWorld (K V S : Type) where
  cache : LRUCache K V
  gets : List (GetCall K V S)
  generatorCalls : List (GeneratorCall K V S)
  /-- The loops that are running: a callback may use the cache again. -/
  loops : List (CallbackLoop V S)
  /-- The last call of the generator for each key. -/
  latest : K → Option ℕ
  /-- The keys that have been found or put in the cache, the last one first. -/
  uses : List K

inductive CacheEvent (K V S : Type) where
  | get (key : K)
  | reply (call : ℕ) (reply : S × V)
  | callBack

namespace CacheWorld

variable {K V S : Type} [DecidableEq K] [DecidableEq S]

def create : CacheWorld K V S :=
  ⟨.create, [], [], [], fun _ => none, []⟩

/-- A caller that gets a value of the cache gets it at once; otherwise it waits for the generator,
which may be called for it. -/
def afterGet (okStatus : S) (world : CacheWorld K V S) (key : K) (cache : LRUCache K V) :
    GetOutcome V → CacheWorld K V S
  | .hit value =>
    { world with
      cache
      gets := world.gets ++ [⟨key, world.latest key, [(okStatus, value)]⟩]
      uses := key :: world.uses }
  | .waits =>
    { world with
      cache
      gets := world.gets ++ [⟨key, world.latest key, []⟩] }
  | .generates =>
    { world with
      cache
      gets := world.gets ++ [⟨key, some world.generatorCalls.length, []⟩]
      generatorCalls := world.generatorCalls ++ [⟨key, none⟩]
      latest := Function.update world.latest key (some world.generatorCalls.length) }

def afterReply (okStatus : S) (world : CacheWorld K V S) (call : ℕ) (key : K) (reply : S × V)
    (cache : LRUCache K V) (callbacks : List ℕ) : CacheWorld K V S :=
  { world with
    cache
    generatorCalls := world.generatorCalls.set call ⟨key, some reply⟩
    loops := ⟨callbacks, reply⟩ :: world.loops
    uses := if reply.1 ≠ okStatus then world.uses else key :: world.uses }

def receive (world : CacheWorld K V S) (callback : ℕ) (reply : S × V) : CacheWorld K V S :=
  { world with
    gets := world.gets.modify callback fun record =>
      { record with received := record.received ++ [reply] } }

def step (size : ℕ) (okStatus : S) (world : CacheWorld K V S) :
    CacheEvent K V S → Option (CacheWorld K V S)
  | .get key =>
    (world.cache.get key world.gets.length).map fun result =>
      world.afterGet okStatus key result.1 result.2
  | .reply call reply =>
    match world.generatorCalls[call]? with
    | some ⟨key, none⟩ =>
      (world.cache.onGenerated size okStatus key reply).map fun result =>
        world.afterReply okStatus call key reply result.1 result.2
    | _ => none
  | .callBack =>
    match world.loops with
    | ⟨callback :: callbacks, reply⟩ :: loops =>
      some ({ world with loops := ⟨callbacks, reply⟩ :: loops }.receive callback reply)
    | ⟨[], _⟩ :: loops => some { world with loops }
    | [] => none

end CacheWorld

end Peridot
