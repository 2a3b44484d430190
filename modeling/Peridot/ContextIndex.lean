import Mathlib.Data.Finset.Basic
import Peridot.PageStorage

/-!
# The index of context values

Metadata is indexed under one key for each field and its value.  A query is the set of its keys:
it finds the ids that are indexed under all of them.
-/

namespace Peridot

open List Function

inductive ContextValueType where
  | story
  | module
  | agent
  | entity
  | link
deriving DecidableEq

inductive FocusedState where
  | focused
  | notFocused
deriving DecidableEq

structure StoryMetadata where
  id : Option Bytes
  focused : Option FocusedState
deriving DecidableEq

structure ModuleMetadata where
  url : Option Bytes
  path : Option (List Bytes)
deriving DecidableEq

structure EntityMetadata where
  topic : Option Bytes
  type : Option (List Bytes)
deriving DecidableEq

structure LinkMetadata where
  modulePath : Option (List Bytes)
  name : Option Bytes
deriving DecidableEq

structure ContextMetadata where
  story : Option StoryMetadata
  mod : Option ModuleMetadata
  entity : Option EntityMetadata
  link : Option LinkMetadata
deriving DecidableEq

def ContextMetadata.new : ContextMetadata :=
  ⟨none, none, none, none⟩

def ContextMetadata.orNull (metadata : ContextMetadata) : Option ContextMetadata :=
  if metadata = .new then none else some metadata

/-- `ContextSelector`, with its `meta`. -/
structure ContextSelector where
  type : ContextValueType
  metadata : Option ContextMetadata

def kStoryIdKey : Bytes := ascii ['s', 'i']

def kStoryFocusedKey : Bytes := ascii ['s', 'f']

def kModPathKey : Bytes := ascii ['m', 'p']

def kModUrlKey : Bytes := ascii ['m', 'u']

def kEntityTopicKey : Bytes := ascii ['e', 't']

def kEntityTypeKey : Bytes := ascii ['e', 'y']

def kContextValueTypeKey : Bytes := ascii ['t']

/-- What `<<` prints for a type. -/
def ContextValueType.text (type : ContextValueType) : Bytes :=
  ascii ['C', 'o', 'n', 't', 'e', 'x', 't', 'V', 'a', 'l', 'u', 'e', 'T', 'y', 'p', 'e', ':', ':']
    ++ match type with
    | .story => ascii ['S', 'T', 'O', 'R', 'Y']
    | .module => ascii ['M', 'O', 'D', 'U', 'L', 'E']
    | .agent => ascii ['A', 'G', 'E', 'N', 'T']
    | .entity => ascii ['E', 'N', 'T', 'I', 'T', 'Y']
    | .link => ascii ['L', 'I', 'N', 'K']

def FocusedState.digit : FocusedState → Bytes
  | .focused => ascii ['1']
  | .notFocused => ascii ['0']

def pathText (path : List Bytes) : Bytes :=
  path.flatMap fun part => 0 :: part

def encodeStory (story : StoryMetadata) : List Bytes :=
  (story.id.toList.map fun id => kStoryIdKey ++ id) ++
    story.focused.toList.map fun state => kStoryFocusedKey ++ state.digit

def encodeMod (mod : ModuleMetadata) : List Bytes :=
  (mod.url.toList.map fun url => kModUrlKey ++ url) ++
    mod.path.toList.map fun path => kModPathKey ++ pathText path

def encodeEntity (entity : EntityMetadata) : List Bytes :=
  (entity.topic.toList.map fun topic => kEntityTopicKey ++ topic) ++
    (entity.type.getD []).map fun type => kEntityTypeKey ++ type

def encodeMetadata (metadata : ContextMetadata) : List Bytes :=
  metadata.story.toList.flatMap encodeStory ++ metadata.mod.toList.flatMap encodeMod ++
    metadata.entity.toList.flatMap encodeEntity

/-- `EncodeMetadataAndType`: the members of the set, as they are inserted. -/
def encodeMetadataAndType (nodeType : ContextValueType) (metadata : Option ContextMetadata) :
    List Bytes :=
  metadata.toList.flatMap encodeMetadata ++ [kContextValueTypeKey ++ nodeType.text]

inductive IndexedField where
  | storyId (id : Bytes)
  | storyFocused (state : FocusedState)
  | modUrl (url : Bytes)
  | modPath (path : List Bytes)
  | entityTopic (topic : Bytes)
  | entityType (type : Bytes)
  | valueType (type : ContextValueType)

def IndexedField.key : IndexedField → Bytes
  | .storyId id => kStoryIdKey ++ id
  | .storyFocused state => kStoryFocusedKey ++ state.digit
  | .modUrl url => kModUrlKey ++ url
  | .modPath path => kModPathKey ++ pathText path
  | .entityTopic topic => kEntityTopicKey ++ topic
  | .entityType type => kEntityTypeKey ++ type
  | .valueType type => kContextValueTypeKey ++ type.text

inductive ContextMetadata.Has (metadata : ContextMetadata) : IndexedField → Prop
  | storyId {story id} (isStory : metadata.story = some story) (isId : story.id = some id) :
      Has metadata (.storyId id)
  | storyFocused {story state} (isStory : metadata.story = some story)
      (isState : story.focused = some state) : Has metadata (.storyFocused state)
  | modUrl {mod url} (isMod : metadata.mod = some mod) (isUrl : mod.url = some url) :
      Has metadata (.modUrl url)
  | modPath {mod path} (isMod : metadata.mod = some mod) (isPath : mod.path = some path) :
      Has metadata (.modPath path)
  | entityTopic {entity topic} (isEntity : metadata.entity = some entity)
      (isTopic : entity.topic = some topic) : Has metadata (.entityTopic topic)
  | entityType {entity types type} (isEntity : metadata.entity = some entity)
      (isType : entity.type = some types) (member : type ∈ types) : Has metadata (.entityType type)

/-- Every indexed field that is set in the selector's metadata is set so in the other one. -/
def ContextMetadata.Satisfies (metadata selector : Option ContextMetadata) : Prop :=
  ∀ wanted, selector = some wanted → ∀ field, wanted.Has field →
    ∃ found, metadata = some found ∧ found.Has field

variable {metadata : Option ContextMetadata}

theorem mem_encodeMetadataAndType {nodeType : ContextValueType} {key : Bytes} :
    key ∈ encodeMetadataAndType nodeType metadata ↔
      (∃ found, metadata = some found ∧ ∃ field, found.Has field ∧ field.key = key) ∨
        IndexedField.key (.valueType nodeType) = key := by
  constructor
  · intro member
    rw [encodeMetadataAndType, mem_append, mem_singleton, mem_flatMap] at member
    rcases member with ⟨found, isFound, member⟩ | rfl
    · left
      refine ⟨found, Option.mem_toList.mp isFound, ?_⟩
      simp only [encodeMetadata, mem_append, mem_flatMap, Option.mem_toList,
        encodeStory, encodeMod, encodeEntity, mem_map] at member
      rcases member with (⟨story, isStory, member⟩ | ⟨mod, isMod, member⟩) |
        ⟨entity, isEntity, member⟩
      · rcases member with ⟨id, isId, rfl⟩ | ⟨state, isState, rfl⟩
        · exact ⟨_, .storyId isStory isId, rfl⟩
        · exact ⟨_, .storyFocused isStory isState, rfl⟩
      · rcases member with ⟨url, isUrl, rfl⟩ | ⟨path, isPath, rfl⟩
        · exact ⟨_, .modUrl isMod isUrl, rfl⟩
        · exact ⟨_, .modPath isMod isPath, rfl⟩
      · rcases member with ⟨topic, isTopic, rfl⟩ | ⟨type, isType, rfl⟩
        · exact ⟨_, .entityTopic isEntity isTopic, rfl⟩
        · cases types : entity.type with
          | none => simp [types] at isType
          | some types' =>
            rw [types, Option.getD_some] at isType
            exact ⟨_, .entityType isEntity types isType, rfl⟩
    · exact .inr rfl
  · rw [encodeMetadataAndType, mem_append, mem_singleton, mem_flatMap]
    rintro (⟨found, isFound, field, has, rfl⟩ | rfl)
    · left
      refine ⟨found, Option.mem_toList.mpr isFound, ?_⟩
      simp only [encodeMetadata, mem_append, mem_flatMap, Option.mem_toList,
        encodeStory, encodeMod, encodeEntity, mem_map]
      cases has with
      | storyId isStory isId => exact .inl (.inl ⟨_, isStory, .inl ⟨_, isId, rfl⟩⟩)
      | storyFocused isStory isState => exact .inl (.inl ⟨_, isStory, .inr ⟨_, isState, rfl⟩⟩)
      | modUrl isMod isUrl => exact .inl (.inr ⟨_, isMod, .inl ⟨_, isUrl, rfl⟩⟩)
      | modPath isMod isPath => exact .inl (.inr ⟨_, isMod, .inr ⟨_, isPath, rfl⟩⟩)
      | entityTopic isEntity isTopic => exact .inr ⟨_, isEntity, .inl ⟨_, isTopic, rfl⟩⟩
      | entityType isEntity isType member =>
        refine .inr ⟨_, isEntity, .inr ⟨_, ?_, rfl⟩⟩
        rwa [isType, Option.getD_some]
    · exact .inr rfl

/-- No part of a module path has the byte that separates the parts in the index. -/
def NulFree (path : List Bytes) : Prop :=
  ∀ part ∈ path, (0 : UInt8) ∉ part
deriving Decidable

theorem append_pathText_inj {first second : Bytes} {paths paths' : List Bytes}
    (firstFree : (0 : UInt8) ∉ first) (secondFree : (0 : UInt8) ∉ second)
    (same : first ++ pathText paths = second ++ pathText paths') :
    first = second ∧ pathText paths = pathText paths' := by
  induction first generalizing second with
  | nil =>
    cases second with
    | nil => exact ⟨rfl, same⟩
    | cons byte second =>
      cases paths with
      | nil => nomatch same
      | cons part paths =>
        obtain ⟨rfl, -⟩ := cons.inj same
        exact absurd (mem_cons_self ..) secondFree
  | cons byte first ih =>
    cases second with
    | nil =>
      cases paths' with
      | nil => nomatch same
      | cons part paths' =>
        obtain ⟨rfl, -⟩ := cons.inj same
        exact absurd (mem_cons_self ..) firstFree
    | cons other second =>
      obtain ⟨rfl, sameTail⟩ := cons.inj same
      obtain ⟨rfl, samePaths⟩ := ih (fun member => firstFree (.tail _ member))
        (fun member => secondFree (.tail _ member)) sameTail
      exact ⟨rfl, samePaths⟩

/-- The text of a path without zero bytes in its parts gives the parts. -/
theorem pathText_inj {path other : List Bytes} (pathFree : NulFree path)
    (otherFree : NulFree other) (same : pathText path = pathText other) : path = other := by
  induction path generalizing other with
  | nil =>
    cases other with
    | nil => rfl
    | cons part other => nomatch same
  | cons part path ih =>
    cases other with
    | nil => nomatch same
    | cons part' other =>
      obtain ⟨rfl, sameRest⟩ := append_pathText_inj (pathFree part (.head _))
        (otherFree part' (.head _)) (cons.inj same).2
      rw [ih (fun part member => pathFree part (.tail _ member))
        (fun part member => otherFree part (.tail _ member)) sameRest]

def IndexedField.NulFree : IndexedField → Prop
  | .modPath path => Peridot.NulFree path
  | _ => True

theorem ContextValueType.text_inj {type other : ContextValueType} (same : type.text = other.text) :
    type = other := by
  cases type <;> cases other <;> first | rfl | exact absurd same (by decide)

theorem FocusedState.digit_inj {state other : FocusedState} (same : state.digit = other.digit) :
    state = other := by
  cases state <;> cases other <;> first | rfl | exact absurd same (by decide)

theorem IndexedField.key_inj {field other : IndexedField} (fieldFree : field.NulFree)
    (otherFree : other.NulFree) (same : field.key = other.key) : field = other := by
  cases field <;> cases other <;>
    first
    | rw [append_cancel_left same]
    | rw [FocusedState.digit_inj (append_cancel_left same)]
    | rw [pathText_inj fieldFree otherFree (append_cancel_left same)]
    | rw [ContextValueType.text_inj (append_cancel_left same)]
    | exact absurd (congrArg (fun key => key.take 2) same) (by simp [key, kStoryIdKey,
        kStoryFocusedKey, kModUrlKey, kModPathKey, kEntityTopicKey, kEntityTypeKey,
        kContextValueTypeKey, ContextValueType.text, ascii])

def ContextMetadata.NulFree (metadata : Option ContextMetadata) : Prop :=
  ∀ path ∈ (metadata.bind (·.mod)).bind (·.path), Peridot.NulFree path
deriving Decidable

theorem ContextMetadata.Has.nulFree {metadata : ContextMetadata} {field : IndexedField}
    (has : metadata.Has field) (free : ContextMetadata.NulFree (some metadata)) :
    field.NulFree := by
  cases has with
  | modPath isMod isPath => exact free _ (by simp [isMod, isPath])
  | _ => trivial

/-- The keys of a selector are all among those of a value exactly if the types are equal and the
value's metadata has every field that the selector's has. -/
theorem encode_subset_iff {type wantedType : ContextValueType}
    {wanted : Option ContextMetadata} (free : ContextMetadata.NulFree metadata)
    (wantedFree : ContextMetadata.NulFree wanted) :
    (∀ key ∈ encodeMetadataAndType wantedType wanted, key ∈ encodeMetadataAndType type metadata) ↔
      type = wantedType ∧ ContextMetadata.Satisfies metadata wanted := by
  constructor
  · intro all
    constructor
    · rcases mem_encodeMetadataAndType.mp (all _ (mem_encodeMetadataAndType.mpr (.inr rfl))) with
        ⟨found, rfl, field, has, same⟩ | same
      · obtain rfl := @IndexedField.key_inj _ (.valueType _) (has.nulFree free) trivial same
        nomatch has
      · exact (IndexedField.valueType.inj (IndexedField.key_inj trivial trivial same))
    · rintro selector rfl field wantedHas
      rcases mem_encodeMetadataAndType.mp (all _ (mem_encodeMetadataAndType.mpr
        (.inl ⟨selector, rfl, field, wantedHas, rfl⟩))) with ⟨found, rfl, other, has, same⟩ | same
      · obtain rfl := IndexedField.key_inj (has.nulFree free) (wantedHas.nulFree wantedFree) same
        exact ⟨found, rfl, has⟩
      · obtain rfl := @IndexedField.key_inj (.valueType _) _ trivial
          (wantedHas.nulFree wantedFree) same
        nomatch wantedHas
  · rintro ⟨rfl, satisfies⟩ key member
    rcases mem_encodeMetadataAndType.mp member with ⟨selector, rfl, field, has, rfl⟩ | rfl
    · obtain ⟨found, rfl, foundHas⟩ := satisfies _ rfl field has
      exact mem_encodeMetadataAndType.mpr (.inl ⟨found, rfl, field, foundHas, rfl⟩)
    · exact mem_encodeMetadataAndType.mpr (.inr rfl)

/-- `ContextIndex`: the posting list of every key. -/
abbrev ContextIndex := Bytes → Finset ℕ

namespace ContextIndex

def add (index : ContextIndex) (id : ℕ) (type : ContextValueType)
    (metadata : Option ContextMetadata) : ContextIndex :=
  (encodeMetadataAndType type metadata).foldl
    (fun index key => update index key (insert id (index key))) index

def remove (index : ContextIndex) (id : ℕ) (type : ContextValueType)
    (metadata : Option ContextMetadata) : ContextIndex :=
  (encodeMetadataAndType type metadata).foldl
    (fun index key => update index key ((index key).erase id)) index

def query (index : ContextIndex) (type : ContextValueType) (metadata : Option ContextMetadata) :
    Finset ℕ :=
  match encodeMetadataAndType type metadata with
  | [] => ∅
  | first :: keys => keys.foldl (fun ret key => ret ∩ index key) (index first)

variable {index : ContextIndex} {id other : ℕ} {type : ContextValueType}
  {metadata : Option ContextMetadata} {key : Bytes} {keysOf : ℕ → List Bytes}

theorem mem_add : other ∈ index.add id type metadata key ↔
    other ∈ index key ∨ other = id ∧ key ∈ encodeMetadataAndType type metadata := by
  rw [add]
  induction encodeMetadataAndType type metadata generalizing index with
  | nil => simp
  | cons first keys ih =>
    rw [foldl_cons, ih, update_apply, mem_cons]
    by_cases same : key = first
    · subst same
      simp only [if_true, Finset.mem_insert]
      tauto
    · simp [same]

theorem mem_remove : other ∈ index.remove id type metadata key ↔
    other ∈ index key ∧ ¬ (other = id ∧ key ∈ encodeMetadataAndType type metadata) := by
  rw [remove]
  induction encodeMetadataAndType type metadata generalizing index with
  | nil => simp
  | cons first keys ih =>
    rw [foldl_cons, ih, update_apply, mem_cons]
    by_cases same : key = first
    · subst same
      simp only [if_true, Finset.mem_erase]
      tauto
    · simp [same]

theorem mem_query : id ∈ index.query type metadata ↔
    ∀ key ∈ encodeMetadataAndType type metadata, id ∈ index key := by
  have mem_foldl : ∀ (keys : List Bytes) (ret : Finset ℕ),
      id ∈ keys.foldl (fun ret key => ret ∩ index key) ret ↔
        id ∈ ret ∧ ∀ key ∈ keys, id ∈ index key := by
    intro keys
    induction keys with
    | nil => simp
    | cons first keys ih =>
      intro ret
      rw [foldl_cons, ih, Finset.mem_inter, forall_mem_cons, and_assoc]
  rw [query]
  split
  · rename_i isEmpty
    simp [encodeMetadataAndType] at isEmpty
  · rename_i first keys isKeys
    rw [mem_foldl, isKeys, forall_mem_cons]

def Holds (index : ContextIndex) (keysOf : ℕ → List Bytes) : Prop :=
  ∀ key id, id ∈ index key ↔ key ∈ keysOf id

theorem Holds.remove (id : ℕ) (type : ContextValueType) (metadata : Option ContextMetadata)
    (holds : index.Holds keysOf)
    (indexed : ∀ key ∈ keysOf id, key ∈ encodeMetadataAndType type metadata) :
    (index.remove id type metadata).Holds (update keysOf id []) := by
  intro key other
  rw [mem_remove, holds key other]
  by_cases same : other = id
  · subst same
    simpa using indexed key
  · simp [same]

theorem Holds.add (id : ℕ) (type : ContextValueType) (metadata : Option ContextMetadata)
    (holds : index.Holds keysOf) (notIndexed : keysOf id = []) :
    (index.add id type metadata).Holds
      (update keysOf id (encodeMetadataAndType type metadata)) := by
  intro key other
  rw [mem_add, holds key other]
  by_cases same : other = id
  · subst same
    simp [notIndexed]
  · simp [same]

theorem Holds.mem_query (holds : index.Holds keysOf) : id ∈ index.query type metadata ↔
      ∀ key ∈ encodeMetadataAndType type metadata, key ∈ keysOf id := by
  rw [ContextIndex.mem_query]
  exact forall₂_congr fun key _ => holds key id

end ContextIndex

end Peridot
