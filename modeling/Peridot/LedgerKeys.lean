import Peridot.PageStorage
import Peridot.StringEscape

/-!
# Keys of ledger pages

The keys under which links and message queues are stored: parts that are escaped and joined by
separators, after a text that tells what is stored.  A link is found by the start of its keys.
-/

namespace Peridot

open List

def kSeparator : Bytes := ascii ['/']

def kEscaper : UInt8 := 92

def kCharsToEscape : Bytes := ascii [':', '/']

def kSubSeparator : Bytes := ascii [':']

def kLinkKeyPrefix : Bytes := ascii ['L', 'i', 'n', 'k', '|', '2', '/']

def kMessageQueueKeyPrefix : Bytes := ascii ['M', 'e', 's', 's', 'a', 'g', 'e', 'Q', 'u', 'e', 'u', 'e', '/']

def kMessageQueueTokenKeyPrefix : Bytes := ascii
    ['M', 'e', 's', 's', 'a', 'g', 'e', 'Q', 'u', 'e', 'u', 'e', 'T', 'o', 'k', 'e', 'n', '/']

structure LinkPath where
  modulePath : List Bytes
  linkName : Bytes
deriving DecidableEq

def encodeModulePath (modulePath : List Bytes) : Bytes :=
  kSubSeparator.intercalate (modulePath.map (stringEscape kCharsToEscape kEscaper))

def encodeLinkPath (linkPath : LinkPath) : Bytes :=
  encodeModulePath linkPath.modulePath ++ kSeparator ++
    stringEscape kCharsToEscape kEscaper linkPath.linkName

def makeLinkKey (linkPath : LinkPath) : Bytes :=
  kLinkKeyPrefix ++ encodeLinkPath linkPath

def makeSequencedLinkKey (linkPath : LinkPath) (sequenceKey : Bytes) : Bytes :=
  makeLinkKey linkPath ++ kSeparator ++ sequenceKey

def makeMessageQueuesPrefix (componentNamespace : Bytes) : Bytes :=
  kMessageQueueTokenKeyPrefix ++ stringEscape kSeparator kEscaper componentNamespace ++ kSeparator

def makeMessageQueueTokenKey (componentNamespace componentInstanceId queueName : Bytes) : Bytes :=
  kMessageQueueTokenKeyPrefix ++ stringEscape kSeparator kEscaper componentNamespace ++
    kSeparator ++ stringEscape kSeparator kEscaper componentInstanceId ++ kSeparator ++
    stringEscape kSeparator kEscaper queueName

def makeMessageQueueKey (queueToken : Bytes) : Bytes :=
  kMessageQueueKeyPrefix ++ queueToken

def writtenModules : List Bytes → List Bytes
  | [] => [[]]
  | modulePath => modulePath

theorem encodeModulePath_singleton (module : Bytes) :
    encodeModulePath [module] = stringEscape kCharsToEscape kEscaper module := by
  simp [encodeModulePath]

theorem encodeModulePath_cons_cons (module next : Bytes) (modules : List Bytes) :
    encodeModulePath (module :: next :: modules) =
      stringEscape kCharsToEscape kEscaper module ++ 58 :: encodeModulePath (next :: modules) := by
  simp only [encodeModulePath, map_cons, intercalate_cons_cons]
  exact (append_cons ..).symm

theorem encodeModulePath_writtenModules (modulePath : List Bytes) :
    encodeModulePath (writtenModules modulePath) = encodeModulePath modulePath := by
  cases modulePath <;> rfl

theorem writtenModules_of_isPrefix {first second : List Bytes} {rest rest' : Bytes}
    (starts : encodeModulePath first ++ 47 :: rest <+: encodeModulePath second ++ 47 :: rest') :
    writtenModules first = writtenModules second ∧ rest <+: rest' := by
  have slash : IsSeparator kCharsToEscape kEscaper 47 := by decide
  have colon : IsSeparator kCharsToEscape kEscaper 58 := by decide
  rw [← encodeModulePath_writtenModules first, ← encodeModulePath_writtenModules second] at starts
  obtain ⟨module, modules, isFirst⟩ : ∃ module modules, writtenModules first = module :: modules := by
    cases first <;> exact ⟨_, _, rfl⟩
  obtain ⟨module', modules', isSecond⟩ :
      ∃ module modules, writtenModules second = module :: modules := by
    cases second <;> exact ⟨_, _, rfl⟩
  rw [isFirst, isSecond] at starts ⊢
  clear isFirst isSecond
  induction modules generalizing module module' modules' with
  | nil =>
    cases modules' with
    | nil =>
      simp only [encodeModulePath_singleton] at starts
      obtain ⟨rfl, -, starts⟩ := eq_of_stringEscape_isPrefix slash slash starts
      exact ⟨rfl, starts⟩
    | cons next modules' =>
      simp only [encodeModulePath_singleton, encodeModulePath_cons_cons, append_assoc,
        cons_append] at starts
      exact absurd (eq_of_stringEscape_isPrefix slash colon starts).2.1 (by decide)
  | cons next modules ih =>
    cases modules' with
    | nil =>
      simp only [encodeModulePath_singleton, encodeModulePath_cons_cons, append_assoc,
        cons_append] at starts
      exact absurd (eq_of_stringEscape_isPrefix colon slash starts).2.1 (by decide)
    | cons next' modules' =>
      simp only [encodeModulePath_cons_cons, append_assoc, cons_append] at starts
      obtain ⟨rfl, -, starts⟩ := eq_of_stringEscape_isPrefix colon colon starts
      obtain ⟨same, starts⟩ := ih next next' modules' starts
      exact ⟨by rw [same], starts⟩

/-- The keys of the changes of a link start with the key of another link exactly when the module
paths are written the same way and the name of the other link is a start of its name. -/
theorem makeLinkKey_isPrefix_iff (first second : LinkPath) (sequenceKey : Bytes) :
    makeLinkKey first <+: makeSequencedLinkKey second sequenceKey ↔
      writtenModules first.modulePath = writtenModules second.modulePath ∧
        first.linkName <+: second.linkName := by
  have spell : makeSequencedLinkKey second sequenceKey = kLinkKeyPrefix ++
      (encodeModulePath second.modulePath ++ 47 ::
        (stringEscape kCharsToEscape kEscaper second.linkName ++ 47 :: sequenceKey)) := by
    simp only [makeSequencedLinkKey, makeLinkKey, encodeLinkPath, append_assoc]
    rfl
  have spell' : makeLinkKey first = kLinkKeyPrefix ++ (encodeModulePath first.modulePath ++ 47 ::
      stringEscape kCharsToEscape kEscaper first.linkName) := by
    simp only [makeLinkKey, encodeLinkPath, append_assoc]
    rfl
  have names : stringEscape kCharsToEscape kEscaper first.linkName <+:
      stringEscape kCharsToEscape kEscaper second.linkName ++ 47 :: sequenceKey ↔
        first.linkName <+: second.linkName := stringEscape_isPrefix_iff (by decide)
  rw [spell, spell', prefix_append_right_inj, ← names]
  constructor
  · exact writtenModules_of_isPrefix
  · rintro ⟨same, starts⟩
    rw [← encodeModulePath_writtenModules, same, encodeModulePath_writtenModules,
      prefix_append_right_inj, cons_prefix_cons]
    exact ⟨rfl, starts⟩

theorem makeMessageQueueTokenKey_eq (componentNamespace componentInstanceId queueName : Bytes) :
    makeMessageQueueTokenKey componentNamespace componentInstanceId queueName =
      kMessageQueueTokenKeyPrefix ++ (stringEscape kSeparator kEscaper componentNamespace ++ 47 ::
          (stringEscape kSeparator kEscaper componentInstanceId ++ 47 ::
            stringEscape kSeparator kEscaper queueName)) := by
  simp only [makeMessageQueueTokenKey, append_assoc]
  rfl

theorem makeMessageQueuesPrefix_isPrefix_iff
    {componentNamespace other componentInstanceId queueName : Bytes} :
    makeMessageQueuesPrefix componentNamespace <+:
        makeMessageQueueTokenKey other componentInstanceId queueName ↔
      componentNamespace = other := by
  have slash : IsSeparator kSeparator kEscaper 47 := by decide
  have spell : makeMessageQueuesPrefix componentNamespace = kMessageQueueTokenKeyPrefix ++
      (stringEscape kSeparator kEscaper componentNamespace ++ 47 :: []) := by
    simp only [makeMessageQueuesPrefix, append_assoc]
    rfl
  rw [spell, makeMessageQueueTokenKey_eq, prefix_append_right_inj]
  constructor
  · exact fun starts => (eq_of_stringEscape_isPrefix slash slash starts).1
  · rintro rfl
    rw [prefix_append_right_inj, cons_prefix_cons]
    exact ⟨rfl, nil_prefix⟩

theorem makeMessageQueueTokenKey_inj {first second third first' second' third' : Bytes}
    (same : makeMessageQueueTokenKey first second third =
      makeMessageQueueTokenKey first' second' third') :
    first = first' ∧ second = second' ∧ third = third' := by
  have slash : IsSeparator kSeparator kEscaper 47 := by decide
  rw [makeMessageQueueTokenKey_eq, makeMessageQueueTokenKey_eq] at same
  obtain ⟨sameFirst, sameRest⟩ := eq_of_stringEscape_eq slash (append_cancel_left same)
  obtain ⟨sameSecond, sameThird⟩ := eq_of_stringEscape_eq slash sameRest
  exact ⟨sameFirst, sameSecond, stringEscape_inj slash sameThird⟩

/-- Strings that are escaped and joined can be told apart again, so no two queues have one token
key, and a component finds the keys of its own queues only. -/
theorem splitEscapedString_tokenKeys {strings : List Bytes} {charsToEscape : Bytes}
    {sep escapeChar : UInt8} (lastNotEmpty : strings.getLast? ≠ some [])
    (isEscaped : sep ∈ charsToEscape) (notEscaper : escapeChar ∉ charsToEscape) :
    (splitEscapedString ([sep].intercalate (strings.map (stringEscape charsToEscape escapeChar)))
        sep escapeChar).map (stringUnescape escapeChar) = strings ∧
      (∀ {first second third first' second' third' : Bytes},
        makeMessageQueueTokenKey first second third =
            makeMessageQueueTokenKey first' second' third' →
          first = first' ∧ second = second' ∧ third = third') ∧
      ∀ componentNamespace other componentInstanceId queueName : Bytes,
        makeMessageQueuesPrefix componentNamespace <+:
            makeMessageQueueTokenKey other componentInstanceId queueName ↔
          componentNamespace = other := by
  refine ⟨?_, makeMessageQueueTokenKey_inj, fun _ _ _ _ => makeMessageQueuesPrefix_isPrefix_iff⟩
  have separator : IsSeparator charsToEscape escapeChar sep :=
    ⟨isEscaped, ne_of_mem_of_not_mem isEscaped notEscaper⟩
  rcases eq_nil_or_concat' strings with rfl | ⟨init, last, rfl⟩
  · rfl
  · have notEmpty : last ≠ [] := by simpa using lastNotEmpty
    rw [splitEscapedString_join separator, if_neg notEmpty]
    simp [Function.comp_def]

/-- Parts with a separator and with the escape character, at their ends and doubled. -/
theorem splitEscapedString_tokenKeys_sample :
    (splitEscapedString ([47].intercalate
        ([[], [47], [92, 92], [97, 47]].map (stringEscape [47] 92))) 47 92).map
          (stringUnescape 92) = ([[], [47], [92, 92], [97, 47]] : List Bytes) :=
  (splitEscapedString_tokenKeys (by decide) (by decide) (by decide)).1

/-- The two kinds of keys differ in what they start with. -/
theorem not_isPrefix_makeMessageQueueKey (queueToken : Bytes) :
    ¬kMessageQueueTokenKeyPrefix <+: makeMessageQueueKey queueToken := by
  rintro ⟨rest, same⟩
  have differs := congrArg (fun key : Bytes => key[12]?) same
  simp [makeMessageQueueKey, kMessageQueueKeyPrefix, kMessageQueueTokenKeyPrefix, ascii] at differs

theorem makeMessageQueueKey_ne (queueToken componentNamespace componentInstanceId
    queueName : Bytes) : makeMessageQueueKey queueToken ≠
      makeMessageQueueTokenKey componentNamespace componentInstanceId queueName := by
  intro same
  refine not_isPrefix_makeMessageQueueKey queueToken ?_
  rw [same, makeMessageQueueTokenKey_eq]
  exact prefix_append ..

theorem makeMessageQueueKey_injective : Function.Injective makeMessageQueueKey :=
  fun _ _ same => append_cancel_left same

end Peridot
