import Peridot.NodeCode
import Peridot.SplitCuts

/-!
# Objects of pieces

The pieces that are sent make up the data again, as long as no level is flushed that was emptied at
the same cut because it was full.
-/

namespace Peridot

open List SplitCode LevelStack RollSumSplit IterationOutput

/-- The contents of a list of digests, by the pieces that were sent. -/
inductive FlattensAll (code : SplitCode) (sent : List IterationOutput) :
    List ObjectDigest → Bytes → Prop
  | nil : FlattensAll code sent [] []
  | value {digest : ObjectDigest} {content rest : Bytes} {others : List ObjectDigest} :
      .inProgress digest content ∈ sent → ¬IsIndexHash digest →
      FlattensAll code sent others rest →
      FlattensAll code sent (digest :: others) (content ++ rest)
  | index {digest : ObjectDigest} {content below rest : Bytes} {fileIndex : FileIndex}
      {others : List ObjectDigest} :
      .inProgress digest content ∈ sent → IsIndexHash digest →
      code.parseFileIndex content = some fileIndex →
      FlattensAll code sent (fileIndex.children.map fun child => child.2.objectDigest) below →
      FlattensAll code sent others rest →
      FlattensAll code sent (digest :: others) (below ++ rest)

def Flattens (code : SplitCode) (sent : List IterationOutput) (digest : ObjectDigest)
    (content : Bytes) : Prop :=
  FlattensAll code sent [digest] content

def ContentAddressed (sent : List IterationOutput) : Prop :=
  ∀ digest first second, .inProgress digest first ∈ sent → .inProgress digest second ∈ sent →
    first = second

variable {code : SplitCode} {sent : List IterationOutput}

theorem FlattensAll.append {first second : List ObjectDigest} {start rest : Bytes}
    (isFirst : FlattensAll code sent first start) (isSecond : FlattensAll code sent second rest) :
    FlattensAll code sent (first ++ second) (start ++ rest) := by
  induction isFirst with
  | nil => exact isSecond
  | value isSent notIndex _ ih =>
    rw [cons_append, append_assoc]
    exact .value isSent notIndex ih
  | index isSent isIndex isParsed below _ _ ih =>
    rw [cons_append, append_assoc]
    exact .index isSent isIndex isParsed below ih

theorem FlattensAll.unique (addressed : ContentAddressed sent) {digests : List ObjectDigest}
    {first second : Bytes} (isFirst : FlattensAll code sent digests first)
    (isSecond : FlattensAll code sent digests second) : first = second := by
  induction isFirst generalizing second with
  | nil =>
    cases isSecond
    rfl
  | value isSent notIndex _ ih =>
    cases isSecond with
    | value otherSent _ others => rw [addressed _ _ _ isSent otherSent, ih others]
    | index _ isIndex _ _ _ => exact absurd isIndex notIndex
  | index isSent isIndex isParsed _ _ belowSame restSame =>
    cases isSecond with
    | value _ notIndex _ => exact absurd isIndex notIndex
    | index otherSent _ otherParsed otherBelow others =>
      obtain rfl := addressed _ _ _ isSent otherSent
      obtain rfl := Option.some.inj (isParsed.symm.trans otherParsed)
      rw [belowSame otherBelow, restSame others]

/-- An index names its children with the sizes of their contents. -/
structure GoodIndex (code : SplitCode) (sent : List IterationOutput) (fileIndex : FileIndex) :
    Prop where
  atLeast : 2 ≤ fileIndex.children.length
  atMost : fileIndex.children.length ≤ kMaxIdentifiersPerIndex
  sizes : ∃ words, List.Forall₂ (fun child word =>
      Flattens code sent child.2.objectDigest word ∧ child.1 = UInt64.ofNat word.length)
    fileIndex.children words ∧ fileIndex.size = UInt64.ofNat words.flatten.length

/-- `DONE` is sent once and last, what was sent before are the pieces of the data, and every index
has the right sizes and numbers of children. -/
structure Splits (code : SplitCode) (source : Bytes) (result : SplitContext) : Prop where
  running : result.crashed = false
  done : ∃ pieces digest, result.sent = pieces ++ [.done digest] ∧
    (∀ output ∈ pieces, ∃ pieceDigest content, output = .inProgress pieceDigest content) ∧
    Flattens code pieces digest source ∧
    (ContentAddressed pieces → ∀ other, Flattens code pieces digest other → other = source) ∧
    ∀ pieceDigest content fileIndex, .inProgress pieceDigest content ∈ pieces →
      IsIndexHash pieceDigest → code.parseFileIndex content = some fileIndex →
        GoodIndex code pieces fileIndex

theorem isIndexHash_index (code : SplitCode) (content : Bytes) :
    IsIndexHash (code.computeObjectDigest .index content) := by
  have isLong : ¬(code.computeObjectDigest .index content).length ≤ kStorageHashSize := by
    simp only [computeObjectDigest, length_cons, code.length_hash]
    omega
  rw [IsIndexHash, getObjectDigestType, if_neg isLong]
  rfl

theorem not_isIndexHash_value (code : SplitCode) (content : Bytes) :
    ¬IsIndexHash (code.computeObjectDigest .value content) := by
  by_cases isShort : content.length ≤ kStorageHashSize
  · have isDigest : code.computeObjectDigest .value content = content := if_pos isShort
    rw [isDigest, IsIndexHash, getObjectDigestType, if_pos isShort]
    simp
  · have isDigest : code.computeObjectDigest .value content =
        1 :: code.sha256WithLengthHash content := if_neg isShort
    have isLong : ¬(1 :: code.sha256WithLengthHash content).length ≤ kStorageHashSize := by
      rw [length_cons, code.length_hash]
      omega
    rw [isDigest, IsIndexHash, getObjectDigestType, if_neg isLong]
    simp

def Denotes (code : SplitCode) (sent : List IterationOutput) (item : ObjectIdentifierAndSize)
    (word : Bytes) : Prop :=
  Flattens code sent item.identifier.objectDigest word ∧ item.size = UInt64.ofNat word.length

theorem denotes_chunk {data : Bytes} (isSent : code.chunkOutput data ∈ sent) :
    Denotes code sent (code.chunkIdentifier data) data := by
  refine ⟨?_, rfl⟩
  rw [Flattens, chunkIdentifier, code.digest_make]
  have flattened := FlattensAll.value isSent (not_isIndexHash_value code data)
    (FlattensAll.nil : FlattensAll code sent [] [])
  rwa [append_nil] at flattened

variable {group : List ObjectIdentifierAndSize} {word : Bytes}

theorem exists_words (spelled : LevelStack.Spells (Denotes code sent) group word) :
    ∃ words, Forall₂ (Denotes code sent) group words ∧ word = words.flatten := by
  induction group generalizing word with
  | nil => exact ⟨[], .nil, spelled⟩
  | cons item group ih =>
    obtain ⟨start, rest, isItem, isRest, rfl⟩ := spelled
    obtain ⟨words, areWords, rfl⟩ := ih isRest
    exact ⟨start :: words, .cons isItem areWords, rfl⟩

section

variable {words : List Bytes} (areWords : Forall₂ (Denotes code sent) group words)
include areWords

theorem flattensAll_of_words :
    FlattensAll code sent (group.map fun item => item.identifier.objectDigest) words.flatten := by
  induction areWords with
  | nil => exact .nil
  | cons isItem _ ih => exact FlattensAll.append isItem.1 ih

theorem sum_sizes :
    (group.map ObjectIdentifierAndSize.size).sum = UInt64.ofNat words.flatten.length := by
  induction areWords with
  | nil => rfl
  | cons isItem _ ih =>
    rw [map_cons, sum_cons, ih, isItem.2, flatten_cons, length_append, UInt64.ofNat_add]

end

theorem faithful_of_subset {groups : List (List ObjectIdentifierAndSize)}
    (areSent : groups.map code.indexOutput ⊆ sent) :
    LevelStack.Faithful (Denotes code sent) code.buildAndSendIndex groups := by
  intro group merged word spelled
  obtain ⟨words, areWords, rfl⟩ := exists_words spelled
  have isSent : code.indexOutput group ∈ sent := areSent (mem_map_of_mem merged)
  refine ⟨?_, sum_sizes areWords⟩
  rw [Flattens, buildAndSendIndex, code.digest_make]
  have below := flattensAll_of_words areWords
  have sameChildren : (buildFileIndex group).children.map (fun child => child.2.objectDigest) =
      group.map fun item => item.identifier.objectDigest := by
    simp [buildFileIndex]
  rw [← sameChildren] at below
  have flattened := FlattensAll.index isSent (isIndexHash_index code _) (code.parse_build _) below
    FlattensAll.nil
  rwa [append_nil] at flattened

theorem goodIndex_of_spells (atLeast : 2 ≤ group.length)
    (atMost : group.length ≤ kMaxIdentifiersPerIndex)
    (spelled : LevelStack.Spells (Denotes code sent) group word) :
    GoodIndex code sent (buildFileIndex group) := by
  obtain ⟨words, areWords, rfl⟩ := exists_words spelled
  refine ⟨by simpa [buildFileIndex] using atLeast, by simpa [buildFileIndex] using atMost,
    words, ?_, sum_sizes areWords⟩
  rw [buildFileIndex, forall₂_map_left_iff]
  exact areWords

/-- No cut flushes a level that is empty because it was full at the same cut: `number` is the
content of the levels, read as digits, before the cuts with the given levels. -/
def Unflushed : ℕ → List ℕ → Prop
  | _, [] => True
  | number, level :: levels => LevelStack.Unfilled kMaxIdentifiersPerIndex (number + 1) level ∧
      Unflushed (LevelStack.carried kMaxIdentifiersPerIndex (number + 1) level) levels

def cutLevels (data : Bytes) : List ℕ :=
  (SplitCode.cutsOf data).pieces.map fun piece => getLevel piece.2

theorem one_lt_kMaxIdentifiersPerIndex : 1 < kMaxIdentifiersPerIndex := by decide

/-- The levels have the given number and none of them is full. -/
structure Stacks (levels : List (List ObjectIdentifierAndSize)) (number : ℕ) : Prop where
  stacked : LevelStack.WellStacked kMaxIdentifiersPerIndex levels
  isNumber : LevelStack.number kMaxIdentifiersPerIndex levels = number

theorem stacks_nil : Stacks [] 0 :=
  ⟨.nil, rfl⟩

variable {stack : List (List ObjectIdentifierAndSize) × List IterationOutput} {number : ℕ}

section

variable (code : SplitCode)

theorem Stacks.stackChunk (levelled : Stacks stack.1 number) (data : Bytes) :
    Stacks (code.stackChunk stack data).1 (number + 1) ∧ (code.stackChunk stack data).1 ≠ [] := by
  obtain ⟨stacked, nonempty⟩ := @wellStacked_add _ _ code.buildAndSendIndex _
    one_lt_kMaxIdentifiersPerIndex levelled.stacked (code.chunkIdentifier data)
  exact ⟨⟨stacked, (number_add levelled.stacked _).trans
    (congrArg (· + 1) levelled.isNumber)⟩, nonempty⟩

theorem Stacks.stackPiece (levelled : Stacks stack.1 number)
    (piece : Bytes × ℕ) : Stacks (code.stackPiece stack piece).1
        (LevelStack.carried kMaxIdentifiersPerIndex (number + 1) (getLevel piece.2)) ∧
      (code.stackPiece stack piece).1 ≠ [] := by
  obtain ⟨added, nonempty⟩ := levelled.stackChunk code piece.1
  obtain ⟨stacked, left⟩ := @wellStacked_flushAll _ _ code.buildAndSendIndex _
    one_lt_kMaxIdentifiersPerIndex added.stacked nonempty (getLevel piece.2)
  refine ⟨⟨stacked, ?_⟩, left⟩
  have carried := @number_flushAll _ _ code.buildAndSendIndex _
    one_lt_kMaxIdentifiersPerIndex added.stacked nonempty (getLevel piece.2)
  rw [added.isNumber] at carried
  exact carried

theorem sent_stackChunk (data : Bytes) : stack.2 ⊆ (code.stackChunk stack data).2 := by
  simp [stackChunk, append_assoc]

theorem sent_stackPiece (piece : Bytes × ℕ) :
    (code.stackChunk stack piece.1).2 ⊆ (code.stackPiece stack piece).2 :=
  subset_append_left _ _

theorem sent_foldl (pieces : List (Bytes × ℕ)) :
    stack.2 ⊆ (pieces.foldl code.stackPiece stack).2 := by
  induction pieces generalizing stack with
  | nil => exact Subset.refl _
  | cons piece pieces ih =>
    exact Subset.trans (Subset.trans (sent_stackChunk code piece.1) (sent_stackPiece code piece)) ih

end

variable {pieces : List (Bytes × ℕ)}

/-- Where an empty level is flushed, an index without children is sent. -/
theorem indexOutput_nil_mem (code : SplitCode) (levelled : Stacks stack.1 number)
    (isFlushed : ¬Unflushed number (pieces.map fun piece => getLevel piece.2)) :
    code.indexOutput [] ∈ (pieces.foldl code.stackPiece stack).2 := by
  induction pieces generalizing stack number with
  | nil => exact absurd trivial isFlushed
  | cons piece pieces ih =>
    by_cases unfilled :
        LevelStack.Unfilled kMaxIdentifiersPerIndex (number + 1) (getLevel piece.2)
    · exact ih (levelled.stackPiece code piece).1 fun others => isFlushed ⟨unfilled, others⟩
    · obtain ⟨added, nonempty⟩ := levelled.stackChunk code piece.1
      have merged := @nil_mem_flushAll _ _ code.buildAndSendIndex _
        (getLevel piece.2) one_lt_kMaxIdentifiersPerIndex added.stacked nonempty
        (by rwa [added.isNumber])
      exact sent_foldl code pieces (mem_append_right _ (mem_map_of_mem merged))

/-- The group of an index that is sent has a right size, and stands for some data. -/
def GoodGroup (code : SplitCode) (sent : List IterationOutput)
    (group : List ObjectIdentifierAndSize) : Prop :=
  2 ≤ group.length ∧ group.length ≤ kMaxIdentifiersPerIndex ∧
    ∃ word, LevelStack.Spells (Denotes code sent) group word

/-- The identifiers in the levels make up the data, by the pieces that are sent in all. -/
structure Builds (code : SplitCode) (sent : List IterationOutput)
    (stack : List (List ObjectIdentifierAndSize) × List IterationOutput) (number : ℕ)
    (data : Bytes) : Prop extends Stacks stack.1 number where
  spells : LevelStack.Spells (Denotes code sent) (LevelStack.items stack.1) data
  outputs : ∀ output ∈ stack.2, (∃ piece, output = code.chunkOutput piece) ∨
    ∃ group, output = code.indexOutput group ∧ GoodGroup code sent group

theorem builds_nil : Builds code sent ([], []) 0 [] :=
  ⟨stacks_nil, rfl, nofun⟩

variable {data : Bytes}

section

variable (builds : Builds code sent stack number data)
include builds

theorem Builds.stackChunk {piece : Bytes} (areSent : (code.stackChunk stack piece).2 ⊆ sent) :
    Builds code sent (code.stackChunk stack piece) (number + 1) (data ++ piece) := by
  obtain ⟨levelled, _⟩ := builds.toStacks.stackChunk code piece
  have isSent : code.chunkOutput piece ∈ sent :=
    areSent (mem_append_left _ (mem_append_right _ mem_cons_self))
  have faithful := faithful_of_subset (Subset.trans (subset_append_right _ _) areSent)
  obtain ⟨spells, spelled⟩ := spells_add faithful builds.spells (denotes_chunk isSent)
  refine ⟨levelled, spells, fun output member => ?_⟩
  rcases mem_append.mp member with member | isIndex
  · rcases mem_append.mp member with earlier | isPiece
    · exact builds.outputs output earlier
    · exact .inl ⟨piece, mem_singleton.mp isPiece⟩
  · obtain ⟨group, merged, rfl⟩ := mem_map.mp isIndex
    have full := length_of_mem_add builds.stacked merged
    refine .inr ⟨group, rfl, ?_, full.le, ?_⟩
    · rw [full]
      exact one_lt_kMaxIdentifiersPerIndex
    · exact spelled group merged

theorem Builds.stackPiece {piece : Bytes × ℕ}
    (unfilled : LevelStack.Unfilled kMaxIdentifiersPerIndex (number + 1) (getLevel piece.2))
    (areSent : (code.stackPiece stack piece).2 ⊆ sent) :
    Builds code sent (code.stackPiece stack piece)
      (LevelStack.carried kMaxIdentifiersPerIndex (number + 1) (getLevel piece.2))
      (data ++ piece.1) := by
  have added := builds.stackChunk (Subset.trans (sent_stackPiece code piece) areSent)
  obtain ⟨_, nonempty⟩ := builds.toStacks.stackChunk code piece.1
  obtain ⟨levelled, _⟩ := builds.toStacks.stackPiece code piece
  have faithful := faithful_of_subset (Subset.trans (subset_append_right _ _) areSent)
  obtain ⟨spells, spelled⟩ := spells_flushAll one_lt_kMaxIdentifiersPerIndex
    added.stacked nonempty faithful added.spells
  refine ⟨levelled, spells, fun output member => ?_⟩
  rcases mem_append.mp member with earlier | isIndex
  · exact added.outputs output earlier
  · obtain ⟨group, merged, rfl⟩ := mem_map.mp isIndex
    obtain ⟨atLeast, atMost⟩ := length_of_mem_flushAll one_lt_kMaxIdentifiersPerIndex
      added.stacked nonempty (by rwa [added.isNumber]) merged
    exact .inr ⟨group, rfl, atLeast, atMost, spelled group merged⟩

theorem Builds.foldl (unflushed : Unflushed number (pieces.map fun piece => getLevel piece.2))
    (areSent : (pieces.foldl code.stackPiece stack).2 ⊆ sent) :
    ∃ count, Builds code sent (pieces.foldl code.stackPiece stack) count
      (data ++ (pieces.map Prod.fst).flatten) := by
  induction pieces generalizing stack number data with
  | nil => exact ⟨number, by simpa using builds⟩
  | cons piece pieces ih =>
    have next := builds.stackPiece unflushed.1 (Subset.trans (sent_foldl code pieces) areSent)
    obtain ⟨count, final⟩ := ih next unflushed.2 areSent
    exact ⟨count, by simpa [append_assoc] using final⟩

end

theorem foldl_ne_nil (code : SplitCode)
    (levelled : Stacks stack.1 number) (nonempty : pieces ≠ []) :
    (pieces.foldl code.stackPiece stack).1 ≠ [] := by
  induction pieces generalizing stack number with
  | nil => exact absurd rfl nonempty
  | cons piece pieces ih =>
    obtain ⟨next, left⟩ := levelled.stackPiece code piece
    by_cases isLast : pieces = []
    · subst isLast
      exact left
    · exact ih next isLast

/-- The levels at the end stand for all of the data, and there are some if anything was
delivered. -/
theorem splitStack_builds {delivered : List Bytes} (nonempty : delivered ≠ [])
    (unflushed : Unflushed 0 (cutLevels delivered.flatten))
    (areSent : (code.splitStack delivered).2 ⊆ sent) : (code.splitStack delivered).1 ≠ [] ∧
      ∃ count, Builds code sent (code.splitStack delivered) count delivered.flatten := by
  have isData : ((cutsOf delivered.flatten).pieces.map Prod.fst).flatten ++
      (cutsOf delivered.flatten).rest = delivered.flatten :=
    cuts_flatten delivered.flatten
  by_cases noneLeft :
      (cutsOf delivered.flatten).rest = [] ∧ delivered.getLast? ≠ some []
  · have isStack : code.splitStack delivered =
        (cutsOf delivered.flatten).pieces.foldl code.stackPiece ([], []) :=
      if_pos noneLeft
    rw [isStack] at areSent ⊢
    have hasPieces : (cutsOf delivered.flatten).pieces ≠ [] := by
      intro noPieces
      rw [noPieces, noneLeft.1] at isData
      have areEmpty := flatten_eq_nil_iff.mp isData.symm
      refine noneLeft.2 ?_
      rw [getLast?_eq_some_getLast nonempty, areEmpty _ (getLast_mem nonempty)]
    refine ⟨foldl_ne_nil code stacks_nil hasPieces, ?_⟩
    obtain ⟨count, builds⟩ := builds_nil.foldl unflushed areSent
    rw [noneLeft.1, append_nil] at isData
    exact ⟨count, by rwa [nil_append, isData] at builds⟩
  · have isStack : code.splitStack delivered = code.stackChunk
        ((cutsOf delivered.flatten).pieces.foldl code.stackPiece ([], []))
        (cutsOf delivered.flatten).rest :=
      if_neg noneLeft
    rw [isStack] at areSent ⊢
    obtain ⟨count, builds⟩ := builds_nil.foldl unflushed
      (Subset.trans (sent_stackChunk code _) areSent)
    refine ⟨(builds.toStacks.stackChunk code _).2, count + 1, ?_⟩
    have last := builds.stackChunk areSent
    rwa [nil_append, isData] at last

/-- The collapse sends an index for each group that it merges, and then the digest of the
object. -/
theorem outcome_eq (code : SplitCode) (levelled : Stacks stack.1 number) (nonempty : stack.1 ≠ []) :
    ∃ object groups, LevelStack.Collapses kMaxIdentifiersPerIndex code.buildAndSendIndex stack.1
        object groups ∧ code.outcome stack = (stack.2 ++ groups.map code.indexOutput ++
        [.done object.identifier.objectDigest], false) := by
  obtain ⟨object, groups, isCollapsed, collapses⟩ :=
    @collapse_spec _ _ code.buildAndSendIndex _ one_lt_kMaxIdentifiersPerIndex
      levelled.stacked nonempty _ (Nat.lt_succ_self _)
  refine ⟨object, groups, collapses, ?_⟩
  simp [outcome, isCollapsed]

theorem goodIndex_of_output {output : IterationOutput}
    (isOutput : (∃ piece, output = code.chunkOutput piece) ∨
      ∃ group, output = code.indexOutput group ∧ GoodGroup code sent group)
    {digest : ObjectDigest} {content : Bytes} (isPiece : output = .inProgress digest content)
    (isIndex : IsIndexHash digest) {fileIndex : FileIndex}
    (isParsed : code.parseFileIndex content = some fileIndex) : GoodIndex code sent fileIndex := by
  rcases isOutput with ⟨piece, rfl⟩ | ⟨group, rfl, atLeast, atMost, word, spelled⟩
  · obtain ⟨rfl, rfl⟩ := inProgress.inj isPiece
    exact absurd isIndex (not_isIndexHash_value code piece)
  · obtain ⟨rfl, rfl⟩ := inProgress.inj isPiece
    obtain rfl := Option.some.inj ((code.parse_build (buildFileIndex group)).symm.trans isParsed)
    exact goodIndex_of_spells atLeast atMost spelled

theorem splits_of_unflushed (code : SplitCode) {chunks : List Bytes} {last : Option Bytes}
    (nonempty : chunks ++ last.toList ≠ [])
    (unflushed : Unflushed 0 (cutLevels (chunks ++ last.toList).flatten)) :
    Splits code (chunks ++ last.toList).flatten (splitDataSource code chunks last) := by
  have isResult := splitDataSource_eq code chunks last
  generalize chunks ++ last.toList = delivered at nonempty unflushed isResult ⊢
  obtain ⟨hasLevels, count, levelled⟩ :=
    splitStack_builds nonempty unflushed (Subset.refl (code.splitStack delivered).2)
  obtain ⟨object, groups, collapses, isOutcome⟩ := outcome_eq code levelled.toStacks hasLevels
  rw [isOutcome, Prod.mk.injEq] at isResult
  obtain ⟨_, count, builds⟩ := splitStack_builds nonempty unflushed
    (subset_append_left (code.splitStack delivered).2 (groups.map code.indexOutput))
  have faithful := faithful_of_subset
    (subset_append_right (code.splitStack delivered).2 (groups.map code.indexOutput))
  obtain ⟨isObject, spelled⟩ := collapses.spells faithful builds.spells
  have outputs : ∀ output ∈ (code.splitStack delivered).2 ++ groups.map code.indexOutput,
      (∃ piece, output = code.chunkOutput piece) ∨ ∃ group, output = code.indexOutput group ∧
        GoodGroup code ((code.splitStack delivered).2 ++ groups.map code.indexOutput) group := by
    intro output member
    rcases mem_append.mp member with earlier | isIndex
    · exact builds.outputs output earlier
    · obtain ⟨group, merged, rfl⟩ := mem_map.mp isIndex
      obtain ⟨atLeast, atMost⟩ :=
        collapses.length_of_mem one_lt_kMaxIdentifiersPerIndex builds.stacked merged
      exact .inr ⟨group, rfl, atLeast, atMost, spelled group merged⟩
  refine ⟨isResult.2, _, _, isResult.1, fun output member => ?_, isObject.1,
    fun addressed other isOther => isOther.unique addressed isObject.1,
    fun digest content fileIndex member isIndex isParsed =>
      goodIndex_of_output (outputs _ member) rfl isIndex isParsed⟩
  rcases outputs output member with ⟨piece, rfl⟩ | ⟨group, rfl, _⟩
  · exact ⟨_, _, rfl⟩
  · exact ⟨_, _, rfl⟩

/-- The pieces are those of the data if and only if anything was delivered, and no cut flushes a
level that was emptied because it was full. -/
theorem splits_iff (code : SplitCode) (chunks : List Bytes) (last : Option Bytes) :
    Splits code (chunks ++ last.toList).flatten (splitDataSource code chunks last) ↔
      chunks ++ last.toList ≠ [] ∧ Unflushed 0 (cutLevels (chunks ++ last.toList).flatten) := by
  refine ⟨fun splits => ?_, fun condition => splits_of_unflushed code condition.1 condition.2⟩
  have isResult := splitDataSource_eq code chunks last
  obtain ⟨running, pieces, digest, isSent, _, _, _, areGood⟩ := splits
  rw [running, isSent] at isResult
  generalize chunks ++ last.toList = delivered at isResult ⊢
  constructor
  · rintro rfl
    have isEmpty := congrArg Prod.snd isResult
    revert isEmpty
    simp [splitStack, cutsOf, outcome, LevelStack.collapse]
  · by_contra isFlushed
    have isFirst : code.indexOutput [] ∈ ((cutsOf delivered.flatten).pieces.foldl
        code.stackPiece ([], [])).2 :=
      indexOutput_nil_mem code stacks_nil isFlushed
    have isStack : code.indexOutput [] ∈ (code.splitStack delivered).2 := by
      rw [splitStack]
      split
      · exact isFirst
      · exact sent_stackChunk code _ isFirst
    have isOutput : code.indexOutput [] ∈ pieces ++ [done digest] := by
      have sameSent : pieces ++ [done digest] =
          (code.outcome (code.splitStack delivered)).1 := congrArg Prod.fst isResult
      rw [sameSent]
      exact mem_append_left _ (mem_append_left _ isStack)
    have isPiece : code.indexOutput [] ∈ pieces := by
      refine (mem_append.mp isOutput).resolve_right fun isLast => ?_
      cases mem_singleton.mp isLast
    have good := areGood _ _ _ isPiece (isIndexHash_index code _)
      (code.parse_build (buildFileIndex []))
    exact absurd good.atLeast (by simp [buildFileIndex])

def fileIndexCode (fileIndex : FileIndex) : Bytes :=
  natCode fileIndex.size.toNat ++
    listCode (fun child : UInt64 × ObjectIdentifier =>
      natCode child.1.toNat ++ identifierCode child.2) fileIndex.children

theorem fileIndexCode_injective : Function.Injective fileIndexCode := by
  have child : SelfDelimiting fun child : UInt64 × ObjectIdentifier =>
      natCode child.1.toNat ++ identifierCode child.2 := by
    refine (natCode_selfDelimiting.append identifierCode_selfDelimiting).comp
      (f := fun child : UInt64 × ObjectIdentifier => (child.1.toNat, child.2)) ?_
    rintro ⟨size, identifier⟩ ⟨otherSize, other⟩ same
    simpa [UInt64.toNat_inj] using same
  refine ((natCode_selfDelimiting.append child.list).comp
    (f := fun fileIndex : FileIndex => (fileIndex.size.toNat, fileIndex.children)) ?_).injective
  rintro ⟨size, children⟩ ⟨otherSize, others⟩ same
  simpa [UInt64.toNat_inj] using same

noncomputable def sampleSplitCode : SplitCode where
  parseCommit _ := none
  parseFileIndex := Function.partialInv fileIndexCode
  sha256WithLengthHash content := (content ++ List.replicate 32 0).take 32
  buildFileIndexBuffer := fileIndexCode
  makeObjectIdentifier digest := ⟨0, 0, digest⟩
  length_hash content := by simp [kStorageHashSize]
  parse_build := Function.partialInv_left fileIndexCode_injective
  digest_make _ := rfl

namespace RollSumSplit

def zeros (currentLength windowIndex : ℕ) : RollSumSplit :=
  { RollSumSplit.new kMinChunkSize kMaxChunkSize with currentLength, windowIndex }

theorem dropped_zeros (index : ℕ) : (replicate kWindowSize (0 : UInt8)).getD index 0 = 0 := by
  rw [getD_eq_getElem?_getD, getElem?_replicate]
  split <;> rfl

theorem advance_zeros (length index : ℕ) :
    (zeros length index).advance 0 = zeros (length + 1) ((index + 1) % kWindowSize) := by
  have sameWindow : (replicate kWindowSize (0 : UInt8)).set index 0 = replicate kWindowSize 0 := by
    refine ext_getElem (by simp) fun position _ _ => ?_
    rw [getElem_set]
    split <;> simp
  simp only [advance, roll, zeros, new, sameWindow, dropped_zeros, add]
  rfl

theorem isCut_zeros {length : ℕ} (index : ℕ) :
    (zeros length index).isCut = decide (kMaxChunkSize ≤ length) := by
  have noBits : (zeros length index).s2 &&& (kBlobSize - 1) ≠ kBlobSize - 1 := by
    change (UInt64.ofNat kWindowSize * (UInt64.ofNat kWindowSize - 1) * kRollsumCharOffset) &&&
      (kBlobSize - 1) ≠ kBlobSize - 1
    decide
  have lessThan : kMinChunkSize ≤ kMaxChunkSize := by decide
  simp only [isCut, noBits, false_or]
  change decide (kMinChunkSize ≤ length ∧ kMaxChunkSize ≤ length) = _
  exact decide_eq_decide.mpr ⟨And.right, fun atLeast => ⟨lessThan.trans atLeast, atLeast⟩⟩

theorem bits_zeros (length index : ℕ) : (zeros length index).bits = 15 := by
  change (zeros 0 0).bits = 15
  decide

theorem cuts_zeros {length index count : ℕ} {pending data : Bytes}
    (isShort : length + count < kMaxChunkSize) :
    ∃ next, (zeros length index).cuts pending (replicate count 0 ++ data) =
      (zeros (length + count) next).cuts (pending ++ replicate count 0) data := by
  induction count generalizing length index pending with
  | zero => exact ⟨index, by simp⟩
  | succ count ih =>
    have notCut : ¬((zeros length index).advance 0).isCut = true := by
      rw [advance_zeros, isCut_zeros, decide_eq_true_eq]
      omega
    rw [replicate_succ, cons_append, cuts_cons_of_not_isCut notCut, advance_zeros]
    obtain ⟨next, same⟩ := @ih (length + 1) ((index + 1) % kWindowSize) (pending ++ [0]) (by omega)
    exact ⟨next, by rw [same]; simp [Nat.add_comm, Nat.add_left_comm]⟩

theorem cuts_full {index : ℕ} {data : Bytes} :
    ∃ next, (zeros 0 index).cuts [] (replicate kMaxChunkSize 0 ++ data) =
      ⟨(replicate kMaxChunkSize 0, 15) :: ((zeros 0 next).cuts [] data).pieces,
        ((zeros 0 next).cuts [] data).roll, ((zeros 0 next).cuts [] data).rest⟩ := by
  obtain ⟨before, same⟩ := @cuts_zeros 0 index (kMaxChunkSize - 1) [] (0 :: data) (by decide)
  have isData : replicate kMaxChunkSize 0 ++ data =
      replicate (kMaxChunkSize - 1) 0 ++ 0 :: data := by
    rw [← singleton_append, ← append_assoc, ← replicate_succ']
    rfl
  have isCut : ((zeros (0 + (kMaxChunkSize - 1)) before).advance 0).isCut = true := by
    rw [advance_zeros, isCut_zeros]
    decide
  rw [isData, same, cuts_cons_of_isCut isCut, advance_zeros, bits_zeros]
  refine ⟨(before + 1) % kWindowSize, ?_⟩
  have isPiece : [] ++ replicate (kMaxChunkSize - 1) (0 : UInt8) ++ [0] =
      replicate kMaxChunkSize 0 := by
    rw [nil_append, ← replicate_succ']
    rfl
  rw [isPiece]
  rfl

theorem cuts_three {index : ℕ} :
    ((zeros 0 index).cuts [] (replicate (kMaxChunkSize - 1) 0 ++ [3])).pieces.map
        (fun piece => getLevel piece.2) = [1] := by
  obtain ⟨before, same⟩ := @cuts_zeros 0 index (kMaxChunkSize - 1) [] [3] (by decide)
  have isCut : ((zeros (0 + (kMaxChunkSize - 1)) before).advance 3).isCut = true := by
    simp only [isCut, advance, roll, add, zeros, new]
    simp [kMaxChunkSize, kMinChunkSize]
  have bits : ((zeros (0 + (kMaxChunkSize - 1)) before).advance 3).bits = 17 := by
    simp only [bits, digest, advance, roll, add, zeros, new, dropped_zeros]
    decide
  rw [same, cuts_cons_of_isCut isCut, bits, cuts_nil]
  rfl

end RollSumSplit

/-- Zeros in pieces of the greatest length, all but the last of which add an identifier to level 0;
the last one makes that level full, and flushes it. -/
def fullLevel : Bytes :=
  (List.replicate 850 (List.replicate kMaxChunkSize 0)).flatten ++
    (List.replicate (kMaxChunkSize - 1) 0 ++ [3])

theorem cutLevels_zeros (index count : ℕ) (data : Bytes) :
    ∃ next, (((RollSumSplit.zeros 0 index).cuts []
        ((replicate count (replicate kMaxChunkSize 0)).flatten ++ data)).pieces.map
          fun piece => getLevel piece.2) = replicate count 0 ++
        (((RollSumSplit.zeros 0 next).cuts [] data).pieces.map fun piece => getLevel piece.2) := by
  induction count generalizing index with
  | zero => exact ⟨index, rfl⟩
  | succ count ih =>
    rw [replicate_succ, flatten_cons, append_assoc]
    obtain ⟨middle, isFirst⟩ := @cuts_full index
      ((replicate count (replicate kMaxChunkSize 0)).flatten ++ data)
    obtain ⟨next, others⟩ := ih middle
    refine ⟨next, ?_⟩
    rw [isFirst, map_cons, others, replicate_succ]
    rfl

theorem cutLevels_fullLevel : cutLevels fullLevel = replicate 850 0 ++ [1] := by
  obtain ⟨next, same⟩ := cutLevels_zeros 0 850 (replicate (kMaxChunkSize - 1) 0 ++ [3])
  rw [cuts_three] at same
  exact same

theorem unflushed_replicate (number count : ℕ) (levels : List ℕ) :
    Unflushed number (replicate count 0 ++ levels) ↔ Unflushed (number + count) levels := by
  induction count generalizing number with
  | zero => rfl
  | succ count ih =>
    rw [replicate_succ, cons_append, Unflushed]
    simp only [LevelStack.Unfilled, LevelStack.carried, true_and]
    rw [ih, Nat.add_right_comm, Nat.add_assoc]

theorem not_splits_fullLevel :
    ¬Splits sampleSplitCode fullLevel (splitDataSource sampleSplitCode [fullLevel] none) := by
  have condition := splits_iff sampleSplitCode [fullLevel] none
  rw [Option.toList_none, append_nil, flatten_singleton] at condition
  rw [condition, cutLevels_fullLevel, unflushed_replicate]
  exact fun isSplit => isSplit.2.1.1 (by decide)

end Peridot
