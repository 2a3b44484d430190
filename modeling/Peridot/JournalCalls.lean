import Peridot.JournalImpl

/-!
# Calls of a journal

What the calls of a journal return, and what they leave as it is: the journal, the rows that
do not belong to objects and the nodes that are stored.
-/

namespace Peridot

open KeyedList List

variable {formats : StorageFormats} {ids : NodeIdentifiers} {α β : Type}

namespace PageDb

variable {db other : PageDb} {journalId : JournalId} {key : Key} {value : JournalValue}

theorem mem_journalRows : (key, value) ∈ db.journalRows journalId ↔
    db.lookup (.journalEntry journalId key) = some value := by
  rw [journalRows, mem_mergeSort, mem_filterMap]
  constructor
  · rintro ⟨⟨row, rowValue⟩, inDb, isEntry⟩
    cases row with
    | journalEntry otherId otherKey =>
      rw [Row.entryOf, Option.ite_none_right_eq_some] at isEntry
      obtain ⟨rfl, same⟩ := isEntry
      cases same
      exact AList.mem_lookup_iff.mpr inDb
    | _ => cases isEntry
  · intro found
    exact ⟨⟨.journalEntry journalId key, value⟩, AList.mem_lookup_iff.mp found, if_pos rfl⟩

theorem sorted_journalRows (db : PageDb) (journalId : JournalId) :
    Sorted Prod.fst (db.journalRows journalId) := by
  have ordered : (db.journalRows journalId).Pairwise fun first second => first.1 ≤ second.1 := by
    refine (pairwise_mergeSort ?_ ?_ _).imp fun less => not_lt.mp (by simpa using less)
    · intro first second third
      simpa using le_trans
    · intro first second
      simpa using le_total first.1 second.1
  have distinct : (db.journalRows journalId).Pairwise fun first second => first.1 ≠ second.1 := by
    refine (List.Perm.pairwise_iff Ne.symm (mergeSort_perm _ _)).mpr ?_
    refine List.Pairwise.filterMap _ ?_ db.nodupKeys.pairwise_ne
    rintro ⟨row, rowValue⟩ ⟨otherRow, otherValue⟩ differ first isFirst second isSecond same
    cases row with
    | journalEntry rowId rowKey =>
      cases otherRow with
      | journalEntry otherId otherKey =>
        rw [Row.entryOf, Option.ite_none_right_eq_some] at isFirst isSecond
        obtain ⟨rfl, isFirst⟩ := isFirst
        obtain ⟨rfl, isSecond⟩ := isSecond
        cases isFirst
        cases isSecond
        exact differ (congrArg (Row.journalEntry _) same)
      | _ => cases isSecond
    | _ => cases isFirst
  exact (ordered.and distinct).imp fun ⟨less, differ⟩ => lt_of_le_of_ne less differ

theorem find_journalRows : find Prod.fst (db.journalRows journalId) key =
    (db.lookup (.journalEntry journalId key)).map (Prod.mk key) := by
  refine Option.ext fun row => ?_
  rw [Option.map_eq_some_iff]
  constructor
  · intro found
    obtain rfl := key_of_find found
    exact ⟨row.2, mem_journalRows.mp (mem_of_find found), rfl⟩
  · rintro ⟨value, found, rfl⟩
    exact find_of_mem (db.sorted_journalRows journalId) (mem_journalRows.mpr found)

theorem journalRows_congr (same : ∀ key, other.lookup (.journalEntry journalId key) =
    db.lookup (.journalEntry journalId key)) :
    other.journalRows journalId = db.journalRows journalId := by
  refine eq_of_find_eq (other.sorted_journalRows _) (db.sorted_journalRows _) fun key => ?_
  rw [find_journalRows, find_journalRows, same]

theorem journalRows_put :
    (db.write (.put (.journalEntry journalId key) value)).journalRows journalId =
      (db.journalRows journalId).write (key, value) := by
  refine eq_of_find_eq (sorted_journalRows _ _)
    (sorted_replaceAt (db.sorted_journalRows _) (by simp) (by simp)) fun other => ?_
  rw [find_journalRows, JournalRows.write, find_replaceAt (by simp)]
  by_cases isKey : other = key
  · subst isKey
    rw [lookup_put, if_pos rfl, find_cons, if_pos rfl]
    rfl
  · have differ : Row.journalEntry journalId key ≠ .journalEntry journalId other := by
      intro same
      exact isKey (Row.journalEntry.inj same).2.symm
    rw [lookup_put_of_ne differ, if_neg isKey, find_journalRows]

end PageDb

def Row.isObject : Row → Bool
  | object _ => true
  | objectStatus _ _ => true
  | _ => false

def PageDb.SameRows (before after : PageDb) : Prop :=
  ∀ row, row.isObject = false → after.lookup row = before.lookup row

namespace PageDb.SameRows

variable {first second third : PageDb}

theorem refl (db : PageDb) : SameRows db db :=
  fun _ _ => rfl

theorem trans (before : SameRows first second) (after : SameRows second third) :
    SameRows first third :=
  fun row notObject => (after row notObject).trans (before row notObject)

theorem journalRows (same : SameRows first second) (journalId : JournalId) :
    second.journalRows journalId = first.journalRows journalId :=
  journalRows_congr fun _ => same _ rfl

theorem writeAll {writes : List Write} (ofObjects : ∀ write ∈ writes, write.row.isObject = true) :
    SameRows first (first.writeAll writes) := by
  intro row notObject
  refine lookup_writeAll_of_ne fun write inWrites same => ?_
  rw [← same, ofObjects write inWrites] at notObject
  cases notObject

theorem writePieces (db : PageDb) (pieces : List (ObjectIdentifier × Bytes)) :
    SameRows db (db.writePieces pieces) := by
  induction pieces generalizing db with
  | nil => exact refl db
  | cons piece pieces ih =>
    refine trans (writeAll fun write inWrites => ?_) (ih _)
    rw [objectWrites] at inWrites
    split at inWrites
    · rw [if_pos rfl] at inWrites
      exact absurd inWrites not_mem_nil
    · rcases mem_pair.mp inWrites with rfl | rfl <;> rfl

end PageDb.SameRows

namespace JournalState

/-- The journal and the rows that do not belong to objects are the same. -/
structure Quiet (before after : JournalState formats ids) : Prop where
  journal : after.journal = before.journal
  rows : before.page.db.SameRows after.page.db

structure Idle (before after : JournalState formats ids) : Prop where
  journal : after.journal = before.journal
  nodes : after.nodes = before.nodes
  db : after.page.db = before.page.db

theorem Quiet.refl (state : JournalState formats ids) : Quiet state state :=
  ⟨rfl, .refl _⟩

theorem Quiet.trans {first second third : JournalState formats ids} (before : Quiet first second)
    (after : Quiet second third) : Quiet first third :=
  ⟨after.journal.trans before.journal, before.rows.trans after.rows⟩

theorem Idle.refl (state : JournalState formats ids) : Idle state state :=
  ⟨rfl, rfl, rfl⟩

theorem Idle.trans {first second third : JournalState formats ids} (before : Idle first second)
    (after : Idle second third) : Idle first third :=
  ⟨after.journal.trans before.journal, after.nodes.trans before.nodes, after.db.trans before.db⟩

theorem Idle.quiet {before after : JournalState formats ids} (idle : Idle before after) :
    Quiet before after :=
  ⟨idle.journal, fun row _ => by rw [idle.db]⟩

end JournalState

namespace JournalCall

open JournalState

theorem bind_apply (call : JournalCall formats ids α) (next : α → JournalCall formats ids β)
    (state : JournalState formats ids) :
    (call >>= next) state = ExceptT.bindCont next (call state).1 (call state).2 :=
  rfl

variable {next : α → JournalCall formats ids β} {call : JournalCall formats ids α} {values : List α}

theorem bind_of_error {state middle : JournalState formats ids} {fault : Fault}
    (fails : call state = (.error fault, middle)) :
    (call >>= next) state = (.error fault, middle) := by
  rw [bind_apply, fails]
  rfl

theorem bind_of_ok {state middle : JournalState formats ids} {value : α}
    (succeeds : call state = (.ok value, middle)) : (call >>= next) state = next value middle := by
  rw [bind_apply, succeeds]
  rfl

theorem get_bind (body : JournalState formats ids → JournalCall formats ids α)
    (state : JournalState formats ids) : (get >>= body) state = body state state :=
  rfl

theorem bind_eq_ok {state final : JournalState formats ids} {result : β} :
    (call >>= next) state = (.ok result, final) ↔ ∃ value middle, call state = (.ok value, middle) ∧
        next value middle = (.ok result, final) := by
  constructor
  · intro succeeds
    rcases called : call state with ⟨fault | value, middle⟩
    · rw [bind_of_error called] at succeeds
      cases succeeds
    · rw [bind_of_ok called] at succeeds
      exact ⟨value, middle, rfl, succeeds⟩
  · rintro ⟨value, middle, first, second⟩
    rw [bind_of_ok first, second]

def Keeps (relation : JournalState formats ids → JournalState formats ids → Prop)
    (call : JournalCall formats ids α) : Prop :=
  ∀ state, relation state (call state).2

section Keeps

variable {relation : JournalState formats ids → JournalState formats ids → Prop}
  {call : JournalCall formats ids α} {next : α → JournalCall formats ids β}

theorem Keeps.bind (trans : ∀ {first second third}, relation first second → relation second third →
      relation first third)
    (first : Keeps relation call) (second : ∀ value, Keeps relation (next value)) :
    Keeps relation (call >>= next) := by
  intro state
  have before := first state
  rcases called : call state with ⟨fault | value, middle⟩ <;> rw [called] at before
  · rw [bind_of_error called]
    exact before
  · rw [bind_of_ok called]
    exact trans before (second value middle)

theorem Keeps.get {body : JournalState formats ids → JournalCall formats ids α}
    (keeps : ∀ state, relation state (body state state).2) : Keeps relation (get >>= body) :=
  keeps

theorem Keeps.of_idle (keeps : Keeps Idle call) : Keeps Quiet call :=
  fun state => (keeps state).quiet

end Keeps

theorem idle_pure (value : α) : Keeps Idle (pure value : JournalCall formats ids α) :=
  .refl

theorem idle_get : Keeps Idle (get : JournalCall formats ids (JournalState formats ids)) :=
  .refl

theorem idle_ofResult (result : Except Fault α) :
    Keeps Idle (ofResult result : JournalCall formats ids α) :=
  .refl

theorem idle_access (reply : PageDb → Except Status α) :
    Keeps Idle (access reply : JournalCall formats ids α) :=
  fun state => ⟨rfl, rfl, (PageWorld.untouched_access state.page _).db⟩

theorem idle_ofPage {routine : PageRoutine formats α} (readOnly : PageWorld.ReadOnly routine) :
    Keeps Idle (ofPage routine : JournalCall formats ids α) :=
  fun state => ⟨rfl, rfl, (readOnly.untouched state.page).db⟩

theorem idle_mapM {body : α → JournalCall formats ids β}
    (keeps : ∀ value, Keeps Idle (body value)) : Keeps Idle (values.mapM body) := by
  induction values with
  | nil => exact idle_pure _
  | cons value values ih =>
    rw [mapM_cons]
    exact (keeps value).bind .trans fun _ => ih.bind .trans fun _ => idle_pure _

theorem idle_forM {body : α → JournalCall formats ids PUnit}
    (keeps : ∀ value, Keeps Idle (body value)) : Keeps Idle (values.forM body) := by
  induction values with
  | nil => exact idle_pure _
  | cons value values ih =>
    rw [List.forM_eq_forM, List.forM_cons]
    exact (keeps value).bind .trans fun _ => ih

theorem access_eq_ok {reply : PageDb → Except Status α} {state next : JournalState formats ids}
    {result : α} (succeeds : access reply state = (.ok result, next)) :
    reply state.page.db = .ok result ∧ Idle state next := by
  have idle := idle_access reply state
  rw [succeeds] at idle
  refine ⟨?_, idle⟩
  have isReply := congrArg Prod.fst succeeds
  simp only [access, PageWorld.access] at isReply
  split at isReply
  · cases replied : reply state.page.db <;> rw [replied] at isReply <;> cases isReply
    rfl
  · cases replied : reply state.page.db <;> rw [replied] at isReply <;> cases isReply
    rfl
  · cases isReply

theorem execute_cases (writes : List Write) (state : JournalState formats ids) :
    ∃ result next, execute writes state = (result, next) ∧ next.journal = state.journal ∧
      next.nodes = state.nodes ∧ (result = .ok () ∧ next.page.db = state.page.db.writeAll writes ∨
        (∃ fault, result = .error fault) ∧ next.page.db = state.page.db) := by
  refine ⟨_, _, rfl, rfl, rfl, ?_⟩
  simp only [PageWorld.access]
  split
  · exact .inl ⟨rfl, rfl⟩
  · exact .inl ⟨rfl, rfl⟩
  · exact .inr ⟨⟨_, rfl⟩, rfl⟩

def prepare (updates : ℕ) : JournalCall formats ids PUnit := do
  access fun _ => .ok ()
  (List.replicate updates ()).forM fun _ => access fun _ => .ok ()

variable (updates : ℕ)

theorem idle_prepare : Keeps Idle (prepare updates : JournalCall formats ids PUnit) :=
  (idle_access _).bind .trans fun _ => idle_forM fun _ => idle_access _

theorem mutate_eq (mutation : Mutation) :
    (mutate updates mutation : JournalCall formats ids Unit) = (do
      prepare updates
      let state ← get
      execute (state.page.db.mutate mutation)) := by
  rw [mutate, prepare, bind_assoc]

/-- A call of the database executes its operation, or changes nothing. -/
theorem mutate_cases (mutation : Mutation) (state : JournalState formats ids) :
    ∃ result next, mutate updates mutation state = (result, next) ∧
      next.journal = state.journal ∧ next.nodes = state.nodes ∧
      (result = .ok () ∧ next.page.db = state.page.db.execute [mutation] ∨
        (∃ fault, result = .error fault) ∧ next.page.db = state.page.db) := by
  have idle := idle_prepare updates state
  rw [mutate_eq]
  rcases prepared : (prepare updates : JournalCall formats ids PUnit) state with ⟨done, middle⟩
  rw [prepared] at idle
  rcases done with fault | ⟨⟩
  · exact ⟨_, _, bind_of_error prepared, idle.journal, idle.nodes, .inr ⟨⟨fault, rfl⟩, idle.db⟩⟩
  · obtain ⟨result, next, executes, sameJournal, sameNodes, outcome⟩ :=
      execute_cases (middle.page.db.mutate mutation) middle
    refine ⟨result, next, ?_, sameJournal.trans idle.journal, sameNodes.trans idle.nodes, ?_⟩
    · rw [bind_of_ok prepared]
      exact executes
    · rw [PageDb.execute_singleton, ← idle.db]
      exact outcome

end JournalCall

end Peridot
