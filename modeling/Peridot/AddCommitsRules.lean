import Peridot.AddCommitsRun
import Peridot.Interleaving

/-!
# What adding commits keeps

A property of the batch and of the commits that are not handled yet, which all that
`SynchronousAddCommits` writes keeps, for any discipline that its accesses follow.
-/

namespace Peridot

open List Coroutine

variable {formats : StorageFormats} {K α β : Type}

/-- An access that tells nothing of commits. -/
def PageOp.IsQuiet : PageOp formats → Prop
  | .startBatch | .updateBatch | .hasKey _ | .get (.object _) => True
  | _ => False

def Write.IsOther (write : Write) : Prop :=
  ∀ id, write.row ≠ .commit id ∧ (write.row = .unsyncedCommit id → write.isPut = false)

structure AddInvariant (discipline : Discipline (PageOp formats) PageOp.Reply K)
    (source : ChangeSource) (Inv : K → List Write → List (Commit formats) → Prop)
    (Stored Absent : K → CommitId → Prop) (Failed : K → Prop) : Prop where
  quiet : ∀ known (op : PageOp formats), op.IsQuiet →
    discipline.permits known op ∧ ∀ reply, discipline.learn known op reply = known
  failed : ∀ {known batch pending}, Inv known batch pending → Failed known
  contains : ∀ {known batch pending}, Inv known batch pending → ∀ id,
    (containsCommit id).Obeys discipline known fun status final =>
      Inv final batch pending ∧ (∀ other, Absent known other → Absent final other) ∧
        (status = .ok → Stored final id) ∧ (status = .notFound → Absent final id)
  other : ∀ {known batch pending write}, Inv known batch pending → write.IsOther →
    Inv known (batch ++ [write]) pending
  skip : ∀ {known batch commit} {first rest : List (Commit formats)},
    Inv known batch (first ++ commit :: rest) → Stored known commit.id →
      Inv known (batch ++ PageDb.skipWrites source commit) (first ++ rest)
  store : ∀ {known batch commit} {first rest : List (Commit formats)},
    Inv known batch (first ++ commit :: rest) → Absent known commit.id →
      Inv known (batch ++ PageDb.commitWrites source commit) (first ++ rest)

namespace AddInvariant

variable {discipline : Discipline (PageOp formats) PageOp.Reply K} {source : ChangeSource}
  {Inv : K → List Write → List (Commit formats) → Prop} {Stored Absent : K → CommitId → Prop}
  {Failed : K → Prop} {known : K} {batch : List Write} {state : AddState formats}
  {pending commits : List (Commit formats)}
  (kept : AddInvariant discipline source Inv Stored Absent Failed)
include kept

theorem obeys_perform {op : PageOp formats} (isQuiet : op.IsQuiet) :
    (perform op).Obeys discipline known fun _ final => final = known :=
  .perform (kept.quiet known op isQuiet).1 (kept.quiet known op isQuiet).2

omit kept in
theorem access {attempt : PageCoroutine formats (Except Status β)} {f : β → PageRoutine formats α}
    {post : α → K → Prop} (obeys : attempt.Obeys discipline known fun _ final => final = known)
    (failed : Failed known) (next : ∀ value, ObeysExcept discipline (f value) known post Failed) :
    ObeysExcept discipline (returnOnError attempt >>= f) known post Failed := by
  refine .bind (.bind (.lift (obeys.mono ?_)))
  rintro reply _ rfl
  cases reply with
  | ok value => exact next value
  | error status => exact failed

theorem addWrite {post : List Write → K → Prop} (failed : Failed known) (write : Write)
    (holds : post (batch ++ [write]) known) :
    ObeysExcept discipline (addWrite batch write : PageRoutine formats _) known post Failed :=
  access (kept.obeys_perform (show PageOp.IsQuiet .updateBatch from trivial)) failed fun _ => .pure holds

theorem getObjectStatus (failed : Failed known) (identifier : ObjectIdentifier) :
    ObeysExcept discipline (getObjectStatus identifier : PageRoutine formats _) known
      (fun _ final => final = known) Failed := by
  refine access (kept.obeys_perform trivial) failed fun isSynced => ?_
  split
  · exact .pure rfl
  · refine access (kept.obeys_perform trivial) failed fun isTransient => ?_
    split
    · exact .pure rfl
    · refine access (kept.obeys_perform trivial) failed fun isLocal => ?_
      split <;> exact .pure rfl

theorem setObjectStatus (holds : Inv known batch pending) (identifier : ObjectIdentifier)
    (objectStatus : PageDbObjectStatus) : ObeysExcept discipline
      (setObjectStatus batch identifier objectStatus : PageRoutine formats _) known
      (fun longer final => Inv final longer pending) Failed := by
  have failed := kept.failed holds
  refine .bind (.mono (kept.getObjectStatus failed _) ?_)
  rintro previous _ rfl
  split
  · exact .pure holds
  · refine .bind (kept.addWrite failed _ (kept.addWrite failed _ ?_))
    exact kept.other (kept.other holds (by simp [Write.IsOther, Write.row]))
      (by simp [Write.IsOther, Write.row])

theorem markPieces (fuel : Nat) (holds : Inv known batch pending)
    (seenIdentifiers identifiers : List ObjectIdentifier) : ObeysExcept discipline
      (markPieces fuel batch seenIdentifiers identifiers : PageRoutine formats _) known
      (fun longer final => Inv final longer pending) Failed := by
  induction fuel generalizing batch seenIdentifiers identifiers known with
  | zero =>
    cases identifiers with
    | nil => exact .pure holds
    | cons identifier identifiers => exact .throw (kept.failed holds)
  | succ fuel ih =>
    cases identifiers with
    | nil => exact .pure holds
    | cons identifier identifiers =>
      refine .bind (.mono (kept.setObjectStatus holds _ _) fun longer more holds => ?_)
      split
      · have failed := kept.failed holds
        refine access (kept.obeys_perform trivial) failed fun content => ?_
        refine access (?_ : Obeys _ (pure _) _ _) failed fun fileIndex => ih holds _ _
        rfl
      · exact ih holds _ _

theorem takeParents (holds : Inv known state.batch pending) (parentIds : List CommitId) :
    ObeysExcept discipline (takeParents state parentIds) known (fun taken final =>
      Inv final taken.2.batch pending ∧ taken.2.remainingCommits = state.remainingCommits ∧
        ∀ id, Absent known id → Absent final id) Failed := by
  induction parentIds generalizing state known with
  | nil => exact .pure ⟨holds, rfl, fun _ => id⟩
  | cons parentId parentIds ih =>
    have takes : ∀ {known : K}, Inv known state.batch pending → ObeysExcept discipline
        (if parentId ∈ state.headsToAdd then
          Peridot.takeParents { state with headsToAdd := state.headsToAdd.erase parentId } parentIds
        else do
          let batch ← Peridot.addWrite state.batch (.delete (.head parentId))
          Peridot.takeParents { state with batch } parentIds) known (fun taken final =>
        Inv final taken.2.batch pending ∧ taken.2.remainingCommits = state.remainingCommits ∧
          ∀ id, Absent known id → Absent final id) Failed := by
      intro known holds
      split
      · exact ih holds
      · refine .bind (kept.addWrite (kept.failed holds) _ (ih (kept.other holds ?_)))
        simp [Write.IsOther, Write.row]
    rw [Peridot.takeParents]
    split
    · simp only [pure_bind]
      exact takes holds
    · refine .bind (.lift ((kept.contains holds parentId).mono ?_))
      rintro found middle ⟨holds, still, -⟩
      cases found with
      | ok =>
        refine (takes holds).mono ?_
        rintro taken final ⟨holds, same, absent⟩
        exact ⟨holds, same, fun id isAbsent => absent id (still id isAbsent)⟩
      | notFound => exact .pure ⟨holds, rfl, still⟩
      | _ => exact .throw (kept.failed holds)

variable {commit : Commit formats} {first rest : List (Commit formats)}

section

variable (holds : Inv known state.batch (first ++ commit :: rest))
include holds

variable (isFirst : state.remainingCommits = first)
include isFirst

theorem skipCommit (stored : Stored known commit.id) :
    ObeysExcept discipline (skipCommit source state commit) known
      (fun after final => Inv final after.batch (after.remainingCommits ++ rest)) Failed := by
  subst isFirst
  have skipped := kept.skip holds stored
  cases source with
  | localChange =>
    rw [PageDb.skipWrites, if_neg (by simp), append_nil] at skipped
    exact .pure skipped
  | sync => exact .bind (kept.addWrite (kept.failed holds) _ (.pure skipped))

theorem storeCommit (absent : Absent known commit.id) :
    ObeysExcept discipline (storeCommit source state commit) known
      (fun after final => Inv final after.batch (after.remainingCommits ++ rest)) Failed := by
  subst isFirst
  have failed := kept.failed holds
  have stored := kept.store holds absent
  cases source with
  | localChange =>
    refine .bind (kept.addWrite failed _ (.bind (kept.addWrite failed _ (.pure ?_))))
    rw [append_assoc]
    exact stored
  | sync => exact .bind (kept.addWrite failed _ (.pure stored))

end

theorem addCommit (holds : Inv known state.batch (state.remainingCommits ++ commit :: rest)) :
    ObeysExcept discipline (addCommit source state commit) known
      (fun after final => Inv final after.batch (after.remainingCommits ++ rest)) Failed := by
  refine .bind (.lift ((kept.contains holds commit.id).mono ?_))
  rintro status middle ⟨holds, -, stored, absent⟩
  cases status with
  | ok => exact kept.skipCommit holds rfl (stored rfl)
  | notFound =>
    refine .bind (.mono (kept.takeParents holds commit.parentIds) ?_)
    rintro ⟨found, taken⟩ final ⟨holds, same, still⟩
    cases found with
    | true => exact kept.storeCommit holds same (still _ (absent rfl))
    | false =>
      refine .pure ?_
      dsimp only at same ⊢
      rwa [append_assoc, same]
  | _ => exact .throw (kept.failed holds)

theorem foldlM (holds : Inv known state.batch (state.remainingCommits ++ commits)) :
    ObeysExcept discipline (commits.foldlM (Peridot.addCommit source) state) known
      (fun after final => Inv final after.batch after.remainingCommits) Failed := by
  induction commits generalizing state known with
  | nil =>
    rw [append_nil] at holds
    exact .pure holds
  | cons commit commits ih =>
    rw [foldlM_cons]
    exact .bind (.mono (kept.addCommit holds) fun middle more => ih)

theorem addHeads (holds : Inv known batch pending)
    (heads : List (Sigma fun _ : CommitId => Int64)) :
    ObeysExcept discipline (addHeads batch heads : PageRoutine formats _) known
      (fun longer final => Inv final longer pending) Failed := by
  induction heads generalizing batch with
  | nil => exact .pure holds
  | cons head heads ih =>
    refine .bind (kept.addWrite (kept.failed holds) _ (ih (kept.other holds ?_)))
    simp [Write.IsOther, Write.row]

theorem addPass (holds : Inv known state.batch commits) :
    ObeysExcept discipline (addPass source state commits) known
      (fun after final => Inv final after.batch after.remainingCommits) Failed := by
  refine .bind (.mono (kept.foldlM holds) fun middle more holds => ?_)
  exact .bind (.mono (kept.addHeads holds _) fun batch final holds => .pure holds)

theorem addPasses (fuel : Nat) (holds : Inv known state.batch commits) :
    ObeysExcept discipline (addPasses source fuel state commits) known
      (fun result final => Inv final result.1.batch result.2) Failed := by
  induction fuel generalizing state commits known with
  | zero =>
    cases commits with
    | nil => exact .pure holds
    | cons commit commits => exact .throw (kept.failed holds)
  | succ fuel ih =>
    cases commits with
    | nil => exact .pure holds
    | cons commit commits =>
      refine .bind (.mono (kept.addPass holds) fun middle more holds => ?_)
      split
      · exact ih holds
      · exact .pure holds

/-- A property of the batch, when no commit is left. -/
theorem prepareCommits (fuel : Nat) (holds : Inv known [] commits)
    (newObjects : List ObjectIdentifier) :
    ObeysExcept discipline (prepareCommits fuel commits source newObjects) known
      (fun prepared final => Inv final prepared.1 []) Failed := by
  refine access (kept.obeys_perform trivial) (kept.failed holds) fun _ => ?_
  refine .bind (.mono (kept.addPasses _ holds) ?_)
  rintro ⟨state, rest⟩ final holds
  unfold finishBatch
  split
  case isTrue => exact .throw (kept.failed holds)
  case isFalse noneLeft =>
    rw [not_not.mp noneLeft] at holds
    exact .bind (.mono (kept.markPieces fuel holds [] _) fun batch final holds => .pure holds)

end AddInvariant

end Peridot
