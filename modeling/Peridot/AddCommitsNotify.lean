import Peridot.AddCommitsOutcome

/-!
# Watchers of a page

`SynchronousAddCommits` notifies the watchers of the commits that it has put into its batch,
whether the batch has been executed or not, and of a commit that is twice in the list twice.
-/

namespace Peridot

open List

variable {formats : StorageFormats}

namespace PageWorld

def heard (watcher : Nat) (notifications : List (Notification formats)) : List CommitId :=
  (notifications.filter fun notification => notification.watcher = watcher).flatMap
    fun notification => notification.commits.map Commit.id

/-- A call that fails changes nothing and notifies nobody.  When it succeeds, each watcher
hears of each commit that is stored for the first time exactly once (for each time that the
watcher is registered), and of parents before their children. -/
def AllOrNothing (world : PageWorld formats) (called : Except Fault Unit × PageWorld formats) :
    Prop :=
  (called.1 ≠ .ok () → called.2.db = world.db ∧ called.2.notified = world.notified) ∧
    (called.1 = .ok () → ∃ news, called.2.notified = world.notified ++ news ∧
      (∀ watcher ∈ world.watchers, ∀ id, called.2.db.Contains id → ¬world.db.Contains id →
        (heard watcher news).count id = world.watchers.count watcher) ∧
      ∀ notification ∈ news, ∀ before commit after,
        notification.commits = before ++ commit :: after → ∀ parentId ∈ commit.parentIds,
          world.db.Contains parentId ∨ ∃ earlier ∈ before, earlier.id = parentId)

def notifications (watchers : List Nat) (source : ChangeSource) (sent : List (Commit formats)) :
    List (Notification formats) :=
  watchers.map fun watcher => ⟨watcher, source, sent⟩

theorem count_heard (watchers : List Nat) (source : ChangeSource) (sent : List (Commit formats))
    (watcher : Nat) (id : CommitId) :
    (heard watcher (notifications watchers source sent)).count id =
      watchers.count watcher * (sent.map Commit.id).count id := by
  induction watchers with
  | nil => simp [heard, notifications]
  | cons first watchers ih =>
    by_cases same : first = watcher
    · have grows : heard watcher (notifications (first :: watchers) source sent) =
          sent.map Commit.id ++ heard watcher (notifications watchers source sent) := by
        simp [heard, notifications, same]
      rw [grows, count_append, ih, same, count_cons_self, Nat.succ_mul, Nat.add_comm]
    · have stays : heard watcher (notifications (first :: watchers) source sent) =
          heard watcher (notifications watchers source sent) := by
        simp [heard, notifications, same]
      rw [stays, ih, count_cons_of_ne same]

/-- The call of the database that comes after everything before `Execute` fails. -/
def ExecuteFails (world : PageWorld formats) (fuel : Nat) (commits : List (Commit formats))
    (source : ChangeSource) (newObjects : List ObjectIdentifier) : Prop :=
  ∃ failure failures, (world.call (beforeExecute fuel commits source newObjects)).2.failures =
    some failure :: failures

theorem synchronousAddCommits_cases (fuel : Nat) (commits : List (Commit formats))
    (source : ChangeSource) (newObjects : List ObjectIdentifier) (world : PageWorld formats) :
    let called := world.call (synchronousAddCommits fuel commits source newObjects)
    (∃ fault, (world.call (beforeExecute fuel commits source newObjects)).1 = .error fault ∧
        called.1 = .error fault ∧ called.2.db = world.db ∧ called.2.notified = world.notified) ∨
      (∃ prepared, (world.call (beforeExecute fuel commits source newObjects)).1 = .ok prepared ∧
        ExecuteFails world fuel commits source newObjects ∧ called.1 ≠ .ok () ∧
          called.2.db = world.db ∧
          called.2.notified = world.notified ++ notifications world.watchers source prepared.2) ∨
      ∃ batch sent, (world.call (beforeExecute fuel commits source newObjects)).1 = .ok (batch, sent) ∧
        ¬ExecuteFails world fuel commits source newObjects ∧
          PageDb.Prepared world.db commits batch sent ∧ called.1 = .ok () ∧
          called.2.db = world.db.writeAll batch ∧
          called.2.notified = world.notified ++ notifications world.watchers source sent := by
  intro called
  have calls := call_synchronousAddCommits fuel commits source newObjects world
  unfold ExecuteFails
  rcases prepares : world.call (beforeExecute fuel commits source newObjects) with
    ⟨fault | ⟨batch, sent⟩, next⟩
  all_goals
    obtain ⟨untouched, sound⟩ := beforeExecute_sound prepares
    rw [prepares] at calls
    simp only at calls
  · refine .inl ⟨fault, rfl, ?_⟩
    simp only [called, calls]
    exact ⟨trivial, untouched.db, untouched.notified⟩
  · have prepared := PageDb.prepareCommits_prepared (sound (batch, sent) rfl)
    simp only [called, calls, handle, access]
    rcases failures : next.failures with - | ⟨- | failure, rest⟩
    · refine .inr (.inr ⟨batch, sent, rfl, by simp, prepared, rfl, ?_, ?_⟩)
      · simp [untouched.db]
      · simp [untouched.notified, untouched.watchers, notifications]
    · refine .inr (.inr ⟨batch, sent, rfl, by simp, prepared, rfl, ?_, ?_⟩)
      · simp [untouched.db]
      · simp [untouched.notified, untouched.watchers, notifications]
    · refine .inr (.inl ⟨(batch, sent), rfl, ⟨failure, rest, rfl⟩, by simp [Except.mapError], ?_, ?_⟩)
      · simp [untouched.db]
      · simp [untouched.notified, untouched.watchers, notifications]

/-- The commits that are heard of are each heard of once when none is twice in the list. -/
theorem count_new_iff {db : PageDb} {commits sent : List (Commit formats)} {batch : List Write}
    (prepared : PageDb.Prepared db commits batch sent) :
    (∀ id, (db.writeAll batch).Contains id → ¬db.Contains id →
        (sent.map Commit.id).count id = 1) ↔ ((db.unstored commits).map Commit.id).Nodup := by
  have sameIds := prepared.perm.map Commit.id
  rw [← sameIds.nodup_iff, nodup_iff_count_le_one]
  have new : ∀ id, (db.writeAll batch).Contains id → ¬db.Contains id → id ∈ sent.map Commit.id := by
    intro id contains absent
    obtain ⟨commit, inCommits, rfl⟩ := ((prepared.contains_iff id).mp contains).resolve_left absent
    exact mem_map_of_mem (prepared.mem_sent.mpr ⟨inCommits, absent⟩)
  constructor
  · intro once id
    by_cases member : id ∈ sent.map Commit.id
    · obtain ⟨commit, isSent, rfl⟩ := mem_map.mp member
      obtain ⟨inCommits, absent⟩ := prepared.mem_sent.mp isSent
      exact (once commit.id ((prepared.contains_iff _).mpr (.inr ⟨commit, inCommits, rfl⟩))
        absent).le
    · rw [count_eq_zero_of_not_mem member]
      exact Nat.zero_le _
  · intro atMostOnce id contains absent
    exact le_antisymm (atMostOnce id) (count_pos_iff.mpr (new id contains absent))

/-- `SynchronousAddCommits` is all or nothing exactly when it fails before it executes its
batch, or nobody watches, or the batch is executed and no new commit is twice in the list. -/
theorem synchronousAddCommits_allOrNothing_iff (world : PageWorld formats) (fuel : Nat)
    (commits : List (Commit formats)) (source : ChangeSource) (newObjects : List ObjectIdentifier) :
    AllOrNothing world (world.call (synchronousAddCommits fuel commits source newObjects)) ↔
      (∃ fault, (world.call (beforeExecute fuel commits source newObjects)).1 = .error fault) ∨
        world.watchers = [] ∨
        (¬ExecuteFails world fuel commits source newObjects ∧
          ((world.db.unstored commits).map Commit.id).Nodup) := by
  rcases synchronousAddCommits_cases fuel commits source newObjects world with
    ⟨fault, prepares, result, sameDb, sameNotified⟩ |
      ⟨prepared, prepares, fails, result, sameDb, notified⟩ |
      ⟨batch, sent, prepares, executes, prepared, result, executed, notified⟩
  · refine iff_of_true ⟨fun _ => ⟨sameDb, sameNotified⟩, fun isOk => ?_⟩ (.inl ⟨fault, prepares⟩)
    exact nomatch result.symm.trans isOk
  · simp only [prepares, fails, reduceCtorEq, exists_false, not_true, false_and, or_false, false_or]
    constructor
    · intro allOrNothing
      have sameNotified := (allOrNothing.1 result).2
      rw [notified] at sameNotified
      exact map_eq_nil_iff.mp (append_right_eq_self.mp sameNotified)
    · intro noWatchers
      refine ⟨fun _ => ⟨sameDb, ?_⟩, fun isOk => absurd isOk result⟩
      rw [notified, noWatchers]
      exact append_nil _
  · simp only [prepares, executes, reduceCtorEq, exists_false, not_false_eq_true, true_and,
      false_or, ← count_new_iff prepared, ← executed]
    constructor
    · rintro ⟨-, onOk⟩
      obtain ⟨news, isNews, once, -⟩ := onOk result
      rw [notified] at isNews
      obtain rfl := append_cancel_left isNews
      refine Decidable.or_iff_not_imp_left.mpr fun watched id contains absent => ?_
      obtain ⟨watcher, isWatcher⟩ := exists_mem_of_ne_nil _ watched
      have counted := once watcher isWatcher id contains absent
      rw [count_heard] at counted
      exact Nat.eq_of_mul_eq_mul_left (count_pos_iff.mpr isWatcher) (by omega)
    · intro watchedOnce
      refine ⟨absurd result, fun _ => ⟨_, notified, ?_, ?_⟩⟩
      · intro watcher isWatcher id contains absent
        have once := watchedOnce.resolve_left (ne_nil_of_mem isWatcher)
        rw [count_heard, once id contains absent, Nat.mul_one]
      · intro notification isNews before commit after splits parentId isParent
        obtain ⟨watcher, -, rfl⟩ := mem_map.mp isNews
        exact (prepared.inOrder.earlier splits isParent).imp_right fun earlier =>
          earlier.resolve_left not_mem_nil

def watchedPage : PageWorld sampleFormats :=
  { emptyPage sampleFormats with
    watchers := [1]
    failures := List.replicate 6 none ++ [some .internalIoError] }

/-- The batch is not executed, and the watcher hears of the commit. -/
theorem synchronousAddCommits_notifies_failure :
    let called := watchedPage.call
      (synchronousAddCommits 0 [sampleCommit 1 [0] (by decide)] .sync [])
    called.1 = .error (.status .internalIoError) ∧
      called.2.notified.map (fun notification => notification.commits.map Commit.id) = [[[1]]] ∧
      ¬AllOrNothing watchedPage called := by
  intro called
  have failed : called.1 = .error (.status .internalIoError) := rfl
  have heardOf : called.2.notified.map (fun notification =>
      notification.commits.map Commit.id) = [[[1]]] := rfl
  refine ⟨failed, heardOf, fun allOrNothing => ?_⟩
  have sameNotified := (allOrNothing.1 (by simp [failed])).2
  rw [sameNotified] at heardOf
  exact absurd heardOf (by decide)

end PageWorld

end Peridot
