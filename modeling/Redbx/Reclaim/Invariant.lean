import Mathlib.Data.List.Nodup
import Redbx.Reclaim.Machine

/-
  The invariant of page reclamation.

  A view is a root somebody may still read, together with the transaction id that protects it. The
  books of a transaction are sound when the pages they list as its own are in use and listed once,
  when the same holds of the pages they would list after restoring any valid savepoint, and when no
  view reaches a page that the freed tables give to a transaction the view does not outlive.

  Key theorems include:
    * `Inv.setWriter`, `inv_init`
-/

namespace Redbx.Reclaim

open List

variable {P : Type} [DecidableEq P]

-- Views

namespace Database

/- A savepoint that may be restored. -/
def Valid (db : Database P) (s : Savepoint P) : Prop :=
  s ∈ db.savepoints ∧ db.tracker.isValidSavepoint s.id = true

/-
  The root `R` may be read, protected by the id `x`. Readers count only where they are watched: what
  holds of the books does not rest on them.
-/
def View (db : Database P) (watch : Bool) (x : Nat) (R : Finset P) : Prop :=
  (x = db.latest.transactionId ∧ R = db.latest.dataPages) ∨
    (x = db.durable.transactionId ∧ R = db.durable.dataPages) ∨
    (watch = true ∧ (⟨x, some R⟩ : Reader P) ∈ db.readers) ∨
    ∃ s, db.Valid s ∧ x = s.transactionId ∧ R = s.userRoot

end Database

-- Books

namespace Books

/- The pages of the data tree, and those it let go of. -/
def current (b : Books P) : Multiset P :=
  b.dataPages.val + ↑b.freedPages + pagesOf b.system.dataFreed

/- The same, were the savepoint restored. -/
def since (b : Books P) (s : Savepoint P) : Multiset P :=
  s.userRoot.val + pagesOf (after s.transactionId b.system.dataAllocated) +
    ↑(b.allocatedPages.getD []) +
    pagesOf (upTo s.transactionId b.system.dataFreed)

/- The pages of the system tree, and those it let go of. -/
def systemSide (b : Books P) : Multiset P :=
  b.system.pages.val + ↑(b.systemFreedPages ++ b.postCommitFrees) + pagesOf b.system.systemFreed

/- The books account for pages of `A`. -/
structure Sound
    (b : Books P) (A : Finset P) (Saved : Savepoint P → Prop) (View : Nat → Finset P → Prop) :
    Prop where
  current : Held A (b.current + b.systemSide)
  saved : ∀ s, Saved s → Held A (b.since s + b.systemSide)
  apart : ∀ x R, View x R → ∀ p ∈ R, p ∉ b.systemSide ∧ ∀ r, (r, p) ∈ b.system.dataFreed → x < r

variable {b b' : Books P} {A A' : Finset P} {Saved Saved' : Savepoint P → Prop}
    {View View' : Nat → Finset P → Prop}

omit [DecidableEq P] in
/- Fewer savepoints, and views protected as well as before. -/
theorem Sound.weaken (hSound : b.Sound A Saved View) (hSaved : ∀ s, Saved' s → Saved s)
    (hView : ∀ x R, View' x R → ∃ y, x ≤ y ∧ View y R) :
    b.Sound A Saved' View' where
  current := hSound.current
  saved := fun s hs => hSound.saved s (hSaved s hs)
  apart := fun x R hR p hp => by
    rcases hView x R hR with ⟨y, hLe, hOld⟩
    rcases hSound.apart y R hOld p hp with ⟨hSide, hFreed⟩
    exact ⟨hSide, fun r hr => hLe.trans_lt (hFreed r hr)⟩

omit [DecidableEq P] in
/- A page of the data tree is on no other list. -/
theorem Sound.data_apart (hSound : b.Sound A Saved View) {p : P} (hp : p ∈ b.dataPages) :
    p ∈ A ∧ p ∉ b.freedPages ∧ p ∉ pagesOf b.system.dataFreed ∧ p ∉ b.systemSide := by
  have hHolds := hSound.current
  rw [Books.current, add_assoc, add_assoc] at hHolds
  have hNot := hHolds.not_mem_right hp
  rw [Multiset.mem_add, Multiset.mem_add] at hNot
  refine ⟨hHolds.mem (Multiset.mem_add.mpr (Or.inl hp)), ?_⟩
  refine ⟨?_, ?_, ?_⟩
  · exact fun hIn => hNot (Or.inl hIn)
  · exact fun hIn => hNot (Or.inr (Or.inl hIn))
  · exact fun hIn => hNot (Or.inr (Or.inr hIn))

end Books

-- References

/- What the tracker knows of readers, savepoints, commits. -/
structure Refs
    (tracker : TransactionTracker) (durable latest : Commit P) (readers : List (Reader P))
    (savepoints : List (Savepoint P)) :
    Prop where
  live : (↑tracker.liveReadTransactions : Multiset Nat) =
      ↑(readers.map Reader.transactionId) + ↑(savepoints.map Savepoint.transactionId) +
        ↑(tracker.pendingNonDurableCommits.map Prod.snd)
  readers_le : ∀ r ∈ readers, r.transactionId ≤ latest.transactionId
  ordered : savepoints.Pairwise fun s s' => s.id < s'.id ∧ s.transactionId ≤ s'.transactionId
  savepoints_le : ∀ s ∈ savepoints, s.id ≤ tracker.nextSavepointId ∧
        s.transactionId ≤ latest.transactionId
  valid : tracker.validSavepoints.Sublist (savepoints.map fun s => (s.id, s.transactionId))
  pending : ∀ q ∈ tracker.pendingNonDurableCommits, q.2 = durable.transactionId ∧
        durable.transactionId < q.1 ∧
        q.1 ≤ latest.transactionId
  settled : tracker.pendingNonDurableCommits = [] → durable = latest
  durable_le : durable.transactionId ≤ latest.transactionId
  next_le : latest.transactionId ≤ tracker.nextTransactionId

namespace Refs

variable {tracker : TransactionTracker} {durable latest : Commit P} {readers : List (Reader P)}
    {savepoints : List (Savepoint P)}

variable (hRefs : Refs tracker durable latest readers savepoints)
include hRefs
omit [DecidableEq P]

theorem savepoint_ext {s s' : Savepoint P}
    (hs : s ∈ savepoints) (hs' : s' ∈ savepoints) (hId : s.id = s'.id) :
    s = s' := by
  have hNodup : (savepoints.map Savepoint.id).Nodup :=
    pairwise_map.mpr (hRefs.ordered.imp fun h => h.1.ne)
  exact inj_on_of_nodup_map hNodup hs hs' hId

theorem savepoint_mono {s s' : Savepoint P}
    (hs : s ∈ savepoints) (hs' : s' ∈ savepoints) (hId : s.id ≤ s'.id) :
    s.transactionId ≤ s'.transactionId := by
  have hOrdered := hRefs.ordered
  clear hRefs
  induction savepoints with
  | nil => exact absurd hs not_mem_nil
  | cons _ _ ih =>
    rcases pairwise_cons.mp hOrdered with ⟨hFirst, hRest⟩
    rcases mem_cons.mp hs with hEq | hIn
    · rcases mem_cons.mp hs' with hEq' | hIn'
      · rw [hEq, hEq']
      · rw [hEq]
        exact (hFirst s' hIn').2
    · rcases mem_cons.mp hs' with hEq' | hIn'
      · rw [hEq'] at hId
        exact absurd ((hFirst s hIn).1.trans_le hId) (lt_irrefl _)
      · exact ih hIn hIn' hRest

theorem savepoints_nodup : savepoints.Nodup := hRefs.ordered.imp fun h hEq => h.1.ne (by rw [hEq])

end Refs

-- Invariant

/- Before the commit, the last commit is still intact. -/
structure Editing (watch : Bool) (db : Database P) (w : WriteTransaction P) : Prop where
  committed : db.latest.books.Sound (db.allocated \ db.uncommitted) db.Valid (db.View watch)
  freed : w.books.system.dataFreed.Sublist db.latest.system.dataFreed
  allocations : w.books.system.dataAllocated = db.latest.system.dataAllocated
  clean : w.dirty = false → w.books.dataPages = db.latest.dataPages ∧ w.books.freedPages = [] ∧
        w.books.allocatedPages = some [] ∧
        w.books.system.dataFreed = db.latest.system.dataFreed

structure WriterOk (watch : Bool) (db : Database P) (w : WriteTransaction P) : Prop where
  id_gt : db.latest.transactionId < w.transactionId
  id_le : w.transactionId ≤ db.tracker.nextTransactionId
  freed_ids : ∀ e ∈ w.books.system.dataFreed, e.1 ≤ db.latest.transactionId ∨ e.1 = w.transactionId
  allocated_ids : ∀ e ∈ w.books.system.dataAllocated,
      e.1 ≤ db.latest.transactionId ∨ e.1 = w.transactionId
  ignored : w.books.allocatedPages = none → db.tracker.validSavepoints = []
  persistent_nodup : (w.books.system.savepoints ++ w.deletedPersistentSavepoints).Nodup
  persistent : ∀ s ∈ w.books.system.savepoints ++ w.deletedPersistentSavepoints,
      s ∈ db.savepoints ∧ s.ephemeral = false
  sound : w.books.Sound db.allocated db.Valid (db.View watch)
  editing : w.stage = .editing → Editing watch db w

structure Inv (watch : Bool) (db : Database P) : Prop where
  refs : Refs db.tracker db.durable db.latest db.readers db.savepoints
  views : ∀ x R, db.View watch x R → ∀ p ∈ R, p ∈ db.allocated ∧ p ∉ db.uncommitted ∧
          (p ∈ db.unpersisted → db.tracker.isPending x = true)
  freed_ids : ∀ e ∈ db.latest.system.dataFreed, e.1 ≤ db.latest.transactionId
  allocated_ids : ∀ e ∈ db.latest.system.dataAllocated, e.1 ≤ db.latest.transactionId
  persistent_nodup : db.latest.system.savepoints.Nodup
  persistent : ∀ s ∈ db.latest.system.savepoints, s ∈ db.savepoints ∧ s.ephemeral = false
  idle : db.writer = none → db.uncommitted = ∅ ∧
        db.latest.books.Sound db.allocated db.Valid (db.View watch)
  writing : ∀ w, db.writer = some w → WriterOk watch db w

namespace Inv

variable {watch : Bool} {db : Database P} {w w' : WriteTransaction P} {A U : Finset P}

/- A step that only concerns the pages of the writer. -/
theorem setWriter (hInv : Inv watch db) (hViews : ∀ x R, db.View watch x R → ∀ p ∈ R, p ∈ A ∧ p ∉ U)
    (hWriter : WriterOk watch
        { db with allocated := A, uncommitted := U, writer := some w' }
        w') :
    Inv watch
      { db with allocated := A, uncommitted := U, writer := some w' } := { hInv with
  views := fun x R hR p hp => ⟨(hViews x R hR p hp).1, (hViews x R hR p hp).2,
      (hInv.views x R hR p hp).2.2⟩
  idle := fun hNone => by cases hNone
  writing := fun w hEq => by
    cases hEq
    exact hWriter }

/- A step that leaves the pages in use alone. -/
theorem setBooks (hInv : Inv watch db) (hWriter : WriterOk watch { db with writer := some w' } w') :
    Inv watch { db with writer := some w' } :=
  hInv.setWriter (fun x R hR p hp => ⟨(hInv.views x R hR p hp).1, (hInv.views x R hR p hp).2.1⟩)
    hWriter

end Inv

omit [DecidableEq P] in
theorem view_savepoint {watch : Bool} {db : Database P} {s : Savepoint P} (hValid : db.Valid s) :
    db.View watch s.transactionId s.userRoot :=
  Or.inr (Or.inr (Or.inr ⟨s, hValid, rfl, rfl⟩))

end Redbx.Reclaim
