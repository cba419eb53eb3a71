import Redbx.Reclaim.Pages

/-
  Readers and savepoints.

  A reader or a savepoint takes a reference on the id of the last commit and gives it back once.
  Restoring a savepoint trades the books for the ones the savepoint was promised, as long as the
  transaction has not queued pages itself.

  Key theorems include:
    * `inv_dropSavepoint`, `inv_restoreSavepoint`
-/

namespace Redbx.Reclaim

open List Database

variable {P : Type} [DecidableEq P] {watch : Bool} {db db' : Database P} {w : WriteTransaction P}

-- References

namespace Refs

variable
    {tracker : TransactionTracker} {durable latest : Commit P} {readers readers' : List (Reader P)}
    {savepoints : List (Savepoint P)}

variable (hRefs : Refs tracker durable latest readers savepoints)
include hRefs

omit [DecidableEq P] in
theorem setReaders
    (hIds : (readers'.map Reader.transactionId).Perm (readers.map Reader.transactionId)) :
    Refs tracker durable latest readers' savepoints := { hRefs with
  live := by
    rw [Multiset.coe_eq_coe.mpr hIds]
    exact hRefs.live
  readers_le := fun r hr => by
    have hIn := hIds.subset (mem_map.mpr ⟨r, hr, rfl⟩)
    rcases mem_map.mp hIn with ⟨r', hr', hEq⟩
    exact hEq ▸ hRefs.readers_le r' hr' }

omit [DecidableEq P] in
theorem registerRead (root : Option (Finset P)) :
    Refs (tracker.registerReadTransaction latest.transactionId) durable latest
      (⟨latest.transactionId, root⟩ :: readers) savepoints := { hRefs with
  live := by
    change (↑(_ :: tracker.liveReadTransactions) : Multiset Nat) =
        (↑(_ :: readers.map Reader.transactionId) : Multiset Nat) + _ + _
    rw [← Multiset.cons_coe, hRefs.live, ← Multiset.cons_coe, Multiset.cons_add, Multiset.cons_add]
    rfl
  readers_le := fun r hr => by
    rcases mem_cons.mp hr with rfl | hr
    · exact le_rfl
    · exact hRefs.readers_le r hr }

theorem endRead {r : Reader P} (hr : r ∈ readers) :
    Refs (tracker.deallocateReadTransaction r.transactionId)
      durable latest (readers.erase r) savepoints := { hRefs with
  live := by
    have hPerm := (perm_cons_erase hr).map Reader.transactionId
    change (↑(tracker.liveReadTransactions.erase _) : Multiset Nat) = _
    rw [← Multiset.coe_erase, hRefs.live, Multiset.coe_eq_coe.mpr hPerm, map_cons,
      ← Multiset.cons_coe, Multiset.cons_add, Multiset.cons_add, Multiset.erase_cons_head]
    rfl
  readers_le := fun r' hr' => hRefs.readers_le r' (mem_of_mem_erase hr') }

omit [DecidableEq P] in
theorem allocateSavepoint (ephemeral : Bool) :
    Refs ((tracker.registerReadTransaction latest.transactionId).allocateSavepoint
          latest.transactionId).2
      durable latest readers
      (savepoints ++ [⟨tracker.nextSavepointId + 1, latest.transactionId,
          latest.dataPages, ephemeral⟩]) := { hRefs with
  live := by
    change (↑(_ :: tracker.liveReadTransactions) : Multiset Nat) = _
    rw [← Multiset.cons_coe, hRefs.live, map_append, ← Multiset.coe_add]
    simp only [map_cons, map_nil, Multiset.coe_singleton, ← Multiset.singleton_add]
    simp only [add_left_comm, add_comm]
    rfl
  ordered := by
    refine pairwise_append.mpr ⟨hRefs.ordered, pairwise_singleton _ _, ?_⟩
    intro s hs s' hs'
    rcases hRefs.savepoints_le s hs with ⟨hId, hTxn⟩
    rw [mem_singleton.mp hs']
    exact ⟨Nat.lt_succ_of_le hId, hTxn⟩
  savepoints_le := fun s hs => by
    change s.id ≤ tracker.nextSavepointId + 1 ∧ _
    rcases mem_append.mp hs with hs | hs
    · rcases hRefs.savepoints_le s hs with ⟨hId, hTxn⟩
      exact ⟨hId.trans (Nat.le_succ _), hTxn⟩
    · rw [mem_singleton.mp hs]
      exact ⟨le_rfl, le_rfl⟩
  valid := by
    rw [map_append]
    exact hRefs.valid.append (List.Sublist.refl _) }

theorem deallocateSavepoint {s : Savepoint P} (hs : s ∈ savepoints) :
    Refs (tracker.deallocateSavepoint s.id s.transactionId) durable latest readers
      (savepoints.filter fun s' => s'.id != s.id) := { hRefs with
  live := by
    have hErase : (savepoints.filter fun s' => s'.id != s.id) = savepoints.erase s := by
      rw [hRefs.savepoints_nodup.erase_eq_filter]
      refine filter_congr fun s' hs' => ?_
      by_cases hId : s'.id = s.id
      · simp [hRefs.savepoint_ext hs' hs hId]
      · have hNe : s' ≠ s := fun hEq => hId (by rw [hEq])
        rw [bne_iff_ne.mpr hId, bne_iff_ne.mpr hNe]
    have hPerm := (perm_cons_erase hs).map Savepoint.transactionId
    change (↑(tracker.liveReadTransactions.erase _) : Multiset Nat) = _
    rw [hErase, ← Multiset.coe_erase, hRefs.live, Multiset.coe_eq_coe.mpr hPerm, map_cons,
      ← Multiset.cons_coe, Multiset.add_cons, Multiset.cons_add, Multiset.erase_cons_head]
    rfl
  ordered := hRefs.ordered.sublist filter_sublist
  savepoints_le := fun s' hs' => hRefs.savepoints_le s' (mem_of_mem_filter hs')
  valid := by
    have hFilter := hRefs.valid.filter (·.1 != s.id)
    rw [filter_map] at hFilter
    exact hFilter }

/- The references of several savepoints are given back. -/
theorem deallocateSavepoints {released : List (Savepoint P)}
    (hNodup : released.Nodup) (hIn : ∀ s ∈ released, s ∈ savepoints) :
    Refs (released.foldl (fun tracker s => tracker.deallocateSavepoint s.id s.transactionId)
        tracker)
      durable latest readers
      (savepoints.filter fun s => !(released.map Savepoint.id).contains s.id) := by
  induction released generalizing tracker savepoints with
  | nil => simpa using hRefs
  | cons s rest ih =>
    have hs := hIn s mem_cons_self
    have hRest : ∀ s' ∈ rest, s' ∈ savepoints.filter fun s' => s'.id != s.id := by
      intro s' hs'
      have hOld := hIn s' (mem_cons_of_mem s hs')
      refine mem_filter.mpr ⟨hOld, ?_⟩
      refine bne_iff_ne.mpr fun hId => ?_
      rw [hRefs.savepoint_ext hOld hs hId] at hs'
      exact (nodup_cons.mp hNodup).1 hs'
    have hStep := ih (hRefs.deallocateSavepoint hs) (nodup_cons.mp hNodup).2 hRest
    rw [filter_filter] at hStep
    rw [foldl_cons]
    convert hStep using 3
    simp only [map_cons, contains_cons, Bool.not_or]
    exact Bool.and_comm _ _

omit [DecidableEq P] in
theorem invalidateAfter (id : Nat) :
    Refs (tracker.invalidateSavepointsAfter id) durable latest readers savepoints := { hRefs with
  valid := filter_sublist.trans hRefs.valid }

end Refs

omit [DecidableEq P] in
/- What giving references back leaves of a tracker. -/
theorem deallocate_tracker (released : List (Savepoint P)) (tracker : TransactionTracker) :
    (released.foldl (fun tracker s => tracker.deallocateSavepoint s.id s.transactionId)
          tracker).nextTransactionId =
        tracker.nextTransactionId ∧
      (released.foldl (fun tracker s => tracker.deallocateSavepoint s.id s.transactionId)
          tracker).validSavepoints.Sublist
        tracker.validSavepoints ∧
      (released.foldl (fun tracker s => tracker.deallocateSavepoint s.id s.transactionId)
          tracker).pendingNonDurableCommits =
        tracker.pendingNonDurableCommits := by
  induction released generalizing tracker with
  | nil => exact ⟨rfl, List.Sublist.refl _, rfl⟩
  | cons s rest ih =>
    rcases ih (tracker.deallocateSavepoint s.id s.transactionId) with ⟨hNext, hSub, hPending⟩
    exact ⟨hNext, hSub.trans filter_sublist, hPending⟩

omit [DecidableEq P] in
variable {s : Savepoint P}

variable (hInv : Inv watch db)
include hInv

/-
  A step of readers and savepoints after which every view is protected as well as a view was before.
-/
theorem Inv.observe {tracker : TransactionTracker} {readers : List (Reader P)}
    {savepoints : List (Savepoint P)} (hDb : db' =
        { db with tracker := tracker, readers := readers, savepoints := savepoints })
    (hRefs : Refs tracker db.durable db.latest readers savepoints)
    (hNext : tracker.nextTransactionId = db.tracker.nextTransactionId)
    (hSub : tracker.validSavepoints.Sublist db.tracker.validSavepoints)
    (hSaved : ∀ s ∈ savepoints, s ∈ db.savepoints)
    (hView : ∀ x R, db'.View watch x R → ∃ y, x ≤ y ∧ db.View watch y R ∧
          (db.tracker.isPending y = true → tracker.isPending x = true))
    (hLatest : ∀ s ∈ db.latest.system.savepoints, s ∈ savepoints)
    (hWriter : ∀ w, db.writer = some w → ∀ s ∈ w.books.system.savepoints ++
            w.deletedPersistentSavepoints,
          s ∈ savepoints) :
    Inv watch db' := by
  subst hDb
  have hValid : ∀ s, Database.Valid
          { db with tracker := tracker, readers := readers, savepoints := savepoints } s →
          db.Valid s := by
    intro s hs
    refine ⟨hSaved s hs.1, contains_iff_mem.mpr ?_⟩
    exact (hSub.map Prod.fst).subset (contains_iff_mem.mp hs.2)
  have hWeak : ∀ {b : Books P} {A : Finset P}, b.Sound A db.Valid (db.View watch) →
          b.Sound A (Database.Valid
              { db with tracker := tracker, readers := readers, savepoints := savepoints })
            (Database.View
              { db with tracker := tracker, readers := readers, savepoints := savepoints }
              watch) := by
    intro b A hSound
    refine hSound.weaken hValid fun x R hR => ?_
    rcases hView x R hR with ⟨y, hLe, hOld, _⟩
    exact ⟨y, hLe, hOld⟩
  refine
    { hInv with
      refs := hRefs
      views := fun x R hR p hp => ?_
      persistent := fun s hs => ⟨hLatest s hs, (hInv.persistent s hs).2⟩
      idle := fun hNone => ⟨(hInv.idle hNone).1, hWeak (hInv.idle hNone).2⟩
      writing := fun w hw => ?_ }
  · rcases hView x R hR with ⟨y, _, hOld, hPending⟩
    rcases hInv.views y R hOld p hp with ⟨hA, hU, hN⟩
    exact ⟨hA, hU, fun hIn => hPending (hN hIn)⟩
  · have hW := hInv.writing w hw
    exact
      { hW with
        id_le := hW.id_le.trans (le_of_eq hNext.symm)
        ignored := fun hNone => sublist_nil.mp (hW.ignored hNone ▸ hSub)
        persistent := fun s hs => ⟨hWriter w hw s hs, (hW.persistent s hs).2⟩
        sound := hWeak hW.sound
        editing := fun hStage =>
          { committed := hWeak (hW.editing hStage).committed
            freed := (hW.editing hStage).freed
            allocations := (hW.editing hStage).allocations
            clean := (hW.editing hStage).clean } }

variable {id : Nat}

omit hInv in
theorem WriterOk.setPersistent
    (hW : WriterOk watch db w) {table deleted : List (Savepoint P)} {created : List Nat}
    (hNodup : (table ++ deleted).Nodup)
    (hIn : ∀ s ∈ table ++ deleted, s ∈ db.savepoints ∧ s.ephemeral = false)
    (writer : Option (WriteTransaction P)) :
    WriterOk watch { db with writer := writer }
      { w with
        books :=
          { w.books with system := { w.books.system with savepoints := table } }
        createdPersistentSavepoints := created
        deletedPersistentSavepoints := deleted } := { hW with
  persistent_nodup := hNodup
  persistent := hIn
  sound :=
    { hW.sound with }
  editing := fun hStage => { hW.editing hStage with } }

omit hInv in
/- A deleted savepoint moves from the table to the list. -/
theorem WriterOk.deletePersistent
    (hW : WriterOk watch db w) (id : Nat) (writer : Option (WriteTransaction P)) :
    WriterOk watch { db with writer := writer } (Database.deletePersistent w id) := by
  rw [Database.deletePersistent]
  split
  · exact hW.setPersistent hW.persistent_nodup hW.persistent _
  · rename_i s hFind
    have hs := mem_of_find?_eq_some hFind
    have hPerm : (w.books.system.savepoints.erase s ++ (w.deletedPersistentSavepoints ++ [s])).Perm
          (w.books.system.savepoints ++ w.deletedPersistentSavepoints) := by
      refine List.Perm.symm ?_
      refine ((perm_cons_erase hs).append_right _).trans ?_
      rw [cons_append, ← append_assoc]
      exact (perm_append_singleton _ _).symm
    refine hW.setPersistent (hPerm.nodup_iff.mpr hW.persistent_nodup) ?_ _
    intro s' hs'
    exact hW.persistent s' (hPerm.subset hs')

omit hInv

omit [DecidableEq P] in
theorem Books.Sound.restore
    {b : Books P} {A : Finset P} {Saved : Savepoint P → Prop} {View : Nat → Finset P → Prop}
    (hSound : b.Sound A Saved View) (hSaved : Saved s) (hEmpty : b.freedPages = []) :
    (Database.restoreBooks b s).Sound A Saved View where
  current := by
    refine (hSound.saved s hSaved).mono ?_
    refine add_le_add_left ?_ b.systemSide
    simp only [Books.current, Books.since, Database.restoreBooks, hEmpty, nil_append]
    refine add_le_add_left ?_ _
    exact Multiset.le_add_right _ _
  saved := fun s' hs' => by
    refine (hSound.saved s' hs').mono ?_
    refine add_le_add_left ?_ b.systemSide
    exact add_le_add_right (pagesOf_le upTo_upTo_sublist) _
  apart := fun x R hR p hp => by
    rcases hSound.apart x R hR p hp with ⟨hSide, hFreed⟩
    exact ⟨hSide, fun r hr => hFreed r (mem_upTo.mp hr).1⟩

theorem WriterOk.restore
    (hW : WriterOk watch db w) (hStage : w.stage = .editing) (hValid : db.Valid s)
    (hEmpty : w.books.freedPages = []) (writer : Option (WriteTransaction P)) :
    WriterOk watch { db with writer := writer }
      { w with dirty := true, books := Database.restoreBooks w.books s } := { hW with
  freed_ids := fun e he => hW.freed_ids e (mem_upTo.mp he).1
  sound := hW.sound.restore hValid hEmpty
  editing := fun _ =>
    { committed := (hW.editing hStage).committed
      freed := filter_sublist.trans (hW.editing hStage).freed
      allocations := (hW.editing hStage).allocations
      clean := fun hEq => by cases hEq } }

end Redbx.Reclaim
