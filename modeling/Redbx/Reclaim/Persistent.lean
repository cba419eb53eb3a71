import Redbx.Reclaim.Safety

/-
  Persistent savepoints in the table and in the tracker.

  The table of savepoints is part of the system tree and follows the transaction: an abort takes its
  changes back. The tracker is changed at once. Between transactions both agree as long as no
  aborted transaction created a persistent savepoint or restored past one, and none is restored past
  with a durability that forbids to delete it.

  A run starts from a database that was just opened, with the savepoints its table lists.

  Key theorems include:
    * `tracked_step`, `savepoints_agree_between_transactions`
-/

namespace Redbx.Reclaim

open List Database

variable {P : Type} [DecidableEq P]

-- Opening

/- A stored savepoint is put back into the tracker. -/
def TransactionTracker.registerPersistentSavepoint (t : TransactionTracker) (s : Savepoint P) :
    TransactionTracker :=
  { t with
    liveReadTransactions :=
      s.transactionId :: t.liveReadTransactions
    validSavepoints :=
      t.validSavepoints ++ [(s.id, s.transactionId)] }

/-
  A database that was just opened. The savepoints of the table are registered inside a write
  transaction of its own, which is then aborted.
-/
def Database.opened (commit : Commit P) (allocated : Finset P) (nextSavepoint : Nat) :
    Database P where
  tracker :=
    commit.system.savepoints.foldl TransactionTracker.registerPersistentSavepoint
      { (TransactionTracker.new
          (commit.transactionId + 1)).startWriteTransaction.2 with
        nextSavepointId := nextSavepoint }
  allocated := allocated
  uncommitted := ∅
  unpersisted := ∅
  durable := commit
  latest := commit
  readers := []
  savepoints := commit.system.savepoints
  writer := none

/- The table as commits leave it, below the stored counter. -/
structure StoredSavepoints (commit : Commit P) (nextSavepoint : Nat) : Prop where
  persistent : ∀ s ∈ commit.system.savepoints, s.ephemeral = false
  ordered : commit.system.savepoints.Pairwise fun s s' =>
      s.id < s'.id ∧ s.transactionId ≤ s'.transactionId
  bounded : ∀ s ∈ commit.system.savepoints, s.id ≤ nextSavepoint ∧
        s.transactionId ≤ commit.transactionId

-- Agreement

/- The ephemeral savepoints whose handle is not dropped. -/
def Database.ephemerals (db : Database P) : List (Savepoint P) :=
  db.savepoints.filter fun s => s.ephemeral

/- What the tracker keeps of a savepoint. -/
def Savepoint.entry (s : Savepoint P) : Nat × Nat := (s.id, s.transactionId)

/-
  Apart from the ephemeral ones, the valid savepoints are those of the table, and apart from
  readers, ephemeral savepoints and pending commits, the references are one for each savepoint of
  the table.
-/
structure SavepointsAgree (db : Database P) : Prop where
  valid : ∀ entry, entry ∈ db.tracker.validSavepoints ∧ entry ∉ db.ephemerals.map Savepoint.entry ↔
        entry ∈ db.latest.system.savepoints.map Savepoint.entry
  references : (↑db.tracker.liveReadTransactions : Multiset Nat) =
      ↑(db.latest.system.savepoints.map Savepoint.transactionId) +
        (↑(db.readers.map Reader.transactionId) + ↑(db.ephemerals.map Savepoint.transactionId) +
          ↑(db.tracker.pendingNonDurableCommits.map Prod.snd))

/-
  An aborted transaction has created no persistent savepoint, and those it deleted are still valid:
  it did not restore past them. A restore below immediate durability leaves no newer savepoint in
  the table.
-/
def keepsSavepoints (db : Database P) : Event P → Bool
  | .abort =>
    match db.writer with
    | none => true
    | some w =>
      w.createdPersistentSavepoints.isEmpty &&
        w.deletedPersistentSavepoints.all fun s => db.tracker.isValidSavepoint s.id
  | .restoreSavepoint s =>
    match db.writer with
    | none => true
    | some w =>
      w.durable || w.books.system.savepoints.all fun s' => decide (s'.id ≤ s.id)
  | _ => true

/- The states of runs whose steps all keep savepoints. -/
inductive OpenedReachable : Database P → Prop
  | opened (commit : Commit P) (allocated : Finset P) (nextSavepoint : Nat)
      (hStored : StoredSavepoints commit nextSavepoint) :
      OpenedReachable (Database.opened commit allocated nextSavepoint)
  | step {db db' : Database P} (event : Event P) (hReach : OpenedReachable db)
      (hKeeps : keepsSavepoints db event = true) (hStep : db.step event = some db') :
      OpenedReachable db'

-- Invariant

/- The persistent ones among the savepoints. -/
def persistentOf (savepoints : List (Savepoint P)) : List (Savepoint P) :=
  savepoints.filter fun s => !s.ephemeral

/- The table of the writer, and what it has deleted. -/
structure WriterTracks (db : Database P) (w : WriteTransaction P) : Prop where
  id_gt : db.latest.transactionId < w.transactionId
  id_le : w.transactionId ≤ db.tracker.nextTransactionId
  kept : (w.books.system.savepoints ++ w.deletedPersistentSavepoints).Perm
        (persistentOf db.savepoints)
  valid : ∀ s ∈ w.books.system.savepoints, db.tracker.isValidSavepoint s.id = true
  created : w.createdPersistentSavepoints = [] → db.latest.system.savepoints.Perm
        (persistentOf db.savepoints)

structure Tracked (db : Database P) : Prop where
  refs : Refs db.tracker db.durable db.latest db.readers db.savepoints
  idle : db.writer = none → db.latest.system.savepoints.Perm (persistentOf db.savepoints) ∧
        ∀ s ∈ db.latest.system.savepoints, db.tracker.isValidSavepoint s.id = true
  writing : ∀ w, db.writer = some w → WriterTracks db w

variable {s : Savepoint P} {savepoints : List (Savepoint P)} {tracker : TransactionTracker}

omit [DecidableEq P] in
theorem Refs.valid_iff {durable latest : Commit P} {readers : List (Reader P)}
    (hRefs : Refs tracker durable latest readers savepoints) (hs : s ∈ savepoints) :
    tracker.isValidSavepoint s.id = true ↔ s.entry ∈ tracker.validSavepoints := by
  refine ⟨?_, ?_⟩
  · intro hValid
    rcases mem_map.mp (contains_iff_mem.mp hValid) with ⟨q, hq, hId⟩
    rcases mem_map.mp (hRefs.valid.subset hq) with ⟨s', hs', rfl⟩
    rw [hRefs.savepoint_ext hs hs' hId.symm]
    exact hq
  · intro hEntry
    exact contains_iff_mem.mpr (mem_map.mpr ⟨s.entry, hEntry, rfl⟩)

variable {db : Database P}

omit [DecidableEq P] in
/- Between transactions the invariant is agreement. -/
theorem Tracked.agree (hTracked : Tracked db) (hIdle : db.writer = none) : SavepointsAgree db := by
  have hRefs := hTracked.refs
  rcases hTracked.idle hIdle with ⟨hPerm, hValid⟩
  refine ⟨?_, ?_⟩
  · intro entry
    refine ⟨?_, ?_⟩
    · rintro ⟨hEntry, hNot⟩
      rcases mem_map.mp (hRefs.valid.subset hEntry) with ⟨s, hs, rfl⟩
      refine mem_map.mpr ⟨s, hPerm.symm.subset ?_, rfl⟩
      refine mem_filter.mpr ⟨hs, ?_⟩
      cases hEphemeral : s.ephemeral with
      | false => rfl
      | true => exact absurd (mem_map.mpr ⟨s, mem_filter.mpr ⟨hs, hEphemeral⟩, rfl⟩) hNot
    · intro hEntry
      rcases mem_map.mp hEntry with ⟨s, hs, rfl⟩
      have hIn := mem_filter.mp (hPerm.subset hs)
      refine ⟨(hRefs.valid_iff hIn.1).mp (hValid s hs), ?_⟩
      intro hEphemeral
      rcases mem_map.mp hEphemeral with ⟨s', hs', hEq⟩
      have hIn' := mem_filter.mp hs'
      have hSame := hRefs.savepoint_ext hIn'.1 hIn.1 (congrArg Prod.fst hEq)
      rw [hSame] at hIn'
      rw [hIn'.2] at hIn
      exact absurd hIn.2 Bool.false_ne_true
  · have hSplit : (↑(db.savepoints.map Savepoint.transactionId) : Multiset Nat) =
          ↑(db.latest.system.savepoints.map Savepoint.transactionId) +
            ↑(db.ephemerals.map Savepoint.transactionId) := by
      rw [Multiset.coe_eq_coe.mpr (hPerm.map Savepoint.transactionId),
        add_comm, Multiset.coe_add, ← map_append]
      refine Multiset.coe_eq_coe.mpr (List.Perm.map _ ?_)
      exact (filter_append_perm _ _).symm
    rw [hRefs.live, hSplit]
    ac_rfl

-- A database that was just opened

omit [DecidableEq P] in
theorem registerAll_eq (stored : List (Savepoint P)) (t : TransactionTracker) :
    stored.foldl TransactionTracker.registerPersistentSavepoint t =
      { t with
        liveReadTransactions :=
          (stored.map Savepoint.transactionId).reverse ++ t.liveReadTransactions
        validSavepoints :=
          t.validSavepoints ++ stored.map Savepoint.entry } := by
  induction stored generalizing t with
  | nil =>
    rw [foldl_nil, map_nil, map_nil, append_nil]
    rfl
  | cons s rest ih =>
    rw [foldl_cons, ih]
    simp only [TransactionTracker.registerPersistentSavepoint,
      map_cons, reverse_cons, append_assoc, cons_append, nil_append]
    rfl

omit [DecidableEq P] in
theorem tracked_opened {commit : Commit P} (allocated : Finset P) {nextSavepoint : Nat}
    (hStored : StoredSavepoints commit nextSavepoint) :
    Tracked (Database.opened commit allocated nextSavepoint) := by
  have hAll : persistentOf commit.system.savepoints = commit.system.savepoints := by
    rw [persistentOf, filter_eq_self]
    intro s hs
    rw [hStored.persistent s hs]
    rfl
  refine ⟨?_, ?_, ?_⟩
  · rw [Database.opened, registerAll_eq]
    exact
      { live := by
          change (↑((commit.system.savepoints.map
            Savepoint.transactionId).reverse ++ [] : List Nat) : Multiset Nat) = 0 + _ + 0
          rw [append_nil, zero_add, add_zero]
          exact Multiset.coe_eq_coe.mpr (reverse_perm _)
        readers_le := fun _ hr => absurd hr not_mem_nil
        ordered := hStored.ordered
        savepoints_le := hStored.bounded
        valid := List.Sublist.refl _
        pending := fun _ hq => absurd hq not_mem_nil
        settled := fun _ => rfl
        durable_le := le_rfl
        next_le := by
          change commit.transactionId ≤ commit.transactionId + 1 + 1
          omega }
  · intro _
    refine ⟨?_, ?_⟩
    · change commit.system.savepoints.Perm (persistentOf commit.system.savepoints)
      rw [hAll]
    · intro s hs
      rw [Database.opened, registerAll_eq]
      refine contains_iff_mem.mpr ?_
      exact mem_map.mpr ⟨s.entry, mem_map.mpr ⟨s, hs, rfl⟩, rfl⟩
  · intro w hw
    cases hw

-- Steps that leave savepoints alone

/- The same transaction, with the same savepoints. -/
structure SameSavepoints (w w' : WriteTransaction P) : Prop where
  id_eq : w'.transactionId = w.transactionId
  table_eq : w'.books.system.savepoints = w.books.system.savepoints
  deleted_eq : w'.deletedPersistentSavepoints = w.deletedPersistentSavepoints
  created_eq : w'.createdPersistentSavepoints = w.createdPersistentSavepoints

/- Only pages change, and what waits to be processed. -/
inductive PagesOnly (db : Database P) : Database P → Prop
  | mk (w w' : WriteTransaction P) (A U N : Finset P) (unprocessed : List Nat)
      (hWriter : db.writer = some w) (hSame : SameSavepoints w w') :
      PagesOnly db
        { db with
          tracker :=
            { db.tracker with unprocessedFreedNonDurableCommits := unprocessed }
          allocated := A
          uncommitted := U
          unpersisted := N
          writer := some w' }

variable {db' : Database P}

omit [DecidableEq P] in
theorem Tracked.pagesOnly (hTracked : Tracked db) (hStep : PagesOnly db db') : Tracked db' := by
  rcases hStep with ⟨w, w', A, U, N, unprocessed, hWriter, hSame⟩
  have hW := hTracked.writing w hWriter
  refine ⟨hTracked.refs.setUnprocessed unprocessed, ?_, ?_⟩
  · intro hNone
    cases hNone
  · intro v hv
    cases hv
    refine ⟨?_, ?_, ?_, ?_, ?_⟩
    · rw [hSame.id_eq]
      exact hW.id_gt
    · rw [hSame.id_eq]
      exact hW.id_le
    · rw [hSame.table_eq, hSame.deleted_eq]
      exact hW.kept
    · rw [hSame.table_eq]
      exact hW.valid
    · rw [hSame.created_eq]
      exact hW.created

/- The events that the savepoints do not depend on. -/
def Event.onPages : Event P → Bool
  | .setDurability _ => true
  | .setQuickRepair _ => true
  | .setDirty => true
  | .allocate _ => true
  | .conditionalFree _ => true
  | .pushFreed _ => true
  | .systemAllocate _ => true
  | .systemConditionalFree _ => true
  | .systemPushFreed _ => true
  | .storePages => true
  | .processFreedPages => true
  | .storeSystemFreedPages => true
  | _ => false

theorem pagesOnly_step {event : Event P} (hEvent : event.onPages = true)
    (hStep : db.step event = some db') :
    PagesOnly db db' := by
  cases event with
  | setDurability durable =>
    change db.setDurability durable = some db' at hStep
    rcases exists_editing hStep with ⟨w, hWriter, _, hStep⟩
    split at hStep
    · cases hStep
      exact .mk w _ _ _ _ _ hWriter ⟨rfl, rfl, rfl, rfl⟩
    · cases hStep
      have hDb : db = { db with writer := some w } := by rw [← hWriter]
      rw [hDb]
      exact .mk w w _ _ _ _ rfl ⟨rfl, rfl, rfl, rfl⟩
  | setQuickRepair quickRepair =>
    change db.setQuickRepair quickRepair = some db' at hStep
    rcases exists_editing hStep with ⟨w, hWriter, _, hStep⟩
    cases hStep
    exact .mk w _ _ _ _ _ hWriter ⟨rfl, rfl, rfl, rfl⟩
  | setDirty =>
    change db.setDirty = some db' at hStep
    rcases exists_editing hStep with ⟨w, hWriter, _, hStep⟩
    cases hStep
    refine .mk w _ _ _ _ _ hWriter ⟨rfl, ?_, rfl, rfl⟩
    change (if _ then _ else _ : Books P).system.savepoints = _
    split
    · rfl
    · rfl
  | allocate p =>
    change db.allocate p = some db' at hStep
    rcases exists_editable hStep with ⟨w, hWriter, _, _, hStep⟩
    split at hStep
    · cases hStep
    · cases hStep
      exact .mk w _ _ _ _ _ hWriter ⟨rfl, rfl, rfl, rfl⟩
  | conditionalFree p =>
    change db.conditionalFree p = some db' at hStep
    rcases exists_editable hStep with ⟨w, hWriter, _, _, hStep⟩
    split at hStep
    · cases hStep
    · split at hStep
      · cases hStep
        exact .mk w _ _ _ _ _ hWriter ⟨rfl, rfl, rfl, rfl⟩
      · cases hStep
        exact .mk w _ _ _ _ _ hWriter ⟨rfl, rfl, rfl, rfl⟩
  | pushFreed p =>
    change db.pushFreed p = some db' at hStep
    rcases exists_editable hStep with ⟨w, hWriter, _, _, hStep⟩
    split at hStep
    · cases hStep
      exact .mk w _ _ _ _ _ hWriter ⟨rfl, rfl, rfl, rfl⟩
    · cases hStep
  | systemAllocate p =>
    change db.systemAllocate p = some db' at hStep
    rcases exists_writer hStep with ⟨w, hWriter, hStep⟩
    split at hStep
    · cases hStep
    · cases hStep
      exact .mk w _ _ _ _ _ hWriter ⟨rfl, rfl, rfl, rfl⟩
  | systemConditionalFree p =>
    change db.systemConditionalFree p = some db' at hStep
    rcases exists_writer hStep with ⟨w, hWriter, hStep⟩
    split at hStep
    · cases hStep
    · split at hStep
      · cases hStep
        exact .mk w _ _ _ _ _ hWriter ⟨rfl, rfl, rfl, rfl⟩
      · cases hStep
        exact .mk w _ _ _ _ _ hWriter ⟨rfl, rfl, rfl, rfl⟩
  | systemPushFreed p =>
    change db.systemPushFreed p = some db' at hStep
    rcases exists_writer hStep with ⟨w, hWriter, hStep⟩
    split at hStep
    · cases hStep
      exact .mk w _ _ _ _ _ hWriter ⟨rfl, rfl, rfl, rfl⟩
    · cases hStep
  | storePages =>
    change db.storePages = some db' at hStep
    rcases exists_editing hStep with ⟨w, hWriter, _, hStep⟩
    cases hStep
    exact .mk w _ _ _ _ _ hWriter ⟨rfl, rfl, rfl, rfl⟩
  | processFreedPages =>
    change db.processFreedPages = some db' at hStep
    cases hWriter : db.writer with
    | none => simp [Database.processFreedPages, hWriter] at hStep
    | some w =>
      rcases markProcessed_eq db.tracker w with ⟨unprocessed, hMark⟩
      simp only [Database.processFreedPages, hWriter, hMark] at hStep
      split at hStep
      · cases hStep
      · cases hStep
        exact .mk w _ _ _ _ unprocessed hWriter ⟨rfl, rfl, rfl, rfl⟩
  | storeSystemFreedPages =>
    change db.storeSystemFreedPages = some db' at hStep
    rcases exists_writer hStep with ⟨w, hWriter, hStep⟩
    split at hStep
    · cases hStep
    · cases hStep
      exact .mk w _ _ _ _ _ hWriter ⟨rfl, rfl, rfl, rfl⟩
  | _ => cases hEvent

-- Readers and ephemeral savepoints

section Steps

variable (hTracked : Tracked db)
include hTracked

omit [DecidableEq P] in
theorem Tracked.observe {readers : List (Reader P)}
    (hRefs : Refs tracker db.durable db.latest readers savepoints)
    (hNext : tracker.nextTransactionId = db.tracker.nextTransactionId)
    (hSame : persistentOf savepoints = persistentOf db.savepoints)
    (hValid : ∀ s ∈ persistentOf db.savepoints, db.tracker.isValidSavepoint s.id = true →
          tracker.isValidSavepoint s.id = true) :
    Tracked
      { db with tracker := tracker, readers := readers, savepoints := savepoints } := by
  refine ⟨hRefs, ?_, ?_⟩
  · intro hIdle
    rcases hTracked.idle hIdle with ⟨hPerm, hTable⟩
    refine ⟨?_, ?_⟩
    · change List.Perm _ (persistentOf savepoints)
      rw [hSame]
      exact hPerm
    · intro s hs
      exact hValid s (hPerm.subset hs) (hTable s hs)
  · intro w hw
    have hW := hTracked.writing w hw
    refine ⟨hW.id_gt, ?_, ?_, ?_, ?_⟩
    · change w.transactionId ≤ tracker.nextTransactionId
      rw [hNext]
      exact hW.id_le
    · change List.Perm _ (persistentOf savepoints)
      rw [hSame]
      exact hW.kept
    · intro s hs
      exact hValid s (hW.kept.subset (mem_append_left _ hs)) (hW.valid s hs)
    · intro hNone
      change List.Perm _ (persistentOf savepoints)
      rw [hSame]
      exact hW.created hNone

omit [DecidableEq P] in
theorem tracked_registerRead : Tracked db.registerRead :=
  hTracked.observe (hTracked.refs.registerRead none) rfl rfl (fun _ _ hValid => hValid)

variable {id : Nat}

theorem tracked_obtainRoot (hStep : db.obtainRoot id = some db') :
    Tracked db' := by
  rw [Database.obtainRoot] at hStep
  split at hStep
  · rename_i hIn
    cases hStep
    have hIds := ((perm_cons_erase hIn).map Reader.transactionId).symm
    exact hTracked.observe (hTracked.refs.setReaders hIds) rfl rfl (fun _ _ hValid => hValid)
  · cases hStep

theorem tracked_endRead {reader : Reader P}
    (hStep : db.endRead reader = some db') :
    Tracked db' := by
  rw [Database.endRead] at hStep
  split at hStep
  · rename_i hIn
    cases hStep
    exact hTracked.observe (hTracked.refs.endRead hIn) rfl rfl (fun _ _ hValid => hValid)
  · cases hStep

omit [DecidableEq P] hTracked in
/- Other ids stay valid when references are given back. -/
theorem valid_deallocate (released : List (Savepoint P))
    (hNot : id ∉ released.map Savepoint.id) (hValid : tracker.isValidSavepoint id = true) :
    (released.foldl (fun tracker s => tracker.deallocateSavepoint s.id s.transactionId)
      tracker).isValidSavepoint id = true := by
  induction released generalizing tracker with
  | nil => exact hValid
  | cons s rest ih =>
    rw [map_cons, mem_cons, not_or] at hNot
    refine ih hNot.2 ?_
    rcases mem_map.mp (contains_iff_mem.mp hValid) with ⟨q, hq, rfl⟩
    refine contains_iff_mem.mpr (mem_map.mpr ⟨q, ?_, rfl⟩)
    exact mem_filter.mpr ⟨hq, bne_iff_ne.mpr hNot.1⟩

theorem tracked_dropSavepoint (hStep : db.dropSavepoint s = some db') :
    Tracked db' := by
  rw [Database.dropSavepoint] at hStep
  split at hStep
  · rename_i hDrop
    cases hStep
    rcases hDrop with ⟨hIn, hEphemeral⟩
    have hOther : ∀ s' ∈ persistentOf db.savepoints, s'.id ∉ [s].map Savepoint.id := by
      intro s' hs' hId
      have hs := mem_filter.mp hs'
      have hSame := hTracked.refs.savepoint_ext hs.1 hIn (mem_singleton.mp hId)
      rw [hSame, hEphemeral] at hs
      exact absurd hs.2 Bool.false_ne_true
    refine hTracked.observe (hTracked.refs.deallocateSavepoints (nodup_singleton s) ?_)
      (deallocate_tracker [s] db.tracker).1 ?_ ?_
    · intro s' hs'
      rw [mem_singleton.mp hs']
      exact hIn
    · rw [persistentOf, filter_filter, persistentOf]
      refine filter_congr ?_
      intro s' hs'
      cases hKind : s'.ephemeral with
      | true => rfl
      | false =>
        have hNot := hOther s' (mem_filter.mpr ⟨hs', by rw [hKind]; rfl⟩)
        rw [← contains_iff_mem, Bool.not_eq_true] at hNot
        rw [hNot]
        rfl
    · intro s' hs' hValid
      exact valid_deallocate [s] (hOther s' hs') hValid
  · cases hStep

omit [DecidableEq P] hTracked in
theorem valid_allocate (ephemeral : Bool) (hValid : db.tracker.isValidSavepoint id = true) :
    (db.allocateSavepoint ephemeral).2.tracker.isValidSavepoint id = true := by
  refine contains_iff_mem.mpr ?_
  change id ∈ (db.tracker.validSavepoints ++ _).map Prod.fst
  rw [map_append]
  exact mem_append_left _ (contains_iff_mem.mp hValid)

omit [DecidableEq P] in
theorem tracked_ephemeralSavepoint
    (hStep : db.ephemeralSavepoint = some db') :
    Tracked db' := by
  rcases exists_writer hStep with ⟨w, hEdit, hStep⟩
  split at hStep
  · cases hStep
  · cases hStep
    refine hTracked.observe (hTracked.refs.allocateSavepoint true) rfl ?_ ?_
    · rw [persistentOf, filter_append]
      exact append_nil _
    · intro s _ hValid
      exact valid_allocate true hValid

-- Persistent savepoints

variable {w : WriteTransaction P}

omit [DecidableEq P] in
theorem Tracked.setTable {w' : WriteTransaction P}
    (hWriter : db.writer = some w)
    (hRefs : Refs tracker db.durable db.latest db.readers db.savepoints)
    (hNext : tracker.nextTransactionId = db.tracker.nextTransactionId)
    (hId : w'.transactionId = w.transactionId)
    (hCreated : w'.createdPersistentSavepoints = w.createdPersistentSavepoints)
    (hKept : (w'.books.system.savepoints ++ w'.deletedPersistentSavepoints).Perm
          (w.books.system.savepoints ++ w.deletedPersistentSavepoints))
    (hValid : ∀ s ∈ w'.books.system.savepoints, tracker.isValidSavepoint s.id = true) :
    Tracked
      { db with tracker := tracker, writer := some w' } := by
  have hW := hTracked.writing w hWriter
  refine ⟨hRefs, ?_, ?_⟩
  · intro hNone
    cases hNone
  · intro v hv
    cases hv
    refine ⟨?_, ?_, hKept.trans hW.kept, hValid, ?_⟩
    · rw [hId]
      exact hW.id_gt
    · rw [hId]
      change _ ≤ tracker.nextTransactionId
      rw [hNext]
      exact hW.id_le
    · rw [hCreated]
      exact hW.created

omit [DecidableEq P] in
theorem tracked_persistentSavepoint
    (hStep : db.persistentSavepoint = some db') :
    Tracked db' := by
  rcases exists_editing hStep with ⟨w, hWriter, _, hStep⟩
  split at hStep
  · cases hStep
  · cases hStep
    have hW := hTracked.writing w hWriter
    refine ⟨hTracked.refs.allocateSavepoint false, ?_, ?_⟩
    · intro hNone
      cases hNone
    · intro v hv
      cases hv
      refine ⟨hW.id_gt, hW.id_le, ?_, ?_, ?_⟩
      · change ((w.books.system.savepoints ++ [_]) ++
          w.deletedPersistentSavepoints).Perm (persistentOf (db.savepoints ++ [_]))
        rw [persistentOf, filter_append, append_assoc]
        refine (perm_append_comm.append_left _).trans ?_
        rw [← append_assoc]
        exact hW.kept.append_right _
      · intro s hs
        rcases mem_append.mp hs with hOld | hNew
        · exact valid_allocate false (hW.valid s hOld)
        · rw [mem_singleton.mp hNew]
          refine contains_iff_mem.mpr ?_
          change _ ∈ (db.tracker.validSavepoints ++ [_]).map Prod.fst
          rw [map_append]
          exact mem_append_right _ (mem_singleton.mpr rfl)
      · intro hNone
        exact absurd hNone (append_ne_nil_of_right_ne_nil _ (cons_ne_nil _ _))

/- A deleted savepoint moves from the table to the list. -/
structure Deletes (w w' : WriteTransaction P) : Prop where
  id_eq : w'.transactionId = w.transactionId
  created_eq : w'.createdPersistentSavepoints = w.createdPersistentSavepoints
  kept : (w'.books.system.savepoints ++ w'.deletedPersistentSavepoints).Perm
        (w.books.system.savepoints ++ w.deletedPersistentSavepoints)
  table : w'.books.system.savepoints.Sublist w.books.system.savepoints

omit hTracked in
theorem deletes_deletePersistent (w : WriteTransaction P) (id : Nat) :
    Deletes w (Database.deletePersistent w id) := by
  rw [Database.deletePersistent]
  split
  · exact ⟨rfl, rfl, List.Perm.refl _, List.Sublist.refl _⟩
  · rename_i s hFind
    have hs := mem_of_find?_eq_some hFind
    refine ⟨rfl, rfl, ?_, erase_sublist⟩
    refine List.Perm.symm ?_
    refine ((perm_cons_erase hs).append_right _).trans ?_
    rw [cons_append]
    change List.Perm _ ((w.books.system.savepoints.erase s) ++
      (w.deletedPersistentSavepoints ++ [s]))
    rw [← append_assoc]
    exact (perm_append_singleton _ _).symm

omit hTracked in
/- Of distinct ids, the deleted one is gone. -/
theorem not_mem_deletePersistent (id : Nat)
    (hNodup : (w.books.system.savepoints.map Savepoint.id).Nodup)
    (hs : s ∈ (Database.deletePersistent w id).books.system.savepoints) :
    s.id ≠ id := by
  rw [Database.deletePersistent] at hs
  split at hs
  · rename_i hFind
    intro hId
    have hNone := find?_eq_none.mp hFind s hs
    exact hNone (beq_iff_eq.mpr hId)
  · rename_i s' hFind
    have hIn := mem_of_find?_eq_some hFind
    have hFound : s'.id = id := by simpa using find?_some hFind
    intro hId
    have hNodup' := List.Nodup.of_map _ hNodup
    rcases hNodup'.mem_erase_iff.mp hs with ⟨hNe, hOld⟩
    exact hNe (inj_on_of_nodup_map hNodup hOld hIn (hId.trans hFound.symm))

omit hTracked in
/- Deleting several leaves none of them in the table. -/
theorem deletes_all (ids : List Nat) (hNodup : (w.books.system.savepoints.map Savepoint.id).Nodup) :
    Deletes w (ids.foldl Database.deletePersistent w) ∧
      ∀ s ∈ (ids.foldl Database.deletePersistent w).books.system.savepoints, s.id ∉ ids := by
  induction ids generalizing w with
  | nil =>
    refine ⟨⟨rfl, rfl, List.Perm.refl _, List.Sublist.refl _⟩, ?_⟩
    intro s _ hs
    cases hs
  | cons id rest ih =>
    have hFirst := deletes_deletePersistent w id
    rcases ih (hNodup.sublist (hFirst.table.map Savepoint.id)) with ⟨hRest, hGone⟩
    rw [foldl_cons]
    refine ⟨⟨hRest.id_eq.trans hFirst.id_eq, hRest.created_eq.trans hFirst.created_eq,
      hRest.kept.trans hFirst.kept, hRest.table.trans hFirst.table⟩, ?_⟩
    intro s hs hId
    rcases mem_cons.mp hId with hEq | hIn
    · exact not_mem_deletePersistent id hNodup (hRest.table.subset hs) hEq
    · exact hGone s hs hIn

omit [DecidableEq P] in
theorem Tracked.table_nodup (hWriter : db.writer = some w) :
    ((w.books.system.savepoints ++ w.deletedPersistentSavepoints).map Savepoint.id).Nodup := by
  have hIds : (db.savepoints.map Savepoint.id).Nodup := pairwise_map.mpr
      (hTracked.refs.ordered.imp fun h => h.1.ne)
  have hKept := (hTracked.writing w hWriter).kept
  refine (hKept.map Savepoint.id).nodup_iff.mpr ?_
  exact hIds.sublist (filter_sublist.map Savepoint.id)

theorem tracked_deletePersistentSavepoint
    (hStep : db.deletePersistentSavepoint id = some db') :
    Tracked db' := by
  rcases exists_editing hStep with ⟨w, hWriter, _, hStep⟩
  have hW := hTracked.writing w hWriter
  have hDeletes := deletes_deletePersistent w id
  split at hStep
  · cases hStep
    refine hTracked.setTable hWriter hTracked.refs rfl
      hDeletes.id_eq hDeletes.created_eq hDeletes.kept ?_
    intro s hs
    exact hW.valid s (hDeletes.table.subset hs)
  · cases hStep

omit hTracked in
theorem valid_invalidateAfter {last : Nat} (hLe : id ≤ last)
    (hValid : tracker.isValidSavepoint id = true) :
    (tracker.invalidateSavepointsAfter last).isValidSavepoint id = true := by
  rcases mem_map.mp (contains_iff_mem.mp hValid) with ⟨q, hq, rfl⟩
  refine contains_iff_mem.mpr (mem_map.mpr ⟨q, ?_, rfl⟩)
  exact mem_filter.mpr ⟨hq, decide_eq_true hLe⟩

theorem tracked_restoreSavepoint {savepoint : Savepoint P}
    (hKeeps : keepsSavepoints db (.restoreSavepoint savepoint) = true)
    (hStep : db.restoreSavepoint savepoint = some db') :
    Tracked db' := by
  rcases exists_editing hStep with ⟨w, hWriter, _, hStep⟩
  have hW := hTracked.writing w hWriter
  have hNodup := hTracked.table_nodup hWriter
  rw [map_append] at hNodup
  have hTable := (nodup_append.mp hNodup).1
  simp only [keepsSavepoints, hWriter] at hKeeps
  split at hStep
  · cases hStep
    have hRefs := hTracked.refs.invalidateAfter savepoint.id
    by_cases hDurable : w.durable = true
    · rw [if_pos hDurable]
      -- the newer ones are deleted from the table
      have hAll := deletes_all ((w.books.system.savepoints.map
          Savepoint.id).filter (savepoint.id < ·))
        (w :=
          { w with dirty := true, books := Database.restoreBooks w.books savepoint })
        hTable
      rcases hAll with ⟨hDeletes, hGone⟩
      refine hTracked.setTable hWriter hRefs rfl hDeletes.id_eq hDeletes.created_eq hDeletes.kept ?_
      intro s hs
      have hOld : s ∈ w.books.system.savepoints := hDeletes.table.subset hs
      refine valid_invalidateAfter ?_ (hW.valid s hOld)
      by_contra hGt
      refine hGone s hs (mem_filter.mpr ⟨mem_map.mpr ⟨s, hOld, rfl⟩, ?_⟩)
      exact decide_eq_true (Nat.lt_of_not_le hGt)
    · rw [if_neg hDurable]
      rw [Bool.not_eq_true] at hDurable
      rw [hDurable, Bool.false_or] at hKeeps
      refine hTracked.setTable hWriter hRefs rfl rfl rfl (List.Perm.refl _) ?_
      intro s hs
      exact valid_invalidateAfter (of_decide_eq_true (all_eq_true.mp hKeeps s hs))
        (hW.valid s hs)
  · cases hStep

-- Begin, commit, abort

omit [DecidableEq P] in
theorem tracked_beginWrite (hStep : db.beginWrite = some db') :
    Tracked db' := by
  cases hWriter : db.writer with
  | some w => simp [Database.beginWrite, hWriter] at hStep
  | none =>
    rcases hTracked.idle hWriter with ⟨hPerm, hValid⟩
    simp only [Database.beginWrite, hWriter, TransactionTracker.startWriteTransaction,
      Option.some.injEq] at hStep
    subst hStep
    refine ⟨{ hTracked.refs with next_le := hTracked.refs.next_le.trans (Nat.le_succ _) }, ?_, ?_⟩
    · intro hNone
      cases hNone
    · intro w hw
      cases hw
      refine ⟨Nat.lt_succ_of_le hTracked.refs.next_le, le_rfl, ?_, hValid, ?_⟩
      · change (db.latest.system.savepoints ++ []).Perm _
        rw [append_nil]
        exact hPerm
      · intro _
        exact hPerm

theorem tracked_abort (hKeeps : keepsSavepoints db .abort = true)
    (hStep : db.abort = some db') :
    Tracked db' := by
  rcases exists_editing hStep with ⟨w, hWriter, _, hStep⟩
  have hW := hTracked.writing w hWriter
  simp only [keepsSavepoints, hWriter, Bool.and_eq_true] at hKeeps
  rcases hKeeps with ⟨hCreated, hDeleted⟩
  have hPerm := hW.created (List.isEmpty_iff.mp hCreated)
  cases hStep
  refine ⟨hTracked.refs, ?_, ?_⟩
  · intro _
    refine ⟨hPerm, ?_⟩
    intro s hs
    rcases mem_append.mp (hW.kept.symm.subset (hPerm.subset hs)) with hIn | hIn
    · exact hW.valid s hIn
    · exact all_eq_true.mp hDeleted s hIn
  · intro v hv
    cases hv

omit [DecidableEq P] hTracked in
theorem persistentOf_released {table deleted : List (Savepoint P)}
    (hKept : (table ++ deleted).Perm (persistentOf savepoints))
    (hNodup : ((table ++ deleted).map Savepoint.id).Nodup) :
    table.Perm (persistentOf (savepoints.filter fun s =>
        !(deleted.map Savepoint.id).contains s.id)) := by
  rw [map_append] at hNodup
  have hApart := (nodup_append.mp hNodup).2.2
  have hComm : persistentOf (savepoints.filter fun s => !(deleted.map Savepoint.id).contains s.id) =
        (persistentOf savepoints).filter fun s => !(deleted.map Savepoint.id).contains s.id := by
    rw [persistentOf, persistentOf, filter_filter, filter_filter]
    refine filter_congr ?_
    intro s _
    exact Bool.and_comm _ _
  rw [hComm]
  refine List.Perm.trans ?_ (hKept.filter _)
  rw [filter_append]
  have hTable : table.filter (fun s => !(deleted.map Savepoint.id).contains s.id) = table := by
    rw [filter_eq_self]
    intro s hs
    rw [Bool.not_eq_true', ← Bool.not_eq_true, contains_iff_mem]
    intro hId
    exact hApart _ (mem_map.mpr ⟨s, hs, rfl⟩) _ hId rfl
  have hNone : deleted.filter (fun s => !(deleted.map Savepoint.id).contains s.id) = [] := by
    rw [filter_eq_nil_iff]
    intro s hs hNot
    rw [Bool.not_eq_true', ← Bool.not_eq_true, contains_iff_mem] at hNot
    exact hNot (mem_map.mpr ⟨s, hs, rfl⟩)
  rw [hTable, hNone, append_nil]

theorem tracked_publish (hStep : db.publish = some db') : Tracked db' := by
  rcases exists_writer hStep with ⟨w, hWriter, hStep⟩
  have hW := hTracked.writing w hWriter
  have hNodup := hTracked.table_nodup hWriter
  have hIds := hNodup
  rw [map_append] at hIds
  have hIn : ∀ s ∈ w.deletedPersistentSavepoints, s ∈ db.savepoints := by
    intro s hs
    exact mem_of_mem_filter (hW.kept.subset (mem_append_right _ hs))
  have hDeleted : w.deletedPersistentSavepoints.Nodup :=
    List.Nodup.of_map _ (nodup_append.mp hIds).2.1
  have hValid : ∀ tracker : TransactionTracker, tracker.validSavepoints =
        db.tracker.validSavepoints →
      ∀ s ∈ w.books.system.savepoints, (w.deletedPersistentSavepoints.foldl
          (fun tracker s => tracker.deallocateSavepoint s.id s.transactionId)
          tracker).isValidSavepoint s.id = true := by
    intro tracker hSame s hs
    refine valid_deallocate _ ?_ ?_
    · intro hId
      exact (nodup_append.mp hIds).2.2 _ (mem_map.mpr ⟨s, hs, rfl⟩) _ hId rfl
    · rw [TransactionTracker.isValidSavepoint, hSame]
      exact hW.valid s hs
  have hPerm := persistentOf_released hW.kept hNodup
  split at hStep
  · cases hStep
  cases hStep
  cases hDurable : w.durable with
  | true =>
    refine ⟨(hTracked.refs.publishDurable hW.id_gt
      hW.id_le).deallocateSavepoints hDeleted hIn, ?_, ?_⟩
    · intro _
      exact ⟨hPerm, hValid _ rfl⟩
    · intro v hv
      cases hv
  | false =>
    refine ⟨(hTracked.refs.publishNonDurable hW.id_gt
      hW.id_le).deallocateSavepoints hDeleted hIn, ?_, ?_⟩
    · intro _
      exact ⟨hPerm, hValid _ rfl⟩
    · intro v hv
      cases hv

-- Runs

end Steps

theorem tracked_step {event : Event P} (hTracked : Tracked db)
    (hKeeps : keepsSavepoints db event = true) (hStep : db.step event = some db') :
    Tracked db' := by
  by_cases hPages : event.onPages = true
  · exact hTracked.pagesOnly (pagesOnly_step hPages hStep)
  cases event with
  | beginRead => exact tracked_obtainRoot (tracked_registerRead hTracked) hStep
  | registerRead =>
    cases hStep
    exact tracked_registerRead hTracked
  | obtainRoot id => exact tracked_obtainRoot hTracked hStep
  | endRead => exact tracked_endRead hTracked hStep
  | beginWrite => exact tracked_beginWrite hTracked hStep
  | ephemeralSavepoint => exact tracked_ephemeralSavepoint hTracked hStep
  | persistentSavepoint => exact tracked_persistentSavepoint hTracked hStep
  | deletePersistentSavepoint id => exact tracked_deletePersistentSavepoint hTracked hStep
  | dropSavepoint s => exact tracked_dropSavepoint hTracked hStep
  | restoreSavepoint s => exact tracked_restoreSavepoint hTracked hKeeps hStep
  | publish => exact tracked_publish hTracked hStep
  | abort => exact tracked_abort hTracked hKeeps hStep
  | _ => exact absurd rfl hPages

theorem OpenedReachable.tracked (hReach : OpenedReachable db) : Tracked db := by
  induction hReach with
  | opened _ allocated _ hStored => exact tracked_opened allocated hStored
  | step _ _ hKeeps hStep ih => exact tracked_step ih hKeeps hStep

/-
  From a database that was just opened, along any run that keeps savepoints, the tracker and the
  table of persistent savepoints agree between write transactions.
-/
theorem savepoints_agree_between_transactions
    (db : Database P) (hReach : OpenedReachable db) (hIdle : db.writer = none) :
    SavepointsAgree db :=
  hReach.tracked.agree hIdle

theorem openedReachable_of_checkedRun (events : List (Event P)) (hReach : OpenedReachable db)
    (hRun : checkedRun keepsSavepoints db events = some db') :
    OpenedReachable db' := by
  induction events generalizing db with
  | nil =>
    cases hRun
    exact hReach
  | cons event rest ih =>
    rw [checkedRun] at hRun
    split at hRun
    · rename_i hKeeps
      split at hRun
      · rename_i next hStep
        exact ih (hReach.step event hKeeps hStep) hRun
      · cases hRun
    · cases hRun

/- A new database, opened. -/
def openedEmpty : Database Nat := Database.opened ⟨0, ∅, ⟨∅, [], [], [], []⟩⟩ ∅ 0

theorem openedEmpty_reachable : OpenedReachable openedEmpty := by
  refine .opened _ ∅ 0 ⟨?_, List.Pairwise.nil, ?_⟩
  · intro s hs
    cases hs
  · intro s hs
    cases hs

/- A savepoint is made, a transaction aborted, another savepoint made and the first one restored. -/
def restoredEvents : List (Event Nat) :=
  transaction [.persistentSavepoint] ++ [.beginWrite, .setDirty, .allocate 3, .abort] ++
    transaction [.persistentSavepoint] ++ transaction [.restoreSavepoint ⟨1, 0, ∅, false⟩]

/- Only the restored savepoint is in the table and valid. -/
theorem restored_savepoint_agrees : ∃ db : Database Nat,
      checkedRun keepsSavepoints openedEmpty restoredEvents = some db ∧
        db.writer.isNone = true ∧
        db.tracker.validSavepoints = [(1, 0)] ∧
        SavepointsAgree db := by
  have hRun : (checkedRun keepsSavepoints openedEmpty restoredEvents).any
        (fun db => db.writer.isNone && decide (db.tracker.validSavepoints = [(1, 0)])) =
        true := by
    decide +kernel
  rcases (Option.any_eq_true _ _).mp hRun with ⟨db, hDb, hAny⟩
  rcases Bool.and_eq_true_iff.mp hAny with ⟨hIdle, hValid⟩
  exact ⟨db, hDb, hIdle, of_decide_eq_true hValid, savepoints_agree_between_transactions db
      (openedReachable_of_checkedRun _ openedEmpty_reachable hDb)
      (Option.isNone_iff_eq_none.mp hIdle)⟩

/-
  The savepoint of an aborted transaction stays valid, with its reference, and is not in the table.
-/
theorem aborted_savepoint_stays_valid :
    OpenedReachable openedEmpty ∧ ∃ db : Database Nat, openedEmpty.run
            [.beginWrite, .persistentSavepoint, .abort] =
          some db ∧
        db.writer.isNone = true ∧
        db.tracker.validSavepoints = [(1, 0)] ∧
        db.tracker.liveReadTransactions = [0] ∧
        ¬SavepointsAgree db := by
  have hRun : (openedEmpty.run [.beginWrite, .persistentSavepoint, .abort]).any
        (fun db => db.writer.isNone && (decide (db.tracker.validSavepoints = [(1, 0)]) &&
            (decide (db.tracker.liveReadTransactions = [0]) && (decide (db.ephemerals.length = 0) &&
                decide (db.latest.system.savepoints.length = 0))))) =
        true := by
    decide +kernel
  rcases (Option.any_eq_true _ _).mp hRun with ⟨db, hDb, hAny⟩
  simp only [Bool.and_eq_true, decide_eq_true_eq, length_eq_zero_iff] at hAny
  rcases hAny with ⟨hIdle, hValid, hLive, hEphemeral, hTable⟩
  refine ⟨openedEmpty_reachable, db, hDb, hIdle, hValid, hLive, ?_⟩
  intro hAgree
  have hEntry := (hAgree.valid (1, 0)).mp ⟨by rw [hValid]; exact mem_singleton.mpr rfl, by
      rw [hEphemeral]
      exact not_mem_nil⟩
  rw [hTable] at hEntry
  exact absurd hEntry not_mem_nil

end Redbx.Reclaim
