import Redbx.PageStore.Commit
import Mathlib.Data.Finset.Basic

/-
  `check_integrity` on an open database.

  The database is its header in memory, the header in the file, the allocated pages, and what the
  pages on disk say of any roots. Transactions are durable commits, non-durable commits, which only
  change memory, and aborts, which may leave the file grown.

  The check reloads the header from the file but keeps the flag that says which slot readers use.

  Key theorems include:
    * `OpenDatabase.Reachable.consistent`, `checkIntegrity_clean_iff`
-/

namespace Redbx

open Bytes DatabaseHeader

-- The Open Database

/- The part of the layout that changes with the file. -/
structure Layout where
  fullRegions : UInt32
  trailingPartialRegionPages : UInt32
  deriving DecidableEq

namespace DatabaseHeader

def layout (header : DatabaseHeader) : Layout :=
  ⟨header.fullRegions, header.trailingPartialRegionPages⟩

def setLayout (header : DatabaseHeader) (layout : Layout) : DatabaseHeader :=
  { header with
    fullRegions := layout.fullRegions
    trailingPartialRegionPages :=
      layout.trailingPartialRegionPages }

def setRecoveryRequired (header : DatabaseHeader) (required : Bool) : DatabaseHeader :=
  { header with recoveryRequired := required }

end DatabaseHeader

/-
  What the pages on disk say of roots: the result of `verify_primary_checksums`, and the pages that
  `do_repair` marks as allocated (those of the two table trees, and those listed in the freed
  tables).
-/
structure PageView where
  verify : Roots → Except DatabaseError Bool
  reachable : Roots → Finset PageNumber

/- An open database with no transaction in progress. -/
structure OpenDatabase where
  memory : MemoryState
  file : Bytes
  allocated : Finset PageNumber
  pages : PageView

/- The pages readers use are good, and the allocated pages are those the roots lead to. -/
def OpenDatabase.Undamaged (db : OpenDatabase) : Prop :=
  db.pages.verify db.memory.roots = .ok true ∧
  db.pages.reachable db.memory.roots = db.allocated

-- Check Integrity

/- `clear_cache_and_reload`. The flag returned says whether the primary slot was kept. -/
def reloadHeader (hash : Bytes → Checksum) (file : Bytes) :
    Except DatabaseError (DatabaseHeader × Bool) := do
  let (header, repairInfo) ← DatabaseHeader.fromBytes hash file
  if header.recoveryRequired then
    let (picked, kept) ← header.pickPrimaryForRepair repairInfo
    if repairInfo.invalidMagicNumber then
      throw (.corrupted "Invalid magic number")
    return (picked, kept)
  else
    return (header, true)

/- The repair commit: the same roots under the next id. -/
def repairCommit (memory : MemoryState) : CommitRequest where
  roots := memory.roots
  transactionId := memory.slot.transactionId + 1
  twoPhase := true
  fullRegions := memory.header.fullRegions
  trailingPartialRegionPages :=
    memory.header.trailingPartialRegionPages

/-
  The end of `check_integrity`, once `do_repair` has rebuilt the allocator: a database that was not
  clean is committed again, and the recovery flag is set.
-/
def finishCheck (hash : Bytes → Checksum) (db : OpenDatabase) (repaired : MemoryState)
    (wasClean : Bool) : OpenDatabase :=
  let closed : MemoryState :=
    { repaired with header := repaired.header.setRecoveryRequired false }
  let final : MemoryState := if wasClean then
      closed
    else
      { header := closed.header.committed (repairCommit closed), readFromSecondary := false }
  let writable := final.header.setRecoveryRequired true
  { db with
    memory := { final with header := writable }
    file := writable.toBytes hash true
    allocated := db.pages.reachable repaired.roots }

/-
  `check_integrity`. The allocator is given by the layout and the allocated pages; `allocatorHash`
  is its hash.
-/
def checkIntegrity (hash : Bytes → Checksum) (allocatorHash : Layout → Finset PageNumber → Checksum)
    (db : OpenDatabase) :
    Except DatabaseError (Bool × OpenDatabase) := do
  let before := allocatorHash db.memory.header.layout db.allocated
  let (header, kept) ← reloadHeader hash db.file
  -- the flag is not reset by the reload
  let memory : MemoryState :=
    { header := header, readFromSecondary := db.memory.readFromSecondary }
  let oldRoots := memory.roots
  let repaired ← doRepair db.pages.verify memory
  let newRoots := repaired.roots
  let after := allocatorHash repaired.header.layout (db.pages.reachable newRoots)
  let wasClean := kept && oldRoots = newRoots && before = after
  return (wasClean, finishCheck hash db repaired wasClean)

-- Transactions

/-
  What a transaction leaves: its roots and id, the layout the file has grown or shrunk to, and the
  pages, of which nothing is assumed.
-/
structure TransactionResult where
  roots : Roots
  transactionId : UInt64
  layout : Layout
  allocated : Finset PageNumber
  pages : PageView

namespace TransactionResult

/- The request handed to `commit`. -/
def request (result : TransactionResult) (twoPhase : Bool) : CommitRequest where
  roots := result.roots
  transactionId := result.transactionId
  twoPhase := twoPhase
  fullRegions := result.layout.fullRegions
  trailingPartialRegionPages :=
    result.layout.trailingPartialRegionPages

end TransactionResult

namespace OpenDatabase

variable (hash : Bytes → Checksum) (allocatorHash : Layout → Finset PageNumber → Checksum)

/- `commit`: both headers are written and flushed. -/
def durableCommit
    (db : OpenDatabase) (result : TransactionResult) (twoPhase : Bool) : OpenDatabase :=
  let header := db.memory.header.committed (result.request twoPhase)
  { memory := ⟨header, false⟩
    file := header.toBytes hash true
    allocated := result.allocated
    pages := result.pages }

/- `non_durable_commit`: only memory changes. -/
def nonDurableCommit (db : OpenDatabase) (result : TransactionResult) : OpenDatabase :=
  { memory :=
      ⟨(db.memory.header.setLayout result.layout).setSecondary (result.request false).slot, true⟩
    file := db.file
    allocated := result.allocated
    pages := result.pages }

/- An abort gives the pages back but not the file space. -/
def abort (db : OpenDatabase) (layout : Layout) (pages : PageView) : OpenDatabase :=
  { db with
    memory :=
      { db.memory with header := db.memory.header.setLayout layout }
    pages := pages }

/-
  The states of an open database between transactions. `Database::new` ends on a slot that was
  committed in two phases, and transaction ids do not fall.
-/
inductive Reachable : OpenDatabase → Prop
  | opened
      (header : DatabaseHeader)
      (allocated : Finset PageNumber)
      (pages : PageView)
      (hRecovery : header.recoveryRequired = true)
      (hTwo : header.twoPhaseCommit = true) :
      Reachable
        { memory := ⟨header, false⟩
          file := header.toBytes hash true
          allocated := allocated
          pages := pages }
  | durableCommit
      {db : OpenDatabase}
      (result : TransactionResult)
      (twoPhase : Bool)
      (hReach : Reachable db)
      (hId : db.memory.header.primary.transactionId ≤ result.transactionId) :
      Reachable (db.durableCommit hash result twoPhase)
  | nonDurableCommit
      {db : OpenDatabase}
      (result : TransactionResult)
      (hReach : Reachable db) :
      Reachable (db.nonDurableCommit result)
  | abort
      {db : OpenDatabase}
      (layout : Layout)
      (pages : PageView)
      (hReach : Reachable db) :
      Reachable (db.abort layout pages)
  | checkIntegrity
      {db after : OpenDatabase}
      {wasClean : Bool}
      (hReach : Reachable db)
      (hCheck : checkIntegrity hash allocatorHash db = .ok (wasClean, after)) :
      Reachable after

-- Consistency Of Memory And Disk

/-
  A header that the reload keeps as it is: it asks for recovery, and its secondary slot is not taken
  for newer.
-/
structure Reloadable (header : DatabaseHeader) : Prop where
  recovery : header.recoveryRequired = true
  kept : header.twoPhaseCommit = true ∨ ¬ header.primary.transactionId <
        header.secondary.transactionId

/- What holds between transactions: the file holds a header that is kept by a reload. -/
structure Consistent (db : OpenDatabase) : Prop where
  file : ∃ header, Reloadable header ∧ db.file = header.toBytes hash true
  recovery : db.memory.header.recoveryRequired = true

variable {hash : Bytes → Checksum} {allocatorHash : Layout → Finset PageNumber → Checksum}
  {db : OpenDatabase}

variable {header : DatabaseHeader}

theorem reloadHeader_eq (hReload : Reloadable header) :
    reloadHeader hash (header.toBytes hash true) = .ok (header, true) := by
  have hPick : header.pickPrimaryForRepair ⟨false, false, false⟩ = .ok (header, true) := by
    unfold DatabaseHeader.pickPrimaryForRepair
    rcases hReload.kept with hTwo | hOrder
    · simp [hTwo]
    · simp [hOrder]
  unfold reloadHeader
  rw [DatabaseHeader.fromBytes_toBytes]
  simp [bind, Except.bind, pure, Except.pure, hReload.recovery, hPick]

theorem reloadable_committed (request : CommitRequest) (hRecovery : header.recoveryRequired = true)
    (hId : header.primary.transactionId ≤ request.transactionId) :
    Reloadable (header.committed request) where
  recovery := hRecovery
  kept := by
    right
    rw [committed_primary, committed_secondary]
    exact UInt64.not_lt.mpr hId

theorem finishCheck_roots (repaired : MemoryState) (wasClean : Bool) :
    (finishCheck hash db repaired wasClean).memory.roots = repaired.roots := by
  cases wasClean with
  | true => rfl
  | false =>
    let closed : MemoryState :=
      { repaired with header := repaired.header.setRecoveryRequired false }
    calc
      (finishCheck hash db repaired false).memory.roots = (closed.header.committed
          (repairCommit closed)).primary.roots := rfl
      _ = (repairCommit closed).slot.roots := by
        rw [committed_primary]
      _ = repaired.roots := rfl

/- The result of a check over a header the reload keeps, in terms of the repair. -/
theorem checkIntegrity_eq
    (hReload : Reloadable header) (hFile : db.file = header.toBytes hash true) :
    checkIntegrity hash allocatorHash db = (do
        let repaired ← doRepair db.pages.verify ⟨header, db.memory.readFromSecondary⟩
        let wasClean := decide (MemoryState.roots ⟨header, db.memory.readFromSecondary⟩ =
                  repaired.roots) &&
            decide (allocatorHash db.memory.header.layout db.allocated =
                allocatorHash repaired.header.layout (db.pages.reachable repaired.roots))
        return (wasClean, finishCheck hash db repaired wasClean)) := by
  unfold checkIntegrity
  rw [hFile, reloadHeader_eq hReload]
  rfl

/-
  A check that succeeds: what repair ended on was verified, and a clean check ended on the slot it
  started from.
-/
theorem checkIntegrity_ok {after : OpenDatabase} {wasClean : Bool} (hReload : Reloadable header)
    (hFile : db.file = header.toBytes hash true)
    (hCheck : checkIntegrity hash allocatorHash db = .ok (wasClean, after)) :
    ∃ repaired, after = finishCheck hash db repaired wasClean ∧
      db.pages.verify repaired.roots = .ok true ∧
      (wasClean = true → repaired = ⟨header, db.memory.readFromSecondary⟩ ∧
          allocatorHash db.memory.header.layout db.allocated = allocatorHash header.layout
              (db.pages.reachable repaired.roots)) := by
  rw [checkIntegrity_eq hReload hFile] at hCheck
  cases hRepair : doRepair db.pages.verify ⟨header, db.memory.readFromSecondary⟩ with
  | error e => simp [hRepair, bind, Except.bind] at hCheck
  | ok repaired =>
    simp only [hRepair, bind, Except.bind, pure, Except.pure, Except.ok.injEq,
      Prod.mk.injEq] at hCheck
    rcases hCheck with ⟨hClean, hAfter⟩
    rw [hClean] at hAfter
    rcases doRepair_cases hRepair with ⟨hVerified, hWhich⟩
    refine ⟨repaired, hAfter.symm, hVerified, ?_⟩
    intro hTrue
    rw [hTrue, Bool.and_eq_true, decide_eq_true_eq, decide_eq_true_eq] at hClean
    rcases hWhich with hSame | ⟨hBad, _⟩
    · subst hSame
      exact ⟨rfl, hClean.2⟩
    · rw [hClean.1, hVerified] at hBad
      cases hBad

/- The check keeps the file consistent. -/
theorem Consistent.checkIntegrity
    {after : OpenDatabase}
    {wasClean : Bool}
    (hConsistent : Consistent hash db)
    (hCheck : Redbx.checkIntegrity hash allocatorHash db = .ok (wasClean, after)) :
    Consistent hash after := by
  rcases hConsistent.file with ⟨header, hReload, hFile⟩
  rcases checkIntegrity_ok hReload hFile hCheck with ⟨repaired, hAfter, hVerified, hClean⟩
  cases hWas : wasClean with
  | true =>
    rcases hClean hWas with ⟨hSame, _⟩
    subst hWas hSame
    refine ⟨⟨header.setRecoveryRequired true, ⟨rfl, hReload.kept⟩, ?_⟩, ?_⟩
    · rw [hAfter]
      rfl
    · rw [hAfter]
      rfl
  | false =>
    subst hWas
    refine ⟨⟨after.memory.header, ⟨?_, Or.inl ?_⟩, ?_⟩, ?_⟩
    · rw [hAfter]
      rfl
    · rw [hAfter]
      rfl
    · rw [hAfter]
      rfl
    · rw [hAfter]
      rfl

/- Every reachable database is consistent. -/
theorem Reachable.consistent (hReach : Reachable hash allocatorHash db) : Consistent hash db := by
  induction hReach with
  | opened header _ _ hRecovery hTwo =>
    exact ⟨⟨header, ⟨hRecovery, Or.inl hTwo⟩, rfl⟩, hRecovery⟩
  | @durableCommit db result twoPhase hReach hId ih =>
    have hReload := reloadable_committed (result.request twoPhase) ih.recovery hId
    exact ⟨⟨_, hReload, rfl⟩, ih.recovery⟩
  | nonDurableCommit _ _ ih => exact ⟨ih.file, ih.recovery⟩
  | abort _ _ _ ih => exact ⟨ih.file, ih.recovery⟩
  | checkIntegrity _ hCheck ih => exact ih.checkIntegrity hCheck

------------------------------------------------------------
-- When The Check Passes
------------------------------------------------------------

/-
  Memory and disk are in step: the slot that the flag selects in the header on disk holds the roots
  in use, these verify, and the pages they lead to hash under the layout on disk as the allocated
  ones do in memory.
-/
def DiskAgrees
    (hash : Bytes → Checksum)
    (allocatorHash : Layout → Finset PageNumber → Checksum)
    (db : OpenDatabase) : Prop :=
  ∃ header info, DatabaseHeader.fromBytes hash db.file = .ok (header, info) ∧
    MemoryState.roots ⟨header, db.memory.readFromSecondary⟩ = db.memory.roots ∧
    db.pages.verify db.memory.roots = .ok true ∧
    allocatorHash db.memory.header.layout db.allocated =
      allocatorHash header.layout (db.pages.reachable db.memory.roots)

/- A database in step with its disk passes the check. -/
theorem DiskAgrees.clean
    (hAgrees : db.DiskAgrees hash allocatorHash)
    (hConsistent : Consistent hash db) :
    ∃ after, Redbx.checkIntegrity hash allocatorHash db = .ok (true, after) ∧
      after.memory.roots = db.memory.roots := by
  rcases hConsistent.file with ⟨header, hReload, hFile⟩
  rcases hAgrees with ⟨_, _, hParse, hRoots, hVerified, hHash⟩
  rw [hFile, DatabaseHeader.fromBytes_toBytes] at hParse
  cases hParse
  have hRepair : doRepair db.pages.verify ⟨header, db.memory.readFromSecondary⟩ =
        .ok ⟨header, db.memory.readFromSecondary⟩ := by
    apply doRepair_kept
    rw [hRoots]
    exact hVerified
  refine ⟨finishCheck hash db ⟨header, db.memory.readFromSecondary⟩ true, ?_, ?_⟩
  · rw [checkIntegrity_eq hReload hFile, hRepair]
    simp only [bind, Except.bind, pure, Except.pure, hRoots, hHash, decide_true, Bool.and_self]
  · rw [finishCheck_roots]
    exact hRoots

/-
  In a reachable state, whatever its pages hold, the check returns `Ok(true)` and leaves the roots
  as they are exactly when memory and disk are in step.
-/
theorem checkIntegrity_clean_iff (hReach : Reachable hash allocatorHash db) :
    (∃ after, Redbx.checkIntegrity hash allocatorHash db = .ok (true, after) ∧
      after.memory.roots = db.memory.roots) ↔
    db.DiskAgrees hash allocatorHash := by
  refine ⟨?_, fun hAgrees => hAgrees.clean hReach.consistent⟩
  rintro ⟨after, hCheck, hRoots⟩
  rcases hReach.consistent.file with ⟨header, hReload, hFile⟩
  rcases checkIntegrity_ok hReload hFile hCheck with ⟨_, hAfter, hVerified, hClean⟩
  rcases hClean rfl with ⟨hSame, hHash⟩
  rw [hAfter, finishCheck_roots] at hRoots
  rw [hRoots] at hHash hVerified
  rw [hSame] at hRoots
  refine ⟨header, ⟨false, false, false⟩, ?_, hRoots, hVerified, hHash⟩
  rw [hFile, DatabaseHeader.fromBytes_toBytes]

------------------------------------------------------------
-- A Commit Is Discarded
------------------------------------------------------------

instance hundredPages : NeZero 100 := ⟨by decide⟩

/- Page `n` of region 0. -/
def smallPage (n : Fin 100) : PageNumber where
  region := 0
  pageIndex := n
  pageOrder := 0
  region_lt := PageNumber.zero_region_lt
  pageIndex_lt := lt_trans n.isLt (by decide)
  pageOrder_lt := PageNumber.zero_pageOrder_lt

/- A data tree and a system tree of one page each. -/
def smallRoots (data system : Fin 100) (checksum : Checksum) : Roots where
  data := some { root := smallPage data, checksum := 0, length := 1 }
  system := some { root := smallPage system, checksum := checksum, length := 1 }

/- What pages with these checksums say of trees of one page. -/
def checksumView (checksums : PageNumber → Checksum) : PageView where
  verify := fun roots => .ok
    (roots.data.all (fun tree => checksums tree.root = tree.checksum) &&
      roots.system.all (fun tree => checksums tree.root = tree.checksum))
  reachable := fun roots =>
    ((roots.data.toList ++ roots.system.toList).map BtreeHeader.root).toFinset

/- The pages as they are first written. -/
def firstChecksums (_ : PageNumber) : Checksum := 0

/- Page 11 has been written again. -/
def laterChecksums (page : PageNumber) : Checksum := if page = smallPage 11 then 1 else 0

/- A transaction that leaves these roots and pages. -/
def smallResult
    (roots : Roots)
    (checksums : PageNumber → Checksum)
    (transactionId : UInt64) : TransactionResult where
  roots := roots
  transactionId := transactionId
  layout := ⟨0, 270⟩
  allocated := (checksumView checksums).reachable roots
  pages := checksumView checksums

/- A hash that tells whether page 30 is allocated. -/
def pageThirtyHash (_ : Layout) (pages : Finset PageNumber) : Checksum :=
  if smallPage 30 ∈ pages then 1 else 0

/- An empty database, just opened. -/
def openedDatabase : OpenDatabase :=
  let header : DatabaseHeader :=
    { DatabaseHeader.new 4096 0 1048576 0 270 1 (zeros 16) length_zeroSalt with twoPhaseCommit := true }
  { memory := ⟨header, false⟩
    file := header.toBytes lowBytes true
    allocated := ∅
    pages := checksumView firstChecksums }

theorem reachable_openedDatabase : Reachable lowBytes pageThirtyHash openedDatabase :=
  .opened _ ∅ _ rfl rfl

/- Two durable commits, the second on pages of its own. -/
def durableDatabase : OpenDatabase :=
  (openedDatabase.durableCommit lowBytes
    (smallResult (smallRoots 10 11 0) firstChecksums 4) false).durableCommit lowBytes
      (smallResult (smallRoots 20 21 0) firstChecksums 5) false

theorem reachable_durableDatabase : Reachable lowBytes pageThirtyHash durableDatabase :=
  .durableCommit _ _ (.durableCommit _ _ reachable_openedDatabase (by decide)) (by decide)

/-
  Then a non-durable commit. The old page of the system tree was freed with the last durable commit,
  and is used again.
-/
def mixedDatabase : OpenDatabase :=
  durableDatabase.nonDurableCommit (smallResult (smallRoots 30 11 1) laterChecksums 6)

theorem reachable_mixedDatabase : Reachable lowBytes pageThirtyHash mixedDatabase :=
  .nonDurableCommit _ reachable_durableDatabase

theorem reloadable_durableDatabase : Reloadable durableDatabase.memory.header :=
  ⟨rfl, Or.inr (by decide)⟩

/-
  The check reads the slot of the commit before the last durable one, which does not verify, and
  falls back to the other slot.
-/
theorem checkIntegrity_mixedDatabase :
    Redbx.checkIntegrity lowBytes pageThirtyHash mixedDatabase =
      .ok (false, finishCheck lowBytes mixedDatabase
        (MemoryState.repairPrimaryCorrupted ⟨durableDatabase.memory.header, true⟩) false) := by
  have hRepair : doRepair mixedDatabase.pages.verify
        ⟨durableDatabase.memory.header, mixedDatabase.memory.readFromSecondary⟩ =
      .ok (MemoryState.repairPrimaryCorrupted ⟨durableDatabase.memory.header, true⟩) :=
    doRepair_swapped rfl (by decide) (by decide)
  rw [checkIntegrity_eq reloadable_durableDatabase rfl, hRepair]
  rfl

/- After the non-durable commit the check ends on the last durable one: page 30 is discarded. -/
theorem checkIntegrity_discards :
    Reachable lowBytes pageThirtyHash mixedDatabase ∧ mixedDatabase.Undamaged ∧
      mixedDatabase.memory.roots = smallRoots 30 11 1 ∧
      ∃ after, Redbx.checkIntegrity lowBytes pageThirtyHash mixedDatabase = .ok (false, after) ∧
        after.memory.roots = smallRoots 20 21 0 ∧
        after.memory.header.primary.transactionId = 6 := by
  refine ⟨reachable_mixedDatabase, ⟨by decide, rfl⟩, rfl, _, checkIntegrity_mixedDatabase, ?_, ?_⟩
  · rw [finishCheck_roots]
    rfl
  · rfl

/- After durable commits only, the check passes. -/
theorem checkIntegrity_clean_durable :
    ∃ after, Redbx.checkIntegrity lowBytes pageThirtyHash durableDatabase = .ok (true, after) ∧
      after.memory.roots = smallRoots 20 21 0 :=
  (checkIntegrity_clean_iff reachable_durableDatabase).mpr
    ⟨durableDatabase.memory.header, _, DatabaseHeader.fromBytes_toBytes lowBytes _, rfl, by decide,
      rfl⟩

end OpenDatabase

end Redbx
