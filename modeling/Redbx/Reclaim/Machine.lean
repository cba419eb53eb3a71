import Redbx.Reclaim.Tracker

/-
  The life of pages over transactions.

  A database hands pages to a data tree and to a system tree and takes them back when no reader, no
  savepoint and no commit on disk can reach them. The state below holds which pages are in use, what
  the last commit and the last durable commit reach, the live readers and savepoints, and the books
  of the write transaction. Trees appear as the sets of their pages, the freed and allocated tables
  as their entries, one for each page.

  A commit is taken in the steps of `commit_inner`, so that a reader can come in between: the queued
  pages are stored, the freed tables are processed, the system pages that were let go are stored,
  and the new roots are published.

  Key definitions include:
    * `SystemTables`, `Commit`
-/

namespace Redbx.Reclaim

-- State

/- A savepoint with the pages of the root it keeps. -/
structure Savepoint (P : Type) where
  id : Nat
  transactionId : Nat
  userRoot : Finset P
  ephemeral : Bool
deriving DecidableEq

/- The pages of the system tree and what its tables list. -/
structure SystemTables (P : Type) where
  pages : Finset P
  dataFreed : List (Nat × P)
  systemFreed : List (Nat × P)
  dataAllocated : List (Nat × P)
  savepoints : List (Savepoint P)

structure Commit (P : Type) where
  transactionId : Nat
  dataPages : Finset P
  system : SystemTables P

/-
  The pages a write transaction accounts for. The pages allocated to the data tree are recorded
  unless the policy is to ignore them (`none`).
-/
structure Books (P : Type) where
  dataPages : Finset P
  freedPages : List P
  allocatedPages : Option (List P)
  system : SystemTables P
  systemFreedPages : List P
  postCommitFrees : List P

/- How far `commit_inner` has come. -/
inductive Stage where
  | editing
  | stored
  | processed
deriving DecidableEq

structure WriteTransaction (P : Type) where
  transactionId : Nat
  books : Books P
  dirty : Bool
  durable : Bool
  quickRepair : Bool
  createdPersistentSavepoints : List Nat
  deletedPersistentSavepoints : List (Savepoint P)
  stage : Stage

/- A reader has its id first and its root when it asks. -/
structure Reader (P : Type) where
  transactionId : Nat
  root : Option (Finset P)
deriving DecidableEq

/-
  `savepoints` are those whose reference has not been given back; which of them may be restored is
  in the tracker.
-/
structure Database (P : Type) where
  tracker : TransactionTracker
  allocated : Finset P
  uncommitted : Finset P
  unpersisted : Finset P
  durable : Commit P
  latest : Commit P
  readers : List (Reader P)
  savepoints : List (Savepoint P)
  writer : Option (WriteTransaction P)

variable {P : Type} [DecidableEq P]

/- The books a write transaction starts from. -/
def Commit.books (c : Commit P) : Books P where
  dataPages := c.dataPages
  freedPages := []
  allocatedPages := some []
  system := c.system
  systemFreedPages := []
  postCommitFrees := []

/- The write transaction with other books. -/
def WriteTransaction.setBooks (w : WriteTransaction P) (books : Books P) : WriteTransaction P :=
  { w with books := books }

/- What the new commit makes visible. -/
def WriteTransaction.commit (w : WriteTransaction P) : Commit P where
  transactionId := w.transactionId
  dataPages := w.books.dataPages
  system := w.books.system

namespace Database

/- A new database: no roots and no pages. -/
def init : Database P where
  tracker := TransactionTracker.new 1
  allocated := ∅
  uncommitted := ∅
  unpersisted := ∅
  durable := ⟨0, ∅, ⟨∅, [], [], [], []⟩⟩
  latest := ⟨0, ∅, ⟨∅, [], [], [], []⟩⟩
  readers := []
  savepoints := []
  writer := none

/- The write transaction, while it can still be edited. -/
def editing (db : Database P) : Option (WriteTransaction P) :=
  match db.writer with
  | some w => if w.stage = .editing then some w else none
  | none => none

-- Read transactions

/- First step of `begin_read`: take a reference on the id. -/
def registerRead (db : Database P) : Database P :=
  { db with
    tracker :=
      db.tracker.registerReadTransaction db.latest.transactionId
    readers := ⟨db.latest.transactionId, none⟩ :: db.readers }

/- Second step: read the data root. -/
def obtainRoot (db : Database P) (id : Nat) : Option (Database P) :=
  if (⟨id, none⟩ : Reader P) ∈ db.readers then
    some { db with readers := ⟨id, some db.latest.dataPages⟩ :: db.readers.erase ⟨id, none⟩ }
  else
    none

/- Both steps at once. -/
def beginRead (db : Database P) : Option (Database P) :=
  db.registerRead.obtainRoot db.latest.transactionId

def endRead (db : Database P) (reader : Reader P) : Option (Database P) :=
  if reader ∈ db.readers then
    some { db with
      tracker :=
        db.tracker.deallocateReadTransaction reader.transactionId
      readers := db.readers.erase reader }
  else
    none

-- Write transactions

def beginWrite (db : Database P) : Option (Database P) :=
  match db.writer with
  | some _ => none
  | none =>
    let (id, tracker) := db.tracker.startWriteTransaction
    some { db with
      tracker := tracker
      writer := some
        { transactionId := id
          books := db.latest.books
          dirty := false
          durable := true
          quickRepair := false
          createdPersistentSavepoints := []
          deletedPersistentSavepoints := []
          stage := .editing } }

/- Refused below immediate once savepoints were changed. -/
def setDurability (db : Database P) (durable : Bool) : Option (Database P) :=
  match db.editing with
  | none => none
  | some w =>
    if
      durable || (w.createdPersistentSavepoints.isEmpty && w.deletedPersistentSavepoints.isEmpty)
    then
      some { db with writer := some { w with durable := durable } }
    else
      some db

def setQuickRepair (db : Database P) (quickRepair : Bool) : Option (Database P) :=
  match db.editing with
  | none => none
  | some w =>
    some { db with writer := some { w with quickRepair := quickRepair } }

/- `set_dirty`: without savepoints the allocated pages need not be recorded any more. -/
def setDirty (db : Database P) : Option (Database P) :=
  match db.editing with
  | none => none
  | some w =>
    let books := if db.tracker.anySavepointExists then
        w.books
      else
        { w.books with allocatedPages := none }
    some { db with writer := some { w with dirty := true, books := books } }

/- `rollback_uncommitted_writes` and the end of the writer. -/
def abort (db : Database P) : Option (Database P) :=
  match db.editing with
  | none => none
  | some _ =>
    some { db with allocated := db.allocated \ db.uncommitted, uncommitted := ∅, writer := none }

-- Pages of the data tree

/- The write transaction, once tables may be edited. -/
def editable (db : Database P) : Option (WriteTransaction P) :=
  match db.editing with
  | some w => if w.dirty then some w else none
  | none => none

/- A page outside those in use goes to the data tree. -/
def allocate (db : Database P) (p : P) : Option (Database P) :=
  match db.editable with
  | none => none
  | some w =>
    if p ∈ db.allocated then
      none
    else
      some { db with
        allocated := insert p db.allocated
        uncommitted := insert p db.uncommitted
        writer := some (w.setBooks
          { w.books with
            dataPages := insert p w.books.dataPages
            allocatedPages :=
              w.books.allocatedPages.map (p :: ·) }) }

/-
  The data tree lets go of a page: an uncommitted page goes back to the allocator, another one is
  queued.
-/
def conditionalFree (db : Database P) (p : P) : Option (Database P) :=
  match db.editable with
  | none => none
  | some w =>
    if p ∉ w.books.dataPages then
      none
    else if p ∈ db.uncommitted then
      some { db with
        allocated := db.allocated.erase p
        uncommitted := db.uncommitted.erase p
        writer := some (w.setBooks
          { w.books with
            dataPages := w.books.dataPages.erase p
            allocatedPages :=
              w.books.allocatedPages.map (·.erase p) }) }
    else
      some { db with
        writer := some (w.setBooks
          { w.books with
            dataPages := w.books.dataPages.erase p
            freedPages := w.books.freedPages ++ [p] }) }

/- A page of a deleted table is queued in any case. -/
def pushFreed (db : Database P) (p : P) : Option (Database P) :=
  match db.editable with
  | none => none
  | some w =>
    if p ∈ w.books.dataPages then
      some { db with
        writer := some (w.setBooks
          { w.books with
            dataPages := w.books.dataPages.erase p
            freedPages := w.books.freedPages ++ [p] }) }
    else
      none

-- Pages of the system tree

/- The system tree is edited up to the very commit. -/
def systemAllocate (db : Database P) (p : P) : Option (Database P) :=
  match db.writer with
  | none => none
  | some w =>
    if p ∈ db.allocated then
      none
    else
      some { db with
        allocated := insert p db.allocated
        uncommitted := insert p db.uncommitted
        writer := some (w.setBooks
          { w.books with
            system :=
              { w.books.system with pages := insert p w.books.system.pages } }) }

def systemConditionalFree (db : Database P) (p : P) : Option (Database P) :=
  match db.writer with
  | none => none
  | some w =>
    let system :=
      { w.books.system with pages := w.books.system.pages.erase p }
    if p ∉ w.books.system.pages then
      none
    else if p ∈ db.uncommitted then
      some { db with
        allocated := db.allocated.erase p
        uncommitted := db.uncommitted.erase p
        writer := some (w.setBooks { w.books with system := system }) }
    else
      some { db with
        writer := some (w.setBooks
          { w.books with system := system, systemFreedPages := w.books.systemFreedPages ++ [p] }) }

/- A page of a deleted system table. -/
def systemPushFreed (db : Database P) (p : P) : Option (Database P) :=
  match db.writer with
  | none => none
  | some w =>
    if p ∈ w.books.system.pages then
      some { db with
        writer := some (w.setBooks
          { w.books with
            system :=
              { w.books.system with pages := w.books.system.pages.erase p }
            systemFreedPages :=
              w.books.systemFreedPages ++ [p] }) }
    else
      none

-- Savepoints

/- A savepoint of the last commit, with its references. -/
def allocateSavepoint (db : Database P) (ephemeral : Bool) : Savepoint P × Database P :=
  let registered := db.tracker.registerReadTransaction db.latest.transactionId
  let (id, tracker) := registered.allocateSavepoint db.latest.transactionId
  let savepoint : Savepoint P :=
    { id := id
      transactionId := db.latest.transactionId
      userRoot := db.latest.dataPages
      ephemeral := ephemeral }
  (savepoint,
    { db with tracker := tracker, savepoints := db.savepoints ++ [savepoint] })

/- Only in a transaction that has not opened a table. -/
def ephemeralSavepoint (db : Database P) : Option (Database P) :=
  match db.editing with
  | none => none
  | some w =>
    if w.dirty then
      none
    else
      some (db.allocateSavepoint true).2

def persistentSavepoint (db : Database P) : Option (Database P) :=
  match db.editing with
  | none => none
  | some w =>
    if w.dirty || !w.durable then
      none
    else
      let (savepoint, db) := db.allocateSavepoint false
      some { db with
        writer := some
          { w with
            books :=
              { w.books with
                system :=
                  { w.books.system with savepoints := w.books.system.savepoints ++ [savepoint] } }
            createdPersistentSavepoints :=
              w.createdPersistentSavepoints ++ [savepoint.id] } }

/- The reference is given back by the commit. -/
def deletePersistent (w : WriteTransaction P) (id : Nat) : WriteTransaction P :=
  match w.books.system.savepoints.find? (·.id == id) with
  | none => w
  | some savepoint =>
    { w with
      books :=
        { w.books with
          system :=
            { w.books.system with savepoints := w.books.system.savepoints.erase savepoint } }
      deletedPersistentSavepoints :=
        w.deletedPersistentSavepoints ++ [savepoint] }

def deletePersistentSavepoint (db : Database P) (id : Nat) : Option (Database P) :=
  match db.editing with
  | none => none
  | some w =>
    if w.durable then
      some { db with writer := some (deletePersistent w id) }
    else
      none

/- Give back the references of savepoints. -/
def deallocateSavepoints (db : Database P) (released : List (Savepoint P)) : Database P :=
  { db with
    tracker :=
      released.foldl (fun tracker s => tracker.deallocateSavepoint s.id s.transactionId) db.tracker
    savepoints :=
      db.savepoints.filter fun s => !(released.map Savepoint.id).contains s.id }

/- The handle of an ephemeral savepoint is dropped. -/
def dropSavepoint (db : Database P) (savepoint : Savepoint P) : Option (Database P) :=
  if savepoint ∈ db.savepoints ∧ savepoint.ephemeral then
    some (db.deallocateSavepoints [savepoint])
  else
    none

/- The root goes back and what came since is queued. -/
def restoreBooks (books : Books P) (savepoint : Savepoint P) : Books P :=
  { books with
    dataPages := savepoint.userRoot
    system :=
      { books.system with dataFreed := upTo savepoint.transactionId books.system.dataFreed }
    freedPages :=
      books.freedPages ++ (after savepoint.transactionId books.system.dataAllocated).map Prod.snd }

/-
  Later savepoints become invalid at once. Below immediate durability the deletion of the persistent
  ones fails, with everything before it done.
-/
def restoreSavepoint (db : Database P) (savepoint : Savepoint P) : Option (Database P) :=
  match db.editing with
  | none => none
  | some w =>
    if
      savepoint ∈ db.savepoints ∧ db.tracker.isValidSavepoint savepoint.id
    then
      let later := (w.books.system.savepoints.map Savepoint.id).filter (savepoint.id < ·)
      let restored :=
        { w with dirty := true, books := restoreBooks w.books savepoint }
      some { db with
        tracker :=
          db.tracker.invalidateSavepointsAfter savepoint.id
        writer := some (if w.durable then later.foldl deletePersistent restored else restored) }
    else
      none

-- Commit

/- The entries that a savepoint can still ask for. -/
def purgeAllocated (tracker : TransactionTracker) (table : List (Nat × P)) : List (Nat × P) :=
  match tracker.oldestSavepoint with
  | some (_, oldest) =>
    table.filter fun entry => decide (oldest ≤ entry.1)
  | none => []

/- `store_data_freed_pages` and `store_allocated_pages`. -/
def storePages (db : Database P) : Option (Database P) :=
  match db.editing with
  | none => none
  | some w =>
    let system := w.books.system
    some { db with
      writer := some
        { w with
          stage := .stored
          books :=
            { w.books with
              freedPages := []
              allocatedPages := some []
              system :=
                { system with
                  dataFreed :=
                    system.dataFreed ++ w.books.freedPages.map (Prod.mk w.transactionId)
                  dataAllocated :=
                    purgeAllocated db.tracker (system.dataAllocated ++
                        (w.books.allocatedPages.getD []).map (Prod.mk w.transactionId)) } } } }

/- What a walk over a freed table frees and keeps. -/
structure Extracted (P : Type) where
  freed : List P
  kept : List (Nat × P)
  unpersisted : Finset P

/- `process_freed_pages`: all entries before the horizon. -/
def extractUntil (freeUntil : Nat) (unpersisted : Finset P) (table : List (Nat × P)) :
    Extracted P where
  freed :=
    (table.filter fun e => decide (e.1 < freeUntil)).map Prod.snd
  kept := table.filter fun e => !decide (e.1 < freeUntil)
  unpersisted := unpersisted

/-
  `process_freed_pages_nondurable_helper`: of the candidate transactions, only pages that never were
  on disk.
-/
def extractUnpersisted (candidate : Nat → Bool) (unpersisted : Finset P) :
    List (Nat × P) → Extracted P
  | [] => ⟨[], [], unpersisted⟩
  | (r, p) :: rest =>
    if candidate r && decide (p ∈ unpersisted) then
      let out := extractUnpersisted candidate (unpersisted.erase p) rest
      { out with freed := p :: out.freed }
    else
      let out := extractUnpersisted candidate unpersisted rest
      { out with kept := (r, p) :: out.kept }

/- The horizon of `durable_commit`. -/
def durableHorizon (tracker : TransactionTracker) (id : Nat) : Nat :=
  match tracker.oldestLiveReadTransaction with
  | some oldest => oldest + 1
  | none => id

/- The horizon of `non_durable_commit`. -/
def nonDurableHorizon (tracker : TransactionTracker) (id : Nat) : Nat :=
  let freeUntil := match tracker.oldestLiveReadNondurableTransaction with
    | some oldest => oldest + 1
    | none => id
  match tracker.oldestSavepoint with
  | some (_, oldest) => min freeUntil oldest
  | none => freeUntil

/- A commit whose freed pages wait to be looked through. -/
def isCandidate (tracker : TransactionTracker) (freeUntil id : Nat) : Bool :=
  let first := (tracker.oldestUnprocessedNonDurableCommit).getD freeUntil
  decide (first ≤ id) && decide (id < freeUntil) && tracker.isUnprocessedNonDurableCommit id

/- The candidates that a freed table lists. -/
def processedIds (candidate : Nat → Bool) (table : List (Nat × P)) : List Nat :=
  (table.map Prod.fst).filter candidate

/- Both freed tables, as the durability asks for. -/
def extract (db : Database P) (w : WriteTransaction P) : Extracted P × Extracted P :=
  let system := w.books.system
  if w.durable then
    let freeUntil := durableHorizon db.tracker w.transactionId
    (extractUntil freeUntil db.unpersisted system.dataFreed,
      extractUntil freeUntil db.unpersisted system.systemFreed)
  else
    let candidate := isCandidate db.tracker (nonDurableHorizon db.tracker w.transactionId)
    let data := extractUnpersisted candidate db.unpersisted system.dataFreed
    (data, extractUnpersisted candidate data.unpersisted system.systemFreed)

/- The commits that were looked through. -/
def markProcessed (tracker : TransactionTracker) (w : WriteTransaction P) : TransactionTracker :=
  if w.durable then
    tracker
  else
    let candidate := isCandidate tracker (nonDurableHorizon tracker w.transactionId)
    (processedIds candidate w.books.system.dataFreed ++
      processedIds candidate w.books.system.systemFreed).foldl
        TransactionTracker.markUnprocessedNonDurableCommit
        tracker

def processFreedPages (db : Database P) : Option (Database P) :=
  match db.writer with
  | none => none
  | some w =>
    if w.stage ≠ .stored then
      none
    else
      let (data, system) := extract db w
      let freed := (data.freed ++ system.freed).toFinset
      some { db with
        tracker := markProcessed db.tracker w
        allocated := db.allocated \ freed
        uncommitted := db.uncommitted \ freed
        unpersisted := system.unpersisted
        writer := some
          { w with
            stage := .processed
            books :=
              { w.books with
                system :=
                  { w.books.system with dataFreed := data.kept, systemFreed := system.kept } } } }

/-
  `store_system_freed_pages`: in a non-durable commit the pages that never were on disk are freed
  after the commit instead.
-/
def storeSystemFreedPages (db : Database P) : Option (Database P) :=
  match db.writer with
  | none => none
  | some w =>
    if w.stage ≠ .processed ∨ (w.durable ∧ !w.quickRepair) then
      none
    else
      let immediate : P → Bool := fun p => !w.durable && decide (p ∈ db.unpersisted)
      some { db with
        writer := some (w.setBooks
          { w.books with
            systemFreedPages := []
            postCommitFrees :=
              w.books.postCommitFrees ++ w.books.systemFreedPages.filter immediate
            system :=
              { w.books.system with
                systemFreed :=
                  w.books.system.systemFreed ++ (w.books.systemFreedPages.filter
                      (!immediate ·)).map (Prod.mk w.transactionId) } }) }

/-
  The new roots become visible. A durable commit ends the pending ones; a non-durable one is
  registered as pending. System pages that were let go are freed right after.
-/
def publish (db : Database P) : Option (Database P) :=
  match db.writer with
  | none => none
  | some w =>
    if
      w.stage ≠ .processed ∨ (!w.durable ∧ w.books.systemFreedPages ≠ [])
    then
      none
    else
      let freed := (w.books.systemFreedPages ++ w.books.postCommitFrees).toFinset
      let commit := w.commit
      let published := if w.durable then
          { db with
            tracker := db.tracker.clearPendingNonDurableCommits
            allocated := db.allocated \ freed
            uncommitted := ∅
            unpersisted := ∅
            durable := commit
            latest := commit
            writer := none }
        else
          { db with
            tracker :=
              db.tracker.registerNonDurableCommit w.transactionId db.durable.transactionId
            allocated := db.allocated \ freed
            uncommitted := ∅
            unpersisted := db.unpersisted ∪ db.uncommitted
            latest := commit
            writer := none }
      some (published.deallocateSavepoints w.deletedPersistentSavepoints)

end Database

-- Runs

inductive Event (P : Type) where
  | beginRead
  | registerRead
  | obtainRoot (id : Nat)
  | endRead (reader : Reader P)
  | beginWrite
  | setDurability (durable : Bool)
  | setQuickRepair (quickRepair : Bool)
  | setDirty
  | allocate (p : P)
  | conditionalFree (p : P)
  | pushFreed (p : P)
  | systemAllocate (p : P)
  | systemConditionalFree (p : P)
  | systemPushFreed (p : P)
  | ephemeralSavepoint
  | persistentSavepoint
  | deletePersistentSavepoint (id : Nat)
  | dropSavepoint (savepoint : Savepoint P)
  | restoreSavepoint (savepoint : Savepoint P)
  | storePages
  | processFreedPages
  | storeSystemFreedPages
  | publish
  | abort

namespace Database

def step (db : Database P) : Event P → Option (Database P)
  | .beginRead => db.beginRead
  | .registerRead => some db.registerRead
  | .obtainRoot id => db.obtainRoot id
  | .endRead reader => db.endRead reader
  | .beginWrite => db.beginWrite
  | .setDurability durable => db.setDurability durable
  | .setQuickRepair quickRepair => db.setQuickRepair quickRepair
  | .setDirty => db.setDirty
  | .allocate p => db.allocate p
  | .conditionalFree p => db.conditionalFree p
  | .pushFreed p => db.pushFreed p
  | .systemAllocate p => db.systemAllocate p
  | .systemConditionalFree p => db.systemConditionalFree p
  | .systemPushFreed p => db.systemPushFreed p
  | .ephemeralSavepoint => db.ephemeralSavepoint
  | .persistentSavepoint => db.persistentSavepoint
  | .deletePersistentSavepoint id =>
    db.deletePersistentSavepoint id
  | .dropSavepoint savepoint => db.dropSavepoint savepoint
  | .restoreSavepoint savepoint => db.restoreSavepoint savepoint
  | .storePages => db.storePages
  | .processFreedPages => db.processFreedPages
  | .storeSystemFreedPages => db.storeSystemFreedPages
  | .publish => db.publish
  | .abort => db.abort

/- Take the events one after the other. -/
def run (db : Database P) : List (Event P) → Option (Database P)
  | [] => some db
  | event :: rest =>
    match db.step event with
    | some db => db.run rest
    | none => none

end Database

/- The states that runs reach whose steps all meet a condition on the state and the event. -/
inductive Reachable (Meets : Database P → Event P → Prop) : Database P → Prop
  | init : Reachable Meets Database.init
  | step {db db' : Database P} (event : Event P) (hReach : Reachable Meets db)
      (hMeets : Meets db event) (hStep : db.step event = some db') :
      Reachable Meets db'

end Redbx.Reclaim
