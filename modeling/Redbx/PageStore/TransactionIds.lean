import Redbx.PageStore.Integrity

/-
  The ids of committed transactions.

  Write transactions take their ids from a counter in memory. The repair commit of `check_integrity`
  takes the id after the last committed one, as the reloaded header has it, and leaves the counter
  alone. With a non-durable commit pending, the reloaded header does not have its id.

  Key theorems include:
    * `TrackedDatabase.step_ordered`, `TrackedDatabase.committed_ids_increase`
-/

namespace Redbx

open OpenDatabase

-- The Tracker

/- The ids of all commits are kept, the last one first. -/
structure TrackedDatabase where
  db : OpenDatabase
  nextTransactionId : UInt64
  committed : List UInt64

/- What happens to the database between transactions. -/
inductive IdEvent where
  | durable (result : TransactionResult) (twoPhase : Bool)
  | nonDurable (result : TransactionResult)
  | abort (layout : Layout) (pages : PageView)
  | check
  | reopen (result : TransactionResult)
  | damage (pages : PageView)

namespace TransactionResult

/- The transaction runs under an id. -/
def withId (result : TransactionResult) (id : UInt64) : TransactionResult :=
  { result with transactionId := id }

end TransactionResult

namespace TrackedDatabase

variable (hash : Bytes → Checksum) (allocatorHash : Layout → Finset PageNumber → Checksum)

/-
  `Database::new`: the counter starts behind the last committed id, and a first write transaction is
  aborted.
-/
def opened (db : OpenDatabase) : TrackedDatabase where
  db := db
  nextTransactionId :=
    db.memory.header.primary.transactionId + 1 + 1
  committed := [db.memory.header.primary.transactionId]

/-
  A write transaction increments the counter. A clean close commits once more, in two phases, before
  the database is opened again.
-/
def step (self : TrackedDatabase) : IdEvent → Except DatabaseError TrackedDatabase
  | .durable result twoPhase =>
    let id := self.nextTransactionId + 1
    .ok ⟨self.db.durableCommit hash (result.withId id) twoPhase, id, id :: self.committed⟩
  | .nonDurable result =>
    let id := self.nextTransactionId + 1
    .ok ⟨self.db.nonDurableCommit (result.withId id), id, id :: self.committed⟩
  | .abort layout pages =>
    .ok ⟨self.db.abort layout pages, self.nextTransactionId + 1, self.committed⟩
  | .check =>
    match checkIntegrity hash allocatorHash self.db with
    | .error e => .error e
    | .ok (wasClean, after) =>
      .ok ⟨after, self.nextTransactionId, if wasClean then self.committed
        else after.memory.header.primary.transactionId :: self.committed⟩
  | .reopen result =>
    let id := self.nextTransactionId + 1
    .ok ⟨self.db.durableCommit hash (result.withId id) true, id + 1 + 1, id :: self.committed⟩
  | .damage pages =>
    .ok { self with db := { self.db with pages := pages } }

def run : List IdEvent → TrackedDatabase → Except DatabaseError TrackedDatabase
  | [], self => .ok self
  | event :: rest, self =>
    match self.step hash allocatorHash event with
    | .error e => .error e
    | .ok after => run rest after

/-
  What a step needs: no id overflows, and a check is made without a non-durable commit pending, on a
  primary slot that verifies, and either on an allocator that agrees with the disk or after a write
  transaction was begun since the last commit.
-/
structure Advances (tracked : TrackedDatabase) (event : IdEvent) : Prop where
  room : tracked.nextTransactionId.toNat + 3 < 2 ^ 64
  durable : event = .check → tracked.db.memory.readFromSecondary = false
  verified : event = .check → tracked.db.pages.verify
      tracked.db.memory.header.primary.roots = .ok true
  behind : event = .check →
    tracked.db.memory.header.primary.transactionId < tracked.nextTransactionId ∨
      tracked.db.DiskAgrees hash allocatorHash

/- Runs of such steps from a database that was opened. -/
inductive SafeRun : TrackedDatabase → Prop where
  | opened (header : DatabaseHeader) (allocated : Finset PageNumber) (pages : PageView)
      (hRecovery : header.recoveryRequired = true) (hTwo : header.twoPhaseCommit = true)
      (hRoom : header.primary.transactionId.toNat + 2 < 2 ^ 64) :
      SafeRun (opened
          { memory := ⟨header, false⟩
            file := header.toBytes hash true
            allocated := allocated
            pages := pages })
  | step {tracked after : TrackedDatabase} {event : IdEvent} (hRun : SafeRun tracked)
      (hAdvances : Advances hash allocatorHash tracked event)
      (hStep : tracked.step hash allocatorHash event = .ok after) :
      SafeRun after

end TrackedDatabase

-- The Check

section Check

variable {hash : Bytes → Checksum} {allocatorHash : Layout → Finset PageNumber → Checksum}
  {db after : OpenDatabase} {header : DatabaseHeader} {wasClean : Bool}

/-
  Without a non-durable commit pending, the check keeps the primary slot of the file or commits it
  under the next id.
-/
theorem checkIntegrity_primary
    (hReload : Reloadable header) (hFile : db.file = header.toBytes hash true)
    (hDurable : db.memory.readFromSecondary = false)
    (hVerified : db.pages.verify header.primary.roots = .ok true)
    (hCheck : checkIntegrity hash allocatorHash db = .ok (wasClean, after)) :
    after.file = after.memory.header.toBytes hash true ∧ after.memory.readFromSecondary = false ∧
      after.memory.header.recoveryRequired = true ∧
      after.memory.header.primary.transactionId = (if wasClean then header.primary.transactionId
        else header.primary.transactionId + 1) ∧
      (after.memory.header.twoPhaseCommit = true ∨ wasClean = true ∧
          after.memory.header.twoPhaseCommit = header.twoPhaseCommit ∧
          after.memory.header.primary = header.primary ∧
          after.memory.header.secondary = header.secondary) := by
  have hRepair : doRepair db.pages.verify ⟨header, false⟩ =
      .ok ⟨header, false⟩ := doRepair_kept hVerified
  rw [checkIntegrity_eq hReload hFile, hDurable, hRepair] at hCheck
  simp only [bind, Except.bind, pure, Except.pure, Except.ok.injEq, Prod.mk.injEq] at hCheck
  rcases hCheck with ⟨hClean, hAfter⟩
  rw [hClean] at hAfter
  subst hAfter
  cases wasClean with
  | true => exact ⟨rfl, rfl, rfl, rfl, Or.inr ⟨rfl, rfl, rfl, rfl⟩⟩
  | false =>
    refine ⟨rfl, rfl, rfl, ?_, Or.inl rfl⟩
    exact congrArg TransactionHeader.transactionId (DatabaseHeader.committed_primary
        (header.setRecoveryRequired false) _)

end Check

-- Order

namespace TrackedDatabase

variable {hash : Bytes → Checksum} {allocatorHash : Layout → Finset PageNumber → Checksum}
  {self after : TrackedDatabase} {event : IdEvent}

/-
  The ids fall from the last commit on, and the counter is not behind them. Without a non-durable
  commit pending, the primary slot has the last of them, in memory and file.
-/
structure Ordered (hash : Bytes → Checksum) (tracked : TrackedDatabase) : Prop where
  file : ∃ header, Reloadable header ∧ tracked.db.file = header.toBytes hash true ∧
    (tracked.db.memory.readFromSecondary = false →
      header.primary = tracked.db.memory.header.primary)
  recovery : tracked.db.memory.header.recoveryRequired = true
  falling : tracked.committed.Pairwise (· > ·)
  counter : ∀ id ∈ tracked.committed, id ≤ tracked.nextTransactionId
  primary : tracked.db.memory.header.primary.transactionId ≤ tracked.nextTransactionId
  last : tracked.db.memory.readFromSecondary = false → ∀ id ∈ tracked.committed,
      id ≤ tracked.db.memory.header.primary.transactionId

theorem lt_nextId {id : UInt64} (hRoom : id.toNat + 1 < 2 ^ 64) : id < id + 1 := by
  rw [UInt64.lt_iff_toNat_lt, UInt64.toNat_add]
  have hOne : (1 : UInt64).toNat = 1 := rfl
  omega

theorem toNat_nextId {id : UInt64} (hRoom : id.toNat + 1 < 2 ^ 64) :
    (id + 1).toNat = id.toNat + 1 := by
  rw [UInt64.toNat_add]
  have hOne : (1 : UInt64).toNat = 1 := rfl
  omega

variable (hOrdered : Ordered hash self)
include hOrdered

theorem Ordered.push {n : UInt64} (hLess : self.nextTransactionId < n) :
    (n :: self.committed).Pairwise (· > ·) ∧ ∀ id ∈ n :: self.committed, id ≤ n := by
  have hBelow : ∀ id ∈ self.committed, id < n := by
    intro id hIn
    exact UInt64.lt_of_le_of_lt (hOrdered.counter id hIn) hLess
  refine ⟨List.pairwise_cons.mpr ⟨hBelow, hOrdered.falling⟩, ?_⟩
  intro id hIn
  rcases List.mem_cons.mp hIn with rfl | hOld
  · exact UInt64.le_refl _
  · exact UInt64.le_of_lt (hBelow id hOld)

theorem Ordered.durable {next : UInt64}
    (hRoom : self.nextTransactionId.toNat + 1 < 2 ^ 64) (hNext : self.nextTransactionId + 1 ≤ next)
    (result : TransactionResult) (twoPhase : Bool) :
    Ordered hash ⟨self.db.durableCommit hash (result.withId (self.nextTransactionId + 1)) twoPhase,
        next, (self.nextTransactionId + 1) :: self.committed⟩ := by
  have hLess := lt_nextId hRoom
  rcases hOrdered.push hLess with ⟨hFalling, hBelow⟩
  have hPrimary : ((self.db.durableCommit hash (result.withId (self.nextTransactionId + 1))
        twoPhase).memory.header.primary).transactionId =
      self.nextTransactionId + 1 :=
    congrArg TransactionHeader.transactionId (DatabaseHeader.committed_primary _ _)
  refine ⟨⟨_, reloadable_committed _ hOrdered.recovery ?_, rfl,
    fun _ => rfl⟩, hOrdered.recovery, hFalling, ?_, ?_, ?_⟩
  · exact UInt64.le_of_lt (UInt64.lt_of_le_of_lt hOrdered.primary hLess)
  · intro id hIn
    exact UInt64.le_trans (hBelow id hIn) hNext
  · simp only
    rw [hPrimary]
    exact hNext
  · intro _ id hIn
    simp only
    rw [hPrimary]
    exact hBelow id hIn

omit hOrdered in
theorem setSecondary_primary (header : DatabaseHeader) (slot : TransactionHeader) :
    (header.setSecondary slot).primary = header.primary := by
  have hNe : header.primarySlot ≠ header.primarySlot + 1 := by
    generalize header.primarySlot = i
    revert i
    decide
  exact Function.update_of_ne hNe _ _

theorem Ordered.nonDurable (hRoom : self.nextTransactionId.toNat + 1 < 2 ^ 64)
    (result : TransactionResult) :
    Ordered hash ⟨self.db.nonDurableCommit (result.withId (self.nextTransactionId + 1)),
        self.nextTransactionId + 1, (self.nextTransactionId + 1) :: self.committed⟩ := by
  have hLess := lt_nextId hRoom
  rcases hOrdered.push hLess with ⟨hFalling, hBelow⟩
  rcases hOrdered.file with ⟨header, hReload, hFile, _⟩
  have hPrimary : (self.db.nonDurableCommit (result.withId
        (self.nextTransactionId + 1))).memory.header.primary =
      self.db.memory.header.primary :=
    setSecondary_primary _ _
  refine ⟨⟨header, hReload, hFile, fun hNot => by cases hNot⟩,
    hOrdered.recovery, hFalling, hBelow, ?_,
    fun hNot => by cases hNot⟩
  simp only
  rw [hPrimary]
  exact UInt64.le_of_lt (UInt64.lt_of_le_of_lt hOrdered.primary hLess)

theorem Ordered.check {wasClean : Bool} {db : OpenDatabase}
    (hAdvances : Advances hash allocatorHash self .check)
    (hCheck : checkIntegrity hash allocatorHash self.db = .ok (wasClean, db)) :
    Ordered hash ⟨db, self.nextTransactionId, if wasClean then self.committed
      else db.memory.header.primary.transactionId :: self.committed⟩ := by
  have hDurable := hAdvances.durable rfl
  rcases hOrdered.file with ⟨header, hReload, hFile, hSame⟩
  have hPrimary := hSame hDurable
  have hVerified := hAdvances.verified rfl
  have hLast := hOrdered.last hDurable
  rw [← hPrimary] at hVerified hLast
  rcases checkIntegrity_primary hReload hFile hDurable hVerified
    hCheck with ⟨hNewFile, hNewFlag, hNewRecovery, hId, hTwo⟩
  have hKept : Reloadable db.memory.header := by
    refine ⟨hNewRecovery, ?_⟩
    rcases hTwo with hTwo | ⟨_, hSameTwo, hFirst, hSecond⟩
    · exact Or.inl hTwo
    · rw [hSameTwo, hFirst, hSecond]
      exact hReload.kept
  have hBound := hOrdered.primary
  rw [← hPrimary] at hBound
  cases wasClean with
  | true =>
    rw [if_pos rfl] at hId
    refine ⟨⟨_, hKept, hNewFile, fun _ => rfl⟩, hNewRecovery,
      hOrdered.falling, hOrdered.counter, ?_, ?_⟩
    · simp only
      rw [hId]
      exact hBound
    · intro _ id hIn
      simp only
      rw [hId]
      exact hLast id hIn
  | false =>
    -- the repair commit is made only behind the counter
    have hLess : header.primary.transactionId < self.nextTransactionId := by
      rcases hAdvances.behind rfl with hBehind | hAgrees
      · rw [hPrimary]
        exact hBehind
      · rcases hAgrees.clean ⟨⟨header, hReload, hFile⟩, hOrdered.recovery⟩ with ⟨_, hClean, _⟩
        rw [hClean] at hCheck
        cases hCheck
    have hRoom : header.primary.transactionId.toNat + 1 < 2 ^ 64 := by
      have hNat := UInt64.lt_iff_toNat_lt.mp hLess
      have hSmall := hAdvances.room
      omega
    have hUp := lt_nextId hRoom
    have hNext : header.primary.transactionId + 1 ≤ self.nextTransactionId := by
      rw [UInt64.le_iff_toNat_le, toNat_nextId hRoom]
      exact UInt64.lt_iff_toNat_lt.mp hLess
    rw [if_neg (by simp)] at hId
    have hBelow : ∀ id ∈ self.committed, id < db.memory.header.primary.transactionId := by
      intro id hIn
      rw [hId]
      exact UInt64.lt_of_le_of_lt (hLast id hIn) hUp
    refine ⟨⟨_, hKept, hNewFile, fun _ => rfl⟩, hNewRecovery, ?_, ?_, ?_, ?_⟩
    · exact List.pairwise_cons.mpr ⟨hBelow, hOrdered.falling⟩
    · intro id hIn
      rcases List.mem_cons.mp hIn with rfl | hOld
      · rw [hId]
        exact hNext
      · exact hOrdered.counter id hOld
    · simp only
      rw [hId]
      exact hNext
    · intro _ id hIn
      rcases List.mem_cons.mp hIn with rfl | hOld
      · exact UInt64.le_refl _
      · exact UInt64.le_of_lt (hBelow id hOld)

/- One step. -/
theorem step_ordered (hAdvances : Advances hash allocatorHash self event)
    (hStep : self.step hash allocatorHash event = .ok after) :
    Ordered hash after := by
  have hRoom := hAdvances.room
  have hOne : self.nextTransactionId.toNat + 1 < 2 ^ 64 := by omega
  cases event with
  | durable result twoPhase =>
    cases hStep
    exact hOrdered.durable hOne (UInt64.le_refl _) result twoPhase
  | nonDurable result =>
    cases hStep
    exact hOrdered.nonDurable hOne result
  | abort =>
    cases hStep
    have hLess := lt_nextId hOne
    refine ⟨hOrdered.file, hOrdered.recovery, hOrdered.falling, ?_, ?_, hOrdered.last⟩
    · intro id hIn
      exact UInt64.le_of_lt (UInt64.lt_of_le_of_lt (hOrdered.counter id hIn) hLess)
    · exact UInt64.le_of_lt (UInt64.lt_of_le_of_lt hOrdered.primary hLess)
  | check =>
    cases hCheck : checkIntegrity hash allocatorHash self.db with
    | error e =>
      simp only [step, hCheck] at hStep
      cases hStep
    | ok result =>
      rcases result with ⟨_, _⟩
      simp only [step, hCheck] at hStep
      cases hStep
      exact hOrdered.check hAdvances hCheck
  | reopen result =>
    cases hStep
    have hTwo : (self.nextTransactionId + 1).toNat + 1 < 2 ^ 64 := by
      rw [toNat_nextId hOne]
      omega
    have hThree : (self.nextTransactionId + 1 + 1).toNat + 1 < 2 ^ 64 := by
      rw [toNat_nextId hTwo, toNat_nextId hOne]
      omega
    exact hOrdered.durable hOne (UInt64.le_of_lt (UInt64.lt_trans (lt_nextId hTwo)
        (lt_nextId hThree))) result true
  | damage =>
    cases hStep
    exact ⟨hOrdered.file, hOrdered.recovery, hOrdered.falling, hOrdered.counter, hOrdered.primary,
      hOrdered.last⟩

omit hOrdered

theorem SafeRun.ordered (hRun : SafeRun hash allocatorHash self) : Ordered hash self := by
  induction hRun with
  | opened header _ _ hRecovery hTwo =>
    have hFirst := lt_nextId (show header.primary.transactionId.toNat + 1 < 2 ^ 64 by
        omega)
    have hSecond : header.primary.transactionId + 1 < header.primary.transactionId + 1 + 1 := by
      apply lt_nextId
      rw [toNat_nextId (by omega)]
      omega
    have hLe := UInt64.le_of_lt (UInt64.lt_trans hFirst hSecond)
    refine ⟨⟨header, ⟨hRecovery, Or.inl hTwo⟩, rfl,
      fun _ => rfl⟩, hRecovery, List.pairwise_singleton _ _,
      ?_, hLe, ?_⟩
    · intro id hIn
      rcases List.mem_singleton.mp hIn with rfl
      exact hLe
    · intro _ id hIn
      rcases List.mem_singleton.mp hIn with rfl
      exact UInt64.le_refl _
  | step hRun hAdvances hStep ih => exact step_ordered ih hAdvances hStep

/- In every such run the ids strictly increase. -/
theorem committed_ids_increase (hRun : SafeRun hash allocatorHash self) :
    self.committed.Pairwise (· > ·) :=
  hRun.ordered.falling

/- The commits of `durableDatabase`, before their ids are given. -/
def durableEvents : List IdEvent :=
  [.durable (smallResult (smallRoots 10 11 0) firstChecksums 0) false,
    .durable (smallResult (smallRoots 20 21 0) firstChecksums 0) false]

/- Two durable commits after an open, and a check. -/
theorem durable_ids_increase :
    ∃ tracked, run lowBytes pageThirtyHash durableEvents (opened openedDatabase) = .ok tracked ∧
      tracked.db = durableDatabase ∧
      tracked.committed = [5, 4, 1] ∧
      tracked.committed.Pairwise (· > ·) ∧
      ∃ after, tracked.step lowBytes pageThirtyHash .check = .ok after ∧
        after.committed.Pairwise (· > ·) := by
  have hOpened : SafeRun lowBytes pageThirtyHash (opened openedDatabase) :=
    .opened _ ∅ _ rfl rfl (by decide)
  have hCommit (tracked : TrackedDatabase) (result : TransactionResult)
      (hRoom : tracked.nextTransactionId.toNat + 3 < 2 ^ 64) :
      Advances lowBytes pageThirtyHash tracked (.durable result false) :=
    ⟨hRoom, nofun, nofun, nofun⟩
  have hFirst := SafeRun.step hOpened
    (hCommit _ (smallResult (smallRoots 10 11 0) firstChecksums 0) (by decide)) rfl
  have hSecond := SafeRun.step hFirst
    (hCommit _ (smallResult (smallRoots 20 21 0) firstChecksums 0) (by decide)) rfl
  have hAgrees : durableDatabase.DiskAgrees lowBytes pageThirtyHash :=
    ⟨durableDatabase.memory.header, _, DatabaseHeader.fromBytes_toBytes lowBytes _, rfl, by decide,
      rfl⟩
  rcases hAgrees.clean reachable_durableDatabase.consistent with ⟨checked, hCheck, _⟩
  refine ⟨⟨durableDatabase, 5, [5, 4, 1]⟩, rfl, rfl, rfl, committed_ids_increase hSecond, ?_⟩
  have hStep : step lowBytes pageThirtyHash ⟨durableDatabase, 5, [5, 4, 1]⟩ .check =
      .ok ⟨checked, 5, [5, 4, 1]⟩ := by
    simp only [step, hCheck]
    rfl
  exact ⟨_, hStep, committed_ids_increase (.step hSecond
    ⟨by decide, fun _ => rfl, fun _ => by decide, fun _ => Or.inr hAgrees⟩ hStep)⟩

/-
  A check after a non-durable commit makes a repair commit under the id of that commit.
-/
theorem repair_commit_reuses_id :
    ∃ tracked, run lowBytes pageThirtyHash (durableEvents ++
          [.nonDurable (smallResult (smallRoots 30 11 1) laterChecksums 0), .check])
        (opened openedDatabase) = .ok tracked ∧
      tracked.committed = [6, 6, 5, 4, 1] := by
  have hFirst : step lowBytes pageThirtyHash (opened openedDatabase)
        (.durable (smallResult (smallRoots 10 11 0) firstChecksums 0) false) =
      .ok ⟨openedDatabase.durableCommit lowBytes
        (smallResult (smallRoots 10 11 0) firstChecksums 4) false, 4, [4, 1]⟩ := rfl
  have hSecond : step lowBytes pageThirtyHash ⟨openedDatabase.durableCommit lowBytes
          (smallResult (smallRoots 10 11 0) firstChecksums 4) false, 4, [4, 1]⟩
        (.durable (smallResult (smallRoots 20 21 0) firstChecksums 0) false) =
      .ok ⟨durableDatabase, 5, [5, 4, 1]⟩ := rfl
  have hThird : step lowBytes pageThirtyHash ⟨durableDatabase, 5, [5, 4, 1]⟩
        (.nonDurable (smallResult (smallRoots 30 11 1) laterChecksums 0)) =
      .ok ⟨mixedDatabase, 6, [6, 5, 4, 1]⟩ := rfl
  have hLast : step lowBytes pageThirtyHash ⟨mixedDatabase, 6, [6, 5, 4, 1]⟩ .check =
      .ok ⟨finishCheck lowBytes mixedDatabase
        (MemoryState.repairPrimaryCorrupted ⟨durableDatabase.memory.header, true⟩) false, 6,
        [6, 6, 5, 4, 1]⟩ := by
    simp only [step, checkIntegrity_mixedDatabase]
    rfl
  simp only [run, durableEvents, List.cons_append, List.nil_append, hFirst, hSecond, hThird, hLast]
  exact ⟨_, rfl, rfl⟩

end TrackedDatabase

end Redbx
