import Redbx.Core.Disk
import Redbx.PageStore.Header

/-
  Durable commits and the repair of a header after a crash.

  `commit_inner` is the list of header writes and flushes it makes. Tree checksum verification is a
  parameter here: it tells of a pair of roots whether all their pages are good.

  Key definitions include:
    * `CommitRequest`, `DatabaseHeader.staged`
-/

namespace Redbx

open Bytes

/- The data root and the system root of a commit. -/
structure Roots where
  data : Option BtreeHeader
  system : Option BtreeHeader
  deriving DecidableEq

/- The roots a slot stores. -/
def TransactionHeader.roots (slot : TransactionHeader) : Roots := ⟨slot.userRoot, slot.systemRoot⟩

-- Commit

/-
  The arguments of `commit`. The layout is the one the transaction's allocations and `try_shrink`
  left.
-/
structure CommitRequest where
  roots : Roots
  transactionId : UInt64
  twoPhase : Bool
  fullRegions : UInt32
  trailingPartialRegionPages : UInt32

namespace CommitRequest

/- The slot a commit writes. -/
def slot (request : CommitRequest) : TransactionHeader where
  userRoot := request.roots.data
  systemRoot := request.roots.system
  transactionId := request.transactionId

@[simp] theorem slot_roots (request : CommitRequest) : request.slot.roots = request.roots := rfl

@[simp] theorem slot_transactionId (request : CommitRequest) : request.slot.transactionId =
      request.transactionId := rfl

end CommitRequest

namespace DatabaseHeader

/- The header of the first write: the new secondary slot. -/
def staged (header : DatabaseHeader) (request : CommitRequest) : DatabaseHeader :=
  { header with
    fullRegions := request.fullRegions
    trailingPartialRegionPages :=
      request.trailingPartialRegionPages }.setSecondary
    request.slot

/-
  The header of the second write: the new slot is primary, and the god byte records whether it was a
  two-phase commit.
-/
def committed (header : DatabaseHeader) (request : CommitRequest) : DatabaseHeader :=
  { (header.staged request).swapPrimarySlot with twoPhaseCommit := request.twoPhase }

end DatabaseHeader

/- `commit_inner`: what reaches the storage, in order. -/
def commitInner (hash : Bytes → Checksum) (header : DatabaseHeader)
    (request : CommitRequest) : List IoEvent :=
  [.write ((header.staged request).toBytes hash true)] ++
    (if request.twoPhase then [.flush] else []) ++
    [.write ((header.committed request).toBytes hash true), .flush]

-- Repair

/-
  The header part of `TransactionalMemory::new`: the primary is picked anew if the database was not
  closed, or if the file has another length than the layout says.
-/
def openHeader (hash : Bytes → Checksum) (lengthDiffers : Bool) (image : Bytes) :
    Except DatabaseError DatabaseHeader := do
  let (header, repairInfo) ← DatabaseHeader.fromBytes hash image
  if header.recoveryRequired || lengthDiffers then
    let (picked, _) ← header.pickPrimaryForRepair repairInfo
    return picked
  else
    return header

/-
  The part of `TransactionalMemory` that says which roots readers see: after a non-durable commit
  they are served from the secondary slot.
-/
structure MemoryState where
  header : DatabaseHeader
  readFromSecondary : Bool

namespace MemoryState

/- The slot readers are served from. -/
def slot (memory : MemoryState) : TransactionHeader :=
  if memory.readFromSecondary then
    memory.header.secondary
  else
    memory.header.primary

/- `get_data_root` and `get_system_root`. -/
def roots (memory : MemoryState) : Roots := memory.slot.roots

/- `repair_primary_corrupted`. -/
def repairPrimaryCorrupted (memory : MemoryState) : MemoryState :=
  { memory with header := memory.header.swapPrimarySlot }

end MemoryState

/-
  The slot that `do_repair` ends on: if the roots in use do not verify the slots are swapped, unless
  the primary was committed in two phases.
-/
def doRepair (verify : Roots → Except DatabaseError Bool) (memory : MemoryState) :
    Except DatabaseError MemoryState := do
  if ← verify memory.roots then
    return memory
  else if memory.header.twoPhaseCommit then
    throw (.corrupted "Primary is corrupted despite 2-phase commit")
  else if ← verify memory.repairPrimaryCorrupted.roots then
    return memory.repairPrimaryCorrupted
  else
    throw (.corrupted "Failed to repair database. All roots are corrupted")

section DoRepair

variable {verify : Roots → Except DatabaseError Bool} {memory : MemoryState}

theorem doRepair_kept (hVerify : verify memory.roots = .ok true) :
    doRepair verify memory = .ok memory := by
  simp [doRepair, hVerify, bind, Except.bind, pure, Except.pure]

/- Roots that do not verify give way to those that do. -/
theorem doRepair_swapped
    (hTwo : memory.header.twoPhaseCommit = false) (hVerify : verify memory.roots = .ok false)
    (hOther : verify memory.repairPrimaryCorrupted.roots = .ok true) :
    doRepair verify memory = .ok memory.repairPrimaryCorrupted := by
  simp [doRepair, hTwo, hVerify, hOther, bind, Except.bind, pure, Except.pure]

/- What a repair that succeeds ends on has been verified. -/
theorem doRepair_cases {repaired : MemoryState} (hRepair : doRepair verify memory = .ok repaired) :
    verify repaired.roots = .ok true ∧ (repaired = memory ∨
        verify memory.roots = .ok false ∧ repaired = memory.repairPrimaryCorrupted) := by
  unfold doRepair at hRepair
  cases hFirst : verify memory.roots with
  | error e => simp [hFirst, bind, Except.bind] at hRepair
  | ok first =>
  cases first with
  | true =>
    simp [hFirst, bind, Except.bind, pure, Except.pure] at hRepair
    subst hRepair
    exact ⟨hFirst, Or.inl rfl⟩
  | false =>
  cases hTwo : memory.header.twoPhaseCommit with
  | true => simp [hFirst, hTwo, bind, Except.bind, throw, throwThe, MonadExceptOf.throw] at hRepair
  | false =>
  cases hSecond : verify memory.repairPrimaryCorrupted.roots with
  | error e => simp [hFirst, hTwo, hSecond, bind, Except.bind] at hRepair
  | ok second =>
  cases second with
  | true =>
    simp [hFirst, hTwo, hSecond, bind, Except.bind, pure, Except.pure] at hRepair
    subst hRepair
    exact ⟨hSecond, Or.inr ⟨rfl, rfl⟩⟩
  | false =>
    simp [hFirst, hTwo, hSecond, bind, Except.bind, throw, throwThe, MonadExceptOf.throw] at hRepair

end DoRepair

/- The roots `do_repair` returns when a file is opened. -/
def repairedRoots (verify : Roots → Bool) (header : DatabaseHeader) :
    Except DatabaseError Roots := do
  let repaired ← doRepair (fun roots => .ok (verify roots)) ⟨header, false⟩
  return repaired.roots

/- The roots a crashed database is opened with. -/
def repair (hash : Bytes → Checksum) (verify : Roots → Bool) (lengthDiffers : Bool)
    (image : Bytes) : Except DatabaseError Roots := do
  let header ← openHeader hash lengthDiffers image
  repairedRoots verify header

section RepairedRoots

variable {verify : Roots → Bool} {header : DatabaseHeader}

theorem repairedRoots_kept (hVerify : verify header.primary.roots = true) :
    repairedRoots verify header = .ok header.primary.roots := by
  have hKept : doRepair (fun roots => .ok (verify roots)) ⟨header, false⟩ = .ok ⟨header, false⟩ :=
    doRepair_kept (congrArg Except.ok hVerify)
  rw [repairedRoots, hKept]
  rfl

/- Without two phases, a secondary that verifies can always be fallen back to. -/
theorem repairedRoots_either
    (verify : Roots → Bool) (header : DatabaseHeader) (hTwo : header.twoPhaseCommit = false)
    (hVerify : verify header.secondary.roots = true) :
    ∃ roots, repairedRoots verify header = .ok roots ∧ verify roots = true ∧
      (roots = header.secondary.roots ∨ roots = header.primary.roots) := by
  cases hPrimary : verify header.primary.roots with
  | true => exact ⟨_, repairedRoots_kept hPrimary, hPrimary, Or.inr rfl⟩
  | false =>
    have hSwapped : doRepair (fun roots => .ok (verify roots)) ⟨header, false⟩ =
          .ok ⟨header.swapPrimarySlot, false⟩ :=
      doRepair_swapped hTwo (congrArg Except.ok hPrimary) (congrArg Except.ok hVerify)
    refine ⟨header.secondary.roots, ?_, hVerify, Or.inl rfl⟩
    rw [repairedRoots, hSwapped]
    rfl

end RepairedRoots

-- Slots By Role

namespace DatabaseHeader

variable (header : DatabaseHeader)

/- The two slots are each other's neighbour. -/
theorem slot_add_one_add_one (slot : Fin 2) : slot + 1 + 1 = slot := by
  revert slot
  decide

theorem slot_add_one_ne (slot : Fin 2) : slot + 1 ≠ slot := by
  revert slot
  decide

theorem slot_eq_or (slot : Fin 2) : slot = header.primarySlot ∨ slot = header.primarySlot + 1 := by
  generalize header.primarySlot = primarySlot
  revert slot primarySlot
  decide

theorem setSecondary_secondary (slot : TransactionHeader) :
    (header.setSecondary slot).secondary = slot :=
  Function.update_self _ _ _

@[simp] theorem swapPrimarySlot_primary : header.swapPrimarySlot.primary = header.secondary := rfl

@[simp] theorem swapPrimarySlot_secondary : header.swapPrimarySlot.secondary = header.primary := by
  unfold secondary primary swapPrimarySlot
  simp only [slot_add_one_add_one]

@[simp] theorem swapPrimarySlot_twoPhaseCommit : header.swapPrimarySlot.twoPhaseCommit =
      header.twoPhaseCommit := rfl

variable (request : CommitRequest)

theorem staged_transactionSlots_primary :
    (header.staged request).transactionSlots header.primarySlot = header.primary := by
  unfold staged setSecondary primary
  exact Function.update_of_ne (slot_add_one_ne header.primarySlot).symm _ _

theorem staged_transactionSlots_secondary :
    (header.staged request).transactionSlots (header.primarySlot + 1) = request.slot := by
  unfold staged setSecondary
  exact Function.update_self _ _ _

@[simp] theorem committed_transactionSlots :
    (header.committed request).transactionSlots = (header.staged request).transactionSlots := rfl

theorem committed_primary : (header.committed request).primary = request.slot :=
  staged_transactionSlots_secondary header request

theorem committed_secondary : (header.committed request).secondary = header.primary := by
  have hSlot : (header.committed request).primarySlot + 1 = header.primarySlot :=
    slot_add_one_add_one header.primarySlot
  unfold secondary
  rw [hSlot]
  exact staged_transactionSlots_primary header request

/- The first write leaves the god byte as it was. -/
theorem staged_godByte : (header.staged request).godByte = header.godByte := rfl

end DatabaseHeader

end Redbx
