import Redbx.PageStore.Commit

/-
  Crashes during a run of durable commits.

  A crash leaves the god byte and the two slots torn: each byte is the durable one or that of a
  header written since the last flush. Repair ends on the roots of the last fsynced commit or of the
  commit in progress.

  Key theorems include:
    * `repair_during_commit`, `repair_after_crash`
-/

namespace Redbx

open Bytes List DatabaseHeader

-- Runs Of Durable Commits

/-
  An open database between two commits. `stored` lists the roots whose pages were flushed and have
  not been reused.
-/
structure CommitSystem where
  header : DatabaseHeader
  disk : Disk
  stored : List Roots

/- A database whose header was just flushed. -/
def CommitSystem.opened (hash : Bytes → Checksum) (header : DatabaseHeader) : CommitSystem where
  header := header
  disk := .clean (header.toBytes hash true)
  stored := [header.primary.roots]

/- A durable commit that completes. From then on the pages of the commit before it may be reused. -/
def CommitSystem.commit (hash : Bytes → Checksum) (system : CommitSystem)
    (request : CommitRequest) : CommitSystem where
  header := system.header.committed request
  disk :=
    system.disk.run (commitInner hash system.header request)
  stored := [request.roots]

/-
  The roots whose pages are on disk after part of a commit: the pages of a transaction are written
  before its header, so the first flush makes them durable.
-/
def storedAfter (events : List IoEvent) (request : CommitRequest)
    (stored : List Roots) : List Roots :=
  if IoEvent.flush ∈ events then
    request.roots :: stored
  else
    stored

/-
  The header `Database::create` leaves: the repair of the empty database commits transaction 1 in
  two phases, then `begin_writable` sets the recovery flag.
-/
def createdHeader (fresh : DatabaseHeader) : DatabaseHeader :=
  { { fresh with recoveryRequired := false, twoPhaseCommit := true }.committed
      { roots := ⟨none, none⟩
        transactionId := 1
        twoPhase := true
        fullRegions := fresh.fullRegions
        trailingPartialRegionPages :=
          fresh.trailingPartialRegionPages } with
    recoveryRequired := true }

/-
  Runs of durable commits of either kind. Transaction ids increase: `start_write_transaction` never
  hands out an id twice.
-/
inductive CommitRun (hash : Bytes → Checksum) : CommitSystem → Prop
  | create (pageSize regionHeaderPages : UInt32) (regionMaxDataPages fullRegions : UInt32)
      (trailingPartialRegionPages : UInt32) (salt : Bytes) (hSalt : salt.length = 16) :
      CommitRun hash (.opened hash (createdHeader (.new pageSize regionHeaderPages
              regionMaxDataPages fullRegions
              trailingPartialRegionPages 0 salt hSalt)))
  | commit {system : CommitSystem} (request : CommitRequest) (hRun : CommitRun hash system)
      (hId : system.header.primary.transactionId < request.transactionId) :
      CommitRun hash (system.commit hash request)

-- Crashes

/- The god byte and the two commit slots. -/
def CommitBytes (offset : Nat) : Prop := offset = 9 ∨ 80 ≤ offset ∧ offset < 336

/-
  What a crash leaves. Slot checksums do not collide: a torn slot that passes its checksum is one
  that was written. Verification accepts the roots whose pages are on disk, and anything may be the
  case for other roots.
-/
structure Crash (hash : Bytes → Checksum) (disk : Disk) (stored : List Roots) (image : Bytes)
    (verify : Roots → Bool) : Prop where
  torn : disk.Torn CommitBytes image
  noCollision : ∀ slot, TransactionHeader.isCorrupted hash
        (DatabaseHeader.slotBytes image slot) = false →
    ∃ version ∈ disk.versions, DatabaseHeader.slotBytes image slot =
        DatabaseHeader.slotBytes version slot
  verified : ∀ roots ∈ stored, verify roots = true

theorem commitBytes_slot (slot : Fin 2) : ∀ i < 128, CommitBytes (80 + 128 * slot.val + i) := by
  intro i hi
  have hSlot := slot.isLt
  right
  omega

/- A slot of an image as `TransactionHeader::from_bytes` reads it. -/
abbrev slotRead (hash : Bytes → Checksum) (image : Bytes) (slot : Fin 2) :=
  TransactionHeader.fromBytes hash (DatabaseHeader.slotBytes image slot)

section Image

variable {hash : Bytes → Checksum} {disk : Disk} {stored : List Roots} {image : Bytes}
  {verify : Roots → Bool} {headers : List DatabaseHeader}

variable (hCrash : Crash hash disk stored image verify)
include hCrash

variable (hVersions : disk.versions = headers.map (fun h => h.toBytes hash true))
include hVersions

theorem Crash.godByte : ∃ header ∈ headers, byteAt image 9 = header.godByte := by
  rcases hCrash.torn 9 (Or.inl rfl) with ⟨_, hMem, hByte⟩
  rw [hVersions] at hMem
  rcases mem_map.mp hMem with ⟨header, hHeader, hEq⟩
  refine ⟨header, hHeader, ?_⟩
  rw [← byteAt_toBytes hash header true,
    hEq, byteAt, byteAt, getD_eq_getElem?_getD, getD_eq_getElem?_getD, hByte]

theorem Crash.version (slot : Fin 2) : byteAt (DatabaseHeader.slotBytes image slot) 0 =
      fileFormatVersion3 := by
  rcases hCrash.torn (80 + 128 * slot.val) (by simpa using commitBytes_slot slot 0 (by omega))
    with ⟨version, hMem, hByte⟩
  rw [hVersions] at hMem
  rcases mem_map.mp hMem with ⟨header, _, hEq⟩
  have hSlot := slotBytes_toBytes hash header true slot
  rw [hEq] at hSlot
  have hFirst : (DatabaseHeader.slotBytes image slot)[0]? =
        (DatabaseHeader.slotBytes version slot)[0]? := by
    simp only [DatabaseHeader.slotBytes, getElem?_slice]
    simpa using hByte
  rw [hSlot] at hFirst
  rw [byteAt, getD_eq_getElem?_getD, hFirst]
  rfl

/-
  A torn slot is read without an error, and if its checksum is good it is the slot of one of the
  headers written.
-/
theorem Crash.readSlot (slot : Fin 2) :
    ∃ read corrupted, slotRead hash image slot = .ok (read, corrupted) ∧
      (corrupted = false → ∃ header ∈ headers, read = header.transactionSlots slot) := by
  rcases TransactionHeader.fromBytes_of_version hash (hCrash.version hVersions slot) with
    ⟨read, hRead⟩
  refine ⟨read, _, hRead, ?_⟩
  intro hGood
  rcases hCrash.noCollision slot hGood with ⟨_, hMem, hSlot⟩
  rw [hVersions] at hMem
  rcases mem_map.mp hMem with ⟨header, hHeader, hEq⟩
  refine ⟨header, hHeader, ?_⟩
  rw [hSlot, ← hEq, slotBytes_toBytes, TransactionHeader.fromBytes_toBytes] at hRead
  simp only [Except.ok.injEq, Prod.mk.injEq] at hRead
  exact hRead.1.symm

theorem Crash.readSlot_of_agree {slot : Fin 2} {contents : TransactionHeader}
    (hAgree : ∀ header ∈ headers, header.transactionSlots slot = contents) :
    slotRead hash image slot = .ok (contents, false) := by
  have hSlot : DatabaseHeader.slotBytes image slot = contents.toBytes hash := by
    apply hCrash.torn.slice_eq (commitBytes_slot slot)
    intro version hMem
    rw [hVersions] at hMem
    rcases mem_map.mp hMem with ⟨header, hHeader, hEq⟩
    rw [← hAgree header hHeader, ← hEq]
    exact slotBytes_toBytes hash header true slot
  rw [slotRead, hSlot, TransactionHeader.fromBytes_toBytes]

end Image

-- What Repair Ends On

/-
  A slot as repair sees it beside a good slot: if its checksum is good it is the older commit, or
  the newer one.
-/
def OldOrNew (slot : TransactionHeader × Bool) (old new : TransactionHeader) : Prop :=
  slot.2 = false → slot.1 = old ∨ slot.1 = new

section Outcome

variable {hash : Bytes → Checksum} {image : Bytes} {lengthDiffers : Bool} {verify : Roots → Bool}
  {header : DatabaseHeader} {first second : TransactionHeader × Bool}

variable (hGod : byteAt image 9 = header.godByte)
include hGod

variable (hRecovery : header.recoveryRequired = true)
include hRecovery

/-
  Repair of an image with the god byte of `header`, whose primary slot reads as `first` and the
  other as `second`, comes down to the choice between the two.
-/
theorem repair_eq (hFirst : slotRead hash image header.primarySlot = .ok first)
    (hSecond : slotRead hash image (header.primarySlot + 1) = .ok second) :
    ∃ read info, (∀ picked kept, DatabaseHeader.pickPrimaryForRepair read info =
          .ok (picked, kept) →
        repair hash verify lengthDiffers image = repairedRoots verify picked) ∧
      read.twoPhaseCommit = header.twoPhaseCommit ∧
      read.primary = first.1 ∧
      read.secondary = second.1 ∧
      info.primaryCorrupted = first.2 ∧
      info.secondaryCorrupted = second.2 := by
  let slots : Fin 2 → TransactionHeader × Bool := fun slot =>
      if slot = header.primarySlot then first else second
  have hOther := slot_add_one_ne header.primarySlot
  have hSlots : ∀ slot, slotRead hash image slot = .ok ((slots slot).1, (slots slot).2) := by
    intro slot
    rcases header.slot_eq_or slot with hEq | hEq
    · subst hEq
      simpa [slots] using hFirst
    · subst hEq
      simpa [slots, hOther] using hSecond
  rcases fromBytes_eq hSlots with
    ⟨read, info, hRead, hPrimary, hRec, hTwo, hContents, hPrimaryBad, hSecondaryBad⟩
  rcases header.godByte_flags with ⟨hPrimarySlot, hRecFlag, hTwoFlag⟩
  rw [hGod, hPrimarySlot] at hPrimary
  rw [hGod, hRecFlag, hRecovery] at hRec
  rw [hGod, hTwoFlag] at hTwo
  refine ⟨read, info, ?_, hTwo, ?_, ?_, ?_, ?_⟩
  · intro picked kept hPick
    unfold repair openHeader
    rw [hRead]
    simp only [bind, Except.bind, hRec, Bool.true_or, if_true, hPick]
    rfl
  · simp [DatabaseHeader.primary, hContents, hPrimary, slots]
  · simp [DatabaseHeader.secondary, hContents, hPrimary, slots, hOther]
  · simp [hPrimaryBad, hPrimary, slots]
  · simp [hSecondaryBad, hPrimary, slots, hOther]

variable {old last new : TransactionHeader}

/-
  The god byte still points to the last fsynced commit: it is kept, unless the other slot is the new
  commit.
-/
theorem repair_last_primary
    (hFirst : slotRead hash image header.primarySlot = .ok (last, false))
    (hSecond : slotRead hash image (header.primarySlot + 1) = .ok second)
    (hKind : OldOrNew second old new) (hOld : old.transactionId < last.transactionId)
    (hVerified : verify last.roots = true) :
    ∃ roots, repair hash verify lengthDiffers image = .ok roots ∧ verify roots = true ∧
      (roots = last.roots ∨ roots = new.roots) := by
  rcases repair_eq hGod hRecovery hFirst hSecond with
    ⟨read, info, hRepair, _, hPrimary, hSecondary, hPrimaryBad, hSecondaryBad⟩
  by_cases hSwap : read.twoPhaseCommit = false ∧ last.transactionId < second.1.transactionId ∧
        second.2 = false
  · rcases hSwap with ⟨hTwo, hNewer, hGood⟩
    -- the other slot is good and newer, so it is new
    have hNew : second.1 = new := by
      rcases hKind hGood with hEq | hEq
      · rw [hEq] at hNewer
        exact absurd hNewer (UInt64.lt_asymm hOld)
      · exact hEq
    rw [hRepair read.swapPrimarySlot false (by
      simp [DatabaseHeader.pickPrimaryForRepair, hTwo,
        hPrimaryBad, hSecondaryBad, hPrimary, hSecondary, hNewer, hGood])]
    have hEither := repairedRoots_either verify read.swapPrimarySlot
        hTwo (by simpa [hPrimary] using hVerified)
    simpa [hPrimary, hSecondary, hNew] using hEither
  · rw [hRepair read true (by
      unfold DatabaseHeader.pickPrimaryForRepair
      rw [hPrimaryBad, hSecondaryBad, hPrimary, hSecondary]
      cases hTwo : read.twoPhaseCommit with
      | true => simp
      | false => simpa [hTwo] using hSwap)]
    refine ⟨last.roots, ?_, hVerified, Or.inl rfl⟩
    rw [repairedRoots_kept (by rw [hPrimary]; exact hVerified), hPrimary]

/-
  The god byte already points to the slot of a one-phase commit: that slot is kept only if it is the
  new commit.
-/
theorem repair_new_primary (hTwo : header.twoPhaseCommit = false)
    (hFirst : slotRead hash image header.primarySlot = .ok first)
    (hSecond : slotRead hash image (header.primarySlot + 1) = .ok (last, false))
    (hKind : OldOrNew first old new) (hOld : old.transactionId < last.transactionId)
    (hNew : last.transactionId < new.transactionId) (hVerified : verify last.roots = true) :
    ∃ roots, repair hash verify lengthDiffers image = .ok roots ∧ verify roots = true ∧
      (roots = last.roots ∨ roots = new.roots) := by
  rcases repair_eq hGod hRecovery hFirst hSecond with
    ⟨read, info, hRepair, hReadTwo, hPrimary, hSecondary, hPrimaryBad, hSecondaryBad⟩
  rw [hTwo] at hReadTwo
  by_cases hKeep : first.2 = false ∧ first.1 = new
  · rcases hKeep with ⟨hGood, hIsNew⟩
    rw [hIsNew] at hPrimary
    rw [hRepair read true (by
      simp [DatabaseHeader.pickPrimaryForRepair, hReadTwo,
        hPrimaryBad, hSecondaryBad, hPrimary, hSecondary, hGood, UInt64.lt_asymm hNew])]
    have hEither := repairedRoots_either verify read hReadTwo (by rw [hSecondary]; exact hVerified)
    rwa [hPrimary, hSecondary] at hEither
  · -- a torn slot, or the old commit
    rw [hRepair read.swapPrimarySlot false (by
      unfold DatabaseHeader.pickPrimaryForRepair
      rw [hPrimaryBad, hSecondaryBad, hPrimary, hSecondary, hReadTwo]
      cases hBad : first.2 with
      | true => simp
      | false =>
        have hIsOld : first.1 = old := by
          rcases hKind hBad with hEq | hEq
          · exact hEq
          · exact absurd ⟨hBad, hEq⟩ hKeep
        simp [hIsOld, hOld])]
    refine ⟨last.roots, ?_, hVerified, Or.inl rfl⟩
    have hKept : verify read.swapPrimarySlot.primary.roots = true := by
      rw [swapPrimarySlot_primary, hSecondary]
      exact hVerified
    rw [repairedRoots_kept hKept, swapPrimarySlot_primary, hSecondary]

/- Both slots are whole, and the primary one is newer and on disk: it is kept. -/
theorem repair_whole (hFirst : slotRead hash image header.primarySlot = .ok (last, false))
    (hSecond : slotRead hash image (header.primarySlot + 1) = .ok (old, false))
    (hOld : old.transactionId < last.transactionId) (hVerified : verify last.roots = true) :
    repair hash verify lengthDiffers image = .ok last.roots := by
  rcases repair_eq hGod hRecovery hFirst hSecond with
    ⟨read, info, hRepair, _, hPrimary, hSecondary, hPrimaryBad, hSecondaryBad⟩
  rw [hRepair read true (by
      simp [DatabaseHeader.pickPrimaryForRepair, hPrimaryBad, hSecondaryBad, hPrimary, hSecondary,
        UInt64.lt_asymm hOld]),
    repairedRoots_kept (by rw [hPrimary]; exact hVerified), hPrimary]

end Outcome

-- Between And During Commits

/-
  What holds of an open database between commits: the header in memory is the one on disk, the
  secondary slot is an older commit, and the primary's pages are on disk.
-/
structure CommitSystem.Settled (hash : Bytes → Checksum) (system : CommitSystem) : Prop where
  disk_eq : system.disk = .clean (system.header.toBytes hash true)
  recovery : system.header.recoveryRequired = true
  newer : system.header.secondary.transactionId < system.header.primary.transactionId
  stored_eq : system.stored = [system.header.primary.roots]

section Commits

variable {hash : Bytes → Checksum} {system : CommitSystem} {request : CommitRequest}
  {stored : List Roots} {image : Bytes} {verify : Roots → Bool} {lengthDiffers : Bool}

theorem run_commitInner (durable : Bytes) (header : DatabaseHeader) (request : CommitRequest) :
    (Disk.clean durable).run (commitInner hash header request) = .clean
        ((header.committed request).toBytes hash true) := by
  unfold commitInner
  cases request.twoPhase with
  | false | true => rfl

theorem settled_created
    (fresh : DatabaseHeader) (hNew : ∀ slot, (fresh.transactionSlots slot).transactionId = 0) :
    (CommitSystem.opened hash (createdHeader fresh)).Settled hash where
  disk_eq := rfl
  recovery := rfl
  newer := by
    let closed : DatabaseHeader :=
      { fresh with recoveryRequired := false, twoPhaseCommit := true }
    let first : CommitRequest :=
      { roots := ⟨none, none⟩
        transactionId := 1
        twoPhase := true
        fullRegions := fresh.fullRegions
        trailingPartialRegionPages :=
          fresh.trailingPartialRegionPages }
    have hPrimary := closed.committed_primary first
    have hSecondary := closed.committed_secondary first
    have hZero : closed.primary.transactionId = 0 := hNew closed.primarySlot
    have hLt : (closed.committed first).secondary.transactionId <
          (closed.committed first).primary.transactionId := by
      have hOne : first.slot.transactionId = 1 := rfl
      rw [hPrimary, hSecondary, hZero, hOne]
      decide
    exact hLt
  stored_eq := rfl

theorem CommitSystem.Settled.commit (hSettled : system.Settled hash)
    (hId : system.header.primary.transactionId < request.transactionId) :
    (system.commit hash request).Settled hash where
  disk_eq := by
    unfold CommitSystem.commit
    rw [hSettled.disk_eq, run_commitInner]
  recovery := hSettled.recovery
  newer := by
    unfold CommitSystem.commit
    rw [committed_primary, committed_secondary]
    exact hId
  stored_eq := by
    unfold CommitSystem.commit
    rw [committed_primary, CommitRequest.slot_roots]

theorem CommitRun.settled (hRun : CommitRun hash system) : system.Settled hash := by
  induction hRun with
  | create => exact settled_created _ (fun _ => rfl)
  | commit _ _ hId ih => exact ih.commit hId

/- A crash with nothing buffered: both slots are whole and the primary one is kept. -/
theorem repair_idle
    (header : DatabaseHeader) (lengthDiffers : Bool) (hRecovery : header.recoveryRequired = true)
    (hNewer : header.secondary.transactionId < header.primary.transactionId)
    (hStored : header.primary.roots ∈ stored)
    (hCrash : Crash hash (.clean (header.toBytes hash true)) stored image verify) :
    repair hash verify lengthDiffers image = .ok header.primary.roots := by
  have hVersions : (Disk.clean (header.toBytes hash true)).versions =
        [header].map (fun h => h.toBytes hash true) := rfl
  rcases hCrash.godByte hVersions with ⟨_, hWritten, hGod⟩
  rw [mem_singleton.mp hWritten] at hGod
  have hRead : ∀ slot, slotRead hash image slot = .ok (header.transactionSlots slot, false) := by
    intro slot
    apply hCrash.readSlot_of_agree hVersions
    intro other hOther
    rw [mem_singleton.mp hOther]
  exact repair_whole hGod hRecovery (hRead _) (hRead _) hNewer (hCrash.verified _ hStored)

/-
  Which headers of a commit a crash may mix: the one before it and the staged one while the slot is
  written, all three of a one-phase commit, or the staged and the committed one after a flush.
-/
def CommitPhase (header : DatabaseHeader) (request : CommitRequest) (stored : List Roots)
    (headers : List DatabaseHeader) : Prop :=
  (∀ h ∈ headers, h = header ∨ h = header.staged request) ∨
  (request.twoPhase = false ∧ ∀ h ∈ headers, h = header ∨ h = header.staged request ∨
      h = header.committed request) ∨
  (request.roots ∈ stored ∧ ∀ h ∈ headers, h = header.staged request ∨ h = header.committed request)

theorem CommitPhase.headers {header : DatabaseHeader} {headers : List DatabaseHeader}
    (hPhase : CommitPhase header request stored headers) :
    ∀ h ∈ headers, h = header ∨ h = header.staged request ∨ h = header.committed request := by
  intro h hMem
  rcases hPhase with hSlot | ⟨_, hAll⟩ | ⟨_, hFlushed⟩
  · rcases hSlot h hMem with hEq | hEq
    · exact Or.inl hEq
    · exact Or.inr (Or.inl hEq)
  · exact hAll h hMem
  · exact Or.inr (hFlushed h hMem)

/- A crash inside a commit, in any of its phases. -/
theorem repair_during_commit
    {header : DatabaseHeader} {disk : Disk} (headers : List DatabaseHeader) (lengthDiffers : Bool)
    (hRecovery : header.recoveryRequired = true)
    (hNewer : header.secondary.transactionId < header.primary.transactionId)
    (hId : header.primary.transactionId < request.transactionId)
    (hStored : header.primary.roots ∈ stored)
    (hVersions : disk.versions = headers.map (fun h => h.toBytes hash true))
    (hPhase : CommitPhase header request stored headers)
    (hCrash : Crash hash disk stored image verify) :
    ∃ roots, repair hash verify lengthDiffers image = .ok roots ∧ verify roots = true ∧
      (roots = header.primary.roots ∨ roots = request.roots) := by
  have hHeaders := hPhase.headers
  have hVerified := hCrash.verified _ hStored
  have hLast : slotRead hash image header.primarySlot = .ok (header.primary, false) := by
    apply hCrash.readSlot_of_agree hVersions
    intro h hMem
    rcases hHeaders h hMem with hEq | hEq | hEq
    · rw [hEq, DatabaseHeader.primary]
    · rw [hEq, staged_transactionSlots_primary]
    · rw [hEq, committed_transactionSlots, staged_transactionSlots_primary]
  rcases hCrash.readSlot hVersions (header.primarySlot + 1) with ⟨read, corrupted, hRead, hGood⟩
  have hKind : OldOrNew (read, corrupted) header.secondary request.slot := by
    intro hCorrupted
    rcases hGood hCorrupted with ⟨h, hMem, hEq⟩
    rcases hHeaders h hMem with hIs | hIs | hIs
    · left
      rw [hEq, hIs, DatabaseHeader.secondary]
    · right
      rw [hEq, hIs, staged_transactionSlots_secondary]
    · right
      rw [hEq, hIs, committed_transactionSlots, staged_transactionSlots_secondary]
  have hNeighbour : (header.committed request).primarySlot + 1 = header.primarySlot :=
    slot_add_one_add_one header.primarySlot
  rcases hCrash.godByte hVersions with ⟨written, hWritten, hGod⟩
  -- which header's god byte reached the disk
  rcases hHeaders written hWritten with hIs | hIs | hIs
  · rw [hIs] at hGod
    exact repair_last_primary hGod hRecovery hLast hRead hKind hNewer hVerified
  · rw [hIs, staged_godByte] at hGod
    exact repair_last_primary hGod hRecovery hLast hRead hKind hNewer hVerified
  · rw [hIs] at hGod hWritten
    rcases hPhase with hSlot | ⟨hTwo, _⟩ | hFlushed
    · -- the new god byte has not been written yet
      have hSame : (header.committed request).primarySlot = header.primarySlot := by
        rcases hSlot _ hWritten with hEq | hEq
        · rw [hEq]
        · rw [hEq]
          rfl
      exact absurd hSame (slot_add_one_ne header.primarySlot)
    · exact repair_new_primary hGod hRecovery hTwo hRead
        (by rw [hNeighbour]; exact hLast) hKind hNewer hId hVerified
    · have hNew : slotRead hash image (header.primarySlot + 1) = .ok (request.slot, false) := by
        apply hCrash.readSlot_of_agree hVersions
        intro h hMem
        rcases hFlushed.2 h hMem with hEq | hEq
        · rw [hEq]
          exact header.staged_transactionSlots_secondary request
        · rw [hEq]
          exact header.staged_transactionSlots_secondary request
      have hNewVerified := hCrash.verified _ hFlushed.1
      refine ⟨request.roots, ?_, hNewVerified, Or.inr rfl⟩
      exact repair_whole hGod hRecovery hNew (by rw [hNeighbour]; exact hLast) hId hNewVerified

theorem commitInner_onePhase (header : DatabaseHeader) (hTwo : request.twoPhase = false) :
    commitInner hash header request = [.write ((header.staged request).toBytes hash true),
        .write ((header.committed request).toBytes hash true), .flush] := by
  simp [commitInner, hTwo]

theorem commitInner_twoPhase (header : DatabaseHeader) (hTwo : request.twoPhase = true) :
    commitInner hash header request = [.write ((header.staged request).toBytes hash true), .flush,
        .write ((header.committed request).toBytes hash true), .flush] := by
  simp [commitInner, hTwo]

/-
  Crash at any point of a run of durable commits, after `n` of the events of the next commit: repair
  ends on the roots of the last fsynced commit or of the commit in progress, with all their pages on
  disk. Before the commit starts it is the former, once the commit has returned the latter.
-/
theorem repair_after_crash (hRun : CommitRun hash system) (request : CommitRequest)
    (hId : system.header.primary.transactionId < request.transactionId) (n : Nat)
    (lengthDiffers : Bool)
    (hCrash : Crash hash (system.disk.run ((commitInner hash system.header request).take n))
        (storedAfter ((commitInner hash system.header request).take n) request system.stored)
        image verify) :
    ∃ roots, repair hash verify lengthDiffers image = .ok roots ∧ verify roots = true ∧
      (roots = system.header.primary.roots ∧ n < (commitInner hash system.header request).length ∨
        roots = request.roots ∧ 0 < n) := by
  have hSettled := hRun.settled
  have hRecovery := hSettled.recovery
  have hNewer := hSettled.newer
  have hLastStored : system.header.primary.roots ∈ system.stored := by
    rw [hSettled.stored_eq]
    exact mem_singleton_self _
  rw [hSettled.disk_eq] at hCrash
  by_cases hStart : n = 0
  · -- no event of the commit has happened
    subst hStart
    have hIdle := repair_idle system.header lengthDiffers hRecovery hNewer hLastStored hCrash
    refine ⟨_, hIdle, hCrash.verified _ hLastStored, Or.inl ⟨rfl, ?_⟩⟩
    simp [commitInner]
  by_cases hDone : (commitInner hash system.header request).length ≤ n
  · -- the commit has returned
    rw [take_of_length_le hDone, run_commitInner] at hCrash
    have hFlush : IoEvent.flush ∈ commitInner hash system.header request := by simp [commitInner]
    have hStored : request.roots ∈ storedAfter (commitInner hash system.header request)
            request system.stored := by
      rw [storedAfter, if_pos hFlush]
      exact mem_cons_self
    have hCommitted : (system.header.committed request).primary = request.slot :=
      system.header.committed_primary request
    have hIdle := repair_idle (system.header.committed request) lengthDiffers hRecovery (by
          rw [hCommitted, committed_secondary]
          exact hId)
        (by rw [hCommitted]; exact hStored) hCrash
    rw [hCommitted] at hIdle
    exact ⟨_, hIdle, hCrash.verified _ hStored, Or.inr ⟨rfl, by omega⟩⟩
  have hInside : ∃ roots, repair hash verify lengthDiffers image = .ok roots ∧ verify roots = true ∧
        (roots = system.header.primary.roots ∨ roots = request.roots) := by
    cases hTwo : request.twoPhase with
    | false =>
      rw [commitInner_onePhase _ hTwo] at hCrash hDone
      have hn : n = 1 ∨ n = 2 := by
        simp only [length_cons, length_nil] at hDone
        omega
      rcases hn with hn | hn
      · subst hn
        exact repair_during_commit [system.header, system.header.staged request]
          lengthDiffers hRecovery hNewer hId hLastStored
          rfl (Or.inl (by simp)) hCrash
      · subst hn
        exact repair_during_commit [system.header, system.header.staged request,
            system.header.committed request]
          lengthDiffers hRecovery hNewer hId hLastStored
          rfl (Or.inr (Or.inl ⟨hTwo, by simp⟩)) hCrash
    | true =>
      rw [commitInner_twoPhase _ hTwo] at hCrash hDone
      have hn : n = 1 ∨ n = 2 ∨ n = 3 := by
        simp only [length_cons, length_nil] at hDone
        omega
      rcases hn with hn | hn | hn
      · subst hn
        exact repair_during_commit [system.header, system.header.staged request]
          lengthDiffers hRecovery hNewer hId hLastStored
          rfl (Or.inl (by simp)) hCrash
      · subst hn
        exact repair_during_commit [system.header.staged request] lengthDiffers hRecovery hNewer hId
          (mem_cons_of_mem _ hLastStored) rfl (Or.inl (by simp)) hCrash
      · subst hn
        exact repair_during_commit [system.header.staged request, system.header.committed request]
          lengthDiffers hRecovery hNewer hId
          (mem_cons_of_mem _ hLastStored) rfl (Or.inr (Or.inr ⟨mem_cons_self, by simp⟩)) hCrash
  rcases hInside with ⟨roots, hRepair, hVerify, hKind⟩
  refine ⟨roots, hRepair, hVerify, ?_⟩
  rcases hKind with hEq | hEq
  · exact Or.inl ⟨hEq, by omega⟩
  · exact Or.inr ⟨hEq, by omega⟩

-- Only The God Byte Reaches The Disk

/- The edge case of a one-phase commit: the crash leaves the new god byte and both old slots. -/
theorem crash_godByte
    (hSettled : system.Settled hash) (hTwo : request.twoPhase = false) (verify : Roots → Bool)
    (hVerify : verify system.header.primary.roots = true) :
    Crash hash (system.disk.run ((commitInner hash system.header request).take 2))
      (storedAfter ((commitInner hash system.header request).take 2) request system.stored)
      ((system.header.toBytes hash true).set 9 (system.header.committed request).godByte)
      verify := by
  let old := system.header.toBytes hash true
  let god := (system.header.committed request).godByte
  rw [hSettled.disk_eq, hSettled.stored_eq, commitInner_onePhase _ hTwo]
  have hOld : ∀ i, i ≠ 9 → (old.set 9 god)[i]? = old[i]? :=
    fun i hi => getElem?_set_ne (Ne.symm hi)
  have hSlot : ∀ slot, DatabaseHeader.slotBytes (old.set 9 god) slot =
        DatabaseHeader.slotBytes old slot := by
    intro slot
    apply ext_getElem?
    intro i
    simp only [DatabaseHeader.slotBytes, getElem?_slice]
    rw [hOld _ (by omega)]
  refine ⟨?_, ?_, ?_⟩
  · intro i _
    by_cases hi : i = 9
    · refine ⟨(system.header.committed request).toBytes hash
          true, by simp [Disk.versions, Disk.run, Disk.step], ?_⟩
      rw [hi, getElem?_set_self (by rw [DatabaseHeader.length_toBytes]; omega)]
      rfl
    · exact ⟨old, mem_cons_self, hOld i hi⟩
  · intro slot _
    exact ⟨old, mem_cons_self, hSlot slot⟩
  · intro roots hMem
    have hLast : roots = system.header.primary.roots := by simpa [storedAfter] using hMem
    rw [hLast]
    exact hVerify

end Commits

/- A database of one region, just created. -/
def emptyDatabase : CommitSystem :=
  .opened lowBytes (createdHeader (.new 4096 0 1048576 0 270 0 (zeros 16) rfl))

/- A one-phase commit of a table tree with one entry. -/
def firstCommit : CommitRequest where
  roots := ⟨some
    { root := ⟨0, 5, 0, by decide, by decide, by decide⟩, checksum := 7, length := 1 }, none⟩
  transactionId := 4
  twoPhase := false
  fullRegions := 0
  trailingPartialRegionPages := 270

/- Only the god byte of the first commit is written. -/
theorem repair_after_crash_godByte :
    ∃ roots, repair lowBytes (fun roots => roots = ⟨none, none⟩) false
          ((emptyDatabase.header.toBytes lowBytes true).set
            9 (emptyDatabase.header.committed firstCommit).godByte) =
        .ok roots ∧
      roots = ⟨none, none⟩ := by
  have hRun : CommitRun lowBytes emptyDatabase := .create 4096 0 1048576 0 270 (zeros 16) rfl
  have hId : emptyDatabase.header.primary.transactionId < firstCommit.transactionId := by decide
  rcases repair_after_crash hRun firstCommit hId 2 false (crash_godByte hRun.settled rfl
        (fun roots => roots = ⟨none, none⟩) rfl) with
    ⟨roots, hRepair, hVerify, _⟩
  exact ⟨roots, hRepair, by simpa using hVerify⟩

end Redbx
