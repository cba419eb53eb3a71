import Redbx.PageStore.Base
import Mathlib.Data.Fin.VecNotation

/-
  `DatabaseHeader`: the god byte, the layout fields, the salt and the two commit slots at the start
  of the file.

  The slot checksum `xxh3_checksum` is a parameter.

  Key theorems include:
    * `DatabaseHeader.fromBytes_eq`, `DatabaseHeader.fromBytes_toBytes`
-/

namespace Redbx

open Bytes List

/- Why opening or repairing a database fails. -/
inductive DatabaseError where
  | upgradeRequired (version : UInt8)
  | corrupted (message : String)
  deriving DecidableEq, Repr

instance twoSlots : NeZero 2 := ⟨by decide⟩

theorem length_zeroSalt : (zeros 16).length = 16 := rfl

/- The byte at an offset of a fixed-size buffer. -/
def byteAt (data : Bytes) (offset : Nat) : UInt8 := data.getD offset 0

-- Commit Slots

/- `FILE_FORMAT_VERSION3`, the only version written. -/
def fileFormatVersion3 : UInt8 := 3

/-
  The contents of a commit slot. The version is left out: both `new` and `from_bytes` only make
  version 3.
-/
structure TransactionHeader where
  userRoot : Option BtreeHeader
  systemRoot : Option BtreeHeader
  transactionId : UInt64
  deriving DecidableEq

namespace TransactionHeader

/- The slot of a database without tables. -/
def new (transactionId : UInt64) : TransactionHeader where
  userRoot := none
  systemRoot := none
  transactionId := transactionId

/- A root, or the zeros that stand for no root. -/
def rootBytes : Option BtreeHeader → Bytes
  | none => zeros 32
  | some header => header.toLeBytes

/- Whether a root is there. -/
def rootFlag (root : Option BtreeHeader) : UInt8 :=
  if root.isSome then 1 else 0

/-
  The slot up to its checksum: version and the two flags, five bytes of padding, the roots at 8 and
  40, an unused root at 72 and the transaction id at 104.
-/
def body (slot : TransactionHeader) : Bytes :=
  [fileFormatVersion3, rootFlag slot.userRoot, rootFlag slot.systemRoot, 0, 0, 0, 0, 0] ++
    (rootBytes slot.userRoot ++ (rootBytes slot.systemRoot ++ (zeros 32 ++
          toLe 8 slot.transactionId.toNat)))

/- `to_bytes`: the body and its checksum at 112. -/
def toBytes (hash : Bytes → Checksum) (slot : TransactionHeader) : Bytes :=
  slot.body ++ toLe 16 (hash slot.body).toNat

/- The root at `offset` if its flag is set. -/
def readRoot (data : Bytes) (flag offset : Nat) : Option BtreeHeader :=
  if byteAt data flag ≠ 0 then
    some (BtreeHeader.fromLeBytes (data.slice offset 32))
  else
    none

/- Whether the stored checksum is not that of the slot. -/
def isCorrupted (hash : Bytes → Checksum) (data : Bytes) : Bool :=
  ofLe (data.slice 112 16) ≠ (hash (data.take 112)).toNat

/- `from_bytes`. The flag returned says whether the checksum was wrong. -/
def fromBytes (hash : Bytes → Checksum) (data : Bytes) :
    Except DatabaseError (TransactionHeader × Bool) :=
  let version := byteAt data 0
  if version = 1 ∨ version = 2 then
    .error (.upgradeRequired version)
  else if version = fileFormatVersion3 then
    .ok
      ({ userRoot := readRoot data 1 8
         systemRoot := readRoot data 2 40
         transactionId :=
           UInt64.ofNat (ofLe (data.slice 104 8)) },
        isCorrupted hash data)
  else
    .error (.corrupted ("Expected file format version <= 3, found " ++ toString version.toNat))

@[simp] theorem length_rootBytes (root : Option BtreeHeader) : (rootBytes root).length = 32 := by
  cases root with
  | none => simp [rootBytes]
  | some => simp [rootBytes]

variable (hash : Bytes → Checksum) (slot : TransactionHeader)

@[simp] theorem length_body : slot.body.length = 112 := by
  simp [body]

@[simp] theorem length_toBytes :
    (slot.toBytes hash).length = 128 := by
  simp [toBytes]

theorem take_toBytes :
    (slot.toBytes hash).take 112 = slot.body :=
  take_left' slot.length_body

theorem slice_toBytes {start len : Nat}
    (hRange : start + len ≤ 112) :
    (slot.toBytes hash).slice start len = slot.body.slice start len := by
  rw [toBytes, slice_append_left (by rw [length_body]; omega)]

theorem readRoot_eq {data : Bytes} {flag offset : Nat} {root : Option BtreeHeader}
    (hFlag : byteAt data flag = rootFlag root) (hBytes : data.slice offset 32 = rootBytes root) :
    readRoot data flag offset = root := by
  unfold readRoot
  rw [hFlag, hBytes]
  cases root with
  | none => simp [rootFlag]
  | some => simp [rootFlag, rootBytes, BtreeHeader.fromLeBytes_toLeBytes]

/- A written slot reads back with a good checksum. -/
theorem fromBytes_toBytes :
    fromBytes hash (slot.toBytes hash) = .ok (slot, false) := by
  have hUser : readRoot (slot.toBytes hash) 1 8 = slot.userRoot := by
    apply readRoot_eq rfl
    rw [slice_toBytes hash slot (by omega)]
    exact slice_append_middle rfl (by simp) _
  have hSystem : readRoot (slot.toBytes hash) 2 40 = slot.systemRoot := by
    apply readRoot_eq rfl
    rw [slice_toBytes hash slot (by omega), body, ← append_assoc]
    exact slice_append_middle (by simp) (by simp) _
  have hId : (slot.toBytes hash).slice 104 8 = toLe 8 slot.transactionId.toNat := by
    rw [slice_toBytes hash slot (by omega), body, ← append_assoc, ← append_assoc, ← append_assoc]
    exact slice_append_last (by simp) (by simp)
  have hIdFits : slot.transactionId.toNat < 256 ^ 8 := slot.transactionId.toNat_lt
  have hSum : (slot.toBytes hash).slice 112 16 = toLe 16 (hash slot.body).toNat :=
    slice_append_last slot.length_body (by simp)
  have hSumFits : (hash slot.body).toNat < 256 ^ 16 := (hash slot.body).isLt
  have hGood : isCorrupted hash (slot.toBytes hash) = false := by
    simp [isCorrupted, hSum, ofLe_toLe hSumFits, take_toBytes]
  have hVersion : byteAt (slot.toBytes hash) 0 = fileFormatVersion3 := rfl
  unfold fromBytes
  rw [hVersion, if_neg (by decide), if_pos rfl, hUser, hSystem, hId, hGood, ofLe_toLe hIdFits]
  simp

theorem fromBytes_of_version {data : Bytes} (hVersion : byteAt data 0 = fileFormatVersion3) :
    ∃ slot, fromBytes hash data = .ok (slot, isCorrupted hash data) := by
  unfold fromBytes
  rw [hVersion, if_neg (by decide), if_pos rfl]
  exact ⟨_, rfl⟩

end TransactionHeader

-- Database Header

/- `HeaderRepairInfo`: what is wrong with the header. -/
structure HeaderRepairInfo where
  invalidMagicNumber : Bool
  primaryCorrupted : Bool
  secondaryCorrupted : Bool

/- `DatabaseHeader`, with the two slots by their index. -/
structure DatabaseHeader where
  primarySlot : Fin 2
  recoveryRequired : Bool
  twoPhaseCommit : Bool
  pageSize : UInt32
  regionHeaderPages : UInt32
  regionMaxDataPages : UInt32
  fullRegions : UInt32
  trailingPartialRegionPages : UInt32
  salt : Bytes
  salt_length : salt.length = 16
  transactionSlots : Fin 2 → TransactionHeader

namespace DatabaseHeader

/- `MAGICNUMBER`. -/
def magicNumber : Bytes := [114, 100, 98, 120, 0x1A, 0x0A, 0xA9, 0x0D, 0x0A]

/- `new`: both slots hold the same transaction. The layout is given by its four fields. -/
def new (pageSize regionHeaderPages : UInt32) (regionMaxDataPages fullRegions : UInt32)
    (trailingPartialRegionPages : UInt32) (transactionId : UInt64) (salt : Bytes)
    (hSalt : salt.length = 16) : DatabaseHeader where
  primarySlot := 0
  recoveryRequired := true
  twoPhaseCommit := false
  pageSize := pageSize
  regionHeaderPages := regionHeaderPages
  regionMaxDataPages := regionMaxDataPages
  fullRegions := fullRegions
  trailingPartialRegionPages := trailingPartialRegionPages
  salt := salt
  salt_length := hSalt
  transactionSlots := fun _ => TransactionHeader.new transactionId

/- The slot readers use. -/
def primary (header : DatabaseHeader) : TransactionHeader :=
  header.transactionSlots header.primarySlot

/- The slot the next commit is written to. -/
def secondary (header : DatabaseHeader) : TransactionHeader :=
  header.transactionSlots (header.primarySlot + 1)

/- `swap_primary_slot`. -/
def swapPrimarySlot (header : DatabaseHeader) : DatabaseHeader :=
  { header with primarySlot := header.primarySlot + 1 }

/- Replace the contents of the secondary slot. -/
def setSecondary (header : DatabaseHeader) (slot : TransactionHeader) : DatabaseHeader :=
  { header with
    transactionSlots :=
      Function.update header.transactionSlots (header.primarySlot + 1) slot }

/- Primary bit, recovery flag, two-phase flag, `ENCRYPTED`. -/
def godByte (header : DatabaseHeader) : UInt8 :=
  UInt8.ofNat header.primarySlot.val ||| (if header.recoveryRequired then 2 else 0) |||
    (if header.twoPhaseCommit then 4 else 0) ||| 8

/- The header before the slots, 80 bytes. -/
def front (header : DatabaseHeader) (includeMagicNumber : Bool) : Bytes :=
  (if includeMagicNumber then magicNumber else zeros 9) ++
    ([header.godByte, 0, 0] ++ (toLe 4 header.pageSize.toNat ++
        (toLe 4 header.regionHeaderPages.toNat ++
          (toLe 4 header.regionMaxDataPages.toNat ++ (toLe 4 header.fullRegions.toNat ++
              (toLe 4 header.trailingPartialRegionPages.toNat ++ (header.salt ++ zeros 32)))))))

/- `to_bytes`: the slots stand at 80 and 208. -/
def toBytes
    (hash : Bytes → Checksum) (header : DatabaseHeader) (includeMagicNumber : Bool) : Bytes :=
  header.front includeMagicNumber ++ ((header.transactionSlots 0).toBytes hash ++
      (header.transactionSlots 1).toBytes hash)

/- The bytes of a slot in the header. -/
def slotBytes (data : Bytes) (slot : Fin 2) : Bytes := data.slice (80 + 128 * slot.val) 128

/- The 32-bit field at an offset. -/
def getU32 (data : Bytes) (offset : Nat) : UInt32 := UInt32.ofNat (ofLe (data.slice offset 4))

/- The salt at 32, filled up if the buffer is short. -/
def readSalt (data : Bytes) : Bytes := (data.slice 32 16 ++ zeros 16).take 16

theorem length_readSalt (data : Bytes) : (readSalt data).length = 16 := by
  simp [readSalt]

/- `from_bytes`: the header and what is wrong with it. -/
def fromBytes (hash : Bytes → Checksum) (data : Bytes) :
    Except DatabaseError (DatabaseHeader × HeaderRepairInfo) := do
  let god := byteAt data 9
  let primarySlot : Fin 2 := if god &&& 1 ≠ 0 then 1 else 0
  let (slot0, slot0Corrupted) ← TransactionHeader.fromBytes hash (slotBytes data 0)
  let (slot1, slot1Corrupted) ← TransactionHeader.fromBytes hash (slotBytes data 1)
  let corrupted : Fin 2 → Bool := ![slot0Corrupted, slot1Corrupted]
  return (
    { primarySlot := primarySlot
      recoveryRequired := god &&& 2 ≠ 0
      twoPhaseCommit := god &&& 4 ≠ 0
      pageSize := getU32 data 12
      regionHeaderPages := getU32 data 16
      regionMaxDataPages := getU32 data 20
      fullRegions := getU32 data 24
      trailingPartialRegionPages := getU32 data 28
      salt := readSalt data
      salt_length := length_readSalt data
      transactionSlots := ![slot0, slot1] },
    { invalidMagicNumber := data.take 9 ≠ magicNumber
      primaryCorrupted := corrupted primarySlot
      secondaryCorrupted := corrupted (primarySlot + 1) })

/- `pick_primary_for_repair`. The flag returned says whether the original primary was kept. -/
def pickPrimaryForRepair (header : DatabaseHeader) (repairInfo : HeaderRepairInfo) :
    Except DatabaseError (DatabaseHeader × Bool) :=
  if header.twoPhaseCommit then
    if repairInfo.primaryCorrupted then
      .error (.corrupted "Primary is corrupted despite 2-phase commit")
    else
      .ok (header, true)
  else if repairInfo.primaryCorrupted then
    if repairInfo.secondaryCorrupted then
      .error (.corrupted "Both commit slots are corrupted")
    else
      .ok (header.swapPrimarySlot, false)
  else if header.primary.transactionId <
        header.secondary.transactionId ∧
      repairInfo.secondaryCorrupted = false then
    .ok (header.swapPrimarySlot, false)
  else
    .ok (header, true)

-- Reading A Written Header

variable (hash : Bytes → Checksum) (header : DatabaseHeader) (includeMagicNumber : Bool)

@[simp] theorem length_front : (header.front includeMagicNumber).length = 80 := by
  cases includeMagicNumber with
  | false => simp [front, header.salt_length]
  | true => simp [front, magicNumber, header.salt_length]

@[simp] theorem length_toBytes : (header.toBytes hash includeMagicNumber).length = 336 := by
  simp [toBytes]

theorem slotBytes_toBytes (slot : Fin 2) :
    slotBytes (header.toBytes hash includeMagicNumber) slot =
      (header.transactionSlots slot).toBytes hash := by
  unfold slotBytes toBytes
  match slot with
  | 0 => exact slice_append_middle (by simp) (by simp) _
  | 1 =>
    rw [← append_assoc]
    exact slice_append_last (by simp) (by simp)

theorem slice_toBytes {start len : Nat} (hRange : start + len ≤ 80) :
    (header.toBytes hash includeMagicNumber).slice start len =
      (header.front includeMagicNumber).slice start len := by
  rw [toBytes, slice_append_left (by rw [length_front]; omega)]

theorem byteAt_toBytes : byteAt (header.toBytes hash includeMagicNumber) 9 = header.godByte := by
  cases includeMagicNumber with
  | false | true => rfl

theorem godByte_flags : (if header.godByte &&& 1 ≠ 0 then (1 : Fin 2)
        else 0) = header.primarySlot ∧
    decide (header.godByte &&& 2 ≠ 0) = header.recoveryRequired ∧
    decide (header.godByte &&& 4 ≠ 0) = header.twoPhaseCommit := by
  unfold godByte
  generalize header.primarySlot = primarySlot
  generalize header.recoveryRequired = recoveryRequired
  generalize header.twoPhaseCommit = twoPhaseCommit
  revert primarySlot recoveryRequired twoPhaseCommit
  decide

/-
  What is read from any image whose slots can be read: the flags come from the god byte, the slots
  are taken as they are, and corruption is reported by role.
-/
theorem fromBytes_eq {hash : Bytes → Checksum} {data : Bytes} {slots : Fin 2 → TransactionHeader}
    {corrupted : Fin 2 → Bool}
    (hSlots : ∀ slot, TransactionHeader.fromBytes hash (slotBytes data slot) =
        .ok (slots slot, corrupted slot)) :
    ∃ header info, fromBytes hash data = .ok (header, info) ∧ header.primarySlot =
        (if byteAt data 9 &&& 1 ≠ 0 then 1 else 0) ∧
      header.recoveryRequired = decide (byteAt data 9 &&& 2 ≠ 0) ∧
      header.twoPhaseCommit = decide (byteAt data 9 &&& 4 ≠ 0) ∧
      header.transactionSlots = slots ∧
      info.primaryCorrupted = corrupted header.primarySlot ∧
      info.secondaryCorrupted = corrupted (header.primarySlot + 1) := by
  have hVec : ![slots 0, slots 1] = slots := by
    funext slot
    match slot with
    | 0 | 1 => rfl
  have hCorrupted : ![corrupted 0, corrupted 1] = corrupted := by
    funext slot
    match slot with
    | 0 | 1 => rfl
  unfold fromBytes
  simp only [hSlots, bind, Except.bind, pure, Except.pure, hVec, hCorrupted]
  exact ⟨_, _, rfl, rfl, rfl, rfl, rfl, rfl, rfl⟩

theorem getU32_eq {data : Bytes} {offset : Nat} {value : UInt32}
    (hField : data.slice offset 4 = toLe 4 value.toNat) :
    getU32 data offset = value := by
  have hFits : value.toNat < 256 ^ 4 := value.toNat_lt
  rw [getU32, hField, ofLe_toLe hFits]
  simp

theorem slice_salt : (header.toBytes hash includeMagicNumber).slice 32 16 = header.salt := by
  rw [slice_toBytes _ _ _ (by omega), front, ← append_assoc, ← append_assoc,
    ← append_assoc, ← append_assoc, ← append_assoc, ← append_assoc]
  cases includeMagicNumber with
  | false | true => exact slice_append_middle rfl header.salt_length _

/- A written header reads back with nothing wrong. -/
theorem fromBytes_toBytes :
    fromBytes hash (header.toBytes hash true) = .ok (header, ⟨false, false, false⟩) := by
  have hSlot : ∀ slot, TransactionHeader.fromBytes hash
          (slotBytes (header.toBytes hash true) slot) =
        .ok (header.transactionSlots slot, false) := by
    intro slot
    rw [slotBytes_toBytes, TransactionHeader.fromBytes_toBytes]
  have hPageSize : getU32 (header.toBytes hash true) 12 = header.pageSize := by
    apply getU32_eq
    rw [slice_toBytes _ _ _ (by omega), front, ← append_assoc]
    exact slice_append_middle rfl (by simp) _
  have hRegionHeaderPages : getU32 (header.toBytes hash true) 16 = header.regionHeaderPages := by
    apply getU32_eq
    rw [slice_toBytes _ _ _ (by omega), front, ← append_assoc, ← append_assoc]
    exact slice_append_middle rfl (by simp) _
  have hRegionMaxDataPages : getU32 (header.toBytes hash true) 20 = header.regionMaxDataPages := by
    apply getU32_eq
    rw [slice_toBytes _ _ _ (by omega), front, ← append_assoc, ← append_assoc, ← append_assoc]
    exact slice_append_middle rfl (by simp) _
  have hFullRegions : getU32 (header.toBytes hash true) 24 = header.fullRegions := by
    apply getU32_eq
    rw [slice_toBytes _ _ _ (by omega), front, ← append_assoc, ← append_assoc,
      ← append_assoc, ← append_assoc]
    exact slice_append_middle rfl (by simp) _
  have hTrailing : getU32 (header.toBytes hash true) 28 = header.trailingPartialRegionPages := by
    apply getU32_eq
    rw [slice_toBytes _ _ _ (by omega), front, ← append_assoc, ← append_assoc,
      ← append_assoc, ← append_assoc, ← append_assoc]
    exact slice_append_middle rfl (by simp) _
  have hSalt : readSalt (header.toBytes hash true) = header.salt := by
    rw [readSalt, slice_salt, take_left' header.salt_length]
  have hMagic : (header.toBytes hash true).take 9 = magicNumber := rfl
  rcases godByte_flags header with ⟨hPrimary, hRecovery, hTwoPhase⟩
  have hVec : ![header.transactionSlots 0, header.transactionSlots 1] =
        header.transactionSlots := by
    funext slot
    match slot with
    | 0 | 1 => rfl
  have hGood : ∀ slot : Fin 2, (![false, false] : Fin 2 → Bool) slot = false := by decide
  unfold fromBytes
  simp only [hSlot, bind, Except.bind, pure, Except.pure, byteAt_toBytes, hPrimary, hRecovery,
    hTwoPhase, hPageSize, hRegionHeaderPages, hRegionMaxDataPages, hFullRegions, hTrailing, hSalt,
    hMagic, hVec, hGood]
  simp

end DatabaseHeader

/- A checksum to compute with: the low bytes of the data. -/
def lowBytes (data : Bytes) : Checksum := BitVec.ofNat 128 (ofLe data)

------------------------------------------------------------
-- Changed Slots
------------------------------------------------------------

/- The flag that reports a slot. -/
def HeaderRepairInfo.corrupted (info : HeaderRepairInfo) (primarySlot slot : Fin 2) : Bool :=
  if slot = primarySlot then info.primaryCorrupted else info.secondaryCorrupted

namespace DatabaseHeader

/- The header with any bytes in its slots. -/
def image (header : DatabaseHeader) (slots : Fin 2 → Bytes) : Bytes :=
  header.front true ++ (slots 0 ++ slots 1)

/- The header with the bytes of one slot changed. -/
def withSlot (hash : Bytes → Checksum) (header : DatabaseHeader) (slot : Fin 2) (changed : Bytes) :
    Bytes :=
  header.image (Function.update (fun s => (header.transactionSlots s).toBytes hash) slot changed)

variable {hash : Bytes → Checksum} (header : DatabaseHeader) {changed : Bytes}

theorem fromBytes_image {slots : Fin 2 → Bytes} {corrupted : Fin 2 → Bool}
    (hSlots : ∀ slot, (slots slot).length = 128 ∧
      ∃ read, TransactionHeader.fromBytes hash (slots slot) = .ok (read, corrupted slot)) :
    ∃ read info, fromBytes hash (header.image slots) = .ok (read, info) ∧
      info.corrupted header.primarySlot = corrupted := by
  choose contents hRead using fun slot => (hSlots slot).2
  have hBytes (slot : Fin 2) : slotBytes (header.image slots) slot = slots slot := by
    unfold slotBytes image
    match slot with
    | 0 => exact slice_append_middle (length_front header true) (hSlots 0).1 _
    | 1 =>
      rw [← List.append_assoc]
      exact slice_append_last (by rw [List.length_append, length_front, (hSlots 0).1]; rfl)
        (hSlots 1).1
  have hSlotBytes (slot : Fin 2) : TransactionHeader.fromBytes hash
      (slotBytes (header.image slots) slot) = .ok (contents slot, corrupted slot) := by
    rw [hBytes, hRead]
  rcases fromBytes_eq hSlotBytes with ⟨read, info, hOk, hPrimary, -, -, -, hFirst, hSecond⟩
  have hGod : byteAt (header.image slots) 9 = header.godByte := rfl
  rw [hGod, (godByte_flags header).1] at hPrimary
  rw [hPrimary] at hFirst hSecond
  refine ⟨read, info, hOk, funext fun slot => ?_⟩
  unfold HeaderRepairInfo.corrupted
  split
  · rename_i hEq
    rw [hEq, hFirst]
  · have hOther : slot = header.primarySlot + 1 := by omega
    rw [hOther, hSecond]

/- A change of the contents or of the checksum alone is seen, unless the checksums collide. -/
theorem isCorrupted_of_changed {slot : TransactionHeader} (hLen : changed.length = 128)
    (hCollision : hash (changed.take 112) = hash slot.body → changed.take 112 = slot.body)
    (hChanged : changed ≠ slot.toBytes hash)
    (hPart : changed.take 112 = slot.body ∨ changed.drop 112 = toLe 16 (hash slot.body).toNat) :
    TransactionHeader.isCorrupted hash changed = true := by
  have hSum : changed.slice 112 16 = changed.drop 112 := List.take_of_length_le (by simp [hLen])
  have hSixteen : (changed.drop 112).length = 16 := by simp [hLen]
  have hFits : (hash slot.body).toNat < 256 ^ 16 := (hash slot.body).isLt
  simp only [TransactionHeader.isCorrupted, hSum, decide_eq_true_eq]
  intro hGood
  apply hChanged
  rw [← List.take_append_drop 112 changed]
  rcases hPart with hBody | hDrop
  · rw [TransactionHeader.toBytes, hBody, ← toLe_ofLe (changed.drop 112), hSixteen, hGood, hBody]
  · rw [hDrop, ofLe_toLe hFits] at hGood
    rw [hCollision (BitVec.eq_of_toNat_eq hGood.symm), hDrop, TransactionHeader.toBytes]

end DatabaseHeader

end Redbx
