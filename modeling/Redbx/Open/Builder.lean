import Redbx.Encryption.Backend
import Redbx.PageStore.Integrity
import Redbx.Allocator.TornLayout
import Mathlib.Data.UInt

/-
  How `Builder` opens a database file with a password.

  Key derivation and the cipher are third-party crates and stand as fields of `Platform`.
  `TransactionalMemory::new` and the descent of `get_allocator_state_table` are modelled up to the
  first leaf they read; what follows sees the file only through reads of the backend, and is the
  field `finish`.

  Key definitions include:
    * `StorageError`, `OpenError`
-/

namespace Redbx

open Bytes

-- Errors

/- Every way to fail but a wrong password. `invalidData` is the I/O error of a bad magic number. -/
inductive StorageError where
  | io (error : IoError)
  | invalidData
  | header (error : DatabaseError)
  | repairAborted
  | panicked
  deriving DecidableEq

/- `IncorrectPassword` is only made by the probe. -/
inductive OpenError where
  | incorrectPassword
  | storage (error : StorageError)
  deriving DecidableEq

/- The 16 random bytes the key is derived with. -/
structure Salt where
  bytes : Bytes
  length_eq : bytes.length = 16
  deriving DecidableEq

-- Layout

namespace DatabaseHeader

/- The length of a full region. -/
def regionLen (header : DatabaseHeader) : Nat :=
  (header.regionHeaderPages.toNat + header.regionMaxDataPages.toNat) * header.pageSize.toNat

/- The fields that give the layout. -/
def layoutFields (header : DatabaseHeader) : LayoutFields where
  pageSize := header.pageSize.toNat
  regionHeaderPages := header.regionHeaderPages.toNat
  regionMaxDataPages := header.regionMaxDataPages.toNat
  fullRegions := header.fullRegions.toNat
  trailingPartialRegionPages := header.trailingPartialRegionPages.toNat

/- The length of the layout, which panics without regions. -/
def layoutLen (header : DatabaseHeader) : Option Nat := do
  let layout ← header.layoutFields.layout
  layout.len

/- The layout for a file's length. Its counters have passed `recalculate`, and so have 32 bits. -/
def recalculate (header : DatabaseHeader) (fileLen : Nat) : Option Layout := do
  let again ← DatabaseLayout.recalculate fileLen header.regionHeaderPages.toNat
    header.regionMaxDataPages.toNat header.pageSize.toNat
  let fields ← header.layoutFields.setLayout again
  some ⟨UInt32.ofNat fields.fullRegions, UInt32.ofNat fields.trailingPartialRegionPages⟩

end DatabaseHeader

/- `DB_HEADER_SIZE`. -/
def dbHeaderSize : Nat := 336

/-
  The header of an empty database: one region of 2^20 pages of which a mebibyte and the page of the
  region tracker are there, 257 pages.
-/
def initialHeader (salt : Salt) : DatabaseHeader :=
  { DatabaseHeader.new 4096 0 (2 ^ 20) 0 257 0 salt.bytes salt.length_eq with
    recoveryRequired := false
    twoPhaseCommit := true }

/- The file of an empty database. -/
def initialFile (hash : Bytes → Checksum) (salt : Salt) : Bytes :=
  (zeros ((initialHeader salt).layoutLen.getD 0)).overwrite 0 ((initialHeader salt).toBytes hash true)

-- Transactional Memory

/- A failed `assert!`. -/
def assert (condition : Bool) : Except StorageError Unit :=
  if condition then .ok () else .error .panicked

/- A panic, or the value. -/
def orPanic {α : Type} : Option α → Except StorageError α
  | some value => .ok value
  | none => .error .panicked

/- An I/O error is passed on. -/
def liftIo {α : Type} : Except IoError α → Except StorageError α := Except.mapError .io

/-
  The magic number at the start of a file that is not empty; a file too short for it counts as
  zeros.
-/
def readMagicNumber (cipher : PageCipher) (file : Bytes) : Except StorageError Bytes :=
  if DatabaseHeader.magicNumber.length ≤ file.length then
    liftIo (readAndDecrypt cipher file 0 DatabaseHeader.magicNumber.length)
  else
    .ok (zeros DatabaseHeader.magicNumber.length)

/-
  The recovery part of `TransactionalMemory::new`: the layout is taken from the file's length, the
  primary is picked anew and the header is written back. The header starts with the magic number, so
  it is written raw.
-/
def recoverHeader (hash : Bytes → Checksum) (readOnly : Bool) (header : DatabaseHeader)
    (repairInfo : HeaderRepairInfo) (file : Bytes) :
    Except StorageError (DatabaseHeader × Bytes) := do
  if readOnly then
    throw .repairAborted
  let layout ← orPanic (header.recalculate file.length)
  let moved := header.setLayout layout
  let (picked, _) ← Except.mapError StorageError.header (moved.pickPrimaryForRepair repairInfo)
  assert (!repairInfo.invalidMagicNumber)
  return (picked, writeAllAt file (picked.toBytes hash true) 0)

/-
  `TransactionalMemory::new`: the header and the file after it. The salt is only used to initialize
  an empty file.
-/
def transactionalMemoryNew
    (hash : Bytes → Checksum) (cipher : PageCipher) (allowInitialize readOnly : Bool) (salt : Salt)
    (file : Bytes) :
    Except StorageError (DatabaseHeader × Bytes) := do
  let started ← if file = [] then
      if allowInitialize then
        pure (initialFile hash salt)
      else
        throw .invalidData
    else do
      let magicNumber ← readMagicNumber cipher file
      if magicNumber = DatabaseHeader.magicNumber then
        pure file
      else
        throw .invalidData
  let headerBytes ← liftIo (readAndDecrypt cipher started 0 dbHeaderSize)
  let (header, repairInfo) ← Except.mapError StorageError.header
      (DatabaseHeader.fromBytes hash headerBytes)
  assert (header.pageSize.toNat = pageSize)
  let len ← orPanic header.layoutLen
  assert (len ≤ started.length)
  let (opened, written) ← if header.recoveryRequired || len ≠ started.length then
      recoverHeader hash readOnly header repairInfo started
    else
      pure (header, started)
  assert (opened.layoutLen = some written.length)
  return (opened, written)

-- The First Leaf

/- `address_range`: where a page starts. -/
def addressStart (header : DatabaseHeader) (page : PageNumber) : Nat :=
  pageSize + page.region * header.regionLen + header.regionHeaderPages.toNat * pageSize +
    page.pageIndex * (pageSize * 2 ^ page.pageOrder)

/- `get_page`. -/
def getPage (cipher : PageCipher) (header : DatabaseHeader) (file : Bytes)
    (page : PageNumber) : Except IoError Bytes :=
  readAndDecrypt cipher file (addressStart header page) (pageSize * 2 ^ page.pageOrder)

/- `BranchAccessor::child_page`. -/
def childPage (branch : Bytes) (n : Nat) : PageNumber :=
  let children := ofLe (branch.slice 2 2) + 1
  .fromLeBytes (branch.slice (8 + 16 * children + 8 * n) 8)

/-
  The descent of `get_helper` to the leaf that would hold the table's name. `childForKey` is the
  child the binary search picks. A page that is neither leaf nor branch is `unreachable!`, and so is
  a path longer than the file has pages.
-/
def findLeaf (read : PageNumber → Except IoError Bytes) (childForKey : Bytes → Nat) :
    Nat → PageNumber → Except StorageError Bytes
  | 0, _ => .error .panicked
  | depth + 1, page => do
    let memory ← liftIo (read page)
    if byteAt memory 0 = leafTag then
      return memory
    else if byteAt memory 0 = branchTag then
      findLeaf read childForKey depth (childPage memory (childForKey memory))
    else
      throw .panicked

-- The Password Probe

/- The verdict on a page that was opened. -/
def probeVerdict : Except IoError Bytes → Except OpenError Unit
  | .ok _ => .ok ()
  | .error .unexpectedEof => .ok ()
  | .error .panicked => .error (.storage .panicked)
  | .error .decryptionFailed => .error .incorrectPassword
  | .error .encryptionFailed => .error .incorrectPassword

/-
  `validate_password`: a file that reaches beyond its header page must have a first data page that
  decrypts. An I/O error is taken for no evidence.
-/
def validatePassword (cipher : PageCipher) (file : Bytes) : Except OpenError Unit :=
  if file.length ≤ pageSize then
    .ok ()
  else
    probeVerdict do
      let page ← readExactAt file pageSize pageSize
      openPage cipher page

/- `read_salt_from_header`: the salt stands at 32. -/
def readSaltFromHeader (file : Bytes) : Except OpenError Salt :=
  if h : 48 ≤ file.length then
    .ok ⟨file.slice 32 16, by
      rw [length_slice_of_le (by omega)]⟩
  else
    .error (.storage (.io .unexpectedEof))

-- Opening

/-
  What opening a file rests on: key derivation, the cipher of a key, the checksum, the binary search
  in a branch, and the rest of opening once the leaf is found.
-/
structure Platform (Password Key View : Type) where
  deriveKey : Password → Salt → Key
  pageCipher : Key → PageCipher
  hash : Bytes → Checksum
  childForKey : Bytes → Nat
  finish : (readOnly : Bool) → (read : Nat → Nat → Except IoError Bytes) →
    DatabaseHeader → Option Bytes →
    Except StorageError View

namespace Platform

variable {Password Key View : Type}

variable (platform : Platform Password Key View)

/-
  The leaf `get_allocator_state_table` looks into. It is looked for only if the last commit had two
  phases.
-/
def allocatorStateLeaf
    (key : Key) (header : DatabaseHeader) (file : Bytes) :
    Except StorageError (Option Bytes) :=
  if header.twoPhaseCommit then
    match header.primary.systemRoot with
    | none => .ok none
    | some root => do
      let leaf ← findLeaf (getPage (platform.pageCipher key) header file) platform.childForKey
          (file.length / pageSize) root.root
      return some leaf
  else
    .ok none

/- `Database::new` and `ReadOnlyDatabase::new`. -/
def databaseNew
    (allowInitialize readOnly : Bool) (key : Key)
    (salt : Salt) (file : Bytes) : Except StorageError View := do
  let (header, opened) ← transactionalMemoryNew platform.hash
      (platform.pageCipher key) allowInitialize readOnly salt file
  let leaf ← platform.allocatorStateLeaf key header opened
  platform.finish readOnly (readAndDecrypt (platform.pageCipher key) opened) header leaf

/- `EncryptedFileBackend::open` with the salt of the header, followed by `new`. -/
def openExisting (readOnly : Bool) (password : Password)
    (file : Bytes) : Except OpenError View := do
  let salt ← readSaltFromHeader file
  let key := platform.deriveKey password salt
  validatePassword (platform.pageCipher key) file
  Except.mapError OpenError.storage (platform.databaseNew false readOnly key salt file)

/-
  `EncryptedFileBackend::new` with the salt `generate_salt` returned, followed by `Database::new`.
  The password is not probed.
-/
def createFresh (generated : Salt) (password : Password)
    (file : Bytes) : Except OpenError View :=
  let key := platform.deriveKey password generated
  Except.mapError OpenError.storage (platform.databaseNew true false key generated file)

/- `Builder::open`. -/
def openDatabase :
    Password → Bytes → Except OpenError View :=
  platform.openExisting false

/- `Builder::open_read_only`. -/
def openReadOnly :
    Password → Bytes → Except OpenError View :=
  platform.openExisting true

/- `Builder::create`. -/
def create (generated : Salt) (password : Password)
    (file : Bytes) : Except OpenError View :=
  if file.length = 0 then
    platform.createFresh generated password file
  else
    platform.openExisting false password file

/- `Builder::create_file`. -/
def createFile (generated : Salt) (password : Password)
    (file : Bytes) : Except OpenError View :=
  platform.createFresh generated password file

end Platform

end Redbx
