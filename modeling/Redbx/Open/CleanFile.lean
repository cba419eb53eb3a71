import Redbx.Open.FirstPage

/-
  Opening a file that was closed cleanly: its header is read as it was written, and the first leaf
  of the system tree is looked for.

  Key theorems include:
    * `ClosedFile.databaseNew`, `exists_sampleFile`
-/

namespace Redbx

open Bytes

variable {Password Key View : Type}

-- The Header Page

theorem readSaltFromHeader_eq {file : Bytes} {salt : Salt} (hSalt : file.slice 32 16 = salt.bytes) :
    readSaltFromHeader file = .ok salt := by
  have hLen : 48 ≤ file.length := by
    have hSixteen := congrArg List.length hSalt
    rw [salt.length_eq, length_slice] at hSixteen
    omega
  unfold readSaltFromHeader
  rw [dif_pos hLen]
  congr 1
  cases salt with
  | mk =>
    simp only at hSalt
    simp only [hSalt]

theorem readAndDecrypt_short (cipher : PageCipher) {file : Bytes} (hPage : pageSize ≤ file.length)
    (hPlain : shouldEncryptPage (file.slice 0 pageSize) = false) {len : Nat}
    (hLen : len < pageSize) :
    readAndDecrypt cipher file 0 len = .ok (file.slice 0 len) := by
  rw [readAndDecrypt_of_short cipher file 0 hLen]
  simp only [readExactAt, Nat.zero_add, if_pos hPage, bind,
    Except.bind, openPage_of_not_leaf cipher hPlain, pure, Except.pure]
  rw [take_slice _ _ _ _ (by omega)]

theorem not_leaf_of_magicNumber
    {file : Bytes} (hMagic : file.slice 0 9 = DatabaseHeader.magicNumber) :
    shouldEncryptPage (file.slice 0 pageSize) = false := by
  cases file with
  | nil => rfl
  | cons tag rest =>
    have hTag : tag = 114 := by
      have hHead := congrArg List.head? hMagic
      simpa [slice, DatabaseHeader.magicNumber] using hHead
    rw [hTag]
    rfl

/- A file with a header whose layout is the file and that needs no recovery. -/
structure ClosedFile (hash : Bytes → Checksum) (header : DatabaseHeader) (file : Bytes) : Prop where
  written : file.slice 0 dbHeaderSize = header.toBytes hash true
  page : pageSize ≤ file.length
  pageSize_eq : header.pageSize.toNat = pageSize
  layout : header.layoutLen = some file.length
  closed : header.recoveryRequired = false

namespace ClosedFile

variable {hash : Bytes → Checksum} {header : DatabaseHeader} {file : Bytes}

theorem magicNumber (hFile : ClosedFile hash header file) :
    file.slice 0 9 = DatabaseHeader.magicNumber := by
  rw [← take_slice file 0 dbHeaderSize 9 (by decide), hFile.written]
  rfl

/- The header is taken as it was written. -/
theorem transactionalMemoryNew
    (hFile : ClosedFile hash header file) (cipher : PageCipher) (allowInitialize readOnly : Bool)
    (salt : Salt) :
    Redbx.transactionalMemoryNew hash cipher allowInitialize readOnly salt file =
      .ok (header, file) := by
  have hPlain := not_leaf_of_magicNumber hFile.magicNumber
  have hNonempty : file ≠ [] := by
    intro hNil
    have hPage := hFile.page
    rw [hNil] at hPage
    exact absurd hPage (by decide)
  have hNine : DatabaseHeader.magicNumber.length ≤ file.length := le_trans (by decide) hFile.page
  have hMagic : readMagicNumber cipher file = .ok DatabaseHeader.magicNumber := by
    rw [readMagicNumber, if_pos hNine, readAndDecrypt_short cipher hFile.page hPlain (by decide)]
    exact congrArg Except.ok hFile.magicNumber
  have hHeader : readAndDecrypt cipher file 0 dbHeaderSize = .ok (header.toBytes hash true) := by
    rw [readAndDecrypt_short cipher hFile.page hPlain (by decide), hFile.written]
  simp [Redbx.transactionalMemoryNew, hNonempty, hMagic, hHeader, liftIo, Except.mapError,
    DatabaseHeader.fromBytes_toBytes, assert, hFile.pageSize_eq, orPanic, hFile.layout,
    hFile.closed, bind, Except.bind, pure, Except.pure]

/- Then the leaf is looked for in the system tree. -/
theorem databaseNew
    (platform : Platform Password Key View) (hFile : ClosedFile platform.hash header file)
    (allowInitialize readOnly : Bool) (key : Key) (salt : Salt) :
    platform.databaseNew allowInitialize readOnly key salt file = (do
        let leaf ← platform.allocatorStateLeaf key header file
        platform.finish readOnly (readAndDecrypt (platform.pageCipher key) file) header leaf) := by
  unfold Platform.databaseNew
  rw [hFile.transactionalMemoryNew]
  rfl

end ClosedFile

-- Another Key

/- AES-GCM rejects under one key what decrypts under another. -/
def Platform.KeysReject (platform : Platform Password Key View) : Prop :=
  ∀ key other nonce encrypted data, key ≠ other →
    (platform.pageCipher key).decryptWithNonce nonce encrypted = some data →
    (platform.pageCipher other).decryptWithNonce nonce encrypted = none

theorem Platform.KeysReject.openPage
    {platform : Platform Password Key View} (hReject : platform.KeysReject) {key other : Key}
    (hKeys : key ≠ other) {page opened : Bytes} (hLeaf : shouldEncryptPage page = true)
    (hOpen : Redbx.openPage (platform.pageCipher key) page = .ok opened) :
    Redbx.openPage (platform.pageCipher other) page = .error .decryptionFailed := by
  simp only [Redbx.openPage, if_pos hLeaf] at hOpen ⊢
  unfold decryptPage at hOpen ⊢
  cases hNonce : pageNonce page with
  | none =>
    rw [hNonce] at hOpen
    cases hOpen
  | some nonce =>
    rw [hNonce] at hOpen
    simp only at hOpen ⊢
    cases hDecrypt : (platform.pageCipher key).decryptWithNonce nonce
          (page.drop (1 + aesNonceSize)) with
    | none =>
      rw [hDecrypt] at hOpen
      cases hOpen
    | some data => rw [hReject key other nonce _ data hKeys hDecrypt]

-- A File With A Branch In Front

/- Keys of one byte that both the password and the salt enter into. -/
def samplePlatform : Platform UInt8 UInt8 Unit where
  deriveKey password salt := password + salt.bytes.headD 0
  pageCipher := keyedCipher
  hash _ := 0
  childForKey _ := 0
  finish _ _ _ _ := .ok ()

/- What one of these keys seals no other opens. -/
theorem samplePlatform_keysReject : samplePlatform.KeysReject := by
  intro key other nonce encrypted data hKeys hDecrypt
  simp only [samplePlatform, keyedCipher] at hDecrypt ⊢
  split at hDecrypt
  · rename_i hTag
    rw [if_neg]
    rintro ⟨_, hOther⟩
    rw [hTag.2] at hOther
    have hHead := congrArg List.head? hOther
    exact hKeys (by simpa [aesTagSize] using hHead)
  · cases hDecrypt

def sampleSalt : Salt := ⟨zeros 16, length_zeros 16⟩

/- A leaf page without entries. -/
def sampleLeaf : Bytes := leafTag :: zeros 4095

/- A branch of the pages 1 and 2 with the one-byte key `m` between them. -/
def sampleBranch : Bytes :=
  [2, 0, 1, 0, 0, 0, 0, 0] ++ (zeros 32 ++ ([1, 0, 0, 0, 0, 0, 0, 0] ++
      ([2, 0, 0, 0, 0, 0, 0, 0] ++ ([61, 0, 0, 0, 109] ++ zeros 4035))))

/- The page with an index, of one unit. -/
def samplePage (n : Fin 100) : PageNumber := OpenDatabase.smallPage n

/-
  The header of the closed database: the table tree is the branch on page 0, the system tree the
  leaf on page 3.
-/
def sampleHeader : DatabaseHeader :=
  { initialHeader sampleSalt with
    transactionSlots := fun _ =>
      { userRoot := some ⟨samplePage 0, 0, 3⟩
        systemRoot := some ⟨samplePage 3, 0, 1⟩
        transactionId := 3 } }

theorem length_sampleBranch : sampleBranch.length = pageSize := by
  simp only [sampleBranch, List.length_append, List.length_cons, List.length_nil, length_zeros]
  rfl

theorem length_sampleLeaf : sampleLeaf.length = pageSize := by
  simp only [sampleLeaf, List.length_cons, length_zeros]
  rfl

theorem length_initialFile (hash : Bytes → Checksum) (salt : Salt) :
    (initialFile hash salt).length = pageSize * (257 + 1) := by
  have hHeader : (DatabaseHeader.toBytes hash (initialHeader salt) true).length = 336 :=
    DatabaseHeader.length_toBytes hash _ true
  rw [initialFile, length_overwrite_max, hHeader, length_zeros, layoutLen_initialHeader]
  rfl

theorem layoutLen_sampleHeader : sampleHeader.layoutLen = some (pageSize * (257 + 1)) :=
  layoutLen_initialHeader sampleSalt

/- The file that the sample platform creates. -/
abbrev newFile : Bytes := initialFile samplePlatform.hash sampleSalt

/-
  The three writes that make the file: the branch on page 0, the system leaf, sealed in a buffer, on
  page 3, and the header.
-/
def branchWritten : Bytes :=
  writeAllAt newFile sampleBranch (pageSize * (0 + 1))

def leafWritten (buffer : Bytes) : Bytes := writeAllAt branchWritten buffer (pageSize * (3 + 1))

def headerWritten (buffer : Bytes) : Bytes :=
  writeAllAt (leafWritten buffer) (sampleHeader.toBytes samplePlatform.hash true) 0

theorem length_branchWritten : branchWritten.length = pageSize * (257 + 1) := by
  have hInitial := length_initialFile samplePlatform.hash sampleSalt
  have hUnit : pageSize = 4096 := rfl
  rw [branchWritten, writeAllAt, length_overwrite, hInitial]
  rw [hInitial, length_sampleBranch]
  omega

variable {buffer : Bytes}

theorem length_leafWritten (hBuffer : buffer.length = pageSize) :
    (leafWritten buffer).length = pageSize * (257 + 1) := by
  have hUnit : pageSize = 4096 := rfl
  rw [leafWritten, writeAllAt, length_overwrite, length_branchWritten]
  rw [length_branchWritten, hBuffer]
  omega

theorem length_headerWritten (hBuffer : buffer.length = pageSize) :
    (headerWritten buffer).length = pageSize * (257 + 1) := by
  have hUnit : pageSize = 4096 := rfl
  rw [headerWritten, writeAllAt, length_overwrite, length_leafWritten hBuffer]
  rw [length_leafWritten hBuffer, DatabaseHeader.length_toBytes]
  omega

theorem slice_headerWritten (buffer : Bytes) {start : Nat} (len : Nat) (hStart : pageSize ≤ start) :
    (headerWritten buffer).slice start len = (leafWritten buffer).slice start len := by
  apply slice_overwrite_of_ge (Nat.zero_le _)
  rw [DatabaseHeader.length_toBytes]
  unfold pageSize at hStart
  omega

theorem firstPage_headerWritten (buffer : Bytes) :
    firstPage (headerWritten buffer) = sampleBranch := by
  have hUnit : pageSize = 4096 := rfl
  have hSelf := slice_overwrite_self newFile
      (pageSize * (0 + 1)) sampleBranch
  rw [length_sampleBranch] at hSelf
  rw [firstPage, slice_headerWritten buffer _ le_rfl,
    leafWritten, writeAllAt, slice_overwrite_before
      (by rw [length_branchWritten]; omega) _ (by omega)]
  exact hSelf

theorem slice_headerWritten_root (hBuffer : buffer.length = pageSize) :
    (headerWritten buffer).slice (pageSize * (3 + 1)) pageSize = buffer := by
  have hUnit : pageSize = 4096 := rfl
  rw [slice_headerWritten buffer _ (by omega), leafWritten,
    writeAllAt, ← hBuffer, slice_overwrite_self]

theorem closedFile_headerWritten (hBuffer : buffer.length = pageSize) :
    ClosedFile samplePlatform.hash sampleHeader (headerWritten buffer) := by
  have hHeader : (sampleHeader.toBytes samplePlatform.hash true).length = 336 :=
    DatabaseHeader.length_toBytes _ _ true
  have hLen := length_headerWritten hBuffer
  refine ⟨?_, ?_, rfl, ?_, rfl⟩
  · rw [headerWritten, slice_writeHeader sampleHeader true _ (by decide), slice, List.drop_zero]
    exact List.take_of_length_le hHeader.le
  · rw [hLen, Nat.mul_succ]
    omega
  · rw [hLen, layoutLen_sampleHeader]

/-
  A closed file whose first data page is the branch, and whose system root is a leaf that `key`
  opens.
-/
structure SampleFile (key : UInt8) (file : Bytes) : Prop where
  run : StoreRun samplePlatform.hash (keyedCipher key) sampleSalt (.clean file)
  closed : ClosedFile samplePlatform.hash sampleHeader file
  first : firstPage file = sampleBranch
  root : ∃ opened, openPage (keyedCipher key) (file.slice (pageSize * (3 + 1)) pageSize) =
      .ok opened ∧
    byteAt opened 0 = leafTag
  length : file.length = pageSize * (257 + 1)

theorem exists_sampleFile (key : UInt8) : ∃ file, SampleFile key file := by
  rcases encryptAndWrite_leaf (keyedCipher_aesGcm key) zeroNonce branchWritten (pageSize * (3 + 1))
      (show sampleLeaf.head? = some leafTag from rfl) length_sampleLeaf.ge with
    ⟨buffer, hBuffer, hOpen, hWrite⟩
  have hBranch : StoreRun samplePlatform.hash (keyedCipher key) sampleSalt (.clean branchWritten) :=
    StoreRun.create.synced (.writePage 0 sampleBranch zeroNonce) ⟨0, length_sampleBranch⟩ rfl
  have hLeaf := hBranch.synced (.writePage 3 sampleLeaf zeroNonce) ⟨0, length_sampleLeaf⟩ hWrite
  have hHeader := hLeaf.synced (.writeHeader sampleHeader true) rfl rfl
  refine ⟨headerWritten buffer, hHeader, closedFile_headerWritten hBuffer,
    firstPage_headerWritten buffer, ?_, length_headerWritten hBuffer⟩
  rw [slice_headerWritten_root hBuffer]
  exact ⟨_, hOpen, rfl⟩

theorem getPage_unit
    (cipher : PageCipher) (header : DatabaseHeader) {file : Bytes} {page : PageNumber}
    (hOrder : page.pageOrder = 0) (hInside : addressStart header page + pageSize ≤ file.length) :
    getPage cipher header file page = openPage cipher
        (file.slice (addressStart header page) pageSize) := by
  have hPages := @readAndDecrypt_pages 1 file (addressStart header page) cipher (by omega)
      (by rw [Nat.mul_one]; exact hInside)
  rw [Nat.mul_one, decryptPages_one cipher (length_slice_of_le hInside)] at hPages
  rw [getPage, hOrder, Nat.pow_zero, Nat.mul_one, hPages]

namespace SampleFile

variable {key : UInt8} {file : Bytes}

variable (hFile : SampleFile key file)
include hFile

/- What the descent reads is the page of the system root. -/
theorem getPage_root (cipher : PageCipher) :
    getPage cipher sampleHeader file (samplePage 3) = openPage cipher
        (file.slice (pageSize * (3 + 1)) pageSize) := by
  have hUnit : pageSize = 4096 := rfl
  have hStart : addressStart sampleHeader (samplePage 3) = pageSize * (3 + 1) := rfl
  rw [getPage_unit cipher sampleHeader rfl, hStart]
  rw [hStart, hFile.length]
  omega

theorem allocatorStateLeaf_eq (other : UInt8) :
    samplePlatform.allocatorStateLeaf other sampleHeader file = (do
        let leaf ← findLeaf (getPage (keyedCipher other) sampleHeader file)
            samplePlatform.childForKey (257 + 1)
            (samplePage 3)
        return some leaf) := by
  have hPages : file.length / pageSize = 257 + 1 := by
    rw [hFile.length]
    exact Nat.mul_div_cancel_left _ (by decide)
  rw [← hPages]
  rfl

theorem databaseNew_own (allowInitialize readOnly : Bool) (salt : Salt) :
    samplePlatform.databaseNew allowInitialize readOnly key salt file = .ok () := by
  rcases hFile.root with ⟨_, hOpen, hLeaf⟩
  have hRead := hFile.getPage_root (keyedCipher key)
  rw [hOpen] at hRead
  rw [ClosedFile.databaseNew samplePlatform hFile.closed,
    hFile.allocatorStateLeaf_eq, findLeaf, hRead]
  simp [liftIo, Except.mapError, hLeaf, bind, Except.bind, pure, Except.pure, samplePlatform]

/- Under another key the system root cannot be read. -/
theorem databaseNew_other (allowInitialize readOnly : Bool) (salt : Salt) {other : UInt8}
    (hKeys : key ≠ other) :
    samplePlatform.databaseNew allowInitialize readOnly other salt file =
      .error (.io .decryptionFailed) := by
  rcases hFile.root with ⟨opened, hOpen, hLeaf⟩
  have hTag : shouldEncryptPage (file.slice (pageSize * (3 + 1)) pageSize) = true := by
    apply shouldEncryptPage_of_head?
    rw [← head?_of_openPage hOpen]
    cases opened with
    | nil => exact absurd hLeaf (by decide)
    | cons => exact congrArg some hLeaf
  have hRead := hFile.getPage_root (keyedCipher other)
  have hReject := samplePlatform_keysReject.openPage hKeys hTag hOpen
  simp only [samplePlatform] at hReject
  rw [hReject] at hRead
  rw [ClosedFile.databaseNew samplePlatform hFile.closed,
    hFile.allocatorStateLeaf_eq, findLeaf, hRead]
  rfl

/- The probe passes under any key. -/
theorem validatePassword_ok (cipher : PageCipher) : validatePassword cipher file = .ok () := by
  have hUnit : pageSize = 4096 := rfl
  rw [validatePassword_of_long cipher (by rw [hFile.length]; omega), hFile.first,
    openPage_of_not_leaf cipher rfl]
  rfl

/- So opening gives what `new` gives. -/
theorem openExisting_eq (readOnly : Bool) (password : UInt8) :
    samplePlatform.openExisting readOnly password file = Except.mapError OpenError.storage
        (samplePlatform.databaseNew false readOnly password sampleSalt file) := by
  have hKept := hFile.run.kept (keyedCipher_aesGcm key) file List.mem_cons_self
  have hKey : samplePlatform.deriveKey password sampleSalt = password := UInt8.add_zero password
  simp only [Platform.openExisting, readSaltFromHeader_eq hKept.salted, hKey,
    hFile.validatePassword_ok, bind, Except.bind]

end SampleFile

------------------------------------------------------------
-- Changed Slots
------------------------------------------------------------

namespace DatabaseHeader

variable {hash : Bytes → Checksum} (header : DatabaseHeader) {changed : Bytes}

/-
  A written header reads back, and its salt is read from the file. After the bytes of a slot were
  changed behind its version, that slot is reported exactly if its checksum is not that of its
  contents, as after every change of the contents alone or of the checksum alone; the other slot is
  not reported.
-/
theorem changed_slot_reported (slot : Fin 2) (hLen : changed.length = 128)
    (hVersion : byteAt changed 0 = fileFormatVersion3)
    (hCollision : hash (changed.take 112) = hash (header.transactionSlots slot).body →
      changed.take 112 = (header.transactionSlots slot).body) :
    fromBytes hash (header.toBytes hash true) = .ok (header, ⟨false, false, false⟩) ∧
      (∀ file : Bytes, file.take 336 = header.toBytes hash true →
        readSaltFromHeader file = .ok ⟨header.salt, header.salt_length⟩) ∧
      (∃ read info, fromBytes hash (header.withSlot hash slot changed) = .ok (read, info) ∧
        info.corrupted header.primarySlot = fun other =>
          other = slot && TransactionHeader.isCorrupted hash changed) ∧
      (changed ≠ (header.transactionSlots slot).toBytes hash →
        changed.take 112 = (header.transactionSlots slot).body ∨
          changed.drop 112 = toLe 16 (hash (header.transactionSlots slot).body).toNat →
        TransactionHeader.isCorrupted hash changed = true) := by
  refine ⟨fromBytes_toBytes hash header, fun file hFile => ?_, ?_,
    isCorrupted_of_changed hLen hCollision⟩
  · have hSalt := slice_salt hash header true
    rw [← hFile, slice, List.drop_take, List.take_take] at hSalt
    exact readSaltFromHeader_eq hSalt
  · apply fromBytes_image
    intro other
    by_cases hEq : other = slot
    · rw [hEq, Function.update_self, decide_eq_true rfl, Bool.true_and]
      exact ⟨hLen, TransactionHeader.fromBytes_of_version hash hVersion⟩
    · rw [Function.update_of_ne hEq, decide_eq_false hEq, Bool.false_and]
      exact ⟨TransactionHeader.length_toBytes _ _, _, TransactionHeader.fromBytes_toBytes _ _⟩

/- A new database, and the slot of its next transaction. -/
def firstHeader : DatabaseHeader := new 4096 1 8 0 8 1 (zeros 16) length_zeroSalt

/- A checksum that tells transactions apart. -/
def idChecksum (data : Bytes) : Checksum := lowBytes (data.drop 104)

/- The checksum of the slot is left behind. -/
theorem changed_id_reported :
    TransactionHeader.isCorrupted idChecksum ((TransactionHeader.new 2).body ++ toLe 16 1) = true :=
  (changed_slot_reported firstHeader 1 (by decide +kernel) (by decide +kernel)
    (by decide +kernel)).2.2.2 (by decide +kernel) (Or.inr (by decide +kernel))

/- The slot that the next commit writes is another one and is not reported. -/
theorem committed_slot_not_reported : (TransactionHeader.new 2).toBytes idChecksum ≠
        (firstHeader.transactionSlots 1).toBytes idChecksum ∧
      idChecksum (TransactionHeader.new 2).body ≠ idChecksum (firstHeader.transactionSlots 1).body ∧
      ∃ read, fromBytes idChecksum (firstHeader.withSlot idChecksum 1
        ((TransactionHeader.new 2).toBytes idChecksum)) = .ok (read, ⟨false, false, false⟩) := by
  have hImage : firstHeader.withSlot idChecksum 1 ((TransactionHeader.new 2).toBytes idChecksum) =
      (firstHeader.setSecondary (TransactionHeader.new 2)).toBytes idChecksum true := rfl
  rw [hImage, fromBytes_toBytes]
  exact ⟨by decide +kernel, by decide +kernel, _, rfl⟩

end DatabaseHeader

end Redbx
