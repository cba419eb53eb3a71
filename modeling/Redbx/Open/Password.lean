import Redbx.Open.CleanFile
import Redbx.Allocator.Buddy
import Redbx.Btree.Refinement

/-
  When the password probe says `IncorrectPassword`.

  The probe looks at one page only. A wrong password is recognised exactly when that page is a leaf,
  and the right password is refused exactly when a crash left that page torn.

  Key theorems include:
    * `incorrectPassword_iff_leaf_first`, `torn_first_page_refuses_password`
-/

namespace Redbx

open Bytes List

variable {Password Key View : Type}

-- Who Says Incorrect Password

variable {salt : Salt}

theorem Platform.openExisting_incorrect_iff
    (platform : Platform Password Key View) (readOnly : Bool) (password : Password) {file : Bytes}
    (hSalt : file.slice 32 16 = salt.bytes) :
    platform.openExisting readOnly password file = .error .incorrectPassword ↔
      validatePassword (platform.pageCipher (platform.deriveKey password salt)) file =
        .error .incorrectPassword := by
  simp only [Platform.openExisting, readSaltFromHeader_eq hSalt, bind, Except.bind]
  cases validatePassword (platform.pageCipher (platform.deriveKey password salt)) file with
  | error => simp
  | ok u =>
    simp only
    cases platform.databaseNew false readOnly (platform.deriveKey password salt) salt file with
    | error => simp [Except.mapError]
    | ok view => simp [Except.mapError]

-- A Wrong Key

theorem openPage_ne_unexpectedEof (cipher : PageCipher) (page : Bytes) :
    openPage cipher page ≠ .error .unexpectedEof := by
  unfold openPage decryptPage
  split
  · split
    · simp
    · split
      · simp
      · split
        · simp
        · simp
  · simp

theorem opened_of_probeVerdict
    {cipher : PageCipher} {page : Bytes} (hVerdict : probeVerdict (openPage cipher page) = .ok ()) :
    ∃ opened, openPage cipher page = .ok opened := by
  cases hOpen : openPage cipher page with
  | ok opened => exact ⟨opened, rfl⟩
  | error error =>
    rw [hOpen] at hVerdict
    cases error with
    | unexpectedEof => exact absurd hOpen (openPage_ne_unexpectedEof cipher page)
    | encryptionFailed | decryptionFailed | panicked => cases hVerdict

/- The file starts with an encrypted page after its header. -/
def LeafFirst (file : Bytes) : Prop :=
  pageSize + pageSize ≤ file.length ∧ shouldEncryptPage (firstPage file) = true

/- Under another key exactly a leaf at 4096 is refused. -/
theorem KeptFile.wrong_key_iff
    {platform : Platform Password Key View} (hReject : platform.KeysReject) {key other : Key}
    (hKeys : key ≠ other) {file : Bytes} (hKept : KeptFile (platform.pageCipher key) salt file) :
    validatePassword (platform.pageCipher other) file = .error .incorrectPassword ↔
      LeafFirst file := by
  rcases hKept.short_or_long with hShort | hLong
  · have hEnd : ¬ pageSize + pageSize ≤ file.length := by
      unfold pageSize at *
      omega
    rw [validatePassword_of_short _ (by omega)]
    constructor
    · intro hEq
      cases hEq
    · intro hLeaf
      exact absurd hLeaf.1 hEnd
  · have hProbe := hKept.probe
    rw [validatePassword_of_long _ hLong] at hProbe ⊢
    by_cases hLeaf : shouldEncryptPage (firstPage file) = true
    · rcases opened_of_probeVerdict hProbe with ⟨_, hOpen⟩
      rw [hReject.openPage hKeys hLeaf hOpen]
      exact ⟨fun _ => ⟨hLong, hLeaf⟩, fun _ => rfl⟩
    · have hPlain : shouldEncryptPage (firstPage file) = false := by simpa using hLeaf
      rw [openPage_of_not_leaf _ hPlain]
      constructor
      · intro hEq
        cases hEq
      · intro hFirst
        exact absurd hFirst.2 hLeaf

variable {disk : Disk}

/-
  For every file a history under one password leaves and every password with another key, the three
  ways to open it say `IncorrectPassword` exactly when the page at 4096 is a leaf.
-/
theorem incorrectPassword_iff_leaf_first
    (platform : Platform Password Key View) (hReject : platform.KeysReject)
    (password wrong : Password) (salt generated : Salt)
    (hGcm : (platform.pageCipher (platform.deriveKey password salt)).AesGcm) {disk : Disk}
    (hRun : StoreRun platform.hash (platform.pageCipher
          (platform.deriveKey password salt)) salt disk)
    (hKeys : platform.deriveKey password salt ≠ platform.deriveKey wrong salt) :
    (platform.openDatabase wrong disk.durable = .error .incorrectPassword ∧
      platform.create generated wrong disk.durable = .error .incorrectPassword ∧
      platform.openReadOnly wrong disk.durable = .error .incorrectPassword) ↔
      LeafFirst disk.durable := by
  have hKept := hRun.kept hGcm disk.durable mem_cons_self
  have hProbe := hKept.wrong_key_iff hReject hKeys
  have hNonempty : disk.durable.length ≠ 0 := by
    have hHeader := hKept.header_le
    unfold pageSize at hHeader
    omega
  have hOpen : ∀ readOnly, platform.openExisting readOnly wrong disk.durable =
          .error .incorrectPassword ↔
        LeafFirst disk.durable := by
    intro readOnly
    rw [platform.openExisting_incorrect_iff readOnly wrong hKept.salted, hProbe]
  rw [Platform.openDatabase, Platform.create, if_neg hNonempty, Platform.openReadOnly, hOpen false,
    hOpen true]
  simp

/- `sampleLeaf` sealed under the key 7. -/
def sealedLeaf : Bytes := (leafTag :: zeros 4079) ++ replicate aesTagSize 7

theorem length_sealedLeaf : sealedLeaf.length = pageSize := by
  simp [sealedLeaf, pageSize, aesTagSize]

theorem encryptAndWrite_sampleLeaf (file : Bytes) (offset : Nat) :
    encryptAndWrite (keyedCipher 7) zeroNonce file offset sampleLeaf =
      .ok (writeAllAt file sealedLeaf offset) := by
  have hPlain : (zeros 4095).take maxPlaintextSize = zeros 4067 := take_replicate
  have hBuffer : sampleLeaf.take 1 ++ zeros 12 ++ (zeros 4067 ++ replicate aesTagSize 7) ++
        zeros 0 = sealedLeaf := by
    have hZeros : zeros 12 ++ zeros 4067 = zeros 4079 := replicate_append_replicate
    rw [append_assoc (take 1 _), ← append_assoc (zeros 12), hZeros]
    exact append_nil _
  have hLeaf : shouldEncryptPage sampleLeaf = true := rfl
  have hDrop : sampleLeaf.drop 1 = zeros 4095 := rfl
  have hLong : maxPlaintextSize < 4095 := by decide
  have hLen : (zeros 4067 ++ replicate aesTagSize (7 : UInt8)).length = 4083 := by
    simp [aesTagSize]
  simp only [encryptAndWrite, hLeaf, hDrop, length_zeros, hLong, hPlain, keyedCipher, hLen, if_true]
  rw [if_pos (by decide)]
  exact congrArg (fun buffer => Except.ok (writeAllAt file buffer offset)) hBuffer

/- A new file with that leaf on its first page. -/
def leafFile : Bytes := writeAllAt newFile sealedLeaf (pageSize * (0 + 1))

theorem inside_newFile {buffer : Bytes} (hLen : buffer.length ≤ pageSize) :
    pageSize * (0 + 1) + buffer.length ≤ newFile.length := by
  rw [length_initialFile]
  unfold pageSize at *
  omega

theorem firstPage_leafFile : firstPage leafFile = sealedLeaf := by
  have hSelf := slice_overwrite_self newFile (pageSize * (0 + 1)) sealedLeaf
  rw [length_sealedLeaf] at hSelf
  exact hSelf

/- A file with a leaf at 4096 is closed to other keys. -/
theorem leaf_first_rejects_wrong_password :
    ∃ file, LeafFirst file ∧ samplePlatform.openDatabase 9 file = .error .incorrectPassword ∧
      samplePlatform.create sampleSalt 9 file = .error .incorrectPassword ∧
      samplePlatform.openReadOnly 9 file = .error .incorrectPassword := by
  have hRun : StoreRun samplePlatform.hash (keyedCipher 7) sampleSalt (.clean leafFile) :=
    StoreRun.create.synced (.writePage 0 sampleLeaf zeroNonce) ⟨0, length_sampleLeaf⟩
      (encryptAndWrite_sampleLeaf _ _)
  have hLeaf : LeafFirst leafFile := by
    refine ⟨?_, by rw [firstPage_leafFile]; rfl⟩
    have hLong := le_length_overwrite newFile (pageSize * (0 + 1)) sealedLeaf
    rw [length_sealedLeaf] at hLong
    exact hLong
  refine ⟨_, hLeaf, ?_⟩
  exact (incorrectPassword_iff_leaf_first samplePlatform
      samplePlatform_keysReject 7 9 sampleSalt sampleSalt
      (keyedCipher_aesGcm _) hRun (by decide)).mpr hLeaf

------------------------------------------------------------
-- A Branch on the First Page
------------------------------------------------------------

/- The blocks of the region of a new file, by order and index. -/
def newFileBlocks : List (Nat × Nat) :=
  (List.range 21).flatMap fun order => (List.range (257 / 2 ^ order)).map fun i => (order, i)

/- What the region's allocator hands out next, when these blocks are in use. -/
def buddyPick (used : Finset (Nat × Nat)) (order : Nat) : Option Nat := do
  let self ← BuddyAllocator.new 257 1048576
  let self ← newFileBlocks.foldlM (fun (self : BuddyAllocator) block =>
    if block ∈ used then self.recordAlloc block.2 block.1 else some self) self
  let (page, _) ← self.alloc order
  page

/- Where it has no page, the file grows. -/
def nextPage (used : Finset (Nat × Nat)) (order : Nat) : Nat × Nat :=
  let page := (order, (buddyPick used order).getD 257)
  if page ∉ used then page else natAllocator.pick used order

theorem nextPage_fresh (used : Finset (Nat × Nat)) (order : Nat) : nextPage used order ∉ used := by
  unfold nextPage
  dsimp only
  split
  case isTrue hFresh => exact hFresh
  case isFalse => exact natAllocator.pick_fresh used order

theorem nextPage_order (used : Finset (Nat × Nat)) (order : Nat) :
    (nextPage used order).1 = order := by
  unfold nextPage
  dsimp only
  split <;> rfl

/- The allocator of a new file. -/
def buddyAllocator : PageAllocator (Nat × Nat) where
  order := Prod.fst
  pick := nextPage
  pick_fresh := nextPage_fresh
  pick_order := nextPage_order

def buddyEnv : BtreeEnv (Nat × Nat) Nat Nat where
  fmt := natFormat
  alloc := buddyAllocator

/- The memory of a new file in which a table was created: the leaf of the table tree is allocated. -/
def tableMemory : Mem (Nat × Nat) Nat Nat :=
  (emptyMemory.allocate buddyAllocator 0 (.leaf [])).2

/- Two values that do not fit in one leaf. -/
def twoLargeValues : List (Call Nat Nat) := [.insert 1 3000, .insert 2 3000]

/- The page holds a branch. -/
def isBranch : Option (Node (Nat × Nat) Nat Nat) → Bool
  | some (.branch _ _) => true
  | _ => false

/- The leaf of the table splits, gives page 0 back and puts the new root there. -/
theorem twoLargeValues_branch_first :
    (0, 256) ∈ tableMemory.allocated ∧
      ((buddyEnv.transaction twoLargeValues ⟨none, tableMemory⟩).toOption.any fun result =>
        isBranch (result.2.mem.pages (0, 0))) = true := by
  decide +kernel

/-
  Such a database has a branch at 4096. A wrong password passes the probe and then fails on the
  system tree.
-/
theorem branch_first_hides_wrong_password :
    ((buddyEnv.transaction twoLargeValues ⟨none, tableMemory⟩).toOption.any fun result =>
      isBranch (result.2.mem.pages (0, 0))) = true ∧
    samplePlatform.KeysReject ∧
    samplePlatform.deriveKey 7 sampleSalt ≠ samplePlatform.deriveKey 9 sampleSalt ∧
    ∃ file, StoreRun samplePlatform.hash (samplePlatform.pageCipher
          (samplePlatform.deriveKey 7 sampleSalt))
        sampleSalt (.clean file) ∧
      byteAt (firstPage file) 0 = branchTag ∧
      samplePlatform.openDatabase 7 file = .ok () ∧
      samplePlatform.openDatabase 9 file = .error (.storage (.io .decryptionFailed)) ∧
      samplePlatform.create sampleSalt 9 file = .error (.storage (.io .decryptionFailed)) ∧
      samplePlatform.openReadOnly 9 file = .error (.storage (.io .decryptionFailed)) := by
  rcases exists_sampleFile 7 with ⟨file, hFile⟩
  have hNonempty : file.length ≠ 0 := by
    rw [hFile.length]
    decide
  have hFails : ∀ readOnly, samplePlatform.openExisting readOnly 9 file =
        .error (.storage (.io .decryptionFailed)) := by
    intro readOnly
    rw [hFile.openExisting_eq, hFile.databaseNew_other false readOnly sampleSalt (by decide)]
    rfl
  refine ⟨twoLargeValues_branch_first.2, samplePlatform_keysReject, by decide, file, hFile.run,
    ?_, ?_, hFails false, ?_, hFails true⟩
  · rw [hFile.first]
    rfl
  · rw [Platform.openDatabase, hFile.openExisting_eq, hFile.databaseNew_own]
    rfl
  · rw [Platform.create, if_neg hNonempty]
    exact hFails false

-- A Torn Page

/- The crash left the page at 4096 as one write left it, or left no such page. -/
def FirstPageWhole (disk : Disk) (image : Bytes) : Prop :=
  image.length < pageSize + pageSize ∨ ∃ version ∈ disk.versions,
      firstPage image = firstPage version

/- AES-GCM rejects a torn ciphertext. -/
def RejectsTorn (cipher : PageCipher) (disk : Disk) : Prop :=
  ∀ image, disk.Crashes image → ¬ FirstPageWhole disk image →
    shouldEncryptPage (firstPage image) = true →
    openPage cipher (firstPage image) = .error .decryptionFailed

theorem FirstPageWhole.probe
    {cipher : PageCipher} {image : Bytes} (hWhole : FirstPageWhole disk image)
    (hKept : ∀ version ∈ disk.versions, KeptFile cipher salt version) :
    validatePassword cipher image = .ok () := by
  by_cases hLong : pageSize + pageSize ≤ image.length
  · rcases hWhole with hShort | ⟨version, hMem, hPage⟩
    · omega
    · have hVersion : pageSize + pageSize ≤ version.length := by
        -- a page of full length was cut from the version
        have hLen := congrArg List.length hPage
        unfold firstPage at hLen
        rw [length_slice, length_slice] at hLen
        unfold pageSize at *
        omega
      rw [validatePassword_congr cipher hLong hVersion hPage]
      exact (hKept version hMem).probe
  · exact validatePassword_of_short cipher (by omega)

/-
  After any crash of any history, the password a database was created with is accepted exactly when
  the page at 4096 is whole or does not look like a leaf.
-/
theorem torn_first_page_refuses_password
    (platform : Platform Password Key View) (password : Password) (salt : Salt)
    (hGcm : (platform.pageCipher (platform.deriveKey password salt)).AesGcm) {disk : Disk}
    (hRun : StoreRun platform.hash (platform.pageCipher
          (platform.deriveKey password salt)) salt disk)
    (hTorn : RejectsTorn (platform.pageCipher (platform.deriveKey password salt)) disk)
    {image : Bytes} (hCrash : disk.Crashes image) :
    platform.openDatabase password image ≠ .error .incorrectPassword ↔ FirstPageWhole disk image ∨
        shouldEncryptPage (firstPage image) = false := by
  have hKept := hRun.kept hGcm
  have hSalt := Disk.Crashes.salted hCrash hKept
  rw [Platform.openDatabase, Ne, platform.openExisting_incorrect_iff false password hSalt]
  constructor
  · intro hAccepted
    by_cases hWhole : FirstPageWhole disk image
    · exact Or.inl hWhole
    · right
      have hLong : pageSize + pageSize ≤ image.length := by
        by_contra hShort
        exact hWhole (Or.inl (by omega))
      by_contra hLeaf
      apply hAccepted
      rw [validatePassword_of_long _ hLong, hTorn image hCrash hWhole (by simpa using hLeaf)]
      rfl
  · rintro (hWhole | hPlain) hRefused
    · rw [hWhole.probe hKept] at hRefused
      cases hRefused
    · by_cases hLong : pageSize + pageSize ≤ image.length
      · rw [validatePassword_of_long _ hLong, openPage_of_not_leaf _ hPlain] at hRefused
        cases hRefused
      · rw [validatePassword_of_short _ (by omega)] at hRefused
        cases hRefused

------------------------------------------------------------
-- A Leaf That Is Not Yet Synced
------------------------------------------------------------

theorem slice_initialFile
    {start len : Nat} (hash : Bytes → Checksum) (salt : Salt) (hStart : pageSize ≤ start)
    (hEnd : start + len ≤ pageSize * (257 + 1)) :
    (initialFile hash salt).slice start len = zeros len := by
  rw [initialFile, slice_overwrite_of_ge (Nat.zero_le _), slice_zeros, layoutLen_initialHeader,
    Option.getD_some]
  · congr 1
    omega
  · rw [DatabaseHeader.length_toBytes]
    unfold pageSize at hStart
    omega

/- A leaf without the tag of the key is rejected. -/
theorem openPage_of_tag_ne
    {key : UInt8}
    {page : Bytes}
    (hLen : page.length = pageSize)
    (hLeaf : shouldEncryptPage page = true)
    (hTag : page.drop 4080 ≠ replicate aesTagSize key) :
    openPage (keyedCipher key) page = .error .decryptionFailed := by
  have hNonce : (page.slice 1 aesNonceSize).length = aesNonceSize := by
    rw [length_slice, hLen]
    rfl
  have hDrop : (page.drop (1 + aesNonceSize)).length = 4083 := by
    rw [length_drop, hLen]
    rfl
  have hReject : ∀ nonce, (keyedCipher key).decryptWithNonce nonce
        (page.drop (1 + aesNonceSize)) = none := by
    intro nonce
    simp only [keyedCipher, hDrop, drop_drop]
    exact if_neg fun hSame => hTag hSame.2
  rw [openPage, if_pos hLeaf, decryptPage, pageNonce, dif_pos hNonce]
  simp only [hReject]

/- The write of the leaf has not been synced. -/
def leafDisk : Disk := (Disk.clean newFile).step (.write leafFile)

theorem mem_versions_leafDisk : leafFile ∈ leafDisk.versions :=
  mem_cons_of_mem _ mem_cons_self

theorem leafDisk_run : StoreRun samplePlatform.hash (keyedCipher 7) sampleSalt leafDisk :=
  StoreRun.create.call (.writePage 0 sampleLeaf zeroNonce) ⟨0, length_sampleLeaf⟩
    (encryptAndWrite_sampleLeaf _ _)

/- A mix of zeros and the sealed leaf that has its first byte and its tag is the sealed leaf. -/
theorem eq_sealedLeaf
    {page : Bytes}
    (hMix : ∀ i : Nat, page[i]? = (zeros pageSize)[i]? ∨ page[i]? = sealedLeaf[i]?)
    (hLeaf : shouldEncryptPage page = true)
    (hTag : page.drop 4080 = replicate aesTagSize 7) :
    page = sealedLeaf := by
  have hSealed : sealedLeaf.drop 4080 = replicate aesTagSize 7 := drop_left' (by simp)
  rw [← take_append_drop 4080 page, ← take_append_drop 4080 sealedLeaf, hTag, hSealed]
  refine congrArg (· ++ _) ((take_eq_take_iff_getElem? _ _ _).mpr ?_)
  intro i hi
  cases i with
  | zero =>
    cases page with
    | nil => cases hLeaf
    | cons tag rest =>
      have hFirst : tag = leafTag := by simpa [shouldEncryptPage] using hLeaf
      rw [hFirst]
      rfl
  | succ i =>
    have hZero : (zeros pageSize)[i + 1]? = sealedLeaf[i + 1]? := by
      rw [sealedLeaf, getElem?_append_left (by simpa using hi), getElem?_cons_succ, zeros, zeros,
        getElem?_replicate, getElem?_replicate, if_pos (by unfold pageSize; omega),
        if_pos (by omega)]
    rcases hMix (i + 1) with hByte | hByte
    · rw [hByte, hZero]
    · exact hByte

theorem rejectsTorn_leafDisk : RejectsTorn (keyedCipher 7) leafDisk := by
  intro image hImage hWhole hLeaf
  have hNew : firstPage newFile = zeros pageSize :=
    slice_initialFile _ _ le_rfl (by unfold pageSize; omega)
  have hLen : (firstPage image).length = pageSize := by
    have hLong : ¬ image.length < pageSize + pageSize := fun hShort => hWhole (Or.inl hShort)
    rw [firstPage, length_slice]
    omega
  refine openPage_of_tag_ne hLen hLeaf ?_
  -- a torn page that has the whole tag has the whole leaf
  intro hTag
  refine hWhole (Or.inr ⟨leafFile, mem_versions_leafDisk, ?_⟩)
  rw [firstPage_leafFile]
  refine eq_sealedLeaf (fun i => ?_) hLeaf hTag
  rcases hImage.torn (pageSize + i) trivial with ⟨version, hMem, hByte⟩
  have hPage : (firstPage image)[i]? = (firstPage version)[i]? := by
    rw [firstPage, firstPage, getElem?_slice, getElem?_slice, hByte]
  rcases mem_cons.mp hMem with hOld | hMem
  · left
    rw [hPage, hOld, ← hNew]
    rfl
  · right
    rw [hPage, mem_singleton.mp hMem, firstPage_leafFile]

/- Of the first leaf, one byte is there. -/
def tornFile : Bytes :=
  writeAllAt newFile [leafTag] (pageSize * (0 + 1))

theorem tornFile_inside : pageSize * (0 + 1) + [leafTag].length ≤ newFile.length :=
  inside_newFile (by decide)

theorem length_tornFile : tornFile.length = pageSize * (257 + 1) := by
  rw [tornFile, writeAllAt, length_overwrite tornFile_inside, length_initialFile]

theorem firstPage_tornFile : firstPage tornFile = sampleLeaf := by
  have hUnit : pageSize = 4096 := rfl
  have hSplit : firstPage tornFile = tornFile.slice (pageSize * (0 + 1)) 1 ++
          tornFile.slice (pageSize * (0 + 1) + 1) 4095 :=
    (slice_append_slice tornFile (pageSize * (0 + 1)) 1 4095).symm
  have hTag : tornFile.slice (pageSize * (0 + 1)) 1 = [leafTag] := slice_overwrite_self
      newFile (pageSize * (0 + 1)) [leafTag]
  have hRest : tornFile.slice (pageSize * (0 + 1) + 1) 4095 = zeros 4095 := by
    rw [tornFile, writeAllAt, slice_overwrite_of_ge
        (le_trans (Nat.le_add_right _ _) tornFile_inside)
        [leafTag] 4095 (by rw [length_singleton]),
      slice_initialFile _ _ (by omega) (by omega)]
  rw [hSplit, hTag, hRest]
  rfl

theorem crashes_tornFile : leafDisk.Crashes tornFile := by
  have hInside := inside_newFile length_sealedLeaf.le
  refine ⟨?_, newFile, mem_cons_self, by rw [length_tornFile, length_initialFile]⟩
  intro i _
  have hByte := getElem?_overwrite tornFile_inside i
  by_cases hFirst : i = pageSize * (0 + 1)
  · refine ⟨leafFile, mem_versions_leafDisk, ?_⟩
    rw [tornFile, leafFile, writeAllAt, writeAllAt, hByte,
      getElem?_overwrite hInside, hFirst, if_pos, if_pos, Nat.sub_self]
    · rfl
    · rw [length_sealedLeaf]
      decide
    · simp
  · refine ⟨newFile, mem_cons_self, ?_⟩
    rw [tornFile, writeAllAt, hByte, if_neg]
    rw [length_singleton]
    omega

theorem validatePassword_tornFile :
    validatePassword (keyedCipher 7) tornFile = .error .incorrectPassword := by
  have hTag : (leafTag :: zeros 4095).drop (4079 + 1) = zeros 16 := by
    rw [drop_succ_cons]
    exact drop_replicate
  have hReject : openPage (keyedCipher 7) sampleLeaf = _ :=
    openPage_of_tag_ne length_sampleLeaf rfl (by rw [sampleLeaf, hTag]; decide)
  rw [validatePassword_of_long _ (by rw [length_tornFile]; decide), firstPage_tornFile, hReject]
  rfl

/- The leaf may be torn, and then it is rejected; once it is there the password is accepted. -/
theorem synced_leaf_accepts_password :
    RejectsTorn (keyedCipher 7) leafDisk ∧
      (leafDisk.Crashes tornFile ∧ ¬ FirstPageWhole leafDisk tornFile) ∧
      samplePlatform.openDatabase 7 leafFile ≠ .error .incorrectPassword := by
  have hGcm := keyedCipher_aesGcm 7
  have hCrash : leafDisk.Crashes leafFile :=
    ⟨fun _ _ => ⟨_, mem_versions_leafDisk, rfl⟩, _, mem_versions_leafDisk, rfl⟩
  refine ⟨rejectsTorn_leafDisk, ⟨crashes_tornFile, fun hWhole => ?_⟩, ?_⟩
  · have hProbe := hWhole.probe (leafDisk_run.kept hGcm)
    rw [validatePassword_tornFile] at hProbe
    cases hProbe
  · exact (torn_first_page_refuses_password samplePlatform 7 sampleSalt hGcm leafDisk_run
      rejectsTorn_leafDisk hCrash).mpr (Or.inl (Or.inr ⟨_, mem_versions_leafDisk, rfl⟩))

/-
  Only the first byte of the first leaf reaches the disk. The password the database was created with
  is refused.
-/
theorem torn_leaf_refuses_own_password :
    ∃ disk image, StoreRun samplePlatform.hash (samplePlatform.pageCipher
          (samplePlatform.deriveKey 7 sampleSalt))
        sampleSalt disk ∧
      disk.Crashes image ∧
      samplePlatform.openDatabase 7 image = .error .incorrectPassword := by
  refine ⟨leafDisk, tornFile, leafDisk_run, crashes_tornFile, ?_⟩
  have hSalt := Disk.Crashes.salted crashes_tornFile (leafDisk_run.kept (keyedCipher_aesGcm 7))
  rw [Platform.openDatabase, samplePlatform.openExisting_incorrect_iff false 7 hSalt]
  exact validatePassword_tornFile

end Redbx
