import Redbx.Open.Builder
import Redbx.Encryption.RoundTrip

/-
  The page at file offset 4096, which the password probe reads, over whole histories of a database
  file: creation, writes of headers and pages, resizes, syncs, and crashes after which the file was
  opened again.

  Key theorems include:
    * `StoreCall.apply_keeps`, `StoreRun.kept`
-/

namespace Redbx

open Bytes List

-- Calls Into The Backend

/- `File::set_len`: cut, or filled up with zeros. -/
def setLen (file : Bytes) (len : Nat) : Bytes := (file ++ zeros (len - file.length)).take len

/-
  What the page store asks of the backend. A layout has a header page and data pages; page `index`
  of the file's data stands at `4096 * (index + 1)`.
-/
inductive StoreCall where
  | resize (pages : Nat)
  | writeHeader (header : DatabaseHeader) (includeMagicNumber : Bool)
  | writePage (index : Nat) (data : Bytes) (nonce : Nonce)

/- The file after a call. A header never starts with `LEAF`, so it is written raw. -/
def StoreCall.apply (hash : Bytes → Checksum) (cipher : PageCipher)
    (file : Bytes) : StoreCall → Except IoError Bytes
  | .resize pages =>
    .ok (setLen file (pageSize * (pages + 1)))
  | .writeHeader header includeMagicNumber =>
    .ok (writeAllAt file (header.toBytes hash includeMagicNumber) 0)
  | .writePage index data nonce =>
    encryptAndWrite cipher nonce file (pageSize * (index + 1)) data

/- A header keeps the salt it was read or created with, and pages are written whole. -/
def StoreCall.WellFormed (salt : Salt) : StoreCall → Prop
  | .resize _ => True
  | .writeHeader header _ => header.salt = salt.bytes
  | .writePage _ data _ =>
    ∃ order, data.length = pageSize * 2 ^ order

-- Histories Of A File

/-
  Histories of a file created with one key. A history goes on after a crash only if the file opens,
  so only if the probe passes.
-/
inductive StoreRun (hash : Bytes → Checksum) (cipher : PageCipher) (salt : Salt) : Disk → Prop
  | create : StoreRun hash cipher salt (.clean (initialFile hash salt))
  | call {disk : Disk} (call : StoreCall) {image : Bytes} (hRun : StoreRun hash cipher salt disk)
      (hOk : call.WellFormed salt) (hApply : call.apply hash cipher disk.newest = .ok image) :
      StoreRun hash cipher salt (disk.step (.write image))
  | sync {disk : Disk} (hRun : StoreRun hash cipher salt disk) :
      StoreRun hash cipher salt (disk.step .flush)
  | reopen {disk : Disk} {image : Bytes} (hRun : StoreRun hash cipher salt disk)
      (hCrash : disk.Crashes image) (hProbe : validatePassword cipher image = .ok ()) :
      StoreRun hash cipher salt (.clean image)

variable {file : Bytes}

theorem StoreRun.synced {hash : Bytes → Checksum} {cipher : PageCipher} {salt : Salt}
    (hRun : StoreRun hash cipher salt (.clean file)) (call : StoreCall) (hOk : call.WellFormed salt)
    {image : Bytes} (hApply : call.apply hash cipher file = .ok image) :
    StoreRun hash cipher salt (.clean image) := by
  rw [← Disk.step_write_flush (.clean file) image]
  exact (hRun.call call hOk hApply).sync

-- The Probe

/- The page the probe reads. -/
def firstPage (file : Bytes) : Bytes := file.slice pageSize pageSize

theorem validatePassword_of_short
    (cipher : PageCipher) (hShort : file.length < pageSize + pageSize) :
    validatePassword cipher file = .ok () := by
  unfold validatePassword
  by_cases hHeader : file.length ≤ pageSize
  · rw [if_pos hHeader]
  · have hEnd : ¬ pageSize + pageSize ≤ file.length := by omega
    rw [if_neg hHeader]
    simp only [readExactAt, if_neg hEnd, bind, Except.bind, probeVerdict]

theorem validatePassword_of_long (cipher : PageCipher) (hLong : pageSize + pageSize ≤ file.length) :
    validatePassword cipher file = probeVerdict (openPage cipher (firstPage file)) := by
  have hData : ¬ file.length ≤ pageSize := by
    unfold pageSize at *
    omega
  unfold validatePassword
  rw [if_neg hData]
  simp only [readExactAt, if_pos hLong, bind, Except.bind, firstPage]

theorem openPage_of_not_leaf
    (cipher : PageCipher) {page : Bytes} (hPlain : shouldEncryptPage page = false) :
    openPage cipher page = .ok page := by
  simp [openPage, hPlain]

theorem validatePassword_congr
    (cipher : PageCipher) {file other : Bytes} (hLong : pageSize + pageSize ≤ file.length)
    (hOther : pageSize + pageSize ≤ other.length) (hPage : firstPage file = firstPage other) :
    validatePassword cipher file = validatePassword cipher other := by
  rw [validatePassword_of_long cipher hLong, validatePassword_of_long cipher hOther, hPage]

-- What Every Version Keeps

/-
  A version of the file: whole pages, the salt it was created with, and a first page its own key
  opens.
-/
structure KeptFile (cipher : PageCipher) (salt : Salt) (file : Bytes) : Prop where
  aligned : ∃ pages, file.length = pageSize * (pages + 1)
  salted : file.slice 32 16 = salt.bytes
  probe : validatePassword cipher file = .ok ()

section Kept

variable {hash : Bytes → Checksum} {cipher : PageCipher} {salt : Salt} {file : Bytes}

theorem KeptFile.header_le (hKept : KeptFile cipher salt file) : pageSize ≤ file.length := by
  rcases hKept.aligned with ⟨pages, hLen⟩
  rw [hLen, Nat.mul_succ]
  omega

theorem KeptFile.short_or_long (hKept : KeptFile cipher salt file) :
    file.length = pageSize ∨ pageSize + pageSize ≤ file.length := by
  rcases hKept.aligned with ⟨pages, hLen⟩
  cases pages with
  | zero => exact Or.inl (by rw [hLen, Nat.mul_one])
  | succ =>
    right
    rw [hLen, Nat.mul_succ, Nat.mul_succ]
    omega

theorem slice_writeHeader
    (header : DatabaseHeader) (includeMagicNumber : Bool) (file : Bytes) {start len : Nat}
    (hRange : start + len ≤ dbHeaderSize) :
    (writeAllAt file (header.toBytes hash includeMagicNumber) 0).slice start len =
      (header.toBytes hash includeMagicNumber).slice start len := by
  have hLen : (header.toBytes hash includeMagicNumber).length = dbHeaderSize :=
    header.length_toBytes hash includeMagicNumber
  rw [writeAllAt, overwrite_eq (Nat.zero_le _), take_zero, nil_append]
  exact slice_append_left (by omega) _

theorem keptFile_writeHeader (hAligned : ∃ pages, file.length = pageSize * (pages + 1))
    (hProbe : validatePassword cipher file = .ok ()) {header : DatabaseHeader}
    (hSalt : header.salt = salt.bytes) (includeMagicNumber : Bool) :
    KeptFile cipher salt (writeAllAt file (header.toBytes hash includeMagicNumber) 0) := by
  have hInside : 0 + (header.toBytes hash includeMagicNumber).length ≤ file.length := by
    rcases hAligned with ⟨pages, hPages⟩
    rw [DatabaseHeader.length_toBytes, hPages]
    unfold pageSize
    omega
  have hLen : (writeAllAt file (header.toBytes hash includeMagicNumber) 0).length = file.length :=
    length_overwrite hInside
  refine ⟨?_, ?_, ?_⟩
  · rw [hLen]
    exact hAligned
  · rw [slice_writeHeader header includeMagicNumber file
      (by decide), DatabaseHeader.slice_salt, hSalt]
  · by_cases hLong : pageSize + pageSize ≤ file.length
    · rw [← hProbe]
      apply validatePassword_congr cipher (by rw [hLen]; exact hLong) hLong
      apply slice_overwrite_of_ge (Nat.zero_le _)
      rw [DatabaseHeader.length_toBytes]
      decide
    · apply validatePassword_of_short
      omega

theorem probeVerdict_zeros (cipher : PageCipher) (n : Nat) :
    probeVerdict (openPage cipher (zeros n)) = .ok () := by
  rw [openPage_zeros]
  rfl

/- Cutting or filling up keeps every range left. -/
theorem slice_setLen
    {len start width : Nat} (hFile : start + width ≤ file.length) (hLen : start + width ≤ len) :
    (setLen file len).slice start width = file.slice start width := by
  unfold setLen
  refine slice_congr fun i hi => ?_
  rw [getElem?_take_of_lt (by omega), getElem?_append_left (by omega)]

theorem length_setLen (file : Bytes) (len : Nat) : (setLen file len).length = len := by
  simp only [setLen, length_take, length_append, length_zeros]
  omega

/- Beyond the end a file is filled up with zeros. -/
theorem slice_setLen_zeros
    {len start width : Nat} (hFile : file.length ≤ start) (hLen : start + width ≤ len) :
    (setLen file len).slice start width = zeros width := by
  unfold setLen
  apply ext_getElem?
  intro i
  rw [getElem?_slice]
  by_cases hi : i < width
  · rw [if_pos hi, getElem?_take_of_lt (by omega), getElem?_append_right (by omega)]
    simp only [zeros]
    rw [getElem?_replicate_of_lt (by omega), getElem?_replicate_of_lt hi]
  · rw [if_neg hi, getElem?_eq_none]
    simp only [length_zeros]
    omega

/- Resizing keeps the first page or makes it zeros. -/
theorem KeptFile.resize (hKept : KeptFile cipher salt file) (pages : Nat) :
    KeptFile cipher salt (setLen file (pageSize * (pages + 1))) := by
  have hHeader := hKept.header_le
  have hNew : pageSize ≤ pageSize * (pages + 1) := by
    rw [Nat.mul_succ]
    omega
  refine ⟨⟨pages, length_setLen _ _⟩, ?_, ?_⟩
  · rw [← hKept.salted]
    unfold pageSize at *
    exact slice_setLen (by omega) (by omega)
  · by_cases hLong : pageSize + pageSize ≤ pageSize * (pages + 1)
    · have hLen : pageSize + pageSize ≤ (setLen file (pageSize * (pages + 1))).length := by
        rw [length_setLen]
        exact hLong
      rcases hKept.short_or_long with hShort | hOld
      · rw [validatePassword_of_long cipher hLen, firstPage, slice_setLen_zeros (by omega) hLong]
        exact probeVerdict_zeros cipher _
      · rw [← hKept.probe]
        exact validatePassword_congr cipher hLen hOld (slice_setLen hOld hLong)
    · apply validatePassword_of_short
      rw [length_setLen]
      omega

/- What a page is written as: whole pages, the first of which its own key opens. -/
theorem encryptAndWrite_page
    (hGcm : cipher.AesGcm) (nonce : Nonce) (file : Bytes) (offset : Nat) {data : Bytes}
    {order : Nat} (hData : data.length = pageSize * 2 ^ order) :
    ∃ buffer count, buffer.length = pageSize * (count + 1) ∧ probeVerdict
        (openPage cipher (buffer.take pageSize)) = .ok () ∧
      encryptAndWrite cipher nonce file offset data = .ok (writeAllAt file buffer offset) := by
  have hPow : 0 < 2 ^ order := Nat.pow_pos (by decide)
  by_cases hLeaf : shouldEncryptPage data = true
  · have hTag : data.head? = some leafTag := by
      cases data with
      | nil => cases hLeaf
      | cons tag rest =>
        have hEq : tag = leafTag := by simpa [shouldEncryptPage] using hLeaf
        rw [hEq]
        rfl
    have hLen : pageSize ≤ data.length := by
      rw [hData]
      exact Nat.le_mul_of_pos_right _ hPow
    rcases encryptAndWrite_leaf hGcm nonce file offset hTag
        hLen with ⟨buffer, hBuffer, hOpen, hWrite⟩
    refine ⟨buffer, 0, by rw [hBuffer, Nat.mul_one], ?_, hWrite⟩
    rw [take_of_length_le (by omega), hOpen]
    rfl
  · have hPlain : shouldEncryptPage data = false := by simpa using hLeaf
    refine ⟨data, 2 ^ order - 1, ?_, ?_, ?_⟩
    · rw [hData, Nat.sub_add_cancel hPow]
    · have hTake : shouldEncryptPage (data.take pageSize) = false := by
        cases data with
        | nil => rfl
        | cons => exact hPlain
      rw [openPage_of_not_leaf cipher hTake]
      rfl
    · unfold encryptAndWrite
      rw [if_neg hLeaf]

theorem KeptFile.writePage
    (hKept : KeptFile cipher salt file) (index : Nat) {buffer : Bytes} {count : Nat}
    (hBuffer : buffer.length = pageSize * (count + 1))
    (hOpen : probeVerdict (openPage cipher (buffer.take pageSize)) = .ok ()) :
    KeptFile cipher salt (writeAllAt file buffer (pageSize * (index + 1))) := by
  have hHeader := hKept.header_le
  have hLen := length_overwrite_max file (pageSize * (index + 1)) buffer
  have hStart : pageSize ≤ pageSize * (index + 1) := by
    rw [Nat.mul_succ]
    omega
  have hEnd : pageSize * (index + 1) + buffer.length = pageSize * (index + count + 1 + 1) := by
    rw [hBuffer, ← Nat.mul_add]
    congr 1
    omega
  have hLong : pageSize + pageSize ≤ (file.overwrite (pageSize * (index + 1)) buffer).length := by
    rw [hLen, hBuffer, Nat.mul_succ pageSize count]
    omega
  refine ⟨?_, ?_, ?_⟩
  · rcases hKept.aligned with ⟨pages, hPages⟩
    refine ⟨max pages (index + count + 1), ?_⟩
    rw [writeAllAt, hLen, hPages, hEnd, Nat.mul_max_mul_left, Nat.add_max_add_right]
  · have hSalt : 32 + 16 ≤ pageSize := by decide
    rw [← hKept.salted]
    exact slice_overwrite_before (by omega) buffer (by omega)
  · rw [writeAllAt, validatePassword_of_long cipher hLong, firstPage]
    cases index with
    | zero =>
      have hSlice := slice_overwrite_self file (pageSize * (0 + 1)) buffer
      have hFirst : (file.overwrite (pageSize * (0 + 1)) buffer).slice pageSize pageSize =
            buffer.take pageSize := by
        rw [← take_slice _ pageSize buffer.length _ (by rw [hBuffer, Nat.mul_succ]; omega)]
        exact congrArg (List.take pageSize) hSlice
      rw [hFirst]
      exact hOpen
    | succ index =>
      have hBefore : pageSize + pageSize ≤ pageSize * (index + 1 + 1) := by
        rw [Nat.mul_succ, Nat.mul_succ]
        omega
      rcases hKept.short_or_long with hShort | hOld
      · rw [slice_overwrite_gap buffer (by omega) hBefore]
        exact probeVerdict_zeros cipher _
      · rw [slice_overwrite_before hOld buffer hBefore, ← hKept.probe,
          validatePassword_of_long cipher hOld, firstPage]

/- Every call keeps what the probe needs. -/
theorem StoreCall.apply_keeps
    (hGcm : cipher.AesGcm) (hKept : KeptFile cipher salt file) {call : StoreCall}
    (hOk : call.WellFormed salt) {image : Bytes}
    (hApply : call.apply hash cipher file = .ok image) :
    KeptFile cipher salt image := by
  cases call with
  | resize pages =>
    cases hApply
    exact hKept.resize pages
  | writeHeader _ includeMagicNumber =>
    cases hApply
    exact keptFile_writeHeader hKept.aligned hKept.probe hOk includeMagicNumber
  | writePage index data nonce =>
    rcases hOk with ⟨order, hData⟩
    rcases encryptAndWrite_page hGcm nonce file (pageSize * (index + 1)) hData with
      ⟨_, _, hBuffer, hOpen, hWrite⟩
    rw [StoreCall.apply, hWrite] at hApply
    cases hApply
    exact hKept.writePage index hBuffer hOpen

theorem layoutLen_initialHeader (salt : Salt) :
    (initialHeader salt).layoutLen = some (pageSize * (257 + 1)) := by
  have hFields : (initialHeader salt).layoutFields = ⟨4096, 0, 2 ^ 20, 0, 257⟩ := by
    simp only [DatabaseHeader.layoutFields, initialHeader, DatabaseHeader.new]
    rfl
  rw [DatabaseHeader.layoutLen, hFields]
  decide +kernel

theorem keptFile_initial (hash : Bytes → Checksum) (cipher : PageCipher) (salt : Salt) :
    KeptFile cipher salt (initialFile hash salt) := by
  have hLen : (zeros ((initialHeader salt).layoutLen.getD 0)).length = pageSize * (257 + 1) := by
    rw [length_zeros, layoutLen_initialHeader]
    rfl
  have hLong : pageSize + pageSize ≤ (zeros ((initialHeader salt).layoutLen.getD 0)).length := by
    rw [hLen, Nat.mul_succ]
    omega
  refine keptFile_writeHeader ⟨257, hLen⟩ ?_ rfl true
  rw [validatePassword_of_long cipher hLong, firstPage, slice_zeros]
  exact probeVerdict_zeros cipher _

theorem Disk.Crashes.salted {disk : Disk} {image : Bytes} (hCrash : disk.Crashes image)
    (hKept : ∀ version ∈ disk.versions, KeptFile cipher salt version) :
    image.slice 32 16 = salt.bytes :=
  hCrash.torn.slice_eq (fun _ _ => trivial) (fun version hMem => (hKept version hMem).salted)

/- In every history every version is kept. -/
theorem StoreRun.kept (hGcm : cipher.AesGcm) {disk : Disk} (hRun : StoreRun hash cipher salt disk) :
    ∀ version ∈ disk.versions, KeptFile cipher salt version := by
  induction hRun with
  | create =>
    intro version hMem
    rw [Disk.versions_clean, mem_singleton] at hMem
    rw [hMem]
    exact keptFile_initial hash cipher salt
  | call call _ hOk hApply ih =>
    intro version hMem
    rw [Disk.versions_write, mem_append, mem_singleton] at hMem
    rcases hMem with hOld | hNew
    · exact ih version hOld
    · rw [hNew]
      exact StoreCall.apply_keeps hGcm (ih _ (Disk.newest_mem_versions _)) hOk hApply
  | sync _ ih =>
    intro version hMem
    rw [Disk.versions_flush, mem_singleton] at hMem
    rw [hMem]
    exact ih _ (Disk.newest_mem_versions _)
  | reopen _ hCrash hProbe ih =>
    intro version hMem
    rw [Disk.versions_clean, mem_singleton] at hMem
    rw [hMem]
    rcases hCrash.length with ⟨old, hOld, hLen⟩
    refine ⟨?_, Disk.Crashes.salted hCrash ih, hProbe⟩
    rw [hLen]
    exact (ih old hOld).aligned

end Kept

end Redbx
