import Redbx.Encryption.Backend
import Redbx.Btree.LeafAccessor

/-
  What a page written through `EncryptedFileBackend` reads back as.

  The write path works on one page-sized buffer, the read path opens every page of the range. So a
  leaf of several pages comes back only where the file already held it, and a branch of several
  pages only when none of its later pages looks like a leaf.

  Key theorems include:
    * `readBack_leaf_iff`, `readBack_branch_iff`
    * `encrypted_file_refines_plain_pages`
-/

namespace Redbx

open Bytes List

/- Write a page and read the same range again. -/
def readBack (cipher : PageCipher) (nonce : Nonce) (file : Bytes) (offset : Nat)
    (page : Bytes) : Except IoError Bytes := do
  let written ← encryptAndWrite cipher nonce file offset page
  readAndDecrypt cipher written offset page.length

-- Opening Pages

variable {cipher : PageCipher} {opened page : Bytes}

theorem length_of_decryptPage (hOpen : decryptPage cipher page = .ok opened) :
    opened.length = page.length := by
  unfold decryptPage at hOpen
  split at hOpen
  · cases hOpen
  · split at hOpen
    · cases hOpen
    · split at hOpen
      · rename_i decrypted _ hFits
        cases hOpen
        simp only [length_append, length_take, length_zeros]
        omega
      · cases hOpen

theorem length_of_openPage (hOpen : openPage cipher page = .ok opened) :
    opened.length = page.length := by
  unfold openPage at hOpen
  split at hOpen
  · exact length_of_decryptPage hOpen
  · cases hOpen
    rfl

theorem head?_of_openPage (hOpen : openPage cipher page = .ok opened) :
    opened.head? = page.head? := by
  unfold openPage at hOpen
  split at hOpen
  · rename_i hLeaf
    unfold decryptPage at hOpen
    split at hOpen
    · cases hOpen
    · split at hOpen
      · cases hOpen
      · split at hOpen
        · cases hOpen
          cases page with
          | nil => cases hLeaf
          | cons => rfl
        · cases hOpen
  · cases hOpen
    rfl

/- One step of a long read whose next page is full. -/
theorem decryptPages_cons (cipher : PageCipher) (count : Nat) (hPage : page.length = pageSize)
    (rest : Bytes) :
    decryptPages cipher (count + 1) (page ++ rest) = (do
        let opened ← openPage cipher page
        let tail ← decryptPages cipher count rest
        return opened ++ tail) := by
  have hTake : (page ++ rest).take pageSize = page := by
    rw [← hPage, take_left']
    rfl
  have hDrop : (page ++ rest).drop pageSize = rest := by
    rw [← hPage, drop_left']
    rfl
  rw [decryptPages]
  simp only [hTake, hDrop, hPage, if_true]

/- A read of one page is a long read of one step. -/
theorem decryptPages_one (cipher : PageCipher) (hPage : page.length = pageSize) :
    decryptPages cipher 1 page = openPage cipher page := by
  have hCons := decryptPages_cons cipher 0 hPage []
  rw [append_nil] at hCons
  rw [hCons]
  cases openPage cipher page with
  | error e => rfl
  | ok => simp [decryptPages, bind, Except.bind, pure, Except.pure]

variable {count : Nat} {file : Bytes} {offset : Nat}

theorem readAndDecrypt_pages (cipher : PageCipher) (hCount : 0 < count)
    (hFile : offset + pageSize * count ≤ file.length) :
    readAndDecrypt cipher file offset (pageSize * count) = decryptPages cipher count
        (file.slice offset (pageSize * count)) := by
  have hShort : ¬ pageSize * count < pageSize := by
    unfold pageSize
    omega
  unfold readAndDecrypt
  rw [if_neg hShort]
  by_cases hOne : count = 1
  · subst hOne
    rw [Nat.mul_one] at hFile ⊢
    rw [if_pos rfl, decryptPages_one cipher (length_slice_of_le hFile)]
    simp only [readExactAt, if_pos hFile]
    rfl
  · have hLong : ¬ pageSize * count = pageSize := by
      unfold pageSize
      omega
    have hSteps : (pageSize * count + pageSize - 1) / pageSize = count := by
      unfold pageSize
      omega
    rw [if_neg hLong, hSteps]
    simp only [readExactAt, if_pos hFile]
    rfl

theorem readAndDecrypt_inside {memory : Bytes} (hCount : 0 < count)
    (hRead : readAndDecrypt cipher file offset (pageSize * count) = .ok memory) :
    offset + pageSize * count ≤ file.length := by
  have hShort : ¬ pageSize * count < pageSize := by
    unfold pageSize
    omega
  by_contra hEnd
  unfold readAndDecrypt at hRead
  rw [if_neg hShort] at hRead
  simp only [readExactAt, if_neg hEnd, bind, Except.bind, ite_self] at hRead
  cases hRead

-- The Page Buffer Of A Leaf

theorem shouldEncryptPage_of_head? (hTag : page.head? = some leafTag) :
    shouldEncryptPage page = true := by
  cases page with
  | nil => simp at hTag
  | cons tag rest =>
    have hEq : tag = leafTag := by simpa using hTag
    simp [shouldEncryptPage, hEq]

/-
  A leaf that fills at least a page is written as one page buffer that opens to its first 4068 bytes
  and zeros.
-/
theorem encryptAndWrite_leaf (hGcm : cipher.AesGcm) (nonce : Nonce) (file : Bytes) (offset : Nat)
    (hTag : page.head? = some leafTag) (hLen : pageSize ≤ page.length) :
    ∃ buffer, buffer.length = pageSize ∧ openPage cipher buffer =
        .ok (page.take (1 + maxPlaintextSize) ++ zeros 28) ∧
      encryptAndWrite cipher nonce file offset page = .ok (writeAllAt file buffer offset) := by
  have hCut : maxPlaintextSize < (page.drop 1).length := by
    simp only [length_drop]
    unfold maxPlaintextSize pageSize at *
    unfold aesNonceSize
    omega
  let plaintext := (page.drop 1).take maxPlaintextSize
  have hPlain : plaintext.length = maxPlaintextSize := by
    simp only [plaintext, length_take]
    omega
  have hSome := hGcm.encrypts nonce plaintext (by rw [hPlain]; decide)
  rcases Option.isSome_iff_exists.mp hSome with ⟨encrypted, hEnc⟩
  have hEncLen : encrypted.length = 4083 := by
    rw [hGcm.length_encrypted _ _ _ hEnc, hPlain]
    rfl
  have hNonce : nonce.bytes.length = 12 := nonce.length_eq
  have hHead : (page.take 1).length = 1 := by
    unfold pageSize at hLen
    simp only [length_take]
    omega
  let buffer : Bytes := page.take 1 ++ nonce.bytes ++ encrypted
  have hBuffer : buffer.length = pageSize := by
    simp only [buffer, length_append, hHead, hNonce, hEncLen]
    rfl
  refine ⟨buffer, hBuffer, ?_, ?_⟩
  · have hBufferTag : buffer.head? = some leafTag := by
      cases page with
      | nil => simp at hTag
      | cons => simpa [buffer] using hTag
    have hSlice : buffer.slice 1 12 = nonce.bytes := by
      simp only [slice, buffer, append_assoc]
      rw [drop_append_of_le_length (by omega), drop_of_length_le (by omega),
        nil_append, take_left' hNonce]
    have hRest : buffer.drop 13 = encrypted := by
      have hFront : (page.take 1 ++ nonce.bytes).length = 13 := by simp [hHead, hNonce]
      simp only [buffer]
      exact drop_left' hFront
    have hNonceAt : pageNonce buffer = some nonce := by
      unfold pageNonce
      have hLen12 : (buffer.slice 1 aesNonceSize).length = aesNonceSize := by
        rw [show aesNonceSize = 12 from rfl, hSlice, hNonce]
      rw [dif_pos hLen12]
      congr 1
      cases nonce
      simpa [aesNonceSize] using hSlice
    rw [openPage, if_pos (shouldEncryptPage_of_head? hBufferTag)]
    unfold decryptPage
    simp only [hNonceAt, show 1 + aesNonceSize = 13 from rfl, hRest,
      hGcm.decrypt_encrypt _ _ _ hEnc]
    have hFits : plaintext.length + 1 ≤ buffer.length := by
      rw [hPlain, hBuffer]
      decide
    rw [if_pos hFits, hBuffer, hPlain]
    have hTake : buffer.take 1 = page.take 1 := by
      simp only [buffer, append_assoc]
      exact take_left' hHead
    rw [hTake, take_add]
    rfl
  · have hFits : 1 + aesNonceSize + encrypted.length ≤ pageSize := by
      rw [hEncLen]
      decide
    have hPad : pageSize - (1 + aesNonceSize + encrypted.length) = 0 := by
      rw [hEncLen]
      rfl
    unfold encryptAndWrite
    rw [if_pos (shouldEncryptPage_of_head? hTag)]
    simp only [hCut, if_true]
    simp only [plaintext] at hEnc
    simp only [hEnc, hFits, if_true, hPad]
    simp [buffer, zeros]

-- Leaves Of Several Pages

/-
  What reading back a leaf of `count + 1` pages comes to: the first page from the buffer just
  written, the others from what the file held before.
-/
theorem readBack_leaf (hGcm : cipher.AesGcm) (nonce : Nonce)
    (hTag : page.head? = some leafTag) (hLen : page.length = pageSize * (count + 1))
    (hFile : offset + page.length ≤ file.length) :
    readBack cipher nonce file offset page = (do
        let rest ← decryptPages cipher count (file.slice (offset + pageSize) (pageSize * count))
        return page.take (1 + maxPlaintextSize) ++ zeros 28 ++ rest) := by
  rcases encryptAndWrite_leaf hGcm nonce file offset hTag (by rw [hLen, Nat.mul_succ]; omega) with
    ⟨buffer, hBuffer, hOpen, hWrite⟩
  have hInside : offset + buffer.length ≤ file.length := by
    rw [hLen, Nat.mul_succ] at hFile
    omega
  have hFile' : offset + pageSize * (count + 1) ≤ (writeAllAt file buffer offset).length := by
    rw [writeAllAt, length_overwrite hInside, ← hLen]
    exact hFile
  have hSlice : (writeAllAt file buffer offset).slice offset (pageSize * (count + 1)) =
        buffer ++ file.slice (offset + pageSize) (pageSize * count) := by
    rw [Nat.mul_succ, Nat.add_comm, ← slice_append_slice, writeAllAt]
    congr 1
    · rw [← hBuffer, slice_overwrite_self]
    · exact slice_overwrite_of_ge (by omega) _ _ (by omega)
  unfold readBack
  rw [hWrite, hLen]
  simp only [bind, Except.bind]
  rw [readAndDecrypt_pages cipher (by omega) hFile',
    hSlice, decryptPages_cons cipher count hBuffer, hOpen]
  rfl

theorem readBack_leaf_eof (hGcm : cipher.AesGcm) (nonce : Nonce)
    (hTag : page.head? = some leafTag) (hLen : page.length = pageSize * (count + 2))
    (hFile : file.length < offset + page.length) :
    readBack cipher nonce file offset page = .error .unexpectedEof := by
  rcases encryptAndWrite_leaf hGcm nonce file offset hTag (by rw [hLen, Nat.mul_succ]; omega) with
    ⟨buffer, hBuffer, _, hWrite⟩
  have hShort : (writeAllAt file buffer offset).length < offset + page.length := by
    have hLe := length_overwrite_le file offset buffer
    rw [hBuffer] at hLe
    have hTwo : pageSize < page.length := by
      rw [hLen]
      unfold pageSize
      omega
    unfold writeAllAt
    omega
  have hLong : pageSize < page.length := by
    rw [hLen]
    unfold pageSize
    omega
  unfold readBack
  rw [hWrite]
  simp only [bind, Except.bind]
  unfold readAndDecrypt
  rw [if_neg (by omega), if_neg (by omega)]
  simp only [readExactAt]
  rw [if_neg (by omega)]
  rfl

/-
  The file before the write already holds what the write leaves out of a leaf of several pages: the
  used bytes cut off the first page are zero, and the later pages are there, open, and agree with
  the leaf's used bytes.
-/
def TailStored
    (cipher : PageCipher) (file : Bytes) (offset : Nat) (page : Bytes) (used : Nat) : Prop :=
  offset + page.length ≤ file.length ∧
  (∀ i, 1 + maxPlaintextSize ≤ i → i < pageSize → i < used → page[i]? = some 0) ∧
  ∃ rest, decryptPages cipher (page.length / pageSize - 1) (file.slice (offset + pageSize)
          (page.length - pageSize)) =
      .ok rest ∧
    ∀ i, pageSize ≤ i → i < used → rest[i - pageSize]? = page[i]?

/-
  The bytes a read returns for a leaf, in three parts: the kept prefix, the cleared end of the first
  page, the rest.
-/
theorem getElem?_readBack_leaf {rest : Bytes} (hLen : pageSize ≤ page.length) (i : Nat) :
    (page.take (1 + maxPlaintextSize) ++ zeros 28 ++ rest)[i]? =
      if i < 1 + maxPlaintextSize then page[i]?
      else if i < pageSize then some 0
      else rest[i - pageSize]? := by
  have hKept : 1 + maxPlaintextSize = 4068 := rfl
  have hPage : pageSize = 4096 := rfl
  rw [hKept]
  rw [hPage] at hLen ⊢
  have hTake : (page.take 4068).length = 4068 := by
    rw [length_take]
    omega
  have hFront : (page.take 4068 ++ zeros 28).length = 4096 := by
    rw [length_append, hTake, length_zeros]
  by_cases hFirst : i < 4068
  · rw [if_pos hFirst, append_assoc, getElem?_append_left (by omega), getElem?_take_of_lt hFirst]
  · rw [if_neg hFirst]
    by_cases hSecond : i < 4096
    · rw [if_pos hSecond, getElem?_append_left (by omega),
        getElem?_append_right (by omega), hTake, zeros, getElem?_replicate,
        if_pos (by omega)]
    · rw [if_neg hSecond, getElem?_append_right (by omega), hFront]

theorem readBack_leaf_take_iff (hGcm : cipher.AesGcm) (nonce : Nonce) (file : Bytes) (offset : Nat)
    (hTag : page.head? = some leafTag) (hLen : page.length = pageSize * (count + 2)) (used : Nat) :
    (∃ out, readBack cipher nonce file offset page = .ok out ∧ out.take used = page.take used) ↔
    TailStored cipher file offset page used := by
  have hSteps : page.length / pageSize - 1 = count + 1 := by
    rw [hLen, Nat.mul_div_cancel_left _ (by decide)]
    omega
  have hTail : page.length - pageSize = pageSize * (count + 1) := by
    rw [hLen, Nat.mul_succ]
    omega
  have hBig : pageSize ≤ page.length := by
    rw [hLen, Nat.mul_succ]
    omega
  unfold TailStored
  rw [hSteps, hTail]
  by_cases hFile : offset + page.length ≤ file.length
  · rw [readBack_leaf hGcm nonce hTag hLen hFile]
    cases hRest : decryptPages cipher (count + 1) (file.slice (offset + pageSize)
            (pageSize * (count + 1))) with
    | error e => simp [bind, Except.bind]
    | ok rest =>
      simp only [bind, Except.bind, pure, Except.pure, Except.ok.injEq, exists_eq_left', hFile,
        true_and, take_eq_take_iff_getElem?, getElem?_readBack_leaf hBig]
      constructor
      · intro hAll
        refine ⟨?_, ?_⟩
        · intro i hCut hFirst hi
          have hEq := hAll i hi
          rw [if_neg (by omega), if_pos hFirst] at hEq
          exact hEq.symm
        · intro i hLater hi
          have hCut : ¬ i < 1 + maxPlaintextSize := by
            unfold pageSize at hLater
            unfold maxPlaintextSize pageSize
            omega
          have hEq := hAll i hi
          rw [if_neg hCut, if_neg (by omega)] at hEq
          exact hEq
      · rintro ⟨hCleared, hLater⟩ i hi
        by_cases hKept : i < 1 + maxPlaintextSize
        · rw [if_pos hKept]
        · rw [if_neg hKept]
          by_cases hFirst : i < pageSize
          · rw [if_pos hFirst, hCleared i (by omega) hFirst hi]
          · rw [if_neg hFirst, hLater i (by omega) hi]
  · rw [readBack_leaf_eof hGcm nonce hTag hLen (by omega)]
    simp [hFile]

/-
  A well-formed leaf of several pages reads back over its used length exactly when the file already
  held what the write leaves out.
-/
theorem readBack_leaf_iff
    {cipher : PageCipher} (hGcm : cipher.AesGcm) (nonce : Nonce) (file : Bytes) (offset order : Nat)
    (page : Bytes) (fixedKeySize fixedValueSize : Option Nat) (hOrder : 0 < order)
    (hLen : page.length = pageSize * 2 ^ order)
    (hWf : (LeafAccessor.new page fixedKeySize fixedValueSize).WellFormed) :
    ∃ used, (LeafAccessor.new page fixedKeySize fixedValueSize).totalLength = some used ∧
      ((∃ out, readBack cipher nonce file offset page = .ok out ∧ out.take used = page.take used) ↔
      TailStored cipher file offset page used) := by
  rcases hWf.totalLength_le with ⟨used, hUsed, _⟩
  have hPow : 2 ≤ 2 ^ order := by
    calc
      2 = 2 ^ 1 := rfl
      _ ≤ 2 ^ order :=
        Nat.pow_le_pow_right (by omega) hOrder
  rcases Nat.exists_eq_add_of_le' hPow with ⟨count, hCount⟩
  rw [hCount] at hLen
  exact ⟨used, hUsed, readBack_leaf_take_iff hGcm nonce file offset hWf.tag hLen used⟩

-- A Leaf With A Large Value

/-
  Ciphers with the documented behaviour that are easy to compute with: the key is appended as the
  tag and checked.
-/
def keyedCipher (key : UInt8) : PageCipher where
  encryptWithNonce _ data :=
    some (data ++ List.replicate aesTagSize key)
  decryptWithNonce _ encrypted :=
    if aesTagSize ≤ encrypted.length ∧
        encrypted.drop (encrypted.length - aesTagSize) = List.replicate aesTagSize key then
      some (encrypted.take (encrypted.length - aesTagSize))
    else
      none

theorem keyedCipher_aesGcm (key : UInt8) : (keyedCipher key).AesGcm where
  encrypts nonce data hLen := rfl
  length_encrypted nonce data encrypted hEnc := by
    cases hEnc
    simp
  decrypt_encrypt nonce data encrypted hEnc := by
    cases hEnc
    simp [keyedCipher]
  length_decrypted nonce encrypted data hDec := by
    simp only [keyedCipher] at hDec
    split at hDec
    · rename_i hTag
      cases hDec
      rw [length_take]
      omega
    · cases hDec

/- One such cipher, with a fixed tag. -/
def tagCipher : PageCipher := keyedCipher 255

theorem tagCipher_aesGcm : tagCipher.AesGcm := keyedCipher_aesGcm 255

/- A nonce of zeros. -/
def zeroNonce : Nonce := ⟨zeros 12, by simp [aesNonceSize]⟩

/- A leaf with the one-byte key `a` and a value of 5000 bytes, in a page of order 1. -/
def largeLeaf (fill : UInt8) : Bytes :=
  [1, 0, 1, 0, 13, 0, 0, 0, 149, 19, 0, 0, 97] ++ (List.replicate 5000 fill ++ zeros 3179)

theorem length_largeLeaf (fill : UInt8) : (largeLeaf fill).length = pageSize * 2 ^ 1 := by
  simp only [largeLeaf, length_append, length_cons, length_nil, length_replicate, length_zeros]
  rfl

theorem totalLength_largeLeaf (fill : UInt8) :
    (LeafAccessor.new (largeLeaf fill) none none).totalLength = some 5013 := by
  have hLen := length_largeLeaf fill
  unfold LeafAccessor.totalLength LeafAccessor.valueEnd
  simp only [LeafAccessor.new, u32At, hLen]
  rfl

theorem wellFormed_largeLeaf (fill : UInt8) :
    (LeafAccessor.new (largeLeaf fill) none none).WellFormed := by
  have hLen := length_largeLeaf fill
  have hCount : (LeafAccessor.new (largeLeaf fill) none none).numPairs = 1 := rfl
  refine ⟨rfl, by rw [hCount]; omega, ?_⟩
  intro n hn
  have hZero : n = 0 := by omega
  subst hZero
  -- the page is only needed up to its twelfth byte
  unfold LeafAccessor.entry LeafAccessor.range
  simp only [LeafAccessor.new, hLen]
  rfl

theorem getElem?_largeLeaf (fill : UInt8) {i : Nat} (hStart : 13 ≤ i) (hStop : i < 5013) :
    (largeLeaf fill)[i]? = some fill := by
  have hValue : i - 13 < 5000 := by omega
  rw [largeLeaf, getElem?_append_right hStart, getElem?_append_left
      (by rw [length_replicate]; exact hValue),
    getElem?_replicate]
  exact if_pos hValue

/- In a file of zeros the large value is lost: the write stops after 4068 bytes of the leaf. -/
theorem readBack_largeLeaf_cut : (largeLeaf 7).length = pageSize * 2 ^ 1 ∧
    (LeafAccessor.new (largeLeaf 7) none none).WellFormed ∧
    (LeafAccessor.new (largeLeaf 7) none none).totalLength = some 5013 ∧
    ¬ ∃ out, readBack tagCipher zeroNonce (zeros 8192) 0 (largeLeaf 7) = .ok out ∧
      out.take 5013 = (largeLeaf 7).take 5013 := by
  refine ⟨length_largeLeaf 7, wellFormed_largeLeaf 7, totalLength_largeLeaf 7, ?_⟩
  intro hBack
  have hTag : (largeLeaf 7).head? = some leafTag := rfl
  rcases (readBack_leaf_take_iff tagCipher_aesGcm zeroNonce (zeros 8192) 0 hTag (length_largeLeaf 7)
      5013).mp hBack with
    ⟨_, hCleared, _⟩
  have hByte := hCleared 4068 (by decide) (by decide) (by decide)
  rw [getElem?_largeLeaf 7 (by omega) (by omega)] at hByte
  cases hByte

theorem openPage_zeros (cipher : PageCipher) (n : Nat) :
    openPage cipher (zeros n) = .ok (zeros n) := by
  cases n with
  | zero => rfl
  | succ n => rfl

/-
  A large value of zeros survives in a file of zeros, where what the write leaves out is what the
  file holds.
-/
theorem readBack_largeLeaf_zeros :
    ∃ out, readBack tagCipher zeroNonce (zeros 8192) 0 (largeLeaf 0) = .ok out ∧
      out.take 5013 = (largeLeaf 0).take 5013 := by
  rcases readBack_leaf_iff tagCipher_aesGcm zeroNonce
      (zeros 8192) 0 1 (largeLeaf 0) none none (by omega)
      (length_largeLeaf 0) (wellFormed_largeLeaf 0) with
    ⟨used, hUsed, hIff⟩
  rw [totalLength_largeLeaf] at hUsed
  cases hUsed
  have hLen : (largeLeaf 0).length = 8192 := length_largeLeaf 0
  have hSlice : (zeros 8192).slice (0 + pageSize) (8192 - pageSize) = zeros 4096 := by
    simp only [slice, zeros, drop_replicate, take_replicate]
    rfl
  apply hIff.mpr
  refine ⟨by rw [hLen, length_zeros], ?_, zeros 4096, ?_, ?_⟩
  · intro i hCut _ hUsed
    have hCut' : 4068 ≤ i := hCut
    exact getElem?_largeLeaf 0 (by omega) hUsed
  · rw [hLen, hSlice, show 8192 / pageSize - 1 = 1 from rfl,
      decryptPages_one _ (by rw [length_zeros]; rfl), openPage_zeros]
  · intro i hLater hUsed
    have hLater' : 4096 ≤ i := hLater
    rw [getElem?_largeLeaf 0 (by omega) hUsed, zeros, getElem?_replicate,
      show pageSize = 4096 from rfl, if_pos (by omega)]

-- Branches

/-
  No page that opens as a leaf opens to itself: the opened page ends in zeros where the stored one
  holds the tag.
-/
def PageCipher.NoFixedPage (cipher : PageCipher) : Prop :=
  ∀ page, page.length = pageSize → shouldEncryptPage page = true →
    decryptPage cipher page ≠ .ok page

theorem openPage_eq_self_iff (hNoFixed : cipher.NoFixedPage) (hPage : page.length = pageSize) :
    openPage cipher page = .ok page ↔ page.head? ≠ some leafTag := by
  cases page with
  | nil => simp [pageSize] at hPage
  | cons tag rest =>
    unfold openPage
    by_cases hTag : tag = leafTag
    · have hEnc : shouldEncryptPage (tag :: rest) = true := by simp [shouldEncryptPage, hTag]
      rw [if_pos hEnc]
      simp only [head?_cons, hTag, ne_eq, not_true_eq_false, iff_false]
      rw [← hTag]
      exact hNoFixed _ hPage hEnc
    · have hRaw : shouldEncryptPage (tag :: rest) = false := by simp [shouldEncryptPage, hTag]
      rw [hRaw]
      simp [hTag]

/-
  A long read of whole pages returns what the file holds exactly when none of the pages starts like
  a leaf.
-/
theorem decryptPages_eq_self_iff (hNoFixed : cipher.NoFixedPage) {out : Bytes}
    (hLen : out.length = pageSize * count) :
    decryptPages cipher count out = .ok out ↔ ∀ i < count, out[pageSize * i]? ≠ some leafTag := by
  induction count generalizing out with
  | zero => simp [decryptPages]
  | succ count ih =>
    let page := out.take pageSize
    let rest := out.drop pageSize
    have hOut : out = page ++ rest := (take_append_drop _ _).symm
    have hPage : page.length = pageSize := by
      rw [Nat.mul_succ] at hLen
      simp only [page, length_take]
      omega
    have hRest : rest.length = pageSize * count := by
      rw [Nat.mul_succ] at hLen
      simp only [rest, length_drop]
      omega
    have hFirst : out[pageSize * 0]? = page.head? := by
      rw [hOut, Nat.mul_zero, getElem?_append_left (by
          rw [hPage]; decide),
        head?_eq_getElem?]
    have hLater : ∀ i, out[pageSize * (i + 1)]? = rest[pageSize * i]? := by
      intro i
      rw [hOut, Nat.mul_succ, getElem?_append_right (by omega), hPage, Nat.add_sub_cancel]
    have hSplit : decryptPages cipher (count + 1) out = .ok out ↔ openPage cipher page = .ok page ∧
          decryptPages cipher count rest = .ok rest := by
      rw [hOut, decryptPages_cons cipher count hPage]
      cases hOpen : openPage cipher page with
      | error e => simp [bind, Except.bind]
      | ok opened =>
      cases hTail : decryptPages cipher count rest with
      | error e => simp [bind, Except.bind]
      | ok tail =>
        simp only [bind, Except.bind, pure, Except.pure, Except.ok.injEq]
        constructor
        · intro hEq
          exact append_inj hEq (length_of_openPage hOpen)
        · rintro ⟨hEq, hEq'⟩
          rw [hEq, hEq']
    rw [hSplit, openPage_eq_self_iff hNoFixed hPage, ih hRest, ← hFirst]
    constructor
    · rintro ⟨hZero, hSucc⟩ i hi
      cases i with
      | zero => exact hZero
      | succ i =>
        rw [hLater]
        exact hSucc i (by omega)
    · intro hAll
      refine ⟨hAll 0 (by omega), ?_⟩
      intro i hi
      rw [← hLater]
      exact hAll (i + 1) (by omega)

theorem readBack_branch (cipher : PageCipher) (nonce : Nonce) (file : Bytes) (offset : Nat)
    (hTag : page.head? = some branchTag) (hCount : 0 < count)
    (hLen : page.length = pageSize * count) :
    readBack cipher nonce file offset page = decryptPages cipher count page := by
  have hRaw : shouldEncryptPage page = false := by
    cases page with
    | nil => simp at hTag
    | cons tag rest =>
      have hEq : tag = branchTag := by simpa using hTag
      subst hEq
      rfl
  have hWrite : encryptAndWrite cipher nonce file offset page =
        .ok (file.overwrite offset page) := by
    simp [encryptAndWrite, hRaw, writeAllAt]
  have hEnd := le_length_overwrite file offset page
  have hSelf := slice_overwrite_self file offset page
  rw [hLen] at hEnd hSelf
  unfold readBack
  rw [hWrite, hLen]
  simp only [bind, Except.bind]
  rw [readAndDecrypt_pages cipher hCount hEnd, hSelf]

/-
  A branch page of any order reads back unchanged exactly when none of its later pages starts with
  the byte `LEAF`.
-/
theorem readBack_branch_iff
    {cipher : PageCipher} (hNoFixed : cipher.NoFixedPage) (nonce : Nonce) (file : Bytes)
    (offset order : Nat) (page : Bytes) (hTag : page.head? = some branchTag)
    (hLen : page.length = pageSize * 2 ^ order) :
    readBack cipher nonce file offset page = .ok page ↔ ∀ i, 0 < i → i < 2 ^ order →
        page[pageSize * i]? ≠ some leafTag := by
  rw [readBack_branch cipher nonce file offset hTag (Nat.pow_pos (by omega)) hLen,
    decryptPages_eq_self_iff hNoFixed hLen]
  constructor
  · intro hAll i _ hi
    exact hAll i hi
  · intro hAll i hi
    by_cases hZero : i = 0
    · subst hZero
      rw [Nat.mul_zero, ← head?_eq_getElem?, hTag]
      decide
    · exact hAll i (by omega) hi

theorem tagCipher_noFixedPage : tagCipher.NoFixedPage := by
  intro page hPage _ hSelf
  unfold decryptPage at hSelf
  split at hSelf
  · cases hSelf
  · split at hSelf
    · cases hSelf
    · rename_i _ nonce _ _ decrypted hDecrypt
      have hLen := tagCipher_aesGcm.length_decrypted _ _ _ hDecrypt
      rw [length_drop, hPage] at hLen
      split at hSelf
      · -- the opened page ends in a zero, the page does not
        simp only [Except.ok.injEq] at hSelf
        have hOpened : page.getLast? = some 0 := by
          have hClear : page.length - 1 - decrypted.length = 27 + 1 := by
            rw [hPage]
            unfold pageSize aesNonceSize aesTagSize at hLen
            unfold pageSize
            omega
          rw [← hSelf, hClear, zeros, replicate_succ', ← append_assoc, getLast?_concat]
        have hStored : page.getLast? = some 255 := by
          simp only [tagCipher, keyedCipher] at hDecrypt
          split at hDecrypt
          · rename_i hTag
            have hEnd := hTag.2
            rw [drop_drop] at hEnd
            have hLast := congrArg List.getLast? hEnd
            rw [getLast?_drop, length_drop, hPage] at hLast
            simpa [aesNonceSize, aesTagSize, pageSize, List.replicate] using hLast
          · cases hDecrypt
        rw [hOpened] at hStored
        cases hStored
      · cases hSelf

/- A branch page of order 1 whose second page starts so. -/
def largeBranch (second : UInt8) : Bytes := 2 :: (zeros 4095 ++ second :: zeros 4095)

theorem length_largeBranch (second : UInt8) : (largeBranch second).length = pageSize * 2 ^ 1 := by
  simp only [largeBranch, length_append, length_cons, length_zeros]
  rfl

theorem getElem?_largeBranch (second : UInt8) :
    (largeBranch second)[pageSize * 1]? = some second := by
  have hIndex : pageSize * 1 = 4095 + 1 := rfl
  rw [largeBranch, hIndex, getElem?_cons_succ,
    getElem?_append_right (by rw [length_zeros]), length_zeros, Nat.sub_self]
  rfl

/- A branch whose second page starts with the byte `LEAF` is decrypted on the way back and lost. -/
theorem readBack_largeBranch_lost : (largeBranch 1).head? = some branchTag ∧
    (largeBranch 1).length = pageSize * 2 ^ 1 ∧
    readBack tagCipher zeroNonce (zeros 8192) 0 (largeBranch 1) ≠ .ok (largeBranch 1) := by
  have hTag : (largeBranch 1).head? = some branchTag := rfl
  refine ⟨hTag, length_largeBranch 1, ?_⟩
  rw [readBack_branch tagCipher zeroNonce (zeros 8192) 0
      hTag (by omega) (length_largeBranch 1), ne_eq,
    decryptPages_eq_self_iff tagCipher_noFixedPage (length_largeBranch 1)]
  intro hAll
  exact hAll 1 (by decide) (getElem?_largeBranch 1)

/- A branch of order 1 without such a page comes back. -/
theorem readBack_largeBranch_kept :
    readBack tagCipher zeroNonce (zeros 8192) 0 (largeBranch 0) = .ok (largeBranch 0) := by
  apply (readBack_branch_iff tagCipher_noFixedPage zeroNonce (zeros 8192) 0 1 (largeBranch 0) rfl
    (length_largeBranch 0)).mpr
  intro i hPos hLt
  have hOne : i = 1 := by omega
  subst hOne
  rw [getElem?_largeBranch]
  decide

-- The Paths of a Read

variable (cipher)

theorem readAndDecrypt_one (hFile : offset + pageSize ≤ file.length) :
    readAndDecrypt cipher file offset pageSize = openPage cipher (file.slice offset pageSize) := by
  have hRead : readAndDecrypt cipher file offset (pageSize * 1) = _ :=
    readAndDecrypt_pages cipher Nat.one_pos hFile
  rwa [Nat.mul_one, decryptPages_one cipher (length_slice_of_le hFile)] at hRead

theorem decryptPages_mapM (hFile : offset + pageSize * count ≤ file.length) :
    decryptPages cipher count (file.slice offset (pageSize * count)) =
      ((List.range count).mapM fun i =>
        readAndDecrypt cipher file (offset + pageSize * i) pageSize).map List.flatten := by
  induction count generalizing offset with
  | zero => simp [decryptPages, slice, Except.map, pure, Except.pure]
  | succ count ih =>
    have hMul : pageSize * (count + 1) = pageSize + pageSize * count := by ring
    have hHead : offset + pageSize ≤ file.length := by omega
    have hShift (i : Nat) : offset + pageSize * i.succ = offset + pageSize + pageSize * i := by
      rw [Nat.mul_succ]
      omega
    rw [hMul, ← slice_append_slice, decryptPages_cons cipher count (length_slice_of_le hHead),
      ih (by omega), range_succ_eq_map, mapM_cons, mapM_map]
    simp only [Function.comp_def, hShift, Nat.mul_zero, Nat.add_zero,
      readAndDecrypt_one cipher hHead]
    cases openPage cipher (file.slice offset pageSize) with
    | error e => rfl
    | ok =>
      cases (List.range count).mapM fun i =>
          readAndDecrypt cipher file (offset + pageSize + pageSize * i) pageSize <;> rfl

/-
  A read of whole pages is the reads of its pages one after the other, and a short read is the
  beginning of the read of its page; on a failure both fail with the same error.
-/
theorem reads_pageByPage (hCount : 0 < count) (hFile : offset + pageSize * count ≤ file.length) :
    readAndDecrypt cipher file offset (pageSize * count) = ((List.range count).mapM fun i =>
          readAndDecrypt cipher file (offset + pageSize * i) pageSize).map List.flatten ∧
      ∀ n < pageSize, readAndDecrypt cipher file offset n =
        (readAndDecrypt cipher file offset pageSize).map (List.take n) := by
  refine ⟨?_, ?_⟩
  · rw [readAndDecrypt_pages cipher hCount hFile, decryptPages_mapM cipher hFile]
  · intro n hn
    rw [readAndDecrypt_of_short cipher file offset hn, readAndDecrypt,
      if_neg (Nat.lt_irrefl _), if_pos rfl]
    cases readExactAt file pageSize offset with
    | error e => rfl
    | ok page =>
      simp only [bind, Except.bind]
      cases openPage cipher page <;> rfl

/- Two pages that hold one sealed leaf each. -/
theorem reads_pageByPage_leaves : ∃ buffer opened, shouldEncryptPage buffer = true ∧
      openPage tagCipher buffer = .ok opened ∧
      readAndDecrypt tagCipher (buffer ++ buffer) 0 (pageSize * 2) = .ok (opened ++ opened) := by
  rcases encryptAndWrite_leaf tagCipher_aesGcm zeroNonce [] 0
    (show (largeLeaf 7).head? = some leafTag from rfl) (by rw [length_largeLeaf]; decide) with
    ⟨buffer, hBuffer, hOpen, _⟩
  have hTag : buffer.head? = some leafTag := by
    rw [← head?_of_openPage hOpen]
    rfl
  generalize (largeLeaf 7).take (1 + maxPlaintextSize) ++ zeros 28 = opened at hOpen
  have hFile : 0 + pageSize * 2 ≤ (buffer ++ buffer).length := by
    rw [length_append, hBuffer]
    decide
  have hFirst : readAndDecrypt tagCipher (buffer ++ buffer) 0 pageSize = .ok opened := by
    rw [readAndDecrypt_one tagCipher (by omega), slice, drop_zero, take_left' hBuffer, hOpen]
  have hSecond : readAndDecrypt tagCipher (buffer ++ buffer) pageSize pageSize = .ok opened := by
    rw [readAndDecrypt_one tagCipher (by omega), slice_append_last hBuffer hBuffer, hOpen]
  refine ⟨buffer, opened, shouldEncryptPage_of_head? hTag, hOpen, ?_⟩
  rw [(reads_pageByPage tagCipher (by decide) hFile).1]
  simp [range_succ, hFirst, hSecond, bind, Except.bind, pure, Except.pure, Except.map]

-- Many Writes

variable {cipher}

/- Writes of whole pages: a nonce, the number of the page and its bytes. -/
def writePages (cipher : PageCipher) : List (Nonce × Nat × Bytes) → Bytes → Except IoError Bytes
  | [], file => .ok file
  | (nonce, index, page) :: rest, file => do
    let file ← encryptAndWrite cipher nonce file (pageSize * index) page
    writePages cipher rest file

/- What one page is read back as: the end of a leaf is cut off. -/
def keptPage (page : Bytes) : Bytes :=
  if shouldEncryptPage page then page.take (1 + maxPlaintextSize) ++ zeros 28 else page

/- The same writes to a store of plain pages. -/
def plainPages (pages : Nat → Except IoError Bytes) (writes : List (Nonce × Nat × Bytes)) :
    Nat → Except IoError Bytes :=
  writes.foldl (fun pages w => Function.update pages w.2.1 (.ok (keptPage w.2.2))) pages

/- The encrypted file stands for the first `count` pages of the store. -/
structure HoldsPages (cipher : PageCipher) (count : Nat) (file : Bytes)
    (pages : Nat → Except IoError Bytes) : Prop where
  covers : pageSize * count ≤ file.length
  reads : ∀ i < count, readAndDecrypt cipher file (pageSize * i) pageSize = pages i

theorem HoldsPages.page_le {pages : Nat → Except IoError Bytes}
    (hHolds : HoldsPages cipher count file pages) {i : Nat} (hi : i < count) :
    pageSize * i + pageSize ≤ file.length :=
  Nat.le_trans (Nat.mul_le_mul_left pageSize hi) hHolds.covers

/- A page does not see the write of another. -/
theorem slice_page_overwrite {index i : Nat} {buffer : Bytes}
    (hInside : pageSize * index + buffer.length ≤ file.length) (hBuffer : buffer.length = pageSize)
    (hNe : i ≠ index) (hPage : pageSize * i + pageSize ≤ file.length) :
    (file.overwrite (pageSize * index) buffer).slice (pageSize * i) pageSize =
      file.slice (pageSize * i) pageSize := by
  rcases Nat.lt_or_gt_of_ne hNe with hBefore | hAfter
  · exact slice_overwrite_before hPage buffer (Nat.mul_le_mul_left pageSize hBefore)
  · refine slice_overwrite_of_ge (by omega) buffer pageSize ?_
    rw [hBuffer]
    exact Nat.mul_le_mul_left pageSize hAfter

theorem encryptAndWrite_keeps (hGcm : cipher.AesGcm) (nonce : Nonce) (file : Bytes) (offset : Nat)
    (hPage : page.length = pageSize) :
    ∃ buffer, buffer.length = pageSize ∧ openPage cipher buffer = .ok (keptPage page) ∧
      encryptAndWrite cipher nonce file offset page = .ok (file.overwrite offset buffer) := by
  unfold keptPage
  cases hLeaf : shouldEncryptPage page with
  | true =>
    have hTag : page.head? = some leafTag := by
      cases page with
      | nil => cases hLeaf
      | cons tag rest => simpa [shouldEncryptPage] using hLeaf
    exact encryptAndWrite_leaf hGcm nonce file offset hTag hPage.ge
  | false =>
    refine ⟨page, hPage, ?_, ?_⟩
    · rw [openPage, hLeaf]
      rfl
    · rw [encryptAndWrite, hLeaf]
      rfl

theorem HoldsPages.write {pages : Nat → Except IoError Bytes}
    (hHolds : HoldsPages cipher count file pages) (hGcm : cipher.AesGcm) (nonce : Nonce)
    {index : Nat} (hIndex : index < count) (hPage : page.length = pageSize) :
    ∃ file', encryptAndWrite cipher nonce file (pageSize * index) page = .ok file' ∧
      HoldsPages cipher count file' (Function.update pages index (.ok (keptPage page))) := by
  rcases encryptAndWrite_keeps hGcm nonce file (pageSize * index) hPage with
    ⟨buffer, hBuffer, hOpen, hWrite⟩
  have hInside : pageSize * index + buffer.length ≤ file.length := by
    rw [hBuffer]
    exact hHolds.page_le hIndex
  have hSame := length_overwrite hInside
  refine ⟨_, hWrite, by rw [hSame]; exact hHolds.covers, fun i hi => ?_⟩
  rw [readAndDecrypt_one cipher (by rw [hSame]; exact hHolds.page_le hi)]
  rcases eq_or_ne i index with rfl | hNe
  · have hRead := slice_overwrite_self file (pageSize * i) buffer
    rw [hBuffer] at hRead
    rw [hRead, hOpen, Function.update_self]
  · rw [slice_page_overwrite hInside hBuffer hNe (hHolds.page_le hi), Function.update_of_ne hNe,
      ← hHolds.reads i hi, readAndDecrypt_one cipher (hHolds.page_le hi)]

/-
  Through any sequence of writes of whole pages the encrypted file behaves as a store of plain pages:
  each page reads as it was last written, up to the end of a leaf that does not fit, and a page that
  was not written reads as before.
-/
theorem encrypted_file_refines_plain_pages (hGcm : cipher.AesGcm)
    {pages : Nat → Except IoError Bytes} (hHolds : HoldsPages cipher count file pages)
    (writes : List (Nonce × Nat × Bytes))
    (hWrites : ∀ w ∈ writes, w.2.1 < count ∧ w.2.2.length = pageSize) :
    ∃ file', writePages cipher writes file = .ok file' ∧
      HoldsPages cipher count file' (plainPages pages writes) := by
  induction writes generalizing file pages with
  | nil => exact ⟨file, rfl, hHolds⟩
  | cons w rest ih =>
    rcases w with ⟨nonce, index, page⟩
    rcases forall_mem_cons.mp hWrites with ⟨⟨hIndex, hPage⟩, hRest⟩
    rcases hHolds.write hGcm nonce hIndex hPage with ⟨file₁, hWrite, hNext⟩
    rcases ih hNext hRest with ⟨file', hRun, hAfter⟩
    refine ⟨file', ?_, hAfter⟩
    rw [writePages, hWrite]
    exact hRun

theorem zeros_file_refines_plain_pages :
    ∃ file', writePages tagCipher
        [(zeroNonce, 1, leafTag :: zeros 4095), (zeroNonce, 0, zeros 4096)] (zeros 8192) =
          .ok file' ∧
      HoldsPages tagCipher 2 file'
        (plainPages (fun i => readAndDecrypt tagCipher (zeros 8192) (pageSize * i) pageSize)
          [(zeroNonce, 1, leafTag :: zeros 4095), (zeroNonce, 0, zeros 4096)]) := by
  refine encrypted_file_refines_plain_pages tagCipher_aesGcm ⟨?_, fun _ _ => rfl⟩ _ ?_
  · rw [length_zeros]
    decide
  · simp [pageSize]

end Redbx
