import Redbx.Encryption.Cipher

/-
  `EncryptedFileBackend`: reads and writes of a file whose leaf pages are encrypted one page at a
  time.

  The file is the byte string it holds. A write returns the file after it, a read the bytes it fills
  the buffer with.

  Key definitions include:
    * `readExactAt`, `writeAllAt`
-/

namespace Redbx

open Bytes

-- File Access

/- Why a call into the backend does not succeed. `panicked` is a slice or `unwrap` out of range. -/
inductive IoError where
  | unexpectedEof
  | encryptionFailed
  | decryptionFailed
  | panicked
  deriving DecidableEq, Repr

/- `read_exact_at`: fails when the file ends too early. -/
def readExactAt (file : Bytes) (len offset : Nat) : Except IoError Bytes :=
  if offset + len ≤ file.length then
    .ok (file.slice offset len)
  else
    .error .unexpectedEof

/- `write_all_at`: extends the file where it must. -/
def writeAllAt (file buf : Bytes) (offset : Nat) : Bytes := file.overwrite offset buf

-- One Page

/- The nonce that stands after the page type. -/
def pageNonce (page : Bytes) : Option Nonce :=
  if h : (page.slice 1 aesNonceSize).length =
      aesNonceSize then
    some ⟨page.slice 1 aesNonceSize, h⟩
  else
    none

/-
  Decrypt one page that is marked as a leaf: the page type is kept, the plaintext follows it and the
  rest of the page is cleared.
-/
def decryptPage (cipher : PageCipher) (page : Bytes) : Except IoError Bytes :=
  match pageNonce page with
  | none => .error .panicked
  | some nonce =>
    match cipher.decryptWithNonce nonce
        (page.drop (1 + aesNonceSize)) with
    | none => .error .decryptionFailed
    | some decrypted =>
      if decrypted.length + 1 ≤ page.length then
        .ok (page.take 1 ++ decrypted ++ zeros (page.length - 1 - decrypted.length))
      else
        .error .panicked

/- What a read makes of one page of the file: a leaf is decrypted, everything else is passed on. -/
def openPage (cipher : PageCipher) (page : Bytes) : Except IoError Bytes :=
  if shouldEncryptPage page then
    decryptPage cipher page
  else
    .ok page

-- Writing

/- The plaintext that fits one page: 4067 bytes. -/
def maxPlaintextSize : Nat := pageSize - 1 - aesNonceSize - 16

/-
  `encrypt_and_write`. A leaf is cut to one page of plaintext and written as page type, nonce and
  ciphertext in one page-sized buffer; anything else is written raw. The nonce is the one
  `generate_nonce` returned.
-/
def encryptAndWrite (cipher : PageCipher) (nonce : Nonce) (file : Bytes) (offset : Nat)
    (data : Bytes) : Except IoError Bytes :=
  if shouldEncryptPage data then
    let fullPlaintext := data.drop 1
    let plaintext := if maxPlaintextSize < fullPlaintext.length then
        fullPlaintext.take maxPlaintextSize
      else
        fullPlaintext
    match cipher.encryptWithNonce nonce plaintext with
    | none => .error .encryptionFailed
    | some encrypted =>
      if 1 + aesNonceSize + encrypted.length ≤
          pageSize then
        let pageBuffer := data.take 1 ++ nonce.bytes ++ encrypted ++ zeros (pageSize -
              (1 + aesNonceSize + encrypted.length))
        .ok (writeAllAt file pageBuffer offset)
      else
        .error .panicked
  else
    .ok (writeAllAt file data offset)

-- Reading

/-
  The loop of a long read. `count` steps are left; a step takes one page or what is left of the
  buffer, and only a full page is opened.
-/
def decryptPages (cipher : PageCipher) : (count : Nat) → Bytes → Except IoError Bytes
  | 0, out => .ok out
  | count + 1, out =>
    let page := out.take pageSize
    if page.length = pageSize then do
      let opened ← openPage cipher page
      let rest ← decryptPages cipher count (out.drop pageSize)
      return opened ++ rest
    else do
      let rest ← decryptPages cipher count (out.drop pageSize)
      return page ++ rest

/- The short read: page type and plaintext are copied into a new page of zeros. -/
def decryptFresh (cipher : PageCipher) (fullPage : Bytes) : Except IoError Bytes :=
  match pageNonce fullPage with
  | none => .error .panicked
  | some nonce =>
    match cipher.decryptWithNonce nonce (fullPage.drop (1 + aesNonceSize)) with
    | none => .error .decryptionFailed
    | some decrypted =>
      if decrypted.length + 1 ≤ pageSize then
        .ok (((zeros pageSize).overwrite 0 (fullPage.take 1)).overwrite 1 decrypted)
      else
        .error .panicked

/-
  `read_and_decrypt` of `len` bytes. A short read decrypts the whole page and returns a prefix, an
  exact read one page, a long read every full page of the range.
-/
def readAndDecrypt (cipher : PageCipher) (file : Bytes) (offset len : Nat) : Except IoError Bytes :=
  if len < pageSize then do
    let fullPage ← readExactAt file pageSize offset
    if shouldEncryptPage fullPage then
      let decryptedPage ← decryptFresh cipher fullPage
      return decryptedPage.take len
    else
      return fullPage.take len
  else if len = pageSize then do
    let out ← readExactAt file len offset
    openPage cipher out
  else do
    let out ← readExactAt file len offset
    decryptPages cipher ((len + pageSize - 1) / pageSize) out

------------------------------------------------------------
-- Short Reads
------------------------------------------------------------

open List

variable {page : Bytes} (cipher : PageCipher)

theorem overwrite_zeros (decrypted : Bytes) (hPage : page.length = pageSize) :
    ((zeros pageSize).overwrite 0 (page.take 1)).overwrite 1 decrypted =
      page.take 1 ++ decrypted ++ zeros (pageSize - 1 - decrypted.length) := by
  have hOne : (page.take 1).length = 1 := by
    rw [length_take, hPage]
    rfl
  rw [overwrite_eq (Nat.zero_le _), hOne, take_zero, nil_append,
    overwrite_eq (by rw [length_append]; omega), take_left' hOne, drop_append, hOne,
    drop_eq_nil_of_le (by omega), drop_drop]
  simp only [zeros, drop_replicate, nil_append, Nat.sub_sub]
  congr 3
  omega

/- The new buffer ends as the page that is decrypted in place. -/
theorem decryptFresh_eq (hPage : page.length = pageSize) :
    decryptFresh cipher page = decryptPage cipher page := by
  simp only [decryptFresh, decryptPage, overwrite_zeros _ hPage, hPage]

/- A short read is the beginning of the page that is opened. -/
theorem readAndDecrypt_of_short
    (file : Bytes)
    (offset : Nat)
    {len : Nat}
    (hShort : len < pageSize) :
    readAndDecrypt cipher file offset len = do
      let page ← readExactAt file pageSize offset
      let opened ← openPage cipher page
      return opened.take len := by
  rw [readAndDecrypt, if_pos hShort]
  simp only [readExactAt]
  split
  · rename_i hInside
    simp only [bind, Except.bind, openPage, decryptFresh_eq cipher (length_slice_of_le hInside)]
    split <;> rfl
  · rfl

end Redbx
