import Redbx.Core.Bytes

/-
  The page cipher and the rule which pages are encrypted.

  AES-256-GCM itself is a third-party crate, so the cipher is a parameter. `PageCipher.AesGcm`
  collects what the backend relies on.

  Key definitions include:
    * `effectiveLeafPageSize`, `leafTag`
-/

namespace Redbx

-- Constants

/- `PAGE_SIZE` of the page store. -/
def pageSize : Nat := 4096

/- `AES_NONCE_SIZE`: 96 bits for GCM. -/
def aesNonceSize : Nat := 12

/- `AES_TAG_SIZE`: 128 bits. -/
def aesTagSize : Nat := 16

/- `ENCRYPTION_OVERHEAD`: nonce and tag. -/
def encryptionOverhead : Nat := aesNonceSize + aesTagSize

/- `LEAF_METADATA_SIZE`: page type and nonce. -/
def leafMetadataSize : Nat := 1 + aesNonceSize

/-
  `EFFECTIVE_LEAF_PAGE_SIZE`, the limit of the splitting rules. It counts the nonce twice and comes
  to 4055.
-/
def effectiveLeafPageSize : Nat := pageSize - leafMetadataSize - encryptionOverhead

/- `LEAF`, the first byte of a leaf page. -/
def leafTag : UInt8 := 1

/- `BRANCH`, the first byte of a branch page. -/
def branchTag : UInt8 := 2

-- Page Cipher

/- A 96-bit GCM nonce. -/
structure Nonce where
  bytes : Bytes
  length_eq : bytes.length = aesNonceSize

/- The two calls the backend makes into the cipher. `none` is the error of the call. -/
structure PageCipher where
  encryptWithNonce : Nonce → Bytes → Option Bytes
  decryptWithNonce : Nonce → Bytes → Option Bytes

/-
  Documented behaviour of AES-GCM: a plaintext that fits one page is encrypted, the ciphertext is
  the plaintext's length plus the tag, decryption inverts encryption under the same nonce, and what
  decrypts is longer than its plaintext by the tag.
-/
structure PageCipher.AesGcm (cipher : PageCipher) : Prop where
  encrypts : ∀ nonce data, data.length ≤ pageSize → (cipher.encryptWithNonce nonce data).isSome
  length_encrypted : ∀ nonce data encrypted, cipher.encryptWithNonce nonce data = some encrypted →
      encrypted.length = data.length + aesTagSize
  decrypt_encrypt : ∀ nonce data encrypted, cipher.encryptWithNonce nonce data = some encrypted →
      cipher.decryptWithNonce nonce encrypted = some data
  length_decrypted : ∀ nonce encrypted data, cipher.decryptWithNonce nonce encrypted = some data →
      encrypted.length = data.length + aesTagSize

/- Only a page whose first byte is `LEAF` is encrypted. -/
def shouldEncryptPage : Bytes → Bool
  | [] => false
  | tag :: _ => tag == leafTag

end Redbx
