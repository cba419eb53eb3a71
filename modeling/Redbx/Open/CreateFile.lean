import Redbx.Open.CleanFile

/-
  `Builder::create_file` on a file that holds a database.

  The backend is made with a new salt, so the pages are read with another key than they were written
  with. The header is not encrypted and is accepted; the first leaf of the system tree is not.

  Key theorems include:
    * `Platform.KeysReject.findLeaf`, `createFile_shows_database_iff`
-/

namespace Redbx

open Bytes

variable {Password Key View : Type}

-- Reading With Another Key

/- Two computations that give the same if both succeed. -/
def Agree {ε α : Type} (first second : Except ε α) : Prop :=
  ∀ a b, first = .ok a → second = .ok b → a = b

/- Agreeing computations followed by agreeing ones. -/
theorem Agree.bind {ε α β : Type} {first second : Except ε α} (hAgree : Agree first second)
    {next other : α → Except ε β} (hNext : ∀ a, Agree (next a) (other a)) :
    Agree (first >>= next) (second >>= other) := by
  intro a b hFirst hSecond
  cases first with
  | error => cases hFirst
  | ok x =>
    cases second with
    | error => cases hSecond
    | ok y =>
      have hEq := hAgree x y rfl rfl
      rw [hEq] at hFirst
      exact hNext y a b hFirst hSecond

theorem Agree.refl {ε α : Type} (result : Except ε α) : Agree result result := by
  intro a b hFirst hSecond
  rw [hFirst] at hSecond
  exact Except.ok.inj hSecond

section Read

variable {platform : Platform Password Key View} {key other : Key}

variable (hReject : platform.KeysReject)
include hReject

variable (hKeys : key ≠ other)
include hKeys

theorem Platform.KeysReject.not_leaf {page opened result : Bytes}
    (hOpen : Redbx.openPage (platform.pageCipher key) page = .ok opened)
    (hOther : Redbx.openPage (platform.pageCipher other) page = .ok result) :
    shouldEncryptPage page = false := by
  by_contra hLeaf
  have hError := hReject.openPage hKeys (by simpa using hLeaf) hOpen
  rw [hError] at hOther
  cases hOther

theorem Platform.KeysReject.openPage_agree (page : Bytes) :
    Agree (Redbx.openPage (platform.pageCipher key) page)
      (Redbx.openPage (platform.pageCipher other) page) := by
  intro opened result hOpen hOther
  have hPlain := hReject.not_leaf hKeys hOpen hOther
  rw [openPage_of_not_leaf _ hPlain] at hOpen hOther
  cases hOpen
  cases hOther
  rfl

theorem Platform.KeysReject.decryptPages_agree (count : Nat) (out : Bytes) :
    Agree (decryptPages (platform.pageCipher key) count out)
      (decryptPages (platform.pageCipher other) count out) := by
  induction count generalizing out with
  | zero => exact Agree.refl _
  | succ _ ih =>
    unfold decryptPages
    by_cases hPage : (out.take pageSize).length = pageSize
    · simp only [if_pos hPage]
      apply (hReject.openPage_agree hKeys _).bind
      intro opened
      exact (ih _).bind fun rest => Agree.refl _
    · simp only [if_neg hPage]
      exact (ih _).bind fun rest => Agree.refl _

theorem Platform.KeysReject.decryptPages_not_leaf {count : Nat}
    {page rest memory result : Bytes} (hPage : page.length = pageSize)
    (hRead : decryptPages (platform.pageCipher key) (count + 1) (page ++ rest) = .ok memory)
    (hOther : decryptPages (platform.pageCipher other) (count + 1) (page ++ rest) = .ok result) :
    byteAt memory 0 ≠ leafTag := by
  rw [decryptPages_cons _ _ hPage] at hRead hOther
  cases hOpen : Redbx.openPage (platform.pageCipher key) page with
  | error =>
    rw [hOpen] at hRead
    cases hRead
  | ok =>
    cases hSecond : Redbx.openPage (platform.pageCipher other) page with
    | error =>
      rw [hSecond] at hOther
      cases hOther
    | ok =>
      have hPlain := hReject.not_leaf hKeys hOpen hSecond
      rw [openPage_of_not_leaf _ hPlain] at hRead
      cases hTail : decryptPages (platform.pageCipher key) count rest with
      | error =>
        rw [hTail] at hRead
        cases hRead
      | ok tail =>
        rw [hTail] at hRead
        cases hRead
        cases page with
        | nil => exact absurd hPage (by decide)
        | cons => simpa [shouldEncryptPage, byteAt] using hPlain

theorem Platform.KeysReject.getPage_agree {header : DatabaseHeader} {file : Bytes}
    {page : PageNumber} {memory result : Bytes}
    (hRead : getPage (platform.pageCipher key) header file page = .ok memory)
    (hOther : getPage (platform.pageCipher other) header file page = .ok result) :
    memory = result ∧ byteAt memory 0 ≠ leafTag := by
  have hCount : 0 < 2 ^ page.pageOrder := Nat.pow_pos (by decide)
  have hInside := readAndDecrypt_inside hCount hRead
  unfold getPage at hRead hOther
  rw [readAndDecrypt_pages _ hCount hInside] at hRead hOther
  refine ⟨hReject.decryptPages_agree hKeys _ _ _ _ hRead hOther, ?_⟩
  rcases Nat.exists_eq_succ_of_ne_zero hCount.ne' with ⟨count, hSucc⟩
  -- split the range after its first page
  rw [hSucc, Nat.succ_eq_add_one] at hInside hRead hOther
  rw [Nat.mul_succ, Nat.add_comm (pageSize * count), ← slice_append_slice] at hRead hOther
  exact hReject.decryptPages_not_leaf hKeys (length_slice_of_le
      (by rw [Nat.mul_succ] at hInside; omega))
    hRead hOther

/- No leaf is found under both keys. -/
theorem Platform.KeysReject.findLeaf (header : DatabaseHeader) (file : Bytes)
    (childForKey : Bytes → Nat) (depth : Nat) :
    ∀ {page : PageNumber} {leaf result : Bytes}, Redbx.findLeaf
          (getPage (platform.pageCipher key) header file) childForKey depth page = .ok leaf →
      Redbx.findLeaf (getPage (platform.pageCipher other) header file)
          childForKey depth page ≠ .ok result := by
  induction depth with
  | zero =>
    intro page leaf result hFind
    cases hFind
  | succ _ ih =>
    intro page leaf result hFind hOther
    rw [Redbx.findLeaf] at hFind hOther
    cases hRead : getPage (platform.pageCipher key) header file page with
    | error =>
      rw [hRead] at hFind
      cases hFind
    | ok =>
      cases hSecond : getPage (platform.pageCipher other) header file page with
      | error =>
        rw [hSecond] at hOther
        cases hOther
      | ok =>
        rcases hReject.getPage_agree hKeys hRead hSecond with ⟨hSame, hBranch⟩
        subst hSame
        simp only [hRead, hSecond, liftIo, Except.mapError, bind, Except.bind,
          if_neg hBranch] at hFind hOther
        split at hFind
        · rename_i hTag
          rw [if_pos hTag] at hOther
          exact ih hFind hOther
        · cases hFind

end Read

-- Creating Over A Database

/-
  What closing a database leaves: a header that needs no recovery, written in two phases, and a
  system tree, which holds the allocator state.
-/
def CleanlyClosed (hash : Bytes → Checksum) (file : Bytes) : Prop :=
  ∃ header root, ClosedFile hash header file ∧ header.twoPhaseCommit = true ∧
    header.primary.systemRoot = some root

variable {file : Bytes}

theorem CleanlyClosed.not_both
    {platform : Platform Password Key View} (hReject : platform.KeysReject)
    (hClosed : CleanlyClosed platform.hash file) {key other : Key} (hKeys : key ≠ other)
    {allow allow' : Bool} {salt salt' : Salt} {view view' : View}
    (hOpen : platform.databaseNew allow false key salt file = .ok view)
    (hOther : platform.databaseNew allow' false other salt' file = .ok view') :
    False := by
  rcases hClosed with ⟨header, root, hFile, hTwo, hRoot⟩
  rw [ClosedFile.databaseNew platform hFile, Platform.allocatorStateLeaf, if_pos hTwo, hRoot]
    at hOpen hOther
  cases hFind : findLeaf (getPage (platform.pageCipher key) header file)
        platform.childForKey (file.length / pageSize)
        root.root with
  | error error =>
    simp only [hFind] at hOpen
    cases hOpen
  | ok leaf =>
    cases hSecond : findLeaf (getPage (platform.pageCipher other) header file)
          platform.childForKey (file.length / pageSize)
          root.root with
    | error error =>
      simp only [hSecond] at hOther
      cases hOther
    | ok second => exact hReject.findLeaf hKeys header file _ _ hFind hSecond

/-
  `create_file` on a cleanly closed database shows what `open` shows exactly when the new salt
  happens to give the old key.
-/
theorem createFile_shows_database_iff
    (platform : Platform Password Key View) (hReject : platform.KeysReject) (password : Password)
    (salt generated : Salt) {file : Bytes} {view : View}
    (hSalt : readSaltFromHeader file = .ok salt) (hClosed : CleanlyClosed platform.hash file)
    (hOpen : platform.openDatabase password file = .ok view) :
    platform.createFile generated password file = .ok view ↔ platform.deriveKey password generated =
        platform.deriveKey password salt := by
  have hNew : platform.databaseNew false false
        (platform.deriveKey password salt) salt file = .ok view := by
    simp only [Platform.openDatabase, Platform.openExisting, hSalt, bind, Except.bind] at hOpen
    split at hOpen
    · cases hOpen
    · cases hResult : platform.databaseNew false false
            (platform.deriveKey password salt) salt file with
      | error error =>
        rw [hResult] at hOpen
        cases hOpen
      | ok result =>
        rw [hResult] at hOpen
        cases hOpen
        rfl
  constructor
  · intro hCreate
    by_contra hKeys
    cases hResult : platform.databaseNew true false
          (platform.deriveKey password generated) generated file with
    | error error =>
      rw [Platform.createFile, Platform.createFresh, hResult] at hCreate
      cases hCreate
    | ok result => exact hClosed.not_both hReject hKeys hResult hNew
  · intro hKeys
    rcases hClosed with ⟨_, _, hFile, _, _⟩
    rw [ClosedFile.databaseNew platform hFile] at hNew
    rw [Platform.createFile, Platform.createFresh, hKeys,
      ClosedFile.databaseNew platform hFile, hNew]
    rfl

variable {key : UInt8}

theorem sampleFile_cleanlyClosed (hFile : SampleFile key file) :
    CleanlyClosed samplePlatform.hash file :=
  ⟨sampleHeader, _, hFile.closed, rfl, rfl⟩

theorem sampleFile_salt (hFile : SampleFile key file) : readSaltFromHeader file = .ok sampleSalt :=
  readSaltFromHeader_eq (hFile.run.kept (keyedCipher_aesGcm key) file List.mem_cons_self).salted

theorem sampleFile_opens (hFile : SampleFile key file) :
    samplePlatform.openDatabase key file = .ok () := by
  rw [Platform.openDatabase, hFile.openExisting_eq, hFile.databaseNew_own]
  rfl

/- The old salt by chance shows the database. -/
theorem same_salt_shows_database : ∃ file, samplePlatform.openDatabase 7 file = .ok () ∧
      samplePlatform.createFile sampleSalt 7 file = .ok () := by
  rcases exists_sampleFile 7 with ⟨file, hFile⟩
  refine ⟨file, sampleFile_opens hFile, ?_⟩
  exact (createFile_shows_database_iff samplePlatform
      samplePlatform_keysReject 7 sampleSalt sampleSalt
      (sampleFile_salt hFile) (sampleFile_cleanlyClosed hFile) (sampleFile_opens hFile)).mpr rfl

/- Another salt. -/
def freshSalt : Salt := ⟨List.replicate 16 1, List.length_replicate⟩

/- With another salt the same password opens nothing. -/
theorem fresh_salt_loses_database : ∃ file, StoreRun samplePlatform.hash (samplePlatform.pageCipher
          (samplePlatform.deriveKey 7 sampleSalt))
        sampleSalt (.clean file) ∧
      CleanlyClosed samplePlatform.hash file ∧
      samplePlatform.openDatabase 7 file = .ok () ∧
      samplePlatform.createFile freshSalt 7 file = .error (.storage (.io .decryptionFailed)) := by
  rcases exists_sampleFile 7 with ⟨file, hFile⟩
  refine ⟨file, hFile.run, sampleFile_cleanlyClosed hFile, sampleFile_opens hFile, ?_⟩
  have hKeys : (7 : UInt8) ≠ samplePlatform.deriveKey 7 freshSalt := by decide
  rw [Platform.createFile, Platform.createFresh, hFile.databaseNew_other true false freshSalt hKeys]
  rfl

end Redbx
