import Redbx.Secrecy.Store
import Redbx.Open.FirstPage

/-
  The cells are what the encrypted file shows.

  `encrypt_and_write` turns a page into bytes of the file, and these agree with the cells of the
  page wherever the cells are not hidden.

  Key theorems include:
    * `encryptAndWrite_shows`, `encrypted_file_shows_cells`
-/

namespace Redbx

open Bytes Redbx.Tree List

/- The file has the bytes that are shown. Beyond its end it reads as zeros. -/
def Shows (cells : Nat → Cell) (file : Bytes) : Prop :=
  ∀ i byte, cells i = some byte → file.getD i 0 = byte

variable {cells : Nat → Cell} {file : Bytes}

/- A write shows the cells written, also where it makes the file longer. -/
theorem shows_writeCells
    (hShows : Shows cells file) (offset : Nat)
    {written : List Cell} {buffer : Bytes} (hLength : buffer.length = written.length)
    (hBuffer : ∀ (i : Nat) (byte : UInt8), written[i]? = some (some byte) →
        buffer[i]? = some byte) :
    Shows (writeCells cells offset written) (file.overwrite offset buffer) := by
  intro i byte hCell
  rw [getD_overwrite]
  unfold writeCells at hCell
  by_cases hIn : offset ≤ i ∧ i < offset + buffer.length
  · have hLt : i - offset < written.length := by omega
    rw [if_pos hIn.1, getElem?_eq_getElem hLt] at hCell
    rw [if_pos hIn, getD_eq_getElem?_getD, hBuffer (i - offset) byte]
    · rfl
    · rw [getElem?_eq_getElem hLt]
      exact congrArg some hCell
  · rw [if_neg hIn]
    by_cases hBefore : offset ≤ i
    · have hGe : written.length ≤ i - offset := by omega
      rw [if_pos hBefore, getElem?_eq_none hGe] at hCell
      exact hShows i byte hCell
    · rw [if_neg hBefore] at hCell
      exact hShows i byte hCell

theorem getElem?_of_shown
    {data : Bytes} {i : Nat} {byte : UInt8} (hCell : (shown data)[i]? = some (some byte)) :
    data[i]? = some byte := by
  rw [shown, getElem?_map] at hCell
  cases hByte : data[i]? with
  | none =>
    rw [hByte] at hCell
    cases hCell
  | some b =>
    rw [hByte] at hCell
    cases hCell
    rfl

/- What is written as it is is shown as it is. -/
theorem Shows.overwrite (hShows : Shows cells file)
    (offset : Nat) (data : Bytes) :
    Shows (writeCells cells offset (shown data)) (file.overwrite offset data) :=
  shows_writeCells hShows offset (length_map some).symm fun _ _ hCell => getElem?_of_shown hCell

theorem Shows.setLen (hShows : Shows cells file)
    (length : Nat) :
    Shows (fun i => if i < length then cells i else some 0) (Redbx.setLen file length) := by
  intro i byte hCell
  rw [getD_eq_getElem?_getD, Redbx.setLen, getElem?_take]
  rcases Nat.lt_or_ge i length with hBelow | hCut
  · have hByte := hShows i byte ((if_pos hBelow).symm.trans hCell)
    rw [if_pos hBelow, ← hByte, getD_eq_getElem?_getD]
    rcases Nat.lt_or_ge i file.length with hIn | hOut
    · rw [getElem?_append_left hIn]
    · rw [getElem?_append_right hOut, getElem?_eq_none hOut, zeros, getElem?_replicate,
        if_pos (by omega)]
      rfl
  · rw [if_neg (by omega)]
    exact Option.some.inj ((if_neg (by omega)).symm.trans hCell)

section Pages

variable {P T : Type} {K V : T → Type} [DecidableEq P] (e : Engine P T K V)

/- A page in memory, filled up with zeros. -/
def Engine.pageData (t : T) (p : P) (node : Node P (K t) (StoredValue P T (V t))) : Bytes :=
  e.nodeData t node ++ zeros (pageBytes (e.alloc.order p) - (e.nodeData t node).length)

/- A page fills at least one unit. -/
theorem Engine.pageSize_le_pageData (t : T) (p : P) (node : Node P (K t) (StoredValue P T (V t))) :
    pageSize ≤ (e.pageData t p node).length := by
  have hPage : pageSize ≤ pageBytes (e.alloc.order p) :=
    Nat.le_mul_of_pos_right _ (Nat.two_pow_pos _)
  rw [pageData, length_append, length_zeros]
  omega

theorem Engine.head?_leafData (t : T) (p : P) (pairs : List (K t × StoredValue P T (V t))) :
    (e.pageData t p (.leaf pairs)).head? = some leafTag := by
  simp only [pageData, nodeData, leafData, append_assoc, cons_append, head?_cons]

/- All of a branch page is seen. -/
theorem Engine.pageCells_branch
    (t : T) (p : P) (children : List (P × Checksum)) (keys : List (K t)) :
    e.pageCells checksumShown t p (.branch children keys) =
      shown (e.pageData t p (.branch children keys)) := by
  simp only [pageCells, branchCells_shown, pageData, nodeData, shown_append]
  rw [shown, length_map]

/- Of a leaf page only the type is seen. -/
theorem leafCells_shown
    {i : Nat} {byte : UInt8} {buffer : Bytes} (hHead : buffer.head? = some leafTag)
    (hCell : (some leafTag :: List.replicate (pageSize - 1) none :
        List Cell)[i]? = some (some byte)) :
    buffer[i]? = some byte := by
  cases i with
  | zero =>
    cases hCell
    rw [← head?_eq_getElem?]
    exact hHead
  | succ i =>
    rw [getElem?_cons_succ, getElem?_replicate] at hCell
    split at hCell
    · cases hCell
    · cases hCell

/- Writing a page shows its cells: the type of a leaf, and all of a branch. -/
theorem encryptAndWrite_shows
    {cipher : PageCipher} (hGcm : cipher.AesGcm) (nonce : Nonce)
    (hShows : Shows cells file) (t : T) (p : P) (node : Node P (K t) (StoredValue P T (V t))) :
    ∃ file', encryptAndWrite cipher nonce file (e.address p) (e.pageData t p node) = .ok file' ∧
      Shows (e.applyWrite checksumShown cells (.page t p node)) file' := by
  have hSize := e.pageSize_le_pageData t p node
  cases node with
  | leaf pairs =>
    have hTag := e.head?_leafData t p pairs
    rcases encryptAndWrite_leaf hGcm nonce file (e.address p) hTag hSize with
      ⟨buffer, hLength, hOpen, hWrite⟩
    have hHead : buffer.head? = some leafTag := by
      rcases head?_eq_some_iff.mp hTag with ⟨rest, hRest⟩
      rw [← head?_of_openPage hOpen, hRest, Nat.add_comm, take_succ_cons, cons_append, head?_cons]
    refine ⟨_, hWrite, shows_writeCells hShows _ ?_ ?_⟩
    · have hUnit : 0 < pageSize := by decide
      rw [hLength, Engine.pageCells, length_cons, length_replicate]
      omega
    · intro i byte hCell
      exact leafCells_shown hHead hCell
  | branch children keys =>
    have hRaw : shouldEncryptPage (e.pageData t p (.branch children keys)) = false := rfl
    refine ⟨file.overwrite (e.address p) (e.pageData t p (.branch children keys)), ?_, ?_⟩
    · rw [encryptAndWrite, hRaw]
      rfl
    · rw [Engine.applyWrite, e.pageCells_branch]
      exact hShows.overwrite _ _

/-
  A write to the encrypted file. The header begins with the magic number, so what is written to it
  is not encrypted.
-/
def Engine.writeFile (cipher : PageCipher) (file : Bytes) :
    Nonce × FileWrite P T K V → Except IoError Bytes
  | (nonce, .page t p node) =>
    encryptAndWrite cipher nonce file (e.address p) (e.pageData t p node)
  | (_, .slot which user system transactionId) =>
    .ok (writeAllAt file ((e.transaction user system transactionId).toBytes e.hash)
      (64 + 128 * which.val))
  | (_, .front data) => .ok (writeAllAt file data 0)
  | (_, .resize length) => .ok (setLen file length)

theorem Engine.writeFile_shows {cipher : PageCipher} (hGcm : cipher.AesGcm)
    (hShows : Shows cells file) (write : Nonce × FileWrite P T K V) :
    ∃ file', e.writeFile cipher file write = .ok file' ∧
      Shows (e.applyWrite checksumShown cells write.2) file' := by
  rcases write with ⟨nonce, write⟩
  cases write with
  | page t p node => exact encryptAndWrite_shows e hGcm nonce hShows t p node
  | slot which user system transactionId =>
    refine ⟨_, rfl, ?_⟩
    rw [applyWrite, e.slotCells_shown]
    exact hShows.overwrite _ _
  | front data => exact ⟨_, rfl, hShows.overwrite _ _⟩
  | resize length => exact ⟨_, rfl, hShows.setLen _⟩

/-
  Whatever is written to a new file, with whatever nonces, the file shows the cells of the writes: the
  encrypted file differs from what the model lets an observer see only in the hidden cells.
-/
theorem encrypted_file_shows_cells {cipher : PageCipher} (hGcm : cipher.AesGcm)
    (log : List (Nonce × FileWrite P T K V)) :
    ∃ file, log.foldlM (e.writeFile cipher) [] = .ok file ∧
      Shows (e.fileCells checksumShown (log.map Prod.snd)) file := by
  suffices hRun : ∀ (log : List (Nonce × FileWrite P T K V)) cells file, Shows cells file →
      ∃ file', log.foldlM (e.writeFile cipher) file = .ok file' ∧
        Shows ((log.map Prod.snd).foldl (e.applyWrite checksumShown) cells) file' from
    hRun log _ [] fun i byte hCell => Option.some.inj hCell
  intro log
  induction log with
  | nil => exact fun cells file hShows => ⟨file, rfl, hShows⟩
  | cons write rest ih =>
    intro cells file hShows
    rcases e.writeFile_shows hGcm hShows write with ⟨file₁, hWrite, hNext⟩
    rcases ih _ _ hNext with ⟨file', hRun, hAfter⟩
    exact ⟨file', by rw [foldlM_cons, hWrite]; exact hRun, hAfter⟩

end Pages

end Redbx
