import Redbx.Secrecy.Relabel
import Redbx.Secrecy.Disk
import Redbx.Btree.Refinement

/-
  What the file shows of the values.

  Leaves are encrypted, but their checksums are not: the hash of a leaf is taken before it is
  encrypted, and it is stored in the branch above it or, through the tables that record it, in the
  commit slot. Two runs that store other values of the same lengths leave the same file as long as
  the leaves that are hashed have the same hashes.

  Key theorems include:
    * `same_checksums_same_file`, `checksum_shows_value`
-/

namespace Redbx

open Bytes Redbx.Tree List

variable {P T : Type} {K V ι W : T → Type}

-- Names for Keys and Values

/- The keys and values that names stand for. -/
def named (key : (t : T) → ι t → K t) (value : (t : T) → W t → V t) : Relabel T ι W K V :=
  ⟨key, value, id⟩

theorem named_header
    (key : (t : T) → ι t → K t) (value : (t : T) → W t → V t) (root : Option (RootHeader P)) :
    root.map (named key value).header = root := by
  cases root with
  | none => rfl
  | some root => rfl

/- The encoding of names, through what they stand for. -/
def Encoding.pull (e : Encoding P T K V) (key : (t : T) → ι t → K t) (value : (t : T) → W t → V t) :
    Encoding P T ι W where
  number := e.number
  keyData := fun t i => e.keyData t (key t i)
  valueData := fun t w => e.valueData t (value t w)
  tableType := e.tableType
  definitionTail := e.definitionTail

theorem Encoding.pull_storedData
    (e : Encoding P T K V) (key : (t : T) → ι t → K t) (value : (t : T) → W t → V t) (t : T)
    (v : StoredValue P T (W t)) :
    (e.pull key value).storedData t v = e.storedData t ((named key value).stored t v) := by
  cases v with
  | user w => rfl
  | definition =>
    simp only [storedData, Relabel.stored, named_header]
    rfl

variable [DecidableEq P]

/- The database whose keys and values are names. -/
def Engine.pull (e : Engine P T K V) (key : (t : T) → ι t → K t) (value : (t : T) → W t → V t)
    (hKey : ∀ t, Function.Injective (key t)) :
    Engine P T ι W where
  toEncoding := e.toEncoding.pull key value
  alloc := e.alloc
  address := e.address
  fmt := fun t =>
    { keyLen := fun i => (e.fmt t).keyLen (key t i)
      valueLen := fun v => (e.fmt t).valueLen ((named key value).stored t v)
      fixedKeySize := (e.fmt t).fixedKeySize
      fixedValueSize := (e.fmt t).fixedValueSize
      keyLen_eq := fun width hWidth i => (e.fmt t).keyLen_eq width hWidth (key t i)
      valueLen_eq := fun width hWidth v => (e.fmt t).valueLen_eq width hWidth _
      eq_of_width_zero := fun hWidth a b => hKey t ((e.fmt t).eq_of_width_zero hWidth _ _) }
  keyLen_data := fun t i => e.keyLen_data t (key t i)
  valueLen_data := by
    intro t v
    rw [e.toEncoding.pull_storedData]
    exact e.valueLen_data t _
  hash := e.hash

section Pull

variable [∀ t, Ord (K t)] [∀ t, Ord (ι t)] (e : Engine P T K V) (key₁ key₂ : (t : T) → ι t → K t)
    (value₁ value₂ : (t : T) → W t → V t) (hKey : ∀ t, Function.Injective (key₁ t))

theorem named_respects
    (hKeyLen : ∀ t i, (e.keyData t (key₂ t i)).length = (e.keyData t (key₁ t i)).length)
    (hValueLen : ∀ t w, (e.valueData t (value₂ t w)).length = (e.valueData t (value₁ t w)).length)
    (hOrder : ∀ t (a b : ι t), compare (key₂ t a) (key₂ t b) = compare a b) :
    (named key₂ value₂).Respects (e.pull key₁ value₁ hKey) e where
  alloc := rfl
  tail := rfl
  fixedKeySize := fun _ => rfl
  fixedValueSize := fun _ => rfl
  keyLen := hKeyLen
  valueLen := hValueLen
  compare := hOrder
  deferred := rfl

end Pull

theorem named_branch_digests
    (e : Engine P T K V) {key : (t : T) → ι t → K t} {value₁ value₂ : (t : T) → W t → V t}
    (hKey : ∀ t, Function.Injective (key t)) :
    (named key value₂).SameBranchDigests (e.pull key value₁ hKey) e := by
  intro t children keys
  have hChildren : children.map (((named key value₂).onTree (P := P) t).child
            (id : P → P)) = children :=
    map_id children
  simp only [Renaming.node, Engine.digest, Engine.nodeData, hChildren, Engine.branchData, map_map]
  rfl

theorem named_leaf_digest
    (e : Engine P T K V) {key : (t : T) → ι t → K t} {value : (t : T) → W t → V t}
    (hKey : ∀ t, Function.Injective (key t)) (t : T) (pairs : List (ι t × StoredValue P T (W t))) :
    e.digest t (((named key value).onTree t).node (.leaf pairs)) =
      (e.pull key value hKey).digest t (.leaf pairs) := by
  have hValues : (fun p : ι t × StoredValue P T (W t) =>
          (e.toEncoding.pull key value).storedData t p.2) =
        fun p => e.storedData t ((named key value).stored t p.2) := by
    funext p
    exact e.toEncoding.pull_storedData key value t p.2
  have hData : e.leafData t (pairs.map ((named key value).onTree t).pair) =
        (e.pull key value hKey).leafData t pairs := by
    simp only [Engine.leafData, map_map, length_map]
    rw [show (e.pull key value hKey).toEncoding = e.toEncoding.pull key value from rfl, hValues]
    rfl
  exact congrArg e.hash hData

-- Files

/- Logs whose writes are seen alike are seen as one file. -/
theorem fileCells_congr (e : Engine P T K V) (sum : Checksum → List Cell) {X : Type}
    (write₁ write₂ : X → FileWrite P T K V) (log : List X)
    (hSame : ∀ x ∈ log, ∀ file, e.applyWrite sum file (write₁ x) =
        e.applyWrite sum file (write₂ x)) :
    e.fileCells sum (log.map write₁) = e.fileCells sum (log.map write₂) := by
  unfold Engine.fileCells
  generalize (fun _ => some 0 : Nat → Cell) = file
  induction log generalizing file with
  | nil => rfl
  | cons x rest ih =>
    simp only [map_cons, foldl_cons]
    rw [hSame x mem_cons_self file]
    exact ih (fun y hy => hSame y (mem_cons_of_mem x hy)) _

theorem fileCells_of_values
    (e : Engine P T K V) (sum : Checksum → List Cell) (key : (t : T) → ι t → K t)
    (value₁ value₂ : (t : T) → W t → V t) (log : List (FileWrite P T ι W)) :
    e.fileCells sum (log.map (named key value₁).write) = e.fileCells sum
        (log.map (named key value₂).write) := by
  apply fileCells_congr
  intro w _ file
  cases w with
  | page t p node =>
    cases node with
    | leaf => rfl
    | branch => rfl
  | slot => rfl
  | front data => rfl
  | resize => rfl

-- Runs with Other Values

section Runs

variable (e : Engine P T K V)

/- The leaves that a step hashes have the same hashes in two databases. -/
def Engine.SameLeafChecksums (s₁ s₂ : Store P T K V) : Event P T K V → Prop
  | .finalize t =>
    (rootDirtyLeaves s₁.uncommitted (s₁.roots t)).map (fun pairs => e.digest t (.leaf pairs)) =
      (rootDirtyLeaves s₂.uncommitted (s₂.roots t)).map (fun pairs => e.digest t (.leaf pairs))
  | _ => True

/- A database hashes the same leaves as itself. -/
theorem Engine.SameLeafChecksums.refl (s : Store P T K V) (event : Event P T K V) :
    e.SameLeafChecksums s s event := by
  cases event with
  | finalize t => rfl
  | call | record | writePage | writeSlot | writeFront | resize | commit | release | restore
    => trivial

/- The values that names stand for. -/
def valued (value : (t : T) → W t → V t) : Relabel T K W K V := named (fun _ => id) value

/- The database whose values are names. -/
def Engine.pullValues (value : (t : T) → W t → V t) : Engine P T K W :=
  e.pull (fun _ => id) value (fun _ => Function.injective_id)

variable {value₁ value₂ : (t : T) → W t → V t}

/- Equal hashes of leaves, seen from their names. -/
theorem sameDigests_of_checksums
    {s : Store P T K W} {event : Event P T K W} {event₁ : Event P T K V}
    (hSame : (valued value₁).SameEvent event event₁)
    (hChecksums : e.SameLeafChecksums ((valued value₁).store s) ((valued value₂).store s) event₁) :
    (valued value₂).SameDigests (e.pullValues value₁) e s event := by
  cases hSame with
  | finalize t =>
    have hLeaves : ∀ value : (t : T) → W t → V t, rootDirtyLeaves
            ((valued (K := K) value).store s).uncommitted (((valued value).store s).roots t) =
          (rootDirtyLeaves s.uncommitted (s.roots t)).map
            (List.map ((valued value).onTree t).pair) :=
      fun value => rootDirtyLeaves_rename _ _
    simp only [Engine.SameLeafChecksums, hLeaves, map_map] at hChecksums
    intro pairs hPairs
    have hPair := map_inj_left.mp hChecksums pairs hPairs
    exact hPair.symm.trans (named_leaf_digest e (fun _ => Function.injective_id) t pairs)
  | call | record | writePage | writeSlot | writeFront | resize | commit | release | restore
    => trivial

variable [DecidableEq T] [∀ t, Ord (K t)]

/- A condition on two databases holds before every step. -/
def Engine.Meets (condition : Store P T K V → Store P T K V → Event P T K V → Prop) :
    List (Event P T K V) →
    List (Event P T K V) →
    Store P T K V →
    Store P T K V →
    Prop
  | event₁ :: rest₁, event₂ :: rest₂, s₁, s₂ =>
    condition s₁ s₂ event₁ ∧ ∀ s₁' s₂', e.step s₁ event₁ = .ok s₁' →
        e.step s₂ event₂ = .ok s₂' → Engine.Meets condition rest₁ rest₂ s₁' s₂'
  | _, _, _, _ => True

/- Two runs of one script are the run on names, as long as the hashes of the leaves agree. -/
theorem runs_of_values
    (hLen : ∀ t w, (e.valueData t (value₂ t w)).length = (e.valueData t (value₁ t w)).length)
    {script : List (Event P T K W)} {events₁ events₂ : List (Event P T K V)}
    (hSame₁ : List.Forall₂ (valued value₁).SameEvent script events₁)
    (hSame₂ : List.Forall₂ (valued value₂).SameEvent script events₂) (s : Store P T K W)
    (hMeets : e.Meets e.SameLeafChecksums events₁ events₂
      ((valued value₁).store s) ((valued value₂).store s)) :
    e.run ((valued value₁).store s) events₁ = ((e.pullValues value₁).run s script).map
          (valued value₁).store ∧
      e.run ((valued value₂).store s) events₂ = ((e.pullValues value₁).run s script).map
          (valued value₂).store := by
  have hf₁ : (valued value₁).Respects (e.pullValues value₁) e :=
    named_respects e _ _ _ _ _ (fun _ _ => rfl) (fun _ _ => rfl) (fun _ _ _ => rfl)
  have hf₂ : (valued value₂).Respects (e.pullValues value₁) e :=
    named_respects e _ _ _ _ _ (fun _ _ => rfl) hLen (fun _ _ _ => rfl)
  have hBranches : ∀ value : (t : T) → W t → V t, (valued value).SameBranchDigests
        (e.pullValues value₁) e :=
    fun value => named_branch_digests e _
  induction hSame₁ generalizing events₂ s with
  | nil =>
    cases hSame₂
    exact ⟨rfl, rfl⟩
  | cons hEvent₁ _ ih =>
    cases hSame₂ with
    | cons hEvent₂ hRest₂ =>
      rcases hMeets with ⟨hChecksums, hNext⟩
      have hStep₁ := step_relabel hf₁ (hBranches value₁) s hEvent₁
          (sameDigests_of_checksums e hEvent₁ (.refl e _ _))
      have hStep₂ := step_relabel hf₂ (hBranches value₂) s hEvent₂
          (sameDigests_of_checksums e hEvent₁ hChecksums)
      simp only [Engine.run]
      cases hDone : (e.pullValues value₁).step s _ with
      | error =>
        rw [hDone] at hStep₁ hStep₂
        rw [hStep₁, hStep₂]
        exact ⟨rfl, rfl⟩
      | ok s' =>
        rw [hDone] at hStep₁ hStep₂
        rw [hStep₁, hStep₂]
        exact ih hRest₂ s' (hNext _ _ hStep₁ hStep₂)

/- The writes of a run, each with the nonce it is made under. -/
def Engine.writeLog
    (e : Engine P T K V)
    (cipher : PageCipher)
    (nonces : List Nonce)
    (log : List (FileWrite P T K V)) : Except IoError Bytes :=
  (nonces.zip log).foldlM (e.writeFile cipher) []

/- Files written from logs that are seen alike agree wherever they are seen. -/
theorem writeLog_agrees
    {cipher : PageCipher}
    (hGcm : cipher.AesGcm)
    {log₁ log₂ : List (FileWrite P T K V)}
    (hCells : e.fileCells checksumShown log₁ = e.fileCells checksumShown log₂)
    {nonces₁ nonces₂ : List Nonce}
    (hNonces₁ : nonces₁.length = log₁.length)
    (hNonces₂ : nonces₂.length = log₂.length) :
    ∃ file₁ file₂, e.writeLog cipher nonces₁ log₁ = .ok file₁ ∧
      e.writeLog cipher nonces₂ log₂ = .ok file₂ ∧
      ∀ i, e.fileCells checksumShown log₁ i ≠ none → file₁.getD i 0 = file₂.getD i 0 := by
  rcases encrypted_file_shows_cells e hGcm (nonces₁.zip log₁) with ⟨file₁, hFile₁, hShows₁⟩
  rcases encrypted_file_shows_cells e hGcm (nonces₂.zip log₂) with ⟨file₂, hFile₂, hShows₂⟩
  rw [map_snd_zip (Nat.le_of_eq hNonces₁.symm)] at hShows₁
  rw [map_snd_zip (Nat.le_of_eq hNonces₂.symm)] at hShows₂
  refine ⟨file₁, file₂, hFile₁, hFile₂, ?_⟩
  intro i hSeen
  rcases Option.ne_none_iff_exists'.mp hSeen with ⟨byte, hByte⟩
  rw [hShows₁ i byte hByte, hShows₂ i byte (hCells ▸ hByte)]

/-
  Two runs over normal tables that store other values of the same lengths end alike if, whenever
  checksums are computed, the leaves that are hashed have the same hashes in both. The files that
  they write then agree on every byte outside the nonces and ciphertexts of leaf pages, whatever the
  nonces are. The values of a multimap are keys of its subtrees, and as keys they are the same in
  both runs.
-/
theorem same_checksums_same_file
    {cipher : PageCipher}
    (hGcm : cipher.AesGcm)
    (hLen : ∀ t w, (e.valueData t (value₂ t w)).length = (e.valueData t (value₁ t w)).length)
    {script : List (Event P T K W)}
    {events₁ events₂ : List (Event P T K V)}
    (hSame₁ : List.Forall₂ (valued value₁).SameEvent script events₁)
    (hSame₂ : List.Forall₂ (valued value₂).SameEvent script events₂)
    (hMeets : e.Meets e.SameLeafChecksums events₁ events₂ Store.empty Store.empty) :
    (∃ panic, e.run Store.empty events₁ = .error panic ∧
      e.run Store.empty events₂ = .error panic) ∨
    ∃ s₁ s₂, e.run Store.empty events₁ = .ok s₁ ∧ e.run Store.empty events₂ = .ok s₂ ∧
      ∀ nonces₁ nonces₂ : List Nonce, nonces₁.length = s₁.log.length →
        nonces₂.length = s₂.log.length →
        ∃ file₁ file₂, e.writeLog cipher nonces₁ s₁.log = .ok file₁ ∧
          e.writeLog cipher nonces₂ s₂.log = .ok file₂ ∧
          ∀ i, e.fileCells checksumShown s₁.log i ≠ none → file₁.getD i 0 = file₂.getD i 0 := by
  rcases runs_of_values e hLen hSame₁ hSame₂ Store.empty hMeets with ⟨hRun₁, hRun₂⟩
  change e.run Store.empty events₁ = _ at hRun₁
  change e.run Store.empty events₂ = _ at hRun₂
  cases hRun : (e.pullValues value₁).run Store.empty script with
  | error panic =>
    rw [hRun] at hRun₁ hRun₂
    exact Or.inl ⟨panic, hRun₁, hRun₂⟩
  | ok s =>
    rw [hRun] at hRun₁ hRun₂
    refine Or.inr ⟨_, _, hRun₁, hRun₂, ?_⟩
    intro nonces₁ nonces₂ hNonces₁ hNonces₂
    exact writeLog_agrees e hGcm
      (fileCells_of_values e checksumShown (fun _ => id) value₁ value₂ s.log) hNonces₁ hNonces₂

/- Two runs are followed, and their dirty leaves compared before every step. -/
def Engine.checkRuns :
    List (Event P T K V) → List (Event P T K V) → Store P T K V → Store P T K V → Bool
  | event₁ :: rest₁, event₂ :: rest₂, s₁, s₂ =>
    (match event₁ with
      | .finalize t =>
        decide ((rootDirtyLeaves s₁.uncommitted (s₁.roots t)).map
            (fun pairs => e.digest t (.leaf pairs)) =
          (rootDirtyLeaves s₂.uncommitted (s₂.roots t)).map (fun pairs => e.digest t (.leaf pairs)))
      | _ => true) &&
    (match e.step s₁ event₁, e.step s₂ event₂ with
      | .ok s₁', .ok s₂' => Engine.checkRuns rest₁ rest₂ s₁' s₂'
      | _, _ => true)
  | _, _, _, _ => true

theorem Engine.meets_of_checkRuns
    (events₁ events₂ : List (Event P T K V))
    (s₁ s₂ : Store P T K V)
    (hCheck : e.checkRuns events₁ events₂ s₁ s₂ = true) :
    e.Meets e.SameLeafChecksums events₁ events₂ s₁ s₂ := by
  induction events₁ generalizing events₂ s₁ s₂ with
  | nil => cases events₂ <;> trivial
  | cons event₁ rest₁ ih =>
    cases events₂ with
    | nil => trivial
    | cons event₂ rest₂ =>
      simp only [checkRuns, Bool.and_eq_true] at hCheck
      rcases hCheck with ⟨hLeaves, hRest⟩
      refine ⟨?_, ?_⟩
      · cases event₁ with
        | finalize t =>
          have hSame := of_decide_eq_true hLeaves
          exact hSame
        | call | record | writePage | writeSlot | writeFront | resize | commit | release | restore
          => trivial
      · intro s₁' s₂' hStep₁ hStep₂
        rw [hStep₁, hStep₂] at hRest
        exact ih rest₂ s₁' s₂' hRest

end Runs

-- A Hash That Shows a Value

/- `DEFAULT_SECRET` from byte 32 to byte 63. -/
def secretWords : Bytes :=
  [0xcb, 0x79, 0xe6, 0x4e, 0xcc, 0xc0, 0xe5, 0x78, 0x82, 0x5a, 0xd0, 0x7d, 0xcc, 0xff, 0x72, 0x21,
    0xb8, 0x08, 0x46, 0x74, 0xf7, 0x43, 0x24, 0x8e, 0xe0, 0x35, 0x90, 0xe6, 0x81, 0x3a, 0x26, 0x4c]

def xorshift (x shift : Nat) : Nat := x ^^^ (x >>> shift)

def xxh3Avalanche (x : Nat) : Nat := xorshift (xorshift x 37 * 0x165667919E3779F9 % 2 ^ 64) 32

/- `u64::swap_bytes`. -/
def swapBytes (x : Nat) : Nat := ofLe (toLe 8 x).reverse

/- `hash128_9to16` with seed 0: the hash of a page of which 9 to 16 bytes are used. -/
def hash128For9to16 (data : Bytes) : Nat :=
  let sLow := ofLe (secretWords.slice 0 8) ^^^ ofLe (secretWords.slice 8 8)
  let sHigh := ofLe (secretWords.slice 16 8) ^^^ ofLe (secretWords.slice 24 8)
  let xLow := ofLe (data.slice 0 8)
  let xHigh := ofLe (data.slice (data.length - 8) 8)
  let mixed := xLow ^^^ xHigh ^^^ sLow
  let xHigh := xHigh ^^^ sHigh
  let result := mixed * 0x9E3779B185EBCA87
  let rLow := (result + (data.length - 1) * 2 ^ 54) % 2 ^ 64
  let rHigh := (result / 2 ^ 64 + xHigh + xHigh % 2 ^ 32 * (0x85EBCA77 - 1)) % 2 ^ 64
  let rLow := rLow ^^^ swapBytes rHigh
  let result2 := rLow * 0xC2B2AE3D27D4EB4F
  let r2Low := result2 % 2 ^ 64
  let r2High := (result2 / 2 ^ 64 + rHigh * 0xC2B2AE3D27D4EB4F) % 2 ^ 64
  xxh3Avalanche r2High * 2 ^ 64 + xxh3Avalanche r2Low

/- A user table, the table tree and the system tree. -/
inductive SampleTable where
  | data
  | tables
  | system
  deriving DecidableEq

/- A byte, or a value that fills a page. -/
inductive SampleValue where
  | small (byte : UInt8)
  | large
  deriving DecidableEq

def sampleEncoding : Encoding (Nat × Nat) SampleTable (fun _ => UInt8) (fun _ => SampleValue) where
  number := fun p => PageNumber.ofWord (p.2 + p.1 * 2 ^ 59)
  keyData := fun _ k => [k]
  valueData := fun _ v => match v with
    | .small byte => [byte]
    | .large => zeros pageSize
  tableType := fun _ => 3
  definitionTail := fun _ => zeros 18

/- One-byte keys, of fixed width in the user table. -/
def sampleFormat (t : SampleTable) :
    Format UInt8 (StoredValue (Nat × Nat) SampleTable SampleValue) where
  keyLen := fun _ => 1
  valueLen := fun v => match v with
    | .user (.small _) => 1
    | .user .large => pageSize
    | .definition _ _ => 60
  fixedKeySize :=
    match t with
    | .data => some 1
    | _ => none
  fixedValueSize := none
  keyLen_eq := by
    intro width hWidth k
    cases t with
    | data =>
      cases hWidth
      rfl
    | tables | system => cases hWidth
  valueLen_eq := fun width hWidth => by cases hWidth
  eq_of_width_zero := by
    intro hWidth
    cases t with
    | data | tables | system => cases hWidth

/- Pages of at most two units, one after another. -/
def sampleEngine (hash : Bytes → Checksum) :
    Engine (Nat × Nat) SampleTable (fun _ => UInt8) (fun _ => SampleValue) where
  toEncoding := sampleEncoding
  alloc := natAllocator
  address := fun p => p.2 * (2 * pageSize)
  fmt := sampleFormat
  keyLen_data := fun _ _ => rfl
  valueLen_data := by
    intro t v
    cases v with
    | user value =>
      cases value with
      | small byte => rfl
      | large => exact (length_zeros _).symm
    | definition =>
      simp only [Encoding.storedData, Encoding.length_definitionData]
      rfl
  hash := hash

/- The hash of short pages; the others are not compared. -/
def sampleHash (data : Bytes) : Checksum :=
  match data.drop 16 with
  | [] => BitVec.ofNat 128 (hash128For9to16 data)
  | _ => 0

/- A page-filling value and a byte are stored in a table, and the transaction is committed. -/
def commitOf (byte : UInt8) :
    List (Event (Nat × Nat) SampleTable (fun _ => UInt8) (fun _ => SampleValue)) :=
  [.call .data (.call (.insert 1 .large)), .call .data (.call (.insert 2 (.small byte))),
    .finalize .data, .record .data .tables 7, .finalize .tables, .writePage .data (1, 1),
    .writePage .data (0, 2), .writePage .data (0, 3), .writePage .tables (0, 4),
    .writeSlot 0 .tables .system 1, .commit]

/-
  The leaf of the byte is the second child of the branch in page 3, and its checksum is not the same
  for 1 and for 2.
-/
theorem checksum_shows_value : ((sampleEngine sampleHash).run Store.empty (commitOf 1)).toOption.map
        (fun s => (sampleEngine sampleHash).fileCells checksumShown s.log (3 * 8192 + 24)) =
      some (some 249) ∧
    ((sampleEngine sampleHash).run Store.empty (commitOf 2)).toOption.map
        (fun s => (sampleEngine sampleHash).fileCells checksumShown s.log (3 * 8192 + 24)) =
      some (some 123) := by
  decide +kernel

/- The values as names: the large one, the byte, and a byte that is stored over it. -/
def valueNamed (byte : UInt8) (_ : SampleTable) : Fin 3 → SampleValue
  | 0 => .large
  | 1 => .small byte
  | 2 => .small 9

/- The byte is stored and its page written out; then it is overwritten, and all is committed. -/
def overwriteScript : List (Event (Nat × Nat) SampleTable (fun _ => UInt8) (fun _ => Fin 3)) :=
  [.call .data (.call (.insert 1 0)), .call .data (.call (.insert 2 1)), .writePage .data (0, 2),
    .call .data (.call (.insert 2 2)), .finalize .data, .record .data .tables 7, .finalize .tables,
    .writePage .data (1, 1), .writePage .data (0, 2), .writePage .data (0, 3),
    .writePage .tables (0, 4), .writeSlot 0 .tables .system 1, .commit]

def overwriteOf (byte : UInt8) :
    List (Event (Nat × Nat) SampleTable (fun _ => UInt8) (fun _ => SampleValue)) :=
  [.call .data (.call (.insert 1 .large)), .call .data (.call (.insert 2 (.small byte))),
    .writePage .data (0, 2), .call .data (.call (.insert 2 (.small 9))), .finalize .data,
    .record .data .tables 7, .finalize .tables, .writePage .data (1, 1), .writePage .data (0, 2),
    .writePage .data (0, 3), .writePage .tables (0, 4), .writeSlot 0 .tables .system 1, .commit]

theorem overwrite_sameEvents (byte : UInt8) :
    List.Forall₂ (valued (valueNamed byte)).SameEvent overwriteScript (overwriteOf byte) :=
  .cons (.call _ (.call (.insert 1 0))) <| .cons (.call _ (.call (.insert 2 1))) <|
    .cons (.writePage _ _) <| .cons (.call _ (.call (.insert 2 2))) <| .cons (.finalize _) <|
    .cons (.record _ _ _) <| .cons (.finalize _) <| .cons (.writePage _ _) <|
    .cons (.writePage _ _) <| .cons (.writePage _ _) <| .cons (.writePage _ _) <|
    .cons (.writeSlot _ _ _ _) <| .cons .commit .nil

/- A byte that was written out and then overwritten does not show in the committed files. -/
theorem overwritten_value_same_file :
    ∃ s₁ s₂, (sampleEngine sampleHash).run Store.empty (overwriteOf 1) = .ok s₁ ∧
      (sampleEngine sampleHash).run Store.empty (overwriteOf 2) = .ok s₂ ∧
      ∀ nonces₁ nonces₂ : List Nonce, nonces₁.length = s₁.log.length →
        nonces₂.length = s₂.log.length →
        ∃ file₁ file₂, (sampleEngine sampleHash).writeLog (keyedCipher 7) nonces₁ s₁.log =
            .ok file₁ ∧
          (sampleEngine sampleHash).writeLog (keyedCipher 7) nonces₂ s₂.log = .ok file₂ ∧
          ∀ i, (sampleEngine sampleHash).fileCells checksumShown s₁.log i ≠ none →
            file₁.getD i 0 = file₂.getD i 0 := by
  have hLen (t : SampleTable) (name : Fin 3) :
      (sampleEncoding.valueData t (valueNamed 2 t name)).length =
        (sampleEncoding.valueData t (valueNamed 1 t name)).length := by
    match name with
    | 0 | 1 | 2 => rfl
  have hMeets : (sampleEngine sampleHash).Meets (sampleEngine sampleHash).SameLeafChecksums
      (overwriteOf 1) (overwriteOf 2) Store.empty Store.empty := by
    apply Engine.meets_of_checkRuns
    decide +kernel
  have hEnds : ((sampleEngine sampleHash).run Store.empty (overwriteOf 1)).toOption.isSome := by
    decide +kernel
  rcases same_checksums_same_file (sampleEngine sampleHash) (keyedCipher_aesGcm 7) hLen
    (overwrite_sameEvents 1) (overwrite_sameEvents 2) hMeets with ⟨_, hPanic, _⟩ | hFiles
  · rw [hPanic] at hEnds
    cases hEnds
  · exact hFiles

end Redbx
