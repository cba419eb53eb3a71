import Redbx.Btree.Checksums
import Redbx.PageStore.Header

/-
  A database of many tables and the file it is written to.

  All tables take their pages from one allocator. The root of a table is recorded, as a table
  definition, in the leaf of another tree, and the roots of the two table trees stand in the commit
  slot. What reaches the file is kept as the list of writes, and `fileCells` is the file as it is
  seen without the key: the nonce and the ciphertext of a leaf page are hidden, everything else is
  shown.

  Key theorems include:
    * `Engine.branchCells_shown`, `Engine.slotCells_shown`
-/

namespace Redbx

open Bytes Redbx.Tree

-- StoredValue Values

/- `BtreeHeader`: where the root of a tree is found. -/
structure RootHeader (P : Type) where
  page : P
  checksum : Checksum
  length : Nat
  deriving DecidableEq

/- The header of a root. -/
def BtreeRoot.header {P K V : Type} (root : BtreeRoot P K V) : RootHeader P :=
  ⟨page root.height root.tree, root.checksum, root.length⟩

/-
  What a leaf stores: the value of a user, or the definition of a table, which names the root of its
  tree.
-/
inductive StoredValue (P T V : Type) where
  | user (value : V)
  | definition (table : T) (root : Option (RootHeader P))
  deriving DecidableEq

namespace StoredValue

variable {P T V : Type}

/- A predicate on the values of a user. -/
def holds (predicate : V → Bool) : StoredValue P T V → Bool
  | .user value => predicate value
  | .definition _ _ => false

end StoredValue

/- A call on a table, whose values are those of a user. -/
def TableCall.stored {K V : Type} (P T : Type) : TableCall K V → TableCall K (StoredValue P T V)
  | .call c =>
    .call (Renaming.call ⟨id, StoredValue.user, id⟩ c)
  | .retain inRange predicate =>
    .retain inRange fun k v => v.holds (predicate k)
  | .extractIf inRange predicate sides =>
    .extractIf inRange (fun k v => v.holds (predicate k)) sides

-- Page Contents

/-
  How keys, values and table definitions are encoded: each table has its own types of keys and
  values.
-/
structure Encoding (P T : Type) (K V : T → Type) where
  number : P → PageNumber
  keyData : (t : T) → K t → Bytes
  valueData : (t : T) → V t → Bytes
  /- the type of a table, and the rest of its definition -/
  tableType : T → UInt8
  definitionTail : T → Bytes

namespace Encoding

variable {P T : Type} {K V : T → Type} (e : Encoding P T K V)

/- A root as it stands in a definition or a commit slot. -/
def btreeHeader (root : RootHeader P) : BtreeHeader :=
  ⟨e.number root.page, root.checksum, UInt64.ofNat root.length⟩

/- `InternalTableDefinition::as_bytes`. -/
def definitionData (table : T) (root : Option (RootHeader P)) : Bytes :=
  [e.tableType table] ++ (toLe 8 ((root.map RootHeader.length).getD 0) ++
      (TransactionHeader.rootFlag (root.map e.btreeHeader) :: (TransactionHeader.rootBytes
            (root.map e.btreeHeader) ++
          e.definitionTail table)))

def storedData (t : T) : StoredValue P T (V t) → Bytes
  | .user value => e.valueData t value
  | .definition table root => e.definitionData table root

end Encoding

/-
  The tables of a database, the allocator of their pages and where the pages lie. The hash
  `xxh3_checksum` is a parameter.
-/
structure Engine (P T : Type) (K V : T → Type) [DecidableEq P] extends Encoding P T K V where
  alloc : PageAllocator P
  address : P → Nat
  fmt : (t : T) → Format (K t) (StoredValue P T (V t))
  keyLen_data : ∀ t k, (fmt t).keyLen k = (keyData t k).length
  valueLen_data : ∀ t v, (fmt t).valueLen v = (toEncoding.storedData t v).length
  hash : Bytes → Checksum

/- The end of each field, fields lying one after another. -/
def endOffsets : Nat → List Bytes → Bytes
  | _, [] => []
  | start, field :: rest =>
    toLe 4 (start + field.length) ++ endOffsets (start + field.length) rest

namespace Engine

variable {P T : Type} {K V : T → Type} [DecidableEq P] (e : Engine P T K V)

/- The environment of a table's tree. -/
def env (t : T) : BtreeEnv P (K t) (StoredValue P T (V t)) := ⟨e.fmt t, e.alloc⟩

/- The used part of a leaf, as `RawLeafBuilder` leaves it. -/
def leafData (t : T) (pairs : List (K t × StoredValue P T (V t))) : Bytes :=
  let keys := pairs.map fun p => e.keyData t p.1
  let values := pairs.map fun p => e.storedData t p.2
  let keyEnds := (e.fmt t).fixedKeySize.isNone
  let valueEnds := (e.fmt t).fixedValueSize.isNone
  let start := 4 + (if keyEnds then 4 * pairs.length else 0) +
      (if valueEnds then 4 * pairs.length else 0)
  [leafTag, 0] ++ toLe 2 pairs.length ++ (if keyEnds then endOffsets start keys else []) ++
    (if valueEnds then endOffsets (start + keys.flatten.length) values else []) ++
    keys.flatten ++ values.flatten

/-
  The used part of a branch, as `RawBranchBuilder` leaves it, without the checksums of the children.
-/
def branchHead (keys : List Bytes) : Bytes := [branchTag, 0] ++ toLe 2 keys.length ++ zeros 4

def branchTail (t : T) (children : List P) (keys : List Bytes) : Bytes :=
  let keyEnds := (e.fmt t).fixedKeySize.isNone
  let start := 8 + 24 * children.length + (if keyEnds then 4 * keys.length else 0)
  children.flatMap (fun p => (e.number p).toLeBytes) ++
    (if keyEnds then endOffsets start keys else []) ++
    keys.flatten

def branchData (t : T) (children : List (P × Checksum)) (keys : List (K t)) : Bytes :=
  branchHead (keys.map (e.keyData t)) ++ children.flatMap (fun c => toLe 16 c.2.toNat) ++
    e.branchTail t (children.map Prod.fst) (keys.map (e.keyData t))

/- The used part of a page. -/
def nodeData (t : T) : Node P (K t) (StoredValue P T (V t)) → Bytes
  | .leaf pairs => e.leafData t pairs
  | .branch children keys => e.branchData t children keys

/- `leaf_checksum` and `branch_checksum`. -/
def digest (t : T) (node : Node P (K t) (StoredValue P T (V t))) : Checksum :=
  e.hash (e.nodeData t node)

end Engine

-- The Database

/- A write to the file. -/
inductive FileWrite (P T : Type) (K V : T → Type) where
  | page (t : T) (p : P) (node : Node P (K t) (StoredValue P T (V t)))
  | slot (which : Fin 2) (user system : Option (RootHeader P)) (transactionId : UInt64)
  | front (data : Bytes)
  | resize (length : Nat)

/-
  The trees with their pages, the marks of all pages, the roots of earlier commits, latest first,
  and what has been written to the file.
-/
structure Store (P T : Type) (K V : T → Type) [DecidableEq P] where
  roots : (t : T) → TreeRoot P (K t) (StoredValue P T (V t))
  pages : (t : T) → P → Option (Node P (K t) (StoredValue P T (V t)))
  committed : Finset P
  uncommitted : Finset P
  disjoint : Disjoint committed uncommitted
  freed : List P
  saved : List ((t : T) → TreeRoot P (K t) (StoredValue P T (V t)))
  log : List (FileWrite P T K V)

/-
  A step of the database.
    * `call`: a call on a table.
    * `finalize`: the checksums of a tree are computed.
    * `record`: the root of one tree is inserted into another as a table definition.
    * `writePage`: the page cache writes a page out, which it does at a commit and whenever it is full.
    * `writeSlot`, `writeFront`: the commit slots and the header in front of them.
    * `commit`: the pages allocated so far are committed.
    * `release`: a page is given back to the allocator.
    * `restore`: the roots of an earlier commit are taken, by an abort or for a savepoint.
-/
inductive Event (P T : Type) (K V : T → Type) where
  | call (t : T) (c : TableCall (K t) (V t))
  | finalize (t : T)
  | record (t u : T) (name : K u)
  | writePage (t : T) (p : P)
  | writeSlot (which : Fin 2) (user system : T) (transactionId : UInt64)
  | writeFront (data : Bytes)
  | resize (length : Nat)
  | commit
  | release (p : P)
  | restore (i : Nat)

namespace Store

variable {P T : Type} {K V : T → Type} [DecidableEq P]

/- A database without tables. -/
def empty : Store P T K V where
  roots := fun _ => none
  pages := fun _ _ => none
  committed := ∅
  uncommitted := ∅
  disjoint := disjoint_empty P
  freed := []
  saved := []
  log := []

/- One tree, with the page memory as its table sees it. -/
def tree (s : Store P T K V) (t : T) : BtreeState P (K t) (StoredValue P T (V t)) :=
  ⟨s.roots t,
    { pages := s.pages t
      committed := s.committed
      uncommitted := s.uncommitted
      disjoint := s.disjoint
      freed := s.freed }⟩

/- The database after a table has worked on its tree. -/
def put [DecidableEq T] (s : Store P T K V) (t : T)
    (tree : BtreeState P (K t) (StoredValue P T (V t))) :
    Store P T K V :=
  { s with
    roots := Function.update s.roots t tree.root
    pages := Function.update s.pages t tree.mem.pages
    committed := tree.mem.committed
    uncommitted := tree.mem.uncommitted
    disjoint := tree.mem.disjoint
    freed := tree.mem.freed }

def write (s : Store P T K V) (w : FileWrite P T K V) : Store P T K V :=
  { s with log := s.log ++ [w] }

/- The pages in use become committed. -/
def commit (s : Store P T K V) : Store P T K V :=
  { s with
    committed := s.committed ∪ s.uncommitted
    uncommitted := ∅
    disjoint := Finset.disjoint_empty_right _
    freed := []
    saved := s.roots :: s.saved }

/- A page becomes free. -/
def release (s : Store P T K V) (p : P) : Store P T K V :=
  { s with
    committed := s.committed.erase p
    uncommitted := s.uncommitted.erase p
    disjoint := Disjoint.mono (Finset.erase_subset _ _) (Finset.erase_subset _ _) s.disjoint }

end Store

namespace Engine

variable {P T : Type} {K V : T → Type} [DecidableEq P] [DecidableEq T] [∀ t, Ord (K t)]
    (e : Engine P T K V)

/- One step. -/
def step (s : Store P T K V) : Event P T K V → Except Panic (Store P T K V)
  | .call t c => do
    let tree ← (e.env t).tableCall (s.tree t) (c.stored P T)
    return s.put t tree
  | .finalize t => do
    let (root, mem) ← finalizeDirtyChecksums (e.digest t) (s.tree t).root (s.tree t).mem
    return s.put t ⟨root, mem⟩
  | .record t u name => do
    let (_, root, mem) ← (e.env u).insert true (s.tree u).root name
      (.definition t ((s.roots t).map BtreeRoot.header)) (s.tree u).mem
    return s.put u ⟨root, mem⟩
  | .writePage t p =>
    match s.pages t p with
    | none => return s
    | some node => return s.write (.page t p node)
  | .writeSlot which user system transactionId =>
    return s.write (.slot which ((s.roots user).map BtreeRoot.header)
      ((s.roots system).map BtreeRoot.header) transactionId)
  | .writeFront data => return s.write (.front data)
  | .resize length => return s.write (.resize length)
  | .commit => return s.commit
  | .release p => return s.release p
  | .restore i =>
    match s.saved[i]? with
    | none => return s
    | some roots => return { s with roots := roots }

/- The steps one after another. -/
def run : Store P T K V → List (Event P T K V) → Except Panic (Store P T K V)
  | s, [] => return s
  | s, event :: rest => do
    let s ← e.step s event
    run s rest

end Engine

-- The File without the Key

/- A byte of the file; the bytes of ciphertext are hidden. -/
abbrev Cell := Option UInt8

/- All bytes shown. -/
def shown (data : Bytes) : List Cell := data.map some

/- The file after cells were written at an offset. -/
def writeCells (file : Nat → Cell) (offset : Nat) (cells : List Cell) : Nat → Cell :=
  fun i => if offset ≤ i then
      (cells[i - offset]?).getD (file i)
    else
      file i

/- A checksum that is looked at. -/
def checksumShown (checksum : Checksum) : List Cell := shown (toLe 16 checksum.toNat)

/- A checksum that is left aside. -/
def checksumHidden (_ : Checksum) : List Cell := List.replicate 16 none

namespace Engine

variable
    {P T : Type} {K V : T → Type} [DecidableEq P] (e : Engine P T K V) (sum : Checksum → List Cell)

/- A branch page, its checksums seen as `sum` says. -/
def branchCells (t : T) (children : List (P × Checksum)) (keys : List (K t)) : List Cell :=
  shown (branchHead (keys.map (e.keyData t))) ++ children.flatMap (fun c => sum c.2) ++
    shown (e.branchTail t (children.map Prod.fst) (keys.map (e.keyData t)))

/-
  A page as `encrypt_and_write` writes it: of a leaf its type in front of nonce and ciphertext,
  which together fill one page, and a branch as it is.
-/
def pageCells (t : T) (p : P) : Node P (K t) (StoredValue P T (V t)) → List Cell
  | .leaf _ =>
    some leafTag :: List.replicate (pageSize - 1) none
  | .branch children keys =>
    let cells := e.branchCells sum t children keys
    cells ++ shown (zeros (pageBytes (e.alloc.order p) - cells.length))

/- A root in a commit slot. -/
def rootCells : Option (RootHeader P) → List Cell
  | none => shown (zeros 32)
  | some root =>
    shown (e.number root.page).toLeBytes ++ sum root.checksum ++
      shown (toLe 8 (UInt64.ofNat root.length).toNat)

/- The slot that two roots are written to. -/
def transaction (user system : Option (RootHeader P)) (transactionId : UInt64) :
    TransactionHeader :=
  ⟨user.map e.btreeHeader, system.map e.btreeHeader, transactionId⟩

/- `TransactionHeader::to_bytes`. -/
def slotCells (user system : Option (RootHeader P)) (transactionId : UInt64) : List Cell :=
  shown [fileFormatVersion3, TransactionHeader.rootFlag (user.map e.btreeHeader),
      TransactionHeader.rootFlag (system.map e.btreeHeader), 0, 0, 0, 0, 0] ++
    (e.rootCells sum user ++ (e.rootCells sum system ++ (shown (zeros 32) ++
          (shown (toLe 8 transactionId.toNat) ++ sum (e.hash (e.transaction user system
                transactionId).body)))))

/- One write, applied to the file as it is seen. -/
def applyWrite (file : Nat → Cell) : FileWrite P T K V → Nat → Cell
  | .page t p node =>
    writeCells file (e.address p) (e.pageCells sum t p node)
  | .slot which user system transactionId =>
    writeCells file (64 + 128 * which.val) (e.slotCells sum user system transactionId)
  | .front data => writeCells file 0 (shown data)
  | .resize length =>
    fun i => if i < length then file i else some 0

/- The file after all writes. -/
def fileCells (log : List (FileWrite P T K V)) : Nat → Cell :=
  log.foldl (e.applyWrite sum) fun _ => some 0

theorem shown_append (a b : Bytes) : shown (a ++ b) = shown a ++ shown b := List.map_append

/- A branch page is seen as it was built. -/
theorem branchCells_shown (t : T) (children : List (P × Checksum)) (keys : List (K t)) :
    e.branchCells checksumShown t children keys = shown (e.branchData t children keys) := by
  have hChecksums : children.flatMap (fun c => checksumShown c.2) =
        shown (children.flatMap fun c => toLe 16 c.2.toNat) := by
    rw [shown, List.map_flatMap]
    rfl
  rw [branchCells, branchData, shown_append, shown_append, hChecksums]

theorem rootCells_shown (root : Option (RootHeader P)) :
    e.rootCells checksumShown root = shown (TransactionHeader.rootBytes
        (root.map e.btreeHeader)) := by
  cases root with
  | none => rfl
  | some root =>
    simp only [rootCells, checksumShown, Option.map_some,
      TransactionHeader.rootBytes, BtreeHeader.toLeBytes, shown_append, Encoding.btreeHeader]

/- A commit slot is seen as it was encoded. -/
theorem slotCells_shown (user system : Option (RootHeader P)) (transactionId : UInt64) :
    e.slotCells checksumShown user system transactionId =
      shown ((e.transaction user system transactionId).toBytes e.hash) := by
  simp only [slotCells, rootCells_shown, checksumShown,
    TransactionHeader.toBytes, TransactionHeader.body, transaction, shown_append, List.append_assoc]

end Engine

end Redbx
