import Mathlib.Data.String.Basic
import Redbx.Btree.RangeSearch
import Redbx.Btree.Refinement

/-
  The tree of table definitions, with its staged updates.

  A table is a definition in a B-tree of names. The root and length of a table that was closed are
  staged beside the tree: a lookup lays them over the definition it finds, a renaming moves them and
  a deletion drops them. `view` is the map that the lookups see, and each operation is an update of
  it.

  The pages of a table are not looked at here: the header of a table stands for the whole tree below
  it.

  Key theorems include:
    * `listTables_spec`
-/

namespace Redbx

open List Option Function

------------------------------------------------------------
-- Definitions of Tables
------------------------------------------------------------

/- `TypeClassification`. -/
inductive TypeClassification where
  | internal
  | userDefined
  | internal2
  deriving DecidableEq

/- `TypeName`, whose name is given by its characters. -/
structure TypeName where
  classification : TypeClassification
  name : List Char
  deriving DecidableEq

inductive TableType where
  | normal
  | multimap
  deriving DecidableEq

/- What is asked of a key or value type. -/
structure TypeInfo where
  typeName : TypeName
  fixedWidth : Option Nat
  deriving DecidableEq

/- A root page with its checksum and tree, and the length. -/
structure TableHeader (T : Type) where
  root : T
  length : Nat
  deriving DecidableEq

/- `TableError`, without the storage errors. -/
inductive TableError where
  | tableTypeMismatch (table : String) (key value : TypeName)
  | tableIsMultimap (table : String)
  | tableIsNotMultimap (table : String)
  | typeDefinitionChanged (name : TypeName) (alignment : Nat) (width : Option Nat)
  | tableDoesNotExist (table : String)
  | tableExists (table : String)
  | tableAlreadyOpen (table : String)
  deriving DecidableEq

/- `ALIGNMENT`. -/
def alignment : Nat := 1

/- Both variants have the same fields. -/
structure InternalTableDefinition (T : Type) where
  tableType : TableType
  tableRoot : Option (TableHeader T)
  tableLength : Nat
  fixedKeySize : Option Nat
  fixedValueSize : Option Nat
  keyAlignment : Nat
  valueAlignment : Nat
  keyType : TypeName
  valueType : TypeName
  deriving DecidableEq

namespace InternalTableDefinition

variable {T : Type}

/- `InternalTableDefinition::new`. -/
def new (key value : TypeInfo) (tableType : TableType) (tableRoot : Option (TableHeader T))
    (tableLength : Nat) :
    InternalTableDefinition T :=
  ⟨tableType, tableRoot, tableLength, key.fixedWidth,
    value.fixedWidth, alignment, alignment, key.typeName, value.typeName⟩

def setHeader (d : InternalTableDefinition T) (root : Option (TableHeader T)) (length : Nat) :
    InternalTableDefinition T :=
  { d with tableRoot := root, tableLength := length }

/- `InternalTableDefinition::check_match_untyped`. -/
def checkMatchUntyped (d : InternalTableDefinition T) (tableType : TableType) (name : String) :
    Except TableError Unit :=
  if d.tableType ≠ tableType then
    if d.tableType = .multimap then
      .error (.tableIsMultimap name)
    else
      .error (.tableIsNotMultimap name)
  else if d.keyAlignment ≠ alignment then
    .error (.typeDefinitionChanged d.keyType d.keyAlignment d.fixedKeySize)
  else if d.valueAlignment ≠ alignment then
    .error (.typeDefinitionChanged d.valueType d.valueAlignment d.fixedValueSize)
  else
    .ok ()

/- `InternalTableDefinition::check_match`. -/
def checkMatch
    (d : InternalTableDefinition T) (key value : TypeInfo) (tableType : TableType) (name : String) :
    Except TableError Unit := do
  d.checkMatchUntyped tableType name
  if d.keyType ≠ key.typeName ∨ d.valueType ≠ value.typeName then
    .error (.tableTypeMismatch name d.keyType d.valueType)
  else if d.fixedKeySize ≠ key.fixedWidth then
    .error (.typeDefinitionChanged key.typeName d.keyAlignment d.fixedKeySize)
  else if d.fixedValueSize ≠ value.fixedWidth then
    .error (.typeDefinitionChanged value.typeName d.valueAlignment d.fixedValueSize)
  else
    .ok ()

/- The bytes of `TypeName::to_bytes`. -/
def typeNameLen (name : TypeName) : Nat := 1 + (String.ofList name.name).utf8ByteSize

/- The bytes of `as_bytes`. -/
def byteLen (d : InternalTableDefinition T) : Nat :=
  64 + typeNameLen d.keyType + typeNameLen d.valueType

/- The conversions to 32 bits in `as_bytes` succeed. -/
def encodable (d : InternalTableDefinition T) : Bool :=
  decide (d.fixedKeySize.getD 0 < 2 ^ 32) && decide (d.fixedValueSize.getD 0 < 2 ^ 32) &&
    decide (d.keyAlignment < 2 ^ 32) &&
    decide (d.valueAlignment < 2 ^ 32) &&
    decide (typeNameLen d.keyType < 2 ^ 32)

end InternalTableDefinition

/- Definitions by the name of their table. -/
abbrev TableDefs (T : Type) := String → Option (InternalTableDefinition T)

-- The Table Tree

variable {P T : Type} [DecidableEq P]

/- Names and definitions have variable widths. -/
def tableFormat : Format String (InternalTableDefinition T) where
  keyLen := String.utf8ByteSize
  valueLen := InternalTableDefinition.byteLen
  fixedKeySize := none
  fixedValueSize := none
  keyLen_eq := fun _ hWidth => by cases hWidth
  valueLen_eq := fun _ hWidth => by cases hWidth
  eq_of_width_zero := fun hWidth => by cases hWidth

def tableEnv (alloc : PageAllocator P) : BtreeEnv P String (InternalTableDefinition T) :=
  ⟨tableFormat, alloc⟩

/- A staged root and length. -/
abbrev TableUpdate (T : Type) := Option (TableHeader T) × Nat

/- The table tree of a write transaction. -/
structure TableTreeMut (P T : Type) [DecidableEq P] where
  tree : BtreeState P String (InternalTableDefinition T)
  pendingTableUpdates : String → Option (TableUpdate T)

namespace TableTreeMut

variable (t : TableTreeMut P T) (alloc : PageAllocator P)
  (key value : TypeInfo) (name : String) (tableType : TableType)

/- The definition with what is staged for its table. -/
def current (d : InternalTableDefinition T) : InternalTableDefinition T :=
  match t.pendingTableUpdates name with
  | none => d
  | some (root, length) => d.setHeader root length

/- `TableTreeMut::stage_update_table_root`. -/
def stageUpdateTableRoot (root : Option (TableHeader T)) (length : Nat) : TableTreeMut P T :=
  { t with pendingTableUpdates := Function.update t.pendingTableUpdates name (some (root, length)) }

/- `TableTree::list_tables`: the range is the whole tree. -/
def listTables : List String :=
  ((rootEntries t.tree.root).filter fun e => e.2.tableType = tableType).map Prod.fst

/- `TableTreeMut::get_table_untyped`. -/
def getTableUntyped : Except Panic (Except TableError (Option (InternalTableDefinition T))) := do
  match ← BtreeEnv.get t.tree.root name with
  | none => return .ok none
  | some d =>
    return (d.checkMatchUntyped tableType name).map fun _ => some (t.current name d)

/- `TableTreeMut::get_table`. -/
def getTable : Except Panic (Except TableError (Option (InternalTableDefinition T))) := do
  match ← BtreeEnv.get t.tree.root name with
  | none => return .ok none
  | some d =>
    return (d.checkMatch key value tableType name).map fun _ => some (t.current name d)

/- `self.tree.insert` of a definition. -/
def insert (d : InternalTableDefinition T) :
    Except Panic (Option (InternalTableDefinition T) × TableTreeMut P T) := do
  require d.encodable .outOfRange
  let (old, root, mem) ← (tableEnv alloc).insert true t.tree.root name d t.tree.mem
  return (old, { t with tree := ⟨root, mem⟩ })

/- `self.tree.remove` of a definition. -/
def remove : Except Panic (Option (InternalTableDefinition T) × TableTreeMut P T) := do
  let (old, root, mem) ← (tableEnv alloc).remove true t.tree.root name t.tree.mem
  return (old, { t with tree := ⟨root, mem⟩ })

/- What is staged for a table goes to its new name. -/
def moveUpdate (name newName : String) : TableTreeMut P T :=
  match t.pendingTableUpdates name with
  | none => t
  | some update =>
    { t with
      pendingTableUpdates :=
        Function.update (Function.update t.pendingTableUpdates name none) newName (some update) }

/- `TableTreeMut::rename_table`. -/
def renameTable (name newName : String) (tableType : TableType) :
    Except Panic (Except TableError Unit × TableTreeMut P T) := do
  match ← t.getTableUntyped name tableType with
  | .error e => return (.error e, t)
  | .ok none => return (.error (.tableDoesNotExist name), t)
  | .ok (some d) =>
    match ← t.getTableUntyped newName tableType with
    | .error e => return (.error e, t)
    | .ok (some _) => return (.error (.tableExists newName), t)
    | .ok none =>
      let (found, t) ← (t.moveUpdate name newName).remove alloc name
      require found.isSome .assertion
      let (old, t) ← t.insert alloc newName d
      require old.isNone .assertion
      return (.ok (), t)

/- `TableTreeMut::delete_table`, without the freed pages. -/
def deleteTable : Except Panic (Except TableError Bool × TableTreeMut P T) := do
  match ← t.getTableUntyped name tableType with
  | .error e => return (.error e, t)
  | .ok none => return (.ok false, t)
  | .ok (some _) =>
    let t := { t with pendingTableUpdates := Function.update t.pendingTableUpdates name none }
    let (found, t) ← t.remove alloc name
    return (.ok found.isSome, t)

/- `TableTreeMut::get_or_create_table`. -/
def getOrCreateTable : Except Panic (Except TableError (TableUpdate T) × TableTreeMut P T) := do
  match ← t.getTable key value name tableType with
  | .error e => return (.error e, t)
  | .ok (some d) => return (.ok (d.tableRoot, d.tableLength), t)
  | .ok none =>
    let d := InternalTableDefinition.new key value tableType none 0
    let (_, t) ← t.insert alloc name d
    return (.ok (d.tableRoot, d.tableLength), t)

-- The Map That Lookups See

/- What the lookups see of the definitions in the tree. -/
def view (m : SortedMap String (InternalTableDefinition T)) (name : String) :
    Option (InternalTableDefinition T) :=
  (m.get name).map (t.current name)

/- The tree holds the definitions, and updates are staged for tables in it only. -/
structure Tracks (m : SortedMap String (InternalTableDefinition T)) :
    Prop where
  represents : Represents t.tree.root m
  staged : ∀ name, m.get name = none → t.pendingTableUpdates name = none

end TableTreeMut

/- A table of the kind, if there is one of the name. -/
def lookupUntyped
    (tables : TableDefs T) (name : String) (tableType : TableType) :
    Except TableError (Option (InternalTableDefinition T)) :=
  match tables name with
  | none => .ok none
  | some d =>
    (d.checkMatchUntyped tableType name).map fun _ => some d

/- A table of the kind and types, if there is one. -/
def lookupTyped
    (tables : TableDefs T) (key value : TypeInfo) (name : String)
    (tableType : TableType) :
    Except TableError (Option (InternalTableDefinition T)) :=
  match tables name with
  | none => .ok none
  | some d =>
    (d.checkMatch key value tableType name).map fun _ => some d

theorem eq_of_checked {check : Except TableError Unit} {d found : InternalTableDefinition T}
    (hFound : check.map (fun _ => some d) = .ok (some found)) :
    found = d := by
  cases check with
  | error e => cases hFound
  | ok _ =>
    cases hFound
    rfl

theorem checked_ne_none {check : Except TableError Unit} {d : InternalTableDefinition T} :
    check.map (fun _ => some d) ≠ .ok none := by
  cases check with
  | error | ok => exact fun hNone => by cases hNone

namespace TableTreeMut

variable {t : TableTreeMut P T} {m : SortedMap String (InternalTableDefinition T)}

/- The checks do not look at root and length. -/
theorem checkMatchUntyped_current
    (t : TableTreeMut P T) (name : String) (d : InternalTableDefinition T) (tableType : TableType)
    (label : String) :
    (t.current name d).checkMatchUntyped tableType label = d.checkMatchUntyped tableType label := by
  unfold current
  cases t.pendingTableUpdates name <;> rfl

theorem checkMatch_current
    (t : TableTreeMut P T) (name : String) (d : InternalTableDefinition T) (key value : TypeInfo)
    (tableType : TableType) (label : String) :
    (t.current name d).checkMatch key value tableType label =
      d.checkMatch key value tableType label := by
  unfold current
  cases t.pendingTableUpdates name <;> rfl

theorem getTableUntyped_spec (hTracks : t.Tracks m) (name : String) (tableType : TableType) :
    t.getTableUntyped name tableType = .ok (lookupUntyped (t.view m) name tableType) := by
  unfold getTableUntyped lookupUntyped view
  rw [get_spec hTracks.represents]
  cases m.get name with
  | none => rfl
  | some d =>
    simp only [ok_bind, map_some, checkMatchUntyped_current]
    rfl

theorem getTable_spec
    (hTracks : t.Tracks m) (key value : TypeInfo) (name : String) (tableType : TableType) :
    t.getTable key value name tableType =
      .ok (lookupTyped (t.view m) key value name tableType) := by
  unfold getTable lookupTyped view
  rw [get_spec hTracks.represents]
  cases m.get name with
  | none => rfl
  | some d =>
    simp only [ok_bind, map_some, checkMatch_current]
    rfl

-- Changes of the Tree

variable (alloc : PageAllocator P)

/- The tree can take in the definition. -/
def HasRoom
    (alloc : PageAllocator P) (root : TreeRoot P String (InternalTableDefinition T))
    (name : String) (d : InternalTableDefinition T) :
    Prop :=
  d.encodable = true ∧ (tableEnv alloc).Roomy root (.insert name d)

variable {name : String}

theorem insert_returns (hRep : Represents t.tree.root m) {d : InternalTableDefinition T}
    (hRoom : HasRoom alloc t.tree.root name d) :
    ∃ tree, t.insert alloc name d = .ok (m.get name, ⟨tree, t.pendingTableUpdates⟩) ∧
      Represents tree.root (m.insert name d) := by
  rcases insert_spec (tableEnv alloc) hRep true name d t.tree.mem
    hRoom.2 with ⟨root, mem, hInsert, hRep'⟩
  refine ⟨⟨root, mem⟩, ?_, hRep'⟩
  simp only [insert, hRoom.1, require, if_true, hInsert, ok_bind]
  rfl

theorem remove_returns
    (hRep : Represents t.tree.root m) (hRoom : (tableEnv alloc).Roomy t.tree.root (.remove name)) :
    ∃ tree, t.remove alloc name = .ok (m.get name, ⟨tree, t.pendingTableUpdates⟩) ∧
      Represents tree.root (m.erase name) := by
  rcases remove_spec (tableEnv alloc) hRep true name t.tree.mem
    hRoom with ⟨root, mem, hRemove, hRep'⟩
  refine ⟨⟨root, mem⟩, ?_, hRep'⟩
  simp only [remove, hRemove, ok_bind]
  rfl

theorem get_of_lookup {tableType : TableType} {d : InternalTableDefinition T}
    (hFound : lookupUntyped (t.view m) name tableType = .ok (some d)) :
    ∃ stored, m.get name = some stored ∧ d = t.current name stored := by
  unfold lookupUntyped view at hFound
  cases hGet : m.get name with
  | none =>
    rw [hGet] at hFound
    cases hFound
  | some stored =>
    rw [hGet] at hFound
    exact ⟨stored, rfl, eq_of_checked hFound⟩

/- A table that is not found is not in the tree. -/
theorem get_of_lookup_none
    {tableType : TableType} (hNone : lookupUntyped (t.view m) name tableType = .ok none) :
    m.get name = none := by
  unfold lookupUntyped view at hNone
  cases hGet : m.get name with
  | none => rfl
  | some =>
    rw [hGet] at hNone
    exact absurd hNone checked_ne_none

end TableTreeMut

-- Operations on the Map

section Map

variable (tables : TableDefs T) (key value : TypeInfo) (name : String) (tableType : TableType)

/- What a renaming answers. -/
def renameReply (name newName : String) (tableType : TableType) : Except TableError Unit :=
  match lookupUntyped tables name tableType with
  | .error e => .error e
  | .ok none => .error (.tableDoesNotExist name)
  | .ok (some _) =>
    match lookupUntyped tables newName tableType with
    | .error e => .error e
    | .ok (some _) => .error (.tableExists newName)
    | .ok none => .ok ()

/- A renaming moves the table, unless it fails. -/
def renameTables (name newName : String) (tableType : TableType) : TableDefs T :=
  match renameReply tables name newName tableType with
  | .error _ => tables
  | .ok _ =>
    Function.update (Function.update tables name none) newName (tables name)

/- A deletion answers whether there was a table. -/
def deleteReply : Except TableError Bool :=
  (lookupUntyped tables name tableType).map Option.isSome

def deleteTables : TableDefs T :=
  match lookupUntyped tables name tableType with
  | .ok (some _) => Function.update tables name none
  | _ => tables

/- The root and length of the table, which may be new. -/
def openReply : Except TableError (TableUpdate T) :=
  (lookupTyped tables key value name tableType).map fun found => match found with
    | none => (none, 0)
    | some d => (d.tableRoot, d.tableLength)

def openedTables : TableDefs T :=
  match lookupTyped tables key value name tableType with
  | .ok none =>
    Function.update tables name (some (.new key value tableType none 0))
  | _ => tables

end Map

namespace TableTreeMut

variable {t : TableTreeMut P T} {m : SortedMap String (InternalTableDefinition T)}
    (alloc : PageAllocator P)

/- There is room for the removal and for the new name. -/
def RenameRoom (t : TableTreeMut P T) (name newName : String) : Prop :=
  (tableEnv (T := T) alloc).Roomy t.tree.root (.remove name) ∧ ∀ d root mem,
      (tableEnv alloc).remove true t.tree.root name t.tree.mem = .ok (some d, root, mem) →
      HasRoom alloc root newName (t.current name d)

variable {name : String}

/- Only what is staged for the name is laid over. -/
theorem current_congr {tree : BtreeState P String (InternalTableDefinition T)}
    {updates : String → Option (TableUpdate T)}
    (hSame : updates name = t.pendingTableUpdates name) :
    (TableTreeMut.mk tree updates).current name = t.current name := by
  funext d
  simp only [current, hSame]

/- A staged header laid over a definition twice is laid once. -/
theorem setHeader_current {root : Option (TableHeader T)} {length : Nat}
    (hUpdate : t.pendingTableUpdates name = some (root, length)) (d : InternalTableDefinition T) :
    (t.current name d).setHeader root length = t.current name d := by
  simp only [current, hUpdate]
  rfl

variable {name newName : String}

theorem current_moveUpdate
    (hFree : t.pendingTableUpdates newName = none) (d : InternalTableDefinition T) :
    (t.moveUpdate name newName).current newName (t.current name d) = t.current name d := by
  cases hUpdate : t.pendingTableUpdates name with
  | none => simp only [moveUpdate, current, hUpdate, hFree]
  | some update =>
    rcases update with ⟨_, _⟩
    rw [current]
    simp only [moveUpdate, hUpdate, update_self]
    exact setHeader_current hUpdate d

/- Other names keep what is staged for them. -/
theorem moveUpdate_other
    {name newName other : String} (hName : other ≠ name) (hNew : other ≠ newName) :
    (t.moveUpdate name newName).pendingTableUpdates other = t.pendingTableUpdates other := by
  unfold moveUpdate
  cases t.pendingTableUpdates name with
  | none => rfl
  | some => simp only [update_of_ne hNew, update_of_ne hName]

theorem moveUpdate_self (hNe : name ≠ newName) :
    (t.moveUpdate name newName).pendingTableUpdates name = none := by
  unfold moveUpdate
  cases hUpdate : t.pendingTableUpdates name with
  | none => exact hUpdate
  | some => simp only [update_of_ne hNe, update_self]

theorem rename_moves (hTracks : t.Tracks m) {tableType : TableType} {d : InternalTableDefinition T}
    (hRoom : t.RenameRoom alloc name newName)
    (hOld : lookupUntyped (t.view m) name tableType = .ok (some d)) (hFree : m.get newName = none) :
    ∃ t' m', (do
        let (found, t) ← (t.moveUpdate name newName).remove alloc name
        require found.isSome .assertion
        let (old, t) ← t.insert alloc newName d
        require old.isNone .assertion
        return ((.ok () : Except TableError Unit), t)) =
        Except.ok (.ok (), t') ∧
      t'.Tracks m' ∧
      t'.view m' = Function.update (Function.update (t.view m) name none)
          newName (t.view m name) := by
  rcases get_of_lookup hOld with ⟨stored, hStored, rfl⟩
  have hNe : name ≠ newName := by
    rintro rfl
    rw [hStored] at hFree
    cases hFree
  have hTree : (t.moveUpdate name newName).tree = t.tree := by
    unfold moveUpdate
    cases t.pendingTableUpdates name <;> rfl
  rcases remove_spec (tableEnv alloc) hTracks.represents true name
    t.tree.mem hRoom.1 with ⟨root, mem, hRemove, hRep1⟩
  have hRoom' := hRoom.2 stored root mem (hStored ▸ hRemove)
  rcases insert_returns alloc (t := ⟨⟨root, mem⟩, (t.moveUpdate name newName).pendingTableUpdates⟩)
    hRep1 hRoom' with ⟨tree, hInsert, hRep2⟩
  have hMissing : (m.erase name).get newName = none := by
    rw [SortedMap.get_erase, if_neg hNe.symm, hFree]
  refine ⟨⟨tree, (t.moveUpdate name newName).pendingTableUpdates⟩,
    (m.erase name).insert newName (t.current name stored), ?_, ⟨hRep2, ?_⟩, ?_⟩
  · simp only [remove, hTree, hRemove, hStored, ok_bind,
      pure_eq_ok, require, isSome_some, if_true, hInsert, hMissing, isNone_none]
  · intro other hNone
    rw [SortedMap.get_insert] at hNone
    by_cases hIsNew : other = newName
    · rw [if_pos hIsNew] at hNone
      cases hNone
    · rw [if_neg hIsNew, SortedMap.get_erase] at hNone
      by_cases hIsName : other = name
      · rw [hIsName]
        exact moveUpdate_self hNe
      · rw [if_neg hIsName] at hNone
        exact (moveUpdate_other hIsName hIsNew).trans (hTracks.staged other hNone)
  · funext other
    simp only [view, SortedMap.get_insert, SortedMap.get_erase]
    by_cases hIsNew : other = newName
    · subst hIsNew
      rw [if_pos rfl, update_self, hStored]
      exact congrArg some (current_moveUpdate (hTracks.staged other hFree) stored)
    · rw [if_neg hIsNew, update_of_ne hIsNew]
      by_cases hIsName : other = name
      · subst hIsName
        rw [if_pos rfl, update_self]
        rfl
      · rw [if_neg hIsName, update_of_ne hIsName]
        have hSame := moveUpdate_other (t := t) hIsName hIsNew
        rw [current_congr hSame]
        rfl

theorem renameTable_spec (hTracks : t.Tracks m) (name newName : String) (tableType : TableType)
    (hRoom : t.RenameRoom alloc name newName) :
    ∃ t' m', t.renameTable alloc name newName tableType =
        .ok (renameReply (t.view m) name newName tableType, t') ∧
      t'.Tracks m' ∧
      t'.view m' = renameTables (t.view m) name newName tableType := by
  unfold renameTable renameTables renameReply
  rw [getTableUntyped_spec hTracks, getTableUntyped_spec hTracks]
  simp only [ok_bind]
  cases hOld : lookupUntyped (t.view m) name tableType with
  | error e => exact ⟨t, m, rfl, hTracks, rfl⟩
  | ok found =>
    cases found with
    | none => exact ⟨t, m, rfl, hTracks, rfl⟩
    | some d =>
      cases hNew : lookupUntyped (t.view m) newName tableType with
      | error e => exact ⟨t, m, rfl, hTracks, rfl⟩
      | ok taken =>
        cases taken with
        | some _ => exact ⟨t, m, rfl, hTracks, rfl⟩
        | none => exact rename_moves alloc hTracks hRoom hOld (get_of_lookup_none hNew)

theorem deleteTable_spec (hTracks : t.Tracks m) (name : String) (tableType : TableType)
    (hRoom : (tableEnv alloc).Roomy t.tree.root (.remove name)) :
    ∃ t' m', t.deleteTable alloc name tableType = .ok (deleteReply (t.view m) name tableType, t') ∧
      t'.Tracks m' ∧
      t'.view m' = deleteTables (t.view m) name tableType := by
  unfold deleteTable deleteTables deleteReply
  rw [getTableUntyped_spec hTracks]
  simp only [ok_bind]
  cases hOld : lookupUntyped (t.view m) name tableType with
  | error e => exact ⟨t, m, rfl, hTracks, rfl⟩
  | ok found =>
    cases found with
    | none => exact ⟨t, m, rfl, hTracks, rfl⟩
    | some d =>
      rcases get_of_lookup hOld with ⟨_, hStored, _⟩
      rcases remove_returns alloc (t := ⟨t.tree, Function.update t.pendingTableUpdates name none⟩)
        hTracks.represents hRoom with ⟨tree, hRemove, hRep⟩
      refine ⟨⟨tree, Function.update t.pendingTableUpdates
        name none⟩, m.erase name, ?_, ⟨hRep, ?_⟩, ?_⟩
      · simp only [hRemove, hStored, ok_bind, pure_eq_ok]
        rfl
      · intro other hNone
        by_cases hIs : other = name
        · rw [hIs]
          exact update_self _ _ _
        · rw [SortedMap.get_erase, if_neg hIs] at hNone
          exact (update_of_ne hIs _ _).trans (hTracks.staged other hNone)
      · funext other
        by_cases hIs : other = name
        · rw [view, SortedMap.get_erase, if_pos hIs, hIs]
          exact (update_self name none (t.view m)).symm
        · rw [view, SortedMap.get_erase, if_neg hIs, current_congr (update_of_ne hIs _ _)]
          exact (update_of_ne hIs none (t.view m)).symm

theorem get_of_lookupTyped_none {key value : TypeInfo} {tableType : TableType}
    (hNone : lookupTyped (t.view m) key value name tableType = .ok none) :
    m.get name = none := by
  unfold lookupTyped view at hNone
  cases hGet : m.get name with
  | none => rfl
  | some =>
    rw [hGet] at hNone
    exact absurd hNone checked_ne_none

theorem getOrCreateTable_spec
    (hTracks : t.Tracks m) (key value : TypeInfo) (name : String) (tableType : TableType)
    (hRoom : BtreeEnv.get t.tree.root name = .ok none → HasRoom alloc t.tree.root name
          (.new key value tableType none 0)) :
    ∃ t' m', t.getOrCreateTable alloc key value name tableType =
        .ok (openReply (t.view m) key value name tableType, t') ∧
      t'.Tracks m' ∧
      t'.view m' = openedTables (t.view m) key value name tableType := by
  unfold getOrCreateTable openedTables openReply
  rw [getTable_spec hTracks]
  simp only [ok_bind]
  cases hFound : lookupTyped (t.view m) key value name tableType with
  | error e => exact ⟨t, m, rfl, hTracks, rfl⟩
  | ok found =>
    cases found with
    | some d => exact ⟨t, m, rfl, hTracks, rfl⟩
    | none =>
      have hFree : m.get name = none := get_of_lookupTyped_none hFound
      have hNone : BtreeEnv.get t.tree.root name = .ok none := by
        rw [get_spec hTracks.represents, hFree]
      rcases insert_returns alloc hTracks.represents (hRoom hNone) with ⟨tree, hInsert, hRep⟩
      refine ⟨⟨tree, t.pendingTableUpdates⟩, _, ?_, ⟨hRep, ?_⟩, ?_⟩
      · simp only [hInsert, ok_bind, pure_eq_ok]
        rfl
      · intro other hMissing
        rw [SortedMap.get_insert] at hMissing
        by_cases hIs : other = name
        · rw [if_pos hIs] at hMissing
          cases hMissing
        · rw [if_neg hIs] at hMissing
          exact hTracks.staged other hMissing
      · funext other
        rw [view, SortedMap.get_insert]
        change _ = Function.update (t.view m) name _ other
        by_cases hIs : other = name
        · subst hIs
          rw [if_pos rfl, update_self]
          simp only [map_some, current, hTracks.staged other hFree]
        · rw [if_neg hIs, update_of_ne hIs]
          rfl

theorem stageUpdateTableRoot_spec
    (hTracks : t.Tracks m) {d : InternalTableDefinition T} (hFound : t.view m name = some d)
    (root : Option (TableHeader T)) (length : Nat) :
    (t.stageUpdateTableRoot name root length).Tracks m ∧
      (t.stageUpdateTableRoot name root length).view m = Function.update (t.view m) name
          (some (d.setHeader root length)) := by
  rcases map_eq_some_iff.mp hFound with ⟨_, hStored, rfl⟩
  refine ⟨⟨hTracks.represents, ?_⟩, ?_⟩
  · intro other hNone
    by_cases hIs : other = name
    · rw [hIs, hStored] at hNone
      cases hNone
    · exact (update_of_ne hIs _ _).trans (hTracks.staged other hNone)
  · funext other
    by_cases hIs : other = name
    · subst hIs
      rw [update_self, view, hStored]
      simp only [map_some, current, stageUpdateTableRoot, update_self]
      cases t.pendingTableUpdates other <;> rfl
    · rw [update_of_ne hIs, view, stageUpdateTableRoot, current_congr (update_of_ne hIs _ _)]
      rfl

/- The names of the kind, in order. -/
theorem listTables_spec (hTracks : t.Tracks m) (tableType : TableType) :
    (t.listTables tableType).Pairwise (· < ·) ∧ ∀ name, name ∈ t.listTables tableType ↔
        ∃ d, t.view m name = some d ∧ d.tableType = tableType := by
  have hEntries : rootEntries t.tree.root = m.entries := hTracks.represents.entries_eq.1
  unfold listTables
  rw [hEntries]
  refine ⟨pairwise_map.mpr (m.sorted.filter _), ?_⟩
  intro name
  have hKind : ∀ d, (t.current name d).tableType = d.tableType := by
    intro d
    unfold current
    cases t.pendingTableUpdates name <;> rfl
  simp only [List.mem_map, mem_filter, decide_eq_true_eq, view, map_eq_some_iff]
  refine ⟨?_, ?_⟩
  · rintro ⟨⟨_, d⟩, ⟨hIn, hType⟩, rfl⟩
    exact ⟨_, ⟨d, SortedMap.get_eq_some_iff.mpr hIn, rfl⟩, (hKind d).trans hType⟩
  · rintro ⟨_, ⟨d, hGet, rfl⟩, hType⟩
    exact ⟨(name, d), ⟨SortedMap.get_eq_some_iff.mp hGet, (hKind d).symm.trans hType⟩, rfl⟩

end TableTreeMut

end Redbx
