import Redbx.Tables.TableTree

/-
  The tables of a write transaction behave as a map.

  The state of a table is in its handle while it is open, in the staged updates once it was closed,
  and in the table tree otherwise. `TableMap` is what this stands for: a map from names to kind,
  types and contents, and the names that are open. Every step on the namespace is a step on the map.

  The table tree needs room for the names: it counts and addresses its entries as any B-tree does,
  and a name of four gigabytes makes it panic.

  Key theorems include:
    * `step_stands`, `namespace_behaves_as_map`
-/

namespace Redbx

open List Option Function

-- The Namespace

/- What an open `Table` or `MultimapTable` holds. -/
structure OpenTable (T : Type) where
  tableType : TableType
  root : Option (TableHeader T)
  numValues : Nat

abbrev OpenTables (T : Type) := String → Option (OpenTable T)

/- The length that the handle stages when it is dropped. -/
def OpenTable.closingLength {T : Type} (table : OpenTable T) : Nat :=
  match table.tableType with
  -- `Table` has no length of its own
  | .normal => (table.root.map TableHeader.length).getD 0
  | .multimap => table.numValues

/- The tables; each open name has the one handle it names. -/
structure TableNamespace (P T : Type) [DecidableEq P] where
  openTables : OpenTables T
  tableTree : TableTreeMut P T

inductive NamespaceEvent (T : Type) where
  | openTable (name : String) (key value : TypeInfo) (tableType : TableType)
  -- any edits of an open table
  | edit (name : String) (root : Option (TableHeader T)) (numValues : Nat)
  | closeTable (name : String)
  | renameTable (name newName : String) (tableType : TableType)
  | deleteTable (name : String) (tableType : TableType)
  | listTables (tableType : TableType)

inductive NamespaceReply (T : Type) where
  | opened (result : Except TableError (TableUpdate T))
  | renamed (result : Except TableError Unit)
  | deleted (result : Except TableError Bool)
  | names (names : List String)
  | nothing

variable {P T : Type} [DecidableEq P]

namespace TableNamespace

/- `TableNamespace::new`. -/
def new (tree : BtreeState P String (InternalTableDefinition T)) : TableNamespace P T :=
  ⟨fun _ => none, tree, fun _ => none⟩

variable (alloc : PageAllocator P)

/- `open_table` and `open_multimap_table`. -/
def openTable
    (ns : TableNamespace P T) (name : String) (key value : TypeInfo) (tableType : TableType) :
    Except Panic (Except TableError (TableUpdate T) × TableNamespace P T) := do
  if (ns.openTables name).isSome then
    return (.error (.tableAlreadyOpen name), ns)
  else
    let (result, tree) ← ns.tableTree.getOrCreateTable alloc key value name tableType
    match result with
    | .error e => return (.error e, { ns with tableTree := tree })
    | .ok (root, length) =>
      let table : OpenTable T := ⟨tableType, root, length⟩
      return (.ok (root, table.closingLength),
        ⟨Function.update ns.openTables name (some table), tree⟩)

/- `inner_rename`. -/
def renameTable (ns : TableNamespace P T) (name newName : String) (tableType : TableType) :
    Except Panic (Except TableError Unit × TableNamespace P T) := do
  if (ns.openTables name).isSome then
    return (.error (.tableAlreadyOpen name), ns)
  else
    let (result, tree) ← ns.tableTree.renameTable alloc name newName tableType
    return (result, { ns with tableTree := tree })

/- `inner_delete`. -/
def deleteTable (ns : TableNamespace P T) (name : String) (tableType : TableType) :
    Except Panic (Except TableError Bool × TableNamespace P T) := do
  if (ns.openTables name).isSome then
    return (.error (.tableAlreadyOpen name), ns)
  else
    let (result, tree) ← ns.tableTree.deleteTable alloc name tableType
    return (result, { ns with tableTree := tree })

/- `close_table`, called when a handle is dropped. -/
def closeTable (ns : TableNamespace P T) (name : String) (table : OpenTable T) :
    TableNamespace P T :=
  ⟨Function.update ns.openTables name none,
    ns.tableTree.stageUpdateTableRoot name table.root table.closingLength⟩

/- One step; without a handle nothing is edited or dropped. -/
def step (ns : TableNamespace P T) : NamespaceEvent T →
    Except Panic (NamespaceReply T × TableNamespace P T)
  | .openTable name key value tableType => do
    let (result, ns) ← ns.openTable alloc name key value tableType
    return (.opened result, ns)
  | .edit name root numValues =>
    match ns.openTables name with
    | none => return (.nothing, ns)
    | some table =>
      return (.nothing, { ns with
        openTables := Function.update ns.openTables name
          (some ⟨table.tableType, root, numValues⟩) })
  | .closeTable name =>
    match ns.openTables name with
    | none => return (.nothing, ns)
    | some table => return (.nothing, ns.closeTable name table)
  | .renameTable name newName tableType => do
    let (result, ns) ← ns.renameTable alloc name newName tableType
    return (.renamed result, ns)
  | .deleteTable name tableType => do
    let (result, ns) ← ns.deleteTable alloc name tableType
    return (.deleted result, ns)
  | .listTables tableType =>
    return (.names (ns.tableTree.listTables tableType), ns)

/- A sequence of steps, with all replies. -/
def run : List (NamespaceEvent T) → TableNamespace P T →
    Except Panic (List (NamespaceReply T) × TableNamespace P T)
  | [], ns => return ([], ns)
  | event :: rest, ns => do
    let (reply, ns) ← ns.step alloc event
    let (replies, ns) ← run rest ns
    return (reply :: replies, ns)

/- The table tree has room for what the step changes in it. -/
def RoomyStep (ns : TableNamespace P T) : NamespaceEvent T → Prop
  | .openTable name key value tableType =>
    BtreeEnv.get ns.tableTree.tree.root name = .ok none →
      TableTreeMut.HasRoom alloc ns.tableTree.tree.root name (.new key value tableType none 0)
  | .renameTable name newName _ =>
    ns.tableTree.RenameRoom alloc name newName
  | .deleteTable name _ =>
    (tableEnv alloc).Roomy ns.tableTree.tree.root (.remove name)
  | _ => True

/- Before every step the table tree has room for it. -/
def RoomyRun : List (NamespaceEvent T) → TableNamespace P T → Prop
  | [], _ => True
  | event :: rest, ns =>
    ns.RoomyStep alloc event ∧ ∀ reply ns', ns.step alloc event = .ok (reply, ns') →
        RoomyRun rest ns'

end TableNamespace

-- The Map

/- A normal table is as long as its root says. -/
def InternalTableDefinition.settle (d : InternalTableDefinition T) : InternalTableDefinition T :=
  match d.tableType with
  | .normal =>
    d.setHeader d.tableRoot ((d.tableRoot.map TableHeader.length).getD 0)
  | .multimap => d

/- Kind, types and contents by name, and the open names. -/
structure TableMap (T : Type) where
  tables : TableDefs T
  opened : String → Bool

/- What a step does on the map. -/
def TableMap.Step (s : TableMap T) : NamespaceEvent T → NamespaceReply T → TableMap T → Prop
  | .openTable name key value tableType, reply, s' =>
    if s.opened name then
      reply = .opened (.error (.tableAlreadyOpen name)) ∧ s' = s
    else
      reply = .opened (openReply s.tables key value name tableType) ∧
      s' = ⟨openedTables s.tables key value name tableType,
        match openReply s.tables key value name tableType with
        | .error _ => s.opened
        | .ok _ => Function.update s.opened name true⟩
  | .edit name root numValues, reply, s' =>
    reply = .nothing ∧ s' = if s.opened name then
        { s with
          tables := Function.update s.tables name ((s.tables name).map fun d =>
              (d.setHeader root numValues).settle) }
      else
        s
  | .closeTable name, reply, s' =>
    reply = .nothing ∧ s' = { s with opened := Function.update s.opened name false }
  | .renameTable name newName tableType, reply, s' =>
    if s.opened name then
      reply = .renamed (.error (.tableAlreadyOpen name)) ∧ s' = s
    else
      reply = .renamed (renameReply s.tables name newName tableType) ∧
      s' = { s with tables := renameTables s.tables name newName tableType }
  | .deleteTable name tableType, reply, s' =>
    if s.opened name then
      reply = .deleted (.error (.tableAlreadyOpen name)) ∧ s' = s
    else
      reply = .deleted (deleteReply s.tables name tableType) ∧
      s' = { s with tables := deleteTables s.tables name tableType }
  | .listTables tableType, reply, s' =>
    s' = s ∧ ∃ names, reply = .names names ∧ names.Pairwise (· < ·) ∧
      ∀ name, name ∈ names ↔ ∃ d, s.tables name = some d ∧ d.tableType = tableType

/- A sequence of steps on the map. -/
def TableMap.Run : TableMap T → List (NamespaceEvent T) →
    List (NamespaceReply T) → TableMap T → Prop
  | s, [], replies, s' => replies = [] ∧ s' = s
  | s, event :: rest, replies, s' =>
    ∃ reply others s1, replies = reply :: others ∧
      s.Step event reply s1 ∧ TableMap.Run s1 rest others s'

-- Handles over Definitions

/- The definition with what the handle of its table holds. -/
def overlay
    (handles : OpenTables T) (name : String) (d : InternalTableDefinition T) :
    InternalTableDefinition T :=
  match handles name with
  | none => d.settle
  | some table => d.setHeader table.root table.closingLength

/- The tables with their handles. -/
def withHandles
    (handles : OpenTables T) (tables : TableDefs T)
    (name : String) :
    Option (InternalTableDefinition T) :=
  (tables name).map (overlay handles name)

/- The handles belong to tables of their kind. -/
def Handled (handles : OpenTables T)
    (tables : TableDefs T) :
    Prop :=
  ∀ name table, handles name = some table →
    ∃ d, tables name = some d ∧ d.tableType = table.tableType

/- The namespace stands for the map. -/
def Stands (ns : TableNamespace P T) (s : TableMap T) : Prop :=
  ∃ m, ns.tableTree.Tracks m ∧ Handled ns.openTables (ns.tableTree.view m) ∧
    s = ⟨withHandles ns.openTables (ns.tableTree.view m), fun name => (ns.openTables name).isSome⟩

section Overlay

variable
    {handles : OpenTables T} {tables : TableDefs T}

theorem overlay_eq_setHeader
    (handles : OpenTables T) (name : String) (d : InternalTableDefinition T) :
    ∃ root length, overlay handles name d = d.setHeader root length := by
  unfold overlay InternalTableDefinition.settle
  cases handles name with
  | some => exact ⟨_, _, rfl⟩
  | none =>
    cases d.tableType with
    | normal => exact ⟨_, _, rfl⟩
    | multimap => exact ⟨d.tableRoot, d.tableLength, rfl⟩

theorem overlay_tableType
    (handles : OpenTables T) (name : String) (d : InternalTableDefinition T) :
    (overlay handles name d).tableType = d.tableType := by
  rcases overlay_eq_setHeader handles name d with ⟨_, _, hEq⟩
  rw [hEq]
  rfl

variable {name : String}

theorem overlay_closed (hClosed : handles name = none) :
    overlay handles name = InternalTableDefinition.settle := by
  funext d
  simp only [overlay, hClosed]

theorem overlay_update_of_ne
    {name other : String} (hNe : other ≠ name) (handle : Option (OpenTable T)) :
    overlay (Function.update handles name handle) other = overlay handles other := by
  funext d
  simp only [overlay, update_of_ne hNe]

theorem lookupUntyped_withHandles
    (handles : OpenTables T) (tables : TableDefs T)
    (name : String) (tableType : TableType) :
    lookupUntyped (withHandles handles tables) name tableType =
      (lookupUntyped tables name tableType).map (Option.map (overlay handles name)) := by
  unfold lookupUntyped withHandles
  cases tables name with
  | none => rfl
  | some d =>
    rcases overlay_eq_setHeader handles name d with ⟨_, _, hEq⟩
    have hCheck : (overlay handles name d).checkMatchUntyped tableType name =
          d.checkMatchUntyped tableType name := by
      rw [hEq]
      rfl
    simp only [map_some, hCheck]
    cases d.checkMatchUntyped tableType name <;> rfl

theorem lookupTyped_withHandles
    (handles : OpenTables T) (tables : TableDefs T)
    (key value : TypeInfo) (name : String) (tableType : TableType) :
    lookupTyped (withHandles handles tables) key value name tableType =
      (lookupTyped tables key value name tableType).map (Option.map (overlay handles name)) := by
  unfold lookupTyped withHandles
  cases tables name with
  | none => rfl
  | some d =>
    rcases overlay_eq_setHeader handles name d with ⟨_, _, hEq⟩
    have hCheck : (overlay handles name d).checkMatch key value tableType name =
          d.checkMatch key value tableType name := by
      rw [hEq]
      rfl
    simp only [map_some, hCheck]
    cases d.checkMatch key value tableType name <;> rfl

theorem withHandles_update
    (hClosed : handles name = none) (entry : Option (InternalTableDefinition T)) :
    withHandles handles (Function.update tables name entry) =
      Function.update (withHandles handles tables) name
        (entry.map InternalTableDefinition.settle) := by
  funext other
  by_cases hIs : other = name
  · subst hIs
    rw [withHandles, update_self, update_self, overlay_closed hClosed]
  · rw [withHandles, update_of_ne hIs, update_of_ne hIs]
    rfl

theorem renameReply_withHandles (name newName : String) (tableType : TableType) :
    renameReply (withHandles handles tables) name newName tableType =
      renameReply tables name newName tableType := by
  unfold renameReply
  rw [lookupUntyped_withHandles, lookupUntyped_withHandles]
  cases lookupUntyped tables name tableType with
  | error e => rfl
  | ok found =>
    cases found with
    | none => rfl
    | some d =>
      cases lookupUntyped tables newName tableType with
      | error e => rfl
      | ok taken => cases taken <;> rfl

variable {tableType : TableType}

theorem free_of_renameReply
    {name newName : String} (hReply : renameReply tables name newName tableType = .ok ()) :
    tables newName = none := by
  cases hNew : tables newName with
  | none => rfl
  | some d =>
    exfalso
    unfold renameReply at hReply
    cases hFirst : lookupUntyped tables name tableType with
    | error e =>
      rw [hFirst] at hReply
      cases hReply
    | ok found =>
      cases found with
      | none =>
        rw [hFirst] at hReply
        cases hReply
      | some old =>
        rw [hFirst] at hReply
        simp only [lookupUntyped, hNew] at hReply
        cases hCheck : d.checkMatchUntyped tableType newName with
        | error | ok =>
          rw [hCheck] at hReply
          cases hReply

variable (hHandled : Handled handles tables)
include hHandled

theorem Handled.closed (hNone : tables name = none) : handles name = none := by
  cases hOpen : handles name with
  | none => rfl
  | some table =>
    rcases hHandled name table hOpen with ⟨d, hSome, _⟩
    rw [hNone] at hSome
    cases hSome

theorem Handled.update (hClosed : handles name = none)
    (entry : Option (InternalTableDefinition T)) :
    Handled handles (Function.update tables name entry) := by
  intro other table hOpen
  have hNe : other ≠ name := by
    rintro rfl
    rw [hClosed] at hOpen
    cases hOpen
  rw [update_of_ne hNe]
  exact hHandled other table hOpen

variable {d : InternalTableDefinition T}

theorem Handled.setHandle {table : OpenTable T} (hTable : tables name = some d)
    (hType : d.tableType = table.tableType) :
    Handled (Function.update handles name (some table)) tables := by
  intro other handle hHandle
  by_cases hIs : other = name
  · subst hIs
    rw [update_self] at hHandle
    cases hHandle
    exact ⟨d, hTable, hType⟩
  · rw [update_of_ne hIs] at hHandle
    exact hHandled other handle hHandle

theorem Handled.dropHandle (name : String) (entry : Option (InternalTableDefinition T)) :
    Handled (Function.update handles name none) (Function.update tables name entry) := by
  intro other handle hHandle
  have hNe : other ≠ name := by
    rintro rfl
    rw [update_self] at hHandle
    cases hHandle
  rw [update_of_ne hNe] at hHandle
  rw [update_of_ne hNe]
  exact hHandled other handle hHandle

omit hHandled

theorem isSome_update
    (handles : OpenTables T) (name : String) (table : OpenTable T) :
    Function.update (fun name => (handles name).isSome) name true = fun other =>
        (Function.update handles name (some table) other).isSome := by
  funext other
  by_cases hIs : other = name
  · subst hIs
    rw [update_self, update_self]
    rfl
  · rw [update_of_ne hIs, update_of_ne hIs]

/- A table that passes the checks has the kind asked for. -/
theorem found_of_lookupTyped
    {key value : TypeInfo} (hFound : lookupTyped tables key value name tableType = .ok (some d)) :
    tables name = some d ∧ d.tableType = tableType := by
  unfold lookupTyped at hFound
  cases hTable : tables name with
  | none =>
    rw [hTable] at hFound
    cases hFound
  | some stored =>
    rw [hTable] at hFound
    simp only [] at hFound
    by_cases hType : stored.tableType = tableType
    · cases hCheck : stored.checkMatch key value tableType name with
      | error e =>
        rw [hCheck] at hFound
        cases hFound
      | ok _ =>
        rw [hCheck] at hFound
        cases hFound
        exact ⟨rfl, hType⟩
    · exfalso
      unfold InternalTableDefinition.checkMatch InternalTableDefinition.checkMatchUntyped at hFound
      rw [if_pos hType] at hFound
      split at hFound <;> cases hFound

theorem withHandles_handle (hTable : tables name = some d) (table : OpenTable T) :
    withHandles (Function.update handles name (some table)) tables =
      Function.update (withHandles handles tables) name
        (some (d.setHeader table.root table.closingLength)) := by
  funext other
  by_cases hIs : other = name
  · subst hIs
    rw [withHandles, hTable, update_self]
    simp only [map_some, overlay, update_self]
  · rw [withHandles, overlay_update_of_ne hIs, update_of_ne hIs]
    rfl

/- What a handle of the kind stages is settled. -/
theorem settle_setHeader {table : OpenTable T} (hType : d.tableType = table.tableType) :
    (d.setHeader table.root table.closingLength).settle =
      d.setHeader table.root table.closingLength := by
  cases hKind : table.tableType with
  | normal =>
    simp only [InternalTableDefinition.settle, InternalTableDefinition.setHeader, hType, hKind,
      OpenTable.closingLength]
  | multimap =>
    simp only [InternalTableDefinition.settle, InternalTableDefinition.setHeader, hType, hKind]

/- An edit stages what the settled definition says. -/
theorem setHeader_closingLength
    (hType : d.tableType = tableType) (root : Option (TableHeader T)) (numValues : Nat) :
    d.setHeader root (OpenTable.mk tableType root numValues).closingLength =
      (d.setHeader root numValues).settle := by
  subst hType
  cases hKind : d.tableType with
  | normal | multimap =>
    simp only [InternalTableDefinition.settle, InternalTableDefinition.setHeader, hKind,
      OpenTable.closingLength]

end Overlay

-- Steps

section Steps

variable (alloc : PageAllocator P) {ns : TableNamespace P T} {s : TableMap T}

variable (hStands : Stands ns s)
include hStands

theorem renameTable_stands (name newName : String) (tableType : TableType)
    (hRoom : ns.tableTree.RenameRoom alloc name newName) :
    ∃ reply ns' s', ns.step alloc (.renameTable name newName tableType) = .ok (reply, ns') ∧
      s.Step (.renameTable name newName tableType) reply s' ∧
      Stands ns' s' := by
  rcases hStands with ⟨m, hTracks, hHandled, rfl⟩
  simp only [TableNamespace.step, TableNamespace.renameTable, TableMap.Step]
  cases hOpen : ns.openTables name with
  | some => exact ⟨_, _, _, rfl, ⟨rfl, rfl⟩, m, hTracks, hHandled, rfl⟩
  | none =>
    rcases TableTreeMut.renameTable_spec alloc hTracks name newName tableType hRoom with
      ⟨tree, m', hRename, hTracks', hView⟩
    simp only [isSome_none, Bool.false_eq_true, if_false,
      hRename, ok_bind, pure_eq_ok, renameReply_withHandles]
    refine ⟨_, _, _, rfl, ⟨rfl, rfl⟩, m', hTracks', ?_, ?_⟩
    · rw [hView, renameTables]
      cases hReply : renameReply (ns.tableTree.view m) name newName tableType with
      | error e => exact hHandled
      | ok _ =>
        have hFree := free_of_renameReply hReply
        exact (hHandled.update hOpen none).update (hHandled.closed hFree) _
    · congr 1
      rw [hView, renameTables, renameTables, renameReply_withHandles]
      cases hReply : renameReply (ns.tableTree.view m) name newName tableType with
      | error e => rfl
      | ok _ =>
        have hFree := hHandled.closed (free_of_renameReply hReply)
        simp only [withHandles_update hFree, withHandles_update hOpen, map_none]
        rw [withHandles, overlay_closed hOpen]

theorem deleteTable_stands (name : String) (tableType : TableType)
    (hRoom : (tableEnv alloc).Roomy ns.tableTree.tree.root (.remove name)) :
    ∃ reply ns' s', ns.step alloc (.deleteTable name tableType) = .ok (reply, ns') ∧
      s.Step (.deleteTable name tableType) reply s' ∧
      Stands ns' s' := by
  rcases hStands with ⟨m, hTracks, hHandled, rfl⟩
  simp only [TableNamespace.step, TableNamespace.deleteTable, TableMap.Step]
  cases hOpen : ns.openTables name with
  | some => exact ⟨_, _, _, rfl, ⟨rfl, rfl⟩, m, hTracks, hHandled, rfl⟩
  | none =>
    rcases TableTreeMut.deleteTable_spec alloc hTracks name tableType hRoom with
      ⟨tree, m', hDelete, hTracks', hView⟩
    simp only [isSome_none, Bool.false_eq_true, if_false, hDelete, ok_bind, pure_eq_ok]
    refine ⟨_, _, _, rfl, ⟨?_, rfl⟩, m', hTracks', ?_, ?_⟩
    · unfold deleteReply
      rw [lookupUntyped_withHandles]
      cases lookupUntyped (ns.tableTree.view m) name tableType with
      | error e => rfl
      | ok found => cases found <;> rfl
    · rw [hView, deleteTables]
      cases lookupUntyped (ns.tableTree.view m) name tableType with
      | error e => exact hHandled
      | ok found =>
        cases found with
        | none => exact hHandled
        | some d => exact hHandled.update hOpen none
    · congr 1
      rw [hView, deleteTables, deleteTables, lookupUntyped_withHandles]
      cases lookupUntyped (ns.tableTree.view m) name tableType with
      | error e => rfl
      | ok found =>
        cases found with
        | none => rfl
        | some d => exact (withHandles_update hOpen none).symm

theorem closeTable_stands (name : String) :
    ∃ reply ns' s', ns.step alloc (.closeTable name) = .ok (reply, ns') ∧
      s.Step (.closeTable name) reply s' ∧
      Stands ns' s' := by
  rcases hStands with ⟨m, hTracks, hHandled, rfl⟩
  simp only [TableNamespace.step, TableMap.Step]
  cases hOpen : ns.openTables name with
  | none =>
    refine ⟨_, _, _, rfl, ⟨rfl, rfl⟩, m, hTracks, hHandled, ?_⟩
    congr 1
    funext other
    by_cases hIs : other = name
    · subst hIs
      rw [update_self, hOpen]
      rfl
    · rw [update_of_ne hIs]
  | some table =>
    rcases hHandled name table hOpen with ⟨d, hTable, hType⟩
    rcases TableTreeMut.stageUpdateTableRoot_spec hTracks hTable
      table.root table.closingLength with ⟨hTracks', hView⟩
    refine ⟨_, _, _, rfl, ⟨rfl, rfl⟩, m, hTracks', ?_, ?_⟩
    · simp only [TableNamespace.closeTable, hView]
      exact hHandled.dropHandle name _
    · simp only [TableNamespace.closeTable, hView, TableMap.mk.injEq]
      refine ⟨?_, ?_⟩
      · funext other
        by_cases hIs : other = name
        · subst hIs
          simp only [withHandles, hTable, overlay, hOpen, update_self, map_some,
            settle_setHeader hType]
        · simp only [withHandles, update_of_ne hIs, overlay_update_of_ne hIs]
      · funext other
        by_cases hIs : other = name
        · subst hIs
          rw [update_self, update_self]
          rfl
        · rw [update_of_ne hIs, update_of_ne hIs]

theorem edit_stands (name : String) (root : Option (TableHeader T)) (numValues : Nat) :
    ∃ reply ns' s', ns.step alloc (.edit name root numValues) = .ok (reply, ns') ∧
      s.Step (.edit name root numValues) reply s' ∧
      Stands ns' s' := by
  rcases hStands with ⟨m, hTracks, hHandled, rfl⟩
  simp only [TableNamespace.step, TableMap.Step]
  cases hOpen : ns.openTables name with
  | none => exact ⟨_, _, _, rfl, ⟨rfl, rfl⟩, m, hTracks, hHandled, rfl⟩
  | some table =>
    rcases hHandled name table hOpen with ⟨d, hTable, hType⟩
    refine ⟨_, _, _, rfl, ⟨rfl, rfl⟩, m, hTracks, ?_, ?_⟩
    · exact hHandled.setHandle hTable hType
    · simp only [isSome_some, if_true, TableMap.mk.injEq]
      refine ⟨?_, ?_⟩
      · rw [withHandles_handle hTable]
        congr 1
        simp only [withHandles, hTable, map_some, overlay, hOpen]
        exact congrArg some (setHeader_closingLength hType root numValues).symm
      · funext other
        by_cases hIs : other = name
        · subst hIs
          rw [update_self, hOpen]
          rfl
        · rw [update_of_ne hIs]

theorem openTable_stands (name : String) (key value : TypeInfo) (tableType : TableType)
    (hRoom : BtreeEnv.get ns.tableTree.tree.root name = .ok none →
        TableTreeMut.HasRoom alloc ns.tableTree.tree.root name (.new key value tableType none 0)) :
    ∃ reply ns' s', ns.step alloc (.openTable name key value tableType) = .ok (reply, ns') ∧
      s.Step (.openTable name key value tableType) reply s' ∧
      Stands ns' s' := by
  rcases hStands with ⟨m, hTracks, hHandled, rfl⟩
  simp only [TableNamespace.step, TableNamespace.openTable, TableMap.Step]
  cases hOpen : ns.openTables name with
  | some => exact ⟨_, _, _, rfl, ⟨rfl, rfl⟩, m, hTracks, hHandled, rfl⟩
  | none =>
    rcases TableTreeMut.getOrCreateTable_spec alloc hTracks key value name tableType hRoom with
      ⟨tree, m', hGet, hTracks', hView⟩
    simp only [isSome_none, Bool.false_eq_true, if_false, hGet, ok_bind, pure_eq_ok]
    unfold openReply openedTables
    unfold openedTables at hView
    rw [lookupTyped_withHandles]
    cases hFound : lookupTyped (ns.tableTree.view m) key value name tableType with
    | error e =>
      rw [hFound] at hView
      refine ⟨_, _, _, rfl, ⟨rfl, rfl⟩, m', hTracks', ?_, ?_⟩
      · rw [hView]
        exact hHandled
      · rw [hView]
        rfl
    | ok found =>
      cases found with
      | none =>
        rw [hFound] at hView
        have hEmpty : (OpenTable.mk tableType (none : Option (TableHeader T))
            0).closingLength = 0 := by
          cases tableType <;> rfl
        have hTable : Function.update (ns.tableTree.view m)
            name (some (.new key value tableType none 0))
            name =
            some (.new key value tableType none 0) :=
          update_self _ _ _
        refine ⟨_, _, _, rfl, ⟨?_, rfl⟩, m', hTracks', ?_, ?_⟩
        · simp only [Except.map, map_none, hEmpty]
        · rw [hView]
          exact (hHandled.update hOpen _).setHandle hTable rfl
        · rw [hView]
          simp only [Except.map, map_none, TableMap.mk.injEq]
          refine ⟨?_, isSome_update _ _ _⟩
          rw [withHandles_handle hTable, hEmpty, withHandles_update hOpen, update_idem]
          rfl
      | some d =>
        rw [hFound] at hView
        rcases found_of_lookupTyped hFound with ⟨hTable, hType⟩
        have hSettled := setHeader_closingLength hType d.tableRoot d.tableLength
        have hShown : overlay ns.openTables name d = d.setHeader d.tableRoot (OpenTable.mk tableType
              d.tableRoot d.tableLength).closingLength := by
          rw [overlay_closed hOpen, hSettled]
          rfl
        refine ⟨_, _, _, rfl, ⟨?_, rfl⟩, m', hTracks', ?_, ?_⟩
        · simp only [Except.map, map_some, hShown]
          rfl
        · rw [hView]
          exact hHandled.setHandle hTable hType
        · rw [hView]
          simp only [Except.map, map_some, TableMap.mk.injEq]
          refine ⟨?_, isSome_update _ _ _⟩
          rw [withHandles_handle hTable, ← hShown]
          symm
          refine update_eq_self_iff.mpr ?_
          rw [withHandles, hTable]
          rfl

/- The names and kinds listed are those of the map. -/
theorem listTables_stands (tableType : TableType) :
    ∃ reply ns' s', ns.step alloc (.listTables tableType) = .ok (reply, ns') ∧
      s.Step (.listTables tableType) reply s' ∧
      Stands ns' s' := by
  rcases hStands with ⟨m, hTracks, hHandled, rfl⟩
  rcases TableTreeMut.listTables_spec hTracks tableType with ⟨hSorted, hNames⟩
  refine ⟨_, _, _, rfl, ⟨rfl, _, rfl, hSorted, ?_⟩, m, hTracks, hHandled, rfl⟩
  intro name
  rw [hNames]
  simp only [withHandles, map_eq_some_iff]
  refine ⟨?_, ?_⟩
  · rintro ⟨d, hTable, hType⟩
    exact ⟨_, ⟨d, hTable, rfl⟩, (overlay_tableType _ _ d).trans hType⟩
  · rintro ⟨_, ⟨d, hTable, rfl⟩, hType⟩
    exact ⟨d, hTable, (overlay_tableType _ _ d).symm.trans hType⟩

/- Every step with room is a step on the map. -/
theorem step_stands (event : NamespaceEvent T) (hRoom : ns.RoomyStep alloc event) :
    ∃ reply ns' s', ns.step alloc event = .ok (reply, ns') ∧ s.Step event reply s' ∧
      Stands ns' s' := by
  cases event with
  | openTable name key value tableType =>
    exact openTable_stands alloc hStands name key value tableType hRoom
  | edit name root numValues => exact edit_stands alloc hStands name root numValues
  | closeTable name => exact closeTable_stands alloc hStands name
  | renameTable name newName tableType =>
    exact renameTable_stands alloc hStands name newName tableType hRoom
  | deleteTable name tableType => exact deleteTable_stands alloc hStands name tableType hRoom
  | listTables tableType => exact listTables_stands alloc hStands tableType

omit hStands

theorem run_stands (events : List (NamespaceEvent T)) {ns : TableNamespace P T} {s : TableMap T}
    (hStands : Stands ns s) (hRoomy : TableNamespace.RoomyRun alloc events ns) :
    ∃ replies ns' s', TableNamespace.run alloc events ns = .ok (replies, ns') ∧
      s.Run events replies s' ∧
      Stands ns' s' := by
  induction events generalizing ns s with
  | nil => exact ⟨[], ns, s, rfl, ⟨rfl, rfl⟩, hStands⟩
  | cons event rest ih =>
    rcases step_stands alloc hStands event hRoomy.1 with ⟨reply, ns1, s1, hStep, hMap, hStands1⟩
    rcases ih hStands1 (hRoomy.2 reply ns1 hStep) with ⟨others, ns', s', hRun, hRest, hStands'⟩
    refine ⟨reply :: others, ns', s', ?_, ⟨reply, others, s1, rfl, hMap, hRest⟩, hStands'⟩
    simp only [TableNamespace.run, hStep, ok_bind, hRun]
    rfl

/- The tables of a stored table tree, all of them closed. -/
def storedTables (m : SortedMap String (InternalTableDefinition T)) : TableMap T :=
  ⟨fun name => (m.get name).map InternalTableDefinition.settle, fun _ => false⟩

theorem new_stands {tree : BtreeState P String (InternalTableDefinition T)}
    {m : SortedMap String (InternalTableDefinition T)} (hRep : Represents tree.root m) :
    Stands (.new tree) (storedTables m) := by
  refine ⟨m, ⟨hRep, fun _ _ => rfl⟩, ?_, ?_⟩
  · intro name table hOpen
    cases hOpen
  · simp only [storedTables, TableNamespace.new, isSome_none, TableMap.mk.injEq, and_true]
    funext name
    rw [withHandles, overlay_closed rfl, TableTreeMut.view]
    cases m.get name <;> rfl

/-
  From any stored tables every run with room returns, its replies are those of a run on the map, and
  in the end the namespace stands for the map that run reaches.
-/
theorem namespace_behaves_as_map (tree : BtreeState P String (InternalTableDefinition T))
    (m : SortedMap String (InternalTableDefinition T)) (events : List (NamespaceEvent T))
    (hRep : Represents tree.root m) (hRoomy : TableNamespace.RoomyRun alloc events (.new tree)) :
    ∃ replies ns s, TableNamespace.run alloc events (.new tree) = .ok (replies, ns) ∧
      (storedTables m).Run events replies s ∧
      Stands ns s :=
  run_stands alloc events (new_stands hRep) hRoomy

end Steps

-- Runs on an Empty Table Tree

/- 32 bit numbers. -/
def wordInfo : TypeInfo := ⟨⟨.internal, ['u', '3', '2']⟩, some 4⟩

/- A table is created, edited and closed. -/
def editedEvents : List (NamespaceEvent Nat) :=
  [.openTable "a" wordInfo wordInfo .normal, .edit "a" (some ⟨7, 1⟩) 1, .closeTable "a",
    .listTables .normal]

theorem editedEvents_roomy :
    TableNamespace.RoomyRun natAllocator editedEvents (.new ⟨none, emptyMemory⟩) := by
  refine ⟨?_, fun _ _ _ => ⟨trivial, fun _ _ _ => ⟨trivial,
    fun _ _ _ => ⟨trivial, fun _ _ _ => trivial⟩⟩⟩⟩
  intro _
  refine ⟨by decide, ?_⟩
  change tableFormat.leafBytes _ < Format.offsetLimit
  decide

/- It keeps its new root, and is the one that is listed. -/
theorem edited_table_is_listed :
    TableNamespace.RoomyRun natAllocator editedEvents (.new ⟨none, emptyMemory⟩) ∧
      ∃ ns s names, TableNamespace.run natAllocator editedEvents (.new ⟨none, emptyMemory⟩) =
          .ok ([.opened (.ok (none, 0)), .nothing, .nothing, .names names], ns) ∧
        Stands ns s ∧
        s.tables "a" = some (.new wordInfo wordInfo .normal (some ⟨7, 1⟩) 1) ∧
        "a" ∈ names := by
  refine ⟨editedEvents_roomy, ?_⟩
  rcases namespace_behaves_as_map natAllocator ⟨none, emptyMemory⟩ SortedMap.empty editedEvents rfl
    editedEvents_roomy with ⟨_, ns, _, hRun, hMap, hStands⟩
  rcases hMap with ⟨_, _, _, rfl, ⟨rfl, rfl⟩, _, _, _, rfl, ⟨rfl, rfl⟩,
      _, _, _, rfl, ⟨rfl, rfl⟩, _, _, _, rfl, ⟨rfl, names, rfl, _, hNames⟩, rfl, rfl⟩
  exact ⟨ns, _, names, hRun, hStands, rfl, (hNames "a").mpr ⟨_, rfl, rfl⟩⟩

/- A name of the given number of bytes. -/
def longName (n : Nat) : String := String.ofList (List.replicate n 'a')

theorem utf8ByteSize_longName (n : Nat) : (longName n).utf8ByteSize = n := by
  induction n with
  | zero => rfl
  | succ n ih =>
    unfold longName at ih ⊢
    rw [replicate_succ', String.ofList_append, String.utf8ByteSize_append, ih]
    rfl

/- A leaf cannot hold a name of 32 bits of bytes. -/
theorem insert_long_name
    {name : String} (hLong : 2 ^ 32 ≤ name.utf8ByteSize) (d : InternalTableDefinition Nat) :
    (tableEnv natAllocator).insert true none name d emptyMemory = .error .outOfRange := by
  have hBytes : ¬ tableFormat.leafBytes [(name, d)] < Format.offsetLimit := by
    simp only [Format.leafBytes, Format.kvBytes, Format.pairLen,
      tableFormat, map_cons, map_nil, sum_cons, sum_nil, Format.offsetLimit]
    omega
  have hWidth : (tableFormat (T := Nat)).fixedValueSize.isSome = false := rfl
  have hPanics : tableFormat.leafEncodable [(name, d)] = false := by
    simp only [Format.leafEncodable, Format.offsetsFit, hWidth,
      decide_eq_false hBytes, Bool.or_false, Bool.and_false, Bool.false_and]
  simp only [BtreeEnv.insert, BtreeEnv.buildLeaf, tableEnv,
    hPanics, require, Bool.false_eq_true, if_false]
  rfl

/- Opening a table with a name of four gigabytes panics. -/
theorem long_name_panics : TableNamespace.run (T := Nat) natAllocator
        [.openTable (longName (2 ^ 32)) wordInfo wordInfo .normal]
        (.new ⟨none, emptyMemory⟩) =
      .error .outOfRange := by
  have hInsert := insert_long_name (le_of_eq (utf8ByteSize_longName (2 ^ 32)).symm)
    (.new wordInfo wordInfo .normal none 0)
  generalize longName (2 ^ 32) = name at hInsert ⊢
  have hEncodable : (InternalTableDefinition.new (T := Nat)
      wordInfo wordInfo .normal none 0).encodable = true := by
    decide
  have hCreate : TableTreeMut.insert ⟨⟨none, emptyMemory⟩, fun _ => none⟩ natAllocator name
      (InternalTableDefinition.new (T := Nat) wordInfo wordInfo
        .normal none 0) = .error .outOfRange := by
    simp only [TableTreeMut.insert, hEncodable, require, if_true, hInsert]
    rfl
  have hGet : TableTreeMut.getTable (T := Nat)
      ⟨⟨none, emptyMemory⟩, fun _ => none⟩ wordInfo wordInfo name
      .normal (P := Nat × Nat) = .ok (.ok none) := rfl
  simp only [TableNamespace.run, TableNamespace.step, TableNamespace.openTable, TableNamespace.new,
    TableTreeMut.getOrCreateTable, hGet, hCreate,
    isSome_none, Bool.false_eq_true, if_false, ok_bind]
  rfl

end Redbx
