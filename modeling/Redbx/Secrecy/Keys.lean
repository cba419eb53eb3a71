import Redbx.Secrecy.Values
import Redbx.Btree.SingleLeaf

/-
  What the file shows of the keys, checksums left aside.

  A leaf that is split, or that gets a neighbour, leaves one of its keys in the branch page above,
  and branch pages are not encrypted. Two runs on other keys of the same lengths and order leave the
  same file as long as no branch page is built, that is as long as every insertion fits in the leaf
  of its table.

  Key theorems include:
    * `single_leaves_same_file`, `split_shows_key`
-/

namespace Redbx

open Bytes Redbx.Tree List

variable {P T : Type} {K V ι W : T → Type}

-- Leaving Checksums Aside

/- All checksums are replaced by the placeholder. -/
def erased : Relabel T K V K V := ⟨fun _ => id, fun _ => id, fun _ => deferred⟩

/- A step is the same step with the checksums erased. -/
theorem erased_sameEvent (event : Event P T K V) : (erased (K := K)).SameEvent event event := by
  cases event with
  | call t c =>
    refine .call t ?_
    cases c with
    | call c =>
      have hCall : ((erased (K := K) (V := V)).user t).call c = c := by
        cases c with
        | getMut => simp only [Renaming.call, erased, Relabel.user, map_id, id]
        | insert => rfl
        | insertReserve => rfl
        | remove key => rfl
        | get key => rfl
        | first | last => rfl
      have hSame := Renaming.SameCall.call (r := (erased (K := K) (V := V)).user t) c
      rwa [hCall] at hSame
    | retain => exact .retain (fun _ => rfl) (fun _ _ => rfl)
    | extractIf _ _ sides => exact .extractIf sides (fun _ => rfl) (fun _ _ => rfl)
  | finalize t => exact .finalize t
  | record t u name => exact .record t u name
  | writePage t p => exact .writePage t p
  | writeSlot which user system transactionId => exact .writeSlot which user system transactionId
  | writeFront data => exact .writeFront data
  | resize length => exact .resize length
  | commit => exact .commit
  | release p => exact .release p
  | restore i => exact .restore i

/- No branch page is written. -/
def FileWrite.IsLeaf : FileWrite P T K V → Prop
  | .page _ _ node => node.IsLeaf
  | _ => True

/- Relabelling does not turn leaves into branches. -/
theorem isLeaf_write {f : Relabel T ι W K V} (w : FileWrite P T ι W) :
    (f.write w).IsLeaf ↔ w.IsLeaf := by
  cases w with
  | page t p node =>
    cases node with
    | leaf => exact Iff.rfl
    | branch => exact Iff.rfl
  | slot => exact Iff.rfl
  | front data => exact Iff.rfl
  | resize => exact Iff.rfl

variable [DecidableEq P]

/- A database that hashes every page alike. -/
def Engine.unhashed (e : Engine P T K V) : Engine P T K V :=
  { e with hash := fun _ => deferred }

theorem Engine.unhashed_digest
    (e : Engine P T K V) (t : T) (node : Node P (K t) (StoredValue P T (V t))) :
    e.unhashed.digest t node = deferred := by
  cases node with
  | leaf => rfl
  | branch => rfl

theorem run_erased
    [DecidableEq T] [∀ t, Ord (K t)] (e : Engine P T K V) (events : List (Event P T K V)) :
    e.unhashed.run Store.empty events = (e.run Store.empty events).map erased.store := by
  have hRespects : (erased (K := K) (V := V)).Respects e e.unhashed :=
    { alloc := rfl
      tail := rfl
      fixedKeySize := fun _ => rfl
      fixedValueSize := fun _ => rfl
      keyLen := fun _ _ => rfl
      valueLen := fun _ _ => rfl
      compare := fun _ _ _ => rfl
      deferred := rfl }
  refine run_relabel hRespects ?_ ?_ ?_ Store.empty
  · intro t children keys
    exact e.unhashed_digest t _
  · intro s event
    cases event with
    | finalize t =>
      intro pairs _
      exact e.unhashed_digest t _
    | call | record | writePage | writeSlot | writeFront | resize | commit | release | restore
      => trivial
  · exact List.forall₂_same.mpr fun event _ => erased_sameEvent event

theorem rootCells_erased (e : Engine P T K V) (root : Option (RootHeader P)) :
    e.rootCells checksumHidden (root.map (erased (K := K) (V := V)).header) =
      e.rootCells checksumHidden root := by
  cases root with
  | none => rfl
  | some root => rfl

theorem rootFlag_erased (e : Engine P T K V) (root : Option (RootHeader P)) :
    TransactionHeader.rootFlag ((root.map (erased (K := K) (V := V)).header).map e.btreeHeader) =
      TransactionHeader.rootFlag (root.map e.btreeHeader) := by
  cases root with
  | none => rfl
  | some root => rfl

theorem pageCells_erased
    (e : Engine P T K V) (t : T) (p : P) (node : Node P (K t) (StoredValue P T (V t))) :
    e.pageCells checksumHidden t p ((erased.onTree t).node node) =
      e.pageCells checksumHidden t p node := by
  cases node with
  | leaf => simp only [Renaming.node, Engine.pageCells]
  | branch children keys =>
    have hCells : e.branchCells checksumHidden t (children.map
              (((erased (K := K) (V := V)).onTree (P := P) t).child id))
            (keys.map (((erased (K := K) (V := V)).onTree (P := P) t).key)) =
          e.branchCells checksumHidden t children keys := by
      simp only [Engine.branchCells, flatMap_map, map_map]
      rfl
    simp only [Renaming.node, Engine.pageCells, hCells]

theorem slotCells_erased
    (e : Engine P T K V) (user system : Option (RootHeader P)) (transactionId : UInt64) :
    e.slotCells checksumHidden (user.map (erased (K := K) (V := V)).header)
        (system.map (erased (K := K) (V := V)).header) transactionId =
      e.slotCells checksumHidden user system transactionId := by
  simp only [Engine.slotCells, rootCells_erased, rootFlag_erased, checksumHidden]

/- The file is seen alike when checksums are left aside. -/
theorem fileCells_erased (e : Engine P T K V) (log : List (FileWrite P T K V)) :
    e.fileCells checksumHidden (log.map erased.write) = e.fileCells checksumHidden log := by
  have hSame := fileCells_congr e checksumHidden erased.write id log ?_
  · rwa [map_id] at hSame
  · intro w _ file
    cases w with
    | page t p node => simp only [Relabel.write, Engine.applyWrite, pageCells_erased, id]
    | slot =>
      simp only [Relabel.write, Engine.applyWrite, slotCells_erased, id]
    | front data => rfl
    | resize => rfl

-- Databases without Branch Pages

/-
  No tree has a branch, now or in an earlier commit, and no branch page was ever written to the
  file.
-/
structure Store.LeafOnly (s : Store P T K V) : Prop where
  trees : ∀ t, SingleLeaf (s.tree t).root (s.tree t).mem
  saved : ∀ roots ∈ s.saved, ∀ t, LeafRoot (roots t)
  log : ∀ w ∈ s.log, w.IsLeaf

theorem leafOnly_empty : (Store.empty : Store P T K V).LeafOnly where
  trees := fun t => ⟨leafRoot_none, fun p node hNode => by cases hNode⟩
  saved := fun roots hIn => by cases hIn
  log := fun w hIn => by cases hIn

theorem Store.LeafOnly.put [DecidableEq T] {s : Store P T K V} (hLeaf : s.LeafOnly) {t : T}
    {tree : BtreeState P (K t) (StoredValue P T (V t))} (hTree : SingleLeaf tree.root tree.mem) :
    (s.put t tree).LeafOnly := { hLeaf with
  trees := by
    intro u
    have hRoot : ((s.put t tree).tree u).root = Function.update s.roots t tree.root u := rfl
    have hPages : ((s.put t tree).tree u).mem.pages =
          Function.update s.pages t tree.mem.pages u := rfl
    by_cases hSame : u = t
    · subst hSame
      rw [Function.update_self] at hRoot hPages
      exact ⟨hRoot ▸ hTree.root, hPages ▸ hTree.pages⟩
    · rw [Function.update_of_ne hSame] at hRoot hPages
      exact ⟨hRoot ▸ (hLeaf.trees u).root, hPages ▸ (hLeaf.trees u).pages⟩ }

theorem Store.LeafOnly.write
    {s : Store P T K V} (hLeaf : s.LeafOnly) {w : FileWrite P T K V} (hWrite : w.IsLeaf) :
    (s.write w).LeafOnly := { hLeaf with
  log := by
    intro v hIn
    rcases mem_append.mp hIn with hOld | hNew
    · exact hLeaf.log v hOld
    · rw [mem_singleton.mp hNew]
      exact hWrite }

/- A log without branch pages does not show keys. -/
theorem fileCells_of_leaves
    (e : Engine P T K V) (key₁ key₂ : (t : T) → ι t → K t) (value₁ value₂ : (t : T) → W t → V t)
    (log : List (FileWrite P T ι W)) (hLeaf : ∀ w ∈ log, w.IsLeaf) :
    e.fileCells checksumHidden (log.map (named key₁ value₁).write) =
      e.fileCells checksumHidden (log.map (named key₂ value₂).write) := by
  apply fileCells_congr
  intro w hIn file
  cases w with
  | page t p node =>
    cases node with
    | leaf => rfl
    | branch => exact absurd (hLeaf _ hIn) id
  | slot => rfl
  | front data => rfl
  | resize => rfl

section Runs

variable [DecidableEq T] [∀ t, Ord (K t)] (e : Engine P T K V)

/- What a step inserts fits in the leaf of its table. -/
def Engine.StepFits (s : Store P T K V) : Event P T K V → Prop
  | .call t c =>
    CallFitsLeaf (e.fmt t) (s.roots t) (c.stored P T)
  | .record t u name =>
    FitsLeaf (e.fmt u) (s.roots u) name (.definition t ((s.roots t).map BtreeRoot.header))
  | _ => True

/- Every step of a run fits. -/
def Engine.RunFits : List (Event P T K V) → Store P T K V → Prop
  | [], _ => True
  | event :: rest, s =>
    e.StepFits s event ∧ ∀ s', e.step s event = .ok s' → Engine.RunFits rest s'

theorem step_leafOnly
    {s s' : Store P T K V} {event : Event P T K V} (hStep : e.step s event = .ok s')
    (hFits : e.StepFits s event) (hLeaf : s.LeafOnly) :
    s'.LeafOnly := by
  cases event with
  | call t c =>
    simp only [Engine.step, bind_eq_ok] at hStep
    rcases hStep with ⟨tree, hCall, hEq⟩
    cases hEq
    exact hLeaf.put (tableCall_singleLeaf hCall (hLeaf.trees t) hFits)
  | finalize t =>
    simp only [Engine.step, bind_eq_ok] at hStep
    rcases hStep with ⟨⟨_, _⟩, hFinalize, hEq⟩
    cases hEq
    exact hLeaf.put (finalize_singleLeaf hFinalize (hLeaf.trees t))
  | record t u name =>
    simp only [Engine.step, bind_eq_ok] at hStep
    rcases hStep with ⟨⟨_, _, _⟩, hInsert, hEq⟩
    cases hEq
    exact hLeaf.put (insert_singleLeaf hInsert (hLeaf.trees u) hFits)
  | writePage t p =>
    simp only [Engine.step] at hStep
    split at hStep
    · cases hStep
      exact hLeaf
    · rename_i node hNode
      cases hStep
      exact hLeaf.write ((hLeaf.trees t).pages p node hNode)
  | writeSlot | writeFront | resize =>
    cases hStep
    exact hLeaf.write trivial
  | commit =>
    cases hStep
    refine ⟨fun t => ⟨(hLeaf.trees t).root, (hLeaf.trees t).pages⟩, ?_, hLeaf.log⟩
    intro roots hIn t
    rcases mem_cons.mp hIn with rfl | hOld
    · exact (hLeaf.trees t).root
    · exact hLeaf.saved roots hOld t
  | release p =>
    cases hStep
    exact ⟨fun t => ⟨(hLeaf.trees t).root, (hLeaf.trees t).pages⟩, hLeaf.saved, hLeaf.log⟩
  | restore i =>
    simp only [Engine.step] at hStep
    split at hStep
    · cases hStep
      exact hLeaf
    · rename_i roots hRoots
      cases hStep
      have hIn := mem_of_getElem? hRoots
      exact ⟨fun t => ⟨hLeaf.saved roots hIn t, (hLeaf.trees t).pages⟩, hLeaf.saved, hLeaf.log⟩

theorem run_leafOnly
    {events : List (Event P T K V)} {s s' : Store P T K V} (hRun : e.run s events = .ok s')
    (hFits : e.RunFits events s) (hLeaf : s.LeafOnly) :
    s'.LeafOnly := by
  induction events generalizing s with
  | nil =>
    cases hRun
    exact hLeaf
  | cons _ _ ih =>
    simp only [Engine.run, bind_eq_ok] at hRun
    rcases hRun with ⟨s1, hStep, hRest⟩
    exact ih hRest (hFits.2 s1 hStep) (step_leafOnly e hStep hFits.1 hLeaf)

-- Runs on Other Keys

variable [∀ t, Ord (ι t)] {key₁ key₂ : (t : T) → ι t → K t} {value₁ value₂ : (t : T) → W t → V t}

theorem run_named (hKey : ∀ t, Function.Injective (key₁ t))
    (hRespects : (named key₂ value₂).Respects (e.unhashed.pull key₁ value₁ hKey) e.unhashed)
    {script : List (Event P T ι W)} {events : List (Event P T K V)}
    (hSame : List.Forall₂ (named key₂ value₂).SameEvent script events) :
    e.unhashed.run Store.empty events = ((e.unhashed.pull key₁ value₁ hKey).run Store.empty
        script).map (named key₂ value₂).store := by
  have hDigest : ∀ t node, (e.unhashed.pull key₁ value₁ hKey).digest t node = deferred := by
    intro t node
    cases node with
    | leaf => rfl
    | branch => rfl
  refine run_relabel hRespects ?_ ?_ hSame Store.empty
  · intro t children keys
    rw [e.unhashed_digest, hDigest]
    rfl
  · intro s event
    cases event with
    | finalize t =>
      intro pairs _
      rw [e.unhashed_digest, hDigest]
      rfl
    | call | record | writePage | writeSlot | writeFront | resize | commit | release | restore
      => trivial

/-
  Two runs on other keys of the same lengths and order leave the same file, checksums left aside, if
  everything that is inserted on the way fits in the leaf of its table.
-/
theorem single_leaves_same_file (hKey : ∀ t, Function.Injective (key₁ t))
    (hOrder₁ : ∀ t (a b : ι t), compare (key₁ t a) (key₁ t b) = compare a b)
    (hOrder₂ : ∀ t (a b : ι t), compare (key₂ t a) (key₂ t b) = compare a b)
    (hKeyLen : ∀ t i, (e.keyData t (key₂ t i)).length = (e.keyData t (key₁ t i)).length)
    (hValueLen : ∀ t w, (e.valueData t (value₂ t w)).length = (e.valueData t (value₁ t w)).length)
    {script : List (Event P T ι W)} {events₁ events₂ : List (Event P T K V)}
    (hSame₁ : List.Forall₂ (named key₁ value₁).SameEvent script events₁)
    (hSame₂ : List.Forall₂ (named key₂ value₂).SameEvent script events₂)
    (hFits : e.RunFits events₁ Store.empty) :
    (e.run Store.empty events₁).map (fun s => e.fileCells checksumHidden s.log) =
      (e.run Store.empty events₂).map (fun s => e.fileCells checksumHidden s.log) := by
  have hRun₁ := run_named e hKey (named_respects e.unhashed key₁ key₁ value₁ value₁ hKey
      (fun _ _ => rfl) (fun _ _ => rfl) hOrder₁) hSame₁
  have hRun₂ := run_named e hKey (named_respects e.unhashed key₁ key₂ value₁ value₂ hKey
      hKeyLen hValueLen hOrder₂) hSame₂
  rw [run_erased] at hRun₁ hRun₂
  cases hNames : (e.unhashed.pull key₁ value₁ hKey).run Store.empty script with
  | error =>
    rw [hNames] at hRun₁ hRun₂
    rw [map_eq_error hRun₁, map_eq_error hRun₂]
  | ok s =>
    rw [hNames] at hRun₁ hRun₂
    rcases map_eq_ok hRun₁ with ⟨s₁, hOk₁, hStore₁⟩
    rcases map_eq_ok hRun₂ with ⟨s₂, hOk₂, hStore₂⟩
    have hLog₁ : s₁.log.map erased.write = s.log.map (named key₁ value₁).write :=
      congrArg Store.log hStore₁
    have hLog₂ : s₂.log.map erased.write = s.log.map (named key₂ value₂).write :=
      congrArg Store.log hStore₂
    have hLeaf : ∀ w ∈ s.log, w.IsLeaf := by
      intro w hIn
      have hMapped : (named key₁ value₁).write w ∈ s₁.log.map erased.write := by
        rw [hLog₁]
        exact mem_map_of_mem hIn
      rcases mem_map.mp hMapped with ⟨w₁, hIn₁, hWrite⟩
      have hLeaf₁ := (run_leafOnly e hOk₁ hFits leafOnly_empty).log w₁ hIn₁
      exact (isLeaf_write w).mp (hWrite ▸ (isLeaf_write w₁).mpr hLeaf₁)
    rw [hOk₁, hOk₂]
    have hCells : e.fileCells checksumHidden s₁.log = e.fileCells checksumHidden s₂.log := by
      calc e.fileCells checksumHidden s₁.log
          = e.fileCells checksumHidden (s₁.log.map erased.write) :=
            (fileCells_erased e s₁.log).symm
        _ = e.fileCells checksumHidden (s₂.log.map erased.write) := by
            rw [hLog₁, hLog₂]
            exact fileCells_of_leaves e key₁ key₂ value₁ value₂ s.log hLeaf
        _ = e.fileCells checksumHidden s₂.log :=
            fileCells_erased e s₂.log
    exact congrArg Except.ok hCells

end Runs

-- A Branch That Shows a Key

/- A page-filling value and a byte are stored under two keys, and the transaction is committed. -/
def commitKeys (a b : UInt8) :
    List (Event (Nat × Nat) SampleTable (fun _ => UInt8) (fun _ => SampleValue)) :=
  [.call .data (.call (.insert a .large)), .call .data (.call (.insert b (.small 5))),
    .finalize .data, .record .data .tables 7, .finalize .tables, .writePage .data (1, 1),
    .writePage .data (0, 2), .writePage .data (0, 3), .writePage .tables (0, 4),
    .writeSlot 0 .tables .system 1, .commit]

/-
  The first key separates the two leaves: it stands in the branch in page 3, after its head, two
  checksums and two page numbers.
-/
theorem split_shows_key : ((sampleEngine sampleHash).run Store.empty (commitKeys 1 2)).toOption.map
        (fun s => (sampleEngine sampleHash).fileCells checksumHidden s.log (3 * 8192 + 56)) =
      some (some 1) ∧
    ((sampleEngine sampleHash).run Store.empty (commitKeys 3 4)).toOption.map
        (fun s => (sampleEngine sampleHash).fileCells checksumHidden s.log (3 * 8192 + 56)) =
      some (some 3) := by
  decide +kernel

/- The key of a user, or the name of the table. -/
def keyNamed (key : UInt8) (t : SampleTable) (_ : Unit) : UInt8 :=
  match t with
  | .data => key
  | _ => 7

/- One key is stored, and its page is written out. -/
def storeOne (key : UInt8) :
    List (Event (Nat × Nat) SampleTable (fun _ => UInt8) (fun _ => SampleValue)) :=
  [.call .data (.call (.insert key (.small 5))), .record .data .tables 7, .writePage .data (0, 1),
    .writeSlot 0 .tables .system 1]

def storeOneNamed : List (Event (Nat × Nat) SampleTable (fun _ => Unit) (fun _ => Unit)) :=
  [.call .data (.call (.insert () ())), .record .data .tables (), .writePage .data (0, 1),
    .writeSlot 0 .tables .system 1]

theorem storeOne_sameEvents (key : UInt8) :
    List.Forall₂ (named (keyNamed key) fun _ _ => .small 5).SameEvent
      storeOneNamed (storeOne key) := by
  have hRecord := Relabel.SameEvent.record (P := Nat × Nat)
      (f := named (K := fun _ => UInt8) (keyNamed key) fun _ (_ : Unit) => SampleValue.small 5)
      SampleTable.data SampleTable.tables ()
  exact .cons (.call _ (.call (.insert () ()))) (.cons hRecord (.cons (.writePage _ _)
        (.cons (.writeSlot _ _ _ _) .nil)))

theorem storeOne_fits (key : UInt8) : (sampleEngine sampleHash).RunFits (storeOne key)
      Store.empty := by
  have hEmpty : ∀ {t : SampleTable} (root : Option (BtreeRoot (Nat × Nat) UInt8
        (StoredValue (Nat × Nat) SampleTable SampleValue)))
      (name : UInt8) (value : StoredValue (Nat × Nat) SampleTable SampleValue),
      root = none → FitsLeaf (sampleFormat t) root name value := by
    intro t root name value hNone leaf checksum length hRoot
    rw [hNone] at hRoot
    cases hRoot
  refine ⟨hEmpty _ _ _ rfl, fun s hStep => ⟨?_, ?_⟩⟩
  · simp only [Engine.step, bind_eq_ok] at hStep
    rcases hStep with ⟨tree, _, hEq⟩
    cases hEq
    exact hEmpty _ _ _ rfl
  · exact fun _ _ => ⟨trivial, fun _ _ => ⟨trivial, fun _ _ => trivial⟩⟩

theorem one_leaf_same_file : ((sampleEngine sampleHash).run Store.empty (storeOne 1)).map
        (fun s => (sampleEngine sampleHash).fileCells checksumHidden s.log) =
      ((sampleEngine sampleHash).run Store.empty (storeOne 3)).map
        (fun s => (sampleEngine sampleHash).fileCells checksumHidden s.log) := by
  refine single_leaves_same_file (sampleEngine sampleHash) (fun _ _ _ _ => rfl) ?_ ?_ ?_ ?_
    (storeOne_sameEvents 1) (storeOne_sameEvents 3) (storeOne_fits 1)
  · intro t a b
    cases t with
    | data | tables | system => rfl
  · intro t a b
    cases t with
    | data | tables | system => rfl
  · exact fun _ _ => rfl
  · exact fun _ _ => rfl

end Redbx
