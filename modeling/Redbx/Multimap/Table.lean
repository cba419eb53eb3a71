import Mathlib.Data.Finset.Sort
import Redbx.Multimap.Collections

/-
  A multimap table behaves as a finite set of pairs.

  The table is a tree of the keys, each with the collection of its values. The tree and the trees of
  the collections take their pages from one allocator, and are edited in place or copied as the marks
  of their pages say. No page belongs to two of them, so that a call on one key leaves the values of
  the others alone, before and after a commit.

  All these trees need room: three keys of two gigabytes make the branch above them panic.

  Key theorems include:
    * `Apart.editSubtree`, `Apart.editTree`
    * `removeAll_models`, `multimap_behaves_as_pairs`
-/

namespace Redbx

open Redbx.Tree List Option

------------------------------------------------------------
-- The Table
------------------------------------------------------------

/-
  The tree of the keys and the number of values. The pages of the tree and those of the subtrees have
  their own contents, and are marked together.
-/
structure MultimapTable (P K V : Type) [DecidableEq P] where
  root : TreeRoot P K (DynamicCollection P V)
  pages : P → Option (Node P K (DynamicCollection P V))
  subtreePages : P → Option (Node P V Unit)
  committed : Finset P
  uncommitted : Finset P
  disjoint : Disjoint committed uncommitted
  freed : List P
  numValues : Nat

/- A call on the table, or a commit of the transaction, after which the table is opened again. -/
inductive MultimapCall (K V : Type) where
  | insert (key : K) (value : V)
  | remove (key : K) (value : V)
  | removeAll (key : K)
  | get (key : K)
  | len
  | commit

inductive MultimapReply (V : Type) where
  | existed (flag : Bool)
  | tooLarge (error : ValueTooLarge)
  | values (values : List V)
  | length (n : Nat)
  | committed
  deriving DecidableEq

namespace MultimapTable

variable {P K V : Type} [DecidableEq P]

variable (t : MultimapTable P K V)

/- The pages as the tree of the keys sees them. -/
def tableMem : Mem P K (DynamicCollection P V) :=
  ⟨t.pages, t.committed, t.uncommitted, t.disjoint, t.freed⟩

/- The pages as the subtrees see them. -/
def subtreeMem : Mem P V Unit :=
  ⟨t.subtreePages, t.committed, t.uncommitted, t.disjoint, t.freed⟩

/- The table after its tree was edited. -/
def putTree
    (root : TreeRoot P K (DynamicCollection P V))
    (mem : Mem P K (DynamicCollection P V)) : MultimapTable P K V :=
  ⟨root, mem.pages, t.subtreePages, mem.committed, mem.uncommitted, mem.disjoint, mem.freed,
    t.numValues⟩

/- The table after a subtree was edited. -/
def putSubtrees (mem : Mem P V Unit) : MultimapTable P K V :=
  ⟨t.root, t.pages, mem.pages, mem.committed, mem.uncommitted, mem.disjoint, mem.freed,
    t.numValues⟩

def setNumValues (numValues : Nat) : MultimapTable P K V :=
  { t with numValues := numValues }

/- The pages in use become committed, and the queued ones are left to the reclaiming. -/
def commit : MultimapTable P K V :=
  { t with
    committed := t.committed ∪ t.uncommitted
    uncommitted := ∅
    disjoint := Finset.disjoint_empty_right _
    freed := [] }

variable [LinearOrder K] [LinearOrder V] (env : MultimapEnv P K V)

/- The change of a collection is written back. -/
def apply (key : K) :
    CollectionChange P V → Except Panic (MultimapTable P K V)
  | .keep => return t
  | .put collection => do
    let (_, root, mem) ← env.table.insert true t.root key collection t.tableMem
    return t.putTree root mem
  | .drop => do
    let (_, root, mem) ← env.table.remove true t.root key t.tableMem
    return t.putTree root mem

/- The size checks of `MultimapTable::insert`. -/
def checkSizes (key : K) (value : V) : Except ValueTooLarge Unit :=
  if maxValueLength < env.values.keyLen value then
    .error ⟨env.values.keyLen value⟩
  else if maxValueLength < env.keyLen key then
    .error ⟨env.keyLen key⟩
  else if maxPairLength <
      env.values.keyLen value + env.keyLen key then
    .error ⟨env.values.keyLen value + env.keyLen key⟩
  else
    .ok ()

/- `MultimapTable::insert`. -/
def insert (key : K) (value : V) : Except Panic (MultimapReply V × MultimapTable P K V) :=
  match checkSizes env key value with
  | .error e => return (.tooLarge e, t)
  | .ok _ => do
    let collection ← BtreeEnv.get t.root key
    let (change, existed, mem) ← env.insertCollection value t.subtreeMem collection
    let t ← (t.putSubtrees mem).apply env key change
    return (.existed existed, t.setNumValues (if existed then t.numValues else t.numValues + 1))

/- `MultimapTable::remove`. -/
def remove (key : K) (value : V) : Except Panic (MultimapReply V × MultimapTable P K V) := do
  match ← BtreeEnv.get t.root key with
  | none => return (.existed false, t)
  | some collection =>
    let (change, existed, mem) ← env.removeCollection value t.subtreeMem collection
    let t ← (t.putSubtrees mem).apply env key change
    return (.existed existed, t.setNumValues (if existed then t.numValues - 1 else t.numValues))

/- The iterator of `remove_all` is dropped, which frees the pages of a subtree. -/
def freeOnDrop (collection : DynamicCollection P V) : MultimapTable P K V :=
  t.putSubtrees (collection.pageNumbers.foldl (fun mem page => mem.conditionalFree true page)
    t.subtreeMem)

/- `MultimapTable::remove_all`; the reply is what the returned iterator yields. -/
def removeAll (key : K) : Except Panic (MultimapReply V × MultimapTable P K V) := do
  let (collection, root, mem) ← env.table.remove true t.root key t.tableMem
  let values ← MultimapValue.yielded collection
  let t := t.putTree root mem
  match collection with
  | none => return (.values values, t)
  | some collection =>
    return (.values values,
      (t.setNumValues (t.numValues - collection.getNumValues)).freeOnDrop collection)

/- `get`; the reply is what the returned iterator yields. -/
def get (key : K) : Except Panic (MultimapReply V) := do
  let collection ← BtreeEnv.get t.root key
  let values ← MultimapValue.yielded collection
  return .values values

def step : MultimapCall K V →
    Except Panic (MultimapReply V × MultimapTable P K V)
  | .insert key value => t.insert env key value
  | .remove key value => t.remove env key value
  | .removeAll key => t.removeAll env key
  | .get key => do
    let reply ← t.get key
    return (reply, t)
  | .len => return (.length t.numValues, t)
  | .commit => return (.committed, t.commit)

/- A sequence of calls, with all replies. -/
def run : List (MultimapCall K V) → MultimapTable P K V →
    Except Panic (List (MultimapReply V) × MultimapTable P K V)
  | [], t => return ([], t)
  | call :: rest, t => do
    let (reply, t) ← t.step env call
    let (replies, t) ← run rest t
    return (reply :: replies, t)

end MultimapTable

------------------------------------------------------------
-- Pages of the Table
------------------------------------------------------------

section Pages

variable {P K V : Type} [DecidableEq P]

/- The pages of the tree of the keys, and for each key those of the tree of its values. -/
def treePages
    (root : TreeRoot P K (DynamicCollection P V))
    (subtrees : K → TreeRoot P V Unit) : Option K → Multiset P
  | none => rootPages root
  | some key => rootPages (subtrees key)

/- All trees of the table are stored, without a common page. -/
structure Apart (t : MultimapTable P K V) (subtrees : K → TreeRoot P V Unit) : Prop where
  each : OwnsEach t.subtreeMem (treePages t.root subtrees)
  tree : RootHolds t.tableMem t.root
  subtree : ∀ key, RootHolds t.subtreeMem (subtrees key)

variable {t : MultimapTable P K V} {subtrees : K → TreeRoot P V Unit}

/- The tree of one key was edited. -/
theorem Apart.editSubtree
    (hApart : Apart t subtrees)
    {key : K}
    {after : K → TreeRoot P V Unit}
    {mem : Mem P V Unit}
    (hTurns : Turns true t.subtreeMem (rootPages (subtrees key)) (rootPages (after key)) mem)
    (hHolds : RootHolds mem (after key))
    (hOthers : ∀ other, other ≠ key → after other = subtrees other) :
    Apart (t.putSubtrees mem) after := by
  have hSame : ∀ owner : Option K, owner ≠ some key →
      treePages t.root after owner = treePages t.root subtrees owner := by
    intro owner hNe
    cases owner with
    | none => rfl
    | some other =>
      change rootPages _ = rootPages _
      rw [hOthers other fun hIs => hNe (congrArg some hIs)]
  rcases hApart.each.turns (T := treePages t.root after) (i := some key) hTurns hSame with
    ⟨hEach, hPages⟩
  refine ⟨hEach, hApart.tree.congr fun _ _ => rfl, ?_⟩
  intro other
  by_cases hIs : other = key
  · rw [hIs]
    exact hHolds.congr fun _ _ => rfl
  · rw [hOthers other hIs]
    exact (hApart.subtree other).congr fun p hp =>
      hPages (some other) (fun hSome => hIs (Option.some.inj hSome)) p hp

/- The tree of the keys was edited. -/
theorem Apart.editTree
    (hApart : Apart t subtrees)
    {root : TreeRoot P K (DynamicCollection P V)}
    {mem : Mem P K (DynamicCollection P V)}
    (hTurns : Turns true t.tableMem (rootPages t.root) (rootPages root) mem)
    (hHolds : RootHolds mem root) :
    Apart (t.putTree root mem) subtrees := by
  have hBefore : OwnsEach t.tableMem (treePages t.root subtrees) :=
    ⟨hApart.each.owns, hApart.each.apart⟩
  have hSame : ∀ owner : Option K, owner ≠ none →
      treePages root subtrees owner = treePages t.root subtrees owner := by
    intro owner hNe
    cases owner with
    | none => exact absurd rfl hNe
    | some other => rfl
  rcases hBefore.turns (T := treePages root subtrees) (i := none) hTurns hSame with ⟨hEach, _⟩
  refine ⟨⟨hEach.owns, hEach.apart⟩, hHolds.congr fun _ _ => rfl, ?_⟩
  intro key
  exact (hApart.subtree key).congr fun _ _ => rfl

theorem Apart.setNumValues (hApart : Apart t subtrees) (numValues : Nat) :
    Apart (t.setNumValues numValues) subtrees :=
  ⟨⟨hApart.each.owns, hApart.each.apart⟩, hApart.tree.congr fun _ _ => rfl, fun key =>
    (hApart.subtree key).congr fun _ _ => rfl⟩

/- A commit moves no page. -/
theorem Apart.commit (hApart : Apart t subtrees) : Apart t.commit subtrees := by
  refine ⟨⟨?_, hApart.each.apart⟩, hApart.tree.congr fun _ _ => rfl, fun key =>
    (hApart.subtree key).congr fun _ _ => rfl⟩
  intro owner
  refine ⟨(hApart.each.owns owner).1, ?_⟩
  intro p hp
  exact Finset.mem_union_left _ ((hApart.each.owns owner).2 p hp)

/- The pages of a collection that nobody uses any more are let go of. -/
theorem Apart.freeOnDrop
    (hApart : Apart t subtrees)
    {key : K}
    {collection : DynamicCollection P V}
    (hTree : subtrees key = collection.subtree)
    {after : K → TreeRoot P V Unit}
    (hNone : after key = none)
    (hOthers : ∀ other, other ≠ key → after other = subtrees other) :
    Apart (t.freeOnDrop collection) after := by
  have hOwns : Owns t.subtreeMem (0 + (collection.pageNumbers : Multiset P)) := by
    rw [zero_add, collection.coe_pageNumbers, ← hTree]
    exact hApart.each.owns (some key)
  have hNothing : Owns t.subtreeMem 0 := ⟨Multiset.nodup_zero, fun _ hp => by simp at hp⟩
  have hTurns : Turns true t.subtreeMem _ _ _ := (Turns.refl hNothing).then_freeAll _ hOwns
  rw [zero_add, collection.coe_pageNumbers, ← hTree] at hTurns
  refine hApart.editSubtree ?_ ?_ hOthers
  · rw [hNone]
    exact hTurns
  · rw [hNone]
    trivial

end Pages

------------------------------------------------------------
-- The Set of Pairs
------------------------------------------------------------

section Pairs

variable {P K V : Type} [DecidableEq P] [LinearOrder K] [LinearOrder V]

/- The values of a key, in order. -/
def keyValues (pairs : Finset (K × V)) (key : K) : List V :=
  ((pairs.filter fun pair => pair.1 = key).image Prod.snd).sort (· ≤ ·)

variable (env : MultimapEnv P K V)

/- What a call does on the set of pairs. -/
def pairsStep (pairs : Finset (K × V)) : MultimapCall K V → MultimapReply V × Finset (K × V)
  | .insert key value =>
    match MultimapTable.checkSizes env key value with
    | .error e => (.tooLarge e, pairs)
    | .ok _ =>
      (.existed (decide ((key, value) ∈ pairs)), insert (key, value) pairs)
  | .remove key value =>
    (.existed (decide ((key, value) ∈ pairs)), pairs.erase (key, value))
  | .removeAll key =>
    (.values (keyValues pairs key), pairs.filter fun pair => pair.1 ≠ key)
  | .get key => (.values (keyValues pairs key), pairs)
  | .len => (.length pairs.card, pairs)
  | .commit => (.committed, pairs)

/- The same calls on the set, with all replies. -/
def pairsRun : List (MultimapCall K V) → Finset (K × V) → List (MultimapReply V) × Finset (K × V)
  | [], pairs => ([], pairs)
  | call :: rest, pairs =>
    let (replies, last) := pairsRun rest (pairsStep env pairs call).2
    ((pairsStep env pairs call).1 :: replies, last)

/- The values of the key are those the map has. -/
def HasValues (pairs : Finset (K × V)) (key : K) (m : SortedMap V Unit) : Prop :=
  ∀ value, (key, value) ∈ pairs ↔ (m.get value).isSome = true

/- The trees of the values of the keys. -/
def keySubtrees (m : SortedMap K (DynamicCollection P V)) (key : K) : TreeRoot P V Unit :=
  subtreeOf (m.get key)

/- The table stands for the set of pairs. -/
structure Models (t : MultimapTable P K V) (pairs : Finset (K × V)) : Prop where
  trees : ∃ m, Represents t.root m ∧ Apart t (keySubtrees m) ∧
    ∀ key, ∃ values, MayCollect (m.get key) values ∧ HasValues pairs key values
  count : t.numValues = pairs.card

variable {pairs : Finset (K × V)} {key : K}

theorem HasValues.keyValues_eq {m : SortedMap V Unit} (hValues : HasValues pairs key m) :
    keyValues pairs key = m.entries.map Prod.fst := by
  have hImage : (pairs.filter fun pair => pair.1 = key).image
      Prod.snd = (m.entries.map Prod.fst).toFinset := by
    ext value
    simp only [Finset.mem_image, Finset.mem_filter, List.mem_toFinset, List.mem_map]
    refine ⟨?_, ?_⟩
    · rintro ⟨⟨_, _⟩, ⟨hIn, rfl⟩, rfl⟩
      rcases isSome_iff_exists.mp ((hValues _).mp hIn) with ⟨u, hGet⟩
      exact ⟨_, SortedMap.get_eq_some_iff.mp hGet, rfl⟩
    · rintro ⟨e, hIn, rfl⟩
      exact ⟨(key, e.1), ⟨(hValues _).mpr (SortedMap.get_isSome_of_mem hIn), rfl⟩, rfl⟩
  have hSorted : (m.entries.map Prod.fst).Pairwise (· < ·) := pairwise_map.mpr m.sorted
  rw [keyValues, hImage]
  exact (toFinset_sort (· ≤ ·) m.keys_nodup).mpr (hSorted.imp fun hLt => le_of_lt hLt)

------------------------------------------------------------
-- Calls
------------------------------------------------------------

/- The tree of the keys has room for the change. -/
def MultimapTable.ApplyRoom (t : MultimapTable P K V) (key : K) : CollectionChange P V → Prop
  | .keep => True
  | .put collection =>
    env.table.Roomy t.root (.insert key collection)
  | .drop => env.table.Roomy t.root (.remove key)

variable {t : MultimapTable P K V}

theorem apply_spec
    {m : SortedMap K (DynamicCollection P V)}
    (hRep : Represents t.root m)
    {subtrees : K → TreeRoot P V Unit}
    (hApart : Apart t subtrees)
    {before after : SortedMap V Unit}
    (hBefore : MayCollect (m.get key) before)
    {change : CollectionChange P V}
    (hChange : change.Leaves before after)
    (hRoom : t.ApplyRoom env key change) :
    ∃ t' m', t.apply env key change = .ok t' ∧ t'.numValues = t.numValues ∧
      Represents t'.root m' ∧
      Apart t' subtrees ∧
      MayCollect (m'.get key) after ∧
      keySubtrees m' key = change.subtree (keySubtrees m key) ∧
      ∀ other, other ≠ key → m'.get other = m.get other := by
  have hOwns := hApart.each.owns none
  cases change with
  | keep =>
    have hSame : after = before := hChange
    exact ⟨t, m, rfl, rfl, hRep, hApart, hSame ▸ hBefore, rfl, fun _ _ => rfl⟩
  | put collection =>
    rcases insert_spec env.table hRep true key collection
      t.tableMem hRoom with ⟨root, tableMem, hInsert, hRep'⟩
    rcases insert_turns env.table hOwns hApart.tree hInsert with ⟨hTurns, hHolds⟩
    have hGet : (m.insert key collection).get key = some collection := by
      rw [SortedMap.get_insert, if_pos rfl]
    refine ⟨t.putTree root tableMem, m.insert key collection, ?_, rfl, hRep',
      hApart.editTree hTurns hHolds, ?_, ?_, ?_⟩
    · simp only [MultimapTable.apply, hInsert, ok_bind]
      rfl
    · rw [hGet]
      exact hChange
    · rw [keySubtrees, hGet]
      rfl
    · intro other hNe
      rw [SortedMap.get_insert, if_neg hNe]
  | drop =>
    rcases remove_spec env.table hRep true key t.tableMem
      hRoom with ⟨root, tableMem, hRemove, hRep'⟩
    rcases remove_turns env.table hOwns hApart.tree hRemove with ⟨hTurns, hHolds⟩
    have hGet : (m.erase key).get key = none := by
      rw [SortedMap.get_erase, if_pos rfl]
    refine ⟨t.putTree root tableMem, m.erase key, ?_, rfl, hRep',
      hApart.editTree hTurns hHolds, ?_, ?_, ?_⟩
    · simp only [MultimapTable.apply, hRemove, ok_bind]
      rfl
    · rw [hGet]
      exact hChange
    · rw [keySubtrees, hGet]
      rfl
    · intro other hNe
      rw [SortedMap.get_erase, if_neg hNe]

/- The values of one key have changed. -/
theorem models_of_key
    {m m' : SortedMap K (DynamicCollection P V)}
    {pairs pairs' : Finset (K × V)}
    (key : K)
    (after : SortedMap V Unit)
    (hRep : Represents t.root m')
    (hApart : Apart t (keySubtrees m'))
    (hBefore : ∀ key, ∃ values, MayCollect (m.get key) values ∧ HasValues pairs key values)
    (hAfter : MayCollect (m'.get key) after)
    (hValues : HasValues pairs' key after)
    (hOthers : ∀ other, other ≠ key → m'.get other = m.get other)
    (hPairs : ∀ other, other ≠ key → ∀ value, (other, value) ∈ pairs' ↔ (other, value) ∈ pairs)
    (hCount : t.numValues = pairs'.card) :
    Models t pairs' := by
  refine ⟨⟨m', hRep, hApart, ?_⟩, hCount⟩
  intro other
  by_cases hIs : other = key
  · rw [hIs]
    exact ⟨after, hAfter, hValues⟩
  · rcases hBefore other with ⟨values, hCollects, hHas⟩
    refine ⟨values, hOthers other hIs ▸ hCollects, ?_⟩
    intro value
    rw [hPairs other hIs]
    exact hHas value

/- The collection of a key was edited, and the change is written back. -/
theorem apply_models
    {m : SortedMap K (DynamicCollection P V)}
    {pairs pairs' : Finset (K × V)}
    {before after : SortedMap V Unit}
    {change : CollectionChange P V}
    {mem : Mem P V Unit}
    (hRep : Represents t.root m)
    (hApart : Apart t (keySubtrees m))
    (hKeys : ∀ key, ∃ values, MayCollect (m.get key) values ∧ HasValues pairs key values)
    (hCollects : MayCollect (m.get key) before)
    (hTurns : Turns true t.subtreeMem (rootPages (keySubtrees m key))
      (rootPages (change.subtree (keySubtrees m key))) mem ∧
        RootHolds mem (change.subtree (keySubtrees m key)))
    (hChange : change.Leaves before after)
    (hRoom : t.ApplyRoom env key change)
    (hValues : HasValues pairs' key after)
    (hPairs : ∀ other, other ≠ key → ∀ value, (other, value) ∈ pairs' ↔ (other, value) ∈ pairs) :
    ∃ t', (t.putSubtrees mem).apply env key change = .ok t' ∧ t'.numValues = t.numValues ∧
      ∀ numValues, numValues = pairs'.card → Models (t'.setNumValues numValues) pairs' := by
  have hTree : Represents (t.putSubtrees mem).root m := hRep
  have hEdited : Apart (t.putSubtrees mem)
      (Function.update (keySubtrees m) key (change.subtree (keySubtrees m key))) := by
    refine hApart.editSubtree ?_ ?_ fun other hNe => Function.update_of_ne hNe _ _
    · rw [Function.update_self]
      exact hTurns.1
    · rw [Function.update_self]
      exact hTurns.2
  rcases apply_spec env hTree hEdited hCollects hChange hRoom with
    ⟨t', m', hApply, hNum, hRep', hApart', hAfter, hSubtree, hOthers⟩
  have hSubtrees : Function.update (keySubtrees m) key (change.subtree (keySubtrees m key)) =
      keySubtrees m' := by
    funext other
    by_cases hIs : other = key
    · rw [hIs, Function.update_self, hSubtree]
    · rw [Function.update_of_ne hIs, keySubtrees, keySubtrees, hOthers other hIs]
  rw [hSubtrees] at hApart'
  refine ⟨t', hApply, hNum, ?_⟩
  intro numValues hCount
  exact models_of_key key after hRep' (hApart'.setNumValues numValues) hKeys hAfter hValues hOthers
    hPairs hCount

/- There is room for everything the call changes. -/
def MultimapTable.RoomyCall (t : MultimapTable P K V) : MultimapCall K V → Prop
  | .insert key value =>
    ∀ collection, BtreeEnv.get t.root key = .ok collection →
      env.InsertRoom value t.subtreeMem collection ∧ ∀ change existed mem,
          env.insertCollection value t.subtreeMem collection = .ok (change, existed, mem) →
          t.ApplyRoom env key change
  | .remove key value =>
    ∀ collection, BtreeEnv.get t.root key = .ok (some collection) →
      env.RemoveRoom value collection ∧ ∀ change existed mem,
          env.removeCollection value t.subtreeMem collection = .ok (change, existed, mem) →
          t.ApplyRoom env key change
  | .removeAll key =>
    env.table.Roomy t.root (.remove key)
  | .get _ | .len | .commit => True

theorem insert_models
    (hModels : Models t pairs)
    (key : K)
    (value : V)
    (hRoom : t.RoomyCall env (.insert key value)) :
    ∃ t', t.insert env key value = .ok ((pairsStep env pairs (.insert key value)).1, t') ∧
      Models t' (pairsStep env pairs (.insert key value)).2 := by
  simp only [MultimapTable.insert, pairsStep]
  cases MultimapTable.checkSizes env key value with
  | error e => exact ⟨t, rfl, hModels⟩
  | ok _ =>
    rcases hModels with ⟨⟨m, hRep, hApart, hKeys⟩, hCount⟩
    rcases hKeys key with ⟨values, hCollects, hHas⟩
    have hGet := get_spec hRep key
    rcases hRoom _ hGet with ⟨hInner, hOuter⟩
    rcases insertCollection_spec env hCollects value
      t.subtreeMem hInner with ⟨_, mem, hInsert, hChange⟩
    have hTurns := insertCollection_turns env (hApart.each.owns (some key))
      (hApart.subtree key) hInsert
    have hFlag : (values.get value).isSome = decide ((key, value) ∈ pairs) := by
      rw [Bool.eq_iff_iff, decide_eq_true_iff]
      exact (hHas value).symm
    have hValues : HasValues (insert (key, value) pairs) key (values.insert value ()) := by
      intro other
      rw [SortedMap.get_insert, Finset.mem_insert, hHas other]
      by_cases hIs : other = value
      · rw [hIs]
        simp
      · rw [if_neg hIs]
        simp [hIs]
    have hOthers : ∀ other, other ≠ key → ∀ v,
        (other, v) ∈ insert (key, value) pairs ↔ (other, v) ∈ pairs := by
      intro other hNe v
      simp [Finset.mem_insert, hNe]
    rcases apply_models env hRep hApart hKeys hCollects hTurns hChange (hOuter _ _ _ hInsert)
      hValues hOthers with ⟨t', hApply, hNum, hAfter⟩
    refine ⟨_, ?_, hAfter (if (values.get value).isSome then t'.numValues
      else t'.numValues + 1) ?_⟩
    · simp only [hGet, ok_bind, hInsert, hApply, ← hFlag]
      rfl
    · rw [hNum, hCount, hFlag]
      by_cases hIn : (key, value) ∈ pairs
      · simp [hIn]
      · simp [hIn, Finset.card_insert_of_notMem hIn]

theorem remove_models
    (hModels : Models t pairs)
    (key : K)
    (value : V)
    (hRoom : t.RoomyCall env (.remove key value)) :
    ∃ t', t.remove env key value = .ok ((pairsStep env pairs (.remove key value)).1, t') ∧
      Models t' (pairsStep env pairs (.remove key value)).2 := by
  rcases hModels with ⟨⟨m, hRep, hApart, hKeys⟩, hCount⟩
  rcases hKeys key with ⟨values, hCollects, hHas⟩
  have hGet := get_spec hRep key
  have hFlag : (values.get value).isSome = decide ((key, value) ∈ pairs) := by
    rw [Bool.eq_iff_iff, decide_eq_true_iff]
    exact (hHas value).symm
  simp only [MultimapTable.remove, pairsStep, hGet, ok_bind]
  cases hFound : m.get key with
  | none =>
    rw [hFound] at hCollects
    have hNil : values.entries = [] := hCollects
    have hAbsent : (key, value) ∉ pairs := by
      rw [hHas value, SortedMap.get, hNil]
      simp
    refine ⟨t, ?_, ?_⟩
    · simp only [hAbsent, decide_false]
      rfl
    · rw [Finset.erase_eq_of_notMem hAbsent]
      exact ⟨⟨m, hRep, hApart, hKeys⟩, hCount⟩
  | some collection =>
    rw [hFound] at hGet
    rcases hRoom _ hGet with ⟨hInner, hOuter⟩
    have hCollects' : Collects collection values := by
      rw [hFound] at hCollects
      exact hCollects
    rcases removeCollection_spec env hCollects' value
      t.subtreeMem hInner with ⟨_, mem, hRemove, hChange⟩
    have hSubtree : keySubtrees m key = collection.subtree := by
      rw [keySubtrees, hFound]
      rfl
    have hOwns : Owns t.subtreeMem (rootPages (keySubtrees m key)) := hApart.each.owns (some key)
    have hHolds := hApart.subtree key
    rw [hSubtree] at hOwns hHolds
    have hTurns := removeCollection_turns env hOwns hHolds hRemove
    rw [← hSubtree] at hTurns
    have hValues : HasValues (pairs.erase (key, value)) key (values.erase value) := by
      intro other
      rw [SortedMap.get_erase, Finset.mem_erase, hHas other]
      by_cases hIs : other = value
      · rw [hIs]
        simp
      · rw [if_neg hIs]
        simp [hIs]
    have hOthers : ∀ other, other ≠ key → ∀ v,
        (other, v) ∈ pairs.erase (key, value) ↔ (other, v) ∈ pairs := by
      intro other hNe v
      simp [Finset.mem_erase, hNe]
    rcases apply_models env hRep hApart hKeys hCollects hTurns hChange (hOuter _ _ _ hRemove)
      hValues hOthers with ⟨t', hApply, hNum, hAfter⟩
    refine ⟨_, ?_, hAfter (if (values.get value).isSome then t'.numValues - 1
      else t'.numValues) ?_⟩
    · simp only [hRemove, ok_bind, hApply, ← hFlag]
      rfl
    · rw [hNum, hCount, hFlag]
      by_cases hIn : (key, value) ∈ pairs
      · simp [hIn, Finset.card_erase_of_mem hIn]
      · simp [hIn]

/- What the iterator yields, and the number that is taken off the table's. -/
theorem MayCollect.yields
    {values : SortedMap V Unit}
    (hHas : HasValues pairs key values)
    {collection : Option (DynamicCollection P V)}
    (hCollects : MayCollect collection values)
    (hDistinct : (rootPages (subtreeOf collection)).Nodup) :
    MultimapValue.yielded collection = .ok (keyValues pairs key) ∧
      (collection.map DynamicCollection.getNumValues).getD 0 = (keyValues pairs key).length := by
  rw [hHas.keyValues_eq, length_map]
  refine ⟨iter_drains hCollects hDistinct, ?_⟩
  cases collection with
  | none =>
    have hNil : values.entries = [] := hCollects
    rw [hNil]
    rfl
  | some c =>
    have hSome : Collects c values := hCollects
    exact hSome.values_eq.2

omit [DecidableEq P] in
theorem length_keyValues (pairs : Finset (K × V)) (key : K) :
    (keyValues pairs key).length = (pairs.filter fun pair => pair.1 = key).card := by
  rw [keyValues, Finset.length_sort]
  apply Finset.card_image_of_injOn
  intro x hx y hy hSame
  have hX := (Finset.mem_filter.mp hx).2
  have hY := (Finset.mem_filter.mp hy).2
  exact Prod.ext (hX.trans hY.symm) hSame

theorem removeAll_models
    (hModels : Models t pairs)
    (key : K)
    (hRoom : t.RoomyCall env (.removeAll key)) :
    ∃ t', t.removeAll env key = .ok ((pairsStep env pairs (.removeAll key)).1, t') ∧
      Models t' (pairsStep env pairs (.removeAll key)).2 := by
  rcases hModels with ⟨⟨m, hRep, hApart, hKeys⟩, hCount⟩
  rcases hKeys key with ⟨_, hCollects, hHas⟩
  rcases remove_spec env.table hRep true key t.tableMem hRoom with ⟨root, mem, hRemove, hRep'⟩
  rcases remove_turns env.table (hApart.each.owns none) hApart.tree hRemove with ⟨hTurns, hHolds⟩
  have hEdited := hApart.editTree hTurns hHolds
  rcases MayCollect.yields hHas hCollects (hApart.each.owns (some key)).1 with ⟨hYields, hNum⟩
  have hSplit : (keyValues pairs key).length + (pairs.filter fun pair => pair.1 ≠ key).card =
        pairs.card := by
    rw [length_keyValues]
    exact Finset.card_filter_add_card_filter_not _
  have hErased : (m.erase key).get key = none := by
    rw [SortedMap.get_erase, if_pos rfl]
  have hKept : ∀ other, other ≠ key → (m.erase key).get other = m.get other := by
    intro other hNe
    rw [SortedMap.get_erase, if_neg hNe]
  have hSubtrees : ∀ other, other ≠ key → keySubtrees (m.erase key) other = keySubtrees m other := by
    intro other hNe
    rw [keySubtrees, keySubtrees, hKept other hNe]
  have hGone (t' : MultimapTable P K V) (hRoot : t'.root = root)
      (hApart' : Apart t' (keySubtrees (m.erase key)))
      (hLeft : t'.numValues = pairs.card - (keyValues pairs key).length) :
      Models t' (pairs.filter fun pair => pair.1 ≠ key) := by
    refine models_of_key key SortedMap.empty (hRoot ▸ hRep') hApart' hKeys ?_ ?_ hKept ?_ ?_
    · rw [hErased]
      rfl
    · intro value
      simp [SortedMap.get, SortedMap.empty]
    · intro other hNe value
      simp [hNe]
    · rw [hLeft]
      omega
  simp only [MultimapTable.removeAll, pairsStep, hRemove, ok_bind, hYields]
  cases hFound : m.get key with
  | none =>
    rw [hFound] at hNum
    have hNone : 0 = (keyValues pairs key).length := hNum
    have hSame : keySubtrees (m.erase key) = keySubtrees m := by
      funext other
      by_cases hIs : other = key
      · rw [hIs, keySubtrees, keySubtrees, hErased, hFound]
      · exact hSubtrees other hIs
    refine ⟨_, rfl, hGone _ rfl (hSame ▸ hEdited) ?_⟩
    change t.numValues = _
    omega
  | some collection =>
    rw [hFound] at hNum
    have hSome : collection.getNumValues = (keyValues pairs key).length := hNum
    have hTree : keySubtrees m key = collection.subtree := by
      rw [keySubtrees, hFound]
      rfl
    have hNone : keySubtrees (m.erase key) key = none := by
      rw [keySubtrees, hErased]
      rfl
    refine ⟨_, rfl, hGone _ rfl ((hEdited.setNumValues _).freeOnDrop hTree hNone hSubtrees) ?_⟩
    change t.numValues - collection.getNumValues = _
    rw [hSome, hCount]

theorem get_models (hModels : Models t pairs) (key : K) :
    t.get key = .ok (.values (keyValues pairs key)) := by
  rcases hModels with ⟨⟨m, hRep, hApart, hKeys⟩, _⟩
  rcases hKeys key with ⟨values, hCollects, hHas⟩
  unfold MultimapTable.get
  rw [get_spec hRep]
  simp only [ok_bind, (MayCollect.yields hHas hCollects (hApart.each.owns (some key)).1).1]
  rfl

theorem step_models
    (hModels : Models t pairs) (call : MultimapCall K V) (hRoom : t.RoomyCall env call) :
    ∃ t', t.step env call = .ok ((pairsStep env pairs call).1, t') ∧
      Models t' (pairsStep env pairs call).2 := by
  cases call with
  | insert key value => exact insert_models env hModels key value hRoom
  | remove key value => exact remove_models env hModels key value hRoom
  | removeAll key => exact removeAll_models env hModels key hRoom
  | get key =>
    refine ⟨t, ?_, hModels⟩
    simp only [MultimapTable.step, get_models hModels, ok_bind]
    rfl
  | len =>
    refine ⟨t, ?_, hModels⟩
    simp only [MultimapTable.step, pairsStep, hModels.count]
    rfl
  | commit =>
    rcases hModels with ⟨⟨m, hRep, hApart, hKeys⟩, hCount⟩
    exact ⟨t.commit, rfl, ⟨m, hRep, hApart.commit, hKeys⟩, hCount⟩

/- Before every call there is room for it. -/
def MultimapTable.RoomyRun : List (MultimapCall K V) → MultimapTable P K V → Prop
  | [], _ => True
  | call :: rest, t =>
    t.RoomyCall env call ∧ ∀ reply t', t.step env call = .ok (reply, t') → RoomyRun rest t'

/- A table without entries. -/
def MultimapTable.empty : MultimapTable P K V :=
  ⟨none, fun _ => none, fun _ => none, ∅, ∅, disjoint_empty P, [], 0⟩

theorem empty_models : Models (MultimapTable.empty : MultimapTable P K V) ∅ := by
  refine ⟨⟨SortedMap.empty, rfl, ⟨⟨?_, ?_⟩, trivial, fun _ => trivial⟩, ?_⟩, rfl⟩
  · intro owner
    cases owner <;> exact ⟨Multiset.nodup_zero, fun _ hp => by cases hp⟩
  · intro i j _
    cases i <;> exact Multiset.zero_disjoint _
  · intro key
    refine ⟨SortedMap.empty, rfl, ?_⟩
    intro value
    simp [SortedMap.get, SortedMap.empty]

/-
  From any table that stands for a set of pairs, whichever of its pages are committed, every run
  with room returns, replies as the set of pairs does, and ends on a table that stands for the set
  that is left.
-/
theorem multimap_behaves_as_pairs
    (calls : List (MultimapCall K V))
    (hModels : Models t pairs)
    (hRoomy : MultimapTable.RoomyRun env calls t) :
    ∃ t', MultimapTable.run env calls t = .ok ((pairsRun env calls pairs).1, t') ∧
      Models t' (pairsRun env calls pairs).2 := by
  induction calls generalizing t pairs with
  | nil => exact ⟨t, rfl, hModels⟩
  | cons call rest ih =>
    rcases step_models env hModels call hRoomy.1 with ⟨t1, hStep, hModels1⟩
    rcases ih hModels1 (hRoomy.2 _ _ hStep) with ⟨t', hRun, hModels'⟩
    refine ⟨t', ?_, hModels'⟩
    simp only [MultimapTable.run, hStep, ok_bind, hRun]
    rfl

end Pairs

------------------------------------------------------------
-- Small and Large Keys
------------------------------------------------------------

/- Values of 8 bytes without anything stored with them. -/
def wordValues : Format Nat Unit where
  keyLen := fun _ => 8
  valueLen := fun _ => 0
  fixedKeySize := some 8
  fixedValueSize := some 0
  keyLen_eq := natFormat.keyLen_eq
  valueLen_eq := fun width hWidth _ => by
    cases hWidth
    rfl
  eq_of_width_zero := natFormat.eq_of_width_zero

/- Keys that all have the given number of bytes. -/
def wideKeys (width : Nat) : MultimapEnv (Nat × Nat) Nat Nat where
  keyLen := fun _ => width
  fixedKeySize := none
  keyLen_eq := fun _ hWidth => by cases hWidth
  eq_of_width_zero := fun hWidth => by cases hWidth
  values := wordValues
  alloc := natAllocator

/- Values given by their lengths. -/
def sizedValues : Format Nat Unit where
  keyLen := fun v => v
  valueLen := fun _ => 0
  fixedKeySize := none
  fixedValueSize := some 0
  keyLen_eq := natFormat.valueLen_eq
  valueLen_eq := wordValues.valueLen_eq
  eq_of_width_zero := (wideKeys 0).eq_of_width_zero

def sizedEnv : MultimapEnv (Nat × Nat) Nat Nat :=
  { wideKeys 8 with values := sizedValues }

/- A value in a tree of its own is committed, another one added, and both are read and removed. -/
def subtreeCalls : List (MultimapCall Nat Nat) :=
  [.insert 1 3000, .commit, .insert 1 7, .get 1, .removeAll 1, .len]

/- Small pages. -/
def smallBounds : Bounds := ⟨10, 4000, 10, 4000, 3000⟩

theorem subtreeCalls_roomy : MultimapTable.RoomyRun sizedEnv subtreeCalls MultimapTable.empty := by
  refine ⟨?_, ?_⟩
  · rintro _ ⟨⟩
    refine ⟨?_, ?_⟩
    · change sizedValues.leafBytes [(3000, ())] < Format.offsetLimit
      decide
    · rintro change _ _ hChange
      cases hChange
      change sizedEnv.table.fmt.leafBytes [(1, .subtreeV2 _)] < Format.offsetLimit
      decide
  · rintro _ t1 hStep
    cases hStep
    refine ⟨trivial, ?_⟩
    rintro _ t2 hStep
    cases hStep
    refine ⟨?_, ?_⟩
    · intro c hc
      cases hc
      refine ⟨?_, ?_⟩
      · refine ⟨smallBounds, ?_, ?_⟩
        · exact ⟨by decide, by decide, by decide⟩
        · constructor <;> decide
      · intro _ _ _ h
        cases h
        refine ⟨smallBounds, ?_, ?_⟩
        · exact ⟨by decide, by decide, fun _ _ => (by decide : 8 ≤ 3000)⟩
        · constructor <;> decide
    · rintro _ t3 hStep
      cases hStep
      refine ⟨trivial, ?_⟩
      intro _ t4 hStep
      cases hStep
      refine ⟨?_, ?_⟩
      · refine ⟨smallBounds, ?_, ?_⟩
        · exact ⟨by decide, by decide, fun _ _ => (by decide : 8 ≤ 3000)⟩
        · constructor <;> decide
      · intro _ _ _
        exact ⟨trivial, fun _ _ _ => trivial⟩


theorem keyValues_subtree :
    keyValues (insert (1, 7) (insert (1, 3000) ∅) : Finset (Nat × Nat)) 1 = [7, 3000] := by
  have hImage : ((insert (1, 7) (insert (1, 3000) ∅) : Finset (Nat × Nat)).filter
      fun pair => pair.1 = 1).image Prod.snd = [7, 3000].toFinset := by
    decide
  rw [keyValues, hImage]
  exact (toFinset_sort (· ≤ ·) (by decide)).mpr (by decide)

/- Both values are yielded in order, twice, and none is left. -/
theorem subtree_values_are_yielded :
    Models (MultimapTable.empty : MultimapTable (Nat × Nat) Nat Nat) ∅ ∧
      MultimapTable.RoomyRun sizedEnv subtreeCalls MultimapTable.empty ∧
      ∃ t, MultimapTable.run sizedEnv subtreeCalls MultimapTable.empty =
          .ok ([.existed false, .committed, .existed false, .values [7, 3000],
            .values [7, 3000], .length 0], t) := by
  refine ⟨empty_models, subtreeCalls_roomy, ?_⟩
  rcases multimap_behaves_as_pairs sizedEnv subtreeCalls empty_models subtreeCalls_roomy with
    ⟨t, hRun, _⟩
  refine ⟨t, ?_⟩
  rw [← keyValues_subtree]
  exact hRun
/- Whether a run panicked. -/
def panicked {Result : Type} : Except Panic Result → Bool
  | .error _ => true
  | .ok _ => false

/-
  Three keys of two gigabytes: the branch above their leaves holds two of them, which is more than
  32 bits address.
-/
theorem three_large_keys_panic :
    panicked (MultimapTable.run (wideKeys (2 ^ 31)) [.insert 0 0, .insert 1 0, .insert 2 0]
      MultimapTable.empty) = true := by
  decide +kernel

end Redbx
