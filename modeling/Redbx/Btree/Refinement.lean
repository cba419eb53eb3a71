import Mathlib.Data.Finset.Lattice.Fold
import Mathlib.Order.Lattice.Nat
import Redbx.Btree.Lookup

/-
  A B-tree behaves as a finite map sorted by key.

  `Represents` relates a root to a `SortedMap`. Every call on a tree that has room for it returns
  what the call returns on the map, and leaves a root that represents the new map. The relation does
  not look at the pages, so between two calls any of them may become committed or uncommitted.

  The room is needed: the pairs of a page are counted in 16 bits, and a leaf that was once large
  takes new pairs at its end until the count overflows.

  Key theorems include:
    * `run_refines`, `tree_behaves_as_sorted_map`
-/

namespace Redbx

open Redbx.Tree List

variable {P K V : Type} [LinearOrder K]

-- Representation

/- The root denotes the map, and stores its length. -/
def Represents (root : TreeRoot P K V) (m : SortedMap K V) : Prop :=
  match root with
  | none => m.entries = []
  | some r =>
    Good r.height none none r.tree ∧ entries r.height r.tree = m.entries ∧ r.length = m.length

-- Calls on the Map

/- What a call does on the map. -/
def SortedMap.call (m : SortedMap K V) : Call K V → Reply K V × SortedMap K V
  | .insert key value =>
    (.value (m.get key), m.insert key value)
  | .insertReserve key value => (.done, m.insert key value)
  | .remove key => (.value (m.get key), m.erase key)
  | .get key => (.value (m.get key), m)
  | .getMut key values =>
    (.value (m.get key), if (m.get key).isSome then
        values.foldl (fun m value => m.insert key value) m
      else
        m)
  | .first => (.entry m.first, m)
  | .last => (.entry m.last, m)

-- Room

variable [DecidableEq P] (env : BtreeEnv P K V)

/- The pages of the tree have room for the call: no count exceeds 16 bits and no offset 32. -/
def BtreeEnv.Roomy (root : TreeRoot P K V) : Call K V → Prop
  | .insert key value | .insertReserve key value =>
    match root with
    | none =>
      env.fmt.leafBytes [(key, value)] < Format.offsetLimit
    | some r =>
      ∃ bounds : Bounds, Sizes env.fmt bounds r.height r.tree ∧ bounds.InsertRoom env.fmt key value
  | .remove _ =>
    match root with
    | none => True
    | some r =>
      ∃ bounds : Bounds, Sizes env.fmt bounds r.height r.tree ∧ bounds.DeleteRoom
  | .getMut key values =>
    match root with
    | none => True
    | some r =>
      ∀ leaf, leafFor r.height r.tree key = some leaf → (leaf.pairs.lookup key).isSome →
        leaf.pairs.length ≤ Format.maxCount ∧ ∀ value ∈ values, env.fmt.leafBytes
                (insertEntry key value leaf.pairs) <
              Format.offsetLimit
  | .get _ | .first | .last => True

-- Single Calls

variable {m : SortedMap K V} {root : TreeRoot P K V}

theorem insert_spec
    (hRep : Represents root m) (modify : Bool) (key : K) (value : V) (mem : Mem P K V)
    (hRoomy : env.Roomy root (.insert key value)) :
    ∃ root' mem', env.insert modify root key value mem = .ok (m.get key, root', mem') ∧
      Represents root' (m.insert key value) := by
  cases root with
  | none =>
    have hNil : m.entries = [] := hRep
    rcases buildLeaf_returns env mem (env.fmt.leafEncodable_of_sublist (List.Sublist.refl _)
        (cons_ne_nil (key, value) []) (by simp [Format.maxCount]) hRoomy) with ⟨leaf, mem1, hBuild⟩
    have hPairs := (env.buildLeaf_ok hBuild).2.1
    have hEntries : (m.insert key value).entries = [(key, value)] := by
      change insertEntry key value m.entries = _
      rw [hNil, insertEntry_nil]
    refine ⟨some ⟨0, leaf, deferred, 1⟩, mem1, ?_, ?_, ?_, ?_⟩
    · simp [BtreeEnv.insert, hBuild, SortedMap.get, hNil]
    · change LeafGood none none leaf.pairs
      rw [hPairs]
      exact ⟨cons_ne_nil _ _, pairwise_singleton _ _, fun e _ => within_none e.1⟩
    · exact hPairs.trans hEntries.symm
    · rw [SortedMap.length, hEntries]
      rfl
  | some r =>
    rcases hRep with ⟨hGood, hEntries, hLength⟩
    rcases hRoomy with ⟨_, hSizes, hRoom⟩
    rcases insertHelper_returns env modify r.height
      r.tree r.checksum mem hGood (within_none key) hSizes
      hRoom with ⟨result, mem1, hInsert, hKeys⟩
    rcases insertHelper_contents env hGood (within_none key) hInsert with ⟨hChain, hNew, hOld⟩
    rw [hEntries] at hNew hOld
    have hNewLength : (if result.oldValue.isSome then r.length else r.length + 1) =
          (m.insert key value).length := by
      rw [SortedMap.length_insert, hOld, hLength, SortedMap.get]
      split <;> rfl
    unfold BtreeEnv.insert
    simp only [hInsert, ok_bind]
    cases hNext : result.pieces.next with
    | none =>
      have hParts : result.pieces.keys = [] ∧ result.pieces.children = [result.pieces.first] := by
        simp [Pieces.keys, Pieces.children, hNext]
      rw [hParts.1, hParts.2] at hChain
      rw [hParts.2, childEntries_singleton] at hNew
      have hFirst : ChildGood r.height none none result.pieces.first :=
        (Chain.nil_singleton _ _ _).mp hChain
      rw [hOld]
      rw [hOld] at hNewLength
      exact ⟨_, _, rfl, hFirst, hNew, hNewLength⟩
    | some next =>
      rcases next with ⟨separator, sibling⟩
      have hParts : result.pieces.keys = [separator] ∧ result.pieces.children =
            [result.pieces.first, sibling] := by
        simp [Pieces.keys, Pieces.children, hNext]
      rw [hParts.1, hParts.2] at hChain
      rw [hParts.2] at hNew
      have hLen := hKeys separator (by simp [hParts.1])
      have hHeader := hRoom.header
      have hBranch := hRoom.branchBytes
      have hCons := (env.fmt.branchBytes_cons_le separator []).2
      have hEmpty : env.fmt.branchBytes [] = 32 := by simp [Format.branchBytes, Format.keyBytes]
      rcases buildBranch_returns env [result.pieces.first, sibling] [separator] mem1 rfl
        (env.fmt.branchEncodable_of_sublist (List.Sublist.refl _) (cons_ne_nil _ _)
          (by simp [Format.maxCount]) (by omega)) with
        ⟨branch, mem2, hBuild⟩
      rcases env.buildBranch_ok hBuild with ⟨_, _, hChildren, hBranchKeys, _⟩
      simp only [hBuild, ok_bind]
      rw [hOld]
      rw [hOld] at hNewLength
      refine ⟨_, _, rfl, ?_, ?_, hNewLength⟩
      · change branch.keys ≠ [] ∧ Chain (ChildGood r.height) branch.keys none branch.children none
        rw [hBranchKeys, hChildren]
        exact ⟨cons_ne_nil _ _, hChain⟩
      · change childEntries r.height branch.children = _
        rw [hChildren]
        exact hNew

theorem rootAfterDelete_spec
    {n : Nat} {result : DeletionResult P K V n} {bounds : Bounds} (mem : Mem P K V)
    (hLeft : Left none none m.entries result) (hSmall : Small env.fmt bounds result) :
    ∃ root mem', env.rootAfterDelete m.length result mem = .ok (root, mem') ∧
      Represents root m := by
  cases result with
  | subtree =>
    rw [BtreeEnv.rootAfterDelete]
    exact ⟨_, _, rfl, hLeft.1, hLeft.2, rfl⟩
  | deletedLeaf => exact ⟨none, mem, rfl, hLeft⟩
  | partialLeaf pairs =>
    rcases hLeft with ⟨hErase, hCount, hTarget⟩
    rcases hSmall with ⟨hFew, hLight, _⟩
    rw [hErase] at hFew hLight
    have hLimits : (1351 : Nat) ≤ Format.maxCount ∧ 1351 < Format.offsetLimit := by decide
    rcases buildLeaf_returns env mem (env.fmt.leafEncodable_of_sublist (List.Sublist.refl _)
        hTarget.1 (by omega) (by omega)) with
      ⟨leaf, mem1, hBuild⟩
    have hPairs := (env.buildLeaf_ok hBuild).2.1
    have hLength : m.length = pairs.length - 1 := by
      rw [hCount]
      rfl
    refine ⟨some ⟨0, leaf, deferred, m.length⟩, mem1, ?_, ?_, hPairs, rfl⟩
    · simp [BtreeEnv.rootAfterDelete, hErase, hBuild, require, hLength]
    · change LeafGood none none leaf.pairs
      rwa [hPairs]
  | partialBranch | deletedBranch => exact ⟨_, _, rfl, hLeft.1, hLeft.2, rfl⟩

theorem remove_spec (hRep : Represents root m) (modify : Bool) (key : K) (mem : Mem P K V)
    (hRoomy : env.Roomy root (.remove key)) :
    ∃ root' mem', env.remove modify root key mem = .ok (m.get key, root', mem') ∧
      Represents root' (m.erase key) := by
  cases root with
  | none =>
    have hNil : m.entries = [] := hRep
    refine ⟨none, mem, ?_, ?_⟩
    · simp [BtreeEnv.remove, SortedMap.get, hNil]
    · change eraseEntry key m.entries = []
      rw [hNil]
      rfl
  | some r =>
    rcases hRep with ⟨hGood, hEntries, hLength⟩
    rcases hRoomy with ⟨_, hSizes, hRoom⟩
    rcases deleteHelper_returns env modify r.height
      r.tree r.checksum mem hGood (within_none key) hSizes
      hRoom with ⟨_, found, mem1, hDelete, hSmall⟩
    rcases deleteHelper_contents env hGood (within_none key) hDelete with ⟨hFound, hLeft⟩
    rw [hEntries] at hFound hLeft
    have hNewLength : (if found.isSome then r.length - 1 else r.length) = (m.erase key).length := by
      rw [SortedMap.length_erase, hFound, hLength, SortedMap.get]
      split <;> rfl
    rcases rootAfterDelete_spec env (m := m.erase key) mem1
      hLeft hSmall with ⟨root', mem2, hRoot, hRep'⟩
    refine ⟨root', mem2, ?_, hRep'⟩
    simp only [BtreeEnv.remove, hDelete, ok_bind, hNewLength, hRoot]
    rw [hFound]
    rfl

omit [DecidableEq P] in
/- Lookups in the tree are lookups in the map. -/
theorem get_spec (hRep : Represents root m) (key : K) :
    BtreeEnv.get root key = .ok (m.get key) := by
  cases root with
  | none =>
    have hNil : m.entries = [] := hRep
    simp [BtreeEnv.get, SortedMap.get, hNil]
  | some r =>
    rcases hRep with ⟨hGood, hEntries, _⟩
    rw [BtreeEnv.get, getHelper_eq hGood (within_none key), hEntries]
    rfl

omit [DecidableEq P] in
/- The first entry of the tree is the first of the map. -/
theorem first_spec (hRep : Represents root m) : BtreeEnv.first root = .ok m.first := by
  cases root with
  | none =>
    have hNil : m.entries = [] := hRep
    simp [BtreeEnv.first, SortedMap.first, hNil]
  | some r =>
    rcases hRep with ⟨hGood, hEntries, _⟩
    rcases firstHelper_eq hGood with ⟨e, hFirst, hHead⟩
    rw [hEntries] at hHead
    simp [BtreeEnv.first, hFirst, SortedMap.first, hHead]

omit [DecidableEq P] in
/- The last entry of the tree is the last of the map. -/
theorem last_spec (hRep : Represents root m) : BtreeEnv.last root = .ok m.last := by
  cases root with
  | none =>
    have hNil : m.entries = [] := hRep
    simp [BtreeEnv.last, SortedMap.last, hNil]
  | some r =>
    rcases hRep with ⟨hGood, hEntries, _⟩
    rcases lastHelper_eq hGood with ⟨e, hLast, hEnd⟩
    rw [hEntries] at hEnd
    simp [BtreeEnv.last, hLast, SortedMap.last, hEnd]

theorem getMut_spec
    {r : BtreeRoot P K V} (hRep : Represents (some r) m) (key : K) (mem : Mem P K V) :
    ∃ r' mem' pairs, env.getMut r key mem = .ok (r', (m.get key).isSome, mem') ∧
      Represents (some r') m ∧
      (leafFor r.height r.tree key).map Leaf.pairs = some pairs ∧
      pairs.lookup key = m.get key ∧
      Guarded mem' r'.height r'.tree key pairs := by
  rcases hRep with ⟨hGood, hEntries, hLength⟩
  rcases ownPage_spec env r.height r.tree r.checksum mem key
    none none with ⟨hPage, _, hSame, hOwnEntries, hLeaf⟩
  generalize hOwn : env.ownPage r.height r.tree r.checksum mem = owned at *
  rcases getMutHelper_spec env (hSame.mpr hGood) (within_none key) hPage with
    ⟨t', found, mem', pairs, hRun, hNewGood, hNewEntries, hFound, _, hPairs, hLookup, hGuarded⟩
  rw [hOwnEntries, hEntries] at hNewEntries hFound hLookup
  refine ⟨⟨r.height, t', owned.1.2, r.length⟩, mem', pairs, ?_,
    ⟨hNewGood, hNewEntries, hLength⟩, ?_, hLookup, hGuarded⟩
  · simp only [BtreeEnv.getMut, hOwn, hRun, ok_bind, hFound]
    rfl
  · rw [← hLeaf, hPairs]

theorem guardInserts_spec
    {r : BtreeRoot P K V} (hRep : Represents (some r) m) {key : K} {pairs : List (K × V)}
    {mem : Mem P K V} (values : List V) (hGuarded : Guarded mem r.height r.tree key pairs)
    (hSorted : Sorted pairs) (hFound : (pairs.lookup key).isSome) (hKey : (m.get key).isSome)
    (hCount : pairs.length ≤ Format.maxCount)
    (hBytes : ∀ value ∈ values, env.fmt.leafBytes (insertEntry key value pairs) <
          Format.offsetLimit) :
    ∃ r' mem', env.guardInserts key values r mem = .ok (r', mem') ∧ Represents (some r')
        (values.foldl (fun m value => m.insert key value) m) := by
  induction values generalizing r m pairs mem with
  | nil => exact ⟨r, mem, rfl, hRep⟩
  | cons value rest ih =>
    rcases hRep with ⟨hGood, hEntries, hLength⟩
    rcases guardHelper_spec env value hGood (within_none key) hGuarded hFound hCount
      (hBytes value mem_cons_self) with
      ⟨t', moved, mem', hRun, hNewGood, hNewEntries, hNext⟩
    have hRep' : Represents (some ⟨r.height, t', if moved then deferred else r.checksum, r.length⟩)
          (m.insert key value) := by
      refine ⟨hNewGood, ?_, ?_⟩
      · rw [hNewEntries, hEntries]
        rfl
      · rw [SortedMap.length_insert, if_pos hKey, hLength]
        rfl
    have hAgain : ∀ v, insertEntry key v (insertEntry key value pairs) =
          insertEntry key v pairs := by
      intro v
      exact insertEntry_insertEntry hSorted key value v
    have hStill : ((insertEntry key value pairs).lookup key).isSome := by
      have hGet := SortedMap.get_insert ⟨pairs, hSorted⟩ key key value
      rw [if_pos rfl] at hGet
      change (insertEntry key value pairs).lookup key = _ at hGet
      rw [hGet]
      rfl
    have hStillMap : ((m.insert key value).get key).isSome := by
      rw [SortedMap.get_insert, if_pos rfl]
      rfl
    have hSame : (insertEntry key value pairs).length = pairs.length := by
      rw [length_insertEntry hSorted, if_pos hFound]
      rfl
    rcases ih hRep' hNext (hSorted.insertEntry key value) hStill hStillMap (hSame ▸ hCount)
      (fun v hv => by
        rw [hAgain]
        exact hBytes v (mem_cons_of_mem _ hv)) with
      ⟨r'', mem'', hRest, hFinal⟩
    refine ⟨r'', mem'', ?_, hFinal⟩
    simp only [BtreeEnv.guardInserts, BtreeEnv.guardInsert, hRun, ok_bind, pure_eq_ok]
    exact hRest

-- Any Call

/- A call with room returns what it returns on the map. -/
theorem call_refines {state : BtreeState P K V} (hRep : Represents state.root m) (c : Call K V)
    (hRoomy : env.Roomy state.root c) :
    ∃ state', env.call state c = .ok ((m.call c).1, state') ∧
      Represents state'.root (m.call c).2 := by
  cases c with
  | insert key value | insertReserve key value =>
    rcases insert_spec env hRep true key value state.mem hRoomy with ⟨root, mem, hRun, hRep'⟩
    refine ⟨⟨root, mem⟩, ?_, hRep'⟩
    simp only [BtreeEnv.call, hRun, ok_bind]
    rfl
  | remove key =>
    rcases remove_spec env hRep true key state.mem hRoomy with ⟨root, mem, hRun, hRep'⟩
    refine ⟨⟨root, mem⟩, ?_, hRep'⟩
    simp only [BtreeEnv.call, hRun, ok_bind]
    rfl
  | get key =>
    refine ⟨state, ?_, hRep⟩
    simp only [BtreeEnv.call, get_spec hRep key, ok_bind]
    rfl
  | getMut key values =>
    rcases state with ⟨root, mem⟩
    cases root with
    | none =>
      have hNil : m.entries = [] := hRep
      have hNone : m.get key = none := by simp [SortedMap.get, hNil]
      refine ⟨⟨none, mem⟩, ?_, ?_⟩
      · simp [BtreeEnv.call, SortedMap.call, hNone]
      · simpa [SortedMap.call, hNone] using hRep
    | some r =>
      rcases getMut_spec env hRep key mem with
        ⟨r', mem', pairs, hRun, hRep', hLeaf, hLookup, hGuarded⟩
      by_cases hKey : (m.get key).isSome = true
      · rcases Option.map_eq_some_iff.mp hLeaf with ⟨leaf, hAt, rfl⟩
        have hFound : (leaf.pairs.lookup key).isSome := by
          rw [hLookup]
          exact hKey
        rcases hRoomy leaf hAt hFound with ⟨hCount, hBytes⟩
        have hSorted : Sorted leaf.pairs := leafFor_sorted hRep.1 (within_none key) hAt
        rcases guardInserts_spec env hRep' values hGuarded hSorted hFound hKey hCount hBytes with
          ⟨r'', mem'', hWrites, hFinal⟩
        refine ⟨⟨some r'', mem''⟩, ?_, ?_⟩
        · simp only [BtreeEnv.call, hRun, ok_bind, hKey, if_true, get_spec hRep' key, hWrites]
          rfl
        · simpa [SortedMap.call, hKey] using hFinal
      · have hNone : m.get key = none := by simpa using hKey
        refine ⟨⟨some r', mem'⟩, ?_, ?_⟩
        · simp only [BtreeEnv.call, hRun, ok_bind, hNone]
          simp [SortedMap.call, hNone]
        · simpa [SortedMap.call, hNone] using hRep'
  | first =>
    refine ⟨state, ?_, hRep⟩
    simp only [BtreeEnv.call, first_spec hRep, ok_bind]
    rfl
  | last =>
    refine ⟨state, ?_, hRep⟩
    simp only [BtreeEnv.call, last_spec hRep, ok_bind]
    rfl

-- Runs

/- What happens to a tree: a call, or a change of which of the pages in use are committed. -/
inductive TreeEvent (P K V : Type) where
  | call (c : Call K V)
  | mark (committed : Finset P)

/- One event; only a call replies. -/
def BtreeEnv.step (state : BtreeState P K V) : TreeEvent P K V →
    Except Panic (List (Reply K V) × BtreeState P K V)
  | .call c => do
    let (reply, state) ← env.call state c
    return ([reply], state)
  | .mark committed =>
    return ([], ⟨state.root, state.mem.mark committed⟩)

/- A sequence of events, with all replies. -/
def BtreeEnv.run : List (TreeEvent P K V) → BtreeState P K V →
    Except Panic (List (Reply K V) × BtreeState P K V)
  | [], state => return ([], state)
  | event :: rest, state => do
    let (replies, state) ← env.step state event
    let (others, state) ← run rest state
    return (replies ++ others, state)

omit [DecidableEq P] in
/- The same events on the map. -/
def SortedMap.run : List (TreeEvent P K V) → SortedMap K V → List (Reply K V) × SortedMap K V
  | [], m => ([], m)
  | .call c :: rest, m =>
    let (replies, last) := run rest (m.call c).2
    ((m.call c).1 :: replies, last)
  | .mark _ :: rest, m => run rest m

/- Before every event the tree has room for it. -/
def BtreeEnv.RoomyRun : List (TreeEvent P K V) → BtreeState P K V → Prop
  | [], _ => True
  | event :: rest, state =>
    (∀ c, event = .call c → env.Roomy state.root c) ∧ ∀ replies state',
        env.step state event = .ok (replies, state') → RoomyRun rest state'

/- A run from a root that represents a map. -/
theorem run_refines
    (events : List (TreeEvent P K V)) {state : BtreeState P K V} (hRep : Represents state.root m)
    (hRoomy : env.RoomyRun events state) :
    ∃ state', env.run events state = .ok ((SortedMap.run events m).1, state') ∧
      Represents state'.root (SortedMap.run events m).2 := by
  induction events generalizing state m with
  | nil => exact ⟨state, rfl, hRep⟩
  | cons event rest ih =>
    rcases hRoomy with ⟨hNow, hLater⟩
    cases event with
    | call c =>
      rcases call_refines env hRep c (hNow c rfl) with ⟨state1, hCall, hRep1⟩
      have hStep : env.step state (.call c) = .ok ([(m.call c).1], state1) := by
        simp [BtreeEnv.step, hCall]
      rcases ih hRep1 (hLater _ _ hStep) with ⟨state', hRest, hRep'⟩
      refine ⟨state', ?_, hRep'⟩
      simp only [BtreeEnv.run, hStep, ok_bind, hRest]
      rfl
    | mark committed =>
      have hMarked : Represents (BtreeState.mk state.root (state.mem.mark committed)).root m := hRep
      rcases ih hMarked (hLater _ _ rfl) with ⟨state', hRest, hRep'⟩
      refine ⟨state', ?_, hRep'⟩
      simp only [BtreeEnv.run, BtreeEnv.step, pure_eq_ok, ok_bind, hRest]
      rfl

omit [DecidableEq P] in
theorem Represents.entries_eq (hRep : Represents root m) :
    rootEntries root = m.entries ∧ storedLength root = m.length := by
  cases root with
  | none =>
    have hNil : m.entries = [] := hRep
    simp [rootEntries, storedLength, SortedMap.length, hNil]
  | some r => exact hRep.2

/-
  From the empty tree every run with room returns, replies as the map does, and leaves the entries
  and the length of the map.
-/
theorem tree_behaves_as_sorted_map
    (mem : Mem P K V) (events : List (TreeEvent P K V)) (hRoomy : env.RoomyRun events ⟨none, mem⟩) :
    ∃ state, env.run events ⟨none, mem⟩ = .ok ((SortedMap.run events SortedMap.empty).1, state) ∧
      rootEntries state.root = (SortedMap.run events SortedMap.empty).2.entries ∧
      storedLength state.root = (SortedMap.run events SortedMap.empty).2.length := by
  have hEmpty : Represents (BtreeState.mk none mem).root (SortedMap.empty : SortedMap K V) := rfl
  rcases run_refines env events hEmpty hRoomy with ⟨state, hRun, hRep⟩
  exact ⟨state, hRun, hRep.entries_eq⟩

-- A Concrete Format

/- Pages numbered by order and index. -/
def natAllocator : PageAllocator (Nat × Nat) where
  order := Prod.fst
  pick := fun used wanted => (wanted, used.sup Prod.snd + 1)
  pick_fresh := fun used wanted hIn => by
    have hLe : used.sup Prod.snd + 1 ≤ used.sup Prod.snd := Finset.le_sup (f := Prod.snd) hIn
    omega
  pick_order := fun _ _ => rfl

/- Keys of 8 bytes, and values given by their lengths. -/
def natFormat : Format Nat Nat where
  keyLen := fun _ => 8
  valueLen := fun v => v
  fixedKeySize := some 8
  fixedValueSize := none
  keyLen_eq := fun width hWidth _ => by
    cases hWidth
    rfl
  valueLen_eq := fun width hWidth => by cases hWidth
  eq_of_width_zero := fun hWidth => by cases hWidth

def natEnv : BtreeEnv (Nat × Nat) Nat Nat where
  fmt := natFormat
  alloc := natAllocator

/- A value is inserted, its page committed, and the value overwritten through a guard. -/
def guardEvents : List (TreeEvent (Nat × Nat) Nat Nat) :=
  [.call (.insert 1 5), .mark {(0, 1)}, .call (.getMut 1 [7]), .call .first, .call (.get 1)]

theorem guardEvents_roomy : natEnv.RoomyRun guardEvents ⟨none, emptyMemory⟩ := by
  refine ⟨?_, ?_⟩
  · rintro c ⟨⟩
    change natFormat.leafBytes [(1, 5)] < Format.offsetLimit
    decide
  · intro replies state hStep
    simp only [BtreeEnv.step, BtreeEnv.call, BtreeEnv.insert,
      bind_eq_ok, pure_eq_ok, Except.ok.injEq, Prod.mk.injEq] at hStep
    rcases hStep with ⟨⟨_, _⟩, ⟨⟨_, _, _⟩, ⟨⟨_, _⟩, hBuild, _, rfl, rfl⟩, _, rfl⟩, _, rfl⟩
    have hPairs := (natEnv.buildLeaf_ok hBuild).2.1
    refine ⟨fun c hCall => (by cases hCall), ?_⟩
    rintro _ _ ⟨⟩
    refine ⟨?_, ?_⟩
    · rintro c ⟨⟩ leaf' hLeaf _
      cases hLeaf
      rw [hPairs]
      decide
    · intro _ _ _
      refine ⟨fun c hCall => (by cases hCall; trivial), ?_⟩
      intro _ _ _
      exact ⟨fun c hCall => (by cases hCall; trivial), fun _ _ _ => trivial⟩

/- The run replies as the map does. -/
theorem guarded_value_is_read_back : natEnv.RoomyRun guardEvents ⟨none, emptyMemory⟩ ∧ ∃ state,
        natEnv.run guardEvents ⟨none, emptyMemory⟩ = .ok ([.value none, .value (some 5),
            .entry (some (1, 7)), .value (some 7)], state) ∧
        rootEntries state.root = [(1, 7)] ∧
        storedLength state.root = 1 :=
  ⟨guardEvents_roomy, tree_behaves_as_sorted_map natEnv emptyMemory guardEvents guardEvents_roomy⟩

-- A Leaf That Overflows

/- The keys below `n` with empty values. -/
def zeroPairs (n : Nat) : List (Nat × Nat) := (List.range n).map fun i => (i, 0)

theorem zeroPairs_succ (n : Nat) : zeroPairs (n + 1) = zeroPairs n ++ [(n, 0)] := by
  simp [zeroPairs, range_succ]

theorem length_zeroPairs (n : Nat) : (zeroPairs n).length = n := by
  simp [zeroPairs]

theorem leafBytes_zeroPairs (n : Nat) : natFormat.leafBytes (zeroPairs n) = 4 + 12 * n := by
  have hKv : natFormat.kvBytes (zeroPairs n) = 8 * n := by
    induction n with
    | zero => rfl
    | succ n ih =>
      rw [zeroPairs_succ, Format.kvBytes_append, ih]
      simp [Format.pairLen, natFormat]
      omega
  rw [Format.leafBytes, hKv, length_zeroPairs]
  simp [Format.pointerBytes, natFormat]
  omega

theorem position_zeroPairs (p : Nat × Nat) (n : Nat) :
    Leaf.position (⟨p, zeroPairs n⟩ : Leaf (Nat × Nat) Nat Nat) n = (n, false) := by
  have hSorted : Sorted (zeroPairs n) := by
    refine pairwise_map.mpr ?_
    exact pairwise_lt_range
  have hLess : ∀ e ∈ zeroPairs n, e.1 < n := by simp [zeroPairs]
  rcases position_cases (⟨p, zeroPairs n⟩ : Leaf (Nat × Nat) Nat Nat) n hSorted with
    ⟨a, b, hA, hB, ⟨hPos, hList⟩ | ⟨v, _, hList⟩⟩
  · change zeroPairs n = a ++ [] ++ b at hList
    have hNil : b = [] := by
      refine eq_nil_iff_forall_not_mem.mpr fun e he => ?_
      have hLt := hLess e (by rw [hList]; simp [he])
      exact absurd (hB e he) (by omega)
    have hLength : a.length = n := by
      rw [← length_zeroPairs n, hList, hNil]
      simp
    rw [hPos, hLength]
  · change zeroPairs n = a ++ [(n, v)] ++ b at hList
    have hLt := hLess (n, v) (by rw [hList]; simp)
    exact absurd hLt (by simp)

variable {p : Nat × Nat}

/-
  A leaf of the keys below `n` in a large uncommitted page takes the key `n` in place, unless the
  count overflows.
-/
theorem insert_zeroPairs
    (n : Nat) (mem : Mem (Nat × Nat) Nat Nat) (checksum : Checksum) (hLimit : n ≤ Format.maxCount)
    (hPage : 1000000 ≤ pageBytes p.1) (hUncommitted : p ∈ mem.uncommitted) :
    natEnv.insert true (some ⟨0, (⟨p, zeroPairs n⟩ : Leaf _ _ _), checksum, n⟩) n 0 mem =
      if n < Format.maxCount then
        .ok (none, some ⟨0, (⟨p, zeroPairs (n + 1)⟩ : Leaf _ _ _), deferred, n + 1⟩,
          mem.write p (.leaf (zeroPairs (n + 1))))
      else
        .error .outOfRange := by
  have hMax : Format.maxCount = 65535 := rfl
  have hBytes := leafBytes_zeroPairs n
  have hNewBytes := leafBytes_zeroPairs (n + 1)
  have hSmall : natFormat.singleLargeValue (zeroPairs n) = false := by
    have hPageSize : 16 < effectiveLeafPageSize := by decide
    simp only [Format.singleLargeValue, length_zeroPairs, hBytes,
      Bool.and_eq_false_iff, decide_eq_false_iff_not]
    omega
  have hPairs : insertInplace (zeroPairs n) n false n 0 = zeroPairs (n + 1) := by
    rw [zeroPairs_succ]
    have hIdx := insertIdx_middle (zeroPairs n) [] (n, 0)
    rw [length_zeroPairs] at hIdx
    simpa [insertInplace] using hIdx
  have hSpace : natFormat.sufficientInsertInplaceSpace p.1 (zeroPairs n) n false n 0 = true := by
    have hLen : natFormat.pairLen (n, 0) = 8 := rfl
    have hPointer : natFormat.pointerBytes = 4 := rfl
    simp only [Format.sufficientInsertInplaceSpace, length_zeroPairs, hBytes, hLen, hPointer,
      Nat.lt_irrefl, and_false, Bool.false_eq_true, if_false, decide_eq_true_eq]
    omega
  have hMark : mem.isUncommitted p = true := decide_eq_true hUncommitted
  have hFits : natFormat.insertEncodable (zeroPairs (n + 1)) n = decide (n < Format.maxCount) := by
    by_cases hLt : n < Format.maxCount
    · rw [decide_eq_true hLt]
      refine natFormat.insertEncodable_of_room n ?_ ?_
      · rw [length_zeroPairs]
        omega
      · rw [hNewBytes, Format.offsetLimit]
        omega
    · have hOver : ¬(zeroPairs (n + 1)).length ≤ Format.maxCount := by
        rw [length_zeroPairs]
        omega
      simp [Format.insertEncodable, Format.offsetsFit, hOver, hLt]
  have hPosition := position_zeroPairs p n
  unfold BtreeEnv.insert BtreeEnv.insertHelper BtreeEnv.insertLeaf
  simp only [hPosition, natEnv, natAllocator, hSmall, hMark,
    hSpace, hPairs, hFits, require, Bool.not_false,
    Bool.and_false, Bool.and_true, Bool.false_eq_true, if_false, if_true, decide_eq_true_eq]
  split
  · rfl
  · rfl

/- Ascending keys fill the leaf until it overflows. -/
theorem run_zeroPairs (k : Nat) (n : Nat) (mem : Mem (Nat × Nat) Nat Nat) (checksum : Checksum)
    (hCount : n + k = Format.maxCount) (hPage : 1000000 ≤ pageBytes p.1)
    (hUncommitted : p ∈ mem.uncommitted) :
    natEnv.run ((List.range' n (k + 1)).map fun i => .call (.insert i 0))
        ⟨some ⟨0, (⟨p, zeroPairs n⟩ : Leaf _ _ _), checksum, n⟩, mem⟩ =
      .error .outOfRange := by
  induction k generalizing n mem checksum with
  | zero =>
    have hInsert := insert_zeroPairs n mem checksum (by omega) hPage hUncommitted
    rw [if_neg (by omega)] at hInsert
    simp only [List.range', map_cons, BtreeEnv.run, BtreeEnv.step, BtreeEnv.call, hInsert]
    rfl
  | succ k ih =>
    have hInsert := insert_zeroPairs n mem checksum (by omega) hPage hUncommitted
    rw [if_pos (by omega)] at hInsert
    have hRest := ih (n + 1) (mem.write p (.leaf (zeroPairs (n + 1)))) deferred
      (by omega) hUncommitted
    rw [range'_succ, map_cons, BtreeEnv.run, BtreeEnv.step, BtreeEnv.call, hInsert]
    simp only [ok_bind, pure_eq_ok, hRest]
    rfl

/-
  A value of a million bytes, its replacement by an empty one, and empty values for the keys up to
  65535.
-/
def overflowEvents : List (TreeEvent (Nat × Nat) Nat Nat) :=
  .call (.insert 0 1000000) :: .call (.insert 0 0) ::
    (List.range' 1 65535).map fun i => .call (.insert i 0)

theorem insert_first_value (value : Nat) (hSmall : value + 16 < Format.offsetLimit) :
    ∃ (p : Nat × Nat) (mem : Mem (Nat × Nat) Nat Nat),
      natEnv.insert true none 0 value emptyMemory = .ok (none,
          some ⟨0, (⟨p, [(0, value)]⟩ : Leaf _ _ _), deferred, 1⟩, mem) ∧
      value + 16 ≤ pageBytes p.1 ∧
      p ∈ mem.uncommitted := by
  have hBytes : natFormat.leafBytes [(0, value)] = value + 16 := by
    simp [Format.leafBytes, Format.pointerBytes, Format.pairLen, natFormat]
    omega
  rcases buildLeaf_returns natEnv emptyMemory
    (natFormat.leafEncodable_of_sublist (List.Sublist.refl _) (cons_ne_nil (0, value) [])
      (by simp [Format.maxCount]) (by rwa [hBytes])) with ⟨leaf, mem, hBuild⟩
  rcases natEnv.buildLeaf_ok hBuild with ⟨_, hPairs, hAlloc⟩
  have hPage := congrArg Prod.fst hAlloc
  have hMem := congrArg Prod.snd hAlloc
  change leaf.page = _ at hPage
  change mem = _ at hMem
  have hOrder : leaf.page.1 = requiredOrder (value + 16) := by
    rw [← hBytes, hPage]
    rfl
  refine ⟨leaf.page, mem, ?_, ?_, ?_⟩
  · simp only [BtreeEnv.insert, hBuild, ok_bind]
    rw [← hPairs]
    rfl
  · rw [hOrder]
    exact le_pageBytes_requiredOrder (value + 16)
  · rw [hPage, hMem]
    exact Finset.mem_insert_self _ _

theorem overwrite_large_value {mem : Mem (Nat × Nat) Nat Nat} (hPage : 1000016 ≤ pageBytes p.1)
    (hUncommitted : p ∈ mem.uncommitted) :
    natEnv.insert true (some ⟨0, (⟨p, [(0, 1000000)]⟩ : Leaf _ _ _), deferred, 1⟩) 0 0 mem =
      .ok (some 1000000, some ⟨0, (⟨p, zeroPairs 1⟩ : Leaf _ _ _), deferred, 1⟩,
        mem.write p (.leaf (zeroPairs 1))) := by
  have hPosition : Leaf.position (⟨p, [(0, 1000000)]⟩ : Leaf (Nat × Nat) Nat Nat) 0 =
        (0, true) := by
    change search [0] 0 = (0, true)
    decide
  have hSpace : natFormat.sufficientInsertInplaceSpace p.1 [(0, 1000000)] 0 true 0 0 = true := by
    have hBytes : natFormat.leafBytes [(0, 1000000)] = 1000016 := rfl
    have hNew : natFormat.pairLen (0, 0) = 8 := rfl
    have hOld : (([(0, 1000000)] : List (Nat × Nat))[0]?.map
          natFormat.pairLen).getD 0 = 1000008 := rfl
    simp only [Format.sufficientInsertInplaceSpace, hBytes, hNew, hOld, if_true, decide_eq_true_eq]
    omega
  have hMark : mem.isUncommitted p = true := decide_eq_true hUncommitted
  have hPairs : insertInplace [(0, 1000000)] 0 true 0 0 = zeroPairs 1 := rfl
  have hFits : natFormat.insertEncodable (zeroPairs 1) 0 = true :=
    natFormat.insertEncodable_of_room 0 (by decide) (by decide)
  unfold BtreeEnv.insert BtreeEnv.insertHelper BtreeEnv.insertLeaf
  simp only [hPosition, natEnv, natAllocator, hMark, hSpace, hPairs, hFits, require, Bool.not_true,
    Bool.false_and, Bool.and_true, Bool.false_eq_true, if_false, if_true]
  rfl

/- The sixteen bits of the pair count overflow. -/
theorem overflowing_leaf_panics :
    natEnv.run overflowEvents ⟨none, emptyMemory⟩ = .error .outOfRange := by
  rcases insert_first_value 1000000 (by decide) with ⟨p, mem, hInsert, hPage, hUncommitted⟩
  have hOverwrite := overwrite_large_value hPage hUncommitted
  have hRest := run_zeroPairs 65534 1 (mem.write p (.leaf (zeroPairs 1))) deferred (by decide)
    (le_trans (by decide) hPage) hUncommitted
  rw [overflowEvents, BtreeEnv.run, BtreeEnv.step, BtreeEnv.call, hInsert]
  simp only [ok_bind, pure_eq_ok]
  rw [BtreeEnv.run, BtreeEnv.step, BtreeEnv.call, hOverwrite]
  simp only [ok_bind, pure_eq_ok, hRest]
  rfl

-- Several Removals

namespace SortedMap

variable {K V : Type} [LinearOrder K]

/- The map without the keys. -/
def eraseAll (keys : List K) (m : SortedMap K V) : SortedMap K V :=
  keys.foldl (fun m key => m.erase key) m

theorem entries_eraseAll (keys : List K) (m : SortedMap K V) :
    (m.eraseAll keys).entries = m.entries.filter fun e => e.1 ∉ keys := by
  induction keys generalizing m with
  | nil => simp [eraseAll]
  | cons key rest ih =>
    have hRest : (m.eraseAll (key :: rest)).entries = ((m.erase key).eraseAll rest).entries := rfl
    rw [hRest, ih]
    change (m.entries.filter _).filter _ = _
    rw [filter_filter]
    refine filter_congr fun e _ => ?_
    simp [Bool.and_comm]

theorem get_eq_some_iff {m : SortedMap K V} {key : K} {value : V} :
    m.get key = some value ↔ (key, value) ∈ m.entries := by
  refine ⟨?_, ?_⟩
  · intro hGet
    rcases lookup_eq_some_iff.mp hGet with ⟨_, _, hEntries, _⟩
    rw [hEntries]
    exact mem_append_right _ mem_cons_self
  · intro hIn
    rcases append_of_mem hIn with ⟨before, after, hEntries⟩
    refine lookup_eq_some_iff.mpr ⟨before, after, hEntries, ?_⟩
    intro e he
    have hSorted : Sorted (before ++ (key, value) :: after) := hEntries ▸ m.sorted
    have hLt : e.1 < key := (pairwise_append.mp hSorted).2.2 e he _ mem_cons_self
    simpa using (ne_of_lt hLt).symm

/- The keys of the entries are those that have a value. -/
theorem get_isSome_of_mem {m : SortedMap K V} {e : K × V} (hMem : e ∈ m.entries) :
    (m.get e.1).isSome = true := by
  cases hGet : m.get e.1 with
  | some v => rfl
  | none =>
    have hNone := lookup_eq_none_iff.mp hGet e hMem
    simp at hNone

theorem keys_nodup (m : SortedMap K V) : (m.entries.map Prod.fst).Nodup :=
  pairwise_map.mpr (m.sorted.imp fun hLt => ne_of_lt hLt)

end SortedMap

-- Removals with Room

variable {P K V : Type} [LinearOrder K] [DecidableEq P] (env : BtreeEnv P K V)

omit [DecidableEq P] in
theorem Represents.get_isSome
    {root : TreeRoot P K V} {m : SortedMap K V} (hRep : Represents root m) {key : K}
    (hIn : key ∈ (rootEntries root).map Prod.fst) :
    (m.get key).isSome = true := by
  rw [hRep.entries_eq.1] at hIn
  rcases mem_map.mp hIn with ⟨e, hMem, rfl⟩
  exact SortedMap.get_isSome_of_mem hMem

/- Before each of the removals the tree has room for it. -/
def BtreeEnv.RoomyRemoves : List K → TreeRoot P K V → Mem P K V → Prop
  | [], _, _ => True
  | key :: rest, root, mem =>
    env.Roomy root (.remove key) ∧ ∀ old root' mem', env.remove false root key mem =
            .ok (old, root', mem') →
          RoomyRemoves rest root' mem'

theorem removeEach_spec
    {keys : List K} {root : TreeRoot P K V} {m : SortedMap K V} {mem : Mem P K V}
    (hRep : Represents root m) (hNodup : keys.Nodup)
    (hPresent : ∀ key ∈ keys, (m.get key).isSome = true) (hRoomy : env.RoomyRemoves keys root mem) :
    ∃ root' mem', env.removeEach keys root mem = .ok (root', mem') ∧
        Represents root' (m.eraseAll keys) := by
  induction keys generalizing root m mem with
  | nil => exact ⟨root, mem, rfl, hRep⟩
  | cons key rest ih =>
    rcases hRoomy with ⟨hNow, hLater⟩
    rcases nodup_cons.mp hNodup with ⟨hNotIn, hRest⟩
    rcases remove_spec env hRep false key mem hNow with ⟨_, _, hRun, hRep1⟩
    -- the later keys are still there
    have hStill : ∀ other ∈ rest, ((m.erase key).get other).isSome = true := by
      intro other hOther
      have hNe : other ≠ key := by
        rintro rfl
        exact hNotIn hOther
      rw [SortedMap.get_erase, if_neg hNe]
      exact hPresent other (mem_cons_of_mem _ hOther)
    rcases ih hRep1 hRest hStill (hLater _ _ _ hRun) with ⟨root', mem', hEach, hRep'⟩
    refine ⟨root', mem', ?_, hRep'⟩
    have hFound := hPresent key mem_cons_self
    simp only [BtreeEnv.removeEach, hRun, ok_bind, require, hFound, if_true, hEach]

end Redbx
