import Redbx.Btree.Checksums

/-
  Trees of a single leaf.

  As long as what is inserted fits beside what a leaf holds, no branch page is ever built.

  Key theorems include:
    * `tableCall_singleLeaf`, `finalize_singleLeaf`
-/

namespace Redbx

open Redbx.Tree

variable {P K V : Type}

-- Leaves Only

/- The page holds pairs. -/
def Node.IsLeaf : Node P K V → Prop
  | .leaf _ => True
  | .branch _ _ => False

/- The tree has no branches. -/
def LeafRoot (root : TreeRoot P K V) : Prop := ∀ r, root = some r → r.height = 0

/- No page holds a branch. -/
def LeafPages (pages : P → Option (Node P K V)) : Prop :=
  ∀ p node, pages p = some node → node.IsLeaf

/- Neither the tree nor any page of the memory has one. -/
structure SingleLeaf [DecidableEq P] (root : TreeRoot P K V)
    (mem : Mem P K V) : Prop where
  root : LeafRoot root
  pages : LeafPages mem.pages

/-
  The pair can be inserted without a second leaf: the leaf is not that of a large value, and with
  the pair it is not split.
-/
def FitsLeaf
    [Ord K] (fmt : Format K V) (root : TreeRoot P K V) (key : K) (value : V) : Prop :=
  ∀ (leaf : Leaf P K V) checksum length, root = some ⟨0, leaf, checksum, length⟩ →
      (!(leaf.position key).2 && fmt.singleLargeValue leaf.pairs) = false ∧
        fmt.shouldSplitLeaf (insertRebuilt leaf.pairs (leaf.position key).1
            (leaf.position key).2 key value) = false

theorem leafRoot_none : LeafRoot (none : TreeRoot P K V) := by
  intro r hRoot
  cases hRoot

theorem leafRoot_leaf (leaf : Leaf P K V) (checksum : Checksum) (length : Nat) :
    LeafRoot (some ⟨0, leaf, checksum, length⟩) := by
  intro r hRoot
  cases hRoot
  rfl

variable [DecidableEq P]

theorem LeafPages.write
    {mem : Mem P K V} (hPages : LeafPages mem.pages) (p : P) (pairs : List (K × V)) :
    LeafPages (mem.write p (.leaf pairs)).pages := by
  intro q node hNode
  by_cases hSame : q = p
  · subst hSame
    have hLeaf : (mem.write q (.leaf pairs)).pages q = some (.leaf pairs) :=
      Function.update_self _ _ _
    rw [hLeaf] at hNode
    cases hNode
    trivial
  · have hOld : (mem.write p (.leaf pairs)).pages q = mem.pages q := Function.update_of_ne hSame _ _
    exact hPages q node (hOld ▸ hNode)

theorem LeafPages.conditionalFree
    {mem : Mem P K V} (hPages : LeafPages mem.pages) (modify : Bool) (p : P) :
    LeafPages (mem.conditionalFree modify p).pages := by
  rw [PageMemory.conditionalFree_pages]
  exact hPages

variable {mem mem' : Mem P K V} {root root' : TreeRoot P K V}

/- Computing the checksum of a leaf writes nothing. -/
theorem finalize_singleLeaf {digest : Node P K V → Checksum}
    (hFinalize : finalizeDirtyChecksums digest root mem = .ok (root', mem'))
    (hSingle : SingleLeaf root mem) :
    SingleLeaf root' mem' := by
  cases root with
  | none =>
    cases hFinalize
    exact hSingle
  | some r =>
    rcases r with ⟨height, _, _, _⟩
    have hHeight : height = 0 := hSingle.root _ rfl
    subst hHeight
    simp only [finalizeDirtyChecksums] at hFinalize
    split at hFinalize
    · simp only [finalizeHelper, bind_eq_ok, require_eq_ok] at hFinalize
      rcases hFinalize with ⟨_, ⟨_, _, hInner⟩, hEq⟩
      cases hInner
      cases hEq
      exact ⟨leafRoot_leaf _ _ _, hSingle.pages⟩
    · cases hFinalize
      exact hSingle

variable {env : BtreeEnv P K V}

theorem buildLeaf_leafPages
    {pairs : List (K × V)} {leaf : Leaf P K V} (hBuild : env.buildLeaf pairs mem = .ok (leaf, mem'))
    (hPages : LeafPages mem.pages) :
    LeafPages mem'.pages := by
  rcases env.buildLeaf_ok hBuild with ⟨_, _, hAllocate⟩
  rw [(Prod.mk.inj hAllocate).2]
  exact hPages.write _ pairs

-- Insertion and Removal

variable [Ord K]

variable {key : K} {modify : Bool} {value : V}

theorem insertLeaf_singleLeaf
    {leaf : Leaf P K V} {checksum : Checksum} {result : InsertionResult K V (Leaf P K V)}
    (hInsert : env.insertLeaf modify leaf checksum key value mem = .ok (result, mem'))
    (hPages : LeafPages mem.pages)
    (hLarge : (!(leaf.position key).2 && env.fmt.singleLargeValue leaf.pairs) = false)
    (hFits : env.fmt.shouldSplitLeaf (insertRebuilt leaf.pairs (leaf.position key).1
          (leaf.position key).2 key value) = false) :
    result.pieces.next = none ∧ LeafPages mem'.pages := by
  cases env.insertLeaf_ok modify hInsert with
  | before _ _ hSearch hSingle | after _ _ _ _ hSearch _ hSingle =>
    rw [hSearch, hSingle] at hLarge
    cases hLarge
  | inPlace => exact ⟨rfl, hPages.write _ _⟩
  | rebuilt _ _ _ _ hSearch _ _ hPieces =>
    rw [hSearch] at hFits
    unfold BtreeEnv.leafPieces at hPieces
    rw [hFits] at hPieces
    simp only [Bool.false_eq_true, if_false, bind_eq_ok] at hPieces
    rcases hPieces with ⟨⟨_, _⟩, hBuild, hEq⟩
    cases hEq
    exact ⟨rfl, (buildLeaf_leafPages hBuild hPages).conditionalFree
        _ _⟩

theorem insert_singleLeaf {old : Option V}
    (hInsert : env.insert modify root key value mem = .ok (old, root', mem'))
    (hSingle : SingleLeaf root mem) (hFits : FitsLeaf env.fmt root key value) :
    SingleLeaf root' mem' := by
  cases root with
  | none =>
    simp only [BtreeEnv.insert, bind_eq_ok] at hInsert
    rcases hInsert with ⟨⟨_, _⟩, hBuild, hEq⟩
    cases hEq
    exact ⟨leafRoot_leaf _ _ _, buildLeaf_leafPages hBuild hSingle.pages⟩
  | some r =>
    rcases r with ⟨height, tree, checksum, length⟩
    have hHeight : height = 0 := hSingle.root _ rfl
    subst hHeight
    simp only [BtreeEnv.insert, bind_eq_ok] at hInsert
    rcases hInsert with ⟨⟨_, _⟩, hLeaf, hRest⟩
    rcases hFits tree checksum length rfl with ⟨hLarge, hSplit⟩
    rcases insertLeaf_singleLeaf hLeaf hSingle.pages hLarge hSplit with ⟨hNext, hPages⟩
    simp only [hNext] at hRest
    cases hRest
    exact ⟨leafRoot_leaf _ _ _, hPages⟩

theorem remove_singleLeaf
    {old : Option V} (hRemove : env.remove modify root key mem = .ok (old, root', mem'))
    (hSingle : SingleLeaf root mem) :
    SingleLeaf root' mem' := by
  cases root with
  | none =>
    cases hRemove
    exact hSingle
  | some r =>
    rcases r with ⟨height, tree, _, _⟩
    have hHeight : height = 0 := hSingle.root _ rfl
    subst hHeight
    simp only [BtreeEnv.remove, bind_eq_ok] at hRemove
    rcases hRemove with ⟨⟨_, _, _⟩, hLeaf, ⟨_, _⟩, hRoot, hEq⟩
    cases hEq
    have hFree := hSingle.pages.conditionalFree modify tree.page
    cases env.deleteLeaf_ok modify hLeaf with
    | missing =>
      cases hRoot
      exact ⟨leafRoot_leaf _ _ _, hSingle.pages⟩
    | inPlace =>
      cases hRoot
      exact ⟨leafRoot_leaf _ _ _, hSingle.pages.write _ _⟩
    | emptied =>
      cases hRoot
      exact ⟨leafRoot_none, hFree⟩
    | underfull =>
      simp only [BtreeEnv.rootAfterDelete, bind_eq_ok, require_eq_ok] at hRoot
      rcases hRoot with ⟨⟨_, _⟩, hBuild, _, _, hEq⟩
      cases hEq
      exact ⟨leafRoot_leaf _ _ _, buildLeaf_leafPages hBuild hFree⟩
    | rebuilt _ _ _ _ _ _ _ _ _ hBuild =>
      cases hRoot
      exact ⟨leafRoot_leaf _ _ _, (buildLeaf_leafPages hBuild hSingle.pages).conditionalFree _ _⟩

theorem removeEach_singleLeaf
    {keys : List K} (hRemove : env.removeEach keys root mem = .ok (root', mem'))
    (hSingle : SingleLeaf root mem) :
    SingleLeaf root' mem' := by
  induction keys generalizing root mem with
  | nil =>
    cases hRemove
    exact hSingle
  | cons _ _ ih =>
    simp only [BtreeEnv.removeEach, bind_eq_ok, require_eq_ok] at hRemove
    rcases hRemove with ⟨⟨_, _, _⟩, hFirst, _, _, hRest⟩
    exact ih hRest (remove_singleLeaf hFirst hSingle)

theorem removeIterating_singleLeaf
    {keys : List K} (hRemove : env.removeIterating keys root mem = .ok (root', mem'))
    (hSingle : SingleLeaf root mem) :
    SingleLeaf root' mem' := by
  simp only [BtreeEnv.removeIterating, bind_eq_ok] at hRemove
  rcases hRemove with ⟨⟨_, _⟩, hEach, hEq⟩
  cases hEq
  have hOld := removeEach_singleLeaf hEach hSingle
  refine ⟨hOld.root, ?_⟩
  unfold BtreeEnv.releaseFreed
  rw [PageMemory.foldl_conditionalFree_pages]
  exact hOld.pages

-- Mutable Guards

variable {root root' : BtreeRoot P K V}

theorem getMut_singleLeaf
    {found : Bool} (hGuard : env.getMut root key mem = .ok (root', found, mem'))
    (hSingle : SingleLeaf (some root) mem) :
    SingleLeaf (some root') mem' := by
  rcases root with ⟨height, tree, checksum, _⟩
  have hHeight : height = 0 := hSingle.root _ rfl
  subst hHeight
  have hOwned : LeafPages (env.ownPage 0 tree checksum mem).2.pages := by
    unfold BtreeEnv.ownPage
    by_cases hIn : mem.isUncommitted (page 0 tree) = true
    · simp only [hIn, if_true]
      exact hSingle.pages
    · simp only [hIn, Bool.false_eq_true, if_false]
      exact hSingle.pages.write _ _
  simp only [BtreeEnv.getMut, BtreeEnv.getMutHelper, bind_eq_ok, require_eq_ok] at hGuard
  rcases hGuard with ⟨_, ⟨_, _, hInner⟩, hEq⟩
  cases hInner
  cases hEq
  exact ⟨leafRoot_leaf _ _ _, hOwned⟩

theorem guardInsert_singleLeaf (hGuard : env.guardInsert root key value mem = .ok (root', mem'))
    (hSingle : SingleLeaf (some root) mem) :
    SingleLeaf (some root') mem' := by
  rcases root with ⟨height, _, _, _⟩
  have hHeight : height = 0 := hSingle.root _ rfl
  subst hHeight
  simp only [BtreeEnv.guardInsert, BtreeEnv.guardHelper, bind_eq_ok] at hGuard
  rcases hGuard with ⟨⟨_, _, _⟩, hInner, hEq⟩
  cases hEq
  refine ⟨leafRoot_leaf _ _ _, ?_⟩
  split at hInner
  · simp only [bind_eq_ok, require_eq_ok] at hInner
    rcases hInner with ⟨_, _, hDone⟩
    cases hDone
    exact hSingle.pages.write _ _
  · simp only [bind_eq_ok, require_eq_ok] at hInner
    rcases hInner with ⟨⟨_, _⟩, hBuild, _, _, hDone⟩
    have hPages := buildLeaf_leafPages hBuild hSingle.pages
    cases hDone
    exact hPages

theorem guardInserts_singleLeaf
    {values : List V} (hGuard : env.guardInserts key values root mem = .ok (root', mem'))
    (hSingle : SingleLeaf (some root) mem) :
    SingleLeaf (some root') mem' := by
  induction values generalizing root mem with
  | nil =>
    cases hGuard
    exact hSingle
  | cons _ _ ih =>
    simp only [BtreeEnv.guardInserts, bind_eq_ok] at hGuard
    rcases hGuard with ⟨⟨_, _⟩, hFirst, hRest⟩
    exact ih hRest (guardInsert_singleLeaf hFirst hSingle)

-- Calls

/- What a call inserts fits in the leaf. -/
def CallFitsLeaf (fmt : Format K V) (root : TreeRoot P K V) : TableCall K V → Prop
  | .call (.insert key value) => FitsLeaf fmt root key value
  | .call (.insertReserve key value) =>
    FitsLeaf fmt root key value
  | _ => True

theorem call_singleLeaf {state state' : BtreeState P K V} {c : Call K V} {reply : Reply K V}
    (hCall : env.call state c = .ok (reply, state')) (hSingle : SingleLeaf state.root state.mem)
    (hFits : CallFitsLeaf env.fmt state.root (.call c)) :
    SingleLeaf state'.root state'.mem := by
  cases BtreeEnv.call_ok env hCall with
  | kept c => exact hSingle
  | inserted _ _ _ _ _ _ hKind hInsert =>
    rcases hKind with rfl | rfl
    · exact insert_singleLeaf hInsert hSingle hFits
    · exact insert_singleLeaf hInsert hSingle hFits
  | removed _ _ _ _ hRemove => exact remove_singleLeaf hRemove hSingle
  | missed _ _ _ _ _ hRoot hGuard => exact getMut_singleLeaf hGuard (hRoot ▸ hSingle)
  | written _ _ _ _ _ _ _ hRoot hGuard hWrites =>
    exact guardInserts_singleLeaf hWrites (getMut_singleLeaf hGuard (hRoot ▸ hSingle))

theorem tableCall_singleLeaf {state state' : BtreeState P K V} {c : TableCall K V}
    (hCall : env.tableCall state c = .ok state') (hSingle : SingleLeaf state.root state.mem)
    (hFits : CallFitsLeaf env.fmt state.root c) :
    SingleLeaf state'.root state'.mem := by
  rcases BtreeEnv.tableCall_ok env hCall with ⟨_, _, rfl, hOne⟩ | ⟨_, hRemove⟩
  · exact call_singleLeaf hOne hSingle hFits
  · exact removeIterating_singleLeaf hRemove hSingle

end Redbx
