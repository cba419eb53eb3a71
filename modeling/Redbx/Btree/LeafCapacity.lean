import Redbx.Encryption.Backend
import Redbx.Btree.CopyOnWrite

/-
  Which leaves the encrypting backend can keep.

  Of a leaf in one 4096-byte page the backend keeps 4068 bytes. The limits of the tree are others: a
  leaf is split above 4055 bytes, but edited in place up to 4096, and built at any size when it
  cannot be split. So a leaf may end up between 4069 and 4096 bytes in one page.

  `InsertFits`, `RemoveFits` and `GuardFits` say from the state before an operation that none of the
  leaves it writes does. As long as all operations of a run meet them, every leaf in one page fits.

  Key theorems include:
    * `tableCall_fits`, `leaves_fit_along_run`
-/

namespace Redbx

open Redbx.Tree PageMemory

-- Capacity

/- What is kept of a leaf page: its type byte and plaintext. -/
def leafCapacity : Nat := 1 + maxPlaintextSize

variable {P K V : Type}

namespace Format

variable (fmt : Format K V)

/- A leaf built of the pairs is kept: it is within the capacity, or takes more than one page. -/
def storable (pairs : List (K × V)) : Bool :=
  decide (fmt.leafBytes pairs ≤ leafCapacity) || decide (pageSize < fmt.leafBytes pairs)

/- The one or two leaves built of the pairs are kept. -/
def piecesStorable (pairs : List (K × V)) : Bool :=
  if fmt.shouldSplitLeaf pairs then
    fmt.storable (pairs.take (fmt.division pairs)) && fmt.storable (pairs.drop (fmt.division pairs))
  else
    fmt.storable pairs

/- Pairs within the capacity of a page of the given order. -/
def withinCapacity (order : Nat) (pairs : List (K × V)) : Bool :=
  decide (order ≠ 0) || decide (fmt.leafBytes pairs ≤ leafCapacity)

theorem withinCapacity_of_storable {pairs : List (K × V)} (hStorable : fmt.storable pairs = true) :
    fmt.withinCapacity (requiredOrder (fmt.leafBytes pairs)) pairs = true := by
  have hPage := le_pageBytes_requiredOrder (fmt.leafBytes pairs)
  simp only [storable, withinCapacity, Bool.or_eq_true, decide_eq_true_eq] at hStorable ⊢
  rcases hStorable with hSmall | hLarge
  · exact Or.inr hSmall
  · refine Or.inl fun hZero => ?_
    rw [hZero, pageBytes, Nat.pow_zero, Nat.mul_one] at hPage
    omega

theorem withinCapacity_of_sublist {order : Nat} {a b : List (K × V)} (hSub : a.Sublist b)
    (hWithin : fmt.withinCapacity order b = true) :
    fmt.withinCapacity order a = true := by
  have hLess := fmt.leafBytes_le_of_sublist hSub
  simp only [withinCapacity, Bool.or_eq_true, decide_eq_true_eq] at hWithin ⊢
  rcases hWithin with hLarge | hSmall
  · exact Or.inl hLarge
  · exact Or.inr (le_trans hLess hSmall)

end Format

variable [DecidableEq P] (env : BtreeEnv P K V)

/- Every leaf in one 4096-byte page is within the capacity. -/
def LeavesFit (mem : Mem P K V) : Prop :=
  ∀ p pairs, mem.pages p = some (.leaf pairs) → env.alloc.order p = 0 →
      env.fmt.leafBytes pairs ≤ leafCapacity

-- Memory

variable {env}

section Writes

variable {mem mem' : Mem P K V} (hFit : LeavesFit env mem)
include hFit

theorem LeavesFit.of_pages (hPages : mem'.pages = mem.pages) : LeavesFit env mem' := by
  intro p pairs hPage
  rw [hPages] at hPage
  exact hFit p pairs hPage

variable {p : P} {pairs : List (K × V)}

theorem LeavesFit.withinCapacity
    (hPage : mem.pages p = some (.leaf pairs)) :
    env.fmt.withinCapacity (env.alloc.order p) pairs = true := by
  simp only [Format.withinCapacity, Bool.or_eq_true, decide_eq_true_eq]
  by_cases hZero : env.alloc.order p = 0
  · exact Or.inr (hFit p pairs hPage hZero)
  · exact Or.inl hZero

theorem LeavesFit.update {node : Node P K V}
    (hPages : mem'.pages = Function.update mem.pages p (some node))
    (hNode : ∀ pairs, node = .leaf pairs →
        env.fmt.withinCapacity (env.alloc.order p) pairs = true) :
    LeavesFit env mem' := by
  intro q pairs hPage hZero
  rw [hPages] at hPage
  by_cases hEq : q = p
  · subst hEq
    rw [Function.update_self] at hPage
    have hWithin := hNode pairs (Option.some.inj hPage)
    simpa [Format.withinCapacity, hZero] using hWithin
  · rw [Function.update_of_ne hEq] at hPage
    exact hFit q pairs hPage hZero

theorem LeavesFit.write_leaf
    (hWithin : env.fmt.withinCapacity (env.alloc.order p) pairs = true) :
    LeavesFit env (mem.write p (.leaf pairs)) := by
  refine hFit.update rfl fun other hEq => ?_
  cases hEq
  exact hWithin

variable {n : Nat}

theorem LeavesFit.write_branch (p : P)
    (children : Children P K V n) (keys : List K) :
    LeavesFit env (mem.write p (branchImage n children keys)) :=
  hFit.update rfl fun _ hEq => by cases hEq

theorem LeavesFit.buildLeaf {leaf : Leaf P K V}
    (hStorable : env.fmt.storable pairs = true)
    (hBuild : env.buildLeaf pairs mem = .ok (leaf, mem')) :
    LeavesFit env mem' := by
  rcases env.buildLeaf_ok hBuild with ⟨_, _, hAlloc⟩
  have hMem := congrArg Prod.snd hAlloc
  change mem' = _ at hMem
  rw [hMem]
  refine hFit.update rfl fun other hEq => ?_
  cases hEq
  rw [env.alloc.pick_order]
  exact env.fmt.withinCapacity_of_storable hStorable

theorem LeavesFit.buildBranch {children : Children P K V n} {keys : List K}
    {branch : Branch P K (Tree P K V n)}
    (hBuild : env.buildBranch children keys mem = .ok (branch, mem')) :
    LeavesFit env mem' := by
  rcases env.buildBranch_ok hBuild with ⟨_, _, _, _, hAlloc⟩
  have hMem := congrArg Prod.snd hAlloc
  change mem' = _ at hMem
  rw [hMem]
  exact hFit.update rfl fun _ hEq => by cases hEq

theorem LeavesFit.leafPieces {pieces : Pieces K (Leaf P K V)}
    (hStorable : env.fmt.piecesStorable pairs = true)
    (hPieces : env.leafPieces pairs mem = .ok (pieces, mem')) :
    LeavesFit env mem' := by
  rcases env.leafPieces_ok hPieces with ⟨_, hSplit, hBuild, _⟩ |
      ⟨_, _, _, _, hSplit, hLeft, hRight, _⟩
  · rw [Format.piecesStorable, hSplit] at hStorable
    exact hFit.buildLeaf hStorable hBuild
  · rw [Format.piecesStorable, hSplit] at hStorable
    rcases Bool.and_eq_true_iff.mp hStorable with ⟨hTake, hDrop⟩
    exact (hFit.buildLeaf hTake hLeft).buildLeaf hDrop hRight

theorem LeavesFit.branchPieces {children : Children P K V n} {keys : List K}
    {pieces : Pieces K (Branch P K (Tree P K V n))}
    (hPieces : env.branchPieces children keys mem = .ok (pieces, mem')) :
    LeavesFit env mem' := by
  rcases env.branchPieces_ok hPieces with ⟨_, _, hBuild, _⟩ |
      ⟨_, _, _, _, _, _, _, hLeft, hRight, _⟩
  · exact hFit.buildBranch hBuild
  · exact (hFit.buildBranch hLeft).buildBranch hRight

end Writes

-- Insertion

section Ordered

variable [Ord K]

/-
  The leaves that `insert_helper` writes for a pair are kept: the pair alone beside a large value,
  the edited page, or the leaves built of all pairs.
-/
def BtreeEnv.leafInsertFits
    (env : BtreeEnv P K V) (leaf : Leaf P K V) (key : K) (value : V) (mem : Mem P K V) :
    Bool :=
  let (position, found) := leaf.position key
  if !found && env.fmt.singleLargeValue leaf.pairs then
    env.fmt.storable [(key, value)]
  else if mem.isUncommitted leaf.page &&
      env.fmt.sufficientInsertInplaceSpace (env.alloc.order leaf.page) leaf.pairs position found
        key value then
    env.fmt.withinCapacity (env.alloc.order leaf.page)
      (insertInplace leaf.pairs position found key value)
  else
    env.fmt.piecesStorable (insertRebuilt leaf.pairs position found key value)

/- The same for the leaf of the key in a tree. -/
def InsertFits (env : BtreeEnv P K V) (root : TreeRoot P K V) (key : K) (value : V)
    (mem : Mem P K V) :
    Prop :=
  match root with
  | none => env.fmt.storable [(key, value)] = true
  | some r =>
    ∀ leaf, leafFor r.height r.tree key = some leaf → env.leafInsertFits leaf key value mem = true

variable {checksum : Checksum} {key : K} {mem mem' : Mem P K V} {value : V}
  (hFit : LeavesFit env mem)
include hFit

theorem insertLeaf_fits {leaf : Leaf P K V}
    {result : InsertionResult K V (Leaf P K V)}
    (hCond : env.leafInsertFits leaf key value mem = true)
    (hInsert : env.LeafInsertion true leaf checksum key value mem result mem') :
    LeavesFit env mem' := by
  unfold BtreeEnv.leafInsertFits at hCond
  cases hInsert with
  | before _ _ hSearch hLarge hBuild | after _ _ _ _ hSearch _ hLarge hBuild =>
    simp only [hSearch, hLarge, Bool.not_false, Bool.and_self, if_true] at hCond
    exact hFit.buildLeaf hCond hBuild
  | inPlace _ _ hSearch hSmall hUncommitted _ hSpace =>
    have hMark : mem.isUncommitted leaf.page = true := decide_eq_true hUncommitted
    simp only [hSearch, hSmall, hMark, hSpace, Bool.false_eq_true, if_false, Bool.and_self,
      if_true] at hCond
    exact hFit.write_leaf hCond
  | rebuilt _ _ _ _ hSearch hSmall hNoSpace hPieces =>
    rw [Bool.and_true] at hNoSpace
    simp only [hSearch, hSmall, hNoSpace, Bool.false_eq_true, if_false] at hCond
    exact (hFit.leafPieces hCond hPieces).of_pages (conditionalFree_pages _ _ _)

variable {n : Nat} {t : Tree P K V n}

theorem insertHelper_fits {result : InsertionResult K V (Tree P K V n)}
    (hCond : ∀ leaf, leafFor n t key = some leaf → env.leafInsertFits leaf key value mem = true)
    (hInsert : env.insertHelper true n t checksum key value mem = .ok (result, mem')) :
    LeavesFit env mem' := by
  induction n generalizing checksum mem' with
  | zero => exact insertLeaf_fits hFit (hCond t rfl) (env.insertLeaf_ok true hInsert)
  | succ n ih =>
    rcases env.insertHelper_ok true hInsert with ⟨child, _, _, hChild, hSub, hBranch⟩
    have hLeaf : leafFor (n + 1) t key = leafFor n child.1 key := by rw [leafFor, hChild]
    rw [hLeaf] at hCond
    have hMid := ih hCond hSub
    cases hBranch with
    | inPlace => exact hMid.write_branch _ _ _
    | rebuilt _ _ hPieces =>
      exact (hMid.branchPieces hPieces).of_pages (conditionalFree_pages _ _ _)

theorem insert_fits {root root' : TreeRoot P K V} {old : Option V}
    (hCond : InsertFits env root key value mem)
    (hRun : env.insert true root key value mem = .ok (old, root', mem')) :
    LeavesFit env mem' := by
  cases root with
  | none =>
    simp only [BtreeEnv.insert, bind_eq_ok] at hRun
    rcases hRun with ⟨⟨_, _⟩, hBuild, hEq⟩
    cases hEq
    exact hFit.buildLeaf hCond hBuild
  | some r =>
    simp only [BtreeEnv.insert, bind_eq_ok] at hRun
    rcases hRun with ⟨⟨result, mem1⟩, hInsert, hRest⟩
    have hMid := insertHelper_fits hFit hCond hInsert
    rcases hNext : result.pieces.next with _ | ⟨_, _⟩
    · rw [hNext] at hRest
      cases hRest
      exact hMid
    · rw [hNext] at hRest
      simp only [bind_eq_ok] at hRest
      rcases hRest with ⟨⟨_, _⟩, hBuild, hEq⟩
      cases hEq
      exact hMid.buildBranch hBuild

-- Removal

/- The pairs of a leaf without the pair of the key. -/
def Leaf.without (leaf : Leaf P K V) (key : K) : List (K × V) :=
  leaf.pairs.eraseIdx (leaf.position key).1

/-
  The leaf that `delete_leaf_helper` builds without the key is kept, unless it removes the pair in
  place, gives up the leaf, or leaves it to a merge.
-/
def BtreeEnv.leafRemoveFits
    (env : BtreeEnv P K V) (modifyUncommitted : Bool) (leaf : Leaf P K V) (key : K)
    (mem : Mem P K V) :
    Bool :=
  !(leaf.position key).2 || (decide (leaf.page ∈ mem.uncommitted) && modifyUncommitted &&
      decide (effectiveLeafPageSize / 2 ≤ env.fmt.leafBytes (leaf.without key)) &&
      decide (1 < leaf.pairs.length)) ||
    decide (leaf.pairs.length = 1) ||
    decide (env.fmt.leafBytes (leaf.without key) < effectiveLeafPageSize / 3) ||
    env.fmt.storable (leaf.without key)

/- The leaf is left to a merge. -/
def BtreeEnv.underfull (env : BtreeEnv P K V) (leaf : Leaf P K V) (key : K) : Bool :=
  (leaf.position key).2 && decide (leaf.pairs.length ≠ 1) &&
    decide (env.fmt.leafBytes (leaf.without key) < effectiveLeafPageSize / 3)

/- The leaves that the merge of a child `i` builds are kept. -/
def BtreeEnv.mergeFits
    (env : BtreeEnv P K V) (branch : Branch P K (Leaf P K V)) (i : Nat) (rest : List (K × V)) :
    Prop :=
  ∀ sibling, branch.children[mergeWith i]? = some sibling →
    env.fmt.singleLargeValue sibling.1.pairs = false → env.fmt.piecesStorable
        (if i < mergeWith i then rest ++ sibling.1.pairs else sibling.1.pairs ++ rest) = true

/- The leaves written for a removal from a subtree are kept. -/
def TreeRemoveFits (env : BtreeEnv P K V) (modifyUncommitted : Bool) (mem : Mem P K V) :
    (n : Nat) → Tree P K V n → K → Prop
  | 0, leaf, key =>
    env.leafRemoveFits modifyUncommitted leaf key mem = true
  | 1, branch, key =>
    let i := Branch.childForKey branch key
    ∀ c, (Branch.children branch)[i]? = some c →
      env.leafRemoveFits modifyUncommitted c.1 key mem = true ∧
        (env.underfull c.1 key = true → env.mergeFits branch i (Leaf.without c.1 key))
  | n + 2, branch, key =>
    ∀ c, (Branch.children branch)[ Branch.childForKey branch key]? = some c →
      TreeRemoveFits env modifyUncommitted mem (n + 1) c.1 key

/- The same for a tree. -/
def RemoveFits
    (env : BtreeEnv P K V) (modifyUncommitted : Bool) (root : TreeRoot P K V) (key : K)
    (mem : Mem P K V) :
    Prop :=
  match root with
  | none => True
  | some r =>
    TreeRemoveFits env modifyUncommitted mem r.height r.tree key

omit [Ord K] hFit in
theorem storable_of_small
    {pairs : List (K × V)} (hSmall : env.fmt.leafBytes pairs < effectiveLeafPageSize / 3) :
    env.fmt.storable pairs = true := by
  have hLess : effectiveLeafPageSize / 3 ≤ leafCapacity := by decide
  simp only [Format.storable, Bool.or_eq_true, decide_eq_true_eq]
  exact Or.inl (by omega)

variable {modify : Bool}

theorem deleteLeaf_fits {leaf : Leaf P K V} {result : DeletionResult P K V 0} {found : Option V}
    (hHolds : Holds mem 0 leaf)
    (hCond : env.leafRemoveFits modify leaf key mem = true)
    (hDelete : env.LeafDeletion modify leaf checksum key mem result found mem') :
    LeavesFit env mem' ∧ ∀ pairs deletedPair, result = .partialLeaf pairs deletedPair →
          env.underfull leaf key = true ∧ pairs.eraseIdx deletedPair = leaf.without key ∧
            env.fmt.leafBytes (pairs.eraseIdx deletedPair) < effectiveLeafPageSize / 3 := by
  cases hDelete with
  | missing => exact ⟨hFit, fun _ _ hEq => by cases hEq⟩
  | inPlace =>
    refine ⟨hFit.write_leaf ?_, fun _ _ hEq => by cases hEq⟩
    exact env.fmt.withinCapacity_of_sublist (List.eraseIdx_sublist _ _) (hFit.withinCapacity hHolds)
  | emptied => exact ⟨hFit.of_pages (conditionalFree_pages _ _ _), fun _ _ hEq => by cases hEq⟩
  | underfull _ _ hSearch _ hLength hSmall =>
    refine ⟨hFit.of_pages (conditionalFree_pages _ _ _), ?_⟩
    intro pairs deletedPair hEq
    cases hEq
    refine ⟨?_, ?_, hSmall⟩
    · simp [BtreeEnv.underfull, Leaf.without, hSearch, hLength, hSmall]
    · rw [Leaf.without, hSearch]
  | rebuilt _ _ _ _ hSearch _ hNotInPlace hLength hEnough hBuild =>
    refine ⟨?_, fun _ _ hEq => by cases hEq⟩
    refine (hFit.buildLeaf ?_ hBuild).of_pages (conditionalFree_pages _ _ _)
    simp only [BtreeEnv.leafRemoveFits, Leaf.without, hSearch, Bool.not_true, Bool.or_eq_true,
      Bool.and_eq_true, decide_eq_true_eq, Bool.false_eq_true, false_or, and_assoc] at hCond
    rcases hCond with ((hIn | hOne) | hSmall) | hStorable
    · exact absurd hIn hNotInPlace
    · exact absurd hOne hLength
    · exact absurd hSmall hEnough
    · exact hStorable

omit [Ord K] in
theorem LeavesFit.finalizeBranchBuilder {children : Children P K V n} {keys : List K}
    {result : DeletionResult P K V (n + 1)}
    (hFinal : env.finalizeBranchBuilder children keys mem = .ok (result, mem')) :
    LeavesFit env mem' := by
  match children, hFinal with
  | [(child, checksum)], hFinal =>
    cases hFinal
    exact hFit
  | c1 :: c2 :: rest, hFinal =>
    simp only [BtreeEnv.finalizeBranchBuilder, bind_eq_ok] at hFinal
    rcases hFinal with ⟨⟨_, _⟩, hBuild, hRest⟩
    have hNew := hFit.buildBranch hBuild
    split at hRest <;> cases hRest <;> exact hNew

variable {i : Nat}

omit [Ord K] in
theorem LeavesFit.replacePair {branch : Branch P K (Tree P K V n)}
    {pieces : Pieces K (Tree P K V n)} {dropped : List P}
    {result : DeletionResult P K V (n + 1)}
    (hReplace : env.replacePair modify branch i pieces dropped mem = .ok (result, mem')) :
    LeavesFit env mem' := by
  simp only [BtreeEnv.replacePair, bind_eq_ok] at hReplace
  rcases hReplace with ⟨⟨_, _⟩, hFinal, hEq⟩
  cases hEq
  exact (hFit.finalizeBranchBuilder hFinal).of_pages (foldl_conditionalFree_pages _ _ _)

omit [Ord K] in
theorem absorbLeaf_fits {branch : Branch P K (Tree P K V 0)}
    {left : DeletionResult P K V 0} {result : DeletionResult P K V 1}
    (hMerge : ∀ pairs deletedPair, left = .partialLeaf pairs deletedPair →
          env.fmt.storable (pairs.eraseIdx deletedPair) = true ∧
            env.mergeFits branch i (pairs.eraseIdx deletedPair))
    (hAbsorb : env.Absorption modify branch i left mem result mem') :
    LeavesFit env mem' := by
  cases hAbsorb with
  | inPlace => exact hFit.write_branch _ _ _
  | rebuilt _ _ _ _ _ _ _ hBuild =>
    exact (hFit.buildBranch hBuild).of_pages (conditionalFree_pages _ _ _)
  | dropped _ _ _ _ _ hFinal =>
    exact (hFit.finalizeBranchBuilder hFinal).of_pages (conditionalFree_pages _ _ _)
  | keptAlone _ _ _ _ _ _ _ _ _ _ _ _ hBuild hFinal =>
    exact ((hFit.buildLeaf (hMerge _ _ rfl).1 hBuild).finalizeBranchBuilder hFinal).of_pages
      (conditionalFree_pages _ _ _)
  | mergedLeaf _ _ _ _ sibling _ _ _ _ _ hSibling hSmall hPieces hReplace =>
    exact (hFit.leafPieces ((hMerge _ _ rfl).2 sibling hSibling hSmall)
      hPieces).replacePair hReplace

omit [Ord K] in
theorem absorbBranch_fits {branch : Branch P K (Tree P K V (n + 1))}
    {left : DeletionResult P K V (n + 1)}
    {result : DeletionResult P K V (n + 2)}
    (hAbsorb : env.Absorption modify branch i left mem result mem') :
    LeavesFit env mem' := by
  cases hAbsorb with
  | inPlace => exact hFit.write_branch _ _ _
  | rebuilt _ _ _ _ _ _ _ hBuild =>
    exact (hFit.buildBranch hBuild).of_pages (conditionalFree_pages _ _ _)
  | mergedChild _ _ _ _ _ _ _ _ _ _ _ _ _ hPieces hReplace =>
    exact (hFit.branchPieces hPieces).replacePair hReplace
  | mergedBranch _ _ _ _ _ _ _ _ _ _ _ _ _ hPieces hReplace =>
    exact (hFit.branchPieces hPieces).replacePair hReplace

theorem deleteHelper_fits {result : DeletionResult P K V n} {found : Option V}
    (hHolds : Holds mem n t)
    (hCond : TreeRemoveFits env modify mem n t key)
    (hDelete : env.deleteHelper modify n t checksum key mem = .ok (result, found, mem')) :
    LeavesFit env mem' := by
  induction n generalizing checksum mem' found with
  | zero => exact (deleteLeaf_fits hFit hHolds hCond (env.deleteLeaf_ok modify hDelete)).1
  | succ n ih =>
    rcases env.deleteHelper_ok modify hDelete with ⟨child, _, _, hChild, hSub, hCase⟩
    have hChildHolds : Holds mem n child.1 := hHolds.2 child (List.mem_of_getElem? hChild)
    cases n with
    | zero =>
      rcases hCond child hChild with ⟨hLeaf, hMerge⟩
      rcases deleteLeaf_fits hFit hChildHolds hLeaf (env.deleteLeaf_ok modify hSub) with
        ⟨hMid, hPartial⟩
      rcases hCase with ⟨_, rfl, _⟩ | ⟨_, hAbsorb⟩
      · exact hMid
      · refine absorbLeaf_fits hMid ?_ hAbsorb
        intro pairs deletedPair hEq
        rcases hPartial pairs deletedPair hEq with ⟨hUnder, hRest, hSmall⟩
        refine ⟨storable_of_small hSmall, ?_⟩
        rw [hRest]
        exact hMerge hUnder
    | succ n =>
      have hMid := ih hChildHolds (hCond child hChild) hSub
      rcases hCase with ⟨_, rfl, _⟩ | ⟨_, hAbsorb⟩
      · exact hMid
      · exact absorbBranch_fits hMid hAbsorb

theorem remove_fits {root root' : TreeRoot P K V} {old : Option V}
    (hHolds : RootHolds mem root)
    (hCond : RemoveFits env modify root key mem)
    (hRun : env.remove modify root key mem = .ok (old, root', mem')) :
    LeavesFit env mem' := by
  cases root with
  | none =>
    cases hRun
    exact hFit
  | some r =>
    rcases r with ⟨_, _, checksum, _⟩
    simp only [BtreeEnv.remove, bind_eq_ok] at hRun
    rcases hRun with ⟨⟨result, _, _⟩, hDelete, ⟨_, _⟩, hRoot, hEq⟩
    cases hEq
    have hMid := deleteHelper_fits hFit hHolds hCond hDelete
    cases result with
    | subtree =>
      simp only [BtreeEnv.rootAfterDelete] at hRoot
      cases hRoot
      exact hMid
    | deletedLeaf =>
      cases hRoot
      exact hMid
    | partialLeaf pairs deletedPair =>
      simp only [BtreeEnv.rootAfterDelete, bind_eq_ok, require_eq_ok] at hRoot
      rcases hRoot with ⟨⟨_, _⟩, hBuild, _, _, hEq⟩
      cases hEq
      have hSmall := (deleteLeaf_fits hFit hHolds hCond (env.deleteLeaf_ok modify hDelete)).2
        pairs deletedPair rfl
      exact hMid.buildLeaf (storable_of_small hSmall.2.2) hBuild
    | partialBranch | deletedBranch =>
      cases hRoot
      exact hMid

-- Mutable Guards

/- The leaf that `AccessGuardMut::insert` writes is kept. -/
def BtreeEnv.leafGuardFits (env : BtreeEnv P K V) (leaf : Leaf P K V) (key : K) (value : V) :
    Bool :=
  let position := (leaf.position key).1
  let pairs := insertInplace leaf.pairs position true key value
  if env.fmt.sufficientInsertInplaceSpace
      (env.alloc.order leaf.page) leaf.pairs position true key value then
    env.fmt.withinCapacity (env.alloc.order leaf.page) pairs
  else
    env.fmt.storable pairs

/- The same for the leaf of the key in a tree. -/
def GuardFits (env : BtreeEnv P K V) (r : BtreeRoot P K V) (key : K) (value : V) : Prop :=
  ∀ leaf, leafFor r.height r.tree key = some leaf → env.leafGuardFits leaf key value = true

theorem guardHelper_fits {t' : Tree P K V n} {moved : Bool}
    (hCond : ∀ leaf, leafFor n t key = some leaf → env.leafGuardFits leaf key value = true)
    (hRun : env.guardHelper n t key value mem = .ok (t', moved, mem')) :
    LeavesFit env mem' := by
  induction n generalizing mem' moved with
  | zero =>
    have hLeaf := hCond t rfl
    simp only [BtreeEnv.leafGuardFits] at hLeaf
    simp only [BtreeEnv.guardHelper] at hRun
    split at hRun
    · next hSpace =>
      rw [if_pos hSpace] at hLeaf
      simp only [bind_eq_ok, require_eq_ok] at hRun
      rcases hRun with ⟨_, _, hEq⟩
      cases hEq
      exact hFit.write_leaf hLeaf
    · next hSpace =>
      rw [if_neg hSpace] at hLeaf
      simp only [bind_eq_ok, require_eq_ok] at hRun
      rcases hRun with ⟨⟨_, _⟩, hBuild, _, _, hEq⟩
      cases hEq
      exact (hFit.buildLeaf hLeaf hBuild).of_pages rfl
  | succ n ih =>
    simp only [BtreeEnv.guardHelper, bind_eq_ok, unwrap_eq_ok] at hRun
    rcases hRun with ⟨c, hChild, ⟨_, moved', _⟩, hSub, hRest⟩
    have hLeaf : leafFor (n + 1) t key = leafFor n c.1 key := by rw [leafFor, hChild]
    rw [hLeaf] at hCond
    have hMid := ih hCond hSub
    cases moved' with
    | true =>
      cases hRest
      exact hMid.write_branch _ _ _
    | false =>
      cases hRest
      exact hMid

omit [Ord K] in
theorem LeavesFit.of_copies (hCopies : LeafCopies env mem mem') : LeavesFit env mem' := by
  intro p pairs hPage hZero
  rcases hCopies p pairs hPage with ⟨q, hOld, hLe⟩
  exact hFit q pairs hOld (by omega)

end Ordered

-- Calls

section Calls

variable [Ord K]

/- Each value written through a guard fits before its write. -/
def GuardsFit (env : BtreeEnv P K V) (key : K) : List V → BtreeRoot P K V → Mem P K V → Prop
  | [], _, _ => True
  | value :: rest, r, mem =>
    GuardFits env r key value ∧ ∀ r' mem', env.guardInsert r key value mem = .ok (r', mem') →
          GuardsFit env key rest r' mem'

/- Each removal while iterating fits before it is made. -/
def RemovesFit (env : BtreeEnv P K V) : List K → TreeRoot P K V → Mem P K V → Prop
  | [], _, _ => True
  | key :: rest, root, mem =>
    RemoveFits env false root key mem ∧ ∀ old root' mem',
        env.remove false root key mem = .ok (old, root', mem') → RemovesFit env rest root' mem'

/- No leaf that the call writes is cut by the backend. -/
def CallFits (env : BtreeEnv P K V) (state : BtreeState P K V) : TableCall K V → Prop
  | .call (.insert key value)
  | .call (.insertReserve key value) =>
    InsertFits env state.root key value state.mem
  | .call (.remove key) =>
    RemoveFits env true state.root key state.mem
  | .call (.getMut key values) =>
    ∀ r, state.root = some r → ∀ r' mem', env.getMut r key state.mem = .ok (r', true, mem') →
        GuardsFit env key values r' mem'
  | .call (.get _) | .call .first | .call .last => True
  | .retain inRange predicate =>
    RemovesFit env (((rootEntries state.root).filter fun e =>
        inRange e.1 && !predicate e.1 e.2).map Prod.fst)
      state.root state.mem
  | .extractIf inRange predicate sides =>
    RemovesFit env (takeSides sides (((rootEntries state.root).filter
        fun e => inRange e.1 && predicate e.1 e.2).map Prod.fst))
      state.root state.mem

variable {mem' : Mem P K V}

theorem guardInserts_fits {key : K} {values : List V} {r r' : BtreeRoot P K V} {mem : Mem P K V}
    (hFit : LeavesFit env mem) (hCond : GuardsFit env key values r mem)
    (hRun : env.guardInserts key values r mem = .ok (r', mem')) :
    LeavesFit env mem' := by
  induction values generalizing r mem with
  | nil =>
    cases hRun
    exact hFit
  | cons _ _ ih =>
    simp only [BtreeEnv.guardInserts, bind_eq_ok] at hRun
    rcases hRun with ⟨⟨r1, mem1⟩, hWrite, hRest⟩
    have hLater := hCond.2 r1 mem1 hWrite
    simp only [BtreeEnv.guardInsert, bind_eq_ok] at hWrite
    rcases hWrite with ⟨⟨_, _, _⟩, hHelper, hEq⟩
    cases hEq
    exact ih (guardHelper_fits hFit hCond.1 hHelper) hLater hRest

theorem removeEach_fits {keys : List K} {root root' : TreeRoot P K V} {mem : Mem P K V}
    (hFit : LeavesFit env mem) (hOwns : Owns mem (rootPages root)) (hHolds : RootHolds mem root)
    (hCond : RemovesFit env keys root mem)
    (hRun : env.removeEach keys root mem = .ok (root', mem')) :
    LeavesFit env mem' := by
  induction keys generalizing root mem with
  | nil =>
    cases hRun
    exact hFit
  | cons _ _ ih =>
    simp only [BtreeEnv.removeEach, bind_eq_ok, require_eq_ok] at hRun
    rcases hRun with ⟨⟨_, _, _⟩, hRemove, _, _, hRest⟩
    rcases remove_turns env hOwns hHolds hRemove with ⟨hTurns, hMid⟩
    exact ih (remove_fits hFit hHolds hCond.1 hRemove)
      hTurns.owns hMid (hCond.2 _ _ _ hRemove) hRest

variable {state : BtreeState P K V}

theorem removeIterating_fits {keys : List K} {root' : TreeRoot P K V}
    (hFit : LeavesFit env state.mem) (hStored : Stored state)
    (hCond : RemovesFit env keys state.root state.mem)
    (hRun : env.removeIterating keys state.root state.mem = .ok (root', mem')) :
    LeavesFit env mem' := by
  simp only [BtreeEnv.removeIterating, bind_eq_ok] at hRun
  rcases hRun with ⟨⟨_, _⟩, hEach, hEq⟩
  cases hEq
  rcases removeEach_turns env hStored.owns hStored.holds hEach with ⟨hTurns, _⟩
  exact (removeEach_fits hFit hStored.owns hStored.holds hCond
    hEach).of_pages (releaseFreed_turns hTurns).2

variable {state' : BtreeState P K V}

theorem call_fits {c : Call K V} {reply : Reply K V}
    (hFit : LeavesFit env state.mem) (hStored : Stored state) (hCond : CallFits env state (.call c))
    (hRun : env.call state c = .ok (reply, state')) :
    LeavesFit env state'.mem := by
  cases env.call_ok hRun with
  | kept _ => exact hFit
  | inserted _ _ _ _ _ _ hCall hInsert =>
    rcases hCall with rfl | rfl
    · exact insert_fits hFit hCond hInsert
    · exact insert_fits hFit hCond hInsert
  | removed _ _ _ _ hRemove => exact remove_fits hFit hStored.holds hCond hRemove
  | missed _ _ r _ _ hRoot hGuard =>
    rcases state with ⟨_, _⟩
    cases hRoot
    exact hFit.of_copies (getMut_turns env true hStored.owns hStored.holds hGuard).2.2.2
  | written _ _ r r1 _ mem1 _ hRoot hGuard hWrites =>
    rcases state with ⟨_, _⟩
    cases hRoot
    have hMid := hFit.of_copies (getMut_turns env true hStored.owns hStored.holds hGuard).2.2.2
    exact guardInserts_fits hMid (hCond r rfl r1 mem1 hGuard) hWrites

/- Every fitting call keeps the leaves within the capacity. -/
theorem tableCall_fits {c : TableCall K V} (hFit : LeavesFit env state.mem)
    (hStored : Stored state) (hCond : CallFits env state c)
    (hRun : env.tableCall state c = .ok state') :
    LeavesFit env state'.mem := by
  cases c with
  | call c =>
    simp only [BtreeEnv.tableCall, bind_eq_ok] at hRun
    rcases hRun with ⟨⟨_, _⟩, hCall, hEq⟩
    cases hEq
    exact call_fits hFit hStored hCond hCall
  | retain =>
    simp only [BtreeEnv.tableCall, BtreeEnv.retainIn, bind_eq_ok] at hRun
    rcases hRun with ⟨⟨_, _⟩, hRemoved, hEq⟩
    cases hEq
    exact removeIterating_fits hFit hStored hCond hRemoved
  | extractIf =>
    simp only [BtreeEnv.tableCall, BtreeEnv.extractFromIf, bind_eq_ok] at hRun
    rcases hRun with ⟨⟨_, _⟩, hRemoved, hEq⟩
    cases hEq
    exact removeIterating_fits hFit hStored hCond hRemoved

-- Runs

/- A call on the table, or a change of the committed pages. -/
inductive TableEvent (P K V : Type) where
  | call (c : TableCall K V)
  | mark (committed : Finset P)

/- One event. -/
def BtreeEnv.tableStep (env : BtreeEnv P K V) (state : BtreeState P K V) :
    TableEvent P K V → Except Panic (BtreeState P K V)
  | .call c => env.tableCall state c
  | .mark committed =>
    return ⟨state.root, state.mem.mark committed⟩

/- A sequence of events. -/
def BtreeEnv.tableRun (env : BtreeEnv P K V) : List (TableEvent P K V) → BtreeState P K V →
    Except Panic (BtreeState P K V)
  | [], state => return state
  | event :: rest, state => do
    let state ← env.tableStep state event
    tableRun env rest state

/- Before every event its leaves fit. -/
def FittingRun (env : BtreeEnv P K V) : List (TableEvent P K V) → BtreeState P K V → Prop
  | [], _ => True
  | event :: rest, state =>
    (∀ c, event = .call c → CallFits env state c) ∧
      ∀ state', env.tableStep state event = .ok state' → FittingRun env rest state'

theorem tableRun_fits {events : List (TableEvent P K V)}
    (hFit : LeavesFit env state.mem) (hStored : Stored state) (hCond : FittingRun env events state)
    (hRun : env.tableRun events state = .ok state') :
    LeavesFit env state'.mem := by
  induction events generalizing state with
  | nil =>
    cases hRun
    exact hFit
  | cons event rest ih =>
    simp only [BtreeEnv.tableRun, bind_eq_ok] at hRun
    rcases hRun with ⟨state1, hStep, hRest⟩
    have hLater := hCond.2 state1 hStep
    cases event with
    | call c =>
      exact ih (tableCall_fits hFit hStored (hCond.1 c rfl)
        hStep) (tableCall_turns env hStored hStep).2 hLater
        hRest
    | mark committed =>
      cases hStep
      have hMarked : LeavesFit env (BtreeState.mk state.root
        (state.mem.mark committed)).mem := hFit.of_pages rfl
      exact ih hMarked (hStored.mark committed) hLater hRest

/-
  From an empty table, as long as every call fits before it is made, every leaf in one page is
  within the capacity of the encrypting backend.
-/
theorem leaves_fit_along_run (events : List (TableEvent P K V)) {state : BtreeState P K V}
    (hCond : FittingRun env events ⟨none, emptyMemory⟩)
    (hRun : env.tableRun events ⟨none, emptyMemory⟩ = .ok state) :
    LeavesFit env state.mem := by
  have hFit : LeavesFit env (emptyMemory : Mem P K V) :=
    fun p pairs hPage => by cases hPage
  exact tableRun_fits hFit stored_empty hCond hRun

end Calls

/- One value is inserted, and all entries are then removed. -/
def emptiedEvents : List (TableEvent (Nat × Nat) Nat Nat) :=
  [.call (.call (.insert 0 100)), .call (.retain (fun _ => true) (fun _ _ => false))]

theorem emptiedEvents_fitting : FittingRun natEnv emptiedEvents ⟨none, emptyMemory⟩ := by
  refine ⟨?_, ?_⟩
  · rintro c ⟨⟩
    change natFormat.storable [(0, 100)] = true
    decide
  · intro state hStep
    simp only [BtreeEnv.tableStep, BtreeEnv.tableCall,
      BtreeEnv.call, BtreeEnv.insert, bind_eq_ok, pure_eq_ok, Except.ok.injEq] at hStep
    rcases hStep with ⟨⟨_, _⟩, ⟨⟨_, _, _⟩, ⟨⟨leaf, mem1⟩, hBuild, _, rfl, rfl⟩, _, rfl⟩, rfl⟩
    have hPairs := (natEnv.buildLeaf_ok hBuild).2.1
    refine ⟨?_, fun _ _ => trivial⟩
    rintro c ⟨⟩
    have hKeys : ((rootEntries (some ⟨0, leaf, deferred, 1⟩)).filter
          fun e : Nat × Nat => true && !false).map Prod.fst =
          [0] := by
      change (leaf.pairs.filter fun e : Nat × Nat => true && !false).map Prod.fst = [0]
      rw [hPairs]
      rfl
    change RemovesFit natEnv (((rootEntries (some ⟨0, leaf, deferred, 1⟩)).filter
        fun e : Nat × Nat => true && !false).map Prod.fst) _ _
    rw [hKeys]
    refine ⟨?_, fun _ _ _ _ => trivial⟩
    change natEnv.leafRemoveFits false leaf 0 mem1 = true
    simp [BtreeEnv.leafRemoveFits, hPairs]

/- The leaves of the run are within the capacity. -/
theorem emptied_table_fits : FittingRun natEnv emptiedEvents ⟨none, emptyMemory⟩ ∧ ∀ state,
        natEnv.tableRun emptiedEvents ⟨none, emptyMemory⟩ = .ok state →
          LeavesFit natEnv state.mem :=
  ⟨emptiedEvents_fitting, fun _ hRun =>
    leaves_fit_along_run emptiedEvents emptiedEvents_fitting hRun⟩

/-
  One pair of 4076 bytes is inserted into an empty table: it gets a leaf in one page, of which the
  backend keeps 4068 bytes.
-/
theorem single_pair_exceeds_capacity :
    ∃ state, natEnv.tableRun [.call (.call (.insert 0 4060))] ⟨none, emptyMemory⟩ = .ok state ∧
      ¬LeavesFit natEnv state.mem := by
  have hBytes : natFormat.leafBytes [(0, 4060)] = 4076 := rfl
  rcases buildLeaf_returns natEnv emptyMemory
    (natFormat.leafEncodable_of_sublist (List.Sublist.refl _) (List.cons_ne_nil (0, 4060) [])
      (by simp [Format.maxCount]) (by rw [hBytes]; decide)) with ⟨leaf, mem, hBuild⟩
  rcases natEnv.buildLeaf_ok hBuild with ⟨_, _, hAlloc⟩
  have hMem := congrArg Prod.snd hAlloc
  change mem = _ at hMem
  refine ⟨⟨some ⟨0, leaf, deferred, 1⟩, mem⟩, ?_, fun hFit => ?_⟩
  · simp [BtreeEnv.tableRun, BtreeEnv.tableStep,
      BtreeEnv.tableCall, BtreeEnv.call, BtreeEnv.insert, hBuild]
  · have hPage : mem.pages (natAllocator.pick (emptyMemory : Mem (Nat × Nat) Nat Nat).allocated
        (requiredOrder (natFormat.leafBytes [(0, 4060)]))) = some (.leaf [(0, 4060)]) := by
      rw [hMem]
      simp [PageMemory.allocate, natEnv]
    have hOrder : requiredOrder (natFormat.leafBytes [(0, 4060)]) = 0 := by
      refine Nat.le_zero.mp (requiredOrder_le _ 0 ?_)
      rw [hBytes]
      decide
    have hLe := hFit _ _ hPage ((natAllocator.pick_order _ _).trans hOrder)
    exact absurd hLe (by decide)

end Redbx
