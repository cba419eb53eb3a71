import Redbx.Btree.Builder
import Redbx.Core.Bisect

/-
  `MutateHelper`: insertion and deletion in a subtree.

  Both walk down to the leaf of a key and repair the branches on the way up. A branch that gets new
  children is described by splices of its lists: the children from `i` on that are replaced, and the
  keys between them. Pages handed to the helpers are the subtrees they root.

  Key theorems include:
    * `BtreeEnv.deleteLeaf_ok`, `BtreeEnv.absorb_ok`
-/

namespace Redbx

-- Searching a Node

/- `LeafAccessor::position`. -/
def Leaf.position {P K V : Type} [Ord K] (leaf : Leaf P K V) (key : K) : Nat × Bool :=
  search (leaf.pairs.map Prod.fst) key

/- `BranchAccessor::child_for_key`. -/
def Branch.childForKey {P K C : Type} [Ord K] (branch : Branch P K C) (key : K) : Nat :=
  (search branch.keys key).1

/-
  A leaf is searched for the first key that is not below the query, a branch for the one child
  between whose separators the query is. Different keys may be equal.
-/
theorem searches_find_place {P K V C : Type} [Ord K] [Std.TransOrd K] (leaf : Leaf P K V)
    (branch : Branch P K C) (query : K) (hLeaf : leaf.pairs.Pairwise (compare ·.1 ·.1 = .lt))
    (hBranch : branch.keys.Pairwise (compare · · = .lt))
    (hChildren : branch.children.length = branch.keys.length + 1) :
    ((leaf.position query).1 ≤ leaf.pairs.length ∧
      (∀ i pair, leaf.pairs[i]? = some pair →
        (i < (leaf.position query).1 ↔ compare query pair.1 = .gt)) ∧
      ((leaf.position query).2 = true ↔ ∃ pair, leaf.pairs[(leaf.position query).1]? = some pair ∧
        compare query pair.1 = .eq)) ∧
    branch.childForKey query < branch.children.length ∧ ∀ i < branch.children.length,
      (i = branch.childForKey query ↔
        (∀ key, 0 < i → branch.keys[i - 1]? = some key → compare query key = .gt) ∧
        ∀ key, branch.keys[i]? = some key → compare query key ≠ .gt) := by
  rcases search_bounds query (List.pairwise_map.mpr hLeaf) with ⟨hLe, hBefore, hFound⟩
  rcases search_bounds query hBranch with ⟨hLast, hLess, _⟩
  rw [List.length_map] at hLe
  refine ⟨⟨hLe, fun i pair hPair => hBefore i pair.1 ?_, hFound.trans ?_⟩, ?_, fun i hi => ⟨?_, ?_⟩⟩
  · rw [List.getElem?_map, hPair]
    rfl
  · simp [Leaf.position]
  · exact hChildren ▸ Nat.lt_succ_of_le hLast
  · rintro rfl
    refine ⟨fun key hPos hKey => (hLess _ key hKey).mp (Nat.sub_one_lt_of_lt hPos), ?_⟩
    exact fun key hKey hGt => Nat.lt_irrefl _ ((hLess _ key hKey).mpr hGt)
  · rintro ⟨hLeft, hRight⟩
    rcases Nat.lt_trichotomy i (branch.childForKey query) with hLt | hEq | hGt
    · have hKey := List.getElem?_eq_getElem (Nat.lt_of_lt_of_le hLt hLast)
      exact absurd ((hLess i _ hKey).mp hLt) (hRight _ hKey)
    · exact hEq
    · have hKey := List.getElem?_eq_getElem (show i - 1 < branch.keys.length by omega)
      have hIn := (hLess (i - 1) _ hKey).mpr (hLeft _ (Nat.zero_lt_of_lt hGt) hKey)
      change i - 1 < branch.childForKey query at hIn
      omega

theorem searches_find_two :
    (Leaf.position (⟨0, [(1, 5), (3, 6)]⟩ : Leaf Nat Nat Nat) 2).1 ≤ 2 ∧
      (Branch.childForKey (⟨0, [((), 0), ((), 0)], [2]⟩ : Branch Nat Nat Unit) 2) < 2 := by
  have hAll := searches_find_place (⟨0, [(1, 5), (3, 6)]⟩ : Leaf Nat Nat Nat)
    (⟨0, [((), 0), ((), 0)], [2]⟩ : Branch Nat Nat Unit) 2 (by decide) (by decide) rfl
  exact ⟨hAll.1.1, hAll.2.1⟩

/- The leaf in which the descent for a key ends. -/
def Tree.leafFor {P K V : Type} [Ord K] : (n : Nat) → Tree P K V n → K → Option (Leaf P K V)
  | 0, leaf, _ => some leaf
  | n + 1, branch, key =>
    match (Branch.children branch)[
        Branch.childForKey branch key]? with
    | some c => leafFor n c.1 key
    | none => none

/- The pairs that `LeafMutator::insert` leaves in a page. -/
def insertInplace
    {K V : Type} (pairs : List (K × V)) (position : Nat) (overwrite : Bool) (key : K) (value : V) :
    List (K × V) :=
  if overwrite then
    pairs.modify position (fun p => (p.1, value))
  else
    pairs.insertIdx position (key, value)

/- The pairs that a rebuilt leaf gets. -/
def insertRebuilt
    {K V : Type} (pairs : List (K × V)) (position : Nat) (found : Bool) (key : K) (value : V) :
    List (K × V) :=
  splice pairs position (if found then 1 else 0) [(key, value)]

-- Insertion

/- The node or nodes that replace a subtree. -/
structure InsertionResult (K V C : Type) where
  pieces : Pieces K C
  oldValue : Option V

namespace BtreeEnv

variable {P K V : Type} [DecidableEq P] [Ord K] (env : BtreeEnv P K V) (modifyUncommitted : Bool)

/- The leaf case of `insert_helper`. -/
def insertLeaf (leaf : Leaf P K V) (checksum : Checksum) (key : K) (value : V) (mem : Mem P K V) :
    Except Panic (InsertionResult K V (Leaf P K V) × Mem P K V) := do
  let (position, found) := leaf.position key
  let oldValue := if found then (leaf.pairs[position]?).map Prod.snd else none
  if !found && env.fmt.singleLargeValue leaf.pairs then
    -- the large value keeps its page
    let (newLeaf, mem) ← env.buildLeaf [(key, value)] mem
    if position = 0 then
      return (⟨⟨(newLeaf, deferred), some (key, leaf, checksum)⟩, none⟩, mem)
    else
      let lastPair ← unwrap leaf.pairs.getLast?
      return (⟨⟨(leaf, checksum), some (lastPair.1, newLeaf, deferred)⟩, none⟩, mem)
  else if mem.isUncommitted leaf.page && modifyUncommitted &&
      env.fmt.sufficientInsertInplaceSpace (env.alloc.order leaf.page) leaf.pairs position found
        key value then
    let pairs := insertInplace leaf.pairs position found key value
    require (env.fmt.insertEncodable pairs position) .outOfRange
    return (⟨⟨(⟨leaf.page, pairs⟩, deferred), none⟩, oldValue⟩, mem.write leaf.page (.leaf pairs))
  else
    let pairs := insertRebuilt leaf.pairs position found key value
    let (pieces, mem) ← env.leafPieces pairs mem
    return (⟨pieces, oldValue⟩, mem.conditionalFree modifyUncommitted leaf.page)

/- The branch case of `insert_helper`, once the child `i` has been replaced. -/
def insertBranch {n : Nat} (branch : Branch P K (Tree P K V n)) (i : Nat)
    (sub : InsertionResult K V (Tree P K V n)) (mem : Mem P K V) :
    Except Panic (InsertionResult K V (Tree P K V (n + 1)) × Mem P K V) := do
  if sub.pieces.next.isNone && modifyUncommitted &&
      mem.isUncommitted branch.page then
    let children := branch.children.set i sub.pieces.first
    return (⟨⟨(⟨branch.page, children, branch.keys⟩, deferred), none⟩, sub.oldValue⟩,
      mem.write branch.page (Tree.branchImage n children branch.keys))
  else
    let (pieces, mem) ← env.branchPieces (splice branch.children i 1 sub.pieces.children)
      (splice branch.keys i 0 sub.pieces.keys) mem
    return (⟨pieces, sub.oldValue⟩, mem.conditionalFree modifyUncommitted branch.page)

/- `MutateHelper::insert_helper`. -/
def insertHelper : (n : Nat) → Tree P K V n → Checksum → K → V → Mem P K V →
    Except Panic (InsertionResult K V (Tree P K V n) × Mem P K V)
  | 0, leaf, checksum, key, value, mem =>
    env.insertLeaf modifyUncommitted leaf checksum key value mem
  | n + 1, branch, _, key, value, mem => do
    let i := Branch.childForKey branch key
    let (child, childChecksum) ← unwrap (Branch.children branch)[i]?
    let (sub, mem) ← insertHelper n child childChecksum key value mem
    env.insertBranch modifyUncommitted branch i sub mem

-- Deletion

end BtreeEnv

/-
  What is left of a subtree: a subtree, nothing, too little to stay a page of its own, or the only
  child of a branch.
-/
inductive DeletionResult (P K V : Type) : Nat → Type where
  | subtree {n : Nat} (tree : Tree P K V n) (checksum : Checksum) : DeletionResult P K V n
  | deletedLeaf : DeletionResult P K V 0
  | partialLeaf (pairs : List (K × V)) (deletedPair : Nat) : DeletionResult P K V 0
  | partialBranch {n : Nat} (branch : Branch P K (Tree P K V n))
      (checksum : Checksum) : DeletionResult P K V (n + 1)
  | deletedBranch {n : Nat} (child : Tree P K V n)
      (checksum : Checksum) : DeletionResult P K V (n + 1)

/- The child that an underfull child `i` is merged with. -/
def mergeWith (i : Nat) : Nat :=
  if i = 0 then 1 else i - 1

namespace BtreeEnv

variable {P K V : Type} [DecidableEq P] [Ord K] (env : BtreeEnv P K V) (modifyUncommitted : Bool)

/- `MutateHelper::delete_leaf_helper`. -/
def deleteLeaf (leaf : Leaf P K V) (checksum : Checksum) (key : K) (mem : Mem P K V) :
    Except Panic (DeletionResult P K V 0 × Option V × Mem P K V) := do
  let (position, found) := leaf.position key
  if !found then
    return (.subtree leaf checksum, none, mem)
  else
    let pair ← unwrap leaf.pairs[position]?
    let rest := leaf.pairs.eraseIdx position
    let required := env.fmt.leafBytes rest
    if mem.isUncommitted leaf.page && modifyUncommitted &&
        decide (effectiveLeafPageSize / 2 ≤ required) &&
        decide (1 < leaf.pairs.length) then
      -- the pair is removed when the returned guard is dropped
      return (.subtree ⟨leaf.page, rest⟩ deferred, some pair.2, mem.write leaf.page (.leaf rest))
    else if leaf.pairs.length = 1 then
      return (.deletedLeaf, some pair.2, mem.conditionalFree modifyUncommitted leaf.page)
    else if required < effectiveLeafPageSize / 3 then
      return (.partialLeaf leaf.pairs position, some pair.2,
        mem.conditionalFree modifyUncommitted leaf.page)
    else
      let (newLeaf, mem) ← env.buildLeaf rest mem
      return (.subtree newLeaf deferred, some pair.2,
        mem.conditionalFree modifyUncommitted leaf.page)

/- `MutateHelper::finalize_branch_builder`. -/
def finalizeBranchBuilder
    {n : Nat} (children : Children P K V n) (keys : List K) (mem : Mem P K V) :
    Except Panic (DeletionResult P K V (n + 1) × Mem P K V) :=
  match children with
  | [] => .error .unwrapped
  | [(child, checksum)] => .ok (.deletedBranch child checksum, mem)
  | _ => do
    let (branch, mem) ← env.buildBranch children keys mem
    if env.fmt.branchBytes keys < pageSize / 3 then
      return (.partialBranch branch deferred, mem)
    else
      return (.subtree branch deferred, mem)

/-
  Put the merged pieces in the place of the children `lo` and `lo + 1`, and let go of the pages they
  replace.
-/
def replacePair
    {n : Nat} (branch : Branch P K (Tree P K V n)) (lo : Nat) (pieces : Pieces K (Tree P K V n))
    (dropped : List P) (mem : Mem P K V) :
    Except Panic (DeletionResult P K V (n + 1) × Mem P K V) := do
  let (result, mem) ← env.finalizeBranchBuilder (splice branch.children lo 2 pieces.children)
    (splice branch.keys lo 1 pieces.keys) mem
  return (result, (dropped ++ [branch.page]).foldl
      (fun mem p => mem.conditionalFree modifyUncommitted p) mem)

/- `MutateHelper::delete_branch_helper`, once an entry has been removed from the child `i`. -/
def absorb : {n : Nat} → Branch P K (Tree P K V n) → Nat → DeletionResult P K V n → Mem P K V →
    Except Panic (DeletionResult P K V (n + 1) × Mem P K V)
  | n, branch, i, .subtree child checksum, mem =>
    let children := branch.children.set i (child, checksum)
    if mem.isUncommitted branch.page && modifyUncommitted then
      return (.subtree ⟨branch.page, children, branch.keys⟩ deferred,
        mem.write branch.page (Tree.branchImage n children branch.keys))
    else do
      let (newBranch, mem) ← env.buildBranch children branch.keys mem
      return (.subtree newBranch deferred, mem.conditionalFree modifyUncommitted branch.page)
  | 0, branch, i, .deletedLeaf, mem => do
    let lastChild := branch.children.length - 1
    let (result, mem) ← env.finalizeBranchBuilder (branch.children.eraseIdx i)
      (branch.keys.eraseIdx (if i = lastChild then lastChild - 1 else i)) mem
    return (result, mem.conditionalFree modifyUncommitted branch.page)
  | 0, branch, i, .partialLeaf pairs deletedPair, mem => do
    let rest := pairs.eraseIdx deletedPair
    let (sibling, _) ← unwrap branch.children[mergeWith i]?
    if env.fmt.singleLargeValue (Leaf.pairs sibling) then
      let (newLeaf, mem) ← env.buildLeaf rest mem
      let (result, mem) ← env.finalizeBranchBuilder (n := 0)
        (branch.children.set i (newLeaf, deferred)) branch.keys mem
      return (result, mem.conditionalFree modifyUncommitted branch.page)
    else
      let merged := if i < mergeWith i then
          rest ++ Leaf.pairs sibling
        else
          Leaf.pairs sibling ++ rest
      let (pieces, mem) ← env.leafPieces merged mem
      env.replacePair modifyUncommitted (n := 0) branch
        (min i (mergeWith i)) pieces [Leaf.page sibling] mem
  | n + 1, branch, i, .deletedBranch grandchild checksum, mem => do
    let (sibling, _) ← unwrap branch.children[mergeWith i]?
    let separator ← unwrap branch.keys[min i (mergeWith i)]?
    let children := if i < mergeWith i then
        (grandchild, checksum) :: Branch.children sibling
      else
        Branch.children sibling ++ [(grandchild, checksum)]
    let keys := if i < mergeWith i then
        separator :: Branch.keys sibling
      else
        Branch.keys sibling ++ [separator]
    let (pieces, mem) ← env.branchPieces children keys mem
    env.replacePair modifyUncommitted (n := n + 1) branch
      (min i (mergeWith i)) pieces [Branch.page sibling] mem
  | n + 1, branch, i, .partialBranch partialChild _, mem => do
    let (sibling, _) ← unwrap branch.children[mergeWith i]?
    let separator ← unwrap branch.keys[min i (mergeWith i)]?
    let children := if i < mergeWith i then
        partialChild.children ++ Branch.children sibling
      else
        Branch.children sibling ++ partialChild.children
    let keys := if i < mergeWith i then
        partialChild.keys ++ separator :: Branch.keys sibling
      else
        Branch.keys sibling ++ separator :: partialChild.keys
    let (pieces, mem) ← env.branchPieces children keys mem
    env.replacePair modifyUncommitted (n := n + 1) branch (min i (mergeWith i)) pieces
      [Branch.page sibling, partialChild.page] mem

/- `MutateHelper::delete_helper`. -/
def deleteHelper : (n : Nat) → Tree P K V n → Checksum → K → Mem P K V →
    Except Panic (DeletionResult P K V n × Option V × Mem P K V)
  | 0, leaf, checksum, key, mem =>
    env.deleteLeaf modifyUncommitted leaf checksum key mem
  | n + 1, branch, checksum, key, mem => do
    let i := Branch.childForKey branch key
    let (child, childChecksum) ← unwrap (Branch.children branch)[i]?
    let (result, found, mem) ← deleteHelper n child childChecksum key mem
    if found.isNone then
      return (.subtree branch checksum, none, mem)
    else
      let (result, mem) ← env.absorb modifyUncommitted branch i result mem
      return (result, found, mem)

-- Outcomes

/- The four ways an insertion into a leaf can go. -/
inductive LeafInsertion
    (leaf : Leaf P K V) (checksum : Checksum) (key : K) (value : V) (mem : Mem P K V) :
    InsertionResult K V (Leaf P K V) → Mem P K V → Prop where
  | before (newLeaf : Leaf P K V) (mem' : Mem P K V) (hSearch : leaf.position key = (0, false))
      (hLarge : env.fmt.singleLargeValue leaf.pairs = true)
      (hBuild : env.buildLeaf [(key, value)] mem = .ok (newLeaf, mem')) :
      LeafInsertion leaf checksum key value mem
        ⟨⟨(newLeaf, deferred), some (key, leaf, checksum)⟩, none⟩ mem'
  | after (newLeaf : Leaf P K V) (mem' : Mem P K V) (position : Nat) (lastPair : K × V)
      (hSearch : leaf.position key = (position, false)) (hPosition : position ≠ 0)
      (hLarge : env.fmt.singleLargeValue leaf.pairs = true)
      (hBuild : env.buildLeaf [(key, value)] mem = .ok (newLeaf, mem'))
      (hLast : leaf.pairs.getLast? = some lastPair) :
      LeafInsertion leaf checksum key value mem ⟨⟨(leaf, checksum),
          some (lastPair.1, newLeaf, deferred)⟩, none⟩ mem'
  | inPlace (position : Nat) (found : Bool) (hSearch : leaf.position key = (position, found))
      (hSmall : (!found && env.fmt.singleLargeValue leaf.pairs) = false)
      (hUncommitted : leaf.page ∈ mem.uncommitted) (hModify : modifyUncommitted = true)
      (hSpace : env.fmt.sufficientInsertInplaceSpace
          (env.alloc.order leaf.page) leaf.pairs position found key value = true) :
      LeafInsertion leaf checksum key value mem ⟨⟨(⟨leaf.page,
            insertInplace leaf.pairs position found key value⟩,
          deferred), none⟩,
          if found then (leaf.pairs[position]?).map Prod.snd
          else none⟩
        (mem.write leaf.page (.leaf (insertInplace leaf.pairs position found key value)))
  | rebuilt (position : Nat) (found : Bool) (pieces : Pieces K (Leaf P K V)) (mem' : Mem P K V)
      (hSearch : leaf.position key = (position, found))
      (hSmall : (!found && env.fmt.singleLargeValue leaf.pairs) = false)
      (hNoSpace : (mem.isUncommitted leaf.page && modifyUncommitted &&
          env.fmt.sufficientInsertInplaceSpace (env.alloc.order leaf.page) leaf.pairs position found
            key value) = false)
      (hPieces : env.leafPieces (insertRebuilt leaf.pairs position found key value)
          mem = .ok (pieces, mem')) :
      LeafInsertion leaf checksum key value mem ⟨pieces,
          if found then (leaf.pairs[position]?).map Prod.snd
          else none⟩
        (mem'.conditionalFree modifyUncommitted leaf.page)

variable {mem mem' : Mem P K V} {checksum : Checksum} {key : K}

/- Every insertion into a leaf goes one of these ways. -/
theorem insertLeaf_ok {leaf : Leaf P K V} {value : V} {result : InsertionResult K V (Leaf P K V)}
    (hInsert : env.insertLeaf modifyUncommitted leaf checksum key value mem = .ok (result, mem')) :
    env.LeafInsertion modifyUncommitted leaf checksum key value mem result mem' := by
  unfold insertLeaf at hInsert
  rcases hSearch : leaf.position key with ⟨position, found⟩
  simp only [hSearch] at hInsert
  cases hLarge : (!found && env.fmt.singleLargeValue leaf.pairs) with
  | true =>
    rw [hLarge] at hInsert
    simp only [if_true, bind_eq_ok] at hInsert
    rcases hInsert with ⟨⟨newLeaf, mem1⟩, hBuild, hRest⟩
    rcases Bool.and_eq_true_iff.mp hLarge with ⟨hFound, hSingle⟩
    have hNot : found = false := by simpa using hFound
    subst hNot
    by_cases hZero : position = 0
    · rw [if_pos hZero] at hRest
      cases hRest
      exact .before newLeaf _ (by rw [hSearch, hZero]) hSingle hBuild
    · rw [if_neg hZero] at hRest
      simp only [bind_eq_ok, unwrap_eq_ok] at hRest
      rcases hRest with ⟨lastPair, hLast, hEq⟩
      cases hEq
      exact .after newLeaf _ position lastPair hSearch hZero hSingle hBuild hLast
  | false =>
    rw [hLarge] at hInsert
    simp only [Bool.false_eq_true, if_false] at hInsert
    cases hSpace : (mem.isUncommitted leaf.page && modifyUncommitted &&
          env.fmt.sufficientInsertInplaceSpace (env.alloc.order leaf.page) leaf.pairs position
            found key value) with
    | true =>
      rw [hSpace] at hInsert
      simp only [if_true, bind_eq_ok, require_eq_ok] at hInsert
      rcases hInsert with ⟨_, _, hEq⟩
      cases hEq
      simp only [Bool.and_eq_true, PageMemory.isUncommitted, decide_eq_true_eq] at hSpace
      exact .inPlace position found hSearch hLarge hSpace.1.1 hSpace.1.2 hSpace.2
    | false =>
      rw [hSpace] at hInsert
      simp only [Bool.false_eq_true, if_false, bind_eq_ok] at hInsert
      rcases hInsert with ⟨⟨pieces, mem1⟩, hPieces, hEq⟩
      cases hEq
      exact .rebuilt position found pieces mem1 hSearch hLarge hSpace hPieces

/- The two ways a branch takes up a changed child. -/
inductive BranchInsertion {n : Nat} (branch : Branch P K (Tree P K V n)) (i : Nat)
    (sub : InsertionResult K V (Tree P K V n)) (mem : Mem P K V) :
    InsertionResult K V (Tree P K V (n + 1)) →
    Mem P K V → Prop where
  | inPlace (hNext : sub.pieces.next = none) (hModify : modifyUncommitted = true)
      (hUncommitted : branch.page ∈ mem.uncommitted) :
      BranchInsertion branch i sub mem ⟨⟨(⟨branch.page, branch.children.set i sub.pieces.first,
            branch.keys⟩, deferred), none⟩, sub.oldValue⟩
        (mem.write branch.page (Tree.branchImage n (branch.children.set i sub.pieces.first)
            branch.keys))
  | rebuilt (pieces : Pieces K (Branch P K (Tree P K V n))) (mem' : Mem P K V) (hPieces :
        env.branchPieces (splice branch.children i 1 sub.pieces.children)
          (splice branch.keys i 0 sub.pieces.keys) mem =
          .ok (pieces, mem')) :
      BranchInsertion branch i sub mem ⟨pieces, sub.oldValue⟩
        (mem'.conditionalFree modifyUncommitted branch.page)

omit [Ord K] in
variable {n : Nat} {branch : Branch P K (Tree P K V n)}

omit [Ord K] in
/- Every insertion below a branch goes one of these ways. -/
theorem insertBranch_ok {i : Nat} {sub : InsertionResult K V (Tree P K V n)}
    {result : InsertionResult K V (Tree P K V (n + 1))}
    (hInsert : env.insertBranch modifyUncommitted branch i sub mem = .ok (result, mem')) :
    env.BranchInsertion modifyUncommitted branch i sub mem result mem' := by
  unfold insertBranch at hInsert
  cases hCase : (sub.pieces.next.isNone && modifyUncommitted && mem.isUncommitted branch.page) with
  | true =>
    rw [hCase] at hInsert
    simp only [if_true] at hInsert
    cases hInsert
    simp only [Bool.and_eq_true, Option.isNone_iff_eq_none,
      PageMemory.isUncommitted, decide_eq_true_eq] at hCase
    exact .inPlace hCase.1.1 hCase.1.2 hCase.2
  | false =>
    rw [hCase] at hInsert
    simp only [Bool.false_eq_true, if_false, bind_eq_ok] at hInsert
    rcases hInsert with ⟨⟨pieces, mem1⟩, hPieces, hEq⟩
    cases hEq
    exact .rebuilt pieces mem1 hPieces

theorem insertHelper_ok {value : V} {result : InsertionResult K V (Tree P K V (n + 1))}
    (hInsert : env.insertHelper modifyUncommitted (n + 1) branch checksum
        key value mem = .ok (result, mem')) :
    ∃ child sub mem1, branch.children[branch.childForKey key]? = some child ∧
      env.insertHelper modifyUncommitted n child.1 child.2 key value mem = .ok (sub, mem1) ∧
      env.BranchInsertion modifyUncommitted branch
        (branch.childForKey key) sub mem1 result mem' := by
  simp only [insertHelper, bind_eq_ok, unwrap_eq_ok] at hInsert
  rcases hInsert with ⟨child, hChild, ⟨sub, mem1⟩, hSub, hBranch⟩
  exact ⟨child, sub, mem1, hChild, hSub, env.insertBranch_ok modifyUncommitted hBranch⟩

/- The five ways a deletion from a leaf can go. -/
inductive LeafDeletion (leaf : Leaf P K V) (checksum : Checksum) (key : K) (mem : Mem P K V) :
    DeletionResult P K V 0 → Option V → Mem P K V → Prop where
  | missing (position : Nat) (hSearch : leaf.position key = (position, false)) :
      LeafDeletion leaf checksum key mem (.subtree leaf checksum) none mem
  | inPlace (position : Nat) (pair : K × V) (hSearch : leaf.position key = (position, true))
      (hPair : leaf.pairs[position]? = some pair) (hUncommitted : leaf.page ∈ mem.uncommitted)
      (hModify : modifyUncommitted = true) (hLength : 1 < leaf.pairs.length) :
      LeafDeletion leaf checksum key mem
        (.subtree ⟨leaf.page, leaf.pairs.eraseIdx position⟩ deferred) (some pair.2)
        (mem.write leaf.page (.leaf (leaf.pairs.eraseIdx position)))
  | emptied (position : Nat) (pair : K × V) (hSearch : leaf.position key = (position, true))
      (hPair : leaf.pairs[position]? = some pair) (hLength : leaf.pairs.length = 1) :
      LeafDeletion leaf checksum key mem .deletedLeaf (some pair.2)
        (mem.conditionalFree modifyUncommitted leaf.page)
  | underfull (position : Nat) (pair : K × V) (hSearch : leaf.position key = (position, true))
      (hPair : leaf.pairs[position]? = some pair) (hLength : leaf.pairs.length ≠ 1)
      (hSmall : env.fmt.leafBytes (leaf.pairs.eraseIdx position) < effectiveLeafPageSize / 3) :
      LeafDeletion leaf checksum key mem (.partialLeaf leaf.pairs position) (some pair.2)
        (mem.conditionalFree modifyUncommitted leaf.page)
  | rebuilt (position : Nat) (pair : K × V) (newLeaf : Leaf P K V) (mem' : Mem P K V)
      (hSearch : leaf.position key = (position, true)) (hPair : leaf.pairs[position]? = some pair)
      (hNotInPlace : ¬(leaf.page ∈ mem.uncommitted ∧ modifyUncommitted = true ∧
          effectiveLeafPageSize / 2 ≤ env.fmt.leafBytes (leaf.pairs.eraseIdx position) ∧
          1 < leaf.pairs.length))
      (hLength : leaf.pairs.length ≠ 1)
      (hEnough : ¬env.fmt.leafBytes (leaf.pairs.eraseIdx position) < effectiveLeafPageSize / 3)
      (hBuild : env.buildLeaf (leaf.pairs.eraseIdx position) mem = .ok (newLeaf, mem')) :
      LeafDeletion leaf checksum key mem (.subtree newLeaf deferred) (some pair.2)
        (mem'.conditionalFree modifyUncommitted leaf.page)

/- Every deletion from a leaf goes one of these ways. -/
theorem deleteLeaf_ok {leaf : Leaf P K V} {result : DeletionResult P K V 0} {found : Option V}
    (hDelete : env.deleteLeaf modifyUncommitted leaf checksum key mem = .ok (result, found, mem')) :
    env.LeafDeletion modifyUncommitted leaf checksum key mem result found mem' := by
  unfold deleteLeaf at hDelete
  rcases hSearch : leaf.position key with ⟨position, isFound⟩
  simp only [hSearch] at hDelete
  cases isFound with
  | false =>
    simp only [Bool.not_false, if_true] at hDelete
    cases hDelete
    exact .missing position hSearch
  | true =>
    simp only [Bool.not_true, Bool.false_eq_true, if_false, bind_eq_ok, unwrap_eq_ok] at hDelete
    rcases hDelete with ⟨pair, hPair, hRest⟩
    split at hRest
    · next hFast =>
      simp only [Bool.and_eq_true, PageMemory.isUncommitted, decide_eq_true_eq] at hFast
      cases hRest
      exact .inPlace position pair hSearch hPair hFast.1.1.1 hFast.1.1.2 hFast.2
    · next hSlow =>
      simp only [Bool.and_eq_true, PageMemory.isUncommitted, decide_eq_true_eq, and_assoc] at hSlow
      split at hRest
      · next hLength =>
        cases hRest
        exact .emptied position pair hSearch hPair hLength
      · next hLength =>
        split at hRest
        · next hSmall =>
          cases hRest
          exact .underfull position pair hSearch hPair hLength hSmall
        · next hEnough =>
          simp only [bind_eq_ok] at hRest
          rcases hRest with ⟨⟨newLeaf, mem1⟩, hBuild, hEq⟩
          cases hEq
          exact .rebuilt position pair newLeaf mem1 hSearch hPair hSlow hLength hEnough hBuild

/- The ways a branch takes up what is left of a child. -/
inductive Absorption : {n : Nat} → Branch P K (Tree P K V n) → Nat → DeletionResult P K V n →
    Mem P K V →
    DeletionResult P K V (n + 1) →
    Mem P K V →
    Prop where
  | inPlace {n : Nat} (branch : Branch P K (Tree P K V n))
      (i : Nat) (child : Tree P K V n) (checksum : Checksum) (mem : Mem P K V)
      (hUncommitted : branch.page ∈ mem.uncommitted) (hModify : modifyUncommitted = true) :
      Absorption branch i (.subtree child checksum) mem (.subtree
          ⟨branch.page, branch.children.set i (child, checksum), branch.keys⟩ deferred)
        (mem.write branch.page (Tree.branchImage n (branch.children.set i (child, checksum))
            branch.keys))
  | rebuilt {n : Nat} (branch : Branch P K (Tree P K V n))
      (i : Nat) (child : Tree P K V n) (checksum : Checksum)
      (mem mem' : Mem P K V) (newBranch : Branch P K (Tree P K V n))
      (hBuild : env.buildBranch (branch.children.set i (child, checksum))
          branch.keys mem = .ok (newBranch, mem')) :
      Absorption branch i (.subtree child checksum) mem (.subtree newBranch deferred)
        (mem'.conditionalFree modifyUncommitted branch.page)
  | dropped (branch : Branch P K (Tree P K V 0)) (i : Nat) (mem mem' : Mem P K V)
      (result : DeletionResult P K V 1)
      (hFinal : env.finalizeBranchBuilder (branch.children.eraseIdx i)
          (branch.keys.eraseIdx (if i = branch.children.length - 1 then
              branch.children.length - 1 - 1 else i)) mem =
          .ok (result, mem')) :
      Absorption branch i .deletedLeaf mem result
        (mem'.conditionalFree modifyUncommitted branch.page)
  | keptAlone (branch : Branch P K (Tree P K V 0)) (i : Nat)
      (pairs : List (K × V)) (deletedPair : Nat) (sibling : Leaf P K V × Checksum)
      (newLeaf : Leaf P K V) (mem mem1 mem2 : Mem P K V) (result : DeletionResult P K V 1)
      (hSibling : branch.children[mergeWith i]? = some sibling)
      (hLarge : env.fmt.singleLargeValue sibling.1.pairs = true)
      (hBuild : env.buildLeaf (pairs.eraseIdx deletedPair) mem = .ok (newLeaf, mem1))
      (hFinal : env.finalizeBranchBuilder (n := 0) (branch.children.set i (newLeaf, deferred))
          branch.keys mem1 = .ok (result, mem2)) :
      Absorption branch i (.partialLeaf pairs deletedPair) mem result
        (mem2.conditionalFree modifyUncommitted branch.page)
  | mergedLeaf (branch : Branch P K (Tree P K V 0)) (i : Nat)
      (pairs : List (K × V)) (deletedPair : Nat) (sibling : Leaf P K V × Checksum)
      (pieces : Pieces K (Leaf P K V)) (mem mem1 mem2 : Mem P K V) (result : DeletionResult P K V 1)
      (hSibling : branch.children[mergeWith i]? = some sibling)
      (hSmall : env.fmt.singleLargeValue sibling.1.pairs = false)
      (hPieces : env.leafPieces (if i < mergeWith i then
            pairs.eraseIdx deletedPair ++ sibling.1.pairs
          else
            sibling.1.pairs ++ pairs.eraseIdx deletedPair) mem =
          .ok (pieces, mem1))
      (hReplace : env.replacePair modifyUncommitted (n := 0) branch
          (min i (mergeWith i)) pieces [sibling.1.page] mem1 =
          .ok (result, mem2)) :
      Absorption branch i (.partialLeaf pairs deletedPair) mem result mem2
  | mergedChild {n : Nat} (branch : Branch P K (Tree P K V (n + 1))) (i : Nat)
      (grandchild : Tree P K V n) (checksum : Checksum)
      (sibling : Branch P K (Tree P K V n) × Checksum) (separator : K)
      (pieces : Pieces K (Branch P K (Tree P K V n))) (mem mem1 mem2 : Mem P K V)
      (result : DeletionResult P K V (n + 2))
      (hSibling : branch.children[mergeWith i]? = some sibling)
      (hSeparator : branch.keys[min i (mergeWith i)]? = some separator)
      (hPieces : env.branchPieces (if i < mergeWith i then
            (grandchild, checksum) :: sibling.1.children
          else
            sibling.1.children ++ [(grandchild, checksum)])
          (if i < mergeWith i then separator :: sibling.1.keys else
            sibling.1.keys ++ [separator]) mem =
          .ok (pieces, mem1))
      (hReplace : env.replacePair modifyUncommitted (n := n + 1) branch
          (min i (mergeWith i)) pieces [sibling.1.page] mem1 =
          .ok (result, mem2)) :
      Absorption branch i (.deletedBranch grandchild checksum) mem result mem2
  | mergedBranch {n : Nat} (branch : Branch P K (Tree P K V (n + 1))) (i : Nat)
      (partialChild : Branch P K (Tree P K V n)) (checksum : Checksum)
      (sibling : Branch P K (Tree P K V n) × Checksum) (separator : K)
      (pieces : Pieces K (Branch P K (Tree P K V n))) (mem mem1 mem2 : Mem P K V)
      (result : DeletionResult P K V (n + 2))
      (hSibling : branch.children[mergeWith i]? = some sibling)
      (hSeparator : branch.keys[min i (mergeWith i)]? = some separator)
      (hPieces : env.branchPieces (if i < mergeWith i then
            partialChild.children ++ sibling.1.children
          else
            sibling.1.children ++ partialChild.children)
          (if i < mergeWith i then partialChild.keys ++ separator :: sibling.1.keys else
            sibling.1.keys ++ separator :: partialChild.keys)
          mem = .ok (pieces, mem1))
      (hReplace : env.replacePair modifyUncommitted (n := n + 1) branch (min i (mergeWith i)) pieces
          [sibling.1.page, partialChild.page] mem1 =
          .ok (result, mem2)) :
      Absorption branch i (.partialBranch partialChild checksum) mem result mem2

omit [Ord K] in
/- Every changed child is taken up in one of these ways. -/
theorem absorb_ok {i : Nat} {left : DeletionResult P K V n} {result : DeletionResult P K V (n + 1)}
    (hAbsorb : env.absorb modifyUncommitted branch i left mem = .ok (result, mem')) :
    env.Absorption modifyUncommitted branch i left mem result mem' := by
  cases left with
  | subtree child checksum =>
    simp only [absorb] at hAbsorb
    split at hAbsorb
    · next hFast =>
      simp only [Bool.and_eq_true, PageMemory.isUncommitted, decide_eq_true_eq] at hFast
      cases hAbsorb
      exact .inPlace branch i child checksum mem hFast.1 hFast.2
    · simp only [bind_eq_ok] at hAbsorb
      rcases hAbsorb with ⟨⟨newBranch, mem1⟩, hBuild, hEq⟩
      cases hEq
      exact .rebuilt branch i child checksum mem mem1 newBranch hBuild
  | deletedLeaf =>
    simp only [absorb, bind_eq_ok] at hAbsorb
    rcases hAbsorb with ⟨⟨result1, mem1⟩, hFinal, hEq⟩
    cases hEq
    exact .dropped branch i mem mem1 result1 hFinal
  | partialLeaf pairs deletedPair =>
    simp only [absorb, bind_eq_ok, unwrap_eq_ok] at hAbsorb
    rcases hAbsorb with ⟨sibling, hSibling, hRest⟩
    split at hRest
    · next hLarge =>
      simp only [bind_eq_ok] at hRest
      rcases hRest with ⟨⟨newLeaf, mem1⟩, hBuild, ⟨result1, mem2⟩, hFinal, hEq⟩
      cases hEq
      exact .keptAlone branch i pairs deletedPair sibling
        newLeaf mem mem1 mem2 result1 hSibling hLarge hBuild
        hFinal
    · next hSmall =>
      simp only [bind_eq_ok] at hRest
      rcases hRest with ⟨⟨pieces, mem1⟩, hPieces, hReplace⟩
      exact .mergedLeaf branch i pairs deletedPair sibling pieces mem mem1 mem' result hSibling
        (by simpa using hSmall) hPieces hReplace
  | deletedBranch grandchild checksum =>
    simp only [absorb, bind_eq_ok, unwrap_eq_ok] at hAbsorb
    rcases hAbsorb with ⟨sibling, hSibling, separator,
      hSeparator, ⟨pieces, mem1⟩, hPieces, hReplace⟩
    exact .mergedChild branch i grandchild checksum sibling
      separator pieces mem mem1 mem' result hSibling
      hSeparator hPieces hReplace
  | partialBranch partialChild checksum =>
    simp only [absorb, bind_eq_ok, unwrap_eq_ok] at hAbsorb
    rcases hAbsorb with ⟨sibling, hSibling, separator,
      hSeparator, ⟨pieces, mem1⟩, hPieces, hReplace⟩
    exact .mergedBranch branch i partialChild checksum sibling
      separator pieces mem mem1 mem' result hSibling
      hSeparator hPieces hReplace

theorem deleteHelper_ok {result : DeletionResult P K V (n + 1)} {found : Option V}
    (hDelete : env.deleteHelper modifyUncommitted (n + 1) branch checksum
        key mem = .ok (result, found, mem')) :
    ∃ child left mem1, branch.children[branch.childForKey key]? = some child ∧
      env.deleteHelper modifyUncommitted n child.1 child.2 key mem = .ok (left, found, mem1) ∧
      ((found = none ∧ mem' = mem1 ∧ result = .subtree branch checksum) ∨
        (found.isSome = true ∧ env.Absorption modifyUncommitted branch
            (branch.childForKey key) left mem1 result mem')) := by
  simp only [deleteHelper, bind_eq_ok, unwrap_eq_ok] at hDelete
  rcases hDelete with ⟨child, hChild, ⟨left, found1, mem1⟩, hSub, hRest⟩
  cases found1 with
  | none =>
    simp only [Option.isNone_none, if_true] at hRest
    cases hRest
    exact ⟨child, left, mem', hChild, hSub, Or.inl ⟨rfl, rfl, rfl⟩⟩
  | some v =>
    simp only [Option.isNone_some, Bool.false_eq_true, if_false, bind_eq_ok] at hRest
    rcases hRest with ⟨⟨_, _⟩, hAbsorb, hEq⟩
    cases hEq
    exact ⟨child, left, mem1, hChild, hSub, Or.inr ⟨rfl, env.absorb_ok modifyUncommitted hAbsorb⟩⟩

end BtreeEnv

end Redbx
