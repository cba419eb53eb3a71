import Redbx.Btree.Renaming

/-
  Every operation of a tree commutes with a renaming that respects the environments: on renamed data
  it takes the same branches, uses the same pages and leaves the renamed result.

  Key theorems include:
    * `call_rename`, `tableCall_rename`
-/

namespace Redbx

open Redbx.Tree List Option

variable {P K V K' V' : Type}

-- Builders

section Operations

variable [DecidableEq P] [Ord K] [Ord K'] {r : Renaming K V K' V'} {env : BtreeEnv P K V}
    {env' : BtreeEnv P K' V'}

variable (hr : r.Respects env env')
include hr

theorem buildLeaf_rename (pairs : List (K × V)) (m : Mem P K V) :
    env'.buildLeaf (pairs.map r.pair) (r.mem m) = (env.buildLeaf pairs m).map
        (Prod.map r.leaf r.mem) := by
  unfold BtreeEnv.buildLeaf
  rw [hr.leafEncodable, hr.leafBytes, hr.alloc]
  apply require_rename
  have hAllocate := allocate_rename r m env.alloc
      (requiredOrder (env.fmt.leafBytes pairs)) (.leaf pairs)
  simp only [Renaming.node] at hAllocate
  simp only [hAllocate]
  rfl

variable {n : Nat}

theorem buildBranch_rename (children : Children P K V n) (keys : List K)
    (m : Mem P K V) :
    env'.buildBranch (children.map (r.child (r.tree n))) (keys.map r.key) (r.mem m) =
      (env.buildBranch children keys m).map (Prod.map (r.branch (r.tree n)) r.mem) := by
  unfold BtreeEnv.buildBranch
  rw [length_map, length_map, hr.branchEncodable, hr.branchBytes, hr.alloc, branchImage_rename]
  apply require_rename
  apply require_rename
  simp only [allocate_rename]
  rfl

theorem leafPieces_rename (pairs : List (K × V)) (m : Mem P K V) :
    env'.leafPieces (pairs.map r.pair) (r.mem m) = (env.leafPieces pairs m).map
        (Prod.map (r.pieces r.leaf) r.mem) := by
  unfold BtreeEnv.leafPieces
  rw [hr.shouldSplitLeaf, hr.division]
  split
  · simp only [← map_take, ← map_drop, buildLeaf_rename hr]
    apply bind_rename
    rintro ⟨_, _⟩
    simp only [Prod.map_apply, buildLeaf_rename hr]
    apply bind_rename
    rintro ⟨_, _⟩
    simp only [Prod.map_apply, getElem?_map, unwrap_map]
    apply bind_rename
    intro splitPair
    simp only [pure_map, Prod.map_apply,
      Renaming.pieces, Renaming.child, Renaming.pair, map_some, hr.deferred]
  · rw [buildLeaf_rename hr]
    apply bind_rename
    rintro ⟨_, _⟩
    simp only [pure_map, Prod.map_apply,
      Renaming.pieces, Renaming.child, map_none, hr.deferred]

theorem branchPieces_rename (children : Children P K V n) (keys : List K)
    (m : Mem P K V) :
    env'.branchPieces (children.map (r.child (r.tree n))) (keys.map r.key) (r.mem m) =
      (env.branchPieces children keys m).map (Prod.map (r.pieces (r.branch (r.tree n))) r.mem) := by
  unfold BtreeEnv.branchPieces
  rw [hr.shouldSplitBranch]
  split
  · simp only [length_map, ← map_take, ← map_drop, buildBranch_rename hr, getElem?_map, unwrap_map]
    apply require_rename
    apply bind_rename
    intro divisionKey
    apply bind_rename
    rintro ⟨_, _⟩
    simp only [Prod.map_apply, buildBranch_rename hr]
    apply bind_rename
    rintro ⟨_, _⟩
    simp only [pure_map, Prod.map_apply,
      Renaming.pieces, Renaming.child, map_some, hr.deferred]
  · rw [buildBranch_rename hr]
    apply bind_rename
    rintro ⟨_, _⟩
    simp only [pure_map, Prod.map_apply,
      Renaming.pieces, Renaming.child, map_none, hr.deferred]

-- Insertion

theorem insertLeaf_rename (modify : Bool) (l : Leaf P K V) (checksum : Checksum)
    (key : K) (value : V) (m : Mem P K V) :
    env'.insertLeaf modify (r.leaf l) (r.checksum checksum) (r.key key) (r.value value) (r.mem m) =
      (env.insertLeaf modify l checksum key value m).map (Prod.map (r.insertion r.leaf) r.mem) := by
  have hPairs : (r.leaf l).pairs = l.pairs.map r.pair := rfl
  have hPage : (r.leaf l).page = l.page := rfl
  have hMark : ∀ p, (r.mem m).isUncommitted p = m.isUncommitted p := fun _ => rfl
  have hOld : ∀ (position : Nat) (found : Bool), (if found then
        ((l.pairs.map r.pair)[position]?).map Prod.snd
      else none) = (if found then (l.pairs[position]?).map Prod.snd else none).map r.value := by
    intro position found
    cases found with
    | false => rfl
    | true =>
      rw [getElem?_map]
      cases l.pairs[position]? with
      | none => rfl
      | some p => rfl
  unfold BtreeEnv.insertLeaf
  rw [hr.position]
  cases hPosition : l.position key with
  | mk position found =>
    simp only [hPairs, hPage, hMark, hr.singleLargeValue,
      hr.alloc, hr.sufficientInsertInplaceSpace, hOld]
    split
    · -- the new pair gets a leaf of its own
      have hBuild := buildLeaf_rename hr [(key, value)] m
      rw [map_singleton] at hBuild
      rw [show (r.key key, r.value value) = r.pair (key, value) from rfl, hBuild]
      apply bind_rename
      rintro ⟨_, _⟩
      simp only [Prod.map_apply]
      split
      · simp only [pure_map, Prod.map_apply, Renaming.insertion,
          Renaming.pieces, Renaming.child, map_some, map_none, hr.deferred]
      · rw [getLast?_map, unwrap_map]
        apply bind_rename
        intro lastPair
        simp only [pure_map, Prod.map_apply, Renaming.insertion,
          Renaming.pieces, Renaming.child, Renaming.pair, map_some, map_none, hr.deferred]
    · split
      · rw [insertInplace_rename, hr.insertEncodable]
        apply require_rename
        have hWrite := write_rename r m l.page
            (.leaf (insertInplace l.pairs position found key value))
        simp only [Renaming.node] at hWrite
        simp only [hWrite, pure_map, Prod.map_apply, Renaming.insertion,
          Renaming.pieces, Renaming.child, Renaming.leaf, map_none, hr.deferred]
      · rw [insertRebuilt_rename, leafPieces_rename hr]
        apply bind_rename
        rintro ⟨_, _⟩
        simp only [conditionalFree_rename, pure_map, Prod.map_apply,
          Renaming.insertion]

theorem insertBranch_rename (modify : Bool) (b : Branch P K (Tree P K V n)) (i : Nat)
    (sub : InsertionResult K V (Tree P K V n)) (m : Mem P K V) :
    env'.insertBranch modify (r.branch (r.tree n) b) i (r.insertion (r.tree n) sub) (r.mem m) =
      (env.insertBranch modify b i sub m).map (Prod.map (r.insertion (r.tree (n + 1))) r.mem) := by
  have hNext : (r.insertion (r.tree n) sub).pieces.next.isNone = sub.pieces.next.isNone := by
    simp only [Renaming.insertion, Renaming.pieces, isNone_map]
  have hFirst : (r.insertion (r.tree n) sub).pieces.first =
        r.child (r.tree n) sub.pieces.first := rfl
  have hMark : (r.mem m).isUncommitted (r.branch (r.tree n) b).page = m.isUncommitted b.page := rfl
  unfold BtreeEnv.insertBranch
  rw [hNext, hMark]
  split
  · simp only [hFirst, branch_children_rename,
      branch_keys_rename, ← map_set, branchImage_rename, branch_page_rename, write_rename]
    simp only [pure_map, Prod.map_apply, Renaming.insertion, Renaming.pieces,
      Renaming.child, Renaming.tree, Renaming.branch, map_none, hr.deferred]
  · simp only [branch_children_rename, branch_keys_rename, branch_page_rename, Renaming.insertion,
      pieces_children_rename, pieces_keys_rename, ← map_splice, branchPieces_rename hr]
    apply bind_rename
    rintro ⟨_, _⟩
    simp only [conditionalFree_rename, pure, Except.pure,
      Except.map, Prod.map_apply, Renaming.insertion]
    rfl

theorem insertHelper_rename (modify : Bool) (n : Nat) (t : Tree P K V n)
    (checksum : Checksum) (key : K) (value : V) (m : Mem P K V) :
    env'.insertHelper modify n (r.tree n t) (r.checksum checksum) (r.key key) (r.value value)
        (r.mem m) =
      (env.insertHelper modify n t checksum key value m).map
        (Prod.map (r.insertion (r.tree n)) r.mem) := by
  induction n generalizing checksum m with
  | zero => exact insertLeaf_rename hr modify t checksum key value m
  | succ n ih =>
    unfold BtreeEnv.insertHelper
    have hChild := hr.childForKey (r.tree n) t key
    have hChildren : Branch.children (r.tree (n + 1) t) = (Branch.children t).map
            (r.child (r.tree n)) := rfl
    simp only [Renaming.tree] at hChildren ⊢
    simp only [hChild, hChildren, getElem?_map, unwrap_map]
    apply bind_rename
    rintro ⟨child, _⟩
    simp only [Renaming.child, ih]
    apply bind_rename
    rintro ⟨sub, m1⟩
    exact insertBranch_rename hr modify t _ sub m1

-- Deletion

theorem deleteLeaf_rename (modify : Bool) (l : Leaf P K V) (checksum : Checksum)
    (key : K) (m : Mem P K V) :
    env'.deleteLeaf modify (r.leaf l) (r.checksum checksum) (r.key key) (r.mem m) =
      (env.deleteLeaf modify l checksum key m).map (Prod.map r.deletion
          (Prod.map (Option.map r.value) r.mem)) := by
  have hPairs : (r.leaf l).pairs = l.pairs.map r.pair := rfl
  have hPage : (r.leaf l).page = l.page := rfl
  have hMark : (r.mem m).isUncommitted l.page = m.isUncommitted l.page := rfl
  unfold BtreeEnv.deleteLeaf
  rw [hr.position]
  cases hPosition : l.position key with
  | mk position =>
    simp only [hPairs, hPage, hMark, length_map,
      getElem?_map, unwrap_map, eraseIdx_map, hr.leafBytes]
    split
    · rfl
    · apply bind_rename
      intro p
      split
      · have hWrite := write_rename r m l.page (.leaf (l.pairs.eraseIdx position))
        simp only [Renaming.node] at hWrite
        simp only [hWrite, pure_map, Prod.map_apply, Renaming.deletion,
          Renaming.tree, Renaming.leaf, Renaming.pair, map_some, hr.deferred]
      · split
        · simp only [conditionalFree_rename, pure_map, Prod.map_apply,
            Renaming.deletion, Renaming.pair, map_some]
        · split
          · simp only [conditionalFree_rename, pure_map, Prod.map_apply,
              Renaming.deletion, Renaming.pair, map_some]
          · rw [buildLeaf_rename hr]
            apply bind_rename
            rintro ⟨_, _⟩
            simp only [conditionalFree_rename, pure_map, Prod.map_apply,
              Renaming.deletion, Renaming.pair, Renaming.tree, map_some, hr.deferred]

theorem finalizeBranchBuilder_rename (children : Children P K V n) (keys : List K)
    (m : Mem P K V) :
    env'.finalizeBranchBuilder (children.map (r.child (r.tree n))) (keys.map r.key) (r.mem m) =
      (env.finalizeBranchBuilder children keys m).map (Prod.map r.deletion r.mem) := by
  rcases children with _ | ⟨c, _ | ⟨d, rest⟩⟩
  · rfl
  · rfl
  · simp only [map_cons, BtreeEnv.finalizeBranchBuilder]
    have hBuild := buildBranch_rename hr (c :: d :: rest) keys m
    simp only [map_cons] at hBuild
    rw [hBuild, hr.branchBytes]
    apply bind_rename
    rintro ⟨b, m1⟩
    simp only [Prod.map_apply]
    split
    · simp only [pure_map, Prod.map_apply, Renaming.deletion, hr.deferred]
    · simp only [pure_map, Prod.map_apply, Renaming.deletion, Renaming.tree,
        hr.deferred]

theorem replacePair_rename (modify : Bool) (b : Branch P K (Tree P K V n)) (lo : Nat)
    (pieces : Pieces K (Tree P K V n)) (dropped : List P) (m : Mem P K V) :
    env'.replacePair modify (r.branch (r.tree n) b) lo (r.pieces (r.tree n) pieces)
        dropped (r.mem m) =
      (env.replacePair modify b lo pieces dropped m).map (Prod.map r.deletion r.mem) := by
  unfold BtreeEnv.replacePair
  simp only [branch_children_rename, branch_keys_rename, branch_page_rename, pieces_children_rename,
    pieces_keys_rename, ← map_splice, finalizeBranchBuilder_rename hr]
  apply bind_rename
  rintro ⟨_, _⟩
  simp only [foldl_conditionalFree_rename, pure_map, Prod.map_apply]

theorem absorb_subtree_rename (modify : Bool) (b : Branch P K (Tree P K V n)) (i : Nat)
    (t : Tree P K V n) (checksum : Checksum) (m : Mem P K V) :
    env'.absorb modify (r.branch (r.tree n) b) i (.subtree (r.tree n t) (r.checksum checksum))
        (r.mem m) =
      (env.absorb modify b i (.subtree t checksum) m).map (Prod.map r.deletion r.mem) := by
  have hMark : (r.mem m).isUncommitted b.page = m.isUncommitted b.page := rfl
  have hChild : (r.tree n t, r.checksum checksum) = r.child (r.tree n) (t, checksum) := rfl
  unfold BtreeEnv.absorb
  simp only [branch_children_rename, branch_keys_rename,
    branch_page_rename, hMark, hChild, ← map_set]
  split
  · simp only [branchImage_rename, write_rename]
    simp only [pure_map, Prod.map_apply,
      Renaming.deletion, Renaming.tree, Renaming.branch, hr.deferred]
  · rw [buildBranch_rename hr]
    apply bind_rename
    rintro ⟨_, _⟩
    simp only [conditionalFree_rename, pure, Except.pure,
      Except.map, Prod.map_apply, Renaming.deletion, Renaming.tree, hr.deferred]

/- An underfull leaf merged with its neighbour. -/
theorem absorb_partialLeaf_rename (modify : Bool) (b : Branch P K (Tree P K V 0)) (i : Nat)
    (pairs : List (K × V)) (deletedPair : Nat) (m : Mem P K V) :
    env'.absorb modify (r.branch (r.tree 0) b) i (.partialLeaf (pairs.map r.pair) deletedPair)
        (r.mem m) =
      (env.absorb modify b i (.partialLeaf pairs deletedPair) m).map
        (Prod.map r.deletion r.mem) := by
  have hPairs : ∀ l : Leaf P K V, Leaf.pairs (r.tree 0 l) = l.pairs.map r.pair := fun l => rfl
  have hPage : ∀ l : Leaf P K V, Leaf.page (r.tree 0 l) = l.page := fun l => rfl
  unfold BtreeEnv.absorb
  simp only [branch_children_rename, branch_keys_rename, branch_page_rename, eraseIdx_map,
    getElem?_map, unwrap_map]
  apply bind_rename
  rintro ⟨sibling, _⟩
  simp only [Renaming.child, hPairs, hPage, hr.singleLargeValue]
  split
  · rw [buildLeaf_rename hr]
    apply bind_rename
    rintro ⟨newLeaf, m1⟩
    have hChild : (r.leaf newLeaf, deferred) = r.child (r.tree 0) (newLeaf, deferred) := by
      rw [Renaming.child, hr.deferred, Renaming.tree]
    have hSet := (map_set (f := r.child (r.tree 0)) (l := b.children) (i := i)
        (a := (newLeaf, deferred))).symm
    have hDone := finalizeBranchBuilder_rename hr (b.children.set i (newLeaf, deferred)) b.keys m1
    simp only [Prod.map_apply]
    rw [hChild]
    erw [hSet, hDone]
    apply bind_rename
    rintro ⟨_, _⟩
    simp only [conditionalFree_rename, pure_map, Prod.map_apply]
  · have hMerged := map_sided r.pair (i < mergeWith i)
        (pairs.eraseIdx deletedPair) (Leaf.pairs sibling)
    rw [← hMerged, leafPieces_rename hr]
    apply bind_rename
    rintro ⟨pieces, m1⟩
    exact replacePair_rename hr modify (n := 0) b
      _ pieces _ m1

/- The only child of a branch given to a neighbour. -/
theorem absorb_deletedBranch_rename (modify : Bool) (b : Branch P K (Tree P K V (n + 1)))
    (i : Nat) (t : Tree P K V n) (checksum : Checksum) (m : Mem P K V) :
    env'.absorb modify (r.branch (r.tree (n + 1)) b) i
        (.deletedBranch (r.tree n t) (r.checksum checksum)) (r.mem m) =
      (env.absorb modify b i (.deletedBranch t checksum) m).map (Prod.map r.deletion r.mem) := by
  unfold BtreeEnv.absorb
  simp only [branch_children_rename, branch_keys_rename, getElem?_map, unwrap_map]
  apply bind_rename
  rintro ⟨sibling, _⟩
  apply bind_rename
  intro separator
  have hChildren := map_sided (r.child (r.tree n)) (i < mergeWith i)
      [(t, checksum)] (Branch.children sibling)
  have hKeys := map_sided r.key (i < mergeWith i) [separator] (Branch.keys sibling)
  have hPieces := branchPieces_rename hr (if i < mergeWith i then
      [(t, checksum)] ++ Branch.children sibling
    else Branch.children sibling ++ [(t, checksum)])
    (if i < mergeWith i then [separator] ++ Branch.keys sibling
    else Branch.keys sibling ++ [separator]) m
  rw [hChildren, hKeys] at hPieces
  refine (congrArg (· >>= _) hPieces).trans ?_
  apply bind_rename
  rintro ⟨pieces, m1⟩
  exact replacePair_rename hr modify (n := n + 1) b _ pieces _ m1

/- An underfull branch merged with its neighbour. -/
theorem absorb_partialBranch_rename (modify : Bool) (b : Branch P K (Tree P K V (n + 1)))
    (i : Nat) (part : Branch P K (Tree P K V n)) (checksum : Checksum) (m : Mem P K V) :
    env'.absorb modify (r.branch (r.tree (n + 1)) b) i
        (.partialBranch (r.branch (r.tree n) part) (r.checksum checksum)) (r.mem m) =
      (env.absorb modify b i (.partialBranch part checksum) m).map (Prod.map r.deletion r.mem) := by
  unfold BtreeEnv.absorb
  simp only [branch_children_rename, branch_keys_rename,
    branch_page_rename, getElem?_map, unwrap_map]
  apply bind_rename
  rintro ⟨sibling, _⟩
  apply bind_rename
  intro separator
  have hChildren := map_sided (r.child (r.tree n)) (i < mergeWith i)
      part.children (Branch.children sibling)
  have hKeys : (if i < mergeWith i then part.keys ++ separator :: Branch.keys sibling else
        Branch.keys sibling ++ separator :: part.keys).map r.key =
        if i < mergeWith i then
          part.keys.map r.key ++ r.key separator :: (Branch.keys sibling).map r.key
        else
          (Branch.keys sibling).map r.key ++ r.key separator :: part.keys.map r.key := by
    split
    · rw [map_append, map_cons]
    · rw [map_append, map_cons]
  have hPieces := branchPieces_rename hr (if i < mergeWith i then
      part.children ++ Branch.children sibling
    else Branch.children sibling ++ part.children)
    (if i < mergeWith i then part.keys ++ separator :: Branch.keys sibling else
      Branch.keys sibling ++ separator :: part.keys) m
  rw [hChildren, hKeys] at hPieces
  refine (congrArg (· >>= _) hPieces).trans ?_
  apply bind_rename
  rintro ⟨pieces, m1⟩
  exact replacePair_rename hr modify (n := n + 1) b _ pieces _ m1

theorem absorb_rename (modify : Bool) (b : Branch P K (Tree P K V n)) (i : Nat)
    (result : DeletionResult P K V n) (m : Mem P K V) :
    env'.absorb modify (r.branch (r.tree n) b) i (r.deletion result) (r.mem m) =
      (env.absorb modify b i result m).map (Prod.map r.deletion r.mem) := by
  cases result with
  | subtree t checksum =>
    have hDeletion : r.deletion (.subtree t checksum) =
          .subtree (r.tree n t) (r.checksum checksum) := by
      unfold Renaming.deletion
      rfl
    rw [hDeletion]
    exact absorb_subtree_rename hr modify b i t checksum m
  | deletedLeaf =>
    change env'.absorb modify _ i .deletedLeaf _ = _
    unfold BtreeEnv.absorb
    simp only [branch_children_rename, branch_keys_rename, branch_page_rename, length_map,
      eraseIdx_map, finalizeBranchBuilder_rename hr]
    apply bind_rename
    rintro ⟨_, _⟩
    simp only [conditionalFree_rename, pure_map, Prod.map_apply]
  | partialLeaf pairs deletedPair =>
    exact absorb_partialLeaf_rename hr modify b i pairs deletedPair m
  | partialBranch part checksum => exact absorb_partialBranch_rename hr modify b i part checksum m
  | deletedBranch t checksum => exact absorb_deletedBranch_rename hr modify b i t checksum m

theorem deleteHelper_rename (modify : Bool) (n : Nat) (t : Tree P K V n)
    (checksum : Checksum) (key : K) (m : Mem P K V) :
    env'.deleteHelper modify n (r.tree n t) (r.checksum checksum) (r.key key) (r.mem m) =
      (env.deleteHelper modify n t checksum key m).map (Prod.map r.deletion
          (Prod.map (Option.map r.value) r.mem)) := by
  induction n generalizing checksum m with
  | zero => exact deleteLeaf_rename hr modify t checksum key m
  | succ n ih =>
    have hChild := hr.childForKey (r.tree n) t key
    unfold BtreeEnv.deleteHelper
    simp only [Renaming.tree] at hChild ⊢
    simp only [hChild, branch_children_rename, getElem?_map, unwrap_map]
    apply bind_rename
    rintro ⟨_, _⟩
    simp only [Renaming.child, ih]
    apply bind_rename
    rintro ⟨_, _, _⟩
    simp only [Prod.map_apply, isNone_map]
    split
    · simp only [pure_map, Prod.map_apply, Renaming.deletion, Renaming.tree,
        map_none]
    · rw [absorb_rename hr]
      apply bind_rename
      rintro ⟨_, _⟩
      simp only [pure_map, Prod.map_apply]

-- Roots

theorem insert_rename (modify : Bool) (root : TreeRoot P K V)
    (key : K) (value : V) (m : Mem P K V) :
    env'.insert modify (root.map r.root) (r.key key) (r.value value) (r.mem m) =
      (env.insert modify root key value m).map (Prod.map (Option.map r.value)
          (Prod.map (Option.map r.root) r.mem)) := by
  cases root with
  | none =>
    have hBuild := buildLeaf_rename hr [(key, value)] m
    simp only [map_cons, map_nil, Renaming.pair] at hBuild
    simp only [BtreeEnv.insert, map_none, hBuild]
    apply bind_rename
    rintro ⟨l, m1⟩
    simp only [pure_map, Prod.map_apply, map_none, map_some,
      Renaming.root, Renaming.tree, hr.deferred]
  | some t =>
    simp only [BtreeEnv.insert, map_some, Renaming.root, insertHelper_rename hr]
    apply bind_rename
    rintro ⟨⟨⟨first, next⟩, old⟩, m1⟩
    simp only [Prod.map_apply, Renaming.insertion, Renaming.pieces, isSome_map]
    cases next with
    | none =>
      simp only [map_none, pure_map, Prod.map_apply, map_some,
        Renaming.root, Renaming.child]
    | some n =>
      rcases n with ⟨separator, sibling⟩
      have hBuild := buildBranch_rename hr [first, sibling] [separator] m1
      simp only [map_cons, map_nil] at hBuild
      simp only [map_some, hBuild]
      apply bind_rename
      rintro ⟨b, m2⟩
      simp only [pure_map, Prod.map_apply, map_some, Renaming.root,
        Renaming.tree, hr.deferred]

theorem rootAfterDelete_rename (length : Nat) (result : DeletionResult P K V n) (m : Mem P K V) :
    env'.rootAfterDelete length (r.deletion result) (r.mem m) =
      (env.rootAfterDelete length result m).map (Prod.map (Option.map r.root) r.mem) := by
  cases result with
  | subtree =>
    simp only [Renaming.deletion, BtreeEnv.rootAfterDelete, pure, Except.pure,
      Except.map, Prod.map_apply, map_some, Renaming.root]
  | deletedLeaf => rfl
  | partialLeaf =>
    simp only [Renaming.deletion, BtreeEnv.rootAfterDelete, eraseIdx_map,
      length_map, buildLeaf_rename hr]
    apply bind_rename
    rintro ⟨l, m1⟩
    apply require_rename
    simp only [pure_map, Prod.map_apply, map_some, Renaming.root,
      Renaming.tree, hr.deferred]
  | partialBranch => rfl
  | deletedBranch => rfl

theorem remove_rename (modify : Bool) (root : TreeRoot P K V) (key : K) (m : Mem P K V) :
    env'.remove modify (root.map r.root) (r.key key) (r.mem m) =
      (env.remove modify root key m).map (Prod.map (Option.map r.value)
          (Prod.map (Option.map r.root) r.mem)) := by
  cases root with
  | none => rfl
  | some t =>
    simp only [BtreeEnv.remove, map_some, Renaming.root, deleteHelper_rename hr]
    apply bind_rename
    rintro ⟨_, _, _⟩
    simp only [Prod.map_apply, isSome_map, rootAfterDelete_rename hr]
    apply bind_rename
    rintro ⟨root, m2⟩
    simp only [pure_map, Prod.map_apply]

-- Lookups

theorem getHelper_rename (n : Nat) (t : Tree P K V n) (key : K) :
    BtreeEnv.getHelper n (r.tree n t) (r.key key) = (BtreeEnv.getHelper n t key).map
        (Option.map r.value) := by
  induction n with
  | zero =>
    have hPosition := hr.position t key
    unfold BtreeEnv.getHelper
    simp only [Renaming.tree, hPosition]
    cases hSearch : Leaf.position t key with
    | mk _ found =>
      cases found with
      | false => rfl
      | true =>
        simp only [Renaming.leaf, getElem?_map, unwrap_map]
        apply bind_rename
        intro p
        rfl
  | succ n ih =>
    have hChild := hr.childForKey (r.tree n) t key
    unfold BtreeEnv.getHelper
    simp only [Renaming.tree] at hChild ⊢
    simp only [hChild, branch_children_rename, getElem?_map, unwrap_map]
    apply bind_rename
    rintro ⟨c, _⟩
    exact ih c

theorem get_rename (root : TreeRoot P K V) (key : K) :
    BtreeEnv.get (root.map r.root) (r.key key) =
      (BtreeEnv.get root key).map (Option.map r.value) := by
  cases root with
  | none => rfl
  | some t => exact getHelper_rename hr t.height t.tree key

-- Mutable Guards

theorem ownPage_rename (n : Nat) (t : Tree P K V n) (checksum : Checksum) (m : Mem P K V) :
    env'.ownPage n (r.tree n t) (r.checksum checksum) (r.mem m) =
      Prod.map (r.child (r.tree n)) r.mem (env.ownPage n t checksum m) := by
  have hMark : (r.mem m).isUncommitted (page n t) = m.isUncommitted (page n t) := rfl
  unfold BtreeEnv.ownPage
  simp only [page_rename, hMark, hr.alloc, image_rename, allocate_rename, withPage_rename]
  split
  · rfl
  · simp only [Prod.map_apply, Renaming.child, hr.deferred]
    rfl

theorem getMutHelper_rename (n : Nat) (t : Tree P K V n) (key : K) (m : Mem P K V) :
    env'.getMutHelper n (r.tree n t) (r.key key) (r.mem m) =
      (env.getMutHelper n t key m).map (Prod.map (r.tree n) (Prod.map id r.mem)) := by
  induction n generalizing m with
  | zero =>
    have hPosition := hr.position t key
    unfold BtreeEnv.getMutHelper
    simp only [Renaming.tree, hPosition]
    apply require_rename
    rfl
  | succ n ih =>
    have hChild := hr.childForKey (r.tree n) t key
    unfold BtreeEnv.getMutHelper
    simp only [Renaming.tree] at hChild ⊢
    simp only [hChild, branch_children_rename, getElem?_map, unwrap_map]
    apply bind_rename
    rintro ⟨c, checksum⟩
    have hMark : (r.mem m).isUncommitted (page n (r.tree n c)) = m.isUncommitted (page n c) := by
      rw [page_rename]
      rfl
    simp only [Renaming.child, hMark, ownPage_rename hr]
    rcases hOwned : env.ownPage n c checksum m with ⟨⟨owned, ownedChecksum⟩, m1⟩
    have hWrite : (if !m.isUncommitted (page n c) then
          (r.mem m1).write (Branch.page (r.branch (r.tree n) t)) (branchImage n
              (((Branch.children t).map (r.child (r.tree n))).set (Branch.childForKey t key)
                  (r.child (r.tree n) (owned, ownedChecksum)))
              (Branch.keys (r.branch (r.tree n) t)))
        else r.mem m1) = r.mem (if !m.isUncommitted (page n c) then
            m1.write (Branch.page t) (branchImage n ((Branch.children t).set
                  (Branch.childForKey t key) (owned, ownedChecksum))
                (Branch.keys t))
          else m1) := by
      split
      · rw [← map_set, branch_keys_rename, branchImage_rename, write_rename, branch_page_rename]
      · rfl
    simp only [Prod.map_apply] at hWrite ⊢
    rw [hWrite]
    simp only [Renaming.child, ih]
    apply bind_rename
    rintro ⟨_, _, _⟩
    apply require_rename
    simp only [pure_map, Prod.map_apply, Renaming.branch, map_set,
      Renaming.child, id]

theorem getMut_rename (t : BtreeRoot P K V) (key : K) (m : Mem P K V) :
    env'.getMut (r.root t) (r.key key) (r.mem m) = (env.getMut t key m).map
        (Prod.map r.root (Prod.map id r.mem)) := by
  simp only [BtreeEnv.getMut, Renaming.root, ownPage_rename hr, Prod.map_fst, Prod.map_snd,
    Renaming.child, getMutHelper_rename hr]
  apply bind_rename
  rintro ⟨_, _, _⟩
  rfl

theorem guardHelper_rename (n : Nat) (t : Tree P K V n) (key : K) (value : V) (m : Mem P K V) :
    env'.guardHelper n (r.tree n t) (r.key key) (r.value value) (r.mem m) =
      (env.guardHelper n t key value m).map (Prod.map (r.tree n) (Prod.map id r.mem)) := by
  induction n generalizing m with
  | zero =>
    have hPosition := hr.position t key
    unfold BtreeEnv.guardHelper
    simp only [Renaming.tree] at hPosition ⊢
    simp only [hPosition, leaf_page_rename, leaf_pairs_rename, hr.alloc, insertInplace_rename,
      hr.sufficientInsertInplaceSpace, hr.insertEncodable]
    split
    · apply require_rename
      have hWrite := write_rename r m (Leaf.page t) (.leaf (insertInplace (Leaf.pairs t)
            (Leaf.position t key).1 true key value))
      simp only [Renaming.node] at hWrite
      simp only [hWrite, pure_map, Prod.map_apply, Renaming.leaf, id]
    · rw [buildLeaf_rename hr]
      apply bind_rename
      rintro ⟨_, _⟩
      apply require_rename
      rfl
  | succ n ih =>
    have hChild := hr.childForKey (r.tree n) t key
    unfold BtreeEnv.guardHelper
    simp only [Renaming.tree] at hChild ⊢
    simp only [hChild, branch_children_rename, getElem?_map, unwrap_map]
    apply bind_rename
    rintro ⟨_, _⟩
    simp only [Renaming.child, ih]
    apply bind_rename
    rintro ⟨d, _, _⟩
    simp only [Prod.map_apply, id]
    split
    · have hSet : ((Branch.children t).map (r.child (r.tree n))).set (Branch.childForKey t key)
              (r.tree n d, deferred) =
            ((Branch.children t).set (Branch.childForKey t key)
              (d, deferred)).map (r.child (r.tree n)) := by
        rw [map_set, Renaming.child, hr.deferred]
      simp only [hSet, branch_keys_rename, branchImage_rename, branch_page_rename, write_rename]
      rfl
    · simp only [pure_map, Prod.map_apply, Renaming.branch, map_set,
        Renaming.child, id]

theorem guardInsert_rename (t : BtreeRoot P K V) (key : K) (value : V) (m : Mem P K V) :
    env'.guardInsert (r.root t) (r.key key) (r.value value) (r.mem m) =
      (env.guardInsert t key value m).map (Prod.map r.root r.mem) := by
  simp only [BtreeEnv.guardInsert, Renaming.root, guardHelper_rename hr]
  apply bind_rename
  rintro ⟨d, moved, m1⟩
  cases moved with
  | false => rfl
  | true =>
    simp only [Prod.map_apply, id, if_true, pure,
      Except.pure, Except.map, Renaming.root, hr.deferred]

theorem guardInserts_rename (key : K) (values : List V) (t : BtreeRoot P K V) (m : Mem P K V) :
    env'.guardInserts (r.key key) (values.map r.value) (r.root t) (r.mem m) =
      (env.guardInserts key values t m).map (Prod.map r.root r.mem) := by
  induction values generalizing t m with
  | nil => rfl
  | cons _ _ ih =>
    simp only [map_cons, BtreeEnv.guardInserts, guardInsert_rename hr]
    apply bind_rename
    rintro ⟨t1, m1⟩
    exact ih t1 m1

-- Removing While Iterating

theorem removeEach_rename (keys : List K) (root : TreeRoot P K V) (m : Mem P K V) :
    env'.removeEach (keys.map r.key) (root.map r.root) (r.mem m) =
      (env.removeEach keys root m).map (Prod.map (Option.map r.root) r.mem) := by
  induction keys generalizing root m with
  | nil => rfl
  | cons _ _ ih =>
    simp only [map_cons, BtreeEnv.removeEach, remove_rename hr]
    apply bind_rename
    rintro ⟨old, root1, m1⟩
    simp only [Prod.map_apply, isSome_map]
    apply require_rename
    exact ih root1 m1

theorem removeIterating_rename (keys : List K) (root : TreeRoot P K V) (m : Mem P K V) :
    env'.removeIterating (keys.map r.key) (root.map r.root) (r.mem m) =
      (env.removeIterating keys root m).map (Prod.map (Option.map r.root) r.mem) := by
  unfold BtreeEnv.removeIterating
  rw [removeEach_rename hr]
  apply bind_rename
  rintro ⟨root1, m1⟩
  have hReleased := foldl_conditionalFree_rename r true (m1.freed.drop m.freed.length)
      { m1 with freed := m1.freed.take m.freed.length }
  simp only [pure_map, Prod.map_apply]
  exact congrArg (fun m2 => Except.ok (_, m2)) hReleased

-- Calls

end Operations

namespace Renaming

variable (r : Renaming K V K' V')

def call : Call K V → Call K' V'
  | .insert key value => .insert (r.key key) (r.value value)
  | .insertReserve key value =>
    .insertReserve (r.key key) (r.value value)
  | .remove key => .remove (r.key key)
  | .get key => .get (r.key key)
  | .getMut key values =>
    .getMut (r.key key) (values.map r.value)
  | .first => .first
  | .last => .last

def reply : Reply K V → Reply K' V'
  | .done => .done
  | .value v => .value (v.map r.value)
  | .entry e => .entry (e.map r.pair)

/- The same call on renamed data: a predicate decides alike on an entry and on the renamed entry. -/
inductive SameCall : TableCall K V → TableCall K' V' → Prop where
  | call (c : Call K V) : SameCall (.call c) (.call (r.call c))
  | retain {inRange : K → Bool} {inRange' : K' → Bool} {predicate : K → V → Bool}
      {predicate' : K' → V' → Bool} (hRange : ∀ k, inRange' (r.key k) = inRange k)
      (hPredicate : ∀ k v, predicate' (r.key k) (r.value v) = predicate k v) :
      SameCall (.retain inRange predicate) (.retain inRange' predicate')
  | extractIf {inRange : K → Bool} {inRange' : K' → Bool} {predicate : K → V → Bool}
      {predicate' : K' → V' → Bool} (sides : List Side)
      (hRange : ∀ k, inRange' (r.key k) = inRange k)
      (hPredicate : ∀ k v, predicate' (r.key k) (r.value v) = predicate k v) :
      SameCall (.extractIf inRange predicate sides) (.extractIf inRange' predicate' sides)

end Renaming

section Calls

variable [DecidableEq P] [Ord K] [Ord K'] {r : Renaming K V K' V'} {env : BtreeEnv P K V}
    {env' : BtreeEnv P K' V'}

theorem call_rename (hr : r.Respects env env') (s : BtreeState P K V) (c : Call K V) :
    env'.call (r.state s) (r.call c) = (env.call s c).map (Prod.map r.reply r.state) := by
  cases c with
  | insert | insertReserve =>
    simp only [BtreeEnv.call, Renaming.call, Renaming.state, insert_rename hr]
    apply bind_rename
    rintro ⟨_, _, _⟩
    rfl
  | remove key =>
    simp only [BtreeEnv.call, Renaming.call, Renaming.state, remove_rename hr]
    apply bind_rename
    rintro ⟨_, _, _⟩
    rfl
  | get key =>
    simp only [BtreeEnv.call, Renaming.call, Renaming.state, get_rename hr]
    apply bind_rename
    intro value
    rfl
  | getMut key =>
    rcases s with ⟨root, m⟩
    cases root with
    | none => rfl
    | some t =>
      simp only [BtreeEnv.call, Renaming.call, Renaming.state, map_some, getMut_rename hr]
      apply bind_rename
      rintro ⟨t1, _, _⟩
      have hGet := get_rename hr (some t1) key
      simp only [map_some] at hGet
      simp only [Prod.map_apply, id]
      split
      · rw [hGet]
        apply bind_rename
        intro value
        rw [guardInserts_rename hr]
        apply bind_rename
        rintro ⟨t2, m2⟩
        rfl
      · rfl
  | first =>
    simp only [BtreeEnv.call, Renaming.call, Renaming.state, first_rename]
    apply bind_rename
    intro entry
    rfl
  | last =>
    simp only [BtreeEnv.call, Renaming.call, Renaming.state, last_rename]
    apply bind_rename
    intro entry
    rfl

theorem tableCall_rename
    (hr : r.Respects env env') (s : BtreeState P K V) {c : TableCall K V} {c' : TableCall K' V'}
    (hSame : r.SameCall c c') :
    env'.tableCall (r.state s) c' = (env.tableCall s c).map r.state := by
  cases hSame with
  | call c =>
    simp only [BtreeEnv.tableCall, call_rename hr]
    apply bind_rename
    rintro ⟨_, _⟩
    rfl
  | @retain inRange inRange' predicate predicate' hRange hPredicate =>
    simp only [BtreeEnv.tableCall, BtreeEnv.retainIn, Renaming.state]
    rw [selected_rename (r := r) (p := fun e => inRange e.1 && !predicate e.1 e.2) (fun e => by
        simp only [Renaming.pair, hRange, hPredicate]),
      removeIterating_rename hr]
    apply bind_rename
    rintro ⟨root, m⟩
    rfl
  | @extractIf inRange inRange' predicate predicate' sides hRange hPredicate =>
    simp only [BtreeEnv.tableCall, BtreeEnv.extractFromIf, Renaming.state]
    rw [selected_rename (r := r) (p := fun e => inRange e.1 && predicate e.1 e.2) (fun e => by
        simp only [Renaming.pair, hRange, hPredicate]),
      takeSides_map, removeIterating_rename hr]
    apply bind_rename
    rintro ⟨root, m⟩
    rfl

end Calls

end Redbx
