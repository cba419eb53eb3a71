import Redbx.Btree.CopyOnWrite

/-
  What an operation does to the pages, change by change.

  Every operation on a tree is a sequence of a few kinds of changes: a page is built, let go of, or
  written in place. A property of the memory that every such change keeps is kept by the operations.
  While an iterator reads the old tree nothing is written in place, so all its pages stay.

  Key theorems include:
    * `Changes.grows`, `RootHolds.grows`
-/

namespace Redbx

open Redbx.Tree

variable {P K V : Type} [DecidableEq P] {env : BtreeEnv P K V} {modify : Bool}

-- Changes

/- One change of the pages. -/
inductive Change (env : BtreeEnv P K V) (modifyUncommitted : Bool) :
    Mem P K V → Mem P K V → Prop where
  | leafBuilt (pairs : List (K × V)) (leaf : Leaf P K V) (mem mem' : Mem P K V)
      (hBuild : env.buildLeaf pairs mem = .ok (leaf, mem')) :
      Change env modifyUncommitted mem mem'
  | branchBuilt {n : Nat} (children : Children P K V n)
      (keys : List K) (branch : Branch P K (Tree P K V n))
      (mem mem' : Mem P K V) (hBuild : env.buildBranch children keys mem = .ok (branch, mem')) :
      Change env modifyUncommitted mem mem'
  | letGo (p : P) (mem : Mem P K V) : Change env modifyUncommitted mem
        (mem.conditionalFree modifyUncommitted p)
  -- entries are removed from a leaf in place
  | leafCut (p : P) (old pairs : List (K × V)) (mem : Mem P K V)
      (hModify : modifyUncommitted = true) (hPage : mem.pages p = some (.leaf old))
      (hPairs : pairs.Sublist old) :
      Change env modifyUncommitted mem (mem.write p (.leaf pairs))
  | leafWritten (p : P) (pairs : List (K × V)) (mem : Mem P K V)
      (hModify : modifyUncommitted = true) (hFits : env.fmt.offsetsFit pairs = true) :
      Change env modifyUncommitted mem (mem.write p (.leaf pairs))
  | branchWritten {n : Nat} (p : P) (children : Children P K V n)
      (keys : List K) (mem : Mem P K V) (hModify : modifyUncommitted = true) :
      Change env modifyUncommitted mem (mem.write p (branchImage n children keys))

/- Any number of changes. -/
def Changes (env : BtreeEnv P K V) (modifyUncommitted : Bool) (mem mem' : Mem P K V) : Prop :=
  Relation.ReflTransGen (Change env modifyUncommitted) mem mem'

namespace Changes

theorem refl (mem : Mem P K V) : Changes env modify mem mem := Relation.ReflTransGen.refl

theorem trans {mem mem1 mem2 : Mem P K V} (hFirst : Changes env modify mem mem1)
    (hThen : Changes env modify mem1 mem2) :
    Changes env modify mem mem2 :=
  Relation.ReflTransGen.trans hFirst hThen

variable {mem mem' : Mem P K V}

theorem of_change (hChange : Change env modify mem mem') : Changes env modify mem mem' :=
  Relation.ReflTransGen.single hChange

theorem keeps {Inv : Mem P K V → Prop}
    (hKeeps : ∀ mem mem', Change env modify mem mem' → Inv mem → Inv mem')
    (hChanges : Changes env modify mem mem') (hInv : Inv mem) :
    Inv mem' := by
  induction hChanges with
  | refl => exact hInv
  | tail _ hChange ih => exact hKeeps _ _ hChange ih

theorem letGo (hChanges : Changes env modify mem mem') (p : P) :
    Changes env modify mem (mem'.conditionalFree modify p) :=
  hChanges.trans (of_change (.letGo p mem'))

theorem letGoAll (hChanges : Changes env modify mem mem') (ps : List P) :
    Changes env modify mem (ps.foldl (fun mem p => mem.conditionalFree modify p) mem') := by
  induction ps generalizing mem' with
  | nil => exact hChanges
  | cons p rest ih => exact ih (hChanges.letGo p)

-- Building

theorem buildLeaf {pairs : List (K × V)} {leaf : Leaf P K V}
    (hBuild : env.buildLeaf pairs mem = .ok (leaf, mem')) :
    Changes env modify mem mem' :=
  of_change (.leafBuilt pairs leaf mem mem' hBuild)

variable {n : Nat} {children : Children P K V n} {keys : List K}

theorem buildBranch {branch : Branch P K (Tree P K V n)}
    (hBuild : env.buildBranch children keys mem = .ok (branch, mem')) :
    Changes env modify mem mem' :=
  of_change (.branchBuilt children keys branch mem mem' hBuild)

theorem leafPieces {pairs : List (K × V)} {pieces : Pieces K (Leaf P K V)}
    (hPieces : env.leafPieces pairs mem = .ok (pieces, mem')) :
    Changes env modify mem mem' := by
  rcases env.leafPieces_ok hPieces with ⟨_, _, hBuild, _⟩ | ⟨_, _, _, _, _, hLeft, hRight, _⟩
  · exact buildLeaf hBuild
  · exact (buildLeaf hLeft).trans (buildLeaf hRight)

theorem branchPieces {pieces : Pieces K (Branch P K (Tree P K V n))}
    (hPieces : env.branchPieces children keys mem = .ok (pieces, mem')) :
    Changes env modify mem mem' := by
  rcases env.branchPieces_ok hPieces with ⟨_, _, hBuild, _⟩ |
    ⟨_, _, _, _, _, _, _, hLeft, hRight, _⟩
  · exact buildBranch hBuild
  · exact (buildBranch hLeft).trans (buildBranch hRight)

theorem finalizeBranchBuilder {result : DeletionResult P K V (n + 1)}
    (hFinal : env.finalizeBranchBuilder children keys mem = .ok (result, mem')) :
    Changes env modify mem mem' := by
  match children, hFinal with
  | [(child, checksum)], hFinal =>
    cases hFinal
    exact refl mem
  | c1 :: c2 :: rest, hFinal =>
    simp only [BtreeEnv.finalizeBranchBuilder, bind_eq_ok] at hFinal
    rcases hFinal with ⟨⟨_, mem1⟩, hBuild, hRest⟩
    have hNew : Changes env modify mem mem1 := buildBranch hBuild
    split at hRest <;> cases hRest <;> exact hNew

theorem replacePair
    {branch : Branch P K (Tree P K V n)} {i : Nat} {pieces : Pieces K (Tree P K V n)}
    {dropped : List P} {result : DeletionResult P K V (n + 1)}
    (hReplace : env.replacePair modify branch i pieces dropped mem = .ok (result, mem')) :
    Changes env modify mem mem' := by
  simp only [BtreeEnv.replacePair, bind_eq_ok] at hReplace
  rcases hReplace with ⟨⟨_, _⟩, hFinal, hEq⟩
  cases hEq
  exact (finalizeBranchBuilder hFinal).letGoAll _

end Changes

-- Insertion

section Operations

variable [Ord K]

variable {mem mem' : Mem P K V} {key : K} {checksum : Checksum} {value : V}

theorem insertLeaf_changes {leaf : Leaf P K V} {result : InsertionResult K V (Leaf P K V)}
    (hInsert : env.insertLeaf modify leaf checksum key value mem = .ok (result, mem')) :
    Changes env modify mem mem' := by
  cases env.insertLeaf_ok modify hInsert with
  | before _ _ _ _ hBuild => exact Changes.buildLeaf hBuild
  | after _ _ _ _ _ _ _ hBuild => exact Changes.buildLeaf hBuild
  | inPlace _ _ hSearch hSmall hUncommitted hModify hSpace =>
    refine Changes.of_change (.leafWritten _ _ _ hModify ?_)
    -- the write is only made once its offsets are checked
    simp only [BtreeEnv.insertLeaf, hSearch, hSmall, hModify, hSpace, PageMemory.isUncommitted,
      hUncommitted, decide_true, Bool.and_self, Bool.false_eq_true, if_false, if_true, bind_eq_ok,
      require_eq_ok, Format.insertEncodable, Bool.and_eq_true] at hInsert
    rcases hInsert with ⟨_, hFits, _⟩
    exact hFits.1
  | rebuilt _ _ _ _ _ _ _ hPieces => exact (Changes.leafPieces hPieces).letGo _

variable {n : Nat}

theorem insertHelper_changes {t : Tree P K V n} {result : InsertionResult K V (Tree P K V n)}
    (hInsert : env.insertHelper modify n t checksum key value mem = .ok (result, mem')) :
    Changes env modify mem mem' := by
  induction n generalizing checksum mem' with
  | zero => exact insertLeaf_changes hInsert
  | succ n ih =>
    rcases env.insertHelper_ok modify hInsert with ⟨_, _, _, _, hSub, hBranch⟩
    have hMid := ih hSub
    cases hBranch with
    | inPlace _ hModify => exact hMid.trans (Changes.of_change (.branchWritten _ _ _ _ hModify))
    | rebuilt _ _ hPieces => exact (hMid.trans (Changes.branchPieces hPieces)).letGo _

variable {root root' : TreeRoot P K V}

theorem insert_changes {old : Option V}
    (hRun : env.insert modify root key value mem = .ok (old, root', mem')) :
    Changes env modify mem mem' := by
  cases root with
  | none =>
    simp only [BtreeEnv.insert, bind_eq_ok] at hRun
    rcases hRun with ⟨⟨_, _⟩, hBuild, hEq⟩
    cases hEq
    exact Changes.buildLeaf hBuild
  | some r =>
    simp only [BtreeEnv.insert, bind_eq_ok] at hRun
    rcases hRun with ⟨⟨_, _⟩, hInsert, hRest⟩
    have hMid := insertHelper_changes hInsert
    split at hRest
    · cases hRest
      exact hMid
    · simp only [bind_eq_ok] at hRest
      rcases hRest with ⟨⟨_, _⟩, hBuild, hEq⟩
      cases hEq
      exact hMid.trans (Changes.buildBranch hBuild)

-- Removal

/- Removal from a leaf that is in the memory. -/
theorem deleteLeaf_changes {leaf : Leaf P K V} {result : DeletionResult P K V 0} {found : Option V}
    (hHolds : Holds mem 0 leaf)
    (hDelete : env.LeafDeletion modify leaf checksum key mem result found mem') :
    Changes env modify mem mem' := by
  cases hDelete with
  | missing => exact Changes.refl mem
  | inPlace _ _ _ _ _ hModify =>
    exact Changes.of_change (.leafCut _ leaf.pairs _ _ hModify hHolds (List.eraseIdx_sublist _ _))
  | emptied | underfull => exact (Changes.refl mem).letGo _
  | rebuilt _ _ _ _ _ _ _ _ _ hBuild => exact (Changes.buildLeaf hBuild).letGo _

omit [Ord K] in
theorem absorb_changes
    {branch : Branch P K (Tree P K V n)} {i : Nat} {left : DeletionResult P K V n}
    {result : DeletionResult P K V (n + 1)}
    (hAbsorb : env.Absorption modify branch i left mem result mem') :
    Changes env modify mem mem' := by
  cases hAbsorb with
  | inPlace _ _ _ _ _ _ hModify => exact Changes.of_change (.branchWritten _ _ _ _ hModify)
  | rebuilt _ _ _ _ _ _ _ hBuild => exact (Changes.buildBranch hBuild).letGo _
  | dropped _ _ _ _ _ hFinal => exact (Changes.finalizeBranchBuilder hFinal).letGo _
  | keptAlone _ _ _ _ _ _ _ _ _ _ _ _ hBuild hFinal =>
    exact ((Changes.buildLeaf hBuild).trans (Changes.finalizeBranchBuilder hFinal)).letGo _
  | mergedLeaf _ _ _ _ _ _ _ _ _ _ _ _ hPieces hReplace =>
    exact (Changes.leafPieces hPieces).trans (Changes.replacePair hReplace)
  | mergedChild _ _ _ _ _ _ _ _ _ _ _ _ _ hPieces hReplace =>
    exact (Changes.branchPieces hPieces).trans (Changes.replacePair hReplace)
  | mergedBranch _ _ _ _ _ _ _ _ _ _ _ _ _ hPieces hReplace =>
    exact (Changes.branchPieces hPieces).trans (Changes.replacePair hReplace)

theorem deleteHelper_changes
    {t : Tree P K V n} {result : DeletionResult P K V n} {found : Option V} (hHolds : Holds mem n t)
    (hDelete : env.deleteHelper modify n t checksum key mem = .ok (result, found, mem')) :
    Changes env modify mem mem' := by
  induction n generalizing checksum mem' found with
  | zero => exact deleteLeaf_changes hHolds (env.deleteLeaf_ok modify hDelete)
  | succ n ih =>
    rcases env.deleteHelper_ok modify hDelete with ⟨child, _, _, hChild, hSub, hCase⟩
    have hMid := ih (hHolds.2 child (List.mem_of_getElem? hChild)) hSub
    rcases hCase with ⟨_, rfl, _⟩ | ⟨_, hAbsorb⟩
    · exact hMid
    · exact hMid.trans (absorb_changes hAbsorb)

omit [Ord K] in
theorem rootAfterDelete_changes
    {length n : Nat} {result : DeletionResult P K V n} {root : TreeRoot P K V}
    (hRoot : env.rootAfterDelete length result mem = .ok (root, mem')) :
    Changes env modify mem mem' := by
  cases result with
  | subtree =>
    simp only [BtreeEnv.rootAfterDelete] at hRoot
    cases hRoot
    exact Changes.refl mem
  | deletedLeaf =>
    cases hRoot
    exact Changes.refl mem
  | partialLeaf =>
    simp only [BtreeEnv.rootAfterDelete, bind_eq_ok, require_eq_ok] at hRoot
    rcases hRoot with ⟨⟨_, _⟩, hBuild, _, _, hEq⟩
    cases hEq
    exact Changes.buildLeaf hBuild
  | partialBranch | deletedBranch =>
    cases hRoot
    exact Changes.refl mem

theorem remove_changes {old : Option V} (hHolds : RootHolds mem root)
    (hRun : env.remove modify root key mem = .ok (old, root', mem')) :
    Changes env modify mem mem' := by
  cases root with
  | none =>
    cases hRun
    exact Changes.refl mem
  | some r =>
    simp only [BtreeEnv.remove, bind_eq_ok] at hRun
    rcases hRun with ⟨⟨_, _, _⟩, hDelete, ⟨_, _⟩, hRoot, hEq⟩
    cases hEq
    exact (deleteHelper_changes hHolds hDelete).trans (rootAfterDelete_changes hRoot)

theorem removeEach_changes
    {keys : List K} (hOwns : Owns mem (rootPages root)) (hHolds : RootHolds mem root)
    (hRun : env.removeEach keys root mem = .ok (root', mem')) :
    Changes env false mem mem' := by
  induction keys generalizing root mem with
  | nil =>
    cases hRun
    exact Changes.refl _
  | cons _ _ ih =>
    simp only [BtreeEnv.removeEach, bind_eq_ok, require_eq_ok] at hRun
    rcases hRun with ⟨⟨_, _, _⟩, hRemove, _, _, hRest⟩
    rcases remove_turns env hOwns hHolds hRemove with ⟨hTurns, hMid⟩
    exact (remove_changes hHolds hRemove).trans (ih hTurns.owns hMid hRest)

end Operations

-- Pages That an Iterator Reads

/- Every page in use stays in use, with its contents. -/
def Grows (mem mem' : Mem P K V) : Prop :=
  ∀ p ∈ mem.allocated, p ∈ mem'.allocated ∧ mem'.pages p = mem.pages p

namespace Grows

theorem trans {mem mem1 mem2 : Mem P K V} (hFirst : Grows mem mem1) (hThen : Grows mem1 mem2) :
    Grows mem mem2 := by
  intro p hIn
  rcases hFirst p hIn with ⟨hMid, hPage⟩
  rcases hThen p hMid with ⟨hLast, hSame⟩
  exact ⟨hLast, hSame.trans hPage⟩

theorem allocate
    {alloc : PageAllocator P} {order : Nat} {node : Node P K V} {mem mem' : Mem P K V} {p : P}
    (hAlloc : (p, mem') = mem.allocate alloc order node) :
    Grows mem mem' := by
  have hMem := congrArg Prod.snd hAlloc
  change mem' = _ at hMem
  intro q hIn
  have hNe : q ≠ alloc.pick mem.allocated order :=
    fun hEq => alloc.pick_fresh mem.allocated order (hEq ▸ hIn)
  rw [hMem]
  refine ⟨?_, Function.update_of_ne hNe _ _⟩
  rcases Finset.mem_union.mp hIn with hOld | hOld
  · exact Finset.mem_union_left _ hOld
  · exact Finset.mem_union_right _ (Finset.mem_insert_of_mem hOld)

end Grows

variable {mem mem' : Mem P K V}

/- Without writes in place every page in use stays. -/
theorem Change.grows (hChange : Change env false mem mem') : Grows mem mem' := by
  cases hChange with
  | leafBuilt _ _ _ _ hBuild => exact Grows.allocate (env.buildLeaf_ok hBuild).2.2
  | branchBuilt _ _ _ _ _ hBuild => exact Grows.allocate (env.buildBranch_ok hBuild).2.2.2.2
  | letGo p => exact fun q hIn => ⟨hIn, rfl⟩
  | leafCut _ _ _ _ hModify => cases hModify
  | leafWritten _ _ _ hModify => cases hModify
  | branchWritten _ _ _ _ hModify => cases hModify

theorem Changes.grows (hChanges : Changes env false mem mem') : Grows mem mem' :=
  hChanges.keeps (fun _ _ hChange hGrows => hGrows.trans hChange.grows) fun _ hIn => ⟨hIn, rfl⟩

/- A tree is still there after its memory has grown. -/
theorem RootHolds.grows {root : TreeRoot P K V} (hOwns : Owns mem (rootPages root))
    (hHolds : RootHolds mem root) (hGrows : Grows mem mem') :
    RootHolds mem' root :=
  hHolds.congr fun p hIn => (hGrows p (hOwns.2 p hIn)).2

end Redbx
