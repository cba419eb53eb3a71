import Mathlib.Tactic.Abel
import Redbx.Btree.BtreeMut

/-
  Where the pages of a tree go.

  Every operation turns the pages of the old tree into the pages of the new one: it writes
  uncommitted pages only, and each committed page it no longer needs is queued for freeing once. The
  new tree is found in the memory again.

  Key theorems include:
    * `getMutHelper_turns`, `guardHelper_turns`
-/

namespace Redbx

open Redbx.Tree List Option Function PageMemory

variable {P K V : Type}

-- Pages of Children

@[simp]
theorem childPages_nil {C : Type} (pagesOf : C → Multiset P) : childPages pagesOf [] = 0 := rfl

@[simp]
theorem childPages_cons
    {C : Type} (pagesOf : C → Multiset P) (c : C × Checksum) (children : List (C × Checksum)) :
    childPages pagesOf (c :: children) = pagesOf c.1 + childPages pagesOf children := by
  simp [childPages]

@[simp]
theorem childPages_append {C : Type} (pagesOf : C → Multiset P) (a b : List (C × Checksum)) :
    childPages pagesOf (a ++ b) = childPages pagesOf a + childPages pagesOf b := by
  simp [childPages]

theorem pageSet_branch {n : Nat} (branch : Branch P K (Tree P K V n)) :
    pageSet (n + 1) branch = {branch.page} + childPages (pageSet n) branch.children :=
  rfl

section Memory

variable [DecidableEq P]

/- Every child is found in the memory. -/
def Kept (mem : Mem P K V) (n : Nat) (children : Children P K V n) : Prop :=
  ∀ c ∈ children, Holds mem n c.1

variable {mem : Mem P K V} {n : Nat} {a b : Children P K V n}

theorem Kept.append (hA : Kept mem n a) (hB : Kept mem n b) : Kept mem n (a ++ b) :=
  forall_mem_append.mpr ⟨hA, hB⟩

theorem Kept.singleton {c : Tree P K V n × Checksum} (hC : Holds mem n c.1) : Kept mem n [c] :=
  forall_mem_singleton.mpr hC

variable {mem' : Mem P K V}

theorem Tree.Holds.of_pages {t : Tree P K V n} (hHolds : Holds mem n t)
    (hPages : mem'.pages = mem.pages) :
    Holds mem' n t :=
  hHolds.congr fun p _ => congrFun hPages p

variable {children : Children P K V n}

theorem Kept.of_pages (hKept : Kept mem n children) (hPages : mem'.pages = mem.pages) :
    Kept mem' n children :=
  fun c hc => (hKept c hc).of_pages hPages

variable {S T : Multiset P} {modify : Bool}

theorem Turns.holds {t : Tree P K V n} (hTurns : Turns modify mem S T mem')
    (hOwns : Owns mem (S + pageSet n t)) (hHolds : Holds mem n t) :
    Holds mem' n t :=
  hHolds.congr fun p hp => hTurns.pages_eq (hOwns.2 p (Multiset.mem_add.mpr (Or.inr hp)))
    (hOwns.not_mem hp)

theorem Turns.kept (hTurns : Turns modify mem S T mem')
    (hOwns : Owns mem (S + childPages (pageSet n) children)) (hKept : Kept mem n children) :
    Kept mem' n children := by
  intro c hc
  refine hTurns.holds (hOwns.mono ?_) (hKept c hc)
  exact add_le_add_right (childPages_le hc) S

theorem Turns.kept_sides {R : Multiset P} (hTurns : Turns modify mem S T mem')
    (hOwns : Owns mem (S + (childPages (pageSet n) a + childPages (pageSet n) b + R)))
    (hKeptA : Kept mem n a) (hKeptB : Kept mem n b) :
    Kept mem' n a ∧ Kept mem' n b := by
  refine ⟨hTurns.kept (hOwns.mono (add_le_add_right ?_ S)) hKeptA,
    hTurns.kept (hOwns.mono (add_le_add_right ?_ S)) hKeptB⟩
  · exact le_trans (Multiset.le_add_right _ _) (Multiset.le_add_right _ _)
  · exact le_trans (Multiset.le_add_left _ _) (Multiset.le_add_right _ _)

-- Builders

variable (env : BtreeEnv P K V) (modify : Bool)

theorem buildLeaf_turns {pairs : List (K × V)} {leaf : Leaf P K V}
    (hBuild : env.buildLeaf pairs mem = .ok (leaf, mem')) :
    Turns modify mem 0 {leaf.page} mem' ∧ Holds mem' 0 leaf := by
  rcases env.buildLeaf_ok hBuild with ⟨_, hPairs, hAlloc⟩
  have hTurns := turns_allocate modify mem env.alloc
    (requiredOrder (env.fmt.leafBytes pairs)) (Node.leaf pairs : Node P K V)
  have hPage := congrArg Prod.fst hAlloc
  have hMem := congrArg Prod.snd hAlloc
  change leaf.page = _ at hPage
  change mem' = _ at hMem
  refine ⟨by rw [hPage, hMem]; exact hTurns, ?_⟩
  change mem'.pages leaf.page = some (.leaf leaf.pairs)
  rw [hPage, hMem, hPairs]
  exact update_self _ _ _

theorem buildBranch_turns {keys : List K}
    {branch : Branch P K (Tree P K V n)} (hOwns : Owns mem (childPages (pageSet n) children))
    (hKept : Kept mem n children)
    (hBuild : env.buildBranch children keys mem = .ok (branch, mem')) :
    Turns modify mem (childPages (pageSet n) children) (pageSet (n + 1) branch) mem' ∧
      Holds mem' (n + 1) branch := by
  rcases env.buildBranch_ok hBuild with ⟨_, _, hChildren, hKeys, hAlloc⟩
  have hTurns := turns_allocate modify mem env.alloc
    (requiredOrder (env.fmt.branchBytes keys)) (branchImage n children keys)
  have hPage := congrArg Prod.fst hAlloc
  have hMem := congrArg Prod.snd hAlloc
  change branch.page = _ at hPage
  change mem' = _ at hMem
  rw [← hPage, ← hMem] at hTurns
  have hBeside : Owns mem (0 + childPages (pageSet n) children) := by
    rwa [zero_add]
  refine ⟨?_, ?_, ?_⟩
  · rw [pageSet_branch, hChildren]
    have hFrame := hTurns.frame hBeside
    rwa [zero_add] at hFrame
  · rw [hPage, hMem, hChildren, hKeys]
    exact update_self _ _ _
  · change Kept mem' n branch.children
    rw [hChildren]
    exact hTurns.kept hBeside hKept

theorem leafPieces_turns {pairs : List (K × V)} {pieces : Pieces K (Leaf P K V)}
    (hPieces : env.leafPieces pairs mem = .ok (pieces, mem')) :
    Turns modify mem 0 (childPages (pageSet 0) (pieces.children : Children P K V 0))
        mem' ∧
      Kept mem' 0 pieces.children := by
  rcases env.leafPieces_ok hPieces with ⟨_, _, hBuild, rfl⟩ |
      ⟨left, mem1, right, _, _, hLeft, hRight, _, rfl⟩
  · rcases buildLeaf_turns env modify hBuild with ⟨hTurns, hHolds⟩
    refine ⟨?_, Kept.singleton hHolds⟩
    simpa [Pieces.children, pageSet] using hTurns
  · rcases buildLeaf_turns env modify hLeft with ⟨hTurns1, hHolds1⟩
    rcases buildLeaf_turns env modify hRight with ⟨hTurns2, hHolds2⟩
    have hOwns : Owns mem1 (0 + pageSet 0 left) := by
      rw [zero_add]
      exact hTurns1.owns
    have hBoth := hTurns2.frame hOwns
    rw [zero_add] at hBoth
    refine ⟨?_, ?_⟩
    · have hAll := hTurns1.trans hBoth
      rw [add_comm] at hAll
      simpa [Pieces.children, pageSet] using hAll
    · exact (Kept.singleton (n := 0) (c := (left, deferred)) (hTurns2.holds hOwns hHolds1)).append
        (Kept.singleton (n := 0) (c := (right, deferred)) hHolds2)

theorem branchPieces_turns {keys : List K} {pieces : Pieces K (Branch P K (Tree P K V n))}
    (hOwns : Owns mem (childPages (pageSet n) children)) (hKept : Kept mem n children)
    (hPieces : env.branchPieces children keys mem = .ok (pieces, mem')) :
    Turns modify mem (childPages (pageSet n) children)
        (childPages (pageSet (n + 1)) (pieces.children :
            Children P K V (n + 1))) mem' ∧
      Kept mem' (n + 1) pieces.children := by
  rcases env.branchPieces_ok hPieces with ⟨_, _, hBuild, rfl⟩ |
      ⟨left, _, right, _, _, _, _, hLeft, hRight, rfl⟩
  · rcases buildBranch_turns env modify hOwns hKept hBuild with ⟨hTurns, hHolds⟩
    refine ⟨?_, Kept.singleton hHolds⟩
    simpa [Pieces.children] using hTurns
  · generalize hAt : keys.length / 2 + 1 = at' at hLeft hRight
    have hSplit := take_append_drop at' children
    rw [← hSplit, childPages_append] at hOwns ⊢
    rw [← hSplit] at hKept
    rcases forall_mem_append.mp hKept with ⟨hKeptL, hKeptR⟩
    rcases buildBranch_turns env modify hOwns.left hKeptL hLeft with ⟨hTurns1, hHolds1⟩
    have hFrame1 := hTurns1.frame hOwns
    have hOwns1 := hFrame1.owns
    rw [add_comm] at hOwns1
    rcases buildBranch_turns env modify hOwns1.left (hTurns1.kept hOwns hKeptR) hRight with
      ⟨hTurns2, hHolds2⟩
    have hFrame2 := hTurns2.frame hOwns1
    refine ⟨?_, ?_⟩
    · rw [add_comm] at hFrame2
      have hAll := hFrame1.trans hFrame2
      rw [add_comm (pageSet (n + 1) right)] at hAll
      simpa [Pieces.children] using hAll
    · exact (Kept.singleton (n := n + 1) (c := (left, deferred))
        (hTurns2.holds hOwns1 hHolds1)).append
        (Kept.singleton (n := n + 1) (c := (right, deferred)) hHolds2)

-- Insertion

theorem write_branch_turns {p : P} (keys : List K)
    (hUncommitted : p ∈ mem.uncommitted) (hOwns : Owns mem ({p} + childPages (pageSet n) children))
    (hKept : Kept mem n children) :
    Turns modify mem ({p} + childPages (pageSet n) children) ({p} + childPages (pageSet n) children)
        (mem.write p (branchImage n children keys)) ∧
      Holds (mem.write p (branchImage n children keys)) (n + 1)
        (⟨p, children, keys⟩ : Branch P K (Tree P K V n)) := by
  have hTurns := turns_write modify mem p (branchImage n children keys) hUncommitted
  refine ⟨hTurns.frame hOwns, ?_, hTurns.kept hOwns hKept⟩
  exact update_self _ _ _

/- A child is turned while its branch and the other children stand beside. -/
theorem around_turns {p : P} {c : Tree P K V n × Checksum} {L : Multiset P}
    (hOwns : Owns mem ({p} + childPages (pageSet n) (a ++ [c] ++ b)))
    (hKept : Kept mem n (a ++ [c] ++ b)) (hTurns : Turns modify mem (pageSet n c.1) L mem') :
    Turns modify mem ({p} + childPages (pageSet n) (a ++ [c] ++ b))
        ({p} + (childPages (pageSet n) a + L + childPages (pageSet n) b)) mem' ∧
      Kept mem' n a ∧ Kept mem' n b := by
  have hPages : {p} + childPages (pageSet n) (a ++ [c] ++ b) =
        pageSet n c.1 + ({p} + childPages (pageSet n) a + childPages (pageSet n) b) := by
    simp only [childPages_append, childPages_cons, childPages_nil]
    abel
  have hNew : {p} + (childPages (pageSet n) a + L + childPages (pageSet n) b) =
        L + ({p} + childPages (pageSet n) a + childPages (pageSet n) b) := by
    abel
  rw [hPages] at hOwns ⊢
  rw [hNew]
  refine ⟨hTurns.frame hOwns, ?_, ?_⟩
  · refine hTurns.kept (hOwns.mono ?_) fun d hd => hKept d (by simp [hd])
    refine add_le_add_right ?_ _
    refine le_trans ?_ (Multiset.le_add_right _ _)
    exact Multiset.le_add_left _ _
  · refine hTurns.kept (hOwns.mono ?_) fun d hd => hKept d (by simp [hd])
    exact add_le_add_right (Multiset.le_add_left _ _) _

section Ordered

variable [Ord K]

theorem insertLeaf_turns
    {leaf : Leaf P K V} {checksum : Checksum} {key : K} {value : V} {mem mem' : Mem P K V}
    {result : InsertionResult K V (Tree P K V 0)} (hOwns : Owns mem {leaf.page})
    (hHolds : Holds mem 0 leaf)
    (hInsert : env.LeafInsertion modify leaf checksum key value mem result mem') :
    Turns modify mem {leaf.page} (childPages (pageSet 0) result.pieces.children) mem' ∧
      Kept mem' 0 result.pieces.children := by
  have hBeside : Owns mem (0 + {leaf.page}) := by
    rwa [zero_add]
  cases hInsert with
  | before newLeaf _ _ _ hBuild =>
    rcases buildLeaf_turns env modify hBuild with ⟨hTurns, hNew⟩
    have hBoth := hTurns.frame hBeside
    rw [zero_add] at hBoth
    refine ⟨?_, ?_⟩
    · simpa [Pieces.children, pageSet] using hBoth
    · exact (Kept.singleton (n := 0) (c := (newLeaf, deferred)) hNew).append
        (Kept.singleton (n := 0) (c := (leaf, checksum)) (hTurns.holds hBeside hHolds))
  | after newLeaf _ _ _ _ _ _ hBuild =>
    rcases buildLeaf_turns env modify hBuild with ⟨hTurns, hNew⟩
    have hBoth := hTurns.frame hBeside
    rw [zero_add, add_comm ({newLeaf.page} : Multiset P)] at hBoth
    refine ⟨?_, ?_⟩
    · simpa [Pieces.children, pageSet] using hBoth
    · exact (Kept.singleton (n := 0) (c := (leaf, checksum)) (hTurns.holds hBeside hHolds)).append
        (Kept.singleton (n := 0) (c := (newLeaf, deferred)) hNew)
  | inPlace position found _ _ hUncommitted =>
    have hTurns := turns_write modify mem leaf.page
      (.leaf (insertInplace leaf.pairs position found key value)) hUncommitted
    refine ⟨?_, Kept.singleton (update_self _ _ _)⟩
    simpa [Pieces.children, pageSet] using hTurns
  | rebuilt _ _ _ _ _ _ _ hPieces =>
    rcases leafPieces_turns env modify hPieces with ⟨hTurns, hKept⟩
    have hAll := hTurns.then_free hBeside
    rw [zero_add] at hAll
    exact ⟨hAll, hKept.of_pages (conditionalFree_pages _ _ _)⟩

theorem insertHelper_turns
    {n : Nat} {t : Tree P K V n} {checksum : Checksum} {key : K} {value : V} {mem mem' : Mem P K V}
    {result : InsertionResult K V (Tree P K V n)} (hOwns : Owns mem (pageSet n t))
    (hHolds : Holds mem n t)
    (hInsert : env.insertHelper modify n t checksum key value mem = .ok (result, mem')) :
    Turns modify mem (pageSet n t) (childPages (pageSet n) result.pieces.children) mem' ∧
      Kept mem' n result.pieces.children := by
  induction n generalizing checksum mem mem' with
  | zero => exact insertLeaf_turns env modify hOwns hHolds (env.insertLeaf_ok modify hInsert)
  | succ n ih =>
    rcases env.insertHelper_ok modify hInsert with ⟨child, sub, mem1, hChild, hSub, hBranch⟩
    rcases exists_middle hChild with ⟨a, b, hSplit, hLength⟩
    have hPages : pageSet (n + 1) t = {Branch.page t} +
          childPages (pageSet n) (a ++ [child] ++ b) := by
      rw [← hSplit]
      rfl
    have hKept : Kept mem n (a ++ [child] ++ b) := by
      rw [← hSplit]
      exact hHolds.2
    rw [hPages] at hOwns ⊢
    have hIn : child ∈ a ++ [child] ++ b := by simp
    rcases ih (hOwns.mono (le_trans (childPages_le hIn)
      (Multiset.le_add_left _ _))) (hKept child hIn) hSub with
      ⟨hTurns, hSubKept⟩
    rcases around_turns modify hOwns hKept hTurns with ⟨hAround, hKeptA, hKeptB⟩
    -- the children of the branch with the pieces in place
    have hNewPages : childPages (pageSet n) a + childPages (pageSet n) sub.pieces.children +
            childPages (pageSet n) b =
          childPages (pageSet n) (a ++ sub.pieces.children ++ b) := by
      simp only [childPages_append]
    rw [hNewPages] at hAround
    have hAllKept : Kept mem1 n (a ++ sub.pieces.children ++ b) :=
      (hKeptA.append hSubKept).append hKeptB
    have hOwns1 := hAround.owns
    cases hBranch with
    | inPlace hNext _ hUncommitted =>
      have hOne : sub.pieces.children = [sub.pieces.first] := by simp [Pieces.children, hNext]
      have hSet : (Branch.children t).set (Branch.childForKey t key) sub.pieces.first =
            a ++ sub.pieces.children ++ b := by
        rw [hSplit, ← hLength, set_middle, hOne]
      rw [hSet]
      rcases write_branch_turns modify (Branch.keys t) hUncommitted hOwns1 hAllKept with
        ⟨hWrite, hNew⟩
      refine ⟨?_, Kept.singleton hNew⟩
      have hAll := hAround.trans hWrite
      simpa only [Pieces.children, toList_none,
        map_none, childPages_cons, childPages_nil, add_zero, pageSet_branch] using hAll
    | rebuilt pieces mem2 hPieces =>
      have hSplice : splice (Branch.children t) (Branch.childForKey t key) 1 sub.pieces.children =
            a ++ sub.pieces.children ++ b := by
        rw [hSplit, ← hLength]
        exact splice_append a [child] b _
      rw [hSplice] at hPieces
      rw [add_comm] at hOwns1
      rcases branchPieces_turns env modify hOwns1.left hAllKept hPieces with ⟨hBuild, hNew⟩
      have hFreed := hBuild.then_free hOwns1
      rw [add_comm] at hFreed
      exact ⟨hAround.trans hFreed, hNew.of_pages (conditionalFree_pages _ _ _)⟩

end Ordered

-- Deletion

/- The pages of what is left of a subtree. -/
def leftPages : {n : Nat} → DeletionResult P K V n → Multiset P
  | n, .subtree t _ => pageSet n t
  | 0, .deletedLeaf => 0
  | 0, .partialLeaf _ _ => 0
  | n + 1, .partialBranch branch _ => pageSet (n + 1) branch
  | n + 1, .deletedBranch child _ => pageSet n child

/- What is left of a subtree is found in the memory. -/
def LeftHolds (mem : Mem P K V) : {n : Nat} → DeletionResult P K V n → Prop
  | n, .subtree t _ => Holds mem n t
  | 0, .deletedLeaf => True
  | 0, .partialLeaf _ _ => True
  | n + 1, .partialBranch branch _ => Holds mem (n + 1) branch
  | n + 1, .deletedBranch child _ => Holds mem n child

variable {mem mem' : Mem P K V} {n : Nat}

theorem LeftHolds.of_pages {result : DeletionResult P K V n}
    (hHolds : LeftHolds mem result) (hPages : mem'.pages = mem.pages) :
    LeftHolds mem' result := by
  cases result with
  | subtree => exact Holds.of_pages (n := n) hHolds hPages
  | deletedLeaf => trivial
  | partialLeaf => trivial
  | @partialBranch m branch checksum => exact Holds.of_pages (n := m + 1) hHolds hPages
  | @deletedBranch m child checksum => exact Holds.of_pages (n := m) hHolds hPages

variable {result : DeletionResult P K V (n + 1)}

theorem finalizeBranchBuilder_turns {children : Children P K V n} {keys : List K}
    (hOwns : Owns mem (childPages (pageSet n) children)) (hKept : Kept mem n children)
    (hFinal : env.finalizeBranchBuilder children keys mem = .ok (result, mem')) :
    Turns modify mem (childPages (pageSet n) children) (leftPages result) mem' ∧
      LeftHolds mem' result := by
  match children, hFinal with
  | [(child, checksum)], hFinal =>
    cases hFinal
    have hPages : childPages (pageSet n) [(child, checksum)] = pageSet n child := by simp
    rw [hPages] at hOwns ⊢
    exact ⟨Turns.refl hOwns, hKept _ mem_cons_self⟩
  | c1 :: c2 :: rest, hFinal =>
    simp only [BtreeEnv.finalizeBranchBuilder, bind_eq_ok] at hFinal
    rcases hFinal with ⟨⟨_, _⟩, hBuild, hRest⟩
    have hNew := buildBranch_turns env modify hOwns hKept hBuild
    split at hRest <;> cases hRest <;> exact hNew

variable {a b : Children P K V n} {branch : Branch P K (Tree P K V n)}
    {dropped : List P} {i : Nat}

theorem replacePair_turns {pieces : Pieces K (Tree P K V n)}
    (hSplice : splice branch.children i 2 pieces.children = a ++ pieces.children ++ b)
    (hOwns : Owns mem (childPages (pageSet n) (a ++ pieces.children ++ b) +
          ((dropped ++ [branch.page] : List P) : Multiset P)))
    (hKept : Kept mem n (a ++ pieces.children ++ b))
    (hReplace : env.replacePair modify branch i pieces dropped mem = .ok (result, mem')) :
    Turns modify mem (childPages (pageSet n) (a ++ pieces.children ++ b) +
          ((dropped ++ [branch.page] : List P) : Multiset P))
        (leftPages result) mem' ∧
      LeftHolds mem' result := by
  simp only [BtreeEnv.replacePair, bind_eq_ok] at hReplace
  rcases hReplace with ⟨⟨_, _⟩, hFinal, hEq⟩
  cases hEq
  rw [hSplice] at hFinal
  rcases finalizeBranchBuilder_turns env modify hOwns.left hKept hFinal with ⟨hTurns, hHolds⟩
  exact ⟨hTurns.then_freeAll _ hOwns, hHolds.of_pages
    (foldl_conditionalFree_pages _ _ _)⟩

omit [DecidableEq P] in
/- The children around the child `i` and the sibling it is merged with. -/
theorem exists_sibling
    {C : Type} {children a b : List C} {c sibling : C} (hSplit : children = a ++ [c] ++ b)
    (hLength : a.length = i) (hSibling : children[mergeWith i]? = some sibling) :
    ∃ a' b', ((a = [] ∧ a' = [] ∧ b = sibling :: b') ∨ (a = a' ++ [sibling] ∧ b' = b)) ∧
      ∀ new, splice children (min i (mergeWith i)) 2 new = a' ++ new ++ b' := by
  rcases eq_nil_or_concat' a with rfl | ⟨a', s, rfl⟩
  · have hZero : i = 0 := hLength.symm
    subst hZero
    cases b with
    | nil =>
      rw [hSplit] at hSibling
      simp [mergeWith] at hSibling
    | cons s b' =>
      rw [hSplit] at hSibling
      have hEq : s = sibling := by simpa [mergeWith] using hSibling
      subst hEq
      refine ⟨[], b', Or.inl ⟨rfl, rfl, rfl⟩, fun new => ?_⟩
      rw [hSplit]
      exact splice_append [] [c, s] b' new
  · have hIndex : i = a'.length + 1 := by
      rw [← hLength]
      simp
    have hMerge : mergeWith i = a'.length := by simp [mergeWith, hIndex]
    have hList : children = a' ++ [s] ++ ([c] ++ b) := by
      rw [hSplit]
      simp
    have hEq : s = sibling := by
      rw [hMerge, hList, getElem?_middle] at hSibling
      exact Option.some.inj hSibling
    subst hEq
    refine ⟨a', b, Or.inr ⟨rfl, rfl⟩, fun new => ?_⟩
    have hMin : min i (mergeWith i) = a'.length := by
      rw [hMerge, hIndex]
      omega
    have hPair : children = a' ++ [s, c] ++ b := by
      rw [hSplit]
      simp
    rw [hMin, hPair]
    exact splice_append a' [s, c] b new

theorem sibling_pages {a' b' : Children P K V n} {sibling : Tree P K V n × Checksum}
    (hSides : (a = [] ∧ a' = [] ∧ b = sibling :: b') ∨ (a = a' ++ [sibling] ∧ b' = b))
    (hKeptA : Kept mem n a) (hKeptB : Kept mem n b) :
    (childPages (pageSet n) a + childPages (pageSet n) b =
        childPages (pageSet n) a' + pageSet n sibling.1 + childPages (pageSet n) b') ∧
      Kept mem n a' ∧ Holds mem n sibling.1 ∧
      Kept mem n b' := by
  rcases hSides with ⟨rfl, rfl, rfl⟩ | ⟨rfl, rfl⟩
  · refine ⟨by simp, hKeptA, hKeptB _ mem_cons_self,
      fun c hc => hKeptB c (mem_cons_of_mem _ hc)⟩
  · rcases forall_mem_append.mp hKeptA with ⟨hLeft, hSib⟩
    refine ⟨by simp, hLeft, hSib _ mem_cons_self, hKeptB⟩

theorem merge_turns {pieces : Pieces K (Tree P K V n)} {mem1 : Mem P K V} {X : Multiset P}
    (hBuild : Turns modify mem X (childPages (pageSet n) pieces.children) mem1)
    (hNew : Kept mem1 n pieces.children)
    (hOwns : Owns mem (X + (childPages (pageSet n) a + childPages (pageSet n) b +
          ((dropped ++ [branch.page] : List P) : Multiset P))))
    (hKeptA : Kept mem n a) (hKeptB : Kept mem n b)
    (hSplice : splice branch.children i 2 pieces.children = a ++ pieces.children ++ b)
    (hReplace : env.replacePair modify branch i pieces dropped mem1 = .ok (result, mem')) :
    Turns modify mem (X + (childPages (pageSet n) a +
          childPages (pageSet n) b + ((dropped ++ [branch.page] : List P) : Multiset P)))
        (leftPages result) mem' ∧
      LeftHolds mem' result := by
  have hPages : childPages (pageSet n) pieces.children +
          (childPages (pageSet n) a + childPages (pageSet n) b +
            ((dropped ++ [branch.page] : List P) : Multiset P)) =
        childPages (pageSet n) (a ++ pieces.children ++ b) +
          ((dropped ++ [branch.page] : List P) : Multiset P) := by
    simp only [childPages_append]
    abel
  have hFrame := hBuild.frame hOwns
  rw [hPages] at hFrame
  rcases hBuild.kept_sides hOwns hKeptA hKeptB with ⟨hSideA, hSideB⟩
  rcases replacePair_turns env modify hSplice
    hFrame.owns ((hSideA.append hNew).append hSideB) hReplace
    with ⟨hTurns, hHolds⟩
  exact ⟨hFrame.trans hTurns, hHolds⟩

/- The children of two branches that become one, in either order. -/
theorem merged_children {m : Nat} {mine others : Children P K V m} (first : Prop)
    [Decidable first] (hMine : Kept mem m mine) (hOthers : Kept mem m others) :
    childPages (pageSet m) (if first then mine ++ others else others ++ mine) =
        childPages (pageSet m) mine + childPages (pageSet m) others ∧
      Kept mem m (if first then mine ++ others else others ++ mine) := by
  split
  · exact ⟨childPages_append .., hMine.append hOthers⟩
  · rw [add_comm]
    exact ⟨childPages_append .., hOthers.append hMine⟩

/- What is left of a child joins the branch beside it. -/
theorem mergeBranch_turns {m : Nat} {branch : Branch P K (Tree P K V (m + 1))}
    {mine : Children P K V m} {sibling : Branch P K (Tree P K V m) × Checksum}
    {keys : List K} {pieces : Pieces K (Branch P K (Tree P K V m))}
    {mem1 : Mem P K V} {result : DeletionResult P K V (m + 2)}
    {a b : Children P K V (m + 1)} {c : Tree P K V (m + 1) × Checksum}
    (hSplit : branch.children = a ++ [c] ++ b) (hLength : a.length = i)
    (hSibling : branch.children[mergeWith i]? = some sibling)
    (hOwns : Owns mem ({branch.page} + (childPages (pageSet (m + 1)) a +
        ((dropped : Multiset P) + childPages (pageSet m) mine) + childPages (pageSet (m + 1)) b)))
    (hKeptA : Kept mem (m + 1) a) (hKeptB : Kept mem (m + 1) b) (hMine : Kept mem m mine)
    (hPieces : env.branchPieces (if i < mergeWith i then mine ++ sibling.1.children
        else sibling.1.children ++ mine) keys mem = .ok (pieces, mem1))
    (hReplace : env.replacePair modify (n := m + 1) branch (min i (mergeWith i)) pieces
        (sibling.1.page :: dropped) mem1 = .ok (result, mem')) :
    Turns modify mem ({branch.page} + (childPages (pageSet (m + 1)) a +
          ((dropped : Multiset P) + childPages (pageSet m) mine) + childPages (pageSet (m + 1)) b))
        (leftPages result) mem' ∧
      LeftHolds mem' result := by
  rcases exists_sibling hSplit hLength hSibling with ⟨a', b', hSides, hSplice⟩
  rcases sibling_pages hSides hKeptA hKeptB with ⟨hSibPages, hA', hSib, hB'⟩
  rcases merged_children (i < mergeWith i) hMine hSib.2 with ⟨hChildPages, hKept⟩
  generalize (if i < mergeWith i then mine ++ sibling.1.children
    else sibling.1.children ++ mine) = children at hPieces hChildPages hKept
  have hPages : {branch.page} + (childPages (pageSet (m + 1)) a +
          ((dropped : Multiset P) + childPages (pageSet m) mine) + childPages (pageSet (m + 1)) b) =
        childPages (pageSet m) children + (childPages (pageSet (m + 1)) a' +
            childPages (pageSet (m + 1)) b' +
            ((sibling.1.page :: dropped ++ [branch.page] : List P) : Multiset P)) := by
    rw [add_right_comm (childPages (pageSet (m + 1)) a), hSibPages, hChildPages, pageSet_branch,
      ← Multiset.coe_add, ← Multiset.cons_coe, ← Multiset.singleton_add, Multiset.coe_singleton]
    abel
  rw [hPages] at hOwns ⊢
  rcases branchPieces_turns env modify hOwns.left hKept hPieces with ⟨hBuild, hNew⟩
  exact merge_turns env modify hBuild hNew hOwns hA' hB' (hSplice _) hReplace

theorem absorb_turns {left : DeletionResult P K V n} {c : Tree P K V n × Checksum}
    (hSplit : branch.children = a ++ [c] ++ b) (hLength : a.length = i)
    (hOwns : Owns mem ({branch.page} + (childPages (pageSet n) a +
        leftPages left + childPages (pageSet n) b)))
    (hKeptA : Kept mem n a) (hKeptB : Kept mem n b) (hHolds : LeftHolds mem left)
    (hAbsorb : env.Absorption modify branch i left mem result mem') :
    Turns modify mem ({branch.page} + (childPages (pageSet n) a +
          leftPages left + childPages (pageSet n) b))
        (leftPages result) mem' ∧
      LeftHolds mem' result := by
  have hSet : ∀ d, branch.children.set i d = a ++ [d] ++ b := by
    intro d
    rw [hSplit, ← hLength, set_middle]
  have hOne : ∀ (d : Tree P K V n) (checksum : Checksum), childPages (pageSet n) a +
            leftPages (.subtree d checksum) +
            childPages (pageSet n) b =
          childPages (pageSet n) (a ++ [(d, checksum)] ++ b) := by
    intro d checksum
    simp [leftPages, add_assoc]
  cases hAbsorb with
  | inPlace _ _ child checksum _ hUncommitted =>
    rw [hOne] at hOwns ⊢
    have hKept := (hKeptA.append (Kept.singleton (c := (child, checksum)) hHolds)).append hKeptB
    rw [hSet]
    exact write_branch_turns modify branch.keys hUncommitted hOwns hKept
  | rebuilt _ _ child checksum _ _ _ hBuild =>
    rw [hOne] at hOwns ⊢
    have hKept := (hKeptA.append (Kept.singleton (c := (child, checksum)) hHolds)).append hKeptB
    rw [hSet] at hBuild
    rw [add_comm] at hOwns ⊢
    rcases buildBranch_turns env modify hOwns.left hKept hBuild with ⟨hTurns, hNew⟩
    exact ⟨hTurns.then_free hOwns, hNew.of_pages (conditionalFree_pages _ _ _)⟩
  | dropped branch i _ _ _ hFinal =>
    have hErase : branch.children.eraseIdx i = a ++ b := by rw [hSplit, ← hLength, eraseIdx_middle]
    have hPages : {branch.page} + (childPages (pageSet 0) a +
            leftPages (DeletionResult.deletedLeaf : DeletionResult P K V 0) +
            childPages (pageSet 0) b) =
          childPages (pageSet 0) (a ++ b) + {branch.page} := by
      simp only [leftPages, childPages_append]
      abel
    rw [hErase] at hFinal
    rw [hPages] at hOwns ⊢
    rcases finalizeBranchBuilder_turns env modify hOwns.left (hKeptA.append hKeptB) hFinal with
      ⟨hTurns, hNew⟩
    exact ⟨hTurns.then_free hOwns, hNew.of_pages (conditionalFree_pages _ _ _)⟩
  | keptAlone branch _ pairs deletedPair _ newLeaf _ _ _ _ _ _ hBuild hFinal =>
    rcases buildLeaf_turns env modify hBuild with ⟨hTurns, hNew⟩
    rw [hSet] at hFinal
    have hPages : {branch.page} + (childPages (pageSet 0) a +
            leftPages (DeletionResult.partialLeaf pairs deletedPair : DeletionResult P K V 0) +
            childPages (pageSet 0) b) =
          0 + (childPages (pageSet 0) a + childPages (pageSet 0) b + {branch.page}) := by
      simp only [leftPages]
      abel
    rw [hPages] at hOwns ⊢
    have hFrame := hTurns.frame hOwns
    have hNewPages : {newLeaf.page} + (childPages (pageSet 0) a +
            childPages (pageSet 0) b + {branch.page}) =
          childPages (pageSet 0) (a ++ [(newLeaf, deferred)] ++ b) + {branch.page} := by
      simp only [childPages_append, childPages_cons, childPages_nil, pageSet]
      abel
    rw [hNewPages] at hFrame
    rcases hTurns.kept_sides hOwns hKeptA hKeptB with ⟨hSideA, hSideB⟩
    rcases finalizeBranchBuilder_turns env modify hFrame.owns.left ((hSideA.append
        (Kept.singleton (n := 0) (c := (newLeaf, deferred)) hNew)).append hSideB) hFinal with
      ⟨hClose, hResult⟩
    exact ⟨hFrame.trans (hClose.then_free hFrame.owns), hResult.of_pages
        (conditionalFree_pages _ _ _)⟩
  | mergedLeaf branch _ pairs deletedPair sibling _ _ _ _ _ hSibling _ hPieces hReplace =>
    rcases exists_sibling hSplit hLength hSibling with ⟨a', b', hSides, hSplice⟩
    rcases sibling_pages hSides hKeptA hKeptB with ⟨hSibPages, hA', _, hB'⟩
    rcases leafPieces_turns env modify hPieces with ⟨hBuild, hNew⟩
    have hPages : {branch.page} + (childPages (pageSet 0) a +
            leftPages (DeletionResult.partialLeaf pairs deletedPair : DeletionResult P K V 0) +
            childPages (pageSet 0) b) =
          0 + (childPages (pageSet 0) a' + childPages (pageSet 0) b' +
            (([sibling.1.page] ++ [branch.page] : List P) : Multiset P)) := by
      change {branch.page} + (childPages (pageSet 0) a + 0 + childPages (pageSet 0) b) = 0 +
        (childPages (pageSet 0) a' + childPages (pageSet 0) b' + ({sibling.1.page} + {branch.page}))
      rw [add_zero, hSibPages]
      simp only [pageSet]
      abel
    rw [hPages] at hOwns ⊢
    exact merge_turns env modify hBuild hNew hOwns hA' hB' (hSplice _) hReplace
  | mergedChild _ _ grandchild checksum _ _ _ _ _ _ _ hSibling _ hPieces hReplace =>
    have hLeft : leftPages (DeletionResult.deletedBranch grandchild checksum) =
        ((([] : List P) : Multiset P) + childPages (pageSet _) [(grandchild, checksum)]) := by
      simp [leftPages]
    rw [hLeft] at hOwns ⊢
    exact mergeBranch_turns env modify hSplit hLength hSibling hOwns hKeptA hKeptB
      (Kept.singleton (c := (grandchild, checksum)) hHolds) hPieces hReplace
  | mergedBranch _ _ partialChild checksum _ _ _ _ _ _ _ hSibling _ hPieces hReplace =>
    have hLeft : leftPages (DeletionResult.partialBranch partialChild checksum) =
        (([partialChild.page] : List P) : Multiset P) +
          childPages (pageSet _) partialChild.children := pageSet_branch ..
    rw [hLeft] at hOwns ⊢
    exact mergeBranch_turns env modify hSplit hLength hSibling hOwns hKeptA hKeptB
      hHolds.2 hPieces hReplace

section Ordered

variable [Ord K]

variable {key : K} {mem mem' : Mem P K V}

theorem deleteLeaf_turns {leaf : Leaf P K V} {checksum : Checksum}
    {result : DeletionResult P K V 0} {found : Option V} (hOwns : Owns mem {leaf.page})
    (hHolds : Holds mem 0 leaf)
    (hDelete : env.LeafDeletion modify leaf checksum key mem result found mem') :
    Turns modify mem {leaf.page} (leftPages result) mem' ∧ LeftHolds mem' result := by
  have hIn : leaf.page ∈ mem.allocated := hOwns.2 _ (Multiset.mem_singleton_self _)
  cases hDelete with
  | missing => exact ⟨Turns.refl hOwns, hHolds⟩
  | inPlace _ _ _ _ hUncommitted =>
    exact ⟨turns_write modify mem leaf.page _ hUncommitted, update_self _ _ _⟩
  | emptied | underfull =>
    exact ⟨turns_conditionalFree modify mem leaf.page hIn, trivial⟩
  | rebuilt _ _ _ _ _ _ _ _ _ hBuild =>
    rcases buildLeaf_turns env modify hBuild with ⟨hTurns, hNew⟩
    have hBeside : Owns mem (0 + {leaf.page}) := by
      rwa [zero_add]
    have hAll := hTurns.then_free hBeside
    rw [zero_add] at hAll
    exact ⟨hAll, hNew.of_pages (conditionalFree_pages _ _ _)⟩

variable {n : Nat} {t : Tree P K V n}

theorem deleteHelper_turns {checksum : Checksum}
    {result : DeletionResult P K V n} {found : Option V} (hOwns : Owns mem (pageSet n t))
    (hHolds : Holds mem n t)
    (hDelete : env.deleteHelper modify n t checksum key mem = .ok (result, found, mem')) :
    Turns modify mem (pageSet n t) (leftPages result) mem' ∧ LeftHolds mem' result ∧
      (found = none → mem' = mem) := by
  induction n generalizing checksum mem mem' found with
  | zero =>
    have hLeaf := env.deleteLeaf_ok modify hDelete
    rcases deleteLeaf_turns env modify hOwns hHolds hLeaf with ⟨hTurns, hResult⟩
    refine ⟨hTurns, hResult, fun hNone => ?_⟩
    subst hNone
    cases hLeaf with
    | missing => rfl
  | succ n ih =>
    rcases env.deleteHelper_ok modify hDelete with ⟨child, _, _, hChild, hSub, hCase⟩
    rcases exists_middle hChild with ⟨a, b, hSplit, hLength⟩
    have hPages : pageSet (n + 1) t = {Branch.page t} +
          childPages (pageSet n) (a ++ [child] ++ b) := by
      rw [← hSplit]
      rfl
    have hKept : Kept mem n (a ++ [child] ++ b) := by
      rw [← hSplit]
      exact hHolds.2
    have hIn : child ∈ a ++ [child] ++ b := by simp
    rw [hPages] at hOwns
    rcases ih (hOwns.mono (le_trans (childPages_le hIn)
      (Multiset.le_add_left _ _))) (hKept child hIn) hSub with
      ⟨hTurns, hLeft, hSame⟩
    rcases hCase with ⟨hNone, rfl, rfl⟩ | ⟨hSome, hAbsorb⟩
    · have hMem := hSame hNone
      subst hMem
      refine ⟨Turns.refl ?_, hHolds, fun _ => rfl⟩
      rwa [hPages]
    · rcases around_turns modify hOwns hKept hTurns with ⟨hAround, hKeptA, hKeptB⟩
      rcases absorb_turns env modify hSplit hLength hAround.owns hKeptA hKeptB hLeft hAbsorb with
        ⟨hRest, hResult⟩
      refine ⟨?_, hResult, fun hNone => ?_⟩
      · rw [hPages]
        exact hAround.trans hRest
      · rw [hNone] at hSome
        cases hSome

-- Mutable Guards

/- Every page on the path to the leaf of a key is its own. -/
def PathOwned (mem : Mem P K V) : (n : Nat) → Tree P K V n → K → Prop
  | 0, leaf, _ => Leaf.page leaf ∈ mem.uncommitted
  | n + 1, branch, key =>
    Branch.page branch ∈ mem.uncommitted ∧ ∀ c, (Branch.children branch)[
          Branch.childForKey branch key]? = some c →
        PathOwned mem n c.1 key

/- Every leaf image was there before, on a page that is not larger. -/
def LeafCopies (mem mem' : Mem P K V) : Prop :=
  ∀ p pairs, mem'.pages p = some (.leaf pairs) → ∃ q, mem.pages q = some (.leaf pairs) ∧
      env.alloc.order q ≤ env.alloc.order p

omit [Ord K] in
theorem LeafCopies.refl (mem : Mem P K V) : LeafCopies env mem mem :=
  fun p _ hPage => ⟨p, hPage, Nat.le_refl _⟩

omit [Ord K] in
theorem LeafCopies.trans
    {env : BtreeEnv P K V} {mem'' : Mem P K V} (hFirst : LeafCopies env mem mem')
    (hSecond : LeafCopies env mem' mem'') :
    LeafCopies env mem mem'' := by
  intro p pairs hPage
  rcases hSecond p pairs hPage with ⟨q, hMid, hLe⟩
  rcases hFirst q pairs hMid with ⟨r, hOld, hLe'⟩
  exact ⟨r, hOld, le_trans hLe' hLe⟩

variable {p : P}

omit [Ord K] in
/- One page is filled with a branch or a copy of a leaf. -/
theorem LeafCopies.update {node : Node P K V}
    (hPages : mem'.pages = Function.update mem.pages p (some node))
    (hNode : ∀ pairs, node = .leaf pairs → ∃ q, mem.pages q = some (.leaf pairs) ∧
          env.alloc.order q ≤ env.alloc.order p) :
    LeafCopies env mem mem' := by
  intro r pairs hPage
  rw [hPages] at hPage
  by_cases hEq : r = p
  · subst hEq
    rw [update_self] at hPage
    exact hNode pairs (Option.some.inj hPage)
  · rw [update_of_ne hEq] at hPage
    exact ⟨r, hPage, Nat.le_refl _⟩

omit [Ord K] in
/- A copy on a new page stands for the original. -/
theorem withPage_turns (order : Nat) (hOwns : Owns mem (pageSet n t))
    (hHolds : Holds mem n t) (hCommitted : page n t ∈ mem.committed) :
    let new := mem.allocate env.alloc order (image n t)
    Turns modify mem (pageSet n t) (pageSet n (withPage n t new.1)) (new.2.pushFreed (page n t)) ∧
      Holds (new.2.pushFreed (page n t)) n (withPage n t new.1) := by
  intro new
  have hNew := turns_allocate modify mem env.alloc order (image n t)
  have hBeside : Owns mem (0 + pageSet n t) := by
    rwa [zero_add]
  have hFrame := hNew.frame hBeside
  rw [zero_add] at hFrame
  have hPush := turns_pushFreed modify new.2 (page n t) hCommitted
  have hStill := hNew.holds hBeside hHolds
  have hPage : new.2.pages new.1 = some (image n t) := update_self _ _ _
  cases n with
  | zero =>
    have hOwns' : Owns new.2 ({Leaf.page t} + {new.1}) := by
      rw [add_comm]
      exact hFrame.owns
    have hRest := hPush.frame hOwns'
    rw [zero_add, add_comm] at hRest
    exact ⟨hFrame.trans hRest, hPage⟩
  | succ n =>
    have hOrder : {new.1} + pageSet (n + 1) t = {page (n + 1) t} + ({new.1} +
            childPages (pageSet n) (Branch.children t)) := by
      rw [pageSet_branch]
      change _ = {Branch.page t} + _
      abel
    have hOwns' := hFrame.owns
    rw [hOrder] at hOwns'
    have hRest := hPush.frame hOwns'
    rw [zero_add, ← hOrder] at hRest
    exact ⟨hFrame.trans hRest, hPage, fun c hc => (hStill.2 c hc).of_pages rfl⟩

omit [Ord K] in
theorem ownPage_turns (checksum : Checksum)
    (hOwns : Owns mem (pageSet n t)) (hHolds : Holds mem n t) :
    let result := env.ownPage n t checksum mem
    Turns modify mem (pageSet n t) (pageSet n result.1.1) result.2 ∧ Holds result.2 n result.1.1 ∧
      page n result.1.1 ∈ result.2.uncommitted ∧
      LeafCopies env mem result.2 ∧
      (page n t ∈ mem.uncommitted → result = ((t, checksum), mem)) := by
  intro result
  by_cases hU : page n t ∈ mem.uncommitted
  · have hEq : result = ((t, checksum), mem) := by
      simp [result, BtreeEnv.ownPage, PageMemory.isUncommitted, hU]
    rw [hEq]
    exact ⟨Turns.refl hOwns, hHolds, hU, LeafCopies.refl env mem, fun _ => rfl⟩
  · have hEq : result = ((withPage n t (mem.allocate env.alloc (requiredOrder
              (pageBytes (env.alloc.order (page n t))))
            (image n t)).1, deferred),
          (mem.allocate env.alloc (requiredOrder (pageBytes (env.alloc.order (page n t))))
            (image n t)).2.pushFreed (page n t)) := by
      simp [result, BtreeEnv.ownPage, PageMemory.isUncommitted, hU]
    have hC : page n t ∈ mem.committed := by
      rcases Finset.mem_union.mp (hOwns.2 _ (page_mem_pageSet n t)) with hC | hU'
      · exact hC
      · exact absurd hU' hU
    rcases withPage_turns env modify (requiredOrder (pageBytes (env.alloc.order (page n t))))
      hOwns hHolds hC with ⟨hTurns, hNew⟩
    rw [hEq]
    refine ⟨hTurns, hNew, ?_, ?_, fun h => absurd h hU⟩
    · have hPage : ∀ p, page n (withPage n t p) = p := by
        intro p
        cases n <;> rfl
      rw [hPage]
      exact Finset.mem_insert_self _ _
    · refine LeafCopies.update env rfl fun pairs hImage => ?_
      refine ⟨page n t, ?_, ?_⟩
      · rw [← hImage]
        exact hHolds.pages_page
      · rw [env.alloc.pick_order]
        exact le_requiredOrder_pageBytes _

theorem PathOwned.mono (hPath : PathOwned mem n t key)
    (hMore : mem.uncommitted ⊆ mem'.uncommitted) :
    PathOwned mem' n t key := by
  induction n with
  | zero => exact hMore hPath
  | succ n ih => exact ⟨hMore hPath.1, fun c hc => ih (hPath.2 c hc)⟩

omit [Ord K] in
theorem page_not_mem_child {a b : Children P K V n} {c : Tree P K V n × Checksum}
    (hOwns : Owns mem ({p} + childPages (pageSet n) (a ++ [c] ++ b))) :
    p ∉ pageSet n c.1 := by
  have hOrder : {p} + childPages (pageSet n) (a ++ [c] ++ b) =
        pageSet n c.1 + ({p} + childPages (pageSet n) a + childPages (pageSet n) b) := by
    simp only [childPages_append, childPages_cons, childPages_nil]
    abel
  rw [hOrder] at hOwns
  exact hOwns.not_mem (by simp)

omit [Ord K] in
/-
  A child is turned while its branch page, which records another child with the same page number,
  stands beside.
-/
theorem branch_beside_turns {keys : List K} {a b : Children P K V n}
    {c : Tree P K V n × Checksum} {child : Tree P K V n}
    (hOwns : Owns mem ({p} + childPages (pageSet n) (a ++ [c] ++ b)))
    (hHolds : Holds mem (n + 1) (⟨p, a ++ [c] ++ b, keys⟩ : Branch P K (Tree P K V n)))
    (hTurns : Turns modify mem (pageSet n c.1) (pageSet n child) mem')
    (hChild : Holds mem' n child) (hPage : page n child = page n c.1) :
    Turns modify mem ({p} + childPages (pageSet n) (a ++ [c] ++ b))
        ({p} + childPages (pageSet n) (a ++ [(child, c.2)] ++ b)) mem' ∧
      Holds mem' (n + 1) (⟨p, a ++ [(child, c.2)] ++ b, keys⟩ : Branch P K (Tree P K V n)) := by
  rcases around_turns modify hOwns hHolds.2 hTurns with ⟨hAround, hKeptA, hKeptB⟩
  have hNot := page_not_mem_child hOwns
  have hSame : mem'.pages p = mem.pages p := hTurns.pages_eq (hOwns.2 p (by simp)) hNot
  refine ⟨?_, ?_, ?_⟩
  · simpa [add_assoc] using hAround
  · change mem'.pages p = some (branchImage n (a ++ [(child, c.2)] ++ b) keys)
    have hImage : branchImage n (a ++ [(child, c.2)] ++ b) keys =
        (branchImage n (a ++ [c] ++ b) keys : Node P K V) := by
      simp [branchImage, hPage]
    rw [hSame, hImage]
    exact hHolds.1
  · exact (hKeptA.append (Kept.singleton (c := (child, c.2)) hChild)).append hKeptB

/- The path to the leaf of a key becomes uncommitted. -/
theorem getMutHelper_turns {t' : Tree P K V n} {found : Bool}
    (hOwns : Owns mem (pageSet n t)) (hHolds : Holds mem n t) (hOwned : page n t ∈ mem.uncommitted)
    (hRun : env.getMutHelper n t key mem = .ok (t', found, mem')) :
    Turns modify mem (pageSet n t) (pageSet n t') mem' ∧ Holds mem' n t' ∧ page n t' = page n t ∧
      PathOwned mem' n t' key ∧
      LeafCopies env mem mem' := by
  induction n generalizing mem mem' found with
  | zero =>
    simp only [BtreeEnv.getMutHelper, bind_eq_ok, require_eq_ok] at hRun
    rcases hRun with ⟨_, _, hEq⟩
    cases hEq
    exact ⟨Turns.refl hOwns, hHolds, rfl, hOwned, LeafCopies.refl env mem⟩
  | succ n ih =>
    simp only [BtreeEnv.getMutHelper, bind_eq_ok, unwrap_eq_ok, require_eq_ok] at hRun
    rcases hRun with ⟨c, hChild, ⟨child, _, mem3⟩, hSub, _, _, hEq⟩
    cases hEq
    rcases exists_middle hChild with ⟨a, b, hSplit, hLength⟩
    have hSet : ∀ d, (Branch.children t).set (Branch.childForKey t key) d = a ++ [d] ++ b := by
      intro d
      rw [hSplit, ← hLength, set_middle]
    have hPages : pageSet (n + 1) t = {Branch.page t} + childPages (pageSet n) (a ++ [c] ++ b) := by
      rw [← hSplit]
      rfl
    have hKept : Kept mem n (a ++ [c] ++ b) := by
      rw [← hSplit]
      exact hHolds.2
    have hIn : c ∈ a ++ [c] ++ b := by simp
    rw [hPages] at hOwns ⊢
    rcases ownPage_turns env modify c.2
      (hOwns.mono (le_trans (childPages_le hIn) (Multiset.le_add_left _ _))) (hKept c hIn) with
      ⟨hOwn, hOwnHolds, hOwnPage, hOwnCopies, hClean⟩
    simp only [hSet] at hSub ⊢
    generalize env.ownPage n c.1 c.2 mem = owned at *
    rcases around_turns modify hOwns hKept hOwn with ⟨hAround, hKeptA, hKeptB⟩
    have hNewPages : {Branch.page t} + (childPages (pageSet n) a +
            pageSet n owned.1.1 + childPages (pageSet n) b) =
          {Branch.page t} + childPages (pageSet n) (a ++ [owned.1] ++ b) := by
      simp [add_assoc]
    rw [hNewPages] at hAround
    have hMark : Branch.page t ∈ owned.2.uncommitted :=
      hOwn.uncommitted_of_not_mem hOwned (page_not_mem_child hOwns)
    -- the branch page records the owned child
    generalize hMem : (if (!mem.isUncommitted (page n c.1)) = true then
        owned.2.write (Branch.page t) (branchImage n (a ++ [owned.1] ++ b) (Branch.keys t))
      else owned.2) = mem2 at hSub
    have hRecord : Turns modify owned.2
            ({Branch.page t} + childPages (pageSet n) (a ++ [owned.1] ++ b))
            ({Branch.page t} + childPages (pageSet n) (a ++ [owned.1] ++ b)) mem2 ∧
          Holds mem2 (n + 1) (⟨Branch.page t, a ++ [owned.1] ++ b,
              Branch.keys t⟩ : Branch P K (Tree P K V n)) ∧
          mem2.uncommitted = owned.2.uncommitted ∧
          LeafCopies env owned.2 mem2 := by
      by_cases hU : page n c.1 ∈ mem.uncommitted
      · have hEq := hClean hU
        subst hEq
        have hSameMem : mem = mem2 := by
          rw [← hMem]
          simp [PageMemory.isUncommitted, hU]
        subst hSameMem
        refine ⟨Turns.refl hAround.owns, ⟨?_, hKept⟩, rfl, LeafCopies.refl env mem⟩
        rw [← hSplit]
        exact hHolds.1
      · have hWritten : owned.2.write (Branch.page t)
              (branchImage n (a ++ [owned.1] ++ b) (Branch.keys t)) = mem2 := by
          rw [← hMem]
          simp [PageMemory.isUncommitted, hU]
        rcases write_branch_turns modify (Branch.keys t) hMark hAround.owns
          ((hKeptA.append (Kept.singleton hOwnHolds)).append hKeptB) with ⟨hWrite, hNew⟩
        rw [hWritten] at hWrite hNew
        refine ⟨hWrite, hNew, by rw [← hWritten]; rfl, ?_⟩
        rw [← hWritten]
        exact LeafCopies.update env rfl fun _ hEq => by cases hEq
    rcases hRecord with ⟨hWrite, hNew, hMarks, hRecopies⟩
    have hMem2Owns := hWrite.owns
    have hInNew : owned.1 ∈ a ++ [owned.1] ++ b := by simp
    rcases ih (hMem2Owns.mono (le_trans (childPages_le hInNew)
      (Multiset.le_add_left _ _))) (hNew.2 _ hInNew)
      (hMarks ▸ hOwnPage) hSub with
      ⟨hTurns, hChildHolds, hSamePage, hPath, hSubCopies⟩
    rcases branch_beside_turns modify hMem2Owns hNew
      hTurns hChildHolds hSamePage with ⟨hLast, hResult⟩
    have hFinalMark : Branch.page t ∈ mem3.uncommitted :=
      hTurns.uncommitted_of_not_mem (hMarks ▸ hMark) (page_not_mem_child hMem2Owns)
    refine ⟨(hAround.trans hWrite).trans hLast, hResult, rfl, ⟨hFinalMark, ?_⟩,
      (hOwnCopies.trans hRecopies).trans hSubCopies⟩
    intro d hd
    change (a ++ [(child, owned.1.2)] ++ b)[ Branch.childForKey t key]? = some d at hd
    rw [← hLength, getElem?_middle] at hd
    cases hd
    exact hPath

/- Overwriting a value through a guard. -/
theorem guardHelper_turns {t' : Tree P K V n} {value : V} {moved : Bool}
    (hOwns : Owns mem (pageSet n t)) (hHolds : Holds mem n t) (hPath : PathOwned mem n t key)
    (hRun : env.guardHelper n t key value mem = .ok (t', moved, mem')) :
    Turns true mem (pageSet n t) (pageSet n t') mem' ∧ Holds mem' n t' ∧
      (moved = false → page n t' = page n t) ∧
      PathOwned mem' n t' key := by
  induction n generalizing mem mem' moved with
  | zero =>
    have hU : Leaf.page t ∈ mem.uncommitted := hPath
    simp only [BtreeEnv.guardHelper] at hRun
    split at hRun
    · simp only [bind_eq_ok, require_eq_ok] at hRun
      rcases hRun with ⟨_, _, hEq⟩
      cases hEq
      exact ⟨turns_write true mem (Leaf.page t) _ hU, update_self _ _ _, fun _ => rfl, hU⟩
    · simp only [bind_eq_ok, require_eq_ok] at hRun
      rcases hRun with ⟨⟨_, mem1⟩, hBuild, _, hOld, hEq⟩
      cases hEq
      rcases buildLeaf_turns env true hBuild with ⟨hTurns, hNew⟩
      rcases env.buildLeaf_fresh hBuild with ⟨hFresh, hMarks⟩
      have hBeside : Owns mem (0 + {Leaf.page t}) := by
        rw [zero_add]
        exact hOwns
      have hAll := hTurns.then_free hBeside
      have hFree : mem1.conditionalFree true (Leaf.page t) = mem1.free (Leaf.page t) := by
        simp only at hOld
        simp [PageMemory.conditionalFree, hOld]
      rw [zero_add, hFree] at hAll
      refine ⟨hAll, hNew, fun h => (by cases h), ?_⟩
      refine Finset.mem_erase.mpr ⟨fun hEq => ?_, ?_⟩
      · rw [hEq] at hFresh
        exact hFresh (Finset.mem_union_right _ hU)
      · rw [hMarks]
        exact Finset.mem_insert_self _ _
  | succ n ih =>
    simp only [BtreeEnv.guardHelper, bind_eq_ok, unwrap_eq_ok] at hRun
    rcases hRun with ⟨c, hChild, ⟨child, moved', mem1⟩, hSub, hRest⟩
    rcases exists_middle hChild with ⟨a, b, hSplit, hLength⟩
    have hSet : ∀ d, (Branch.children t).set (Branch.childForKey t key) d = a ++ [d] ++ b := by
      intro d
      rw [hSplit, ← hLength, set_middle]
    have hPages : pageSet (n + 1) t = {Branch.page t} + childPages (pageSet n) (a ++ [c] ++ b) := by
      rw [← hSplit]
      rfl
    have hBranch : Holds mem (n + 1) (⟨Branch.page t, a ++ [c] ++ b, Branch.keys t⟩ :
          Branch P K (Tree P K V n)) := by
      rw [← hSplit]
      exact hHolds
    have hIn : c ∈ a ++ [c] ++ b := by simp
    rw [hPages] at hOwns ⊢
    rcases ih (hOwns.mono (le_trans (childPages_le hIn)
      (Multiset.le_add_left _ _))) (hBranch.2 c hIn)
      (hPath.2 c hChild) hSub with
      ⟨hTurns, hChildHolds, hSame, hSubPath⟩
    have hMark : Branch.page t ∈ mem1.uncommitted :=
      hTurns.uncommitted_of_not_mem hPath.1 (page_not_mem_child hOwns)
    have hNewPath : ∀ checksum d, (a ++ [(child, checksum)] ++ b)[
              Branch.childForKey t key]? = some d →
            PathOwned mem1 n d.1 key := by
      intro checksum d hd
      rw [← hLength, getElem?_middle] at hd
      cases hd
      exact hSubPath
    simp only [hSet] at hRest
    cases moved' with
    | true =>
      cases hRest
      rcases around_turns true hOwns hBranch.2 hTurns with ⟨hAround, hKeptA, hKeptB⟩
      have hNewPages : {Branch.page t} + (childPages (pageSet n) a +
              pageSet n child + childPages (pageSet n) b) =
            {Branch.page t} + childPages (pageSet n) (a ++ [(child, deferred)] ++ b) := by
        simp [add_assoc]
      rw [hNewPages] at hAround
      rcases write_branch_turns true (Branch.keys t) hMark
        hAround.owns ((hKeptA.append (Kept.singleton (c := (child, deferred)) hChildHolds)).append
          hKeptB) with ⟨hWrite, hNew⟩
      refine ⟨hAround.trans hWrite, hNew, fun _ => rfl, hMark, ?_⟩
      intro d hd
      exact (hNewPath deferred d hd).mono (Finset.Subset.refl _)
    | false =>
      cases hRest
      rcases branch_beside_turns true hOwns hBranch hTurns hChildHolds (hSame rfl) with ⟨hAll, hNew⟩
      exact ⟨hAll, hNew, fun _ => rfl, hMark, fun d hd => hNewPath c.2 d hd⟩

end Ordered

end Memory

end Redbx
