import Redbx.Btree.CopyOnWrite
import Redbx.Btree.Naturality

/-
  `UntypedBtreeMut::finalize_dirty_checksums`: the checksums of a tree are computed when its
  transaction commits. `RawBtree::verify_checksum` checks them.

  Key theorems include:
    * `verified_roots_agree`
    * `finalizeHelper_rename`, `finalizeDirtyChecksums_rename`
-/

namespace Redbx

open Redbx.Tree List Option

section Verification

variable {P K V : Type} (digest : Node P K V → Checksum)

/-
  `verify_checksum_helper`. There is no answer for a page that cannot be read, nor if the pages are
  nested deeper than `fuel`.
-/
def verifyChecksumHelper (pages : P → Option (Node P K V)) : Nat → P → Checksum → Option Bool
  | 0, _, _ => none
  | fuel + 1, p, expected =>
    match pages p with
    | none => none
    | some (.leaf pairs) => some (expected == digest (.leaf pairs))
    | some (.branch children keys) =>
      if expected = digest (.branch children keys) then
        children.allM fun c => verifyChecksumHelper pages fuel c.1 c.2
      else
        some false

/- `RawBtree::verify_checksum`. -/
def verifyChecksum (pages : P → Option (Node P K V)) (fuel : Nat)
    (root : TreeRoot P K V) : Option Bool :=
  match root with
  | none => some true
  | some r => verifyChecksumHelper digest pages fuel (page r.height r.tree) r.checksum

variable {digest}

theorem allM_eq_some_true {α : Type} {f : α → Option Bool} {xs : List α} :
    xs.allM f = some true ↔ ∀ x ∈ xs, f x = some true := by
  induction xs with
  | nil => simp [List.allM]
  | cons x rest ih =>
    rw [List.forall_mem_cons, ← ih, List.allM]
    rcases f x with _ | _ | _ <;> simp

/- A page that passes has the expected hash, and so have its children. -/
theorem verifyChecksumHelper_ok {pages : P → Option (Node P K V)} {fuel : Nat} {p : P}
    {expected : Checksum} (hPass : verifyChecksumHelper digest pages fuel p expected = some true) :
    ∃ node, pages p = some node ∧ expected = digest node ∧
      ∀ children keys, node = .branch children keys → ∃ fuel, ∀ c ∈ children,
        verifyChecksumHelper digest pages fuel c.1 c.2 = some true := by
  cases fuel with
  | zero => cases hPass
  | succ fuel =>
    rw [verifyChecksumHelper] at hPass
    split at hPass
    · cases hPass
    · next pairs hPage =>
      refine ⟨_, hPage, by simpa using hPass, ?_⟩
      rintro _ _ ⟨⟩
    · next children keys hPage =>
      split at hPass
      · next hSum =>
        refine ⟨_, hPage, hSum, ?_⟩
        rintro _ _ ⟨rfl, rfl⟩
        exact ⟨fuel, allM_eq_some_true.mp hPass⟩
      · cases hPass

theorem mapM_congr {α β : Type} {f g : α → Option β} {xs : List α} (hSame : ∀ x ∈ xs, f x = g x) :
    xs.mapM f = xs.mapM g := by
  induction xs with
  | nil => rfl
  | cons x rest ih =>
    rcases List.forall_mem_cons.mp hSame with ⟨hHead, hRest⟩
    rw [List.mapM_cons, List.mapM_cons, hHead, ih hRest]

theorem readEntries_eq_of_verified {pages pages' : P → Option (Node P K V)}
    (hHash : ∀ p a b, pages p = some a → pages' p = some b → digest a = digest b → a = b)
    {n fuel fuel' : Nat} {p : P} {expected : Checksum}
    (hPass : verifyChecksumHelper digest pages fuel p expected = some true)
    (hPass' : verifyChecksumHelper digest pages' fuel' p expected = some true) :
    readEntries pages n p = readEntries pages' n p := by
  induction n generalizing fuel fuel' p expected with
  | zero =>
    rcases verifyChecksumHelper_ok hPass with ⟨node, hPage, hSum, _⟩
    rcases verifyChecksumHelper_ok hPass' with ⟨node', hPage', hSum', _⟩
    cases hHash p node node' hPage hPage' (hSum.symm.trans hSum')
    simp only [readEntries, hPage, hPage']
  | succ n ih =>
    rcases verifyChecksumHelper_ok hPass with ⟨node, hPage, hSum, hBelow⟩
    rcases verifyChecksumHelper_ok hPass' with ⟨node', hPage', hSum', hBelow'⟩
    cases hHash p node node' hPage hPage' (hSum.symm.trans hSum')
    simp only [readEntries, hPage, hPage']
    cases node with
    | leaf => rfl
    | branch children keys =>
      rcases hBelow children keys rfl with ⟨_, hChildren⟩
      rcases hBelow' children keys rfl with ⟨_, hChildren'⟩
      exact congrArg (Option.map List.flatten)
        (mapM_congr fun c hc => ih (hChildren c hc) (hChildren' c hc))

/-
  Two memories in which a root passes hold the same entries below it, if no page has different
  contents of one hash in them.
-/
theorem verified_roots_agree {pages pages' : P → Option (Node P K V)}
    (hHash : ∀ p a b, pages p = some a → pages' p = some b → digest a = digest b → a = b)
    {root : TreeRoot P K V} {fuel fuel' : Nat}
    (hPass : verifyChecksum digest pages fuel root = some true)
    (hPass' : verifyChecksum digest pages' fuel' root = some true) :
    readRoot pages root = readRoot pages' root := by
  cases root with
  | none => rfl
  | some r => exact readEntries_eq_of_verified hHash hPass hPass'

/- A root above two leaves, and every other page as given. -/
def sealedPages (other : Option (Node Nat Nat Nat)) : Nat → Option (Node Nat Nat Nat)
  | 0 => some (.leaf [(1, 5)])
  | 1 => some (.leaf [(4, 6)])
  | 2 => some (.branch [(0, 6), (1, 10)] [1])
  | _ => other

def sealedRoot : TreeRoot Nat Nat Nat :=
  some ⟨1, ⟨2, [(⟨0, [(1, 5)]⟩, 6), (⟨1, [(4, 6)]⟩, 10)], [1]⟩, 17, 2⟩

def sumDigest : Node Nat Nat Nat → Checksum
  | .leaf pairs => BitVec.ofNat 128 (pairs.foldl (fun n e => n + e.1 + e.2) 0)
  | .branch children keys => children.foldl (fun n c => n + c.2) (BitVec.ofNat 128 keys.length)

theorem sealedPages_agree :
    verifyChecksum sumDigest (sealedPages none) 2 sealedRoot = some true ∧
      readRoot (sealedPages none) sealedRoot =
        readRoot (sealedPages (some (.leaf []))) sealedRoot := by
  have hPass : ∀ other, verifyChecksum sumDigest (sealedPages other) 2 sealedRoot = some true :=
    fun _ => rfl
  refine ⟨hPass none, verified_roots_agree ?_ (hPass none) (hPass _)⟩
  rintro (_ | _ | _ | p) a b hA hB _
  · exact Option.some.inj (hA.symm.trans hB)
  · exact Option.some.inj (hA.symm.trans hB)
  · exact Option.some.inj (hA.symm.trans hB)
  · cases hA

end Verification

variable {P K V K' V' : Type} [DecidableEq P]

-- Finalizing

/-
  The children of a page that is finalized: a child that is uncommitted gets a new checksum, a clean
  one is skipped.
-/
def finalizeChildren {n : Nat}
    (finalize : Tree P K V n → Mem P K V → Except Panic (Tree P K V n × Checksum × Mem P K V)) :
    Children P K V n →
    Mem P K V →
    Except Panic (Children P K V n × Mem P K V)
  | [], mem => return ([], mem)
  | c :: rest, mem =>
    if mem.isUncommitted (page n c.1) then do
      let (child, checksum, mem) ← finalize c.1 mem
      let (rest, mem) ← finalizeChildren finalize rest mem
      return ((child, checksum) :: rest, mem)
    else do
      let (rest, mem) ← finalizeChildren finalize rest mem
      return (c :: rest, mem)

/- `finalize_dirty_checksums_helper`. `digest` is the hash of the used part of a page. -/
def finalizeHelper (digest : Node P K V → Checksum) : (n : Nat) → Tree P K V n → Mem P K V →
    Except Panic (Tree P K V n × Checksum × Mem P K V)
  | 0, leaf, mem => do
    require (mem.isUncommitted (Leaf.page leaf)) .assertion
    return (leaf, digest (.leaf (Leaf.pairs leaf)), mem)
  | n + 1, branch, mem => do
    require (mem.isUncommitted (Branch.page branch)) .assertion
    let (children, mem) ← finalizeChildren (finalizeHelper digest n) (Branch.children branch) mem
    let image := branchImage n children (Branch.keys branch)
    return (⟨Branch.page branch, children, Branch.keys branch⟩, digest image,
      mem.write (Branch.page branch) image)

/- `UntypedBtreeMut::finalize_dirty_checksums`. -/
def finalizeDirtyChecksums
    (digest : Node P K V → Checksum) (root : TreeRoot P K V) (mem : Mem P K V) :
    Except Panic (TreeRoot P K V × Mem P K V) :=
  match root with
  | none => return (none, mem)
  | some r =>
    if mem.isUncommitted (page r.height r.tree) then do
      let (tree, checksum, mem) ← finalizeHelper digest r.height r.tree mem
      return (some ⟨r.height, tree, checksum, r.length⟩, mem)
    else
      return (some r, mem)

/- The leaves that are hashed when a tree is finalized. -/
def dirtyLeaves (uncommitted : Finset P) : (n : Nat) → Tree P K V n → List (List (K × V))
  | 0, leaf => [Leaf.pairs leaf]
  | n + 1, branch =>
    ((Branch.children branch).filter fun c =>
      decide (page n c.1 ∈ uncommitted)).flatMap fun c => dirtyLeaves uncommitted n c.1

/- The same for a root. -/
def rootDirtyLeaves (uncommitted : Finset P) (root : TreeRoot P K V) :
    List (List (K × V)) :=
  match root with
  | none => []
  | some r =>
    if page r.height r.tree ∈ uncommitted then
      dirtyLeaves uncommitted r.height r.tree
    else []

-- Marks

variable {n : Nat}

/- Finalizing writes pages and allocates or frees none. -/
theorem finalizeChildren_marks
    {f : Tree P K V n → Mem P K V → Except Panic (Tree P K V n × Checksum × Mem P K V)}
    (hChild : ∀ {t m t1 checksum m1}, f t m = .ok (t1, checksum, m1) →
        m1.uncommitted = m.uncommitted)
    {children children1 : Children P K V n} {m m1 : Mem P K V}
    (hDone : finalizeChildren f children m = .ok (children1, m1)) :
    m1.uncommitted = m.uncommitted := by
  induction children generalizing children1 m m1 with
  | nil =>
    cases hDone
    rfl
  | cons c rest ih =>
    unfold finalizeChildren at hDone
    split at hDone
    · simp only [bind_eq_ok] at hDone
      rcases hDone with ⟨⟨_, _, _⟩, hFirst, ⟨_, _⟩, hRest, hEq⟩
      cases hEq
      exact (ih hRest).trans (hChild hFirst)
    · simp only [bind_eq_ok] at hDone
      rcases hDone with ⟨⟨_, _⟩, hRest, hEq⟩
      cases hEq
      exact ih hRest

theorem finalizeHelper_marks
    {digest : Node P K V → Checksum} {t t1 : Tree P K V n} {checksum : Checksum} {m m1 : Mem P K V}
    (hDone : finalizeHelper digest n t m = .ok (t1, checksum, m1)) :
    m1.uncommitted = m.uncommitted := by
  induction n generalizing checksum m m1 with
  | zero =>
    unfold finalizeHelper at hDone
    simp only [bind_eq_ok, require_eq_ok] at hDone
    rcases hDone with ⟨_, _, hEq⟩
    cases hEq
    rfl
  | succ n ih =>
    unfold finalizeHelper at hDone
    simp only [bind_eq_ok, require_eq_ok] at hDone
    rcases hDone with ⟨_, _, ⟨_, _⟩, hChildren, hEq⟩
    have hSame := finalizeChildren_marks (f := finalizeHelper digest n)
      (fun hChild => ih hChild) hChildren
    cases hEq
    exact hSame

-- Renaming

variable
    {r : Renaming K V K' V'} {digest : Node P K V → Checksum} {digest' : Node P K' V' → Checksum}

theorem dirtyLeaves_rename (uncommitted : Finset P) (n : Nat) (t : Tree P K V n) :
    dirtyLeaves uncommitted n (r.tree n t) =
      (dirtyLeaves uncommitted n t).map (List.map r.pair) := by
  induction n with
  | zero => rfl
  | succ n ih =>
    have hFilter : (fun c : Tree P K' V' n × Checksum => decide (page n c.1 ∈ uncommitted)) ∘
            r.child (r.tree n) =
          fun c => decide (page n c.1 ∈ uncommitted) := by
      funext c
      simp only [Function.comp, Renaming.child, page_rename]
    simp only [dirtyLeaves, Renaming.tree, branch_children_rename, List.filter_map, hFilter,
      flatMap_map, map_flatMap]
    congr 1
    funext c
    exact ih c.1

theorem rootDirtyLeaves_rename (uncommitted : Finset P) (root : TreeRoot P K V) :
    rootDirtyLeaves uncommitted (root.map r.root) = (rootDirtyLeaves uncommitted root).map
        (List.map r.pair) := by
  cases root with
  | none => rfl
  | some t =>
    simp only [map_some, rootDirtyLeaves, Renaming.root, page_rename, dirtyLeaves_rename]
    split
    · rfl
    · rfl

/-
  Finalizing commutes with a renaming if the hashes do, of the leaves that are hashed and of all
  branches.
-/
theorem finalizeChildren_rename
    {f : Tree P K V n → Mem P K V → Except Panic (Tree P K V n × Checksum × Mem P K V)}
    {g : Tree P K' V' n → Mem P K' V' →
      Except Panic (Tree P K' V' n × Checksum × Mem P K' V')}
    (hMarks : ∀ {t m t1 checksum m1}, f t m = .ok (t1, checksum, m1) →
        m1.uncommitted = m.uncommitted)
    (children : Children P K V n) (m : Mem P K V)
    (hChild : ∀ c ∈ children, page n c.1 ∈ m.uncommitted → ∀ m1 : Mem P K V,
          m1.uncommitted = m.uncommitted → g (r.tree n c.1) (r.mem m1) = (f c.1 m1).map
                (Prod.map (r.tree n) (Prod.map r.checksum r.mem))) :
    finalizeChildren g (children.map (r.child (r.tree n))) (r.mem m) =
      (finalizeChildren f children m).map (Prod.map (List.map (r.child (r.tree n))) r.mem) := by
  suffices hAny : ∀ m1 : Mem P K V, m1.uncommitted = m.uncommitted → finalizeChildren g
            (children.map (r.child (r.tree n))) (r.mem m1) =
          (finalizeChildren f children m1).map (Prod.map (List.map (r.child (r.tree n))) r.mem) from
    hAny m rfl
  induction children with
  | nil =>
    intro m1 _
    rfl
  | cons c rest ih =>
    intro m1 hSame
    have hRest := ih fun d hd => hChild d (mem_cons_of_mem c hd)
    have hMark : (r.mem m1).isUncommitted (page n (r.child (r.tree n) c).1) =
          m1.isUncommitted (page n c.1) := by
      rw [Renaming.child, page_rename]
      rfl
    unfold finalizeChildren
    simp only [map_cons, hMark]
    by_cases hIn : m1.isUncommitted (page n c.1) = true
    · rw [if_pos hIn, if_pos hIn]
      have hUncommitted : page n c.1 ∈ m.uncommitted := hSame ▸ of_decide_eq_true hIn
      have hStep := hChild c mem_cons_self hUncommitted m1 hSame
      simp only [Renaming.child, hStep]
      cases hDone : f c.1 m1 with
      | error => rfl
      | ok result =>
        rcases result with ⟨_, _, m2⟩
        have hNext := hRest m2 ((hMarks hDone).trans hSame)
        simp only [Except.map, Prod.map_apply, bind, Except.bind] at hNext ⊢
        rw [hNext]
        cases finalizeChildren f rest m2 with
        | error => rfl
        | ok => rfl
    · rw [if_neg hIn, if_neg hIn, hRest m1 hSame]
      apply bind_rename
      rintro ⟨_, _⟩
      rfl

theorem finalizeHelper_rename (hBranch : ∀ children keys, digest' (r.node (.branch children keys)) =
        r.checksum (digest (.branch children keys)))
    (n : Nat) (t : Tree P K V n) (m : Mem P K V)
    (hLeaves : ∀ pairs ∈ dirtyLeaves m.uncommitted n t, digest' (r.node (.leaf pairs)) =
        r.checksum (digest (.leaf pairs))) :
    finalizeHelper digest' n (r.tree n t) (r.mem m) = (finalizeHelper digest n t m).map
        (Prod.map (r.tree n) (Prod.map r.checksum r.mem)) := by
  induction n generalizing m with
  | zero =>
    have hLeaf := hLeaves (Leaf.pairs t) mem_cons_self
    simp only [Renaming.node] at hLeaf
    unfold finalizeHelper
    apply require_rename
    simp only [Renaming.tree, leaf_pairs_rename, hLeaf,
      pure, Except.pure, Except.map, Prod.map_apply]
  | succ n ih =>
    have hChildren := finalizeChildren_rename (r := r) (f := finalizeHelper digest n)
        (g := finalizeHelper digest' n) finalizeHelper_marks (Branch.children t) m
        (fun c hc hIn m1 hSame => ih c.1 m1 fun pairs hPairs => hLeaves pairs
              (mem_flatMap.mpr ⟨c, mem_filter.mpr ⟨hc, decide_eq_true hIn⟩,
                  hSame ▸ hPairs⟩))
    unfold finalizeHelper
    apply require_rename
    simp only [Renaming.tree, branch_children_rename, hChildren]
    apply bind_rename
    rintro ⟨_, _⟩
    simp only [Prod.map_apply, branch_keys_rename, branch_page_rename, branchImage_rename,
      write_rename]
    simp only [branchImage, hBranch, pure, Except.pure, Except.map, Prod.map_apply, Renaming.branch]

theorem finalizeDirtyChecksums_rename
    (hBranch : ∀ children keys, digest' (r.node (.branch children keys)) =
        r.checksum (digest (.branch children keys)))
    (root : TreeRoot P K V) (m : Mem P K V)
    (hLeaves : ∀ pairs ∈ rootDirtyLeaves m.uncommitted root,
      digest' (r.node (.leaf pairs)) = r.checksum (digest (.leaf pairs))) :
    finalizeDirtyChecksums digest' (root.map r.root) (r.mem m) =
      (finalizeDirtyChecksums digest root m).map (Prod.map (Option.map r.root) r.mem) := by
  cases root with
  | none => rfl
  | some t =>
    have hMark : (r.mem m).isUncommitted (page t.height (r.tree t.height t.tree)) =
          m.isUncommitted (page t.height t.tree) := by
      rw [page_rename]
      rfl
    simp only [map_some, finalizeDirtyChecksums, Renaming.root, hMark]
    by_cases hIn : m.isUncommitted (page t.height t.tree) = true
    · rw [if_pos hIn, if_pos hIn]
      have hDirty : rootDirtyLeaves m.uncommitted (some t) =
            dirtyLeaves m.uncommitted t.height t.tree :=
        if_pos (of_decide_eq_true hIn)
      rw [finalizeHelper_rename hBranch t.height t.tree m (hDirty ▸ hLeaves)]
      apply bind_rename
      rintro ⟨_, _, _⟩
      rfl
    · rw [if_neg hIn, if_neg hIn]
      rfl

end Redbx
