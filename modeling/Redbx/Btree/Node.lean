import Redbx.PageStore.Base
import Redbx.Core.PageMemory

/-
  B-trees over a page memory.

  `Tree n` is a tree of height `n` as it is found by following page numbers: a leaf page with its
  pairs, or a branch page with its separator keys and, for each child, the child tree and the
  checksum recorded for it. A page handle of the source is modelled by the subtree that the page
  roots; `Tree.Holds` says that the memory stores exactly the pages of the tree.

  Key theorems include:
    * `Tree.Holds.congr`, `readEntries_of_holds`
-/

namespace Redbx

open Multiset

-- Trees

/- `DEFERRED`, recorded until a checksum is computed. -/
def deferred : Checksum := 999

/- A leaf page with its pairs. -/
structure Leaf (P K V : Type) where
  page : P
  pairs : List (K × V)

/- A branch page; `C` stands for its children. -/
structure Branch (P K C : Type) where
  page : P
  children : List (C × Checksum)
  keys : List K

/- Trees of a given height. -/
@[reducible]
def Tree (P K V : Type) : Nat → Type
  | 0 => Leaf P K V
  | n + 1 => Branch P K (Tree P K V n)

/- The children of a branch over trees of height `n`. -/
abbrev Children (P K V : Type) (n : Nat) := List (Tree P K V n × Checksum)

/- The contents of one page. -/
inductive Node (P K V : Type) where
  | leaf (pairs : List (K × V))
  | branch (children : List (P × Checksum)) (keys : List K)

/- The page memory of B-tree pages. -/
abbrev Mem (P K V : Type) [DecidableEq P] := PageMemory P (Node P K V)

theorem Mem.marks_disjoint {P K V : Type} [DecidableEq P] (m : Mem P K V) :
    Disjoint m.committed m.uncommitted := m.disjoint

namespace Tree

variable {P K V : Type}

/- The number of the root page. -/
def page : (n : Nat) → Tree P K V n → P
  | 0, leaf => Leaf.page leaf
  | _ + 1, branch => Branch.page branch

/- The contents of a branch page. -/
def branchImage (n : Nat) (children : Children P K V n) (keys : List K) :
    Node P K V :=
  .branch (children.map fun c => (page n c.1, c.2)) keys

/- The contents of the root page. -/
def image : (n : Nat) → Tree P K V n → Node P K V
  | 0, leaf => .leaf (Leaf.pairs leaf)
  | n + 1, branch =>
    branchImage n (Branch.children branch) (Branch.keys branch)

/- The entries of the tree, from left to right. -/
def entries : (n : Nat) → Tree P K V n → List (K × V)
  | 0, leaf => Leaf.pairs leaf
  | n + 1, branch =>
    (Branch.children branch).flatMap fun c => entries n c.1

/- The pages of a list of children. -/
def childPages {C : Type} (pagesOf : C → Multiset P) (children : List (C × Checksum)) :
    Multiset P :=
  (children.map fun c => pagesOf c.1).sum

/- All pages of the tree, with multiplicity. -/
def pageSet : (n : Nat) → Tree P K V n → Multiset P
  | 0, leaf => {Leaf.page leaf}
  | n + 1, branch =>
    {Branch.page branch} + childPages (pageSet n) (Branch.children branch)

/- The children of a branch in the memory are as recorded. -/
def Holds [DecidableEq P] (mem : Mem P K V) : (n : Nat) → Tree P K V n → Prop
  | 0, leaf =>
    mem.pages (Leaf.page leaf) = some (.leaf (Leaf.pairs leaf))
  | n + 1, branch =>
    mem.pages (Branch.page branch) = some (branchImage n (Branch.children branch)
          (Branch.keys branch)) ∧
      ∀ c ∈ Branch.children branch, Holds mem n c.1

end Tree

-- Reading a Tree from Memory

variable {P K V : Type}

/- The entries found by following page numbers from a page at the given height. -/
def readEntries (pages : P → Option (Node P K V)) : Nat → P → Option (List (K × V))
  | 0, p =>
    match pages p with
    | some (.leaf pairs) => some pairs
    | _ => none
  | n + 1, p =>
    match pages p with
    | some (.branch children _) =>
      (children.mapM fun c => readEntries pages n c.1).map List.flatten
    | _ => none

namespace Tree

variable {n : Nat}

theorem childPages_le {children : Children P K V n} {c : Tree P K V n × Checksum}
    (hMem : c ∈ children) :
    pageSet n c.1 ≤ childPages (pageSet n) children := by
  induction children with
  | nil => simp at hMem
  | cons d rest ih =>
    rcases List.mem_cons.mp hMem with rfl | hRest
    · exact Multiset.le_add_right _ _
    · exact le_trans (ih hRest) (Multiset.le_add_left _ _)

theorem page_mem_pageSet (n : Nat) (t : Tree P K V n) : page n t ∈ pageSet n t := by
  cases n with
  | zero => exact mem_singleton_self _
  | succ n => exact mem_add.mpr (Or.inl (mem_singleton_self _))

variable [DecidableEq P]

variable {t : Tree P K V n}

/- Whether a tree is stored depends on its own pages only. -/
theorem Holds.congr {mem mem' : Mem P K V} (hHolds : Holds mem n t)
    (hSame : ∀ p ∈ pageSet n t, mem'.pages p = mem.pages p) :
    Holds mem' n t := by
  induction n with
  | zero => exact (hSame _ (mem_singleton_self _)).trans hHolds
  | succ n ih =>
    refine ⟨?_, ?_⟩
    · exact (hSame _ (page_mem_pageSet (n + 1) t)).trans hHolds.1
    · intro c hc
      refine ih (hHolds.2 c hc) ?_
      intro p hp
      refine hSame p (mem_add.mpr (Or.inr ?_))
      exact mem_of_le (childPages_le hc) hp

theorem Holds.pages_page {mem : Mem P K V} (hHolds : Holds mem n t) :
    mem.pages (page n t) = some (image n t) := by
  cases n with
  | zero => exact hHolds
  | succ n => exact hHolds.1

/- A stored tree is what its root page denotes. -/
theorem readEntries_of_holds {mem : Mem P K V} (hHolds : Holds mem n t) :
    readEntries mem.pages n (page n t) = some (entries n t) := by
  induction n with
  | zero =>
    have hPage : mem.pages (Leaf.page t) = some (.leaf (Leaf.pairs t)) := hHolds
    simp [readEntries, page, hPage, entries]
  | succ n ih =>
    have hPage : mem.pages (Branch.page t) = some (branchImage n (Branch.children t)
          (Branch.keys t)) := hHolds.1
    have hChildren : ∀ children : Children P K V n,
          (∀ c ∈ children, Holds mem n c.1) →
          (children.map fun c => (page n c.1, c.2)).mapM (fun c => readEntries mem.pages n c.1) =
            some (children.map fun c => entries n c.1) := by
      intro children hAll
      induction children with
      | nil => rfl
      | cons c rest ihRest =>
        have hHead := ih (hAll c List.mem_cons_self)
        have hRest := ihRest fun d hd => hAll d (List.mem_cons_of_mem _ hd)
        simp [List.mapM_cons, hHead, hRest]
    change (match mem.pages (Branch.page t) with
      | some (.branch children _) => _
      | _ => none) = _
    rw [hPage]
    change Option.map _ (List.mapM _ _) = _
    rw [hChildren _ hHolds.2]
    rfl

end Tree

end Redbx
