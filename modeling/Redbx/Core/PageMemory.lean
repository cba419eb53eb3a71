import Mathlib.Data.Finset.Basic
import Mathlib.Data.Multiset.Filter
import Mathlib.Data.Multiset.UnionInter
import Mathlib.Algebra.Order.Group.Multiset

/-
  Copy-on-write page memory.

  A memory holds pages that an earlier transaction committed and pages allocated since. A
  computation that owns the pages `S` and leaves the pages `T` is described by `Turns`: it never
  writes or gives back a committed page, leaves every page outside `S` alone, and queues each page
  it lets go of that is not its own to give back.

  Key theorems include:
    * `Turns.then_free`, `Turns.queued`
-/

namespace Redbx

open Function Multiset

-- Memory

/- Picks a page of a wanted order outside the pages in use. -/
structure PageAllocator (P : Type) [DecidableEq P] where
  order : P → Nat
  pick : Finset P → Nat → P
  pick_fresh : ∀ used wanted, pick used wanted ∉ used
  pick_order : ∀ used wanted, order (pick used wanted) = wanted

theorem disjoint_empty (P : Type) : Disjoint (∅ : Finset P) ∅ := Finset.disjoint_empty_left _

/-
  Pages with their contents; which of them were committed and which were allocated since; and the
  pages queued for freeing.
-/
structure PageMemory (P N : Type) [DecidableEq P] where
  pages : P → Option N
  committed : Finset P
  uncommitted : Finset P
  disjoint : Disjoint committed uncommitted
  freed : List P

namespace PageMemory

variable {P N : Type} [DecidableEq P]

variable (m : PageMemory P N)

/- The pages in use. -/
def allocated : Finset P := m.committed ∪ m.uncommitted

/- The page was allocated since the last commit. -/
def isUncommitted (p : P) : Bool := decide (p ∈ m.uncommitted)

/- Take a free page of the given order and fill it. -/
def allocate (alloc : PageAllocator P) (order : Nat) (node : N) : P × PageMemory P N :=
  let p := alloc.pick m.allocated order
  (p, { m with
      pages := Function.update m.pages p (some node)
      uncommitted := insert p m.uncommitted
      disjoint := by
        have hFresh := alloc.pick_fresh m.allocated order
        rw [Finset.disjoint_insert_right]
        refine ⟨fun hIn => hFresh ?_, m.disjoint⟩
        exact Finset.mem_union_left _ hIn })

/- Overwrite a page in place. -/
def write (p : P) (node : N) : PageMemory P N :=
  { m with pages := Function.update m.pages p (some node) }

/- Give a page back to the allocator. -/
def free (p : P) : PageMemory P N :=
  { m with
    committed := m.committed.erase p
    uncommitted := m.uncommitted.erase p
    disjoint := Disjoint.mono (Finset.erase_subset _ _) (Finset.erase_subset _ _) m.disjoint }

/- Queue a page for freeing. -/
def pushFreed (p : P) : PageMemory P N :=
  { m with freed := m.freed ++ [p] }

/- Count just these of the pages in use as committed. -/
def mark (committed : Finset P) : PageMemory P N :=
  { m with
    committed := m.allocated ∩ committed
    uncommitted := m.allocated \ committed
    disjoint := by
      refine Finset.disjoint_left.mpr fun p hIn hOut => ?_
      exact (Finset.mem_sdiff.mp hOut).2 (Finset.mem_inter.mp hIn).2 }

theorem mark_allocated (committed : Finset P) : (m.mark committed).allocated = m.allocated := by
  change m.allocated ∩ committed ∪ m.allocated \ committed = _
  ext p
  by_cases hIn : p ∈ committed <;> simp [hIn]

/- Let go of a page: give it back when it may be and is uncommitted, queue it otherwise. -/
def conditionalFree (modifyUncommitted : Bool) (p : P) : PageMemory P N :=
  if modifyUncommitted && m.isUncommitted p then
    m.free p
  else
    m.pushFreed p

end PageMemory

-- Ownership

variable {P N : Type} [DecidableEq P]

/- The pages `S` are distinct and in use. -/
def Owns (m : PageMemory P N) (S : Multiset P) : Prop := S.Nodup ∧ ∀ p ∈ S, p ∈ m.allocated

variable {m : PageMemory P N} {S T : Multiset P}

theorem Owns.mono (hOwns : Owns m T) (hLe : S ≤ T) : Owns m S :=
  ⟨nodup_of_le hLe hOwns.1, fun p hp => hOwns.2 p (mem_of_le hLe hp)⟩

theorem Owns.left (hOwns : Owns m (S + T)) : Owns m S := hOwns.mono (Multiset.le_add_right S T)

/- Pages owned side by side are different pages. -/
theorem Owns.not_mem (hOwns : Owns m (S + T)) {p : P} (hT : p ∈ T) : p ∉ S := by
  intro hS
  exact disjoint_left.mp (nodup_add.mp hOwns.1).2.2 hS hT

/-
  From `m` to `m'` the pages `S` were replaced by the pages `R`. Committed pages keep their contents
  and stay in use; the pages of `S` that were committed are still among `R`.
-/
structure Moves (m : PageMemory P N) (S R : Multiset P) (m' : PageMemory P N) : Prop where
  committed_eq : m'.committed = m.committed
  kept : ∀ p ∈ m.committed, m'.pages p = m.pages p
  framed : ∀ p ∈ m.uncommitted, p ∉ S → p ∈ m'.uncommitted ∧ m'.pages p = m.pages p
  exact_uncommitted : ∀ p ∈ m'.uncommitted, p ∈ R ∨ (p ∈ m.uncommitted ∧ p ∉ S)
  fresh : ∀ p ∈ R, p ∈ S ∨ p ∉ m.allocated
  owned : Owns m' R
  ledger : S.filter (· ∈ m.committed) = R.filter (· ∈ m.committed)

namespace Moves

variable {m m' m'' : PageMemory P N} {S T R F : Multiset P}

variable {p : P}

/- Pages in use outside `S` stay in use. -/
theorem allocated_of_not_mem (hMoves : Moves m S R m') (hIn : p ∈ m.allocated) (hNot : p ∉ S) :
    p ∈ m'.allocated := by
  rcases Finset.mem_union.mp hIn with hC | hU
  · exact Finset.mem_union_left _ (hMoves.committed_eq ▸ hC)
  · exact Finset.mem_union_right _ (hMoves.framed p hU hNot).1

/- Pages in use outside `S` keep their contents. -/
theorem pages_eq (hMoves : Moves m S R m') (hIn : p ∈ m.allocated) (hNot : p ∉ S) :
    m'.pages p = m.pages p := by
  rcases Finset.mem_union.mp hIn with hC | hU
  · exact hMoves.kept p hC
  · exact (hMoves.framed p hU hNot).2

/- Nothing but the contents of the pages `S` changes. -/
theorem of_sets (hOwns : Owns m S) (hCommitted : m'.committed = m.committed)
    (hUncommitted : m'.uncommitted = m.uncommitted)
    (hKept : ∀ p ∈ m.committed, m'.pages p = m.pages p)
    (hFramed : ∀ p ∈ m.uncommitted, p ∉ S → m'.pages p = m.pages p) :
    Moves m S S m' where
  committed_eq := hCommitted
  kept := hKept
  framed := fun p hU hNot => ⟨hUncommitted ▸ hU, hFramed p hU hNot⟩
  exact_uncommitted := fun p hU => by
    by_cases hS : p ∈ S
    · exact Or.inl hS
    · exact Or.inr ⟨hUncommitted ▸ hU, hS⟩
  fresh := fun _ hp => Or.inl hp
  owned := by
    refine ⟨hOwns.1, fun p hp => ?_⟩
    have hIn := hOwns.2 p hp
    rw [PageMemory.allocated] at hIn ⊢
    rwa [hCommitted, hUncommitted]
  ledger := rfl

theorem refl (hOwns : Owns m S) : Moves m S S m :=
  of_sets hOwns rfl rfl (fun _ _ => rfl) (fun _ _ _ => rfl)

/- A page of the middle is a page of the start or new. -/
theorem not_mem_of_framed (hMoves : Moves m S T m') (hIn : p ∈ m.allocated) (hNot : p ∉ S) :
    p ∉ T := by
  intro hT
  rcases hMoves.fresh p hT with hS | hFresh
  · exact hNot hS
  · exact hFresh hIn

theorem trans (hFirst : Moves m S T m') (hSecond : Moves m' T R m'') : Moves m S R m'' where
  committed_eq := hSecond.committed_eq.trans hFirst.committed_eq
  kept := fun p hp => by
    rw [hSecond.kept p (hFirst.committed_eq ▸ hp), hFirst.kept p hp]
  framed := fun p hU hS => by
    have hT := hFirst.not_mem_of_framed (Finset.mem_union_right _ hU) hS
    rcases hFirst.framed p hU hS with ⟨hU', hEq⟩
    rcases hSecond.framed p hU' hT with ⟨hU'', hEq'⟩
    exact ⟨hU'', hEq'.trans hEq⟩
  exact_uncommitted := fun p hU => by
    rcases hSecond.exact_uncommitted p hU with hR | ⟨hU', hT⟩
    · exact Or.inl hR
    · rcases hFirst.exact_uncommitted p hU' with hT' | hKeep
      · exact absurd hT' hT
      · exact Or.inr hKeep
  fresh := fun p hR => by
    rcases hSecond.fresh p hR with hT | hNot
    · exact hFirst.fresh p hT
    · by_cases hS : p ∈ S
      · exact Or.inl hS
      · refine Or.inr fun hIn => hNot ?_
        exact hFirst.allocated_of_not_mem hIn hS
  owned := hSecond.owned
  ledger := by
    have hLedger := hSecond.ledger
    rw [hFirst.committed_eq] at hLedger
    rw [hFirst.ledger, hLedger]

/- Pages that are not touched may stand beside. -/
theorem frame (hMoves : Moves m S R m') (hOwns : Owns m (S + F)) :
    Moves m (S + F) (R + F) m' := { hMoves with
  framed := fun p hU hNot => hMoves.framed p hU fun hS => hNot (mem_add.mpr (Or.inl hS))
  exact_uncommitted := fun p hU => by
    rcases hMoves.exact_uncommitted p hU with hR | ⟨hU', hS⟩
    · exact Or.inl (mem_add.mpr (Or.inl hR))
    · by_cases hF : p ∈ F
      · exact Or.inl (mem_add.mpr (Or.inr hF))
      · refine Or.inr ⟨hU', fun hIn => ?_⟩
        rcases mem_add.mp hIn with h | h
        · exact hS h
        · exact hF h
  fresh := fun p hIn => by
    rcases mem_add.mp hIn with hR | hF
    · rcases hMoves.fresh p hR with hS | hNot
      · exact Or.inl (mem_add.mpr (Or.inl hS))
      · exact Or.inr hNot
    · exact Or.inl (mem_add.mpr (Or.inr hF))
  owned := by
    have hIn : ∀ p ∈ F, p ∈ m.allocated := fun p hp => hOwns.2 p (mem_add.mpr (Or.inr hp))
    refine ⟨nodup_add.mpr ⟨hMoves.owned.1, ?_, ?_⟩, ?_⟩
    · exact (nodup_add.mp hOwns.1).2.1
    · refine disjoint_left.mpr fun {p} hR hF => ?_
      exact hMoves.not_mem_of_framed (hIn p hF) (hOwns.not_mem hF) hR
    · intro p hp
      rcases mem_add.mp hp with hR | hF
      · exact hMoves.owned.2 p hR
      · exact hMoves.allocated_of_not_mem (hIn p hF) (hOwns.not_mem hF)
  ledger := by
    rw [filter_add, filter_add, hMoves.ledger] }

end Moves

-- Turns

/-
  From `m` to `m'` the pages `S` became the pages `T`; the pages let go of were given back or
  queued. When uncommitted pages may be given back only committed pages are queued.
-/
def Turns (modifyUncommitted : Bool) (m : PageMemory P N) (S T : Multiset P) (m' : PageMemory P N) :
    Prop :=
  ∃ F : List P, m'.freed = m.freed ++ F ∧ Moves m S (T + (F : Multiset P)) m' ∧
    (modifyUncommitted = true → ∀ p ∈ F, p ∈ m.committed)

namespace Turns

variable {modifyUncommitted : Bool} {m m' m'' : PageMemory P N} {S T R F : Multiset P}

theorem refl (hOwns : Owns m S) : Turns modifyUncommitted m S S m :=
  ⟨[], by simp, by simpa using Moves.refl hOwns, by simp⟩

variable (hTurns : Turns modifyUncommitted m S T m')
include hTurns

theorem owns : Owns m' T := by
  rcases hTurns with ⟨F, _, hMoves, _⟩
  exact hMoves.owned.left

/- Pages in use outside `S` keep their contents. -/
theorem pages_eq {p : P} (hIn : p ∈ m.allocated) (hNot : p ∉ S) : m'.pages p = m.pages p := by
  rcases hTurns with ⟨F, _, hMoves, _⟩
  exact hMoves.pages_eq hIn hNot

/- Uncommitted pages outside `S` stay uncommitted. -/
theorem uncommitted_of_not_mem {p : P} (hIn : p ∈ m.uncommitted) (hNot : p ∉ S) :
    p ∈ m'.uncommitted := by
  rcases hTurns with ⟨F, _, hMoves, _⟩
  exact (hMoves.framed p hIn hNot).1

omit hTurns in
theorem trans
    (hFirst : Turns modifyUncommitted m S T m') (hSecond : Turns modifyUncommitted m' T R m'') :
    Turns modifyUncommitted m S R m'' := by
  rcases hFirst with ⟨F, hFreed, hMoves, hOnly⟩
  rcases hSecond with ⟨F', hFreed', hMoves', hOnly'⟩
  refine ⟨F ++ F', ?_, ?_, ?_⟩
  · rw [hFreed', hFreed, List.append_assoc]
  · have hStep := hMoves.trans (hMoves'.frame hMoves.owned)
    rw [← coe_add]
    rw [add_comm (F : Multiset P), ← add_assoc]
    exact hStep
  · intro hModify p hp
    rcases List.mem_append.mp hp with hF | hF'
    · exact hOnly hModify p hF
    · exact hMoves.committed_eq ▸ hOnly' hModify p hF'

/- Pages that are not touched may stand beside. -/
theorem frame (hOwns : Owns m (S + F)) : Turns modifyUncommitted m (S + F) (T + F) m' := by
  rcases hTurns with ⟨L, hFreed, hMoves, hOnly⟩
  refine ⟨L, hFreed, ?_, hOnly⟩
  rw [add_right_comm]
  exact hMoves.frame hOwns

end Turns

theorem turns_allocate
    (modifyUncommitted : Bool) (m : PageMemory P N) (alloc : PageAllocator P) (order : Nat)
    (node : N) :
    Turns modifyUncommitted m 0 {(m.allocate alloc order node).1}
      (m.allocate alloc order node).2 := by
  have hFresh := alloc.pick_fresh m.allocated order
  have hNe : ∀ p ∈ m.allocated, p ≠ alloc.pick m.allocated order :=
    fun p hp hEq => hFresh (hEq ▸ hp)
  refine ⟨[], by simp [PageMemory.allocate], ?_, by simp⟩
  constructor
  · rfl
  · intro p hp
    exact update_of_ne (hNe p (Finset.mem_union_left _ hp)) _ _
  · intro p hp _
    exact ⟨Finset.mem_insert_of_mem hp, update_of_ne
        (hNe p (Finset.mem_union_right _ hp)) _ _⟩
  · intro p hp
    rcases Finset.mem_insert.mp hp with rfl | hU
    · exact Or.inl (by simp [PageMemory.allocate])
    · exact Or.inr ⟨hU, by simp⟩
  · intro p hp
    have hEq : p = alloc.pick m.allocated order := by simpa [PageMemory.allocate] using hp
    exact Or.inr (hEq ▸ hFresh)
  · refine ⟨by simp, fun p hp => ?_⟩
    have hEq : p = alloc.pick m.allocated order := by simpa [PageMemory.allocate] using hp
    exact Finset.mem_union_right _ (hEq ▸ Finset.mem_insert_self _ _)
  · have hNot : alloc.pick m.allocated order ∉ m.committed :=
      fun hIn => hFresh (Finset.mem_union_left _ hIn)
    simp [PageMemory.allocate, filter_singleton, hNot]

theorem turns_write (modifyUncommitted : Bool) (m : PageMemory P N) (p : P) (node : N)
    (hUncommitted : p ∈ m.uncommitted) :
    Turns modifyUncommitted m {p} {p} (m.write p node) := by
  refine ⟨[], by simp [PageMemory.write], ?_, by simp⟩
  have hNe : ∀ q ∈ m.committed, q ≠ p := fun q hq hEq =>
    Finset.disjoint_left.mp m.disjoint (hEq ▸ hq) hUncommitted
  have hOwns : Owns m {p} := by
    refine ⟨by simp, fun q hq => ?_⟩
    rw [mem_singleton.mp hq]
    exact Finset.mem_union_right _ hUncommitted
  rw [coe_nil, add_zero]
  exact Moves.of_sets hOwns rfl rfl (fun q hq => update_of_ne (hNe q hq) _ _)
    (fun q _ hNot => update_of_ne (by simpa using hNot) _ _)

theorem turns_conditionalFree
    (modifyUncommitted : Bool) (m : PageMemory P N) (p : P) (hIn : p ∈ m.allocated) :
    Turns modifyUncommitted m {p} 0 (m.conditionalFree modifyUncommitted p) := by
  have hOwns : Owns m {p} := by
    refine ⟨by simp, fun q hq => ?_⟩
    rw [mem_singleton.mp hq]
    exact hIn
  unfold PageMemory.conditionalFree
  by_cases hFree : (modifyUncommitted && m.isUncommitted p) = true
  · -- the page is given back to the allocator
    rw [if_pos hFree]
    have hU : p ∈ m.uncommitted := by
      simpa [PageMemory.isUncommitted] using (Bool.and_eq_true_iff.mp hFree).2
    have hNot : p ∉ m.committed := fun hC => Finset.disjoint_left.mp m.disjoint hC hU
    refine ⟨[], by simp [PageMemory.free], ?_, by simp⟩
    constructor
    · exact Finset.erase_eq_of_notMem hNot
    · exact fun _ _ => rfl
    · intro q hq hNe
      exact ⟨Finset.mem_erase.mpr ⟨by simpa using hNe, hq⟩, rfl⟩
    · intro q hq
      rcases Finset.mem_erase.mp hq with ⟨hNe, hIn'⟩
      exact Or.inr ⟨hIn', by simpa using hNe⟩
    · simp
    · exact ⟨by simp, by simp⟩
    · simp [filter_singleton, hNot]
  · -- the page is queued
    rw [if_neg hFree]
    refine ⟨[p], rfl, ?_, ?_⟩
    · rw [zero_add, coe_singleton]
      exact Moves.of_sets hOwns rfl rfl (fun _ _ => rfl) (fun _ _ _ => rfl)
    · intro hModify q hq
      rw [List.mem_singleton.mp hq]
      rcases Finset.mem_union.mp hIn with hC | hU
      · exact hC
      · exact absurd (by simp [hModify, PageMemory.isUncommitted, hU]) hFree

theorem turns_pushFreed
    (modifyUncommitted : Bool) (m : PageMemory P N) (p : P) (hIn : p ∈ m.committed) :
    Turns modifyUncommitted m {p} 0 (m.pushFreed p) := by
  have hNot : m.isUncommitted p = false := decide_eq_false fun hU =>
      Finset.disjoint_left.mp m.disjoint hIn hU
  have hTurns := turns_conditionalFree modifyUncommitted m p (Finset.mem_union_left _ hIn)
  simpa [PageMemory.conditionalFree, hNot] using hTurns

-- Letting Go After a Computation

namespace PageMemory

/- Letting go of a page keeps its contents. -/
theorem conditionalFree_pages (m : PageMemory P N) (modifyUncommitted : Bool) (p : P) :
    (m.conditionalFree modifyUncommitted p).pages = m.pages := by
  unfold conditionalFree
  split <;> rfl

theorem foldl_conditionalFree_pages (m : PageMemory P N) (modifyUncommitted : Bool) (ps : List P) :
    (ps.foldl (fun m p => m.conditionalFree modifyUncommitted p) m).pages = m.pages := by
  induction ps generalizing m with
  | nil => rfl
  | cons p rest ih => rw [List.foldl_cons, ih, conditionalFree_pages]

end PageMemory

namespace Turns

variable {modifyUncommitted : Bool} {m m' : PageMemory P N} {S T : Multiset P}

/- Replace a page, and then let go of it. -/
theorem then_free (hTurns : Turns modifyUncommitted m S T m') {p : P} (hOwns : Owns m (S + {p})) :
    Turns modifyUncommitted m (S + {p}) T (m'.conditionalFree modifyUncommitted p) := by
  have hFrame := hTurns.frame hOwns
  have hIn : p ∈ m'.allocated := hFrame.owns.2 p (mem_add.mpr (Or.inr (mem_singleton_self p)))
  have hOwns' : Owns m' ({p} + T) := add_comm T {p} ▸ hFrame.owns
  have hFree := (turns_conditionalFree modifyUncommitted m' p hIn).frame hOwns'
  rw [zero_add, add_comm] at hFree
  exact hFrame.trans hFree

theorem then_freeAll (hTurns : Turns modifyUncommitted m S T m') (ps : List P)
    (hOwns : Owns m (S + (ps : Multiset P))) :
    Turns modifyUncommitted m (S + (ps : Multiset P)) T (ps.foldl
        (fun m p => m.conditionalFree modifyUncommitted p) m') := by
  induction ps generalizing S m' with
  | nil => simpa using hTurns
  | cons p rest ih =>
    rw [← cons_coe, ← singleton_add, ← add_assoc] at hOwns ⊢
    exact ih (hTurns.then_free hOwns.left) hOwns

end Turns

------------------------------------------------------------
-- Several Owners
------------------------------------------------------------

/- Each owner has its pages in use, and no page has two owners. -/
structure OwnsEach {I : Type} (m : PageMemory P N) (S : I → Multiset P) : Prop where
  owns : ∀ i, Owns m (S i)
  apart : ∀ i j, i ≠ j → Disjoint (S i) (S j)

/- The pages of one owner turn; the others keep theirs, and what is on them. -/
theorem OwnsEach.turns
    {I : Type}
    {i : I}
    {S T : I → Multiset P}
    {modifyUncommitted : Bool}
    {m m' : PageMemory P N}
    (hEach : OwnsEach m S)
    (hTurns : Turns modifyUncommitted m (S i) (T i) m')
    (hOthers : ∀ j, j ≠ i → T j = S j) :
    OwnsEach m' T ∧ ∀ j, j ≠ i → ∀ p ∈ S j, m'.pages p = m.pages p := by
  have hBeside : ∀ j, j ≠ i → Owns m' (T i + S j) := by
    intro j hNe
    have hBoth : Owns m (S i + S j) := by
      refine ⟨nodup_add.mpr ⟨(hEach.owns i).1, (hEach.owns j).1, hEach.apart i j hNe.symm⟩, ?_⟩
      intro p hp
      rcases mem_add.mp hp with hI | hJ
      · exact (hEach.owns i).2 p hI
      · exact (hEach.owns j).2 p hJ
    exact (hTurns.frame hBoth).owns
  refine ⟨⟨?_, ?_⟩, ?_⟩
  · intro j
    by_cases hIs : j = i
    · rw [hIs]
      exact hTurns.owns
    · rw [hOthers j hIs]
      exact (hBeside j hIs).mono (Multiset.le_add_left _ _)
  · intro j k hNe
    by_cases hJ : j = i
    · subst hJ
      rw [hOthers k hNe.symm]
      exact (nodup_add.mp (hBeside k hNe.symm).1).2.2
    · by_cases hK : k = i
      · subst hK
        rw [hOthers j hJ]
        exact (nodup_add.mp (hBeside j hJ).1).2.2.symm
      · rw [hOthers j hJ, hOthers k hK]
        exact hEach.apart j k hNe
  · intro j hNe p hp
    refine hTurns.pages_eq ((hEach.owns j).2 p hp) ?_
    intro hIn
    exact disjoint_left.mp (hEach.apart i j hNe.symm) hIn hp

/-
  Turned pages: what was committed is unchanged, and the queue grows by the committed pages that are
  no longer used.
-/
theorem Turns.queued
    {mem mem' : PageMemory P N} {S T : Multiset P} (hTurns : Turns true mem S T mem') :
    (∀ p ∈ mem.committed, p ∈ mem'.committed ∧ mem'.pages p = mem.pages p) ∧
      ∃ pushed : List P, mem'.freed = mem.freed ++ pushed ∧ pushed.Nodup ∧
        (∀ p ∈ pushed, p ∈ S ∧ p ∈ mem.committed) ∧
        (∀ p ∈ S, p ∈ mem.committed → p ∉ T → p ∈ pushed) ∧
        ∀ p ∈ T, p ∉ pushed := by
  rcases hTurns with ⟨F, hFreed, hMoves, hOnly⟩
  refine ⟨fun p hp => ⟨?_, hMoves.kept p hp⟩, F, hFreed, ?_, ?_, ?_, ?_⟩
  · rwa [hMoves.committed_eq]
  · exact coe_nodup.mp (nodup_add.mp hMoves.owned.1).2.1
  · intro p hp
    have hC := hOnly rfl p hp
    refine ⟨?_, hC⟩
    rcases hMoves.fresh p (mem_add.mpr (Or.inr (mem_coe.mpr hp))) with hS | hNew
    · exact hS
    · exact absurd (Finset.mem_union_left _ hC) hNew
  · intro p hS hC hNot
    -- the ledger: a committed page of `S` is in `T` or queued
    have hIn : p ∈ S.filter (· ∈ mem.committed) := mem_filter.mpr ⟨hS, hC⟩
    rw [hMoves.ledger] at hIn
    rcases mem_add.mp (mem_filter.mp hIn).1 with hT | hF
    · exact absurd hT hNot
    · exact mem_coe.mp hF
  · intro p hT hF
    exact hMoves.owned.not_mem (mem_coe.mpr hF) hT

end Redbx
