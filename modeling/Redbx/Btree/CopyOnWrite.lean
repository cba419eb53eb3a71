import Redbx.Btree.Ledger
import Redbx.Btree.Refinement

/-
  A transaction never touches what was committed.

  The calls of a transaction turn the pages of the old root into the pages of the new one. So every
  committed page keeps its contents, the old root still denotes the old entries, and the queue of
  pages to be freed grows by exactly the committed pages of the old tree that the new tree no longer
  uses.

  Key theorems include:
    * `transaction_keeps_old_tree`
-/

namespace Redbx

open Redbx.Tree Multiset

variable {P K V : Type}

-- Stored Roots

/- The pages below a root. -/
def rootPages (root : TreeRoot P K V) : Multiset P :=
  match root with
  | none => 0
  | some r => pageSet r.height r.tree

/- The entries found from a root page. -/
def readRoot (pages : P → Option (Node P K V)) (root : TreeRoot P K V) :
    Option (List (K × V)) :=
  match root with
  | none => some []
  | some r => readEntries pages r.height (page r.height r.tree)

variable [DecidableEq P]

/- The tree of a root is found in the memory. -/
def RootHolds (mem : Mem P K V) (root : TreeRoot P K V) : Prop :=
  match root with
  | none => True
  | some r => Holds mem r.height r.tree

/- The pages of the root are distinct, in use, and as recorded. -/
structure Stored (state : BtreeState P K V) : Prop where
  owns : Owns state.mem (rootPages state.root)
  holds : RootHolds state.mem state.root

variable {root : TreeRoot P K V}

theorem RootHolds.readRoot_eq {mem : Mem P K V} (hHolds : RootHolds mem root) :
    readRoot mem.pages root = some (rootEntries root) := by
  cases root with
  | none => rfl
  | some r => exact readEntries_of_holds hHolds

variable {mem mem' : Mem P K V}

theorem RootHolds.congr
    (hHolds : RootHolds mem root) (hSame : ∀ p ∈ rootPages root, mem'.pages p = mem.pages p) :
    RootHolds mem' root := by
  cases root with
  | none => trivial
  | some r => exact Holds.congr hHolds hSame

theorem stored_empty : Stored (⟨none, emptyMemory⟩ : BtreeState P K V) :=
  ⟨⟨Multiset.nodup_zero, fun p hp => by simp [rootPages] at hp⟩, trivial⟩

/- Other committed pages change nothing stored. -/
theorem Stored.mark {state : BtreeState P K V} (hStored : Stored state) (committed : Finset P) :
    Stored ⟨state.root, state.mem.mark committed⟩ := by
  refine ⟨⟨hStored.owns.1, fun p hp => ?_⟩, hStored.holds.congr fun _ _ => rfl⟩
  rw [PageMemory.mark_allocated]
  exact hStored.owns.2 p hp

-- Calls

variable [Ord K] (env : BtreeEnv P K V)

variable {key : K} {modify : Bool} {root root' : TreeRoot P K V}

theorem insert_turns
    {value : V} {old : Option V} (hOwns : Owns mem (rootPages root)) (hHolds : RootHolds mem root)
    (hRun : env.insert modify root key value mem = .ok (old, root', mem')) :
    Turns modify mem (rootPages root) (rootPages root') mem' ∧ RootHolds mem' root' := by
  cases root with
  | none =>
    simp only [BtreeEnv.insert, bind_eq_ok] at hRun
    rcases hRun with ⟨⟨_, _⟩, hBuild, hEq⟩
    cases hEq
    exact buildLeaf_turns env modify hBuild
  | some r =>
    simp only [BtreeEnv.insert, bind_eq_ok] at hRun
    rcases hRun with ⟨⟨result, mem1⟩, hInsert, hRest⟩
    rcases insertHelper_turns env modify hOwns hHolds hInsert with ⟨hTurns, hKept⟩
    rcases hNext : result.pieces.next with _ | ⟨k, sibling⟩
    · rw [hNext] at hRest
      cases hRest
      have hOne : result.pieces.children = [result.pieces.first] := by simp [Pieces.children, hNext]
      rw [hOne] at hTurns hKept
      refine ⟨?_, hKept _ List.mem_cons_self⟩
      simpa [rootPages] using hTurns
    · rw [hNext] at hRest
      simp only [bind_eq_ok] at hRest
      rcases hRest with ⟨⟨_, _⟩, hBuild, hEq⟩
      cases hEq
      have hTwo : result.pieces.children = [result.pieces.first, sibling] := by
        simp [Pieces.children, hNext]
      rw [hTwo] at hTurns hKept
      rcases buildBranch_turns env modify hTurns.owns hKept hBuild with ⟨hNew, hBranch⟩
      exact ⟨hTurns.trans hNew, hBranch⟩

omit [Ord K] in
theorem rootAfterDelete_turns
    {n : Nat} {result : DeletionResult P K V n} {length : Nat} (hOwns : Owns mem (leftPages result))
    (hLeft : LeftHolds mem result)
    (hRoot : env.rootAfterDelete length result mem = .ok (root, mem')) :
    Turns modify mem (leftPages result) (rootPages root) mem' ∧ RootHolds mem' root := by
  cases result with
  | subtree =>
    rw [BtreeEnv.rootAfterDelete] at hRoot
    cases hRoot
    exact ⟨Turns.refl hOwns, hLeft⟩
  | deletedLeaf =>
    cases hRoot
    exact ⟨Turns.refl hOwns, trivial⟩
  | partialLeaf =>
    simp only [BtreeEnv.rootAfterDelete, bind_eq_ok, require_eq_ok] at hRoot
    rcases hRoot with ⟨⟨_, _⟩, hBuild, _, _, hEq⟩
    cases hEq
    exact buildLeaf_turns env modify hBuild
  | partialBranch | deletedBranch =>
    cases hRoot
    exact ⟨Turns.refl hOwns, hLeft⟩

theorem remove_turns
    {old : Option V} (hOwns : Owns mem (rootPages root)) (hHolds : RootHolds mem root)
    (hRun : env.remove modify root key mem = .ok (old, root', mem')) :
    Turns modify mem (rootPages root) (rootPages root') mem' ∧ RootHolds mem' root' := by
  cases root with
  | none =>
    cases hRun
    exact ⟨Turns.refl hOwns, trivial⟩
  | some r =>
    simp only [BtreeEnv.remove, bind_eq_ok] at hRun
    rcases hRun with ⟨⟨_, _, _⟩, hDelete, ⟨_, _⟩, hRoot, hEq⟩
    cases hEq
    rcases deleteHelper_turns env modify hOwns hHolds hDelete with ⟨hTurns, hLeft, _⟩
    rcases rootAfterDelete_turns env hTurns.owns hLeft hRoot with ⟨hLast, hNew⟩
    exact ⟨hTurns.trans hLast, hNew⟩

theorem getMut_turns (modify : Bool) {r r' : BtreeRoot P K V} {found : Bool}
    (hOwns : Owns mem (rootPages (some r))) (hHolds : RootHolds mem (some r))
    (hRun : env.getMut r key mem = .ok (r', found, mem')) :
    Turns modify mem (rootPages (some r)) (rootPages (some r')) mem' ∧ RootHolds mem' (some r') ∧
      PathOwned mem' r'.height r'.tree key ∧
      LeafCopies env mem mem' := by
  simp only [BtreeEnv.getMut, bind_eq_ok] at hRun
  rcases hRun with ⟨⟨_, _, _⟩, hHelper, hEq⟩
  cases hEq
  rcases ownPage_turns env modify r.checksum hOwns
    hHolds with ⟨hOwn, hOwnHolds, hOwnPage, hCopies, _⟩
  rcases getMutHelper_turns env modify hOwn.owns hOwnHolds hOwnPage hHelper with
    ⟨hTurns, hNew, _, hPath, hMore⟩
  exact ⟨hOwn.trans hTurns, hNew, hPath, hCopies.trans hMore⟩

theorem guardInserts_turns
    {r r' : BtreeRoot P K V} {values : List V} (hOwns : Owns mem (rootPages (some r)))
    (hHolds : RootHolds mem (some r)) (hPath : PathOwned mem r.height r.tree key)
    (hRun : env.guardInserts key values r mem = .ok (r', mem')) :
    Turns true mem (rootPages (some r)) (rootPages (some r')) mem' ∧ RootHolds mem' (some r') := by
  induction values generalizing r mem with
  | nil =>
    cases hRun
    exact ⟨Turns.refl hOwns, hHolds⟩
  | cons _ _ ih =>
    simp only [BtreeEnv.guardInserts, BtreeEnv.guardInsert, bind_eq_ok] at hRun
    rcases hRun with ⟨⟨_, _⟩, ⟨⟨t1, moved, _⟩, hHelper, hEq⟩, hRest⟩
    cases hEq
    rcases guardHelper_turns env hOwns hHolds hPath hHelper with ⟨hTurns, hNew, _, hNewPath⟩
    rcases ih (r := ⟨r.height, t1, if moved then deferred else r.checksum, r.length⟩)
      hTurns.owns hNew hNewPath hRest with ⟨hLast, hFinal⟩
    exact ⟨hTurns.trans hLast, hFinal⟩

variable {state state' : BtreeState P K V}

theorem call_turns {c : Call K V} {reply : Reply K V} (hStored : Stored state)
    (hRun : env.call state c = .ok (reply, state')) :
    Turns true state.mem (rootPages state.root) (rootPages state'.root) state'.mem ∧
      Stored state' := by
  have hStep : Turns true state.mem (rootPages state.root) (rootPages state'.root) state'.mem ∧
        RootHolds state'.mem state'.root := by
    cases env.call_ok hRun with
    | kept _ => exact ⟨Turns.refl hStored.owns, hStored.holds⟩
    | inserted _ _ _ _ _ _ _ hInsert => exact insert_turns env hStored.owns hStored.holds hInsert
    | removed _ _ _ _ hRemove => exact remove_turns env hStored.owns hStored.holds hRemove
    | missed _ _ r _ _ hRoot hGuard =>
      rcases state with ⟨_, _⟩
      cases hRoot
      rcases getMut_turns env true hStored.owns hStored.holds hGuard with ⟨hTurns, hHolds, _⟩
      exact ⟨hTurns, hHolds⟩
    | written _ _ r _ _ _ _ hRoot hGuard hWrites =>
      rcases state with ⟨_, _⟩
      cases hRoot
      rcases getMut_turns env true hStored.owns hStored.holds hGuard with ⟨hTurns, hHolds, hPath, _⟩
      rcases guardInserts_turns env hTurns.owns hHolds hPath hWrites with ⟨hLast, hFinal⟩
      exact ⟨hTurns.trans hLast, hFinal⟩
  exact ⟨hStep.1, hStep.1.owns, hStep.2⟩

theorem removeEach_turns
    {keys : List K} (hOwns : Owns mem (rootPages root)) (hHolds : RootHolds mem root)
    (hRun : env.removeEach keys root mem = .ok (root', mem')) :
    Turns false mem (rootPages root) (rootPages root') mem' ∧ RootHolds mem' root' := by
  induction keys generalizing root mem with
  | nil =>
    cases hRun
    exact ⟨Turns.refl hOwns, hHolds⟩
  | cons _ _ ih =>
    simp only [BtreeEnv.removeEach, bind_eq_ok, require_eq_ok] at hRun
    rcases hRun with ⟨⟨_, _, _⟩, hRemove, _, _, hRest⟩
    rcases remove_turns env hOwns hHolds hRemove with ⟨hTurns, hMid⟩
    rcases ih hTurns.owns hMid hRest with ⟨hMore, hFinal⟩
    exact ⟨hTurns.trans hMore, hFinal⟩

omit [Ord K] in
theorem releaseFreed_turns {S T : Multiset P} (hTurns : Turns false mem S T mem') :
    Turns true mem S T (BtreeEnv.releaseFreed mem.freed.length mem') ∧
      (BtreeEnv.releaseFreed mem.freed.length mem').pages = mem'.pages := by
  rcases hTurns with ⟨F, hFreed, hMoves, _⟩
  have hDrop : mem'.freed.drop mem.freed.length = F := by rw [hFreed, List.drop_left]
  have hTake : mem'.freed.take mem.freed.length = mem.freed := by rw [hFreed, List.take_left]
  unfold BtreeEnv.releaseFreed
  rw [hDrop, hTake]
  refine ⟨?_, PageMemory.foldl_conditionalFree_pages _ _ _⟩
  -- first the queue is cut back, then its end is let go of
  have hCut : Turns true mem S (T + (F : Multiset P)) { mem' with freed := mem.freed } := by
    refine ⟨[], (List.append_nil _).symm, ?_, by simp⟩
    rw [coe_nil, add_zero]
    exact { hMoves with }
  exact hCut.trans ((Turns.refl hCut.owns.left).then_freeAll F hCut.owns)

theorem tableCall_turns
    {c : TableCall K V} (hStored : Stored state) (hRun : env.tableCall state c = .ok state') :
    Turns true state.mem (rootPages state.root) (rootPages state'.root) state'.mem ∧
      Stored state' := by
  rcases env.tableCall_ok hRun with ⟨_, _, _, hCall⟩ | ⟨_, hRemoved⟩
  · exact call_turns env hStored hCall
  · simp only [BtreeEnv.removeIterating, bind_eq_ok] at hRemoved
    rcases hRemoved with ⟨⟨_, _⟩, hEach, hEq⟩
    rcases removeEach_turns env hStored.owns hStored.holds hEach with ⟨hTurns, hHolds⟩
    rcases releaseFreed_turns hTurns with ⟨hAll, hPages⟩
    rcases state' with ⟨_, _⟩
    cases hEq
    exact ⟨hAll, hAll.owns, hHolds.congr fun p _ => congrFun hPages p⟩

-- Transactions

theorem transaction_turns
    {calls : List (Call K V)} {replies : List (Reply K V)} (hStored : Stored state)
    (hRun : env.transaction calls state = .ok (replies, state')) :
    Turns true state.mem (rootPages state.root) (rootPages state'.root) state'.mem ∧
      Stored state' := by
  induction calls generalizing state replies with
  | nil =>
    cases hRun
    exact ⟨Turns.refl hStored.owns, hStored⟩
  | cons c rest ih =>
    simp only [BtreeEnv.transaction, bind_eq_ok] at hRun
    rcases hRun with ⟨⟨_, _⟩, hCall, ⟨_, _⟩, hRest, hEq⟩
    cases hEq
    rcases call_turns env hStored hCall with ⟨hFirst, hMid⟩
    rcases ih hMid hRest with ⟨hLast, hFinal⟩
    exact ⟨hFirst.trans hLast, hFinal⟩

/-
  A transaction on a committed tree: no committed page is modified, so the old root still denotes
  the old entries; every page of the old tree that the new root does not reach is queued exactly
  once, and no page that it reaches.
-/
theorem transaction_keeps_old_tree
    {calls : List (Call K V)} {state state' : BtreeState P K V} {replies : List (Reply K V)}
    (hStored : Stored state) (hCommitted : ∀ p ∈ rootPages state.root, p ∈ state.mem.committed)
    (hRun : env.transaction calls state = .ok (replies, state')) :
    (∀ p ∈ state.mem.committed, p ∈ state'.mem.committed ∧ state'.mem.pages p = state.mem.pages p) ∧
      readRoot state'.mem.pages state.root = some (rootEntries state.root) ∧
      readRoot state'.mem.pages state'.root = some (rootEntries state'.root) ∧
      ∃ pushed : List P, state'.mem.freed = state.mem.freed ++ pushed ∧ pushed.Nodup ∧
        (∀ p ∈ rootPages state.root, p ∉ rootPages state'.root → p ∈ pushed) ∧
        (∀ p ∈ pushed, p ∈ rootPages state.root) ∧
        ∀ p ∈ rootPages state'.root, p ∉ pushed := by
  rcases transaction_turns env hStored hRun with ⟨hTurns, hFinal⟩
  rcases hTurns.queued with ⟨hKeep, pushed, hFreed, hOnce, hOnly, hAll, hNever⟩
  refine ⟨hKeep, ?_, hFinal.holds.readRoot_eq, pushed, hFreed,
    hOnce, fun p hp => hAll p hp (hCommitted p hp),
    fun p hp => (hOnly p hp).1, hNever⟩
  refine RootHolds.readRoot_eq (hStored.holds.congr ?_)
  exact fun p hp => (hKeep p (hCommitted p hp)).2

/- A committed leaf with one pair, in a memory of one page. -/
def committedLeaf : BtreeState (Nat × Nat) Nat Nat where
  root := some ⟨0, (⟨(0, 1), [(1, 5)]⟩ : Leaf _ _ _), 7, 1⟩
  mem :=
    { pages := fun p => if p = (0, 1) then some (.leaf [(1, 5)]) else none
      committed := {(0, 1)}
      uncommitted := ∅
      disjoint := Finset.disjoint_empty_right _
      freed := [] }

theorem committedLeaf_stored : Stored committedLeaf where
  owns := by
    refine ⟨nodup_singleton _, fun p hp => ?_⟩
    rw [mem_singleton.mp hp]
    decide
  holds := rfl

/- The only pair is removed: its page is queued, once. -/
theorem removal_queues_committed_leaf :
    ∃ state', natEnv.transaction [.remove 1, .get 1] committedLeaf =
        .ok ([.value (some 5), .value none], state') ∧
      state'.root = none ∧
      readRoot state'.mem.pages committedLeaf.root = some [(1, 5)] ∧
      (0, 1) ∈ state'.mem.freed ∧
      state'.mem.freed.Nodup := by
  have hRun : natEnv.transaction [.remove 1, .get 1] committedLeaf =
        .ok ([.value (some 5), .value none], ⟨none, committedLeaf.mem.pushFreed (0, 1)⟩) := rfl
  rcases transaction_keeps_old_tree natEnv committedLeaf_stored (by decide) hRun with
    ⟨_, hOld, _, _, hFreed, hOnce, hAll, _⟩
  refine ⟨_, hRun, rfl, hOld, ?_, ?_⟩
  · rw [hFreed]
    exact hAll (0, 1) (mem_singleton_self _) (by simp [rootPages])
  · rw [hFreed]
    exact hOnce

end Redbx
