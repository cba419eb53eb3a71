import Redbx.Btree.Changes
import Redbx.Btree.LeafCapacity

/-
  The counts and offsets of the leaves along a run.

  A leaf stores its number of entries in 16 bits, and where its keys and values end in 32. Whatever
  is built or written in place is checked against both, and a removal in place only makes a leaf
  smaller, so no leaf in the memory ever exceeds them. The check is a panic, however. Calls for
  which the tree has room do not panic; a value written through a guard is not split off, so two
  large ones in a leaf do.

  Key theorems include:
    * `tableCall_returns`, `offsets_fit_along_run`
-/

namespace Redbx

open Redbx.Tree List

-- Parts of a Leaf

namespace Format

variable {K V : Type} (fmt : Format K V)

theorem keysEnd_cons (p : K × V) (pairs : List (K × V)) :
    fmt.keysEnd (p :: pairs) = fmt.keysEnd pairs + fmt.pointerBytes + fmt.keyLen p.1 := by
  simp only [keysEnd, keyBytes, map_cons, sum_cons, length_cons, Nat.mul_add, Nat.mul_one]
  omega

/- The keys of a part of a leaf end no later. -/
theorem keysEnd_le_of_sublist {a b : List (K × V)} (hSub : a.Sublist b) :
    fmt.keysEnd a ≤ fmt.keysEnd b := by
  induction hSub with
  | slnil => exact Nat.le_refl _
  | cons p _ ih =>
    rw [keysEnd_cons]
    omega
  | cons_cons p _ ih =>
    rw [keysEnd_cons, keysEnd_cons]
    omega

theorem offsetsFit_of_sublist
    {a b : List (K × V)} (hSub : a.Sublist b) (hFits : fmt.offsetsFit b = true) :
    fmt.offsetsFit a = true := by
  have hLength := hSub.length_le
  have hKeys := fmt.keysEnd_le_of_sublist hSub
  have hBytes := fmt.leafBytes_le_of_sublist hSub
  simp only [offsetsFit, Bool.and_eq_true, Bool.or_eq_true, decide_eq_true_eq] at hFits ⊢
  rcases hFits with ⟨⟨hCount, hKeyOffsets⟩, hValueOffsets⟩
  refine ⟨⟨by omega, ?_⟩, ?_⟩
  · exact hKeyOffsets.imp_right fun hLess => by omega
  · exact hValueOffsets.imp_right fun hLess => by omega

end Format

-- Leaves in the Memory

variable {P K V : Type} [DecidableEq P] {env : BtreeEnv P K V}

/- The count and the offsets of every leaf fit. -/
def OffsetsFit (env : BtreeEnv P K V) (mem : Mem P K V) : Prop :=
  ∀ p pairs, mem.pages p = some (.leaf pairs) → env.fmt.offsetsFit pairs = true

namespace OffsetsFit

variable {mem mem' : Mem P K V} (hFit : OffsetsFit env mem)
include hFit

theorem of_pages (hPages : mem'.pages = mem.pages) : OffsetsFit env mem' := by
  intro p pairs hPage
  rw [hPages] at hPage
  exact hFit p pairs hPage

theorem update {q : P} {node : Node P K V}
    (hPages : mem'.pages = Function.update mem.pages q (some node))
    (hNode : ∀ pairs, node = .leaf pairs → env.fmt.offsetsFit pairs = true) :
    OffsetsFit env mem' := by
  intro p pairs hPage
  rw [hPages] at hPage
  by_cases hSame : p = q
  · rw [hSame, Function.update_self] at hPage
    cases hPage
    exact hNode pairs rfl
  · rw [Function.update_of_ne hSame] at hPage
    exact hFit p pairs hPage

theorem write_leaf {pairs : List (K × V)} (p : P)
    (hFits : env.fmt.offsetsFit pairs = true) :
    OffsetsFit env (mem.write p (.leaf pairs)) :=
  hFit.update rfl fun _ hEq => by cases hEq; exact hFits

theorem write_branch {n : Nat} (p : P)
    (children : Children P K V n) (keys : List K) :
    OffsetsFit env (mem.write p (branchImage n children keys)) :=
  hFit.update rfl fun _ hEq => by cases hEq

theorem buildLeaf {pairs : List (K × V)} {leaf : Leaf P K V}
    (hBuild : env.buildLeaf pairs mem = .ok (leaf, mem')) :
    OffsetsFit env mem' := by
  rcases env.buildLeaf_ok hBuild with ⟨hFits, _, hAlloc⟩
  have hMem := congrArg Prod.snd hAlloc
  change mem' = _ at hMem
  refine hFit.update (congrArg PageMemory.pages hMem) ?_
  intro pairs' hEq
  cases hEq
  simp only [Format.leafEncodable, Bool.and_eq_true] at hFits
  exact hFits.1.2

theorem of_copies (hCopies : LeafCopies env mem mem') : OffsetsFit env mem' := by
  intro p pairs hPage
  rcases hCopies p pairs hPage with ⟨q, hOld, _⟩
  exact hFit q pairs hOld

end OffsetsFit

/- Every change keeps the offsets within their limits. -/
theorem Change.offsetsFit {modify : Bool} {mem mem' : Mem P K V}
    (hChange : Change env modify mem mem') (hFit : OffsetsFit env mem) :
    OffsetsFit env mem' := by
  cases hChange with
  | leafBuilt _ _ _ _ hBuild => exact hFit.buildLeaf hBuild
  | branchBuilt _ _ _ _ _ hBuild =>
    have hMem := congrArg Prod.snd (env.buildBranch_ok hBuild).2.2.2.2
    change mem' = _ at hMem
    exact hFit.update (congrArg PageMemory.pages hMem) fun _ hEq => by cases hEq
  | letGo p => exact hFit.of_pages (PageMemory.conditionalFree_pages _ _ _)
  | leafCut p old _ _ _ hPage hPairs =>
    exact hFit.write_leaf p (env.fmt.offsetsFit_of_sublist hPairs (hFit p old hPage))
  | leafWritten p _ _ _ hFits => exact hFit.write_leaf p hFits
  | branchWritten p children keys _ _ => exact hFit.write_branch p children keys

theorem Changes.offsetsFit {modify : Bool} {mem mem' : Mem P K V}
    (hChanges : Changes env modify mem mem') (hFit : OffsetsFit env mem) :
    OffsetsFit env mem' :=
  hChanges.keeps (fun _ _ hChange => hChange.offsetsFit) hFit

-- Calls

section Calls

variable [Ord K]

theorem guardHelper_offsetsFit
    {n : Nat} {t t' : Tree P K V n} {key : K} {value : V} {mem mem' : Mem P K V} {moved : Bool}
    (hFit : OffsetsFit env mem) (hRun : env.guardHelper n t key value mem = .ok (t', moved, mem')) :
    OffsetsFit env mem' := by
  induction n generalizing mem' moved with
  | zero =>
    simp only [BtreeEnv.guardHelper] at hRun
    split at hRun
    · simp only [bind_eq_ok, require_eq_ok, Format.insertEncodable, Bool.and_eq_true] at hRun
      rcases hRun with ⟨_, hFits, hEq⟩
      cases hEq
      exact hFit.write_leaf _ hFits.1
    · simp only [bind_eq_ok, require_eq_ok] at hRun
      rcases hRun with ⟨⟨_, _⟩, hBuild, _, _, hEq⟩
      cases hEq
      exact (hFit.buildLeaf hBuild).of_pages rfl
  | succ n ih =>
    simp only [BtreeEnv.guardHelper, bind_eq_ok, unwrap_eq_ok] at hRun
    rcases hRun with ⟨_, hChild, ⟨_, moved', _⟩, hSub, hRest⟩
    have hMid := ih hSub
    cases moved' with
    | true =>
      cases hRest
      exact hMid.write_branch _ _ _
    | false =>
      cases hRest
      exact hMid

theorem guardInserts_offsetsFit
    {key : K} {values : List V} {r r' : BtreeRoot P K V} {mem mem' : Mem P K V}
    (hFit : OffsetsFit env mem) (hRun : env.guardInserts key values r mem = .ok (r', mem')) :
    OffsetsFit env mem' := by
  induction values generalizing r mem with
  | nil =>
    cases hRun
    exact hFit
  | cons _ _ ih =>
    simp only [BtreeEnv.guardInserts, BtreeEnv.guardInsert, bind_eq_ok] at hRun
    rcases hRun with ⟨⟨_, _⟩, ⟨⟨_, _, _⟩, hHelper, hEq⟩, hRest⟩
    cases hEq
    exact ih (guardHelper_offsetsFit hFit hHelper) hRest

theorem call_offsetsFit {state state' : BtreeState P K V} {c : Call K V} {reply : Reply K V}
    (hFit : OffsetsFit env state.mem) (hStored : Stored state)
    (hRun : env.call state c = .ok (reply, state')) :
    OffsetsFit env state'.mem := by
  cases env.call_ok hRun with
  | kept _ => exact hFit
  | inserted _ _ _ _ _ _ _ hInsert => exact (insert_changes hInsert).offsetsFit hFit
  | removed _ _ _ _ hRemove => exact (remove_changes hStored.holds hRemove).offsetsFit hFit
  | missed _ _ r _ _ hRoot hGuard =>
    rcases state with ⟨_, _⟩
    cases hRoot
    exact hFit.of_copies (getMut_turns env true hStored.owns hStored.holds hGuard).2.2.2
  | written _ _ _ _ _ _ _ hRoot hGuard hWrites =>
    rcases state with ⟨_, _⟩
    cases hRoot
    have hMid := hFit.of_copies (getMut_turns env true hStored.owns hStored.holds hGuard).2.2.2
    exact guardInserts_offsetsFit hMid hWrites

/- Every call that returns keeps the offsets within limits. -/
theorem tableCall_offsetsFit
    {state state' : BtreeState P K V} {c : TableCall K V} (hFit : OffsetsFit env state.mem)
    (hStored : Stored state) (hRun : env.tableCall state c = .ok state') :
    OffsetsFit env state'.mem := by
  rcases env.tableCall_ok hRun with ⟨_, _, _, hCall⟩ | ⟨_, hRemoved⟩
  · exact call_offsetsFit hFit hStored hCall
  · simp only [BtreeEnv.removeIterating, bind_eq_ok] at hRemoved
    rcases hRemoved with ⟨⟨_, _⟩, hEach, hEq⟩
    rcases removeEach_turns env hStored.owns hStored.holds hEach with ⟨hTurns, _⟩
    have hMid := (removeEach_changes hStored.owns hStored.holds hEach).offsetsFit hFit
    rcases state' with ⟨_, _⟩
    cases hEq
    exact hMid.of_pages (releaseFreed_turns hTurns).2

end Calls

-- Room for Every Call

section Rooms

variable [LinearOrder K]

/- The tree has room for the call. -/
def RoomyTableCall (env : BtreeEnv P K V) (state : BtreeState P K V) : TableCall K V → Prop
  | .call c => env.Roomy state.root c
  | .retain inRange predicate =>
    env.RoomyRemoves (((rootEntries state.root).filter fun e =>
        inRange e.1 && !predicate e.1 e.2).map Prod.fst)
      state.root state.mem
  | .extractIf inRange predicate sides =>
    env.RoomyRemoves (takeSides sides (((rootEntries state.root).filter
        fun e => inRange e.1 && predicate e.1 e.2).map Prod.fst))
      state.root state.mem

/- Before every call the tree has room for it. -/
def RoomyTableRun (env : BtreeEnv P K V) : List (TableEvent P K V) → BtreeState P K V → Prop
  | [], _ => True
  | event :: rest, state =>
    (∀ c, event = .call c → RoomyTableCall env state c) ∧
      ∀ state', env.tableStep state event = .ok state' → RoomyTableRun env rest state'

omit [LinearOrder K] in
theorem takeSides_nodup (sides : List Side) {keys : List K} (hNodup : keys.Nodup) :
    (takeSides sides keys).Nodup ∧ ∀ key ∈ takeSides sides keys, key ∈ keys := by
  induction sides generalizing keys with
  | nil => exact ⟨nodup_nil, fun _ hIn => by cases hIn⟩
  | cons side sides ih =>
    cases side with
    | front =>
      cases keys with
      | nil => exact ih hNodup
      | cons key rest =>
        rcases nodup_cons.mp hNodup with ⟨hNotIn, hRest⟩
        rcases ih hRest with ⟨hLater, hSub⟩
        refine ⟨nodup_cons.mpr ⟨fun hIn => hNotIn (hSub key hIn), hLater⟩, ?_⟩
        intro other hOther
        rcases mem_cons.mp hOther with rfl | hIn
        · exact mem_cons_self
        · exact mem_cons_of_mem _ (hSub other hIn)
    | back =>
      rcases eq_nil_or_concat keys with rfl | ⟨first, key, rfl⟩
      · exact ih hNodup
      · rw [concat_eq_append] at hNodup ⊢
        have hSplit := nodup_append.mp hNodup
        rcases ih hSplit.1 with ⟨hLater, hSub⟩
        have hTake : takeSides (.back :: sides) (first ++ [key]) =
              key :: takeSides sides first := by
          simp [takeSides]
        rw [hTake]
        refine ⟨nodup_cons.mpr ⟨fun hIn => ?_, hLater⟩, ?_⟩
        · exact hSplit.2.2 key (hSub key hIn) key (mem_singleton_self key) rfl
        · intro other hOther
          rcases mem_cons.mp hOther with rfl | hIn
          · simp
          · exact mem_append_left _ (hSub other hIn)

variable {state : BtreeState P K V} {m : SortedMap K V}

theorem removeIterating_returns
    {keys : List K} (hRep : Represents state.root m) (hNodup : keys.Nodup)
    (hIn : ∀ key ∈ keys, key ∈ (rootEntries state.root).map Prod.fst)
    (hRoomy : env.RoomyRemoves keys state.root state.mem) :
    ∃ root mem, env.removeIterating keys state.root state.mem = .ok (root, mem) ∧
        Represents root (m.eraseAll keys) := by
  have hPresent : ∀ key ∈ keys, (m.get key).isSome = true :=
    fun key hKey => hRep.get_isSome (hIn key hKey)
  rcases removeEach_spec env hRep hNodup hPresent hRoomy with ⟨root, mem, hEach, hRep'⟩
  refine ⟨root, BtreeEnv.releaseFreed state.mem.freed.length mem, ?_, hRep'⟩
  simp only [BtreeEnv.removeIterating, hEach, ok_bind, pure_eq_ok]

/- A call that the tree has room for returns. -/
theorem tableCall_returns
    (hRep : Represents state.root m) (c : TableCall K V) (hRoomy : RoomyTableCall env state c) :
    ∃ state' m', env.tableCall state c = .ok state' ∧ Represents state'.root m' := by
  have hNodup : ((rootEntries state.root).map Prod.fst).Nodup := by
    rw [hRep.entries_eq.1]
    exact m.keys_nodup
  cases c with
  | call c =>
    rcases call_refines env hRep c hRoomy with ⟨state', hCall, hRep'⟩
    refine ⟨state', _, ?_, hRep'⟩
    simp only [BtreeEnv.tableCall, hCall, ok_bind, pure_eq_ok]
  | retain inRange predicate =>
    have hSub := (filter_sublist (l := rootEntries state.root)
      (p := fun e => inRange e.1 && !predicate e.1 e.2)).map Prod.fst
    rcases removeIterating_returns hRep (hNodup.sublist hSub)
      (fun key hKey => hSub.subset hKey) hRoomy with
      ⟨root, mem, hRun, hRep'⟩
    refine ⟨⟨root, mem⟩, _, ?_, hRep'⟩
    simp only [BtreeEnv.tableCall, BtreeEnv.retainIn, hRun, ok_bind, pure_eq_ok]
  | extractIf inRange predicate sides =>
    have hSub := (filter_sublist (l := rootEntries state.root)
      (p := fun e => inRange e.1 && predicate e.1 e.2)).map Prod.fst
    rcases takeSides_nodup sides (hNodup.sublist hSub) with ⟨hTaken, hFrom⟩
    rcases removeIterating_returns hRep hTaken
      (fun key hKey => hSub.subset (hFrom key hKey)) hRoomy with
      ⟨root, mem, hRun, hRep'⟩
    refine ⟨⟨root, mem⟩, _, ?_, hRep'⟩
    simp only [BtreeEnv.tableCall, BtreeEnv.extractFromIf, hRun, ok_bind, pure_eq_ok]

-- Runs

theorem tableRun_offsetsFit
    {events : List (TableEvent P K V)} (hFit : OffsetsFit env state.mem) (hStored : Stored state)
    (hRep : Represents state.root m) (hRoomy : RoomyTableRun env events state) :
    ∃ state', env.tableRun events state = .ok state' ∧ OffsetsFit env state'.mem := by
  induction events generalizing state m with
  | nil => exact ⟨state, rfl, hFit⟩
  | cons event rest ih =>
    rcases hRoomy with ⟨hNow, hLater⟩
    cases event with
    | call c =>
      rcases tableCall_returns hRep c (hNow c rfl) with ⟨state1, m1, hCall, hRep1⟩
      rcases ih (tableCall_offsetsFit hFit hStored hCall)
        (tableCall_turns env hStored hCall).2 hRep1
        (hLater state1 hCall) with ⟨state', hRest, hFit'⟩
      refine ⟨state', ?_, hFit'⟩
      simp only [BtreeEnv.tableRun, BtreeEnv.tableStep, hCall, ok_bind, hRest]
    | mark committed =>
      have hMarked : OffsetsFit env (BtreeState.mk state.root
        (state.mem.mark committed)).mem := hFit.of_pages rfl
      rcases ih hMarked (hStored.mark committed) hRep (hLater _ rfl) with ⟨state', hRest, hFit'⟩
      refine ⟨state', ?_, hFit'⟩
      simp only [BtreeEnv.tableRun, BtreeEnv.tableStep, pure_eq_ok, ok_bind, hRest]

/-
  From an empty table, as long as the tree has room for every call before it is made, no call
  panics, and no leaf exceeds the 16 bits of its count or the 32 bits of its offsets.
-/
theorem offsets_fit_along_run
    (events : List (TableEvent P K V)) (hRoomy : RoomyTableRun env events ⟨none, emptyMemory⟩) :
    ∃ state, env.tableRun events ⟨none, emptyMemory⟩ = .ok state ∧ OffsetsFit env state.mem := by
  have hFit : OffsetsFit env (emptyMemory : Mem P K V) :=
    fun p pairs hPage => by cases hPage
  have hEmpty : Represents (BtreeState.mk none emptyMemory : BtreeState P K V).root
      (SortedMap.empty : SortedMap K V) := rfl
  exact tableRun_offsetsFit hFit stored_empty hEmpty hRoomy

end Rooms

/- One value is inserted and written to through a guard. -/
def widenedEvents : List (TableEvent (Nat × Nat) Nat Nat) :=
  [.call (.call (.insert 0 5)), .call (.call (.getMut 0 [9000]))]

theorem widenedEvents_roomy : RoomyTableRun natEnv widenedEvents ⟨none, emptyMemory⟩ := by
  refine ⟨?_, ?_⟩
  · rintro c ⟨⟩
    change natFormat.leafBytes [(0, 5)] < Format.offsetLimit
    decide
  · intro state hStep
    simp only [BtreeEnv.tableStep, BtreeEnv.tableCall,
      BtreeEnv.call, BtreeEnv.insert, bind_eq_ok, pure_eq_ok, Except.ok.injEq] at hStep
    rcases hStep with ⟨⟨_, _⟩, ⟨⟨_, _, _⟩, ⟨⟨_, _⟩, hBuild, _, rfl, rfl⟩, _, rfl⟩, rfl⟩
    have hPairs := (natEnv.buildLeaf_ok hBuild).2.1
    refine ⟨?_, fun _ _ => trivial⟩
    rintro c ⟨⟩ leaf' hLeaf _
    cases hLeaf
    rw [hPairs]
    decide +kernel

/- A single value that gets larger than a page fits. -/
theorem widened_value_fits : RoomyTableRun natEnv widenedEvents ⟨none, emptyMemory⟩ ∧ ∃ state,
        natEnv.tableRun widenedEvents ⟨none, emptyMemory⟩ = .ok state ∧
          OffsetsFit natEnv state.mem :=
  ⟨widenedEvents_roomy, offsets_fit_along_run widenedEvents widenedEvents_roomy⟩

/-
  Two values in one leaf are widened to 3 GiB each, the most that a table accepts. The leaf is not
  split, and the end of the second value does not fit in 32 bits.
-/
theorem two_widened_values_panic :
    natEnv.tableRun [.call (.call (.insert 0 5)), .call (.call (.insert 1 5)),
        .call (.call (.getMut 0 [3221225472])), .call (.call (.getMut 1 [3221225472]))]
      ⟨none, emptyMemory⟩ = .error .outOfRange :=
  rfl

end Redbx
