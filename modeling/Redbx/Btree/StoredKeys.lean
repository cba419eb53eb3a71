import Redbx.Btree.LeafCapacity

/-
  Which key is stored after a value was overwritten.

  A key type may call two different keys equal. Where the key is found, a leaf edited in place keeps
  the key it has, and a rebuilt leaf gets the key of the call. Which of the two happens depends on
  the pages allocated since the last commit.

  Key theorems include:
    * `insertHelper_entries`, `overwritten_keys_agree_iff`
-/

namespace Redbx

open Redbx.Tree List

variable {P K V : Type}

-- The Pairs of a Leaf

theorem insertInplace_keys (pairs : List (K × V)) (position : Nat) (key : K) (value : V) :
    (insertInplace pairs position true key value).map Prod.fst = pairs.map Prod.fst := by
  refine ext_getElem? fun i => ?_
  simp only [insertInplace, if_true, getElem?_map, getElem?_modify]
  cases pairs[i]? with
  | none => rfl
  | some pair => split <;> rfl

theorem insertRebuilt_keys (pairs : List (K × V)) (position : Nat) (key : K) (value : V) :
    (insertRebuilt pairs position true key value).map Prod.fst =
      splice (pairs.map Prod.fst) position 1 [key] := by
  simp [insertRebuilt, splice]

/- Replacing an entry changes nothing when it was the same. -/
theorem eq_splice_iff (xs : List K) (i : Nat) (x : K) :
    xs = splice xs i 1 [x] ↔ xs[i]? = some x := by
  refine ⟨?_, ?_⟩
  · intro hEq
    have hLength := congrArg List.length hEq
    simp only [splice, length_append, length_take, length_drop, length_singleton] at hLength
    have hTake : (xs.take i).length = i := length_take_of_le (by omega)
    rw [hEq, splice, append_assoc, getElem?_append_right (by omega), hTake]
    simp
  · intro hAt
    rcases List.getElem?_eq_some_iff.mp hAt with ⟨hLt, rfl⟩
    simp [splice]

variable [DecidableEq P] {env : BtreeEnv P K V} {mem mem' : Mem P K V}

/- The pages built hold what they were built from. -/
theorem leafPieces_entries {pairs : List (K × V)} {pieces : Pieces K (Leaf P K V)}
    (hPieces : env.leafPieces pairs mem = .ok (pieces, mem')) :
    childEntries 0 pieces.children = pairs := by
  rcases env.leafPieces_ok hPieces with ⟨_, _, hBuild, rfl⟩ |
    ⟨left, _, right, _, _, hLeft, hRight, _, rfl⟩
  · exact (childEntries_singleton 0 _).trans (env.buildLeaf_ok hBuild).2.1
  · refine (childEntries_append 0 [_] [_]).trans ?_
    rw [childEntries_singleton, childEntries_singleton]
    change left.pairs ++ right.pairs = pairs
    rw [(env.buildLeaf_ok hLeft).2.1, (env.buildLeaf_ok hRight).2.1, take_append_drop]

theorem branchPieces_entries {n : Nat} {children : Children P K V n} {keys : List K}
    {pieces : Pieces K (Branch P K (Tree P K V n))}
    (hPieces : env.branchPieces children keys mem = .ok (pieces, mem')) :
    childEntries (n + 1) pieces.children = childEntries n children := by
  rcases env.branchPieces_ok hPieces with ⟨_, _, hBuild, rfl⟩ |
    ⟨left, _, right, _, _, _, _, hLeft, hRight, rfl⟩
  · refine (childEntries_singleton (n + 1) _).trans ?_
    exact congrArg (childEntries n) (env.buildBranch_ok hBuild).2.2.1
  · refine (childEntries_append (n + 1) [_] [_]).trans ?_
    rw [childEntries_singleton, childEntries_singleton]
    change childEntries n left.children ++ childEntries n right.children = _
    rw [(env.buildBranch_ok hLeft).2.2.1, (env.buildBranch_ok hRight).2.2.1,
      ← childEntries_append, take_append_drop]

-- Both Ways of an Insertion

variable [Ord K] {key : K} {leaf : Leaf P K V} {position : Nat}

/- The leaf that has the key is edited in place. -/
def BtreeEnv.editsInplace (env : BtreeEnv P K V) (modifyUncommitted : Bool) (leaf : Leaf P K V)
    (key : K) (value : V) (mem : Mem P K V) : Bool :=
  mem.isUncommitted leaf.page && modifyUncommitted &&
    env.fmt.sufficientInsertInplaceSpace (env.alloc.order leaf.page) leaf.pairs
      (leaf.position key).1 (leaf.position key).2 key value

/- The pairs of the leaf after the key was overwritten. -/
def BtreeEnv.overwritten (env : BtreeEnv P K V) (modifyUncommitted : Bool) (leaf : Leaf P K V)
    (position : Nat) (key : K) (value : V) (mem : Mem P K V) : List (K × V) :=
  if env.editsInplace modifyUncommitted leaf key value mem then
    insertInplace leaf.pairs position true key value
  else
    insertRebuilt leaf.pairs position true key value

theorem insertLeaf_entries {modify : Bool} {checksum : Checksum} {value : V}
    {result : InsertionResult K V (Leaf P K V)} (hFound : leaf.position key = (position, true))
    (hInsert : env.insertLeaf modify leaf checksum key value mem = .ok (result, mem')) :
    childEntries 0 result.pieces.children = env.overwritten modify leaf position key value mem := by
  unfold BtreeEnv.overwritten BtreeEnv.editsInplace
  rw [hFound]
  cases env.insertLeaf_ok modify hInsert with
  | before _ _ hSearch | after _ _ _ _ hSearch => rw [hFound] at hSearch; cases hSearch
  | inPlace _ _ hSearch _ hUncommitted hModify hSpace =>
    rw [hFound] at hSearch
    cases hSearch
    rw [hModify, hSpace, PageMemory.isUncommitted, decide_eq_true hUncommitted]
    exact childEntries_singleton 0 _
  | rebuilt _ _ _ _ hSearch _ hNoSpace hPieces =>
    rw [hFound] at hSearch
    cases hSearch
    rw [hNoSpace]
    exact leafPieces_entries hPieces

omit [DecidableEq P] [Ord K] in
theorem childEntries_splice {n : Nat} (children new : Children P K V n) (i : Nat) :
    childEntries n (splice children i 1 new) = childEntries n (children.take i) ++
      childEntries n new ++ childEntries n (children.drop (i + 1)) := by
  rw [splice, childEntries_append, childEntries_append]

/- The entries left and right of the leaf stay, whichever pages are edited in place. -/
theorem insertHelper_entries (env : BtreeEnv P K V) {n : Nat} {t : Tree P K V n}
    (hLeaf : leafFor n t key = some leaf) (hFound : leaf.position key = (position, true)) :
    ∃ before after, ∀ modify checksum value mem result mem',
      env.insertHelper modify n t checksum key value mem = .ok (result, mem') →
      childEntries n result.pieces.children =
        before ++ env.overwritten modify leaf position key value mem ++ after := by
  induction n with
  | zero =>
    cases hLeaf
    refine ⟨[], [], fun _ _ _ _ _ _ hInsert => ?_⟩
    rw [nil_append, append_nil]
    exact insertLeaf_entries hFound hInsert
  | succ n ih =>
    rw [leafFor] at hLeaf
    cases hChild : (Branch.children t)[Branch.childForKey t key]? with
    | none => rw [hChild] at hLeaf; cases hLeaf
    | some c =>
      rw [hChild] at hLeaf
      rcases ih hLeaf with ⟨before, after, hBelow⟩
      refine ⟨childEntries n ((Branch.children t).take (Branch.childForKey t key)) ++ before,
        after ++ childEntries n ((Branch.children t).drop (Branch.childForKey t key + 1)), ?_⟩
      intro modify checksum value mem result mem' hInsert
      rcases env.insertHelper_ok modify hInsert with ⟨_, sub, _, hSame, hSub, hBranch⟩
      cases hChild.symm.trans hSame
      have hEntries := hBelow _ _ _ _ _ _ hSub
      -- both ways the branch gets the new children in place of the old
      have hAll : childEntries (n + 1) result.pieces.children = childEntries n
          (splice (Branch.children t) (Branch.childForKey t key) 1 sub.pieces.children) := by
        cases hBranch with
        | inPlace hNext =>
          rcases List.getElem?_eq_some_iff.mp hChild with ⟨hLt, _⟩
          refine (childEntries_singleton (n + 1) _).trans ?_
          change childEntries n ((Branch.children t).set _ _) = _
          rw [set_eq_take_append_cons_drop, if_pos hLt, splice, Pieces.children, hNext,
            append_assoc]
          rfl
        | rebuilt _ _ hPieces => exact branchPieces_entries hPieces
      rw [hAll, childEntries_splice, hEntries]
      simp only [append_assoc]

theorem insert_entries {modify : Bool} {r : BtreeRoot P K V} {value : V} {old : Option V}
    {root : TreeRoot P K V}
    (hInsert : env.insert modify (some r) key value mem = .ok (old, root, mem')) :
    ∃ result mem1, env.insertHelper modify r.height r.tree r.checksum key value mem =
        .ok (result, mem1) ∧
      rootEntries root = childEntries r.height result.pieces.children := by
  simp only [BtreeEnv.insert, bind_eq_ok] at hInsert
  rcases hInsert with ⟨⟨result, mem1⟩, hHelper, hRest⟩
  refine ⟨result, mem1, hHelper, ?_⟩
  rcases result with ⟨⟨first, _ | ⟨_, _⟩⟩, _⟩
  · cases hRest
    exact (childEntries_singleton r.height first).symm
  · rcases bind_eq_ok.mp hRest with ⟨⟨_, _⟩, hBuild, hEq⟩
    cases hEq
    exact congrArg (childEntries r.height) (env.buildBranch_ok hBuild).2.2.1

/-
  Overwriting a key in place and with a rebuilt leaf stores the same keys exactly when the key of
  the call is the one that was stored.
-/
theorem overwritten_keys_agree_iff (env : BtreeEnv P K V) {r : BtreeRoot P K V} {value : V}
    {modify1 modify2 : Bool} {mem1 mem2 mem1' mem2' : Mem P K V} {old1 old2 : Option V}
    {root1 root2 : TreeRoot P K V} (hLeaf : leafFor r.height r.tree key = some leaf)
    (hFound : leaf.position key = (position, true))
    (hInsert1 : env.insert modify1 (some r) key value mem1 = .ok (old1, root1, mem1'))
    (hInplace : env.editsInplace modify1 leaf key value mem1 = true)
    (hInsert2 : env.insert modify2 (some r) key value mem2 = .ok (old2, root2, mem2'))
    (hRebuilt : env.editsInplace modify2 leaf key value mem2 = false) :
    (rootEntries root1).map Prod.fst = (rootEntries root2).map Prod.fst ↔
      (leaf.pairs.map Prod.fst)[position]? = some key := by
  rcases insertHelper_entries env hLeaf hFound with ⟨_, _, hEntries⟩
  rcases insert_entries hInsert1 with ⟨_, _, hHelper1, hRoot1⟩
  rcases insert_entries hInsert2 with ⟨_, _, hHelper2, hRoot2⟩
  rw [hRoot1, hRoot2, hEntries _ _ _ _ _ _ hHelper1, hEntries _ _ _ _ _ _ hHelper2]
  simp only [BtreeEnv.overwritten, hInplace, hRebuilt, if_true, Bool.false_eq_true, if_false,
    map_append, append_cancel_right_eq, append_cancel_left_eq,
    insertInplace_keys, insertRebuilt_keys]
  exact eq_splice_iff _ _ _

/- A root with one number, on a page that is not committed. -/
def numberRoot : BtreeRoot (Nat × Nat) Nat Nat :=
  ⟨0, (⟨(0, 1), [(1, 5)]⟩ : Leaf (Nat × Nat) Nat Nat), deferred, 1⟩

def numberMemory : Mem (Nat × Nat) Nat Nat :=
  (emptyMemory.allocate natAllocator 0 (.leaf [(1, 5)])).2

/- The number is overwritten before or after a commit. -/
theorem overwritten_number_is_kept : ∃ old1 root1 mem1 old2 root2 mem2,
      natEnv.insert true (some numberRoot) 1 7 numberMemory = .ok (old1, root1, mem1) ∧
        natEnv.insert true (some numberRoot) 1 7 (numberMemory.mark {(0, 1)}) =
          .ok (old2, root2, mem2) ∧
        (rootEntries root1).map Prod.fst = (rootEntries root2).map Prod.fst := by
  have hFirst : natEnv.insert true (some numberRoot) 1 7 numberMemory = .ok (_, _, _) := rfl
  have hSecond : natEnv.insert true (some numberRoot) 1 7 (numberMemory.mark {(0, 1)}) =
      .ok (_, _, _) := rfl
  have hLeaf : leafFor numberRoot.height numberRoot.tree 1 = some _ := rfl
  have hFound : Leaf.position ⟨(0, 1), [(1, 5)]⟩ 1 = (0, true) := rfl
  exact ⟨_, _, _, _, _, _, hFirst, hSecond,
    (overwritten_keys_agree_iff natEnv hLeaf hFound hFirst rfl hSecond rfl).mpr rfl⟩

-- Dates

/- A `DateTime<FixedOffset>`: the date and the time in UTC, and the offset of the time zone. -/
structure OffsetDateTime where
  year : Int
  month : Nat
  day : Nat
  secondsFromMidnight : Nat
  nanosecond : Nat
  localMinusUtc : Int
deriving DecidableEq

/- The order of `DateTime`, which leaves the offset out. -/
instance : Ord OffsetDateTime where
  compare a b := (compare a.year b.year).then <| (compare a.month b.month).then <|
    (compare a.day b.day).then <| (compare a.secondsFromMidnight b.secondsFromMidnight).then <|
      compare a.nanosecond b.nanosecond

/- Keys of 17 bytes, and values given by their lengths. -/
def dateEnv : BtreeEnv (Nat × Nat) OffsetDateTime Nat where
  fmt :=
    { keyLen := fun _ => 17
      valueLen := fun v => v
      fixedKeySize := some 17
      fixedValueSize := none
      keyLen_eq := fun width hWidth _ => by
        cases hWidth
        rfl
      valueLen_eq := natFormat.valueLen_eq
      eq_of_width_zero := fun hWidth => by cases hWidth }
  alloc := natAllocator

/-
  Noon in UTC, overwritten by the same time an hour ahead of UTC, in the same transaction or after a
  commit.
-/
theorem commit_changes_stored_offset : ∃ state1 state2, dateEnv.tableRun
        [.call (.call (.insert ⟨2024, 1, 1, 43200, 0, 0⟩ 5)),
          .call (.call (.insert ⟨2024, 1, 1, 43200, 0, 3600⟩ 5))] ⟨none, emptyMemory⟩ =
          .ok state1 ∧
      dateEnv.tableRun [.call (.call (.insert ⟨2024, 1, 1, 43200, 0, 0⟩ 5)), .mark {(0, 1)},
          .call (.call (.insert ⟨2024, 1, 1, 43200, 0, 3600⟩ 5))] ⟨none, emptyMemory⟩ =
          .ok state2 ∧
      rootEntries state1.root = [(⟨2024, 1, 1, 43200, 0, 0⟩, 5)] ∧
      rootEntries state2.root = [(⟨2024, 1, 1, 43200, 0, 3600⟩, 5)] :=
  ⟨_, _, rfl, rfl, rfl, rfl⟩

end Redbx
