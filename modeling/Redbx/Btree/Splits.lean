import Redbx.Btree.LeafCapacity

/-
  What `build_split` makes of the pairs of a leaf or of the keys and children of a branch: two new
  pages that together hold them all, with a key between them, if each has room for its part.

  Key theorems include:
    * `Format.halfAt_division`, `branchPieces_split`, `split_divides_iff`
-/

namespace Redbx

open Redbx.Tree List

------------------------------------------------------------
-- Sizes
------------------------------------------------------------

namespace Format

variable {K V : Type} (fmt : Format K V)

/-
  The pairs are divided after pair `i`: the first of all, but for the last one, at which half of the
  bytes is reached, or else the last but one.
-/
structure HalfAt (pairs : List (K × V)) (i : Nat) : Prop where
  pos : 0 < i
  lt : i < pairs.length
  reached : fmt.kvBytes pairs / 2 ≤ fmt.kvBytes (pairs.take i) ∨ i + 1 = pairs.length
  first : ∀ j, 0 < j → j < i → fmt.kvBytes (pairs.take j) < fmt.kvBytes pairs / 2

/- The sizes of the pairs that a leaf has room for. -/
structure LeafRoom (pairs : List (K × V)) : Prop where
  count : pairs.length ≤ 65535
  page : 4 + fmt.pointerBytes * pairs.length + fmt.kvBytes pairs ≤ 2 ^ 32
  keyEnds : fmt.fixedKeySize = none →
    4 + fmt.pointerBytes * pairs.length + fmt.keyBytes (pairs.map Prod.fst) < 2 ^ 32
  valueEnds : fmt.fixedValueSize = none →
    4 + fmt.pointerBytes * pairs.length + fmt.kvBytes pairs < 2 ^ 32

/- The sizes of the keys that a branch has room for. -/
structure BranchRoom (keys : List K) : Prop where
  count : keys.length ≤ 65535
  fixed : ∀ width, fmt.fixedKeySize = some width →
    32 + 24 * keys.length + fmt.keyBytes keys ≤ 2 ^ 32
  ends : fmt.fixedKeySize = none → 32 + 28 * keys.length + fmt.keyBytes keys < 2 ^ 32

theorem requiredOrder_le_iff {size : Nat} : requiredOrder size ≤ maxPageOrder ↔ size ≤ 2 ^ 32 := by
  have hLargest : pageBytes maxPageOrder = 2 ^ 32 := rfl
  refine ⟨?_, fun hSize => requiredOrder_le size maxPageOrder (hLargest ▸ hSize)⟩
  intro hOrder
  have hGrows : pageBytes (requiredOrder size) ≤ pageBytes maxPageOrder :=
    Nat.mul_le_mul_left _ (Nat.pow_le_pow_right (by decide) hOrder)
  exact (le_pageBytes_requiredOrder size).trans (hLargest ▸ hGrows)

theorem leafEncodable_iff {pairs : List (K × V)} (hSome : pairs ≠ []) :
    fmt.leafEncodable pairs = true ↔ fmt.LeafRoom pairs := by
  have hEmpty : pairs.isEmpty = false := by simpa using hSome
  simp only [leafEncodable, offsetsFit, hEmpty, Bool.not_false, Bool.true_and, Bool.and_eq_true,
    Bool.or_eq_true, decide_eq_true_eq, requiredOrder_le_iff]
  constructor
  · rintro ⟨⟨⟨hCount, hKeys⟩, hValues⟩, hPage⟩
    refine ⟨hCount, hPage, ?_, ?_⟩
    · intro hNone
      rw [hNone] at hKeys
      exact hKeys.resolve_left (by simp)
    · intro hNone
      rw [hNone] at hValues
      exact hValues.resolve_left (by simp)
  · intro hRoom
    refine ⟨⟨⟨hRoom.count, ?_⟩, ?_⟩, hRoom.page⟩
    · cases hKeys : fmt.fixedKeySize with
      | none => exact Or.inr (hRoom.keyEnds hKeys)
      | some => exact Or.inl rfl
    · cases hValues : fmt.fixedValueSize with
      | none => exact Or.inr (hRoom.valueEnds hValues)
      | some => exact Or.inl rfl

theorem branchEncodable_iff {keys : List K} (hSome : keys ≠ []) :
    fmt.branchEncodable keys = true ↔ fmt.BranchRoom keys := by
  have hEmpty : keys.isEmpty = false := by simpa using hSome
  simp only [branchEncodable, hEmpty, Bool.not_false, Bool.true_and, Bool.and_eq_true,
    Bool.or_eq_true, decide_eq_true_eq, requiredOrder_le_iff]
  cases hWidth : fmt.fixedKeySize with
  | none =>
    have hBytes : fmt.branchBytes keys = 32 + 28 * keys.length + fmt.keyBytes keys := by
      simp only [branchBytes, hWidth, Option.isNone_none, if_true]
      omega
    rw [hBytes]
    constructor
    · rintro ⟨⟨hCount, hNone | hEnds⟩, _⟩
      · cases hNone
      · refine ⟨hCount, ?_, fun _ => hEnds⟩
        intro width hSome
        rw [hWidth] at hSome
        cases hSome
    · intro hRoom
      have hEnds := hRoom.ends hWidth
      exact ⟨⟨hRoom.count, Or.inr hEnds⟩, Nat.le_of_lt hEnds⟩
  | some width =>
    have hBytes : fmt.branchBytes keys = 32 + 24 * keys.length + fmt.keyBytes keys := by
      simp only [branchBytes, hWidth, Option.isNone_some, Bool.false_eq_true, if_false]
      omega
    rw [hBytes]
    constructor
    · rintro ⟨⟨hCount, _⟩, hPage⟩
      refine ⟨hCount, fun _ _ => hPage, ?_⟩
      intro hNone
      rw [hWidth] at hNone
      cases hNone
    · intro hRoom
      exact ⟨⟨hRoom.count, Or.inl rfl⟩, hRoom.fixed width hWidth⟩

/- The loop stops at the first pair at which it reaches its bound. -/
theorem divisionLoop_reaches (half : Nat) (pairs : List (K × V)) (bytes division : Nat) :
    ∃ n, fmt.divisionLoop half pairs bytes division = division + n ∧
      (n = pairs.length ∨ half ≤ bytes + fmt.kvBytes (pairs.take n)) ∧
      ∀ j, 0 < j → j < n → bytes + fmt.kvBytes (pairs.take j) < half := by
  induction pairs generalizing bytes division with
  | nil => exact ⟨0, rfl, Or.inl rfl, fun j hPos hLt => absurd hLt (by omega)⟩
  | cons p rest ih =>
    have hBytes (j : Nat) : fmt.kvBytes ((p :: rest).take (j + 1)) =
        fmt.pairLen p + fmt.kvBytes (rest.take j) := by
      simp [kvBytes]
    unfold divisionLoop
    split
    case isTrue hStop =>
      refine ⟨1, rfl, Or.inr ?_, fun j hPos hLt => by omega⟩
      rw [hBytes 0]
      omega
    case isFalse hGoOn =>
      rcases ih (bytes + fmt.pairLen p) (division + 1) with ⟨n, hEq, hReached, hFirst⟩
      refine ⟨n + 1, by rw [hEq]; omega, ?_, ?_⟩
      · rw [hBytes n, length_cons]
        omega
      · intro j hPos hLt
        rcases j with _ | j
        · omega
        · rw [hBytes j]
          rcases Nat.eq_zero_or_pos j with rfl | hMore
          · simp only [take_zero, kvBytes, map_nil, sum_nil]
            omega
          · have hBelow := hFirst j hMore (by omega)
            omega

/- Where the loop of `build_split` divides the pairs. -/
theorem halfAt_division {pairs : List (K × V)} (hLength : 1 < pairs.length) :
    fmt.HalfAt pairs (fmt.division pairs) := by
  rcases fmt.division_bounds pairs hLength with ⟨hPos, hLt⟩
  rcases fmt.divisionLoop_reaches (fmt.kvBytes pairs / 2) (pairs.take (pairs.length - 1)) 0 0 with
    ⟨n, hEq, hReached, hFirst⟩
  have hDivision : fmt.division pairs = n := by
    rw [division, hEq, Nat.zero_add]
  rw [hDivision] at hPos hLt ⊢
  have hTake (j : Nat) (hLe : j ≤ n) : (pairs.take (pairs.length - 1)).take j = pairs.take j := by
    rw [take_take, Nat.min_eq_left (by omega)]
  refine ⟨hPos, hLt, ?_, ?_⟩
  · rw [hTake n (Nat.le_refl n), length_take] at hReached
    omega
  · intro j hFrom hBelow
    have hBytes := hFirst j hFrom hBelow
    rw [hTake j (Nat.le_of_lt hBelow)] at hBytes
    omega

theorem HalfAt.unique {fmt : Format K V} {pairs : List (K × V)} {i j : Nat}
    (hFirst : fmt.HalfAt pairs i) (hSecond : fmt.HalfAt pairs j) : i = j := by
  have hNotLess {i j : Nat} (hFirst : fmt.HalfAt pairs i) (hSecond : fmt.HalfAt pairs j) :
      ¬ i < j := by
    intro hLess
    have hBelow := hSecond.first i hFirst.pos hLess
    have hEnd := hSecond.lt
    rcases hFirst.reached with hReached | hLast
    · omega
    · omega
  have hLeft := hNotLess hFirst hSecond
  have hRight := hNotLess hSecond hFirst
  omega

end Format

variable {P K V : Type} [DecidableEq P]

/- The new page holds its contents, and other pages stay. -/
theorem PageMemory.allocate_stored
    {N : Type} {m m' : PageMemory P N} {alloc : PageAllocator P} {order : Nat} {node : N} {p : P}
    (hAlloc : (p, m') = m.allocate alloc order node) :
    m'.pages p = some node ∧ p ∉ m.allocated ∧ p ∈ m'.allocated ∧
      (∀ q ∈ m.allocated, q ∈ m'.allocated) ∧ ∀ q, q ≠ p → m'.pages q = m.pages q := by
  cases hAlloc
  refine ⟨Function.update_self _ _ _, alloc.pick_fresh _ _, ?_, ?_, ?_⟩
  · exact Finset.mem_union_right _ (Finset.mem_insert_self _ _)
  · intro q hq
    rcases Finset.mem_union.mp hq with hOld | hNew
    · exact Finset.mem_union_left _ hOld
    · exact Finset.mem_union_right _ (Finset.mem_insert_of_mem hNew)
  · intro q hq
    exact Function.update_of_ne hq _ _

-- Two Pages

/- Two pages that were not in use and hold these contents. -/
structure TwoPages (mem mem' : Mem P K V) (page1 page2 : P) (node1 node2 : Node P K V) : Prop where
  fresh1 : page1 ∉ mem.allocated
  fresh2 : page2 ∉ mem.allocated
  distinct : page1 ≠ page2
  stored1 : mem'.pages page1 = some node1
  stored2 : mem'.pages page2 = some node2

theorem twoPages_of_allocate
    {mem mem1 mem' : Mem P K V} {alloc : PageAllocator P} {order1 order2 : Nat}
    {page1 page2 : P} {node1 node2 : Node P K V}
    (hFirst : (page1, mem1) = mem.allocate alloc order1 node1)
    (hSecond : (page2, mem') = mem1.allocate alloc order2 node2) :
    TwoPages mem mem' page1 page2 node1 node2 := by
  rcases PageMemory.allocate_stored hFirst with ⟨hStored1, hFresh1, hIn1, hKept1, _⟩
  rcases PageMemory.allocate_stored hSecond with ⟨hStored2, hFresh2, _, _, hSame⟩
  have hNe : page1 ≠ page2 := fun hEq => hFresh2 (hEq ▸ hIn1)
  exact ⟨hFresh1, fun hIn => hFresh2 (hKept1 _ hIn), hNe, (hSame _ hNe).trans hStored1, hStored2⟩

variable [LinearOrder K]

/- The pairs on two new leaf pages, on either side of a key. -/
structure SplitLeaf
    (pairs : List (K × V)) (mem mem' : Mem P K V) (page1 page2 : Leaf P K V) (key : K) :
    Prop where
  pages : TwoPages mem mem' page1.page page2.page (.leaf page1.pairs) (.leaf page2.pairs)
  nonempty : page1.pairs ≠ [] ∧ page2.pairs ≠ []
  joined : page1.pairs ++ page2.pairs = pairs
  below : ∀ p ∈ page1.pairs, p.1 ≤ key
  above : ∀ p ∈ page2.pairs, key < p.1

/- The children and the keys on two new branch pages, but for the key between them. -/
structure SplitBranch
    {n : Nat} (children : Children P K V n) (keys : List K) (mem mem' : Mem P K V)
    (page1 page2 : Branch P K (Tree P K V n)) (key : K) :
    Prop where
  pages : TwoPages mem mem' page1.page page2.page
    (branchImage n page1.children page1.keys) (branchImage n page2.children page2.keys)
  children1 : 2 ≤ page1.children.length ∧ page1.children.length = page1.keys.length + 1
  children2 : 2 ≤ page2.children.length ∧ page2.children.length = page2.keys.length + 1
  joinedChildren : page1.children ++ page2.children = children
  joinedKeys : page1.keys ++ key :: page2.keys = keys
  below : ∀ k ∈ page1.keys, k < key
  above : ∀ k ∈ page2.keys, key < k

variable {env : BtreeEnv P K V} {mem : Mem P K V}

-- Leaves

/- The last pair of the first part has the split key. -/
theorem take_concat
    {α : Type} {l : List α} {i : Nat} {x : α} (hPos : 0 < i) (hAt : l[i - 1]? = some x) :
    l.take i = l.take (i - 1) ++ [x] := by
  rcases List.getElem?_eq_some_iff.mp hAt with ⟨hLt, rfl⟩
  rw [← take_succ_eq_append_getElem hLt, Nat.sub_add_cancel hPos]

theorem leafPieces_split {pairs : List (K × V)} {mem' : Mem P K V} {pieces : Pieces K (Leaf P K V)}
    (hSplit : env.fmt.shouldSplitLeaf pairs = true) (hSorted : Sorted pairs)
    (hPieces : env.leafPieces pairs mem = .ok (pieces, mem')) :
    env.fmt.leafEncodable (pairs.take (env.fmt.division pairs)) = true ∧
      env.fmt.leafEncodable (pairs.drop (env.fmt.division pairs)) = true ∧
      ∃ page1 key page2, pieces = ⟨(page1, deferred), some (key, page2, deferred)⟩ ∧
        SplitLeaf pairs mem mem' page1 page2 key := by
  have hLength : 1 < pairs.length := by
    simpa [Format.shouldSplitLeaf] using (Bool.and_eq_true_iff.mp hSplit).2
  rcases env.fmt.division_bounds pairs hLength with ⟨hPos, hLt⟩
  rcases env.leafPieces_ok hPieces with ⟨_, hNot, _⟩ |
    ⟨left, mem1, right, splitPair, _, hLeft, hRight, hPair, rfl⟩
  · rw [hSplit] at hNot
    cases hNot
  · rcases env.buildLeaf_ok hLeft with ⟨hFits1, hPairs1, hAlloc1⟩
    rcases env.buildLeaf_ok hRight with ⟨hFits2, hPairs2, hAlloc2⟩
    refine ⟨hFits1, hFits2, left, splitPair.1, right, rfl, ?_⟩
    generalize env.fmt.division pairs = i at *
    have hTake := take_concat hPos hPair
    have hWhole : Sorted (pairs.take (i - 1) ++ [splitPair] ++ pairs.drop i) := by
      rw [← hTake, take_append_drop]
      exact hSorted
    rcases pairwise_append.mp hWhole with ⟨hFirst, _, hCross⟩
    refine ⟨?_, ⟨?_, ?_⟩, ?_, ?_, ?_⟩
    · rw [hPairs1, hPairs2]
      exact twoPages_of_allocate hAlloc1 hAlloc2
    · rw [hPairs1, hTake]
      simp
    · rw [hPairs2]
      exact ne_nil_of_length_pos (by rw [length_drop]; omega)
    · rw [hPairs1, hPairs2, take_append_drop]
    · intro p hp
      rw [hPairs1, hTake] at hp
      rcases mem_append.mp hp with hBefore | hLast
      · exact le_of_lt ((pairwise_append.mp hFirst).2.2 p hBefore _ (mem_singleton_self _))
      · rw [mem_singleton.mp hLast]
    · intro p hp
      rw [hPairs2] at hp
      exact hCross splitPair (mem_append_right _ (mem_singleton_self _)) p hp

-- Branches

theorem branchPieces_split
    {n : Nat} {children : Children P K V n} {keys : List K} {mem' : Mem P K V}
    {pieces : Pieces K (Branch P K (Tree P K V n))}
    (hSplit : env.fmt.shouldSplitBranch keys = true) (hSorted : keys.Pairwise (· < ·))
    (hPieces : env.branchPieces children keys mem = .ok (pieces, mem')) :
    env.fmt.branchEncodable (keys.take (keys.length / 2)) = true ∧
      env.fmt.branchEncodable (keys.drop (keys.length / 2 + 1)) = true ∧
      ∃ page1 key page2, pieces = ⟨(page1, deferred), some (key, page2, deferred)⟩ ∧
        SplitBranch children keys mem mem' page1 page2 key := by
  have hThree : 3 ≤ keys.length := by
    simpa [Format.shouldSplitBranch] using (Bool.and_eq_true_iff.mp hSplit).2
  rcases env.branchPieces_ok hPieces with ⟨_, hNot, _⟩ |
    ⟨left, mem1, right, key, _, hLength, hKey, hLeft, hRight, rfl⟩
  · rw [hSplit] at hNot
    cases hNot
  · rcases env.buildBranch_ok hLeft with ⟨hCount1, hFits1, hChildren1, hKeys1, hAlloc1⟩
    rcases env.buildBranch_ok hRight with ⟨hCount2, hFits2, hChildren2, hKeys2, hAlloc2⟩
    refine ⟨hFits1, hFits2, left, key, right, rfl, ?_⟩
    have hJoined : keys.take (keys.length / 2) ++ key :: keys.drop (keys.length / 2 + 1) =
        keys := by
      rcases List.getElem?_eq_some_iff.mp hKey with ⟨hLt, rfl⟩
      rw [getElem_cons_drop, take_append_drop]
    have hWhole := hSorted
    rw [← hJoined] at hWhole
    rcases pairwise_append.mp hWhole with ⟨_, hSecond, hCross⟩
    refine ⟨?_, ?_, ?_, ?_, ?_, ?_, ?_⟩
    · rw [hChildren1, hKeys1, hChildren2, hKeys2]
      exact twoPages_of_allocate hAlloc1 hAlloc2
    · rw [hChildren1, hKeys1, hCount1, length_take]
      omega
    · rw [hChildren2, hKeys2, hCount2, length_drop]
      omega
    · rw [hChildren1, hChildren2, take_append_drop]
    · rw [hKeys1, hKeys2, hJoined]
    · intro k hk
      rw [hKeys1] at hk
      exact hCross k hk key mem_cons_self
    · intro k hk
      rw [hKeys2] at hk
      exact (pairwise_cons.mp hSecond).1 k hk

/-
  Where `should_split` says so, `build_split` divides the pairs of a leaf where half of their bytes
  is reached, or the children and keys of a branch in the middle, exactly when there is room for the
  sizes of both parts.
-/
theorem split_divides_iff
    (env : BtreeEnv P K V)
    (n : Nat)
    (mem : Mem P K V) :
    (∀ pairs : List (K × V), env.fmt.shouldSplitLeaf pairs = true → Sorted pairs →
      ((∃ page1 key page2 mem', env.leafPieces pairs mem =
            .ok (⟨(page1, deferred), some (key, page2, deferred)⟩, mem') ∧
          SplitLeaf pairs mem mem' page1 page2 key) ↔
        ∃ i, env.fmt.HalfAt pairs i ∧ env.fmt.LeafRoom (pairs.take i) ∧
          env.fmt.LeafRoom (pairs.drop i))) ∧
      ∀ (children : Children P K V n) (keys : List K),
        env.fmt.shouldSplitBranch keys = true → children.length = keys.length + 1 →
        keys.Pairwise (· < ·) →
        ((∃ page1 key page2 mem', env.branchPieces children keys mem =
              .ok (⟨(page1, deferred), some (key, page2, deferred)⟩, mem') ∧
            SplitBranch children keys mem mem' page1 page2 key) ↔
          env.fmt.BranchRoom (keys.take (keys.length / 2)) ∧
            env.fmt.BranchRoom (keys.drop (keys.length / 2 + 1))) := by
  refine ⟨?_, ?_⟩
  · intro pairs hSplit hSorted
    have hLength : 1 < pairs.length := by
      simpa [Format.shouldSplitLeaf] using (Bool.and_eq_true_iff.mp hSplit).2
    have hHalf := env.fmt.halfAt_division hLength
    have hTake : pairs.take (env.fmt.division pairs) ≠ [] := by
      refine ne_nil_of_length_pos ?_
      rw [length_take]
      exact lt_min hHalf.pos (by omega)
    have hDrop : pairs.drop (env.fmt.division pairs) ≠ [] := by
      refine ne_nil_of_length_pos ?_
      rw [length_drop]
      exact Nat.sub_pos_of_lt hHalf.lt
    refine ⟨?_, ?_⟩
    · rintro ⟨_, _, _, _, hPieces, _⟩
      rcases leafPieces_split hSplit hSorted hPieces with ⟨hLeft, hRight, _⟩
      exact ⟨_, hHalf, (env.fmt.leafEncodable_iff hTake).mp hLeft,
        (env.fmt.leafEncodable_iff hDrop).mp hRight⟩
    · rintro ⟨i, hAt, hLeft, hRight⟩
      rw [hAt.unique hHalf] at hLeft hRight
      rw [← env.fmt.leafEncodable_iff hTake] at hLeft
      rw [← env.fmt.leafEncodable_iff hDrop] at hRight
      have hReturns : ∃ pieces mem', env.leafPieces pairs mem = .ok (pieces, mem') := by
        rcases buildLeaf_returns env mem hLeft with ⟨left, mem1, hFirst⟩
        rcases buildLeaf_returns env mem1 hRight with ⟨_, _, hSecond⟩
        have hLt := hHalf.lt
        simp [BtreeEnv.leafPieces, hSplit, hFirst, hSecond, unwrap,
          getElem?_eq_getElem (show env.fmt.division pairs - 1 < pairs.length by omega)]
      rcases hReturns with ⟨_, mem', hPieces⟩
      rcases leafPieces_split hSplit hSorted hPieces with ⟨_, _, page1, key, page2, rfl, hParts⟩
      exact ⟨page1, key, page2, mem', hPieces, hParts⟩
  · intro children keys hSplit hLength hSorted
    have hThree : 3 ≤ keys.length := by
      simpa [Format.shouldSplitBranch] using (Bool.and_eq_true_iff.mp hSplit).2
    have hTake : keys.take (keys.length / 2) ≠ [] :=
      ne_nil_of_length_pos (by rw [length_take]; omega)
    have hDrop : keys.drop (keys.length / 2 + 1) ≠ [] :=
      ne_nil_of_length_pos (by rw [length_drop]; omega)
    rw [← env.fmt.branchEncodable_iff hTake, ← env.fmt.branchEncodable_iff hDrop]
    refine ⟨?_, ?_⟩
    · rintro ⟨_, _, _, _, hPieces, _⟩
      rcases branchPieces_split hSplit hSorted hPieces with ⟨hLeft, hRight, _⟩
      exact ⟨hLeft, hRight⟩
    · rintro ⟨hLeft, hRight⟩
      have hReturns : ∃ pieces mem', env.branchPieces children keys mem = .ok (pieces, mem') := by
        rcases buildBranch_returns env (children.take (keys.length / 2 + 1)) _ mem
          (by rw [length_take, length_take]; omega) hLeft with ⟨left, mem1, hFirst⟩
        rcases buildBranch_returns env (children.drop (keys.length / 2 + 1)) _ mem1
          (by rw [length_drop, length_drop]; omega) hRight with
          ⟨_, _, hSecond⟩
        simp [BtreeEnv.branchPieces, hSplit, require, hLength, hFirst, hSecond, unwrap,
          getElem?_eq_getElem (show keys.length / 2 < keys.length by omega)]
      rcases hReturns with ⟨_, mem', hPieces⟩
      rcases branchPieces_split hSplit hSorted hPieces with ⟨_, _, page1, key, page2, rfl, hParts⟩
      exact ⟨page1, key, page2, mem', hPieces, hParts⟩

/- Two values that do not fit in one page. -/
theorem two_values_are_split :
    ∃ page1 key page2 mem', natEnv.leafPieces [(0, 3000), (1, 3000)] emptyMemory =
        .ok (⟨(page1, deferred), some (key, page2, deferred)⟩, mem') ∧
      SplitLeaf [(0, 3000), (1, 3000)] emptyMemory mem' page1 page2 key :=
  ((split_divides_iff natEnv 0 emptyMemory).1 [(0, 3000), (1, 3000)]
    (by decide +kernel) (by simp [Sorted])).mpr
    ⟨1, ⟨by decide, by decide, Or.inr rfl, fun j hPos hLt => by omega⟩,
      ⟨by decide, by decide, fun _ => by decide, fun _ => by decide⟩,
      ⟨by decide, by decide, fun _ => by decide, fun _ => by decide⟩⟩

/-
  A leaf on a large page, where one more value of the largest allowed size makes the first part too
  long for any page.
-/
theorem first_part_too_long :
    natFormat.shouldSplitLeaf [(0, 1153433600), (1, 3221225472), (2, 5)] = true ∧
      natEnv.leafPieces [(0, 1153433600), (1, 3221225472), (2, 5)] emptyMemory =
        .error .outOfRange ∧
      natEnv.tableRun [.call (.call (.insert 0 2306867200)), .call (.call (.insert 0 5)),
          .call (.call (.insert 2 5)), .call (.call (.insert 0 1153433600)),
          .call (.call (.insert 1 3221225472))]
        ⟨none, emptyMemory⟩ = .error .outOfRange :=
  ⟨rfl, rfl, rfl⟩

end Redbx
