import Redbx.Btree.Mutator

/-
  What insertion and deletion do to the entries of a subtree.

  `Tree.Good` is the search-tree invariant: all leaves at the same depth and not empty, branches
  with at least one key, and every subtree inside the key range its separators leave for it. Each
  helper keeps it, and changes the entries as the map operation does.

  Key theorems include:
    * `insertHelper_contents`, `deleteHelper_contents`
-/

namespace Redbx

open List Chain

variable {P K V : Type} [LinearOrder K]

-- The Search-Tree Invariant

/- Pairs that a leaf may hold in a key range. -/
def LeafGood (lo hi : Option K) (pairs : List (K × V)) : Prop :=
  pairs ≠ [] ∧ Sorted pairs ∧ ∀ e ∈ pairs, Within lo hi e.1

namespace Tree

/- The search-tree invariant in the key range `(lo, hi]`. -/
def Good : (n : Nat) → Option K → Option K → Tree P K V n → Prop
  | 0, lo, hi, leaf => LeafGood lo hi (Leaf.pairs leaf)
  | n + 1, lo, hi, branch =>
    Branch.keys branch ≠ [] ∧ Chain (fun lo hi c => Good n lo hi c.1)
        (Branch.keys branch) lo (Branch.children branch) hi

/- The invariant for a child with its checksum. -/
abbrev ChildGood (n : Nat) (lo hi : Option K) (c : Tree P K V n × Checksum) : Prop :=
  Good n lo hi c.1

/- The entries below a list of children. -/
def childEntries (n : Nat) (children : Children P K V n) : List (K × V) :=
  children.flatMap fun c => entries n c.1

omit [LinearOrder K] in
theorem childEntries_append (n : Nat) (a b : Children P K V n) :
    childEntries n (a ++ b) = childEntries n a ++ childEntries n b := by
  simp [childEntries]

omit [LinearOrder K] in
theorem childEntries_singleton (n : Nat) (c : Tree P K V n × Checksum) :
    childEntries n [c] = entries n c.1 := by
  simp [childEntries]

variable {n : Nat}

theorem Good.leafGood {lo hi : Option K} {t : Tree P K V n} (hGood : Good n lo hi t) :
    LeafGood lo hi (entries n t) := by
  induction n generalizing lo hi with
  | zero => exact hGood
  | succ n ih =>
    exact Chain.contents (fun c : Tree P K V n × Checksum => entries n c.1)
      (fun _ _ _ h => ih h) hGood.2

theorem within_none (key : K) : Within none none key := by
  simp [Within]

theorem Good.widen {lo hi lo' hi' : Option K} {t : Tree P K V n} (hGood : Good n lo hi t)
    (hInside : Inside lo hi lo' hi') :
    Good n lo' hi' t := by
  induction n generalizing lo hi lo' hi' with
  | zero => exact ⟨hGood.1, hGood.2.1, fun e he => (hGood.2.2 e he).mono hInside⟩
  | succ n ih =>
    have hWiden : ∀ lo hi lo' hi' (c : Tree P K V n × Checksum),
          Good n lo hi c.1 → Inside lo hi lo' hi' →
          Good n lo' hi' c.1 :=
      fun _ _ _ _ _ h hIn => ih h hIn
    exact ⟨hGood.1, Chain.widen hWiden hGood.2 hInside⟩

theorem keys_sorted {ks : List K} {lo hi : Option K} {cs : Children P K V n}
    (hChain : Chain (ChildGood n) ks lo cs hi) :
    ks.Pairwise (· < ·) ∧ ∀ k ∈ ks, ∀ a ∈ lo, a < k := by
  induction ks generalizing lo cs with
  | nil => simp
  | cons k ks ih =>
    rcases hChain with ⟨c, rest, rfl, hGood, hRest⟩
    rcases ih hRest with ⟨hSorted, hAbove⟩
    have hLow : ∀ a ∈ lo, a < k := by
      rcases hGood.leafGood with ⟨hNe, _, hIn⟩
      rcases exists_mem_of_ne_nil _ hNe with ⟨e, he⟩
      intro a ha
      exact lt_of_lt_of_le ((hIn e he).1 a ha) ((hIn e he).2 k rfl)
    refine ⟨pairwise_cons.mpr ⟨?_, hSorted⟩, ?_⟩
    · exact fun x hx => hAbove x hx k rfl
    · intro x hx a ha
      rcases mem_cons.mp hx with rfl | hIn
      · exact hLow a ha
      · exact lt_trans (hLow a ha) (hAbove x hIn k rfl)

end Tree

open Redbx.Tree

-- Positions in a Leaf

/-
  A search in a leaf splits its pairs into those below the key, the pair of the key, and those above
  it.
-/
theorem position_cases (leaf : Leaf P K V) (key : K) (hSorted : Sorted leaf.pairs) :
    ∃ a b, Below key a ∧ Above key b ∧ ((leaf.position key = (a.length, false) ∧
          leaf.pairs = a ++ [] ++ b) ∨
        ∃ v, leaf.position key = (a.length, true) ∧ leaf.pairs = a ++ [(key, v)] ++ b) := by
  have hKeys : (leaf.pairs.map Prod.fst).Pairwise (· < ·) := pairwise_map.mpr hSorted
  rcases hSorted.around key with ⟨a, b, hA, hB, ⟨_, hList⟩ | ⟨v, _, hList⟩⟩
  · refine ⟨a, b, hA, hB, Or.inl ⟨?_, hList⟩⟩
    rw [hList] at hKeys
    rw [Leaf.position, hList]
    simp only [append_nil, map_append] at hKeys ⊢
    rw [search_append _ _ key ?_ ?_ ?_]
    · have hHead : ¬(b.map Prod.fst).head? = some key := by
        cases b with
        | nil => simp
        | cons e rest =>
          have hGt := hB e mem_cons_self
          simpa using ne_of_gt hGt
      rw [decide_eq_false hHead, length_map]
    · intro k hk
      rcases mem_map.mp hk with ⟨e, he, rfl⟩
      exact hA e he
    · intro k hk
      rcases mem_map.mp hk with ⟨e, he, rfl⟩
      exact le_of_lt (hB e he)
    · exact (pairwise_append.mp hKeys).2.1
  · refine ⟨a, b, hA, hB, Or.inr ⟨v, ?_, hList⟩⟩
    rw [hList] at hKeys
    rw [Leaf.position, hList]
    simp only [append_assoc, map_append] at hKeys ⊢
    rw [search_append _ _ key ?_ ?_ ?_]
    · simp
    · intro k hk
      rcases mem_map.mp hk with ⟨e, he, rfl⟩
      exact hA e he
    · intro k hk
      simp only [map_cons, map_nil, cons_append, nil_append] at hk
      rcases mem_cons.mp hk with rfl | hIn
      · exact le_refl _
      · rcases mem_map.mp hIn with ⟨e, he, rfl⟩
        exact le_of_lt (hB e he)
    · exact (pairwise_append.mp hKeys).2.1

theorem insertPairs_eq
    (leaf : Leaf P K V) (key : K) (value : V) (hSorted : Sorted leaf.pairs) {position : Nat}
    {found : Bool} (hSearch : leaf.position key = (position, found)) :
    insertInplace leaf.pairs position found key value = insertEntry key value leaf.pairs ∧
      insertRebuilt leaf.pairs position found key value = insertEntry key value leaf.pairs ∧
      (if found then (leaf.pairs[position]?).map Prod.snd else none) = leaf.pairs.lookup key := by
  rcases position_cases leaf key hSorted with ⟨a, b, hA, hB, ⟨hPos, hList⟩ | ⟨v, hPos, hList⟩⟩
  · rw [hSearch] at hPos
    cases hPos
    rw [hList]
    refine ⟨?_, ?_, ?_⟩
    · rw [insertEntry_middle hA hB, insertEntry_nil]
      exact insertIdx_middle a b (key, value)
    · rw [insertEntry_middle hA hB, insertEntry_nil, insertRebuilt]
      exact splice_append a [] b _
    · rw [lookup_middle hA hB]
      simp
  · rw [hSearch] at hPos
    cases hPos
    rw [hList]
    refine ⟨?_, ?_, ?_⟩
    · rw [insertEntry_middle hA hB, insertEntry_singleton]
      exact modify_middle a b (key, v) _
    · rw [insertEntry_middle hA hB, insertEntry_singleton, insertRebuilt]
      exact splice_append a [(key, v)] b _
    · rw [lookup_middle hA hB]
      simp

variable {lo hi : Option K} {key : K}

theorem LeafGood.insertEntry
    {pairs : List (K × V)} (hGood : LeafGood lo hi pairs) (hKey : Within lo hi key) (value : V) :
    LeafGood lo hi (insertEntry key value pairs) := by
  refine ⟨by simp [Redbx.insertEntry], hGood.2.1.insertEntry key value, ?_⟩
  intro e he
  rcases mem_append.mp he with hLow | hHigh
  · exact hGood.2.2 e (mem_filter.mp hLow).1
  · rcases mem_cons.mp hHigh with rfl | hIn
    · exact hKey
    · exact hGood.2.2 e (mem_filter.mp hIn).1

/- Good pairs fall apart behind every pair. -/
theorem LeafGood.split
    {a b : List (K × V)} {x : K × V} (hGood : LeafGood lo hi (a ++ [x] ++ b)) (hNe : b ≠ []) :
    LeafGood lo (some x.1) (a ++ [x]) ∧ LeafGood (some x.1) hi b := by
  rcases pairwise_append.mp hGood.2.1 with ⟨hSortL, hSortR, hCross⟩
  refine ⟨⟨by simp, hSortL, fun e he => ⟨?_, ?_⟩⟩, ⟨hNe, hSortR, fun e he => ⟨?_, ?_⟩⟩⟩
  · exact (hGood.2.2 e (mem_append_left _ he)).1
  · intro k hk
    cases hk
    rcases mem_append.mp he with hIn | hIn
    · exact le_of_lt ((pairwise_append.mp hSortL).2.2 e hIn x mem_cons_self)
    · rw [mem_singleton.mp hIn]
  · intro k hk
    cases hk
    exact hCross x (by simp) e he
  · exact (hGood.2.2 e (mem_append_right _ he)).2

/- Good pairs on both sides of a key can be joined. -/
theorem LeafGood.append {a b : List (K × V)} {k : K} (hLeft : LeafGood lo (some k) a)
    (hRight : LeafGood (some k) hi b) :
    LeafGood lo hi (a ++ b) := by
  rcases exists_mem_of_ne_nil _ hLeft.1 with ⟨x, hx⟩
  rcases exists_mem_of_ne_nil _ hRight.1 with ⟨y, hy⟩
  refine ⟨by simp [hLeft.1], ?_, ?_⟩
  · refine pairwise_append.mpr ⟨hLeft.2.1, hRight.2.1, ?_⟩
    intro e he f hf
    exact lt_of_le_of_lt ((hLeft.2.2 e he).2 k rfl) ((hRight.2.2 f hf).1 k rfl)
  · intro e he
    rcases mem_append.mp he with hIn | hIn
    · refine ⟨(hLeft.2.2 e hIn).1, fun c hc => ?_⟩
      exact le_trans ((hLeft.2.2 e hIn).2 k rfl)
        (le_trans (le_of_lt ((hRight.2.2 y hy).1 k rfl)) ((hRight.2.2 y hy).2 c hc))
    · refine ⟨fun c hc => ?_, (hRight.2.2 e hIn).2⟩
      exact lt_trans (lt_of_lt_of_le ((hLeft.2.2 x hx).1 c hc) ((hLeft.2.2 x hx).2 k rfl))
        ((hRight.2.2 e hIn).1 k rfl)

-- Pieces

variable [DecidableEq P] (env : BtreeEnv P K V)

variable {mem mem' : Mem P K V}

/- Written leaves hold the pairs, in one or two pages. -/
theorem leafPieces_contents
    {pairs : List (K × V)} {pieces : Pieces K (Leaf P K V)} (hGood : LeafGood lo hi pairs)
    (hPieces : env.leafPieces pairs mem = .ok (pieces, mem')) :
    Chain (ChildGood 0) pieces.keys lo pieces.children hi ∧
      childEntries 0 pieces.children = pairs := by
  rcases env.leafPieces_ok hPieces with ⟨leaf, _, hBuild, rfl⟩ |
      ⟨left, mem1, right, splitPair, hSplit, hLeft, hRight, hPair, rfl⟩
  · have hPairs := (env.buildLeaf_ok hBuild).2.1
    have hLeaf : Good 0 lo hi leaf := by
      change LeafGood lo hi leaf.pairs
      rwa [hPairs]
    refine ⟨(nil_singleton _ _ _).mpr hLeaf, ?_⟩
    exact (childEntries_singleton 0 _).trans hPairs
  · have hLength : 1 < pairs.length := by
      simpa [Format.shouldSplitLeaf] using (Bool.and_eq_true_iff.mp hSplit).2
    have hBounds := env.fmt.division_bounds pairs hLength
    have hL := (env.buildLeaf_ok hLeft).2.1
    have hR := (env.buildLeaf_ok hRight).2.1
    generalize env.fmt.division pairs = d at *
    -- the last pair of the first page carries the key
    rcases exists_window pairs (d - 1) 1 (by omega) with ⟨a, m, b, rfl, hA, hM⟩
    rcases length_eq_one_iff.mp hM with ⟨x, rfl⟩
    have hD : d = (a ++ [x]).length := by
      simp
      omega
    rw [← hA, getElem?_middle] at hPair
    cases hPair
    rw [hD, take_left] at hL
    rw [hD, drop_left] at hR
    have hNe : b ≠ [] := by
      intro hNil
      subst hNil
      simp at hBounds
      omega
    rcases hGood.split hNe with ⟨hFirst, hSecond⟩
    have hLeftGood : Good 0 lo (some splitPair.1) left := by
      change LeafGood lo (some splitPair.1) left.pairs
      rwa [hL]
    have hRightGood : Good 0 (some splitPair.1) hi right := by
      change LeafGood (some splitPair.1) hi right.pairs
      rwa [hR]
    refine ⟨?_, ?_⟩
    · exact (cons_cons _ _ _ _ _ _).mpr
        ⟨hLeftGood, (nil_singleton _ _ _).mpr hRightGood⟩
    · change childEntries 0 ([(left, deferred)] ++ [(right, deferred)]) = _
      rw [childEntries_append, childEntries_singleton, childEntries_singleton]
      change left.pairs ++ right.pairs = _
      rw [hL, hR]

/- Written branches hold the children, in one or two pages. -/
theorem branchPieces_contents {n : Nat} {children : Children P K V n} {keys : List K}
    {pieces : Pieces K (Branch P K (Tree P K V n))}
    (hChain : Chain (ChildGood n) keys lo children hi)
    (hPieces : env.branchPieces children keys mem = .ok (pieces, mem')) :
    Chain (ChildGood (n + 1)) pieces.keys lo pieces.children hi ∧
      childEntries (n + 1) pieces.children = childEntries n children := by
  have hNe : ∀ keys : List K, env.fmt.branchEncodable keys = true → keys ≠ [] := by
    rintro keys hFits rfl
    simp [Format.branchEncodable] at hFits
  rcases env.branchPieces_ok hPieces with ⟨branch, _, hBuild, rfl⟩ |
      ⟨left, mem1, right, divisionKey, _, hLength, hKey, hLeft, hRight, rfl⟩
  · rcases env.buildBranch_ok hBuild with ⟨_, hFits, hC, hK, _⟩
    have hGood : Good (n + 1) lo hi branch := by
      change branch.keys ≠ [] ∧ Chain (ChildGood n) branch.keys lo branch.children hi
      rw [hC, hK]
      exact ⟨hNe keys hFits, hChain⟩
    refine ⟨(nil_singleton _ _ _).mpr hGood, ?_⟩
    rw [← hC]
    exact childEntries_singleton (n + 1) _
  · rcases env.buildBranch_ok hLeft with ⟨_, hFitL, hCL, hKL, _⟩
    rcases env.buildBranch_ok hRight with ⟨_, hFitR, hCR, hKR, _⟩
    have hIn : keys.length / 2 < keys.length := (List.getElem?_eq_some_iff.mp hKey).1
    generalize keys.length / 2 = d at *
    rcases exists_window keys d 1 (by omega) with ⟨ka, km, kb, rfl, hA, hM⟩
    rcases length_eq_one_iff.mp hM with ⟨k, rfl⟩
    subst hA
    rw [getElem?_middle] at hKey
    cases hKey
    have hTakeK : (ka ++ [divisionKey] ++ kb).take ka.length = ka := by simp
    have hDropK : (ka ++ [divisionKey] ++ kb).drop (ka.length + 1) = kb := by
      have hLen : ka.length + 1 = (ka ++ [divisionKey]).length := by simp
      rw [hLen, drop_left]
    rw [hTakeK] at hFitL hKL
    rw [hDropK] at hFitR hKR
    have hSplit : Chain (ChildGood n) ka lo (children.take (ka.length + 1)) (some divisionKey) ∧
          Chain (ChildGood n) kb (some divisionKey) (children.drop (ka.length + 1)) hi := by
      refine (append_iff ?_).mp ?_
      · rw [length_take, hLength]
        simp
      · rw [take_append_drop]
        simpa using hChain
    have hGoodL : Good (n + 1) lo (some divisionKey) left := by
      change left.keys ≠ [] ∧ Chain (ChildGood n) left.keys lo left.children (some divisionKey)
      rw [hCL, hKL]
      exact ⟨hNe ka hFitL, hSplit.1⟩
    have hGoodR : Good (n + 1) (some divisionKey) hi right := by
      change right.keys ≠ [] ∧ Chain (ChildGood n) right.keys (some divisionKey) right.children hi
      rw [hCR, hKR]
      exact ⟨hNe kb hFitR, hSplit.2⟩
    refine ⟨?_, ?_⟩
    · exact (cons_cons _ _ _ _ _ _).mpr ⟨hGoodL, (nil_singleton _ _ _).mpr hGoodR⟩
    · change childEntries (n + 1) ([(left, deferred)] ++ [(right, deferred)]) = _
      rw [childEntries_append, childEntries_singleton, childEntries_singleton]
      change childEntries n left.children ++ childEntries n right.children = _
      rw [hCL, hCR, ← childEntries_append, take_append_drop]

-- Insertion

/- A subtree after the insertion of an entry. -/
def Inserted (n : Nat) (lo hi : Option K) (key : K) (value : V) (before : List (K × V))
    (result : InsertionResult K V (Tree P K V n)) :
    Prop :=
  Chain (ChildGood n) result.pieces.keys lo result.pieces.children hi ∧
    childEntries n result.pieces.children = insertEntry key value before ∧
    result.oldValue = before.lookup key

theorem insertLeaf_contents {modify : Bool} {leaf : Leaf P K V} {checksum : Checksum} {value : V}
    {result : InsertionResult K V (Leaf P K V)} (hGood : LeafGood lo hi leaf.pairs)
    (hKey : Within lo hi key)
    (hInsert : env.LeafInsertion modify leaf checksum key value mem result mem') :
    Inserted (P := P) 0 lo hi key value leaf.pairs result := by
  have hNew := hGood.insertEntry hKey value
  cases hInsert with
  | before newLeaf _ hSearch _ hBuild =>
    have hPairs := (env.buildLeaf_ok hBuild).2.1
    rcases position_cases leaf key hGood.2.1 with ⟨a, b, hA, hB, ⟨hPos, hList⟩ | ⟨v, hPos, _⟩⟩
    · rw [hSearch] at hPos
      have hNil : a = [] := by
        have hZero := congrArg Prod.fst hPos
        exact length_eq_zero_iff.mp hZero.symm
      subst hNil
      have hList' : leaf.pairs = b := by simpa using hList
      have hFirst : Good 0 lo (some key) newLeaf := by
        change LeafGood lo (some key) newLeaf.pairs
        rw [hPairs]
        refine ⟨by simp, by simp [Sorted], ?_⟩
        intro e he
        rw [mem_singleton.mp he]
        exact ⟨hKey.1, fun k hk => by cases hk; exact le_refl _⟩
      have hSecond : Good 0 (some key) hi leaf := by
        refine ⟨hGood.1, hGood.2.1, fun e he => ⟨?_, ?_⟩⟩
        · intro k hk
          cases hk
          exact hB e (hList' ▸ he)
        · exact (hGood.2.2 e he).2
      refine ⟨?_, ?_, ?_⟩
      · exact (cons_cons _ _ _ _ _ _).mpr ⟨hFirst, (nil_singleton _ _ _).mpr hSecond⟩
      · change newLeaf.pairs ++ (leaf.pairs ++ []) = _
        rw [hPairs, hList, insertEntry_middle hA hB, insertEntry_nil]
        simp
      · change none = _
        rw [hList, lookup_middle hA hB]
        rfl
    · rw [hSearch] at hPos
      cases congrArg Prod.snd hPos
  | after newLeaf _ position _ hSearch _ hLarge hBuild hLast =>
    have hPairs := (env.buildLeaf_ok hBuild).2.1
    have hOne : leaf.pairs.length = 1 := by
      simpa [Format.singleLargeValue] using (Bool.and_eq_true_iff.mp hLarge).1
    rcases length_eq_one_iff.mp hOne with ⟨x, hX⟩
    rw [hX] at hLast
    cases hLast
    rcases position_cases leaf key hGood.2.1 with ⟨a, b, hA, hB, ⟨hPos, hList⟩ | ⟨v, hPos, _⟩⟩
    · rw [hSearch] at hPos
      have hLen : a.length ≠ 0 := by
        have hEq := congrArg Prod.fst hPos
        change position = a.length at hEq
        omega
      have hNil : b = [] := by
        refine length_eq_zero_iff.mp ?_
        have hLength := congrArg List.length hList
        simp only [append_nil, length_append] at hLength
        omega
      subst hNil
      have hList' : leaf.pairs = a := by simpa using hList
      have hLt : x.1 < key := by
        refine hA x ?_
        rw [← hList', hX]
        exact mem_cons_self
      have hFirst : Good 0 lo (some x.1) leaf := by
        refine ⟨hGood.1, hGood.2.1, fun e he => ⟨?_, ?_⟩⟩
        · exact (hGood.2.2 e he).1
        · intro k hk
          cases hk
          rw [hX] at he
          rw [mem_singleton.mp he]
      have hSecond : Good 0 (some x.1) hi newLeaf := by
        change LeafGood (some x.1) hi newLeaf.pairs
        rw [hPairs]
        refine ⟨by simp, by simp [Sorted], ?_⟩
        intro e he
        rw [mem_singleton.mp he]
        exact ⟨fun k hk => by cases hk; exact hLt, hKey.2⟩
      refine ⟨?_, ?_, ?_⟩
      · exact (cons_cons _ _ _ _ _ _).mpr ⟨hFirst, (nil_singleton _ _ _).mpr hSecond⟩
      · change leaf.pairs ++ (newLeaf.pairs ++ []) = _
        rw [hPairs, hList, insertEntry_middle hA hB, insertEntry_nil]
        simp
      · change none = _
        rw [hList, lookup_middle hA hB]
        rfl
    · rw [hSearch] at hPos
      cases congrArg Prod.snd hPos
  | inPlace _ _ hSearch =>
    rcases insertPairs_eq leaf key value hGood.2.1 hSearch with ⟨hPairs, _, hOld⟩
    rw [hPairs]
    refine ⟨?_, ?_, hOld⟩
    · exact (nil_singleton _ _ _).mpr hNew
    · exact append_nil _
  | rebuilt _ _ _ _ hSearch _ _ hPieces =>
    rcases insertPairs_eq leaf key value hGood.2.1 hSearch with ⟨_, hPairs, hOld⟩
    rw [hPairs] at hPieces
    rcases leafPieces_contents env hNew hPieces with ⟨hChain, hEntries⟩
    exact ⟨hChain, hEntries, hOld⟩

-- Descending

/-
  The child of a key in a branch: what stands on both sides of it, the key range it fills, and that
  any chain over this range may take its place.
-/
structure Route {n : Nat} (branch : Branch P K (Tree P K V n)) (lo hi : Option K) (key : K)
    (ca : Children P K V n) (c : Tree P K V n × Checksum)
    (cb : Children P K V n) (ka kb : List K) :
    Prop where
  children_eq : branch.children = ca ++ [c] ++ cb
  keys_eq : branch.keys = ka ++ [] ++ kb
  length_eq : ca.length = ka.length
  index_eq : branch.childForKey key = ca.length
  within : Within (lastBound lo ka) (firstBound kb hi) key
  good : Good n (lastBound lo ka) (firstBound kb hi) c.1
  below : Below key (childEntries n ca)
  above : Above key (childEntries n cb)
  replace : ∀ km cm, Chain (ChildGood n) km (lastBound lo ka) cm (firstBound kb hi) →
      Chain (ChildGood n) (ka ++ km ++ kb) lo (ca ++ cm ++ cb) hi

omit [DecidableEq P] in
theorem exists_route
    {n : Nat} {branch : Branch P K (Tree P K V n)} (hGood : Good (n + 1) lo hi branch)
    (hKey : Within lo hi key) :
    ∃ ca c cb ka kb, Route branch lo hi key ca c cb ka kb := by
  have hChain : Chain (ChildGood n) branch.keys lo branch.children hi := hGood.2
  rcases exists_search_eq branch.keys key (keys_sorted hChain).1 with
    ⟨ka, kb, hKeys, hBelow, hAbove, hSearch⟩
  have hLength := hChain.length_eq
  rcases exists_window branch.children ka.length 1 (by rw [hLength, hKeys]; simp) with
    ⟨ca, cm, cb, hChildren, hA, hM⟩
  rcases length_eq_one_iff.mp hM with ⟨c, rfl⟩
  rw [hChildren, hKeys, show ka ++ kb = ka ++ [] ++ kb by simp] at hChain
  rcases Chain.window hA rfl hChain with ⟨hMid, hReplace⟩
  rcases Chain.outside (fun c : Tree P K V n × Checksum => entries n c.1)
    (fun _ _ _ h => Good.leafGood h) hA rfl hChain with
    ⟨hLeft, hRight⟩
  have hWithin : Within (lastBound lo ka) (firstBound kb hi) key := by
    refine ⟨fun a ha => ?_, fun b hb => ?_⟩
    · rcases Option.or_eq_some_iff.mp ha with hLast | ⟨_, hLo⟩
      · exact hBelow a (mem_of_getLast? hLast)
      · exact hKey.1 a hLo
    · rcases Option.or_eq_some_iff.mp hb with hHead | ⟨_, hHi⟩
      · exact hAbove b (mem_of_head? hHead)
      · exact hKey.2 b hHi
  have hC : ChildGood n (lastBound lo ka) (firstBound kb hi) c :=
    (nil_singleton _ _ _).mp hMid
  refine ⟨ca, c, cb, ka, kb, hChildren, by simpa using hKeys, hA, ?_, hWithin, hC, ?_, ?_, hReplace⟩
  · rw [Branch.childForKey, hSearch, hA]
  · intro e he
    rcases hLeft e he with ⟨a, ha, hLe⟩
    exact lt_of_le_of_lt hLe (hWithin.1 a ha)
  · intro e he
    rcases hRight e he with ⟨b, hb, hLt⟩
    exact lt_of_le_of_lt (hWithin.2 b hb) hLt

section Routes

variable {n : Nat} {branch : Branch P K (Tree P K V n)} {lo hi : Option K} {key : K}
    {ca cb : Children P K V n} {c : Tree P K V n × Checksum} {ka kb : List K}

variable (hRoute : Route branch lo hi key ca c cb ka kb)
include hRoute
omit [DecidableEq P]

theorem Route.entries_eq :
    entries (n + 1) branch = childEntries n ca ++ entries n c.1 ++ childEntries n cb := by
  change childEntries n branch.children = _
  rw [hRoute.children_eq, childEntries_append, childEntries_append, childEntries_singleton]

theorem Route.child_eq : branch.children[branch.childForKey key]? = some c := by
  rw [hRoute.children_eq, hRoute.index_eq, getElem?_middle]

/- Putting other children in the place of the child. -/
theorem Route.children_splice (cm : Children P K V n) :
    splice branch.children (branch.childForKey key) 1 cm = ca ++ cm ++ cb := by
  rw [hRoute.children_eq, hRoute.index_eq]
  exact splice_append ca [c] cb cm

/- Putting other keys between the children around it. -/
theorem Route.keys_splice (km : List K) :
    splice branch.keys (branch.childForKey key) 0 km = ka ++ km ++ kb := by
  rw [hRoute.keys_eq, hRoute.index_eq, hRoute.length_eq]
  exact splice_append ka [] kb km

theorem Route.set_eq (d : Tree P K V n × Checksum) :
    branch.children.set (branch.childForKey key) d = ca ++ [d] ++ cb := by
  rw [hRoute.children_eq, hRoute.index_eq, set_middle]

end Routes

variable {lo hi : Option K} {n : Nat} {key : K} {mem mem' : Mem P K V}

/- Insertion into a subtree. -/
theorem insertHelper_contents {modify : Bool} {t : Tree P K V n} {checksum : Checksum} {value : V}
    {result : InsertionResult K V (Tree P K V n)} (hGood : Good n lo hi t) (hKey : Within lo hi key)
    (hInsert : env.insertHelper modify n t checksum key value mem = .ok (result, mem')) :
    Inserted n lo hi key value (entries n t) result := by
  induction n generalizing lo hi checksum mem mem' with
  | zero => exact insertLeaf_contents env hGood hKey (env.insertLeaf_ok modify hInsert)
  | succ n ih =>
    rcases env.insertHelper_ok modify hInsert with ⟨child, sub, mem1, hChild, hSub, hBranch⟩
    rcases exists_route hGood hKey with ⟨ca, c, cb, ka, kb, hRoute⟩
    rw [hRoute.child_eq] at hChild
    cases hChild
    rcases ih hRoute.good hRoute.within hSub with ⟨hChain, hEntries, hOld⟩
    -- the branch with the pieces in place of the child
    have hAll := hRoute.replace _ _ hChain
    have hContents : childEntries n (ca ++ sub.pieces.children ++ cb) =
          insertEntry key value (entries (n + 1) t) := by
      rw [hRoute.entries_eq, insertEntry_middle hRoute.below hRoute.above,
        childEntries_append, childEntries_append, hEntries]
    have hLookup : sub.oldValue = (entries (n + 1) t).lookup key := by
      rw [hRoute.entries_eq, lookup_middle hRoute.below hRoute.above, hOld]
    cases hBranch with
    | inPlace hNext =>
      have hPieces : sub.pieces.children = [sub.pieces.first] := by simp [Pieces.children, hNext]
      have hKeys : sub.pieces.keys = [] := by simp [Pieces.keys, hNext]
      rw [hPieces] at hAll hContents
      rw [hKeys, ← hRoute.keys_eq] at hAll
      rw [hRoute.set_eq]
      refine ⟨(nil_singleton _ _ _).mpr ⟨hGood.1, hAll⟩, ?_, hLookup⟩
      exact (childEntries_singleton (n + 1) _).trans hContents
    | rebuilt _ _ hPieces =>
      rw [hRoute.children_splice, hRoute.keys_splice] at hPieces
      rcases branchPieces_contents env hAll hPieces with ⟨hNew, hNewEntries⟩
      exact ⟨hNew, hNewEntries.trans hContents, hLookup⟩

-- Deletion

/- What is left of a subtree holds exactly the entries `target`, in the key range `(lo, hi]`. -/
def Left (lo hi : Option K) (target : List (K × V)) : {n : Nat} → DeletionResult P K V n → Prop
  | n, .subtree t _ => Good n lo hi t ∧ entries n t = target
  | 0, .deletedLeaf => target = []
  | 0, .partialLeaf pairs deletedPair =>
    pairs.eraseIdx deletedPair = target ∧ pairs.length = target.length + 1 ∧ LeafGood lo hi target
  | n + 1, .partialBranch branch _ =>
    Good (n + 1) lo hi branch ∧ entries (n + 1) branch = target
  | n + 1, .deletedBranch child _ =>
    Good n lo hi child ∧ entries n child = target

omit [DecidableEq P] in
theorem erasePairs_eq
    (leaf : Leaf P K V) (key : K) (hSorted : Sorted leaf.pairs) {position : Nat} {pair : K × V}
    (hSearch : leaf.position key = (position, true)) (hPair : leaf.pairs[position]? = some pair) :
    leaf.pairs.eraseIdx position = eraseEntry key leaf.pairs ∧
      leaf.pairs.lookup key = some pair.2 := by
  rcases position_cases leaf key hSorted with ⟨a, b, hA, hB, ⟨hPos, _⟩ | ⟨v, hPos, hList⟩⟩
  · rw [hSearch] at hPos
    cases congrArg Prod.snd hPos
  · rw [hSearch] at hPos
    cases hPos
    rw [hList, getElem?_middle] at hPair
    cases hPair
    rw [hList, eraseEntry_middle hA hB, eraseEntry_singleton, lookup_middle hA hB, eraseIdx_middle]
    simp

omit [DecidableEq P] in
/- A failed search means the key has no entry. -/
theorem lookup_of_not_found
    (leaf : Leaf P K V) (key : K) (hSorted : Sorted leaf.pairs) {position : Nat}
    (hSearch : leaf.position key = (position, false)) :
    leaf.pairs.lookup key = none := by
  rcases position_cases leaf key hSorted with ⟨a, b, hA, hB, ⟨_, hList⟩ | ⟨v, hPos, _⟩⟩
  · rw [hList, lookup_middle hA hB]
    rfl
  · rw [hSearch] at hPos
    cases congrArg Prod.snd hPos

omit [DecidableEq P] in
theorem LeafGood.eraseEntry
    {pairs : List (K × V)} (hGood : LeafGood lo hi pairs) (hNe : eraseEntry key pairs ≠ []) :
    LeafGood lo hi (eraseEntry key pairs) :=
  ⟨hNe, hGood.2.1.eraseEntry key, fun e he => hGood.2.2 e (mem_filter.mp he).1⟩

theorem deleteLeaf_contents {modify : Bool} {leaf : Leaf P K V} {checksum : Checksum}
    {result : DeletionResult P K V 0} {found : Option V} (hGood : LeafGood lo hi leaf.pairs)
    (hDelete : env.LeafDeletion modify leaf checksum key mem result found mem') :
    found = leaf.pairs.lookup key ∧ Left lo hi (eraseEntry key leaf.pairs) result := by
  have hSorted := hGood.2.1
  have hKeep : ∀ position pair, leaf.position key = (position, true) →
        leaf.pairs[position]? = some pair →
        leaf.pairs.length ≠ 1 →
        LeafGood lo hi (eraseEntry key leaf.pairs) := by
    intro position pair hSearch hPair hLength
    refine hGood.eraseEntry ?_
    rw [← (erasePairs_eq leaf key hSorted hSearch hPair).1]
    intro hNil
    have hIn := (List.getElem?_eq_some_iff.mp hPair).1
    have hErase := length_eraseIdx_of_lt hIn
    rw [hNil] at hErase
    simp at hErase
    omega
  cases hDelete with
  | missing _ hSearch =>
    have hNone := lookup_of_not_found leaf key hSorted hSearch
    refine ⟨hNone.symm, hGood, ?_⟩
    exact (eraseEntry_of_lookup_none hNone).symm
  | inPlace position pair hSearch hPair =>
    rcases erasePairs_eq leaf key hSorted hSearch hPair with ⟨hErase, hLookup⟩
    refine ⟨hLookup.symm, ?_, hErase⟩
    change LeafGood lo hi (leaf.pairs.eraseIdx position)
    rw [hErase]
    exact hKeep position pair hSearch hPair (by omega)
  | emptied _ _ hSearch hPair hLength =>
    rcases erasePairs_eq leaf key hSorted hSearch hPair with ⟨hErase, hLookup⟩
    refine ⟨hLookup.symm, ?_⟩
    have hIn := (List.getElem?_eq_some_iff.mp hPair).1
    have hLen := length_eraseIdx_of_lt hIn
    rw [hErase, hLength] at hLen
    exact length_eq_zero_iff.mp hLen
  | underfull position pair hSearch hPair hLength =>
    rcases erasePairs_eq leaf key hSorted hSearch hPair with ⟨hErase, hLookup⟩
    have hIn := (List.getElem?_eq_some_iff.mp hPair).1
    have hCount := length_eraseIdx_of_lt hIn
    rw [hErase] at hCount
    exact ⟨hLookup.symm, hErase, by omega, hKeep position pair hSearch hPair hLength⟩
  | rebuilt position pair newLeaf _ hSearch hPair _ hLength _ hBuild =>
    rcases erasePairs_eq leaf key hSorted hSearch hPair with ⟨hErase, hLookup⟩
    have hPairs : newLeaf.pairs = eraseEntry key leaf.pairs :=
      (env.buildLeaf_ok hBuild).2.1.trans hErase
    refine ⟨hLookup.symm, ?_, hPairs⟩
    change LeafGood lo hi newLeaf.pairs
    rw [hPairs]
    exact hKeep position pair hSearch hPair hLength

theorem finalizeBranchBuilder_contents {children : Children P K V n} {keys : List K}
    {result : DeletionResult P K V (n + 1)} (hChain : Chain (ChildGood n) keys lo children hi)
    (hFinal : env.finalizeBranchBuilder children keys mem = .ok (result, mem')) :
    Left lo hi (childEntries n children) result := by
  have hLength := hChain.length_eq
  match children, hFinal, hChain, hLength with
  | [(child, checksum)], hFinal, hChain, hLength =>
    cases hFinal
    have hNil : keys = [] := length_eq_zero_iff.mp (by simpa using hLength)
    subst hNil
    have hGood : ChildGood n lo hi (child, checksum) := (nil_singleton _ _ _).mp hChain
    exact ⟨hGood, (childEntries_singleton n (child, checksum)).symm⟩
  | c1 :: c2 :: rest, hFinal, hChain, hLength =>
    simp only [BtreeEnv.finalizeBranchBuilder, bind_eq_ok] at hFinal
    rcases hFinal with ⟨⟨branch, mem1⟩, hBuild, hRest⟩
    rcases env.buildBranch_ok hBuild with ⟨_, _, hC, hK, _⟩
    have hNe : keys ≠ [] := by
      rintro rfl
      simp at hLength
    have hGood : Good (n + 1) lo hi branch := by
      change branch.keys ≠ [] ∧ Chain (ChildGood n) branch.keys lo branch.children hi
      rw [hC, hK]
      exact ⟨hNe, hChain⟩
    have hEntries : entries (n + 1) branch = childEntries n (c1 :: c2 :: rest) := by
      change childEntries n branch.children = _
      rw [hC]
    split at hRest <;> cases hRest <;> exact ⟨hGood, hEntries⟩

-- Merging with a Sibling

/-
  Two neighbouring children of a branch: the child `i`, whose key range is `(clo, chi]` and around
  which the branch has the entries `before` and `after`, and the sibling it is merged with.
-/
structure Neighbours
    {n : Nat} (branch : Branch P K (Tree P K V n)) (lo hi : Option K) (i : Nat) (clo chi : Option K)
    (before after : List (K × V)) (sibling : Tree P K V n × Checksum)
    (ca : Children P K V n) (first second : Tree P K V n × Checksum)
    (cb : Children P K V n) (ka : List K) (k : K) (kb : List K) :
    Prop where
  children_eq : branch.children = ca ++ [first, second] ++ cb
  keys_eq : branch.keys = ka ++ [k] ++ kb
  length_eq : ca.length = ka.length
  index_eq : min i (mergeWith i) = ca.length
  sibling_eq : branch.children[mergeWith i]? = some sibling
  order : (i < mergeWith i ∧ i = ca.length ∧ second = sibling ∧
        clo = lastBound lo ka ∧ chi = some k ∧
        before = childEntries n ca ∧
        after = entries n sibling.1 ++ childEntries n cb) ∨
      (¬i < mergeWith i ∧ i = ca.length + 1 ∧ first = sibling ∧ clo = some k ∧
        chi = firstBound kb hi ∧
        before = childEntries n ca ++ entries n sibling.1 ∧
        after = childEntries n cb)
  first_good : Good n (lastBound lo ka) (some k) first.1
  second_good : Good n (some k) (firstBound kb hi) second.1
  replace : ∀ km cm, Chain (ChildGood n) km (lastBound lo ka) cm (firstBound kb hi) →
      Chain (ChildGood n) (ka ++ km ++ kb) lo (ca ++ cm ++ cb) hi

omit [DecidableEq P] in
theorem pair_window {keys : List K} {children : Children P K V n}
    {ca cb : Children P K V n} {first second : Tree P K V n × Checksum}
    {ka kb : List K} {k : K} (hChain : Chain (ChildGood n) keys lo children hi)
    (hChildren : children = ca ++ [first, second] ++ cb) (hKeys : keys = ka ++ [k] ++ kb)
    (hLength : ca.length = ka.length) :
    Good n (lastBound lo ka) (some k) first.1 ∧ Good n (some k) (firstBound kb hi) second.1 ∧
      ∀ km cm, Chain (ChildGood n) km (lastBound lo ka) cm (firstBound kb hi) →
        Chain (ChildGood n) (ka ++ km ++ kb) lo (ca ++ cm ++ cb) hi := by
  rw [hChildren, hKeys] at hChain
  rcases Chain.window hLength rfl hChain with ⟨hMid, hReplace⟩
  rcases (cons_cons _ _ _ _ _ _).mp hMid with ⟨hFirst, hRest⟩
  have hSecond : ChildGood n (some k) (firstBound kb hi) second :=
    (nil_singleton _ _ _).mp hRest
  exact ⟨hFirst, hSecond, hReplace⟩

omit [DecidableEq P] in
theorem exists_neighbours
    {branch : Branch P K (Tree P K V n)} {ca cb : Children P K V n}
    {c : Tree P K V n × Checksum} {ka kb : List K} (hGood : Good (n + 1) lo hi branch)
    (hRoute : Route branch lo hi key ca c cb ka kb) :
    ∃ sibling ca' first second cb' ka' k kb', Neighbours branch lo hi (branch.childForKey key)
        (lastBound lo ka) (firstBound kb hi) (childEntries n ca) (childEntries n cb) sibling
        ca' first second cb' ka' k kb' := by
  have hChain : Chain (ChildGood n) branch.keys lo branch.children hi := hGood.2
  have hCount := hChain.length_eq
  have hIndex := hRoute.index_eq
  rcases eq_nil_or_concat' ca with rfl | ⟨ca', s, rfl⟩
  · -- the first child is merged with the second
    have hNil : ka = [] := length_eq_zero_iff.mp hRoute.length_eq.symm
    subst hNil
    have hKeys : branch.keys = kb := by simpa using hRoute.keys_eq
    cases kb with
    | nil => exact absurd hKeys hGood.1
    | cons k kb =>
      cases cb with
      | nil =>
        rw [hRoute.children_eq, hKeys] at hCount
        simp at hCount
      | cons s cb =>
        have hZero : branch.childForKey key = 0 := hIndex
        have hChildren : branch.children = [] ++ [c, s] ++ cb := by
          rw [hRoute.children_eq]
          rfl
        have hKeys' : branch.keys = [] ++ [k] ++ kb := hKeys
        rcases pair_window hChain hChildren hKeys' rfl with ⟨hFirst, hSecond, hReplace⟩
        refine ⟨s, [], c, s, cb, [], k, kb, hChildren, hKeys', rfl, ?_, ?_, ?_, hFirst, hSecond,
          hReplace⟩
        · rw [hZero]
          rfl
        · rw [hZero, hChildren]
          rfl
        · rw [hZero]
          exact Or.inl ⟨by decide, rfl, rfl, rfl, rfl, rfl, rfl⟩
  · -- any other child is merged with the one before it
    rcases eq_nil_or_concat' ka with rfl | ⟨ka', k, rfl⟩
    · have hLen := hRoute.length_eq
      simp at hLen
    · have hLen : ca'.length = ka'.length := by simpa using hRoute.length_eq
      have hI : branch.childForKey key = ca'.length + 1 := by simpa using hIndex
      have hMerge : mergeWith (branch.childForKey key) = ca'.length := by
        rw [hI]
        simp [mergeWith]
      have hChildren : branch.children = ca' ++ [s, c] ++ cb := by
        rw [hRoute.children_eq]
        simp
      have hKeys' : branch.keys = ka' ++ [k] ++ kb := by
        rw [hRoute.keys_eq]
        simp
      rcases pair_window hChain hChildren hKeys' hLen with ⟨hFirst, hSecond, hReplace⟩
      refine ⟨s, ca', s, c, cb, ka', k, kb, hChildren, hKeys',
        hLen, ?_, ?_, ?_, hFirst, hSecond, hReplace⟩
      · rw [hMerge, hI]
        omega
      · rw [hMerge, hChildren]
        simp
      · rw [hMerge, hI]
        refine Or.inr ⟨by omega, rfl, rfl, ?_, rfl, ?_, rfl⟩
        · simp [lastBound]
        · rw [childEntries_append, childEntries_singleton]

section Merging

variable {n : Nat} {branch : Branch P K (Tree P K V n)} {lo hi clo chi : Option K} {i : Nat}
    {before after : List (K × V)} {sibling first second : Tree P K V n × Checksum}
    {ca cb : Children P K V n} {ka kb : List K} {k : K}

variable (hN : Neighbours branch lo hi i clo chi before after sibling ca first second cb ka k kb)
include hN

omit [DecidableEq P] in
theorem Neighbours.separator_eq : branch.keys[min i (mergeWith i)]? = some k := by
  rw [hN.keys_eq, hN.index_eq, hN.length_eq, getElem?_middle]

omit [DecidableEq P] in
theorem Neighbours.children_splice (children : Children P K V n) :
    splice branch.children (min i (mergeWith i)) 2 children = ca ++ children ++ cb := by
  rw [hN.children_eq, hN.index_eq]
  exact splice_append ca [first, second] cb _

omit [DecidableEq P] in
/- Other keys in the place of the key between the two. -/
theorem Neighbours.keys_splice (keys : List K) :
    splice branch.keys (min i (mergeWith i)) 1 keys = ka ++ keys ++ kb := by
  rw [hN.keys_eq, hN.index_eq, hN.length_eq]
  exact splice_append ka [k] kb _

theorem Neighbours.replacePair_contents
    {modify : Bool} {pieces : Pieces K (Tree P K V n)} {dropped : List P}
    {mem mem' : Mem P K V} {result : DeletionResult P K V (n + 1)} {target : List (K × V)}
    (hChain : Chain (ChildGood n) pieces.keys (lastBound lo ka) pieces.children (firstBound kb hi))
    (hEntries : childEntries n pieces.children =
      if i < mergeWith i then target ++ entries n sibling.1
      else entries n sibling.1 ++ target)
    (hReplace : env.replacePair modify branch (min i (mergeWith i)) pieces dropped mem =
        .ok (result, mem')) :
    Left lo hi (before ++ target ++ after) result := by
  simp only [BtreeEnv.replacePair, bind_eq_ok] at hReplace
  rcases hReplace with ⟨⟨_, _⟩, hFinal, hEq⟩
  cases hEq
  rw [hN.children_splice, hN.keys_splice] at hFinal
  have hLeft := finalizeBranchBuilder_contents env (hN.replace _ _ hChain) hFinal
  have hTarget : childEntries n (ca ++ pieces.children ++ cb) = before ++ target ++ after := by
    rw [childEntries_append, childEntries_append, hEntries]
    rcases hN.order with ⟨hLt, _, _, _, _, rfl, rfl⟩ | ⟨hLt, _, _, _, _, rfl, rfl⟩
    · simp [hLt]
    · simp [hLt]
  rwa [hTarget] at hLeft

end Merging

section Merge

variable {lo hi clo chi : Option K} {i : Nat} {before after : List (K × V)} {ka kb : List K} {k : K}

omit [DecidableEq P] in
theorem Neighbours.mergeLeaf
    {branch : Branch P K (Tree P K V 0)} {sibling first second : Tree P K V 0 × Checksum}
    {ca cb : Children P K V 0} (hN : Neighbours (n := 0) branch lo hi i clo chi before
      after sibling ca first second cb ka k kb)
    {target : List (K × V)} (hTarget : LeafGood clo chi target) :
    LeafGood (lastBound lo ka) (firstBound kb hi) (if i < mergeWith i then
        target ++ Leaf.pairs sibling.1
      else
        Leaf.pairs sibling.1 ++ target) := by
  rcases hN.order with ⟨hLt, _, rfl, rfl, rfl, _⟩ | ⟨hLt, _, rfl, rfl, rfl, _⟩
  · rw [if_pos hLt]
    exact hTarget.append hN.second_good
  · rw [if_neg hLt]
    exact LeafGood.append hN.first_good hTarget

omit [DecidableEq P] in
theorem Neighbours.mergeBranch {m : Nat} {branch : Branch P K (Tree P K V (m + 1))}
    {sibling first second : Tree P K V (m + 1) × Checksum}
    {ca cb : Children P K V (m + 1)}
    (hN : Neighbours (n := m + 1) branch lo hi i clo chi before
      after sibling ca first second cb ka k kb)
    (keys : List K) (children : Children P K V m)
    (hChain : Chain (ChildGood m) keys clo children chi) :
    Chain (ChildGood m) (if i < mergeWith i then keys ++ k :: Branch.keys sibling.1 else
        Branch.keys sibling.1 ++ k :: keys)
      (lastBound lo ka)
      (if i < mergeWith i then children ++ Branch.children sibling.1 else
        Branch.children sibling.1 ++ children)
      (firstBound kb hi) := by
  rcases hN.order with ⟨hLt, _, rfl, rfl, rfl, _⟩ | ⟨hLt, _, rfl, rfl, rfl, _⟩
  · rw [if_pos hLt, if_pos hLt]
    exact (append_iff hChain.length_eq).mpr ⟨hChain, hN.second_good.2⟩
  · rw [if_neg hLt, if_neg hLt]
    have hSib := hN.first_good.2
    exact (append_iff hSib.length_eq).mpr ⟨hSib, hChain⟩

end Merge

omit [DecidableEq P] in
variable {n : Nat} {lo hi : Option K} {key : K}

omit [DecidableEq P] in
/- A branch without the child of a key: a neighbour takes over its key range. -/
theorem Route.dropped {branch : Branch P K (Tree P K V n)} {ca cb : Children P K V n}
    {c : Tree P K V n × Checksum} {ka kb : List K} (hGood : Good (n + 1) lo hi branch)
    (hRoute : Route branch lo hi key ca c cb ka kb) :
    Chain (ChildGood n) (branch.keys.eraseIdx (if branch.childForKey key =
              branch.children.length - 1 then
            branch.children.length - 1 - 1
          else branch.childForKey key))
        lo
        (branch.children.eraseIdx (branch.childForKey key)) hi ∧
      childEntries n (branch.children.eraseIdx (branch.childForKey key)) =
        childEntries n ca ++ childEntries n cb := by
  have hChain : Chain (ChildGood n) branch.keys lo branch.children hi := hGood.2
  have hCount := hChain.length_eq
  have hChildren : branch.children.eraseIdx (branch.childForKey key) = ca ++ cb := by
    rw [hRoute.index_eq, hRoute.children_eq, eraseIdx_middle]
  have hLength : branch.children.length = ca.length + 1 + cb.length := by
    rw [hRoute.children_eq]
    simp
    omega
  have hKeysLength : branch.keys.length = ka.length + kb.length := by
    rw [hRoute.keys_eq]
    simp
  have hLengths := hRoute.length_eq
  refine ⟨?_, by rw [hChildren, childEntries_append]⟩
  rw [hChildren, hRoute.index_eq]
  cases cb with
  | cons s cb =>
    -- the following sibling takes over the range
    cases kb with
    | nil =>
      simp at hLength hKeysLength
      omega
    | cons k kb =>
      have hPair : branch.children = ca ++ [c, s] ++ cb := by
        rw [hRoute.children_eq]
        simp
      have hKeys : branch.keys = ka ++ [k] ++ kb := by
        rw [hRoute.keys_eq]
        simp
      rcases pair_window hChain hPair hKeys hLengths with ⟨hFirst, hSecond, hReplace⟩
      have hWide : ChildGood n (lastBound lo ka) (firstBound kb hi) s := by
        refine hSecond.widen (Inside.of_lower ?_)
        intro a ha
        rcases hFirst.leafGood with ⟨hNe, _, hIn⟩
        rcases exists_mem_of_ne_nil _ hNe with ⟨e, he⟩
        exact le_of_lt (lt_of_lt_of_le ((hIn e he).1 a ha) ((hIn e he).2 k rfl))
      have hNotLast : ¬ca.length = branch.children.length - 1 := by
        simp at hLength
        omega
      rw [if_neg hNotLast, hKeys, hLengths, eraseIdx_middle]
      have hNew := hReplace [] [s] ((nil_singleton _ _ _).mpr hWide)
      simpa using hNew
  | nil =>
    -- the preceding sibling takes over the range
    have hNil : kb = [] := by
      refine length_eq_zero_iff.mp ?_
      simp at hLength
      omega
    subst hNil
    rcases eq_nil_or_concat' ca with rfl | ⟨ca', s, rfl⟩
    · have hKa : ka = [] := length_eq_zero_iff.mp hLengths.symm
      subst hKa
      exact absurd (by simpa using hRoute.keys_eq) hGood.1
    · rcases eq_nil_or_concat' ka with rfl | ⟨ka', k, rfl⟩
      · simp at hLengths
      · have hLen : ca'.length = ka'.length := by simpa using hLengths
        have hPair : branch.children = ca' ++ [s, c] ++ [] := by
          rw [hRoute.children_eq]
          simp
        have hKeys : branch.keys = ka' ++ [k] ++ [] := by
          rw [hRoute.keys_eq]
          simp
        rcases pair_window hChain hPair hKeys hLen with ⟨hFirst, hSecond, hReplace⟩
        have hWide : ChildGood n (lastBound lo ka') (firstBound [] hi) s := by
          refine hFirst.widen ⟨(Inside.refl _ hi).1, ?_⟩
          intro b hb
          rcases hSecond.leafGood with ⟨hNe, _, hIn⟩
          rcases exists_mem_of_ne_nil _ hNe with ⟨e, he⟩
          exact ⟨k, rfl, le_trans (le_of_lt ((hIn e he).1 k rfl)) ((hIn e he).2 b hb)⟩
        have hLast : (ca' ++ [s]).length = branch.children.length - 1 := by
          simp at hLength ⊢
          omega
        have hIndex : branch.children.length - 1 - 1 = ka'.length := by
          simp at hLength
          omega
        rw [if_pos hLast, hIndex, hKeys, eraseIdx_middle]
        have hNew := hReplace [] [s] ((nil_singleton _ _ _).mpr hWide)
        simpa using hNew

theorem absorb_contents
    {modify : Bool} {branch : Branch P K (Tree P K V n)} {left : DeletionResult P K V n}
    {mem mem' : Mem P K V} {result : DeletionResult P K V (n + 1)}
    {ca cb : Children P K V n} {c : Tree P K V n × Checksum} {ka kb : List K}
    {target : List (K × V)} (hGood : Good (n + 1) lo hi branch)
    (hRoute : Route branch lo hi key ca c cb ka kb)
    (hLeft : Left (lastBound lo ka) (firstBound kb hi) target left)
    (hAbsorb : env.Absorption modify branch (branch.childForKey key) left mem result mem') :
    Left lo hi (childEntries n ca ++ target ++ childEntries n cb) result := by
  have hSet : ∀ d : Tree P K V n × Checksum, ChildGood n (lastBound lo ka) (firstBound kb hi) d →
        Chain (ChildGood n) branch.keys lo (branch.children.set (branch.childForKey key) d) hi := by
    intro d hD
    rw [hRoute.set_eq, hRoute.keys_eq]
    exact hRoute.replace [] [d] ((nil_singleton _ _ _).mpr hD)
  have hSetEntries : ∀ d : Tree P K V n × Checksum, childEntries n
            (branch.children.set (branch.childForKey key) d) =
          childEntries n ca ++ entries n d.1 ++ childEntries n cb := by
    intro d
    rw [hRoute.set_eq, childEntries_append, childEntries_append, childEntries_singleton]
  rcases exists_neighbours hGood hRoute with ⟨_, _, _, _, _, _, _, _, hN⟩
  generalize hI : branch.childForKey key = i at *
  cases hAbsorb with
  | inPlace _ _ child checksum =>
    rcases hLeft with ⟨hChild, hEntries⟩
    refine ⟨⟨hGood.1, hSet (child, checksum) hChild⟩, ?_⟩
    exact (hSetEntries (child, checksum)).trans (by rw [hEntries])
  | rebuilt _ _ child checksum _ mem1 newBranch hBuild =>
    rcases hLeft with ⟨hChild, hEntries⟩
    rcases env.buildBranch_ok hBuild with ⟨_, _, hC, hK, _⟩
    refine ⟨?_, ?_⟩
    · change newBranch.keys ≠ [] ∧ Chain (ChildGood n) newBranch.keys lo newBranch.children hi
      rw [hC, hK]
      exact ⟨hGood.1, hSet (child, checksum) hChild⟩
    · change childEntries n newBranch.children = _
      rw [hC, hSetEntries, hEntries]
  | dropped _ _ _ _ _ hFinal =>
    have hNil : target = [] := hLeft
    subst hNil
    rcases hRoute.dropped hGood with ⟨hChain, hEntries⟩
    rw [hI] at hChain hEntries
    have hLeft := finalizeBranchBuilder_contents env hChain hFinal
    rw [hEntries] at hLeft
    simpa using hLeft
  | keptAlone _ _ pairs _ _ newLeaf _ _ _ _ _ _ hBuild hFinal =>
    rcases hLeft with ⟨hErase, _, hTarget⟩
    have hPairs := (env.buildLeaf_ok hBuild).2.1
    rw [hErase] at hPairs
    have hNew : ChildGood 0 (lastBound lo ka) (firstBound kb hi) (newLeaf, deferred) := by
      change LeafGood _ _ newLeaf.pairs
      rwa [hPairs]
    have hLeft := finalizeBranchBuilder_contents env (hSet (newLeaf, deferred) hNew) hFinal
    rw [hSetEntries] at hLeft
    change Left lo hi (_ ++ newLeaf.pairs ++ _) _ at hLeft
    rwa [hPairs] at hLeft
  | mergedLeaf _ _ _ _ _ _ _ _ _ _ hSibling _ hPieces hReplace =>
    rcases hLeft with ⟨hErase, _, hTarget⟩
    rw [hN.sibling_eq] at hSibling
    cases hSibling
    rw [hErase] at hPieces
    rcases leafPieces_contents env (hN.mergeLeaf hTarget) hPieces with ⟨hChain, hEntries⟩
    exact hN.replacePair_contents env hChain hEntries hReplace
  | @mergedChild m branch i grandchild checksum sib separator
      pieces mem mem1 _ result hSibling hSeparator hPieces
      hReplace =>
    rcases hLeft with ⟨hChild, hTarget⟩
    rw [hN.sibling_eq] at hSibling
    rw [hN.separator_eq] at hSeparator
    cases hSibling
    cases hSeparator
    rcases branchPieces_contents env (hN.mergeBranch [] [(grandchild, checksum)]
        ((nil_singleton _ _ _).mpr hChild))
      hPieces with ⟨hChain, hEntries⟩
    refine hN.replacePair_contents env hChain ?_ hReplace
    rw [hEntries]
    split
    · rw [← hTarget]
      rfl
    · rw [← hTarget, childEntries_append, childEntries_singleton]
      rfl
  | @mergedBranch m branch i partialChild checksum sib separator
      pieces mem mem1 _ result hSibling hSeparator hPieces
      hReplace =>
    rcases hLeft with ⟨hPartial, hTarget⟩
    rw [hN.sibling_eq] at hSibling
    rw [hN.separator_eq] at hSeparator
    cases hSibling
    cases hSeparator
    rcases branchPieces_contents env (hN.mergeBranch _ _ hPartial.2) hPieces with ⟨hChain, hEntries⟩
    refine hN.replacePair_contents env hChain ?_ hReplace
    rw [hEntries]
    split
    · rw [← hTarget, childEntries_append]
      rfl
    · rw [← hTarget, childEntries_append]
      rfl

/- Deletion from a subtree. -/
theorem deleteHelper_contents
    {modify : Bool} {t : Tree P K V n} {checksum : Checksum} {mem mem' : Mem P K V}
    {result : DeletionResult P K V n} {found : Option V} (hGood : Good n lo hi t)
    (hKey : Within lo hi key)
    (hDelete : env.deleteHelper modify n t checksum key mem = .ok (result, found, mem')) :
    found = (entries n t).lookup key ∧ Left lo hi (eraseEntry key (entries n t)) result := by
  induction n generalizing lo hi checksum mem mem' found with
  | zero => exact deleteLeaf_contents env hGood (env.deleteLeaf_ok modify hDelete)
  | succ n ih =>
    rcases env.deleteHelper_ok modify hDelete with ⟨child, _, _, hChild, hSub, hCase⟩
    rcases exists_route hGood hKey with ⟨ca, c, cb, ka, kb, hRoute⟩
    rw [hRoute.child_eq] at hChild
    cases hChild
    rcases ih hRoute.good hRoute.within hSub with ⟨hFound, hLeft⟩
    have hLookup : (entries (n + 1) t).lookup key = (entries n child.1).lookup key := by
      rw [hRoute.entries_eq, lookup_middle hRoute.below hRoute.above]
    refine ⟨hFound.trans hLookup.symm, ?_⟩
    rcases hCase with ⟨hNone, _, rfl⟩ | ⟨_, hAbsorb⟩
    · refine ⟨hGood, (eraseEntry_of_lookup_none ?_).symm⟩
      rw [hLookup, ← hFound, hNone]
    · rw [hRoute.entries_eq, eraseEntry_middle hRoute.below hRoute.above]
      exact absorb_contents env hGood hRoute hLeft hAbsorb

end Redbx
