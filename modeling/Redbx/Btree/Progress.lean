import Redbx.Btree.Contents
import Redbx.Btree.Sizes

/-
  Insertion and deletion return.

  On a good tree no index is out of range, so the only panics left are those of the page format.
  They do not happen when the pages of the tree are within `Bounds` that leave room for what the
  operation adds to a page.

  Key theorems include:
    * `insertHelper_returns`, `deleteHelper_returns`
-/

namespace Redbx

open Redbx.Tree List Option

variable {P K V : Type} [DecidableEq P] (env : BtreeEnv P K V)

-- Builders

variable {pairs : List (K × V)}

theorem buildLeaf_returns (mem : Mem P K V) (hFits : env.fmt.leafEncodable pairs = true) :
    ∃ leaf mem', env.buildLeaf pairs mem = .ok (leaf, mem') := by
  unfold BtreeEnv.buildLeaf
  rw [hFits]
  exact ⟨_, _, rfl⟩

variable {n : Nat}

theorem buildBranch_returns
    (children : Children P K V n) (keys : List K) (mem : Mem P K V)
    (hLength : children.length = keys.length + 1) (hFits : env.fmt.branchEncodable keys = true) :
    ∃ branch mem', env.buildBranch children keys mem = .ok (branch, mem') := by
  unfold BtreeEnv.buildBranch
  rw [hFits, decide_eq_true hLength]
  exact ⟨_, _, rfl⟩

/- Pairs within the limits become one or two leaves. -/
theorem leafPieces_returns (mem : Mem P K V) (hNe : pairs ≠ [])
    (hCount : pairs.length ≤ Format.maxCount)
    (hBytes : env.fmt.leafBytes pairs < Format.offsetLimit) :
    ∃ pieces mem', env.leafPieces pairs mem = .ok (pieces, mem') := by
  unfold BtreeEnv.leafPieces
  cases hSplit : env.fmt.shouldSplitLeaf pairs with
  | false =>
    rcases buildLeaf_returns env mem (env.fmt.leafEncodable_of_sublist (List.Sublist.refl _)
        hNe hCount hBytes) with ⟨_, _, hBuild⟩
    simp [hBuild]
  | true =>
    have hLength : 1 < pairs.length := by
      simpa [Format.shouldSplitLeaf] using (Bool.and_eq_true_iff.mp hSplit).2
    have hBounds := env.fmt.division_bounds pairs hLength
    have hTake : pairs.take (env.fmt.division pairs) ≠ [] := by
      refine ne_nil_of_length_pos ?_
      rw [length_take]
      omega
    have hDrop : pairs.drop (env.fmt.division pairs) ≠ [] := by
      refine ne_nil_of_length_pos ?_
      rw [length_drop]
      omega
    rcases buildLeaf_returns env mem (env.fmt.leafEncodable_of_sublist
        (take_sublist _ _) hTake hCount hBytes) with
      ⟨left, mem1, hLeft⟩
    rcases buildLeaf_returns env mem1 (env.fmt.leafEncodable_of_sublist
        (drop_sublist _ _) hDrop hCount hBytes) with
      ⟨_, _, hRight⟩
    have hIn : env.fmt.division pairs - 1 < pairs.length := by omega
    simp [hLeft, hRight, getElem?_eq_getElem hIn, unwrap]

theorem branchPieces_returns
    {children : Children P K V n} {keys : List K} (mem : Mem P K V)
    (hLength : children.length = keys.length + 1) (hNe : keys ≠ [])
    (hCount : keys.length ≤ Format.maxCount)
    (hBytes : env.fmt.branchBytes keys < Format.offsetLimit) :
    ∃ pieces mem', env.branchPieces children keys mem = .ok (pieces, mem') := by
  unfold BtreeEnv.branchPieces
  cases hSplit : env.fmt.shouldSplitBranch keys with
  | false =>
    rcases buildBranch_returns env children keys mem hLength
      (env.fmt.branchEncodable_of_sublist (List.Sublist.refl _) hNe hCount hBytes) with
      ⟨_, _, hBuild⟩
    simp [hBuild]
  | true =>
    have hThree : 3 ≤ keys.length := by
      simpa [Format.shouldSplitBranch] using (Bool.and_eq_true_iff.mp hSplit).2
    have hTake : keys.take (keys.length / 2) ≠ [] := by
      refine ne_nil_of_length_pos ?_
      rw [length_take]
      omega
    have hDrop : keys.drop (keys.length / 2 + 1) ≠ [] := by
      refine ne_nil_of_length_pos ?_
      rw [length_drop]
      omega
    rcases buildBranch_returns env (children.take (keys.length / 2 + 1))
      (keys.take (keys.length / 2)) mem (by
        rw [length_take, length_take, hLength]
        omega)
      (env.fmt.branchEncodable_of_sublist (take_sublist _ _) hTake hCount hBytes) with
      ⟨left, mem1, hLeft⟩
    rcases buildBranch_returns env (children.drop (keys.length / 2 + 1))
      (keys.drop (keys.length / 2 + 1)) mem1 (by
        rw [length_drop, length_drop, hLength]
        omega)
      (env.fmt.branchEncodable_of_sublist (drop_sublist _ _) hDrop hCount hBytes) with
      ⟨_, _, hRight⟩
    have hIn : keys.length / 2 < keys.length := by omega
    simp [hLength, require, hLeft, hRight, getElem?_eq_getElem hIn, unwrap]

/- The key between two leaves is a key of the pairs. -/
theorem leafPieces_keys {mem mem' : Mem P K V} {pieces : Pieces K (Leaf P K V)}
    (hPieces : env.leafPieces pairs mem = .ok (pieces, mem')) :
    ∀ k ∈ pieces.keys, ∃ p ∈ pairs, p.1 = k := by
  rcases env.leafPieces_ok hPieces with ⟨_, _, _, rfl⟩ | ⟨_, _, _, splitPair, _, _, _, hPair, rfl⟩
  · simp [Pieces.keys]
  · intro k hk
    rw [mem_singleton.mp hk]
    exact ⟨splitPair, mem_of_getElem? hPair, rfl⟩

/- The key between two branches is one of the keys. -/
theorem branchPieces_keys
    {children : Children P K V n} {keys : List K} {mem mem' : Mem P K V}
    {pieces : Pieces K (Branch P K (Tree P K V n))}
    (hPieces : env.branchPieces children keys mem = .ok (pieces, mem')) :
    ∀ k ∈ pieces.keys, k ∈ keys := by
  rcases env.branchPieces_ok hPieces with ⟨_, _, _, rfl⟩ | ⟨_, _, _, _, _, _, hKey, _, _, rfl⟩
  · simp [Pieces.keys]
  · intro k hk
    rw [mem_singleton.mp hk]
    exact mem_of_getElem? hKey

-- Insertion

/- The bounds leave room for one entry in every page. -/
structure Bounds.InsertRoom (fmt : Format K V) (bounds : Bounds) (key : K) (value : V) : Prop where
  pairs : bounds.pairs + 1 ≤ Format.maxCount
  leafBytes : bounds.leafBytes + fmt.pointerBytes + fmt.pairLen (key, value) < Format.offsetLimit
  keys : bounds.keys + 1 ≤ Format.maxCount
  header : 32 ≤ bounds.branchBytes
  branchBytes : bounds.branchBytes + 28 + bounds.keyLen < Format.offsetLimit
  keyLen : fmt.keyLen key ≤ bounds.keyLen

theorem Format.branchBytes_middle_le (fmt : Format K V) (a b : List K) (k : K) :
    fmt.branchBytes (a ++ [k] ++ b) ≤ fmt.branchBytes (a ++ b) + 28 + fmt.keyLen k := by
  have hLeft := fmt.branchBytes_append a (k :: b)
  have hRight := fmt.branchBytes_append a b
  have hCons := (fmt.branchBytes_cons_le k b).2
  have hList : a ++ [k] ++ b = a ++ k :: b := by simp
  rw [hList]
  omega

theorem Format.pieces_fit
    (fmt : Format K V) {C : Type} {pieces : Pieces K C} {len : Nat} (ka kb : List K)
    (hKeys : ∀ k ∈ pieces.keys, fmt.keyLen k ≤ len) (hCount : (ka ++ kb).length + 1 ≤ maxCount)
    (hBytes : fmt.branchBytes (ka ++ kb) + 28 + len < offsetLimit) :
    (ka ++ pieces.keys ++ kb).length ≤ maxCount ∧ fmt.branchBytes (ka ++ pieces.keys ++ kb) <
        offsetLimit := by
  rcases hNext : pieces.next with _ | ⟨k, _⟩
  · have hNil : pieces.keys = [] := by simp [Pieces.keys, hNext]
    rw [hNil, append_nil]
    exact ⟨by omega, by omega⟩
  · have hOne : pieces.keys = [k] := by simp [Pieces.keys, hNext]
    have hLen := hKeys k (by simp [hOne])
    have hMid := fmt.branchBytes_middle_le ka kb k
    rw [hOne]
    refine ⟨?_, by omega⟩
    simp only [length_append, length_cons, length_nil] at hCount ⊢
    omega

section Insertion

variable [LinearOrder K] {bounds : Bounds} {key : K} {value : V}

omit [DecidableEq P] in
theorem leafBytes_insertEntry_le
    (fmt : Format K V) (key : K) (value : V) {pairs : List (K × V)} (hSorted : Sorted pairs) :
    (insertEntry key value pairs).length ≤ pairs.length + 1 ∧
      fmt.leafBytes (insertEntry key value pairs) ≤
        fmt.leafBytes pairs + fmt.pointerBytes + fmt.pairLen (key, value) := by
  refine ⟨?_, ?_⟩
  · rw [length_insertEntry hSorted]
    split <;> omega
  · rcases hSorted.around key with ⟨a, b, hA, hB, ⟨_, rfl⟩ | ⟨v, _, rfl⟩⟩
    · rw [insertEntry_middle hA hB, insertEntry_nil, Format.leafBytes_middle, append_nil]
    · rw [insertEntry_middle hA hB, insertEntry_singleton,
        Format.leafBytes_middle, Format.leafBytes_middle]
      omega

theorem insertLeaf_returns
    (modify : Bool) (leaf : Leaf P K V) (checksum : Checksum) (mem : Mem P K V)
    {lo hi : Option K} (hGood : LeafGood lo hi leaf.pairs)
    (hSizes : Sizes (P := P) env.fmt bounds 0 leaf) (hRoom : bounds.InsertRoom env.fmt key value) :
    ∃ result mem', env.insertLeaf modify leaf checksum key value mem = .ok (result, mem') ∧
      ∀ k ∈ result.pieces.keys, env.fmt.keyLen k ≤ bounds.keyLen := by
  rcases hSizes with ⟨hCount, hBytes, hKeys⟩
  rcases leafBytes_insertEntry_le env.fmt key value hGood.2.1 with ⟨hNewCount, hNewBytes⟩
  have hPairs := hRoom.pairs
  have hLeafBytes := hRoom.leafBytes
  have hReturns : ∃ result mem', env.insertLeaf modify leaf checksum key
          value mem = .ok (result, mem') := by
    unfold BtreeEnv.insertLeaf
    rcases hSearch : leaf.position key with ⟨position, found⟩
    rcases insertPairs_eq leaf key value hGood.2.1 hSearch with ⟨hInplace, hRebuilt, _⟩
    simp only [hInplace, hRebuilt]
    split
    · -- a page of its own for the new pair
      have hOne : env.fmt.leafEncodable [(key, value)] = true := by
        refine env.fmt.leafEncodable_of_sublist (List.Sublist.refl _) (by simp) ?_ ?_
        · exact le_trans (by simp) hPairs
        · have hHead := env.fmt.four_le_leafBytes leaf.pairs
          have hCons := env.fmt.leafBytes_cons (key, value) []
          have hNil : env.fmt.leafBytes ([] : List (K × V)) = 4 := rfl
          omega
      rcases buildLeaf_returns env mem hOne with ⟨_, _, hBuild⟩
      rcases eq_nil_or_concat' leaf.pairs with hNil | ⟨_, _, hLast⟩
      · exact absurd hNil hGood.1
      · simp only [hBuild, ok_bind, hLast]
        split
        · exact ⟨_, _, rfl⟩
        · simp [unwrap]
    · split
      · have hFits := env.fmt.insertEncodable_of_room position
          (show (insertEntry key value leaf.pairs).length ≤ Format.maxCount by omega)
          (show env.fmt.leafBytes (insertEntry key value leaf.pairs) < Format.offsetLimit by omega)
        simp [hFits, require]
      · rcases leafPieces_returns env mem (show insertEntry key value leaf.pairs ≠ [] by
            simp [insertEntry])
          (by omega) (by omega) with ⟨_, _, hPieces⟩
        simp [hPieces]
  rcases hReturns with ⟨result, mem', hInsert⟩
  refine ⟨result, mem', hInsert, ?_⟩
  cases env.insertLeaf_ok modify hInsert with
  | before =>
    intro k hk
    rw [mem_singleton.mp hk]
    exact hRoom.keyLen
  | after _ _ _ lastPair _ _ _ _ hLast =>
    intro k hk
    rw [mem_singleton.mp hk]
    exact hKeys lastPair (mem_of_getLast? hLast)
  | inPlace => simp [Pieces.keys]
  | rebuilt _ _ _ _ hSearch _ _ hPieces =>
    rw [(insertPairs_eq leaf key value hGood.2.1 hSearch).2.1] at hPieces
    intro k hk
    rcases leafPieces_keys env hPieces k hk with ⟨p, hp, rfl⟩
    rcases mem_append.mp hp with hLow | hHigh
    · exact hKeys p (mem_filter.mp hLow).1
    · rcases mem_cons.mp hHigh with rfl | hIn
      · exact hRoom.keyLen
      · exact hKeys p (mem_filter.mp hIn).1

/- Insertion into a subtree returns. -/
theorem insertHelper_returns
    (modify : Bool) (n : Nat) (t : Tree P K V n) (checksum : Checksum) (mem : Mem P K V)
    {lo hi : Option K} (hGood : Good n lo hi t) (hKey : Within lo hi key)
    (hSizes : Sizes env.fmt bounds n t) (hRoom : bounds.InsertRoom env.fmt key value) :
    ∃ result mem', env.insertHelper modify n t checksum key value mem = .ok (result, mem') ∧
      ∀ k ∈ result.pieces.keys, env.fmt.keyLen k ≤ bounds.keyLen := by
  induction n generalizing lo hi checksum mem with
  | zero => exact insertLeaf_returns env modify t checksum mem hGood hSizes hRoom
  | succ n ih =>
    rcases exists_route hGood hKey with ⟨ca, c, cb, ka, kb, hRoute⟩
    rcases hSizes with ⟨hCount, hBytes, hKeys, hChildren⟩
    have hMem : c ∈ Branch.children t := by
      rw [hRoute.children_eq]
      simp
    rcases ih c.1 c.2 mem hRoute.good hRoute.within
      (hChildren c hMem) with ⟨sub, mem1, hSub, hSubKeys⟩
    have hSubGood := insertHelper_contents env hRoute.good hRoute.within hSub
    -- the keys of the branch with the pieces in place
    have hNewKeys : splice (Branch.keys t) (Branch.childForKey t key) 0
          sub.pieces.keys = ka ++ sub.pieces.keys ++ kb :=
      hRoute.keys_splice _
    have hNewChildren : splice (Branch.children t) (Branch.childForKey t key) 1
          sub.pieces.children = ca ++ sub.pieces.children ++ cb :=
      hRoute.children_splice _
    have hLength := (hRoute.replace _ _ hSubGood.1).length_eq
    have hAllKeys : ∀ k ∈ ka ++ sub.pieces.keys ++ kb, env.fmt.keyLen k ≤ bounds.keyLen := by
      intro k hk
      rw [hRoute.keys_eq] at hKeys
      simp only [mem_append, append_nil] at hk hKeys
      rcases hk with (hk | hk) | hk
      · exact hKeys k (Or.inl hk)
      · exact hSubKeys k hk
      · exact hKeys k (Or.inr hk)
    have hOld : Branch.keys t = ka ++ kb := by simpa using hRoute.keys_eq
    have hSizes' : (ka ++ sub.pieces.keys ++ kb).length ≤ Format.maxCount ∧
          env.fmt.branchBytes (ka ++ sub.pieces.keys ++ kb) < Format.offsetLimit := by
      have hRoomKeys := hRoom.keys
      have hRoomBytes := hRoom.branchBytes
      rw [hOld] at hCount hBytes
      exact env.fmt.pieces_fit _ _ hSubKeys (by omega) (by omega)
    have hNe : ka ++ sub.pieces.keys ++ kb ≠ [] := by
      intro hNil
      simp only [append_eq_nil_iff] at hNil
      exact hGood.1 (by rw [hOld, hNil.1.1, hNil.2]; rfl)
    have hReturns : ∃ result mem', env.insertBranch modify t (Branch.childForKey t key) sub mem1 =
            .ok (result, mem') := by
      unfold BtreeEnv.insertBranch
      rw [hNewKeys, hNewChildren]
      split
      · exact ⟨_, _, rfl⟩
      · rcases branchPieces_returns env mem1 hLength hNe hSizes'.1 hSizes'.2 with ⟨_, _, hPieces⟩
        rw [hPieces]
        exact ⟨_, _, rfl⟩
    rcases hReturns with ⟨result, mem', hBranch⟩
    refine ⟨result, mem', ?_, ?_⟩
    · unfold BtreeEnv.insertHelper
      simp [hRoute.child_eq, unwrap, hSub, hBranch]
    · cases env.insertBranch_ok modify hBranch with
      | inPlace => simp [Pieces.keys]
      | rebuilt _ _ hPieces =>
        rw [hNewKeys, hNewChildren] at hPieces
        intro k hk
        exact hAllKeys k (branchPieces_keys env hPieces k hk)

end Insertion

-- Deletion

/- The bounds leave room for a merge of two pages. -/
structure Bounds.DeleteRoom (bounds : Bounds) : Prop where
  pairs : bounds.pairs + 1351 ≤ Format.maxCount
  leafBytes : bounds.leafBytes + 1351 < Format.offsetLimit
  keys : bounds.keys + 58 ≤ Format.maxCount
  branchBytes : bounds.branchBytes + bounds.keyLen + 1393 < Format.offsetLimit

/- What is too small for a page of its own is small. -/
def Small (fmt : Format K V) (bounds : Bounds) : {n : Nat} → DeletionResult P K V n → Prop
  | _, .subtree _ _ => True
  | 0, .deletedLeaf => True
  | 0, .partialLeaf pairs deletedPair =>
    (pairs.eraseIdx deletedPair).length ≤ 1351 ∧ fmt.leafBytes (pairs.eraseIdx deletedPair) ≤ 1351 ∧
      ∀ p ∈ pairs.eraseIdx deletedPair, fmt.keyLen p.1 ≤ bounds.keyLen
  | _ + 1, .partialBranch branch _ =>
    fmt.branchBytes branch.keys ≤ 1365 ∧ ∀ k ∈ branch.keys, fmt.keyLen k ≤ bounds.keyLen
  | _ + 1, .deletedBranch _ _ => True

theorem finalizeBranchBuilder_returns
    {bounds : Bounds} {n : Nat} (children : Children P K V n) (keys : List K)
    (mem : Mem P K V) (hLength : children.length = keys.length + 1)
    (hCount : keys.length ≤ Format.maxCount)
    (hBytes : env.fmt.branchBytes keys < Format.offsetLimit)
    (hKeys : ∀ k ∈ keys, env.fmt.keyLen k ≤ bounds.keyLen) :
    ∃ result mem', env.finalizeBranchBuilder children keys mem = .ok (result, mem') ∧
      Small env.fmt bounds result := by
  match children, hLength with
  | [(child, checksum)], _ => exact ⟨_, _, rfl, trivial⟩
  | c1 :: c2 :: rest, hLength =>
    have hNe : keys ≠ [] := by
      rintro rfl
      simp at hLength
    rcases buildBranch_returns env (c1 :: c2 :: rest) keys mem hLength
      (env.fmt.branchEncodable_of_sublist (List.Sublist.refl _) hNe hCount hBytes) with
      ⟨_, _, hBuild⟩
    have hBranch := (env.buildBranch_ok hBuild).2.2.2.1
    simp only [BtreeEnv.finalizeBranchBuilder, hBuild, ok_bind]
    split
    · next hSmall =>
      refine ⟨_, _, rfl, ?_, ?_⟩
      · rw [hBranch]
        exact Nat.le_of_lt hSmall
      · rw [hBranch]
        exact hKeys
    · exact ⟨_, _, rfl, trivial⟩

section Deletion

variable [LinearOrder K] {bounds : Bounds} {key : K}

variable {hi lo : Option K}

theorem deleteLeaf_returns
    (modify : Bool) (leaf : Leaf P K V) (checksum : Checksum) (mem : Mem P K V)
    (hGood : LeafGood lo hi leaf.pairs)
    (hSizes : Sizes (P := P) env.fmt bounds 0 leaf) (hRoom : bounds.DeleteRoom) :
    ∃ result found mem', env.deleteLeaf modify leaf checksum key mem = .ok (result, found, mem') ∧
      Small env.fmt bounds result := by
  rcases hSizes with ⟨hCount, hBytes, hKeys⟩
  have hPairs := hRoom.pairs
  have hLeafBytes := hRoom.leafBytes
  unfold BtreeEnv.deleteLeaf
  rcases hSearch : leaf.position key with ⟨_, found⟩
  cases found with
  | false => exact ⟨_, _, _, rfl, trivial⟩
  | true =>
    rcases position_cases leaf key hGood.2.1 with ⟨a, b, _, _, ⟨hPos, _⟩ | ⟨v, hPos, hList⟩⟩
    · rw [hSearch] at hPos
      cases congrArg Prod.snd hPos
    · rw [hSearch] at hPos
      cases hPos
      have hPair : leaf.pairs[a.length]? = some (key, v) := by rw [hList, getElem?_middle]
      have hErase : leaf.pairs.eraseIdx a.length = a ++ b := by rw [hList, eraseIdx_middle]
      have hSub : (a ++ b).Sublist leaf.pairs := by
        rw [← hErase]
        exact eraseIdx_sublist _ _
      simp only [hPair, unwrap, hErase, Bool.not_true,
        Bool.false_eq_true, if_false, elim_some, ok_bind]
      split
      · exact ⟨_, _, _, rfl, trivial⟩
      · split
        · exact ⟨_, _, _, rfl, trivial⟩
        · next hLength =>
          split
          · next hSmall =>
            have hThird : effectiveLeafPageSize / 3 = 1351 := by decide
            have hSorted : Sorted (a ++ b) := hGood.2.1.sublist hSub
            have hLen := env.fmt.length_le_leafBytes (hSorted.imp fun h => ne_of_lt h)
            refine ⟨_, _, _, rfl, ?_, ?_, ?_⟩
            · rw [hErase]
              omega
            · rw [hErase]
              omega
            · rw [hErase]
              exact fun p hp => hKeys p (hSub.subset hp)
          · have hNe : a ++ b ≠ [] := by
              intro hNil
              refine hLength ?_
              rw [hList]
              simp only [append_eq_nil_iff] at hNil
              simp [hNil.1, hNil.2]
            rcases buildLeaf_returns env mem (env.fmt.leafEncodable_of_sublist hSub hNe
                (by omega) (by omega)) with
              ⟨_, _, hBuild⟩
            simp only [hBuild, ok_bind]
            exact ⟨_, _, _, rfl, trivial⟩

variable {i n : Nat} {branch : Branch P K (Tree P K V n)}

omit [DecidableEq P] [LinearOrder K] in
theorem Tree.Sizes.child {fmt : Format K V}
    (hSizes : Sizes fmt bounds (n + 1) branch) {c : Tree P K V n × Checksum}
    (hChild : branch.children[i]? = some c) :
    Sizes fmt bounds n c.1 :=
  hSizes.2.2.2 c (mem_of_getElem? hChild)

variable {after before : List (K × V)} {chi clo : Option K} {k : K} {ka kb : List K}

theorem Neighbours.replacePair_returns {sibling first second : Tree P K V n × Checksum}
    {ca cb : Children P K V n}
    (hN : Neighbours branch lo hi i clo chi before after sibling ca first second cb ka k kb)
    (modify : Bool) (pieces : Pieces K (Tree P K V n)) (dropped : List P)
    (mem : Mem P K V) (hSizes : Sizes env.fmt bounds (n + 1) branch) (hRoom : bounds.DeleteRoom)
    (hChain : Chain (ChildGood n) pieces.keys (lastBound lo ka) pieces.children (firstBound kb hi))
    (hPieceKeys : ∀ k ∈ pieces.keys, env.fmt.keyLen k ≤ bounds.keyLen) :
    ∃ result mem', env.replacePair modify branch (min i (mergeWith i)) pieces dropped mem =
        .ok (result, mem') ∧
      Small env.fmt bounds result := by
  rcases hSizes with ⟨hCount, hBytes, hKeys, _⟩
  have hRoomKeys := hRoom.keys
  have hRoomBytes := hRoom.branchBytes
  have hOuter : ∀ j ∈ ka ++ kb, env.fmt.keyLen j ≤ bounds.keyLen := by
    intro j hj
    refine hKeys j ?_
    rw [hN.keys_eq]
    rcases mem_append.mp hj with h | h
    · simp [h]
    · simp [h]
  have hLess : env.fmt.branchBytes (ka ++ kb) ≤ bounds.branchBytes := by
    refine le_trans (env.fmt.branchBytes_le_of_sublist ?_) hBytes
    rw [hN.keys_eq, append_assoc]
    exact List.Sublist.append_left (sublist_append_right [k] kb) ka
  have hFewer : (ka ++ kb).length + 1 ≤ bounds.keys := by
    rw [hN.keys_eq] at hCount
    simp only [length_append, length_cons, length_nil] at hCount ⊢
    omega
  have hFit := env.fmt.pieces_fit ka kb hPieceKeys (by omega) (by omega)
  have hAll : ∀ j ∈ ka ++ pieces.keys ++ kb, env.fmt.keyLen j ≤ bounds.keyLen := by
    intro j hj
    simp only [mem_append] at hj
    rcases hj with (hj | hj) | hj
    · exact hOuter j (mem_append_left _ hj)
    · exact hPieceKeys j hj
    · exact hOuter j (mem_append_right _ hj)
  rcases finalizeBranchBuilder_returns env
    (ca ++ pieces.children ++ cb) (ka ++ pieces.keys ++ kb) mem
    (hN.replace _ _ hChain).length_eq hFit.1 hFit.2 hAll with
    ⟨result, mem1, hFinal, hSmall⟩
  unfold BtreeEnv.replacePair
  rw [hN.children_splice, hN.keys_splice, hFinal]
  exact ⟨result, _, rfl, hSmall⟩

theorem Neighbours.mergeBranch_returns {m : Nat} {branch : Branch P K (Tree P K V (m + 1))}
    {sibling first second : Tree P K V (m + 1) × Checksum}
    {ca cb : Children P K V (m + 1)}
    (hN : Neighbours (n := m + 1) branch lo hi i clo chi before
      after sibling ca first second cb ka k kb)
    (modify : Bool) (keys : List K) (children : Children P K V m)
    (dropped : List P) (mem : Mem P K V) (hChain : Chain (ChildGood m) keys clo children chi)
    (hSmall : env.fmt.branchBytes keys ≤ 1365)
    (hKeys : ∀ k ∈ keys, env.fmt.keyLen k ≤ bounds.keyLen)
    (hSizes : Sizes env.fmt bounds (m + 2) branch) (hRoom : bounds.DeleteRoom) :
    ∃ pieces mem1 result mem', env.branchPieces (if i < mergeWith i then
          children ++ Branch.children sibling.1
        else
          Branch.children sibling.1 ++ children)
        (if i < mergeWith i then keys ++ k :: Branch.keys sibling.1 else
          Branch.keys sibling.1 ++ k :: keys) mem =
        .ok (pieces, mem1) ∧
      env.replacePair modify (n := m + 1) branch (min i (mergeWith i)) pieces dropped mem1 =
        .ok (result, mem') ∧
      Small env.fmt bounds result := by
  rcases hSizes.child hN.sibling_eq with ⟨hCount, hBytes, hSibKeys, _⟩
  have hMerged := hN.mergeBranch keys children hChain
  have hFew := env.fmt.length_le_branchBytes keys
  have hK : env.fmt.keyLen k ≤ bounds.keyLen := by
    refine hSizes.2.2.1 k ?_
    rw [hN.keys_eq]
    simp
  have hRoomKeys := hRoom.keys
  have hRoomBytes := hRoom.branchBytes
  -- both orders of the two have the same size
  have hOrder : ∀ a b : List K, a.length + b.length + 1 ≤ Format.maxCount →
        env.fmt.branchBytes a + env.fmt.branchBytes b + 28 + bounds.keyLen < Format.offsetLimit →
        (a ++ k :: b).length ≤ Format.maxCount ∧ env.fmt.branchBytes (a ++ k :: b) <
            Format.offsetLimit := by
    intro a b hLength hSum
    have hAppend := env.fmt.branchBytes_append a (k :: b)
    have hCons := (env.fmt.branchBytes_cons_le k b).2
    refine ⟨?_, by omega⟩
    simp only [length_append, length_cons]
    omega
  have hFit : (if i < mergeWith i then keys ++ k :: Branch.keys sibling.1
        else Branch.keys sibling.1 ++ k :: keys).length ≤ Format.maxCount ∧
        env.fmt.branchBytes (if i < mergeWith i then keys ++ k :: Branch.keys sibling.1
          else Branch.keys sibling.1 ++ k :: keys) <
          Format.offsetLimit := by
    split
    · exact hOrder _ _ (by omega) (by omega)
    · exact hOrder _ _ (by omega) (by omega)
  have hNe : (if i < mergeWith i then keys ++ k :: Branch.keys sibling.1
        else Branch.keys sibling.1 ++ k :: keys) ≠ [] := by
    split <;> simp
  rcases branchPieces_returns env mem hMerged.length_eq hNe
    hFit.1 hFit.2 with ⟨pieces, mem1, hPieces⟩
  have hPieceKeys : ∀ j ∈ pieces.keys, env.fmt.keyLen j ≤ bounds.keyLen := by
    intro j hj
    have hIn := branchPieces_keys env hPieces j hj
    have hCases : j ∈ keys ∨ j = k ∨ j ∈ Branch.keys sibling.1 := by
      split at hIn <;> simp at hIn <;> tauto
    rcases hCases with h | rfl | h
    · exact hKeys j h
    · exact hK
    · exact hSibKeys j h
  rcases hN.replacePair_returns env modify pieces dropped mem1 hSizes hRoom
    (branchPieces_contents env hMerged hPieces).1 hPieceKeys with
    ⟨result, mem', hReplace, hResult⟩
  exact ⟨pieces, mem1, result, mem', hPieces, hReplace, hResult⟩

theorem Neighbours.mergeLeaf_returns {branch : Branch P K (Tree P K V 0)}
    {sibling first second : Tree P K V 0 × Checksum} {ca cb : Children P K V 0}
    (hN : Neighbours (n := 0) branch lo hi i clo chi before
      after sibling ca first second cb ka k kb)
    (modify : Bool) (rest : List (K × V)) (dropped : List P) (mem : Mem P K V)
    (hRest : LeafGood clo chi rest) (hCount : rest.length ≤ 1351)
    (hSmall : env.fmt.leafBytes rest ≤ 1351)
    (hKeys : ∀ p ∈ rest, env.fmt.keyLen p.1 ≤ bounds.keyLen)
    (hSizes : Sizes env.fmt bounds 1 branch) (hRoom : bounds.DeleteRoom) :
    ∃ pieces mem1 result mem', env.leafPieces (if i < mergeWith i then rest ++ Leaf.pairs sibling.1
        else
          Leaf.pairs sibling.1 ++ rest) mem =
        .ok (pieces, mem1) ∧
      env.replacePair modify (n := 0) branch (min i (mergeWith i)) pieces dropped mem1 =
        .ok (result, mem') ∧
      Small env.fmt bounds result := by
  rcases hSizes.child hN.sibling_eq with ⟨hSibCount, hSibBytes, hSibKeys⟩
  have hMerged := hN.mergeLeaf hRest
  have hRoomPairs := hRoom.pairs
  have hRoomBytes := hRoom.leafBytes
  have hFit : (if i < mergeWith i then rest ++ Leaf.pairs sibling.1
        else Leaf.pairs sibling.1 ++ rest).length ≤ Format.maxCount ∧
        env.fmt.leafBytes (if i < mergeWith i then rest ++ Leaf.pairs sibling.1
          else Leaf.pairs sibling.1 ++ rest) <
          Format.offsetLimit := by
    have hLeft := env.fmt.leafBytes_append rest (Leaf.pairs sibling.1)
    have hRight := env.fmt.leafBytes_append (Leaf.pairs sibling.1) rest
    split
    · rw [length_append]
      exact ⟨by omega, by omega⟩
    · rw [length_append]
      exact ⟨by omega, by omega⟩
  rcases leafPieces_returns env mem hMerged.1 hFit.1 hFit.2 with ⟨pieces, mem1, hPieces⟩
  have hPieceKeys : ∀ j ∈ pieces.keys, env.fmt.keyLen j ≤ bounds.keyLen := by
    intro j hj
    rcases leafPieces_keys env hPieces j hj with ⟨p, hp, rfl⟩
    have hCases : p ∈ rest ∨ p ∈ Leaf.pairs sibling.1 := by
      split at hp <;> simp at hp <;> tauto
    rcases hCases with h | h
    · exact hKeys p h
    · exact hSibKeys p h
  rcases hN.replacePair_returns env modify pieces dropped mem1 hSizes hRoom
    (leafPieces_contents env hMerged hPieces).1 hPieceKeys with
    ⟨result, mem', hReplace, hResult⟩
  exact ⟨pieces, mem1, result, mem', hPieces, hReplace, hResult⟩

theorem absorb_returns (modify : Bool) {left : DeletionResult P K V n} (mem : Mem P K V)
    {ca cb : Children P K V n} {c : Tree P K V n × Checksum}
    {target : List (K × V)} (hGood : Good (n + 1) lo hi branch)
    (hRoute : Route branch lo hi key ca c cb ka kb) (hSizes : Sizes env.fmt bounds (n + 1) branch)
    (hRoom : bounds.DeleteRoom) (hLeft : Left (lastBound lo ka) (firstBound kb hi) target left)
    (hSmall : Small env.fmt bounds left) :
    ∃ result mem', env.absorb modify branch (branch.childForKey key) left mem = .ok (result, mem') ∧
      Small env.fmt bounds result := by
  rcases exists_neighbours hGood hRoute with ⟨sibling, _, _, _, _, _, k, _, hN⟩
  have hRoomKeys := hRoom.keys
  have hRoomBytes := hRoom.branchBytes
  have hRoomLeaf := hRoom.leafBytes
  have hRoomPairs := hRoom.pairs
  have hLength : branch.children.length = branch.keys.length + 1 := hGood.2.length_eq
  have hCount : branch.keys.length ≤ Format.maxCount := by
    have hKeys : branch.keys.length ≤ bounds.keys := hSizes.1
    omega
  have hBytes : env.fmt.branchBytes branch.keys < Format.offsetLimit := by
    have hLess : env.fmt.branchBytes branch.keys ≤ bounds.branchBytes := hSizes.2.1
    omega
  have hKeys : ∀ k ∈ branch.keys, env.fmt.keyLen k ≤ bounds.keyLen := hSizes.2.2.1
  cases left with
  | subtree child checksum =>
    rw [BtreeEnv.absorb]
    split
    · exact ⟨_, _, rfl, trivial⟩
    · rcases buildBranch_returns env (branch.children.set (branch.childForKey key)
          (child, checksum)) branch.keys mem
        (by rw [length_set, hLength])
        (env.fmt.branchEncodable_of_sublist (List.Sublist.refl _) hGood.1 hCount hBytes) with
        ⟨_, _, hBuild⟩
      simp only [hBuild, ok_bind]
      exact ⟨_, _, rfl, trivial⟩
  | deletedLeaf =>
    have hChain := (hRoute.dropped hGood).1
    generalize hAt : (if branch.childForKey key = branch.children.length - 1 then
        branch.children.length - 1 - 1
      else branch.childForKey key) = at' at hChain
    have hSub := eraseIdx_sublist branch.keys at'
    have hLess := env.fmt.branchBytes_le_of_sublist hSub
    have hFewer := hSub.length_le
    rcases finalizeBranchBuilder_returns env (branch.children.eraseIdx (branch.childForKey key))
      (branch.keys.eraseIdx at') mem hChain.length_eq (by omega) (by omega)
      (fun k hk => hKeys k (hSub.subset hk)) with
      ⟨result, mem1, hFinal, hResult⟩
    simp only [BtreeEnv.absorb, hAt, hFinal, ok_bind]
    exact ⟨result, _, rfl, hResult⟩
  | partialLeaf =>
    rcases hLeft with ⟨hErase, _, hTarget⟩
    rcases hSmall with ⟨hFew, hLight, hLeafKeys⟩
    rw [hErase] at hFew hLight hLeafKeys
    simp only [BtreeEnv.absorb, hN.sibling_eq, unwrap, elim_some, ok_bind, hErase]
    split
    · -- the sibling is a single large value and stays alone
      rcases buildLeaf_returns env mem (env.fmt.leafEncodable_of_sublist
          (List.Sublist.refl _) hTarget.1 (by omega) (by omega)) with ⟨newLeaf, mem1, hBuild⟩
      rcases finalizeBranchBuilder_returns (n := 0) env
        (branch.children.set (branch.childForKey key) (newLeaf, deferred)) branch.keys mem1
        (by rw [length_set, hLength]) hCount hBytes hKeys with ⟨result, mem2, hFinal, hResult⟩
      simp only [hBuild, ok_bind, hFinal]
      exact ⟨result, _, rfl, hResult⟩
    · rcases hN.mergeLeaf_returns env modify target
        [Leaf.page sibling.1] mem hTarget hFew hLight
        hLeafKeys hSizes hRoom with
        ⟨_, _, result, mem', hPieces, hReplace, hResult⟩
      refine ⟨result, mem', ?_, hResult⟩
      rw [hPieces]
      exact hReplace
  | partialBranch partialChild =>
    rcases hLeft with ⟨hPartial, _⟩
    rcases hSmall with ⟨hLight, hPartKeys⟩
    rcases hN.mergeBranch_returns env modify partialChild.keys partialChild.children
      [Branch.page sibling.1, partialChild.page] mem
      hPartial.2 hLight hPartKeys hSizes hRoom with
      ⟨_, _, result, mem', hPieces, hReplace, hResult⟩
    refine ⟨result, mem', ?_, hResult⟩
    simp only [BtreeEnv.absorb, hN.sibling_eq, hN.separator_eq, unwrap, elim_some, ok_bind]
    rw [hPieces]
    exact hReplace
  | deletedBranch grandchild checksum =>
    rcases hLeft with ⟨hChild, _⟩
    rcases hN.mergeBranch_returns env modify [] [(grandchild, checksum)] [Branch.page sibling.1] mem
      ((Chain.nil_singleton _ _ _).mpr hChild) (by simp [Format.branchBytes, Format.keyBytes])
      (by simp) hSizes hRoom with
      ⟨_, _, result, mem', hPieces, hReplace, hResult⟩
    refine ⟨result, mem', ?_, hResult⟩
    simp only [BtreeEnv.absorb, hN.sibling_eq, hN.separator_eq, unwrap, elim_some, ok_bind]
    simp only [nil_append, cons_append] at hPieces
    rw [hPieces]
    exact hReplace

/- Deletion from a subtree returns. -/
theorem deleteHelper_returns
    (modify : Bool) (n : Nat) (t : Tree P K V n) (checksum : Checksum) (mem : Mem P K V)
    (hGood : Good n lo hi t) (hKey : Within lo hi key)
    (hSizes : Sizes env.fmt bounds n t) (hRoom : bounds.DeleteRoom) :
    ∃ result found mem', env.deleteHelper modify n t checksum key mem = .ok (result, found, mem') ∧
      Small env.fmt bounds result := by
  induction n generalizing lo hi checksum mem with
  | zero => exact deleteLeaf_returns env modify t checksum mem hGood hSizes hRoom
  | succ n ih =>
    rcases exists_route hGood hKey with ⟨ca, c, cb, ka, kb, hRoute⟩
    rcases ih c.1 c.2 mem hRoute.good hRoute.within (hSizes.child hRoute.child_eq) with
      ⟨left, found, mem1, hSub, hSmall⟩
    have hLeft := (deleteHelper_contents env hRoute.good hRoute.within hSub).2
    cases found with
    | none =>
      refine ⟨.subtree t checksum, none, mem1, ?_, trivial⟩
      simp [BtreeEnv.deleteHelper, hRoute.child_eq, unwrap, hSub]
    | some v =>
      rcases absorb_returns env modify mem1 hGood hRoute hSizes hRoom hLeft hSmall with
        ⟨result, mem', hAbsorb, hResult⟩
      refine ⟨result, some v, mem', ?_, hResult⟩
      simp [BtreeEnv.deleteHelper, hRoute.child_eq, unwrap, hSub, hAbsorb]

end Deletion

end Redbx
