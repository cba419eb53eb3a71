import Redbx.Btree.Ledger
import Redbx.Btree.Ranges

/-
  Where a range iterator starts, and what it yields.

  Both searches for a bound end at the same slot, `locate`; the flag they return says on which side
  of the bound the slot is. Together with the flag the slot counts the entries before the bound, so
  the ends of a new iterator enclose the entries of the range.

  Key theorems include:
    * `new_spans`, `range_yields_entries_in_range`
-/

namespace Redbx

open Redbx.Tree List

variable {P K V : Type}

-- Cursors Below A Stack

/- A cursor at the slot `i` of a subtree below a stack. -/
structure Placed
    (reverse : Bool) (n : Nat) (t : Tree P K V n) (parents : List (Frame P K V)) (i : Nat)
    (state : RangeIterState P K V) :
    Prop where
  ready : state.Ready
  lt : i < (slots n t).length
  current : state.current = (slots n t)[i]?
  pending : state.pending reverse = beyond reverse i (slots n t) ++ pendingAll reverse parents

variable {n : Nat} {i : Nat}

/- Without a stack the cursor is in the whole tree. -/
theorem Placed.at {reverse : Bool} {t : Tree P K V n} {state : RangeIterState P K V}
    (hPlaced : Placed reverse n t [] i state) :
    At reverse (slots n t) i state := by
  refine ⟨hPlaced.ready, hPlaced.lt, hPlaced.current, ?_⟩
  rw [hPlaced.pending]
  exact append_nil _

/- The slots below a list of children. -/
def childSlots (n : Nat) (children : Children P K V n) : List (Slot P K V) :=
  children.flatMap fun c => slots n c.1

theorem length_childSlots (n : Nat) (children : Children P K V n) :
    (childSlots n children).length = (childEntries n children).length := by
  have hPairs : (childSlots n children).map Slot.pair = childEntries n children := by
    rw [childSlots, map_flatMap]
    exact flatMap_congr fun c _ => slots_pairs n c.1
  rw [← hPairs, length_map]

theorem length_slots (n : Nat) (t : Tree P K V n) : (slots n t).length = (entries n t).length := by
  rw [← slots_pairs, length_map]

theorem slots_branch {branch : Branch P K (Tree P K V n)} {ca cb : Children P K V n}
    {c : Tree P K V n × Checksum} (hChildren : branch.children = ca ++ [c] ++ cb) :
    slots (n + 1) branch = childSlots n ca ++ slots n c.1 ++ childSlots n cb := by
  change childSlots n branch.children = _
  rw [hChildren, childSlots, flatMap_append, flatMap_append, flatMap_singleton]
  rfl

theorem beyond_middle {α : Type} (reverse : Bool) (a b : List α) {m : List α} (hLt : i < m.length) :
    beyond reverse (a.length + i) (a ++ m ++ b) = beyond reverse i m ++
        orient reverse (if reverse then a else b) := by
  cases reverse with
  | false =>
    simp only [beyond, orient, Bool.false_eq_true, if_false]
    rw [append_assoc, Nat.add_assoc, drop_append,
      drop_eq_nil_of_le (Nat.le_add_right _ _), nil_append, Nat.add_sub_cancel_left,
      drop_append_of_le_length (by omega)]
  | true =>
    simp only [beyond, orient, if_true]
    rw [append_assoc, take_length_add_append, take_append_of_le_length (by omega), reverse_append]

/- What is behind a child, below its branch. -/
theorem beyond_children
    (reverse : Bool) (ca cb : Children P K V n) (c : Tree P K V n × Checksum) :
    (beyond reverse ca.length (ca ++ [c] ++ cb)).flatMap (fun c => orient reverse (slots n c.1)) =
      orient reverse (if reverse then childSlots n ca else childSlots n cb) := by
  have hBeyond := beyond_middle reverse ca cb (show 0 < [c].length from Nat.one_pos)
  have hNone : beyond reverse 0 [c] = [] := by
    cases reverse with
    | false | true => rfl
  rw [Nat.add_zero, hNone, nil_append] at hBeyond
  rw [hBeyond, ← orient_flatMap]
  cases reverse with
  | false | true => rfl

/- A cursor below a child is one below its branch. -/
theorem Placed.ascend
    {reverse : Bool} {branch : Branch P K (Tree P K V n)} {ca cb : Children P K V n}
    {c : Tree P K V n × Checksum} {parents : List (Frame P K V)} {state : RangeIterState P K V}
    (hFull : ∀ c ∈ branch.children, Full n c.1) (hChildren : branch.children = ca ++ [c] ++ cb)
    (hPlaced : Placed reverse n c.1 (RangeIterState.afterChild reverse
        ⟨n, branch, ca.length⟩ parents) i state) :
    Placed reverse (n + 1) branch parents ((childSlots n ca).length + i) state := by
  have hFrame : Frame.Ready ⟨n, branch, ca.length⟩ := by
    refine ⟨?_, hFull⟩
    rw [hChildren]
    simp
  have hSlots := slots_branch hChildren
  have hLt := hPlaced.lt
  refine ⟨hPlaced.ready, ?_, ?_, ?_⟩
  · rw [hSlots, length_append, length_append]
    omega
  · rw [hPlaced.current, hSlots, append_assoc, getElem?_append_right (Nat.le_add_right _ _),
      Nat.add_sub_cancel_left, getElem?_append_left hLt]
  · rw [hPlaced.pending, hSlots, beyond_middle reverse _ _ hLt,
      RangeIterState.pendingAll_afterChild reverse parents hFrame]
    change _ ++ ((beyond reverse ca.length branch.children).flatMap _ ++ _) = _
    rw [hChildren, beyond_children, append_assoc]

theorem Placed.leaf (reverse : Bool) (leaf : Leaf P K V) {parents : List (Frame P K V)}
    (hLt : i < leaf.pairs.length) (hParents : ∀ f ∈ parents, f.Ready) :
    Placed reverse 0 leaf parents i (.leaf leaf i parents) := by
  refine ⟨⟨hLt, hParents⟩, ?_, rfl, rfl⟩
  change i < (leafSlots leaf).length
  rw [length_leafSlots]
  exact hLt

-- Searches Without A Bound

section Searches

variable [LinearOrder K]

variable {n : Nat} {lo hi : Option K} {t : Tree P K V n}

theorem Tree.Good.full (hGood : Good n lo hi t) : Full n t := by
  induction n generalizing lo hi with
  | zero => exact hGood.1
  | succ n ih =>
    have hChain : Chain (ChildGood n) (Branch.keys t) lo (Branch.children t) hi := hGood.2
    refine ⟨?_, ?_⟩
    · intro hNil
      have hLength := hChain.length_eq
      rw [hNil] at hLength
      cases hLength
    · intro c hc
      rcases hChain.exists_good hc with ⟨a, b, hChild⟩
      exact ih hChild

variable {branch : Branch P K (Tree P K V n)}

theorem Tree.Good.two_children (hGood : Good (n + 1) lo hi branch) :
    2 ≤ branch.children.length := by
  have hChain : Chain (ChildGood n) branch.keys lo branch.children hi := hGood.2
  have hKeys : branch.keys.length ≠ 0 := by
    intro hZero
    exact hGood.1 (length_eq_zero_iff.mp hZero)
  rw [hChain.length_eq]
  omega

/- The first slot, and the last one. -/
def extreme (reverse : Bool) (n : Nat) (t : Tree P K V n) : Nat := edge reverse (slots n t).length

omit [LinearOrder K] in
variable {c : Tree P K V n × Checksum}

omit [LinearOrder K] in
/- The descent to an end of the tree, one branch at a time. -/
theorem findIterUnbounded_branch
    (reverse : Bool) (parents : List (Frame P K V)) (hTwo : 2 ≤ branch.children.length)
    (hChild : branch.children[ edge reverse branch.children.length]? = some c) :
    findIterUnbounded reverse (n + 1) branch parents = findIterUnbounded reverse n c.1
        (RangeIterState.afterChild reverse ⟨n, branch, edge reverse branch.children.length⟩
          parents) := by
  rw [findIterUnbounded, hChild]
  unfold RangeIterState.afterChild neighbour edge
  cases reverse with
  | false =>
    simp only [Bool.false_eq_true, if_false]
    rw [if_pos (by omega)]
    rfl
  | true =>
    simp only [if_true]
    have hCheck : require (decide (0 < branch.children.length - 1)) .outOfRange = .ok () :=
      require_eq_ok.mpr (decide_eq_true (by omega))
    rw [if_pos (by omega), hCheck]
    rfl

variable {parents : List (Frame P K V)}

/- The search for an end of the tree goes to its edge. -/
theorem findIterUnbounded_spec
    (reverse : Bool) (hGood : Good n lo hi t) (hParents : ∀ f ∈ parents, f.Ready) :
    ∃ state, findIterUnbounded reverse n t parents = .ok state ∧
      Placed reverse n t parents (extreme reverse n t) state := by
  induction n generalizing lo hi parents with
  | zero =>
    have hLength : (Leaf.pairs t).length ≠ 0 := by
      intro hZero
      exact hGood.1 (length_eq_zero_iff.mp hZero)
    refine ⟨_, rfl, ?_⟩
    have hPlaced := Placed.leaf reverse t (RangeIterState.edge_lt reverse hLength) hParents
    rw [← length_leafSlots] at hPlaced ⊢
    exact hPlaced
  | succ n ih =>
    have hTwo : 2 ≤ (Branch.children t).length := hGood.two_children
    have hChain : Chain (ChildGood n) (Branch.keys t) lo (Branch.children t) hi := hGood.2
    have hEdge := RangeIterState.edge_lt reverse (show (Branch.children t).length ≠ 0 by omega)
    rcases exists_window (Branch.children t) (edge reverse (Branch.children t).length) 1 hEdge with
      ⟨ca, cm, cb, hChildren, hA, hM⟩
    rcases length_eq_one_iff.mp hM with ⟨c, rfl⟩
    have hChild : (Branch.children t)[ edge reverse (Branch.children t).length]? = some c := by
      rw [← hA, hChildren, getElem?_middle]
    rcases hChain.exists_good (mem_of_getElem? hChild) with ⟨a, b, hGoodChild⟩
    have hFrame : Frame.Ready ⟨n, t, edge reverse (Branch.children t).length⟩ :=
      ⟨hEdge, hGood.full.2⟩
    rcases ih hGoodChild (RangeIterState.afterChild_ready reverse hFrame hParents) with
      ⟨state, hFind, hPlaced⟩
    refine ⟨state, ?_, ?_⟩
    · rw [findIterUnbounded_branch reverse parents hTwo hChild]
      exact hFind
    · rw [← hA] at hPlaced
      have hIndex : (childSlots n ca).length + extreme reverse n c.1 =
            extreme reverse (n + 1) t := by
        have hLt := hPlaced.lt
        have hLength : (Branch.children t).length = ca.length + 1 + cb.length := by
          rw [hChildren, length_append, length_append]
          rfl
        unfold extreme edge at hLt ⊢
        rw [slots_branch hChildren, length_append, length_append]
        cases reverse with
        | false =>
          have hNil : ca = [] := length_eq_zero_iff.mp hA
          rw [hNil]
          rfl
        | true =>
          change ca.length = (Branch.children t).length - 1 at hA
          have hNil : cb = [] := length_eq_zero_iff.mp (by omega)
          rw [hNil]
          change _ = _ + _ + 0 - 1
          simp only [if_true] at hLt ⊢
          omega
      rw [← hIndex]
      exact hPlaced.ascend hGood.full.2 hChildren

-- Searches For A Bound

/- The slot at which the search for a query ends. -/
def locate (query : K) : (n : Nat) → Tree P K V n → Nat
  | 0, leaf =>
    backUp (Leaf.position leaf query).1 (Leaf.pairs leaf).length
  | n + 1, branch =>
    let index := Branch.childForKey branch query
    (childSlots n ((Branch.children branch).take index)).length +
      (Branch.children branch)[index]?.elim 0 fun c => locate query n c.1

/- The key is below the query, or is it if that counts. -/
def notBehind (equal : Bool) (query key : K) : Bool :=
  decide (key < query) || (equal && decide (key = query))

variable {query : K}

theorem countP_middle
    (equal : Bool) {a b : List (K × V)} (m : List (K × V)) (hBelow : Below query a)
    (hAbove : Above query b) :
    (a ++ m ++ b).countP (fun e => notBehind equal query e.1) = a.length +
        m.countP fun e => notBehind equal query e.1 := by
  have hAll : a.countP (fun e => notBehind equal query e.1) = a.length := by
    rw [countP_eq_length]
    intro e he
    rw [notBehind, decide_eq_true (hBelow e he), Bool.true_or]
  have hNone : b.countP (fun e => notBehind equal query e.1) = 0 := by
    rw [countP_eq_zero]
    intro e he
    have hGt := hAbove e he
    rw [notBehind, decide_eq_false (not_lt_of_gt hGt), decide_eq_false (ne_of_gt hGt)]
    simp
  rw [countP_append, countP_append, hAll, hNone]
  rfl

variable {ca cb : Children P K V n} {ka kb : List K}

theorem Route.locate_eq (hRoute : Route branch lo hi query ca c cb ka kb) :
    locate query (n + 1) branch = (childSlots n ca).length + locate query n c.1 := by
  rw [locate, hRoute.child_eq, hRoute.index_eq, hRoute.children_eq, append_assoc, take_left]
  rfl

theorem Route.countP_eq (hRoute : Route branch lo hi query ca c cb ka kb) (equal : Bool) :
    (entries (n + 1) branch).countP (fun e => notBehind equal query e.1) =
      (childSlots n ca).length + (entries n c.1).countP fun e => notBehind equal query e.1 := by
  rw [hRoute.entries_eq, countP_middle equal _ hRoute.below hRoute.above, length_childSlots]

theorem Route.frame_ready
    (hRoute : Route branch lo hi query ca c cb ka kb) (hFull : Full (n + 1) branch) :
    Frame.Ready ⟨n, branch, ca.length⟩ := by
  refine ⟨?_, hFull.2⟩
  rw [hRoute.children_eq]
  simp

/- The search in a leaf ends at one of its entries. -/
theorem backUp_lt {position count : Nat} (hLe : position ≤ count) (hCount : count ≠ 0) :
    backUp position count < count := by
  unfold backUp
  split
  · assumption
  · omega

theorem position_counts (leaf : Leaf P K V) (query : K) (hSorted : Sorted leaf.pairs) :
    (leaf.position query).1 ≤ leaf.pairs.length ∧ ((leaf.position query).2 = true →
        (leaf.position query).1 < leaf.pairs.length) ∧
      ∀ equal, leaf.pairs.countP (fun e => notBehind equal query e.1) =
        (leaf.position query).1 + if (leaf.position query).2 && equal then 1
            else 0 := by
  rcases position_cases leaf query hSorted with ⟨a, b, hA, hB, ⟨hPos, hList⟩ | ⟨v, hPos, hList⟩⟩
  · rw [hPos, hList]
    refine ⟨?_, ?_, ?_⟩
    · rw [append_nil, length_append]
      exact Nat.le_add_right _ _
    · intro hFound
      cases hFound
    · intro equal
      rw [countP_middle equal _ hA hB]
      rfl
  · rw [hPos, hList]
    have hLength : (a ++ [(query, v)] ++ b).length = a.length + 1 + b.length := by
      rw [length_append, length_append]
      rfl
    refine ⟨?_, ?_, ?_⟩
    · change a.length ≤ _
      omega
    · intro _
      change a.length < _
      omega
    · intro equal
      rw [countP_middle equal _ hA hB, countP_singleton]
      simp [notBehind]

/- The search for the left end. With its flag the slot counts the entries before the range. -/
theorem findIterLeft_spec
    (query : K) (includeQuery : Bool) (hGood : Good n lo hi t) (hKey : Within lo hi query)
    (hParents : ∀ f ∈ parents, f.Ready) :
    ∃ included state, findIterLeft query includeQuery n t parents = .ok (included, state) ∧
      Placed false n t parents (locate query n t) state ∧
      lower (locate query n t) included = (entries n t).countP
          fun e => notBehind (!includeQuery) query e.1 := by
  induction n generalizing lo hi parents with
  | zero =>
    rcases position_counts t query hGood.2.1 with ⟨hLe, hFound, hCount⟩
    have hNe : (Leaf.pairs t).length ≠ 0 := by
      intro hZero
      exact hGood.1 (length_eq_zero_iff.mp hZero)
    refine ⟨decide ((Leaf.position t query).1 < (Leaf.pairs t).length) &&
        (includeQuery || !(Leaf.position t query).2),
      _, rfl, Placed.leaf false t (backUp_lt hLe hNe) hParents, ?_⟩
    change lower (backUp (Leaf.position t query).1 _) _ = (Leaf.pairs t).countP _
    rw [hCount, lower, backUp]
    by_cases hLt : (Leaf.position t query).1 < (Leaf.pairs t).length
    · rw [if_pos hLt, decide_eq_true hLt]
      cases (Leaf.position t query).2 with
      | false => simp
      | true =>
        cases includeQuery with
        | false | true => rfl
    · rw [if_neg hLt, decide_eq_false hLt]
      have hMissing := Bool.eq_false_iff.mpr (mt hFound hLt)
      rw [hMissing]
      change _ - 1 + 1 = _ + 0
      omega
  | succ n ih =>
    rcases exists_route hGood hKey with ⟨ca, c, cb, ka, kb, hRoute⟩
    rcases ih hRoute.good hRoute.within (RangeIterState.afterChild_ready false
          (hRoute.frame_ready hGood.full) hParents) with
      ⟨included, state, hFind, hPlaced, hCount⟩
    refine ⟨included, state, ?_, ?_, ?_⟩
    · rw [findIterLeft, hRoute.child_eq, ← hFind, hRoute.index_eq]
      unfold RangeIterState.afterChild neighbour
      simp only [Bool.false_eq_true, if_false]
      by_cases hNext : ca.length + 1 < (Branch.children t).length
      · rw [if_pos hNext]
        change (if _ then _ else _) = _
        rw [if_pos (by omega)]
      · rw [if_neg hNext]
        change (if _ then _ else _) = _
        rw [if_neg (by omega)]
    · rw [hRoute.locate_eq]
      exact hPlaced.ascend hGood.full.2 hRoute.children_eq
    · rw [hRoute.locate_eq, hRoute.countP_eq, ← hCount, lower, lower, Nat.add_assoc]

/-
  The search for the right end. With its flag the slot counts the entries that are not behind the
  range.
-/
theorem findIterRight_spec
    (query : K) (includeQuery : Bool) (hGood : Good n lo hi t) (hKey : Within lo hi query)
    (hParents : ∀ f ∈ parents, f.Ready) :
    ∃ included state, findIterRight query includeQuery n t parents = .ok (included, state) ∧
      Placed true n t parents (locate query n t) state ∧
      upper (locate query n t) included = (entries n t).countP
          fun e => notBehind includeQuery query e.1 := by
  induction n generalizing lo hi parents with
  | zero =>
    rcases position_counts t query hGood.2.1 with ⟨hLe, hFound, hCount⟩
    have hNe : (Leaf.pairs t).length ≠ 0 := by
      intro hZero
      exact hGood.1 (length_eq_zero_iff.mp hZero)
    refine ⟨!decide ((Leaf.position t query).1 < (Leaf.pairs t).length) ||
        (includeQuery && (Leaf.position t query).2),
      _, rfl, Placed.leaf true t (backUp_lt hLe hNe) hParents, ?_⟩
    change upper (backUp (Leaf.position t query).1 _) _ = (Leaf.pairs t).countP _
    rw [hCount, upper, backUp]
    by_cases hLt : (Leaf.position t query).1 < (Leaf.pairs t).length
    · rw [if_pos hLt, decide_eq_true hLt, Bool.not_true, Bool.false_or, Bool.and_comm]
    · rw [if_neg hLt, decide_eq_false hLt]
      have hMissing := Bool.eq_false_iff.mpr (mt hFound hLt)
      rw [hMissing]
      change _ - 1 + 1 = _ + 0
      omega
  | succ n ih =>
    rcases exists_route hGood hKey with ⟨ca, c, cb, ka, kb, hRoute⟩
    rcases ih hRoute.good hRoute.within (RangeIterState.afterChild_ready true
          (hRoute.frame_ready hGood.full) hParents) with
      ⟨included, state, hFind, hPlaced, hCount⟩
    refine ⟨included, state, ?_, ?_, ?_⟩
    · have hLt := (hRoute.frame_ready hGood.full).child_lt
      change ca.length < (Branch.children t).length at hLt
      rw [findIterRight, hRoute.child_eq, ← hFind, hRoute.index_eq]
      unfold RangeIterState.afterChild neighbour
      simp only [if_true]
      by_cases hPos : 0 < ca.length
      · rw [if_pos ⟨hPos, by omega⟩]
        change (if _ then _ else _) = _
        rw [if_pos hPos]
      · rw [if_neg (by omega)]
        change (if _ then _ else _) = _
        rw [if_neg hPos]
    · rw [hRoute.locate_eq]
      exact hPlaced.ascend hGood.full.2 hRoute.children_eq
    · rw [hRoute.locate_eq, hRoute.countP_eq, ← hCount, upper, upper, Nat.add_assoc]

omit [LinearOrder K] in
theorem childSlots_take_le (children : Children P K V n) {i k : Nat} (hLe : i ≤ k) :
    (childSlots n (children.take i)).length ≤ (childSlots n (children.take k)).length := by
  rcases Nat.exists_eq_add_of_le hLe with ⟨d, rfl⟩
  rw [take_add, childSlots, childSlots, flatMap_append, length_append]
  exact Nat.le_add_right _ _

omit [LinearOrder K] in
theorem childSlots_take_succ
    {children : Children P K V n} {i : Nat} (hChild : children[i]? = some c) :
    (childSlots n (children.take (i + 1))).length =
      (childSlots n (children.take i)).length + (slots n c.1).length := by
  rw [take_add_one, hChild, childSlots, flatMap_append, length_append]
  change _ + ([c].flatMap fun c => slots n c.1).length = _
  rw [flatMap_singleton]
  rfl

/- The search for a higher query ends further right. -/
theorem locate_mono {query query' : K} (hGood : Good n lo hi t) (hLe : query ≤ query') :
    locate query n t ≤ locate query' n t ∧ locate query n t < (slots n t).length := by
  induction n generalizing lo hi with
  | zero =>
    have hSorted : ((Leaf.pairs t).map Prod.fst).Pairwise (· < ·) := pairwise_map.mpr hGood.2.1
    have hMono := search_mono hSorted hLe
    have hNe : (Leaf.pairs t).length ≠ 0 := by
      intro hZero
      exact hGood.1 (length_eq_zero_iff.mp hZero)
    have hBound := (position_counts t query hGood.2.1).1
    refine ⟨?_, ?_⟩
    · change (Leaf.position t query).1 ≤ (Leaf.position t query').1 at hMono
      have hBound' := (position_counts t query' hGood.2.1).1
      unfold locate backUp
      split
      · split
        · exact hMono
        · omega
      · split
        · omega
        · omega
    · change _ < (leafSlots t).length
      rw [length_leafSlots]
      exact backUp_lt hBound hNe
  | succ n ih =>
    have hChain : Chain (ChildGood n) (Branch.keys t) lo (Branch.children t) hi := hGood.2
    have hMono := search_mono (keys_sorted hChain).1 hLe
    change Branch.childForKey t query ≤ Branch.childForKey t query' at hMono
    have hIndex : ∀ q, Branch.childForKey t q < (Branch.children t).length := by
      intro q
      rw [hChain.length_eq, Branch.childForKey, search_fst q (keys_sorted hChain).1]
      exact Nat.lt_succ_of_le countP_le_length
    have hLocate : ∀ q c, (Branch.children t)[Branch.childForKey t q]? = some c →
        locate q (n + 1) t = (childSlots n ((Branch.children t).take
            (Branch.childForKey t q))).length +
            locate q n c.1 := by
      intro q c hc
      rw [locate, hc]
      rfl
    obtain ⟨c, hc⟩ : ∃ c, (Branch.children t)[ Branch.childForKey t query]? = some c :=
      ⟨_, getElem?_eq_getElem (hIndex query)⟩
    obtain ⟨c', hc'⟩ : ∃ c, (Branch.children t)[ Branch.childForKey t query']? = some c :=
      ⟨_, getElem?_eq_getElem (hIndex query')⟩
    rcases hChain.exists_good (mem_of_getElem? hc) with ⟨a, b, hGoodChild⟩
    rcases ih hGoodChild with ⟨hMonoChild, hLtChild⟩
    have hSucc := childSlots_take_succ hc
    rw [hLocate query c hc, hLocate query' c' hc']
    refine ⟨?_, ?_⟩
    · rcases Nat.lt_or_eq_of_le hMono with hLess | hSame
      · have hTake := childSlots_take_le (Branch.children t) (Nat.succ_le_of_lt hLess)
        change (childSlots n ((Branch.children t).take
          (Branch.childForKey t query + 1))).length ≤ _ at hTake
        omega
      · rw [← hSame] at hc' ⊢
        rw [hc] at hc'
        cases hc'
        omega
    · have hTake := childSlots_take_le (Branch.children t) (Nat.succ_le_of_lt (hIndex query))
      rw [take_length] at hTake
      change (childSlots n ((Branch.children t).take
        (Branch.childForKey t query + 1))).length ≤ (slots (n + 1) t).length at hTake
      omega

-- The Entries Of A Range

/- The key is not before the range. -/
def aboveStart : Bound K → K → Bool
  | .included start, key => decide (start ≤ key)
  | .excluded start, key => decide (start < key)
  | .unbounded, _ => true

/- The key is not behind the range. -/
def belowLast : Bound K → K → Bool
  | .included last, key => decide (key ≤ last)
  | .excluded last, key => decide (key < last)
  | .unbounded, _ => true

def inRange (start last : Bound K) (key : K) : Bool := aboveStart start key && belowLast last key

theorem inRange_of_rangeIsEmpty
    {start last : Bound K} (hEmpty : rangeIsEmpty start last = true) (key : K) :
    inRange start last key = false := by
  cases start with
  | unbounded => cases hEmpty
  | included a =>
    cases last with
    | unbounded => cases hEmpty
    | included b =>
      have hGt : b < a := by simpa [rangeIsEmpty, compare_gt_iff_gt] using hEmpty
      by_contra hIn
      simp [inRange, aboveStart, belowLast] at hIn
      exact absurd (le_trans hIn.1 hIn.2) (not_le_of_gt hGt)
    | excluded b =>
      have hLe : b ≤ a := by simpa [rangeIsEmpty, compare_lt_iff_lt] using hEmpty
      by_contra hIn
      simp [inRange, aboveStart, belowLast] at hIn
      exact absurd (lt_of_le_of_lt hIn.1 hIn.2) (not_lt_of_ge hLe)
  | excluded a =>
    cases last with
    | unbounded => cases hEmpty
    | included b =>
      have hLe : b ≤ a := by simpa [rangeIsEmpty, compare_lt_iff_lt] using hEmpty
      by_contra hIn
      simp [inRange, aboveStart, belowLast] at hIn
      exact absurd (lt_of_lt_of_le hIn.1 hIn.2) (not_lt_of_ge hLe)
    | excluded b =>
      have hLe : b ≤ a := by simpa [rangeIsEmpty, compare_lt_iff_lt] using hEmpty
      by_contra hIn
      simp [inRange, aboveStart, belowLast] at hIn
      exact absurd (lt_trans hIn.1 hIn.2) (not_lt_of_ge hLe)

end Searches

/-
  What is behind the elements with `p` and among those with `q`, when both are initial parts of the
  list.
-/
theorem filter_eq_between
    {α : Type} (p q : α → Bool) {l : List α} (hp : l.Pairwise fun x y => p y = true → p x = true)
    (hq : l.Pairwise fun x y => q y = true → q x = true) :
    l.filter (fun x => !p x && q x) = between l (l.countP p) (l.countP q) := by
  induction l with
  | nil => rfl
  | cons x l ih =>
    rcases pairwise_cons.mp hp with ⟨hpHead, hpRest⟩
    rcases pairwise_cons.mp hq with ⟨hqHead, hqRest⟩
    have hRest := ih hpRest hqRest
    cases hqx : q x with
    | false =>
      have hNone : ∀ y ∈ x :: l, ¬ q y = true := by
        intro y hy hTrue
        rcases mem_cons.mp hy with rfl | hy
        · rw [hTrue] at hqx
          cases hqx
        · rw [hqHead y hy hTrue] at hqx
          cases hqx
      rw [countP_eq_zero.mpr hNone, between_nil (Nat.zero_le _), filter_eq_nil_iff]
      intro y hy hTrue
      exact hNone y hy (Bool.and_eq_true_iff.mp hTrue).2
    | true =>
      rw [countP_cons_of_pos hqx]
      cases hpx : p x with
      | true =>
        rw [countP_cons_of_pos hpx, filter_cons_of_neg (by simp [hpx]), hRest]
        rfl
      | false =>
        have hNone : ∀ y ∈ l, ¬ p y = true := by
          intro y hy hTrue
          rw [hpHead y hy hTrue] at hpx
          cases hpx
        rw [countP_eq_zero.mpr hNone] at hRest
        rw [countP_cons_of_neg (by simp [hpx]), countP_eq_zero.mpr hNone,
          filter_cons_of_pos (by simp [hpx, hqx]), hRest]
        rfl

section Range

variable [LinearOrder K]

theorem filter_inRange (start last : Bound K) {es : List (K × V)} (hSorted : Sorted es) :
    es.filter (fun e => inRange start last e.1) =
      between es (es.countP fun e => !aboveStart start e.1)
        (es.countP fun e => belowLast last e.1) := by
  rw [← filter_eq_between]
  · simp only [Bool.not_not]
    rfl
  · refine hSorted.imp ?_
    intro x y hLt hy
    rw [Bool.not_eq_true'] at hy ⊢
    cases start with
    | unbounded => exact hy
    | included a =>
      have hLow := of_decide_eq_false hy
      exact decide_eq_false fun hHigh => hLow (le_of_lt (lt_of_le_of_lt hHigh hLt))
    | excluded a =>
      have hLow := of_decide_eq_false hy
      exact decide_eq_false fun hHigh => hLow (lt_trans hHigh hLt)
  · refine hSorted.imp ?_
    intro x y hLt hy
    cases last with
    | unbounded => exact hy
    | included b => exact decide_eq_true (le_of_lt (lt_of_lt_of_le hLt (of_decide_eq_true hy)))
    | excluded b => exact decide_eq_true (lt_trans hLt (of_decide_eq_true hy))

/- The slot at which an end of the range starts. -/
def boundSlot (reverse : Bool) (n : Nat) (t : Tree P K V n) : Bound K → Nat
  | .included key => locate key n t
  | .excluded key => locate key n t
  | .unbounded => extreme reverse n t

omit [LinearOrder K] in
theorem no_parents : ∀ f ∈ ([] : List (Frame P K V)), f.Ready := by
  intro f hf
  cases hf

variable {n : Nat} {t : Tree P K V n}

theorem findLeft_spec (start : Bound K) (hGood : Good n none none t) :
    ∃ included state, BtreeRangeIter.findLeft n t start = .ok (included, state) ∧
      At false (slots n t) (boundSlot false n t start) state ∧
      lower (boundSlot false n t start) included = (entries n t).countP
          fun e => !aboveStart start e.1 := by
  cases start with
  | included key =>
    rcases findIterLeft_spec key true hGood (within_none key) no_parents with
      ⟨included, state, hFind, hPlaced, hCount⟩
    refine ⟨included, state, hFind, hPlaced.at, hCount.trans (countP_congr fun e _ => ?_)⟩
    simp [notBehind, aboveStart]
  | excluded key =>
    rcases findIterLeft_spec key false hGood (within_none key) no_parents with
      ⟨included, state, hFind, hPlaced, hCount⟩
    refine ⟨included, state, hFind, hPlaced.at, hCount.trans (countP_congr fun e _ => ?_)⟩
    simp [notBehind, aboveStart, le_iff_lt_or_eq]
  | unbounded =>
    rcases findIterUnbounded_spec false hGood no_parents with ⟨state, hFind, hPlaced⟩
    refine ⟨true, state, ?_, hPlaced.at, ?_⟩
    · rw [BtreeRangeIter.findLeft, hFind]
      rfl
    · have hNone : (entries n t).countP (fun e => !aboveStart Bound.unbounded e.1) = 0 := by
        rw [countP_eq_zero]
        intro e _ hTrue
        cases hTrue
      rw [hNone]
      rfl

theorem findRight_spec (last : Bound K) (hGood : Good n none none t) :
    ∃ included state, BtreeRangeIter.findRight n t last = .ok (included, state) ∧
      At true (slots n t) (boundSlot true n t last) state ∧
      upper (boundSlot true n t last) included = (entries n t).countP
          fun e => belowLast last e.1 := by
  cases last with
  | included key =>
    rcases findIterRight_spec key true hGood (within_none key) no_parents with
      ⟨included, state, hFind, hPlaced, hCount⟩
    refine ⟨included, state, hFind, hPlaced.at, hCount.trans (countP_congr fun e _ => ?_)⟩
    simp [notBehind, belowLast, le_iff_lt_or_eq]
  | excluded key =>
    rcases findIterRight_spec key false hGood (within_none key) no_parents with
      ⟨included, state, hFind, hPlaced, hCount⟩
    refine ⟨included, state, hFind, hPlaced.at, hCount.trans (countP_congr fun e _ => ?_)⟩
    simp [notBehind, belowLast]
  | unbounded =>
    rcases findIterUnbounded_spec true hGood no_parents with ⟨state, hFind, hPlaced⟩
    refine ⟨true, state, ?_, hPlaced.at, ?_⟩
    · rw [BtreeRangeIter.findRight, hFind]
      rfl
    · have hAll : (entries n t).countP (fun e => belowLast Bound.unbounded e.1) =
            (entries n t).length := by
        rw [countP_eq_length]
        intro e _
        rfl
      have hLt := hPlaced.lt
      rw [hAll, ← length_slots]
      change (slots n t).length - 1 + 1 = _
      omega

/- The ends of a range that may have keys are in order. -/
theorem boundSlot_le
    {start last : Bound K} (hGood : Good n none none t) (hRange : rangeIsEmpty start last = false) :
    boundSlot false n t start ≤ boundSlot true n t last := by
  have hMono : ∀ {a b : K}, a ≤ b → locate a n t ≤ locate b n t :=
    fun hLe => (locate_mono hGood hLe).1
  have hLast : ∀ a : K, locate a n t ≤ extreme true n t := by
    intro a
    have hLt := (locate_mono hGood (le_refl a)).2
    change _ ≤ (slots n t).length - 1
    omega
  cases start with
  | unbounded => exact Nat.zero_le _
  | included a =>
    cases last with
    | unbounded => exact hLast a
    | included b =>
      apply hMono
      simpa [rangeIsEmpty, compare_gt_iff_gt] using hRange
    | excluded b =>
      apply hMono
      have hLt : a < b := by simpa [rangeIsEmpty, compare_lt_iff_lt] using hRange
      exact le_of_lt hLt
  | excluded a =>
    cases last with
    | unbounded => exact hLast a
    | included b | excluded b =>
      apply hMono
      have hLt : a < b := by simpa [rangeIsEmpty, compare_lt_iff_lt] using hRange
      exact le_of_lt hLt

end Range

-- Slots Of Distinct Pages

theorem page_mem {n : Nat} {t : Tree P K V n} {slot : Slot P K V} (hSlot : slot ∈ slots n t) :
    slot.page ∈ pageSet n t := by
  induction n with
  | zero =>
    rcases mem_map.mp hSlot with ⟨e, _, rfl⟩
    exact Multiset.mem_singleton_self _
  | succ n ih =>
    rcases mem_flatMap.mp hSlot with ⟨c, hc, hIn⟩
    rcases append_of_mem hc with ⟨ca, cb, hChildren⟩
    refine Multiset.mem_add.mpr (Or.inr ?_)
    rw [hChildren, childPages_append, childPages_cons]
    exact Multiset.mem_add.mpr (Or.inr (Multiset.mem_add.mpr (Or.inl (ih hIn))))

/- The entries of a leaf are numbered upwards. -/
theorem ordered_leafSlots (leaf : Leaf P K V) : Ordered (leafSlots leaf) := by
  refine pairwise_iff_getElem.mpr ?_
  intro i k hi hk hLt _
  have hEntry : ∀ (m : Nat) (hm : m < (leafSlots leaf).length),
      ((leafSlots leaf).get ⟨m, hm⟩).entry = m := by
    intro m hm
    simp [leafSlots]
  have hLeft := hEntry i hi
  have hRight := hEntry k hk
  simp only [get_eq_getElem] at hLeft hRight
  omega

theorem ordered_slots {n : Nat} {t : Tree P K V n} (hNodup : (pageSet n t).Nodup) :
    Ordered (slots n t) := by
  induction n with
  | zero => exact ordered_leafSlots t
  | succ n ih =>
    have hChildren : (childPages (pageSet n) (Branch.children t)).Nodup :=
      (Multiset.nodup_add.mp hNodup).2.1
    change Ordered (childSlots n (Branch.children t))
    -- children of distinct pages, one after the other
    generalize Branch.children t = children at hChildren
    induction children with
    | nil => exact List.Pairwise.nil
    | cons _ _ ihRest =>
      rw [childPages_cons] at hChildren
      rcases Multiset.nodup_add.mp hChildren with ⟨hFirst, hRest, hDisjoint⟩
      rw [childSlots, flatMap_cons]
      refine pairwise_append.mpr ⟨ih hFirst, ihRest hRest, ?_⟩
      intro x hx y hy hSame
      exfalso
      rcases mem_flatMap.mp hy with ⟨d, hd, hIn⟩
      rcases append_of_mem hd with ⟨ca, cb, rfl⟩
      have hPage : x.page ∈ childPages (pageSet n) (ca ++ d :: cb) := by
        rw [hSame, childPages_append, childPages_cons]
        exact Multiset.mem_add.mpr (Or.inr (Multiset.mem_add.mpr (Or.inl (page_mem hIn))))
      exact Multiset.disjoint_left.mp hDisjoint (page_mem hx) hPage

-- Whole Ranges

section Range

variable [LinearOrder K]

/- A search tree of distinct pages, or no tree. -/
structure RootGood (root : TreeRoot P K V) : Prop where
  good : ∀ r, root = some r → Good r.height none none r.tree
  distinct : ∀ r, root = some r → (pageSet r.height r.tree).Nodup

/- The entries of a well-formed tree are sorted. -/
theorem RootGood.sorted {root : TreeRoot P K V} (hRoot : RootGood root) :
    Sorted (rootEntries root) := by
  cases root with
  | none => exact List.Pairwise.nil
  | some r => exact (hRoot.good r rfl).leafGood.2.1

/- A new iterator has the entries of the range before it. -/
theorem new_spans (start last : Bound K) {root : TreeRoot P K V} (hRoot : RootGood root) :
    ∃ iter l rest, BtreeRangeIter.new start last root = .ok iter ∧ Ordered l ∧ Spans l iter rest ∧
        rest.map Slot.pair = (rootEntries root).filter fun e => inRange start last e.1 := by
  unfold BtreeRangeIter.new
  cases hRange : rangeIsEmpty start last with
  | true =>
    refine ⟨BtreeRangeIter.empty, [], [], rfl, List.Pairwise.nil, .spent, ?_⟩
    symm
    rw [map_nil, filter_eq_nil_iff]
    intro e _ hIn
    rw [inRange_of_rangeIsEmpty hRange] at hIn
    cases hIn
  | false =>
    cases root with
    | none => exact ⟨BtreeRangeIter.empty, [], [], rfl, List.Pairwise.nil, .spent, rfl⟩
    | some r =>
      have hGood := hRoot.good r rfl
      rcases findLeft_spec start hGood with ⟨includeLeft, left, hLeft, hAtLeft, hLower⟩
      rcases findRight_spec last hGood with ⟨includeRight, right, hRight, hAtRight, hUpper⟩
      refine ⟨⟨some left, some right, includeLeft, includeRight⟩, slots r.height r.tree, _, ?_,
        ordered_slots (hRoot.distinct r rfl), .ends left right _ _ includeLeft includeRight
          hAtLeft hAtRight (boundSlot_le hGood hRange), ?_⟩
      · simp only [Bool.false_eq_true, if_false, hLeft, hRight, ok_bind, pure_eq_ok]
      · rw [hLower, hUpper, between, map_drop, map_take, slots_pairs]
        exact (filter_inRange start last hGood.leafGood.2.1).symm

/-
  A range iterator over a well-formed tree yields the entries of the range, which are sorted, from
  both of their ends, and nothing more once they are used up.
-/
theorem range_yields_entries_in_range
    [DecidableEq P] (start last : Bound K) (root : TreeRoot P K V)
    (hRoot : RootGood root) :
    Sorted ((rootEntries root).filter fun e => inRange start last e.1) ∧
      ∃ iter, BtreeRangeIter.new start last root = .ok iter ∧ ∀ sides, ∃ iter',
          iter.takeAll sides = .ok (dequeue sides ((rootEntries root).filter
              fun e => inRange start last e.1), iter') := by
  refine ⟨hRoot.sorted.filter _, ?_⟩
  rcases new_spans start last hRoot with ⟨iter, l, rest, hNew, hOrdered, hSpans, hRest⟩
  refine ⟨iter, hNew, ?_⟩
  intro sides
  rw [← hRest]
  exact hSpans.takeAll sides hOrdered

end Range

/- Three entries in two leaves. -/
def twoLeaves : BtreeRoot Nat Nat Nat :=
  ⟨1, (⟨0, [(⟨1, [(1, 10), (2, 20)]⟩, deferred), (⟨2, [(3, 30)]⟩, deferred)], [2]⟩ :
      Branch Nat Nat (Leaf Nat Nat Nat)), deferred, 3⟩

theorem twoLeaves_good : RootGood (some twoLeaves) := by
  have hFirst : LeafGood none (some 2) [((1 : Nat), (10 : Nat)), (2, 20)] := by
    refine ⟨by simp, by simp [Sorted], ?_⟩
    intro e he
    simp only [mem_cons, not_mem_nil, or_false] at he
    rcases he with rfl | rfl
    · exact ⟨by simp, by simp⟩
    · exact ⟨by simp, by simp⟩
  have hSecond : LeafGood (some 2) none [((3 : Nat), (30 : Nat))] := by
    refine ⟨by simp, by simp [Sorted], ?_⟩
    intro e he
    cases mem_singleton.mp he
    exact ⟨by simp, by simp⟩
  refine ⟨?_, ?_⟩
  · rintro r ⟨⟩
    refine ⟨cons_ne_nil _ _, ?_⟩
    exact (Chain.cons_cons _ _ _ _ _ _).mpr ⟨hFirst, (Chain.nil_singleton _ _ _).mpr hSecond⟩
  · rintro r ⟨⟩
    decide

/- From the second key on, taken from both ends. -/
theorem range_yields_two_of_three :
    RootGood (some twoLeaves) ∧ ∃ iter, BtreeRangeIter.new (.included 2) .unbounded
          (some twoLeaves) = .ok iter ∧
        ∃ iter', iter.takeAll [.back, .front, .front] =
          .ok ([some (3, 30), some (2, 20), none], iter') := by
  rcases range_yields_entries_in_range (.included 2) .unbounded (some twoLeaves) twoLeaves_good with
    ⟨_, iter, hNew, hTake⟩
  exact ⟨twoLeaves_good, iter, hNew, hTake [.back, .front, .front]⟩

end Redbx
