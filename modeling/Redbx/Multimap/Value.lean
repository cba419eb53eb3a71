import Redbx.Btree.RangeSearch

/-
  The iterator over the values of a multimap key.

  The values of a key are stored as the keys of a small leaf inside the entry, or as the keys of a
  tree of their own. `MultimapValue` iterates over them from both ends and keeps the number of those
  that remain apart from its cursors.

  Key theorems include:
    * `Serves.takeAll`, `len_exact_iff_no_next_back`
-/

namespace Redbx

open Redbx.Tree List

-- Collections

/- The values of a key: an inlined leaf, or a tree's header. -/
inductive DynamicCollection (P V : Type) where
  | inline (pairs : List (V × Unit))
  | subtreeV2 (root : BtreeRoot P V Unit)

/- The pages of a tree, each above its children. -/
def treePageNumbers {P K V : Type} : (n : Nat) → Tree P K V n → List P
  | 0, leaf => [Leaf.page leaf]
  | n + 1, branch =>
    Branch.page branch :: (Branch.children branch).flatMap fun child => treePageNumbers n child.1

namespace DynamicCollection

variable {P V : Type}

/- `get_num_values`: the length stored with the tree. -/
def getNumValues : DynamicCollection P V → Nat
  | .inline pairs => pairs.length
  | .subtreeV2 root => root.length

/- The values that a collection stands for. -/
def values : DynamicCollection P V → List V
  | .inline pairs => pairs.map Prod.fst
  | .subtreeV2 root =>
    (entries root.height root.tree).map Prod.fst

/- The pages that `AllPageNumbersBtreeIter` returns: those of a subtree, each above its children. -/
def pageNumbers : DynamicCollection P V → List P
  | .inline _ => []
  | .subtreeV2 root => treePageNumbers root.height root.tree

/- The values are in order, and the length is theirs. -/
def WellFormed [LinearOrder V] : DynamicCollection P V → Prop
  | .inline pairs => Sorted pairs
  | .subtreeV2 root =>
    RootGood (some root) ∧ root.length = (entries root.height root.tree).length

end DynamicCollection

-- Iterators

/- The entries from the first to the last, both included. -/
structure LeafKeyIter (V : Type) where
  inlineCollection : List (V × Unit)
  startEntry : Int
  endEntry : Int

/- `usize::try_from` of an entry. -/
def toUsize (entry : Int) : Except Panic Nat := do
  require (decide (0 ≤ entry)) .unwrapped
  return entry.toNat

namespace LeafKeyIter

variable {V : Type}

def new (pairs : List (V × Unit)) : LeafKeyIter V := ⟨pairs, 0, (pairs.length : Int) - 1⟩

/- `next_key`. -/
def nextKey (iter : LeafKeyIter V) : Except Panic (Option V × LeafKeyIter V) :=
  if iter.endEntry < iter.startEntry then
    return (none, iter)
  else do
    let entry ← toUsize iter.startEntry
    return (iter.inlineCollection[entry]?.map Prod.fst,
      { iter with startEntry := iter.startEntry + 1 })

/- `next_key_back`. -/
def nextKeyBack (iter : LeafKeyIter V) : Except Panic (Option V × LeafKeyIter V) :=
  if iter.endEntry < iter.startEntry then
    return (none, iter)
  else do
    let entry ← toUsize iter.endEntry
    return (iter.inlineCollection[entry]?.map Prod.fst, { iter with endEntry := iter.endEntry - 1 })

end LeafKeyIter

inductive ValueIterState (P V : Type) where
  | subtree (iter : BtreeRangeIter P V Unit)
  | inlineLeaf (iter : LeafKeyIter V)

namespace ValueIterState

variable {P V : Type} [DecidableEq P]

/- The bytes that `next` gets from the inner iterator. -/
def next : ValueIterState P V → Except Panic (Option V × ValueIterState P V)
  | .subtree iter => do
    let (entry, iter) ← iter.next
    return (entry.map Prod.fst, .subtree iter)
  | .inlineLeaf iter => do
    let (key, iter) ← iter.nextKey
    return (key, .inlineLeaf iter)

/- The bytes that `next_back` gets. -/
def nextBack : ValueIterState P V → Except Panic (Option V × ValueIterState P V)
  | .subtree iter => do
    let (entry, iter) ← iter.nextBack
    return (entry.map Prod.fst, .subtree iter)
  | .inlineLeaf iter => do
    let (key, iter) ← iter.nextKeyBack
    return (key, .inlineLeaf iter)

end ValueIterState

structure MultimapValue (P V : Type) where
  inner : ValueIterState P V
  remaining : Nat

namespace MultimapValue

variable {P V : Type}

/- `len`. -/
def len (value : MultimapValue P V) : Nat := value.remaining

/-
  The iterator over the values of a key: `DynamicCollection:: iter` if the key has an entry, and no
  values otherwise.
-/
def iter [Ord V] : Option (DynamicCollection P V) → Except Panic (MultimapValue P V)
  | none => do
    let inner ← BtreeRangeIter.new .unbounded .unbounded none
    return ⟨.subtree inner, 0⟩
  | some (.inline pairs) =>
    return ⟨.inlineLeaf (LeafKeyIter.new pairs), DynamicCollection.getNumValues
        (.inline pairs : DynamicCollection P V)⟩
  | some (.subtreeV2 root) => do
    let inner ← BtreeRangeIter.new .unbounded .unbounded (some root)
    return ⟨.subtree inner, (DynamicCollection.subtreeV2 root).getNumValues⟩

variable [DecidableEq P]

/- `next`, which counts the values it returns. -/
def next (value : MultimapValue P V) : Except Panic (Option V × MultimapValue P V) := do
  let (bytes, inner) ← value.inner.next
  match bytes with
  | none => return (none, { value with inner := inner })
  | some bytes => do
    -- an underflow would be a panic in a debug build
    require (decide (0 < value.remaining)) .outOfRange
    return (some bytes, ⟨inner, value.remaining - 1⟩)

/- `next_back`. -/
def nextBack (value : MultimapValue P V) : Except Panic (Option V × MultimapValue P V) := do
  let (bytes, inner) ← value.inner.nextBack
  return (bytes, { value with inner := inner })

/- A call on one side. -/
def take (value : MultimapValue P V) : Side → Except Panic (Option V × MultimapValue P V)
  | .front => value.next
  | .back => value.nextBack

/- Any calls, with what they return. -/
def takeAll : List Side → MultimapValue P V → Except Panic (List (Option V) × MultimapValue P V)
  | [], value => return ([], value)
  | side :: sides, value => do
    let (first, value) ← value.take side
    let (rest, value) ← takeAll sides value
    return (first :: rest, value)

/- The calls of `next` up to the first that returns no value; the fuel bounds their number. -/
def drain : Nat → MultimapValue P V → Except Panic (List V)
  | 0, _ => .error .assertion
  | fuel + 1, value => do
    let (first, value) ← value.next
    match first with
    | none => return []
    | some first =>
      let rest ← drain fuel value
      return first :: rest

/- The iterator returns `count` more values, and then none. -/
inductive WillYield : MultimapValue P V → Nat → Prop where
  | done (value after : MultimapValue P V) (hNext : value.next = .ok (none, after)) :
      WillYield value 0
  | more (value after : MultimapValue P V) (first : V) (count : Nat)
      (hNext : value.next = .ok (some first, after)) (hRest : WillYield after count) :
      WillYield value (count + 1)

end MultimapValue

-- The Values An Iterator Has Left

variable {P V : Type}

/- The entries between the ends of a leaf iterator. -/
structure LeafKeyIter.Leaves (iter : LeafKeyIter V) (lo hi : Nat) : Prop where
  start_eq : iter.startEntry = lo
  end_eq : iter.endEntry = (hi : Int) - 1
  le : lo ≤ hi
  bound : hi ≤ iter.inlineCollection.length

/- The values that an inner iterator has left. -/
inductive ValueIterState.Has : ValueIterState P V → List V → Prop where
  | subtree (l rest : List (Slot P V Unit)) (iter : BtreeRangeIter P V Unit) (hOrdered : Ordered l)
      (hSpans : Spans l iter rest) :
      Has (.subtree iter) ((rest.map Slot.pair).map Prod.fst)
  | inlineLeaf (iter : LeafKeyIter V) (lo hi : Nat) (hLeaves : iter.Leaves lo hi) :
      Has (.inlineLeaf iter) (between (iter.inlineCollection.map Prod.fst) lo hi)

/- The values left, and the number that is kept for them. -/
structure Serves (value : MultimapValue P V) (rest : List V) (count : Nat) : Prop where
  has : value.inner.Has rest
  remaining_eq : value.remaining = count

theorem toUsize_natCast (entry : Nat) : toUsize (entry : Int) = .ok entry := by
  have hCheck : require (decide (0 ≤ (entry : Int))) .unwrapped = .ok () :=
    require_eq_ok.mpr (decide_eq_true (Int.natCast_nonneg _))
  rw [toUsize, hCheck]
  rfl

/- `next_key` takes the first of the entries. -/
theorem LeafKeyIter.Leaves.nextKey
    {iter : LeafKeyIter V} {lo hi : Nat} (hLeaves : iter.Leaves lo hi) :
    ∃ after lo' hi', iter.nextKey = .ok ((between (iter.inlineCollection.map Prod.fst)
          lo hi).head?, after) ∧
      after.Leaves lo' hi' ∧
      between (after.inlineCollection.map Prod.fst) lo' hi' =
        (between (iter.inlineCollection.map Prod.fst) lo hi).tail := by
  rcases iter with ⟨pairs, _, _⟩
  rcases hLeaves with ⟨rfl, rfl, hLe, hBound⟩
  change hi ≤ pairs.length at hBound
  rcases Nat.lt_or_eq_of_le hLe with hLess | rfl
  · rcases between_front (l := pairs.map Prod.fst) hLess with ⟨hHead, hTail⟩
    refine ⟨⟨pairs, (lo : Int) + 1, (hi : Int) - 1⟩,
      lo + 1, hi, ?_, ⟨rfl, rfl, hLess, hBound⟩, hTail.symm⟩
    rw [LeafKeyIter.nextKey, if_neg (by
      change ¬ (hi : Int) - 1 < lo
      omega), hHead, getElem?_map]
    change (toUsize (lo : Int) >>= _) = _
    rw [toUsize_natCast]
    rfl
  · rw [between_nil (Nat.le_refl lo)]
    refine ⟨⟨pairs, lo, (lo : Int) - 1⟩, lo, lo, ?_, ⟨rfl, rfl, Nat.le_refl lo, hBound⟩,
      between_nil (Nat.le_refl lo)⟩
    rw [LeafKeyIter.nextKey, if_pos (by
      change (lo : Int) - 1 < lo
      omega)]
    rfl

/- `next_key_back` takes the last of the entries. -/
theorem LeafKeyIter.Leaves.nextKeyBack
    {iter : LeafKeyIter V} {lo hi : Nat} (hLeaves : iter.Leaves lo hi) :
    ∃ after lo' hi', iter.nextKeyBack = .ok ((between (iter.inlineCollection.map Prod.fst)
          lo hi).getLast?, after) ∧
      after.Leaves lo' hi' ∧
      between (after.inlineCollection.map Prod.fst) lo' hi' =
        (between (iter.inlineCollection.map Prod.fst) lo hi).dropLast := by
  rcases iter with ⟨pairs, _, _⟩
  rcases hLeaves with ⟨rfl, rfl, hLe, hBound⟩
  change hi ≤ pairs.length at hBound
  rcases Nat.lt_or_eq_of_le hLe with hLess | rfl
  · obtain ⟨m, rfl⟩ : ∃ m, hi = m + 1 :=
      ⟨hi - 1, by omega⟩
    obtain ⟨hLast, hInit⟩ :=
      between_back (l := pairs.map Prod.fst) hLess (by
        rw [length_map]
        omega)
    have hEntry : ((m + 1 : Nat) : Int) - 1 = (m : Int) := by omega
    refine ⟨⟨pairs, lo, (m : Int) - 1⟩, lo, m, ?_, ⟨rfl, rfl, by omega, by
        change m ≤ pairs.length
        omega⟩, hInit.symm⟩
    rw [LeafKeyIter.nextKeyBack, if_neg (by
      change ¬ ((m + 1 : Nat) : Int) - 1 < lo
      omega), hLast, getElem?_map]
    change (toUsize (((m + 1 : Nat) : Int) - 1) >>= _) = _
    rw [hEntry, toUsize_natCast]
    rfl
  · rw [between_nil (Nat.le_refl lo)]
    refine ⟨⟨pairs, lo, (lo : Int) - 1⟩, lo, lo, ?_, ⟨rfl, rfl, Nat.le_refl lo, hBound⟩,
      between_nil (Nat.le_refl lo)⟩
    rw [LeafKeyIter.nextKeyBack, if_pos (by
      change (lo : Int) - 1 < lo
      omega)]
    rfl

variable [DecidableEq P]

namespace ValueIterState

theorem Has.next {state : ValueIterState P V} {rest : List V} (hHas : state.Has rest) :
    ∃ after, state.next = .ok (rest.head?, after) ∧ after.Has rest.tail := by
  cases hHas with
  | subtree l _ _ hOrdered hSpans =>
    rcases hSpans.next hOrdered with ⟨after, hNext, hAfter⟩
    refine ⟨.subtree after, ?_, ?_⟩
    · simp only [ValueIterState.next, hNext, ok_bind, pure_eq_ok, head?_map]
    · rw [← map_tail, ← map_tail]
      exact .subtree l _ after hOrdered hAfter
  | inlineLeaf _ _ _ hLeaves =>
    rcases hLeaves.nextKey with ⟨after, lo', hi', hNext, hAfter, hTail⟩
    refine ⟨.inlineLeaf after, ?_, ?_⟩
    · simp only [ValueIterState.next, hNext, ok_bind, pure_eq_ok]
    · rw [← hTail]
      exact .inlineLeaf after lo' hi' hAfter

theorem Has.nextBack {state : ValueIterState P V} {rest : List V} (hHas : state.Has rest) :
    ∃ after, state.nextBack = .ok (rest.getLast?, after) ∧ after.Has rest.dropLast := by
  cases hHas with
  | subtree l _ _ hOrdered hSpans =>
    rcases hSpans.nextBack hOrdered with ⟨after, hNext, hAfter⟩
    refine ⟨.subtree after, ?_, ?_⟩
    · simp only [ValueIterState.nextBack, hNext, ok_bind, pure_eq_ok, getLast?_map]
    · rw [← map_dropLast, ← map_dropLast]
      exact .subtree l _ after hOrdered hAfter
  | inlineLeaf _ _ _ hLeaves =>
    rcases hLeaves.nextKeyBack with ⟨after, lo', hi', hNext, hAfter, hInit⟩
    refine ⟨.inlineLeaf after, ?_, ?_⟩
    · simp only [ValueIterState.nextBack, hNext, ok_bind, pure_eq_ok]
    · rw [← hInit]
      exact .inlineLeaf after lo' hi' hAfter

end ValueIterState

variable {value : MultimapValue P V} {rest : List V} {count : Nat}

/- `next` takes the first value and counts it. -/
theorem Serves.next (hServes : Serves value rest count) (hEnough : rest.length ≤ count) :
    ∃ after, value.next = .ok (rest.head?, after) ∧ Serves after rest.tail
        (if rest.length = 0 then count else count - 1) := by
  rcases value with ⟨inner, remaining⟩
  rcases hServes with ⟨hHas, hCount⟩
  change remaining = count at hCount
  subst hCount
  rcases hHas.next with ⟨after, hNext, hAfter⟩
  change inner.next = _ at hNext
  cases rest with
  | nil =>
    refine ⟨⟨after, remaining⟩, ?_, ⟨hAfter, rfl⟩⟩
    rw [MultimapValue.next, hNext]
    rfl
  | cons =>
    have hCheck : require (decide (0 < remaining)) .outOfRange = .ok () :=
      require_eq_ok.mpr (decide_eq_true (Nat.lt_of_lt_of_le (Nat.succ_pos _) hEnough))
    refine ⟨⟨after, remaining - 1⟩, ?_, ⟨hAfter, rfl⟩⟩
    rw [MultimapValue.next, hNext]
    change (require (decide (0 < remaining)) _ >>= _) = _
    rw [hCheck]
    rfl

/- `next_back` takes the last value and does not count it. -/
theorem Serves.nextBack (hServes : Serves value rest count) :
    ∃ after, value.nextBack = .ok (rest.getLast?, after) ∧ Serves after rest.dropLast count := by
  rcases hServes.has.nextBack with ⟨after, hNext, hAfter⟩
  refine ⟨⟨after, value.remaining⟩, ?_, ⟨hAfter, hServes.remaining_eq⟩⟩
  rw [MultimapValue.nextBack, hNext]
  rfl

/- All values that are left are returned. -/
theorem Serves.drain
    (hServes : Serves value rest count)
    (hEnough : rest.length ≤ count)
    {fuel : Nat}
    (hFuel : rest.length < fuel) :
    value.drain fuel = .ok rest := by
  induction rest generalizing value count fuel with
  | nil =>
    rcases fuel with _ | fuel
    · cases hFuel
    rcases hServes.next hEnough with ⟨after, hNext, _⟩
    simp only [MultimapValue.drain, hNext, ok_bind]
    rfl
  | cons first rest ih =>
    rcases fuel with _ | fuel
    · cases hFuel
    rcases hServes.next hEnough with ⟨after, hNext, hAfter⟩
    rw [length_cons] at hAfter hEnough hFuel
    rw [if_neg (Nat.succ_ne_zero _)] at hAfter
    have hRest := ih hAfter (by omega) (Nat.lt_of_succ_lt_succ hFuel)
    simp only [MultimapValue.drain, hNext, head?_cons, ok_bind, hRest]
    rfl

/- The iterator yields as many values as it has left. -/
theorem Serves.willYield (hServes : Serves value rest count) (hEnough : rest.length ≤ count) :
    value.WillYield rest.length := by
  induction rest generalizing value count with
  | nil =>
    rcases hServes.next hEnough with ⟨after, hNext, _⟩
    exact .done value after hNext
  | cons first rest ih =>
    rcases hServes.next hEnough with ⟨after, hNext, hAfter⟩
    rw [length_cons] at hAfter hEnough
    rw [if_neg (Nat.succ_ne_zero _)] at hAfter
    exact .more value after first rest.length hNext (ih hAfter (by omega))

/- How many of the calls are `next`. -/
def fronts (sides : List Side) : Nat :=
  sides.countP fun
    | .front => true
    | .back => false

theorem fronts_cons (sides : List Side) : fronts (Side.front :: sides) = fronts sides + 1 :=
  countP_cons_of_pos rfl

/-
  After any calls the values in the middle are left, and the calls of `next` that returned a value
  are counted.
-/
theorem Serves.takeAll
    (sides : List Side) (hServes : Serves value rest count) (hEnough : rest.length ≤ count) :
    ∃ after rest', value.takeAll sides = .ok (dequeue sides rest, after) ∧
      rest'.length = rest.length - sides.length ∧
      Serves after rest' (count - fronts (sides.take rest.length)) := by
  induction sides generalizing value rest count with
  | nil =>
    refine ⟨value, rest, rfl, rfl, ?_⟩
    rw [take_nil]
    exact hServes
  | cons side _ ih =>
    cases side with
    | front =>
      rcases hServes.next hEnough with ⟨next, hNext, hServes'⟩
      have hEnough' : rest.tail.length ≤ if rest.length = 0 then count else count - 1 := by
        rw [length_tail]
        split
        · omega
        · omega
      rcases ih hServes' hEnough' with ⟨after, rest', hRun, hLength, hAfter⟩
      refine ⟨after, rest', ?_, ?_, ?_⟩
      · simp only [MultimapValue.takeAll, MultimapValue.take, hNext, ok_bind, hRun,
          pure_eq_ok, dequeue]
      · rw [hLength, length_tail, length_cons]
        omega
      · cases rest with
        | nil => exact hAfter
        | cons =>
          rw [length_cons, if_neg (Nat.succ_ne_zero _), Nat.sub_sub, Nat.add_comm 1] at hAfter
          rw [length_cons, take_succ_cons, fronts_cons]
          exact hAfter
    | back =>
      rcases hServes.nextBack with ⟨next, hNext, hServes'⟩
      have hEnough' : rest.dropLast.length ≤ count := by
        rw [length_dropLast]
        omega
      rcases ih hServes' hEnough' with ⟨after, rest', hRun, hLength, hAfter⟩
      refine ⟨after, rest', ?_, ?_, ?_⟩
      · simp only [MultimapValue.takeAll, MultimapValue.take, hNext, ok_bind, hRun,
          pure_eq_ok, dequeue]
      · rw [hLength, length_dropLast, length_cons]
        omega
      · rw [length_dropLast] at hAfter
        cases rest with
        | nil => exact hAfter
        | cons => exact hAfter

-- Lengths

variable [LinearOrder V]

/- The values of a key, none if it has no entry. -/
def valuesOf (collection : Option (DynamicCollection P V)) : List V :=
  collection.elim [] DynamicCollection.values

omit [DecidableEq P] in
/- A new iterator has all values left, and counts them. -/
theorem iter_serves {collection : Option (DynamicCollection P V)}
    (hWell : ∀ c, collection = some c → c.WellFormed) :
    ∃ value, MultimapValue.iter collection = .ok value ∧
      Serves value (valuesOf collection) (valuesOf collection).length := by
  have hAll : ∀ es : List (V × Unit), es.filter (fun e => inRange Bound.unbounded
        Bound.unbounded e.1) = es := by
    intro es
    rw [filter_eq_self]
    intro e _
    rfl
  cases collection with
  | none =>
    refine ⟨⟨.subtree BtreeRangeIter.empty, 0⟩, rfl, ?_, rfl⟩
    exact .subtree [] [] _ List.Pairwise.nil .spent
  | some c =>
    cases c with
    | inline pairs =>
      refine ⟨_, rfl, ?_, ?_⟩
      · have hHas := ValueIterState.Has.inlineLeaf (P := P) (LeafKeyIter.new pairs) 0 pairs.length
          ⟨rfl, rfl, Nat.zero_le _, Nat.le_refl _⟩
        have hWhole : between (pairs.map Prod.fst) 0 pairs.length = pairs.map Prod.fst := by
          rw [between, drop_zero, take_of_length_le]
          rw [length_map]
        change ValueIterState.Has _ (between (pairs.map Prod.fst) 0 _) at hHas
        rw [hWhole] at hHas
        exact hHas
      · change pairs.length = (pairs.map Prod.fst).length
        rw [length_map]
    | subtreeV2 root =>
      rcases hWell _ rfl with ⟨hGood, hLength⟩
      rcases new_spans .unbounded .unbounded hGood with
        ⟨inner, l, rest, hNew, hOrdered, hSpans, hRest⟩
      rw [hAll] at hRest
      refine ⟨⟨.subtree inner, root.length⟩, ?_, ?_, ?_⟩
      · simp only [MultimapValue.iter, hNew, ok_bind, pure_eq_ok, DynamicCollection.getNumValues]
      · have hHas := ValueIterState.Has.subtree l rest inner hOrdered hSpans
        rw [hRest] at hHas
        exact hHas
      · change root.length = ((entries _ _).map _).length
        rw [hLength, length_map]

/- All calls are `next` when there is no `next_back`. -/
theorem fronts_eq_length_iff (sides : List Side) :
    fronts sides = sides.length ↔ Side.back ∉ sides := by
  rw [fronts, countP_eq_length]
  refine ⟨?_, ?_⟩
  · intro hAll hBack
    exact absurd (hAll _ hBack) Bool.false_ne_true
  · intro hBack side hSide
    cases side with
    | front => rfl
    | back => exact absurd hSide hBack

/-
  After any calls on the iterator over the values of a key, `len` is the number of values it still
  yields exactly when `next_back` is not among the calls that returned a value, which are the first
  calls, one for each value.
-/
theorem len_exact_iff_no_next_back
    (collection : Option (DynamicCollection P V)) (hWell : ∀ c, collection = some c → c.WellFormed)
    (sides : List Side) :
    ∃ value results after count, MultimapValue.iter collection = .ok value ∧
        value.takeAll sides = .ok (results, after) ∧
        after.WillYield count ∧
        (after.len = count ↔ Side.back ∉ sides.take (valuesOf collection).length) := by
  rcases iter_serves hWell with ⟨value, hIter, hServes⟩
  rcases hServes.takeAll sides (Nat.le_refl _) with ⟨after, rest', hRun, hLength, hAfter⟩
  have hTake : (sides.take (valuesOf collection).length).length =
        min (valuesOf collection).length sides.length :=
    length_take
  have hFronts : fronts (sides.take (valuesOf collection).length) ≤
        (sides.take (valuesOf collection).length).length :=
    countP_le_length
  refine ⟨value, _, after, rest'.length, hIter, hRun, hAfter.willYield (by omega), ?_⟩
  rw [← fronts_eq_length_iff]
  change after.remaining = _ ↔ _
  rw [hAfter.remaining_eq]
  omega

/- Two values, stored inline. -/
def twoValues : DynamicCollection Nat Nat := .inline [(1, ()), (2, ())]

theorem twoValues_wellFormed : twoValues.WellFormed := by
  change Sorted [(1, ()), (2, ())]
  simp [Sorted]

/- One call of `next`, which is counted. -/
theorem len_exact_after_next : twoValues.WellFormed ∧ ∃ value results after count,
        MultimapValue.iter (some twoValues) = .ok value ∧
          value.takeAll [.front] = .ok (results, after) ∧
          after.WillYield count ∧ after.len = count := by
  obtain ⟨value, results, after, count, hIter, hRun, hYield, hIff⟩ :=
    len_exact_iff_no_next_back (some twoValues)
      (by rintro c ⟨⟩; exact twoValues_wellFormed) [.front]
  refine ⟨twoValues_wellFormed, value, results, after, count, hIter, hRun, hYield, hIff.mpr ?_⟩
  change Side.back ∉ [Side.front]
  simp

/- One call of `next_back`: one value is left, `len` is two. -/
theorem len_wrong_after_next_back :
    twoValues.WellFormed ∧ ∃ value after, MultimapValue.iter (some twoValues) = .ok value ∧
          value.takeAll [.back] = .ok ([some 2], after) ∧
          after.WillYield 1 ∧ after.len = 2 := by
  refine ⟨twoValues_wellFormed, ⟨.inlineLeaf ⟨[(1, ()), (2, ())], 0, 1⟩, 2⟩,
    ⟨.inlineLeaf ⟨[(1, ()), (2, ())], 0, 0⟩, 2⟩, rfl, rfl, ?_, rfl⟩
  exact .more _ ⟨.inlineLeaf ⟨[(1, ()), (2, ())], 1, 0⟩, 1⟩ 1 0 rfl (.done _ _ rfl)

end Redbx
