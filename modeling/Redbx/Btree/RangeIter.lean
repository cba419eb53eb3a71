import Redbx.Btree.BtreeMut
import Redbx.Btree.Contents

/-
  The range iterator of a B-tree.

  A cursor is a leaf entry with the stack of branches above it, each with the child to go to next.
  `BtreeRangeIter` has one cursor at each end and moves them towards each other; `next` and
  `next_back` are one definition here, with the direction as a parameter.

  A cursor stands for the slots it will still go through: its `pending` slots, in the direction it
  moves in.

  Key theorems include:
    * `RangeIterState.next_spec`, `Cursors.loop_move`
-/

namespace Redbx

open Redbx.Tree List Option

-- Cursors

/- An `Internal` state: a branch and the child to go to. -/
structure Frame (P K V : Type) where
  height : Nat
  branch : Branch P K (Tree P K V height)
  child : Nat

/- A state with the states above it, which are all `Internal`. -/
inductive RangeIterState (P K V : Type) where
  | leaf (leaf : Leaf P K V) (entry : Nat) (parents : List (Frame P K V))
  | internal (frame : Frame P K V) (parents : List (Frame P K V))

variable {P K V : Type}

/- The index next to `i` among `count`, if there is one. -/
def neighbour (reverse : Bool) (i count : Nat) : Option Nat :=
  if reverse then
    if 0 < i ∧ i - 1 < count then some (i - 1) else none
  else
    if i + 1 < count then some (i + 1) else none

/- The index a node is entered at; no node is empty. -/
def edge (reverse : Bool) (count : Nat) : Nat :=
  if reverse then count - 1 else 0

namespace RangeIterState

/- The state at the top of a stack. -/
def ofParents : List (Frame P K V) → Option (RangeIterState P K V)
  | [] => none
  | frame :: parents => some (.internal frame parents)

/- A node that is gone into from above. -/
def enter (reverse : Bool) : (n : Nat) → Tree P K V n → List (Frame P K V) → RangeIterState P K V
  | 0, node, parents =>
    .leaf node (edge reverse (Leaf.pairs node).length) parents
  | n + 1, branch, parents =>
    .internal ⟨n, branch, edge reverse (Branch.children branch).length⟩ parents

/- The stack above a child once the child has been taken. -/
def afterChild (reverse : Bool) (frame : Frame P K V) (parents : List (Frame P K V)) :
    List (Frame P K V) :=
  match neighbour reverse frame.child
      frame.branch.children.length with
  | some child => { frame with child := child } :: parents
  | none => parents

/- `RangeIterState::next`. -/
def next (reverse : Bool) : RangeIterState P K V → Except Panic (Option (RangeIterState P K V))
  | .leaf node entry parents =>
    match neighbour reverse entry node.pairs.length with
    | some entry => return some (.leaf node entry parents)
    | none => return ofParents parents
  | .internal frame parents => do
    let child ← unwrap frame.branch.children[frame.child]?
    return some (enter reverse frame.height child.1 (afterChild reverse frame parents))

def getEntry : RangeIterState P K V → Option (K × V)
  | .leaf node entry _ => node.pairs[entry]?
  | .internal _ _ => none

end RangeIterState

/- `find_iter_unbounded`. -/
def findIterUnbounded (reverse : Bool) :
    (n : Nat) → Tree P K V n → List (Frame P K V) → Except Panic (RangeIterState P K V)
  | 0, leaf, parents =>
    return .leaf leaf (edge reverse (Leaf.pairs leaf).length) parents
  | n + 1, branch, parents => do
    let index := edge reverse (Branch.children branch).length
    let child ← unwrap (Branch.children branch)[index]?
    if reverse then
      -- the index below is converted back to `usize`
      require (0 < index) .outOfRange
      findIterUnbounded reverse n child.1 (⟨n, branch, index - 1⟩ :: parents)
    else
      findIterUnbounded reverse n child.1 (⟨n, branch, index + 1⟩ :: parents)

/- The entry of a query, or the last one before it. -/
def backUp (position count : Nat) : Nat :=
  if position < count then position else position - 1

/- `find_iter_left`: the flag says that the entry itself is in the range. -/
def findIterLeft [Ord K] (query : K) (includeQuery : Bool) :
    (n : Nat) → Tree P K V n → List (Frame P K V) → Except Panic (Bool × RangeIterState P K V)
  | 0, leaf, parents =>
    let (position, found) := Leaf.position leaf query
    let count := (Leaf.pairs leaf).length
    return (decide (position < count) && (includeQuery || !found),
      .leaf leaf (backUp position count) parents)
  | n + 1, branch, parents => do
    let index := Branch.childForKey branch query
    let child ← unwrap (Branch.children branch)[index]?
    if index < (Branch.children branch).length - 1 then
      findIterLeft query includeQuery n child.1 (⟨n, branch, index + 1⟩ :: parents)
    else
      findIterLeft query includeQuery n child.1 parents

/- `find_iter_right`. -/
def findIterRight [Ord K] (query : K) (includeQuery : Bool) :
    (n : Nat) → Tree P K V n → List (Frame P K V) → Except Panic (Bool × RangeIterState P K V)
  | 0, leaf, parents =>
    let (position, found) := Leaf.position leaf query
    let count := (Leaf.pairs leaf).length
    return (!decide (position < count) || (includeQuery && found),
      .leaf leaf (backUp position count) parents)
  | n + 1, branch, parents => do
    let index := Branch.childForKey branch query
    let child ← unwrap (Branch.children branch)[index]?
    if 0 < index then
      findIterRight query includeQuery n child.1 (⟨n, branch, index - 1⟩ :: parents)
    else
      findIterRight query includeQuery n child.1 parents

-- The Iterator

/- `std::ops::Bound`. -/
inductive Bound (K : Type) where
  | included (key : K)
  | excluded (key : K)
  | unbounded

/-
  The two ends of a range. An end that is not included was returned before, or lies outside the
  range.
-/
structure BtreeRangeIter (P K V : Type) where
  left : Option (RangeIterState P K V)
  right : Option (RangeIterState P K V)
  includeLeft : Bool
  includeRight : Bool

/- `range_is_empty`. -/
def rangeIsEmpty [Ord K] : Bound K → Bound K → Bool
  | .unbounded, _ => false
  | _, .unbounded => false
  | .included start, .included last =>
    compare start last == .gt
  | .included start, .excluded last =>
    compare start last != .lt
  | .excluded start, .included last =>
    compare start last != .lt
  | .excluded start, .excluded last =>
    compare start last != .lt

namespace BtreeRangeIter

/- No entry. -/
def empty : BtreeRangeIter P K V := ⟨none, none, false, false⟩

/- Where the left end starts. -/
def findLeft [Ord K] (n : Nat) (tree : Tree P K V n) :
    Bound K → Except Panic (Bool × RangeIterState P K V)
  | .included key => findIterLeft key true n tree []
  | .excluded key => findIterLeft key false n tree []
  | .unbounded => do
    let state ← findIterUnbounded false n tree []
    return (true, state)

/- Where the right end starts. -/
def findRight [Ord K] (n : Nat) (tree : Tree P K V n) :
    Bound K → Except Panic (Bool × RangeIterState P K V)
  | .included key => findIterRight key true n tree []
  | .excluded key => findIterRight key false n tree []
  | .unbounded => do
    let state ← findIterUnbounded true n tree []
    return (true, state)

/- `BtreeRangeIter::new`. -/
def new [Ord K] (start last : Bound K) (root : TreeRoot P K V) :
    Except Panic (BtreeRangeIter P K V) :=
  if rangeIsEmpty start last then
    return empty
  else
    match root with
    | none => return empty
    | some r => do
      let (includeLeft, left) ← findLeft r.height r.tree start
      let (includeRight, right) ← findRight r.height r.tree last
      return ⟨some left, some right, includeLeft, includeRight⟩

end BtreeRangeIter

/-
  The two ends with the one that moves first: the left end for `next` and the right end for
  `next_back`.
-/
structure Cursors (P K V : Type) where
  moving : Option (RangeIterState P K V)
  other : Option (RangeIterState P K V)
  includeMoving : Bool
  includeOther : Bool

/-
  Both ends stand in one leaf, the left one behind the right one, or at the same entry if that
  counts.
-/
def met [DecidableEq P] (left right : Option (RangeIterState P K V)) (atSame : Bool) : Bool :=
  match left, right with
  | some (.leaf leftLeaf leftEntry _), some (.leaf rightLeaf rightEntry _) =>
    decide (leftLeaf.page = rightLeaf.page) && (decide (rightEntry < leftEntry) ||
        (decide (leftEntry = rightEntry) && atSame))
  | _, _ => false

namespace Cursors

/- The ends in the order of the range. -/
def met [DecidableEq P] (reverse : Bool) (cursors : Cursors P K V) (atSame : Bool) : Bool :=
  if reverse then
    Redbx.met cursors.other cursors.moving atSame
  else
    Redbx.met cursors.moving cursors.other atSame

/- The loop of `next`, which goes down to the next leaf. -/
def loop [DecidableEq P] (reverse : Bool) :
    Nat → Cursors P K V → Except Panic (Option (K × V) × Cursors P K V)
  | 0, _ => throw .assertion
  | fuel + 1, cursors => do
    let moving ← if cursors.includeMoving then
        pure cursors.moving
      else
        match cursors.moving with
        | none => pure none
        | some state => state.next reverse
    let cursors := { cursors with moving := moving }
    match moving with
    | none => return (none, cursors)
    | some state =>
      if cursors.met reverse !cursors.includeOther then
        return (none, cursors)
      else
        let cursors := { cursors with includeMoving := false }
        match state.getEntry with
        | some entry => return (some entry, cursors)
        | none => loop reverse fuel cursors

/- The turns of the loop until it is at a leaf again. -/
def steps : Option (RangeIterState P K V) → Nat
  | none => 1
  | some (.leaf _ _ []) => 1
  | some (.leaf _ _ (frame :: _)) => frame.height + 2
  | some (.internal frame _) => frame.height + 1

/- `next` of the end that moves. -/
def advance [DecidableEq P] (reverse : Bool) (cursors : Cursors P K V) :
    Except Panic (Option (K × V) × Cursors P K V) :=
  if cursors.met reverse
      (!cursors.includeMoving || !cursors.includeOther) then
    return (none, cursors)
  else
    cursors.loop reverse (steps cursors.moving)

end Cursors

namespace BtreeRangeIter

variable [DecidableEq P]

/- `next`. -/
def next (iter : BtreeRangeIter P K V) : Except Panic (Option (K × V) × BtreeRangeIter P K V) := do
  let (entry, cursors) ← Cursors.advance false ⟨iter.left, iter.right, iter.includeLeft,
      iter.includeRight⟩
  return (entry, ⟨cursors.moving, cursors.other, cursors.includeMoving, cursors.includeOther⟩)

/- `next_back`. -/
def nextBack (iter : BtreeRangeIter P K V) :
    Except Panic (Option (K × V) × BtreeRangeIter P K V) := do
  let (entry, cursors) ← Cursors.advance true ⟨iter.right, iter.left, iter.includeRight,
      iter.includeLeft⟩
  return (entry, ⟨cursors.other, cursors.moving, cursors.includeOther, cursors.includeMoving⟩)

/- A call on one side. -/
def take (iter : BtreeRangeIter P K V) : Side → Except Panic (Option (K × V) × BtreeRangeIter P K V)
  | .front => iter.next
  | .back => iter.nextBack

/- Any calls, with what they return. -/
def takeAll :
    List Side → BtreeRangeIter P K V → Except Panic (List (Option (K × V)) × BtreeRangeIter P K V)
  | [], iter => return ([], iter)
  | side :: sides, iter => do
    let (entry, iter) ← iter.take side
    let (entries, iter) ← takeAll sides iter
    return (entry :: entries, iter)

end BtreeRangeIter

-- Slots

/- An entry and where it stands. -/
structure Slot (P K V : Type) where
  page : P
  entry : Nat
  pair : K × V

/- The slots of a leaf. -/
def leafSlots (leaf : Leaf P K V) : List (Slot P K V) :=
  leaf.pairs.zipIdx.map fun e => ⟨leaf.page, e.2, e.1⟩

/- The slots of a tree, from left to right. -/
def slots : (n : Nat) → Tree P K V n → List (Slot P K V)
  | 0, leaf => leafSlots leaf
  | n + 1, branch =>
    (Branch.children branch).flatMap fun c => slots n c.1

/- A list in the direction of a cursor. -/
def orient {α : Type} (reverse : Bool) (l : List α) : List α :=
  if reverse then l.reverse else l

/- The elements from `i` on, in the direction. -/
def onward {α : Type} (reverse : Bool) (i : Nat) (l : List α) : List α :=
  if reverse then (l.take (i + 1)).reverse else l.drop i

/- The elements behind `i`, in the direction. -/
def beyond {α : Type} (reverse : Bool) (i : Nat) (l : List α) : List α :=
  if reverse then (l.take i).reverse else l.drop (i + 1)

theorem length_leafSlots (leaf : Leaf P K V) : (leafSlots leaf).length = leaf.pairs.length := by
  simp [leafSlots]

theorem getElem?_leafSlots (leaf : Leaf P K V) (i : Nat) :
    (leafSlots leaf)[i]? = leaf.pairs[i]?.map fun pair => ⟨leaf.page, i, pair⟩ := by
  simp only [leafSlots, getElem?_map, getElem?_zipIdx, Option.map_map, Nat.zero_add]
  rfl

theorem slots_pairs (n : Nat) (tree : Tree P K V n) :
    (slots n tree).map Slot.pair = entries n tree := by
  induction n with
  | zero =>
    change (leafSlots tree).map Slot.pair = Leaf.pairs tree
    apply ext_getElem?
    intro i
    rw [getElem?_map, getElem?_leafSlots, Option.map_map]
    cases (Leaf.pairs tree)[i]? with
    | none => rfl
    | some pair => rfl
  | succ n ih =>
    change ((Branch.children tree).flatMap fun c => slots n c.1).map Slot.pair = _
    rw [map_flatMap]
    exact flatMap_congr fun c _ => ih c.1

section Directions

variable {α : Type} {reverse : Bool} {i : Nat} {l : List α}

theorem onward_edge (reverse : Bool) (l : List α) :
    onward reverse (edge reverse l.length) l = orient reverse l := by
  cases reverse with
  | false => rfl
  | true =>
    simp only [onward, edge, orient, if_true]
    rw [take_of_length_le (by omega)]

theorem onward_eq (reverse : Bool) {x : α} (hGet : l[i]? = some x) :
    onward reverse i l = x :: beyond reverse i l := by
  rcases List.getElem?_eq_some_iff.mp hGet with ⟨hLt, hElem⟩
  cases reverse with
  | false =>
    simp only [onward, beyond, Bool.false_eq_true, if_false]
    rw [drop_eq_getElem_cons hLt, hElem]
  | true =>
    simp only [onward, beyond, if_true]
    rw [take_succ_eq_append_getElem hLt, hElem, reverse_append]
    rfl

/- What is behind `i` starts at its neighbour. -/
theorem beyond_eq (reverse : Bool) (hLt : i < l.length) :
    beyond reverse i l = match neighbour reverse i l.length with
      | some k => onward reverse k l
      | none => [] := by
  cases reverse with
  | false =>
    simp only [neighbour, Bool.false_eq_true, if_false]
    by_cases hNext : i + 1 < l.length
    · rw [if_pos hNext]
      rfl
    · rw [if_neg hNext]
      exact drop_eq_nil_of_le (by omega)
  | true =>
    simp only [neighbour, if_true]
    by_cases hPos : 0 < i
    · rw [if_pos ⟨hPos, by omega⟩]
      simp only [beyond, onward, if_true]
      rw [Nat.sub_add_cancel hPos]
    · rw [if_neg (by omega)]
      have hZero : i = 0 := by omega
      subst hZero
      rfl

theorem neighbour_lt {count k : Nat} (hNeighbour : neighbour reverse i count = some k) :
    k < count := by
  unfold neighbour at hNeighbour
  split at hNeighbour
  · split at hNeighbour
    · cases hNeighbour
      omega
    · cases hNeighbour
  · split at hNeighbour
    · cases hNeighbour
      omega
    · cases hNeighbour

theorem orient_flatMap {β : Type} (f : α → List β) :
    orient reverse (l.flatMap f) = (orient reverse l).flatMap fun x => orient reverse (f x) := by
  cases reverse with
  | false => rfl
  | true =>
    simp only [orient, if_true]
    exact reverse_flatMap

end Directions

-- What A Cursor Will Go Through

/- No leaf is without pairs and no branch without children. -/
def Full : (n : Nat) → Tree P K V n → Prop
  | 0, leaf => Leaf.pairs leaf ≠ []
  | n + 1, branch =>
    Branch.children branch ≠ [] ∧ ∀ c ∈ Branch.children branch, Full n c.1

namespace Frame

/- The slots below the children from the next one on. -/
def pending (reverse : Bool) (frame : Frame P K V) : List (Slot P K V) :=
  (onward reverse frame.child frame.branch.children).flatMap
    fun c => orient reverse (slots frame.height c.1)

/- The next child exists, and there are no empty nodes. -/
structure Ready (frame : Frame P K V) : Prop where
  child_lt : frame.child < frame.branch.children.length
  full : ∀ c ∈ frame.branch.children, Full frame.height c.1

end Frame

/- The slots below a whole stack. -/
def pendingAll (reverse : Bool) (parents : List (Frame P K V)) : List (Slot P K V) :=
  parents.flatMap (Frame.pending reverse)

namespace RangeIterState

/- The slot of a cursor in a leaf. -/
def current : RangeIterState P K V → Option (Slot P K V)
  | .leaf node entry _ => (leafSlots node)[entry]?
  | .internal _ _ => none

/- The slots a cursor has not come to yet. -/
def pending (reverse : Bool) : RangeIterState P K V → List (Slot P K V)
  | .leaf node entry parents =>
    beyond reverse entry (leafSlots node) ++ pendingAll reverse parents
  | .internal frame parents =>
    pendingAll reverse (frame :: parents)

/- The entry and the next children exist. -/
def Ready : RangeIterState P K V → Prop
  | .leaf node entry parents =>
    entry < node.pairs.length ∧ ∀ f ∈ parents, f.Ready
  | .internal frame parents =>
    ∀ f ∈ frame :: parents, f.Ready

/- The slot of a cursor, if it has one, and the others. -/
def trail (reverse : Bool) (state : RangeIterState P K V) : List (Slot P K V) :=
  state.current.toList ++ state.pending reverse

/- The edge of a list with elements is an index of it. -/
theorem edge_lt (reverse : Bool) {count : Nat} (hCount : count ≠ 0) :
    edge reverse count < count := by
  unfold edge
  split
  · omega
  · omega

/- Going into a node is at the start of its slots. -/
theorem enter_spec (reverse : Bool) {n : Nat} {tree : Tree P K V n} {parents : List (Frame P K V)}
    (hFull : Full n tree) (hParents : ∀ f ∈ parents, f.Ready) :
    (enter reverse n tree parents).Ready ∧ (enter reverse n tree parents).trail reverse =
        orient reverse (slots n tree) ++ pendingAll reverse parents := by
  cases n with
  | zero =>
    have hLength : (Leaf.pairs tree).length ≠ 0 := by
      intro hZero
      exact hFull (length_eq_zero_iff.mp hZero)
    have hLt := edge_lt reverse hLength
    refine ⟨⟨hLt, hParents⟩, ?_⟩
    have hIndex : edge reverse (Leaf.pairs tree).length < (leafSlots tree).length := by
      rw [length_leafSlots]
      exact hLt
    have hGet := getElem?_eq_getElem hIndex
    have hOnward := onward_eq reverse hGet
    have hEdge := onward_edge reverse (leafSlots tree)
    rw [length_leafSlots, hOnward] at hEdge
    change (leafSlots tree)[_]?.toList ++ (beyond _ _ (leafSlots tree) ++ _) = _
    rw [hGet, ← append_assoc]
    change (_ :: beyond _ _ (leafSlots tree)) ++ _ = _
    rw [hEdge]
    rfl
  | succ n =>
    have hLength : (Branch.children tree).length ≠ 0 := by
      intro hZero
      exact hFull.1 (length_eq_zero_iff.mp hZero)
    refine ⟨?_, ?_⟩
    · intro f hf
      rcases mem_cons.mp hf with rfl | hOld
      · exact ⟨edge_lt reverse hLength, hFull.2⟩
      · exact hParents f hOld
    · change (Frame.pending reverse ⟨n, tree, edge reverse _⟩) ++ _ = _
      rw [Frame.pending, onward_edge, ← orient_flatMap]
      rfl

/- The branch stays on the stack while it has a next child. -/
theorem afterChild_ready
    (reverse : Bool) {frame : Frame P K V} {parents : List (Frame P K V)} (hFrame : frame.Ready)
    (hParents : ∀ f ∈ parents, f.Ready) :
    ∀ f ∈ afterChild reverse frame parents, f.Ready := by
  intro f hf
  unfold afterChild at hf
  split at hf
  · rename_i k hk
    rcases mem_cons.mp hf with rfl | hOld
    · exact ⟨neighbour_lt hk, hFrame.full⟩
    · exact hParents f hOld
  · exact hParents f hf

/- The slots behind a child that has been taken. -/
theorem pendingAll_afterChild
    (reverse : Bool) {frame : Frame P K V} (parents : List (Frame P K V)) (hFrame : frame.Ready) :
    pendingAll reverse (afterChild reverse frame parents) = (beyond reverse frame.child
          frame.branch.children).flatMap
        (fun c => orient reverse (slots frame.height c.1)) ++
        pendingAll reverse parents := by
  rw [beyond_eq reverse hFrame.child_lt]
  unfold afterChild
  cases neighbour reverse frame.child frame.branch.children.length with
  | some k => rfl
  | none => rfl

/- One step: from a leaf entry to the first pending slot, and from a branch into its next child. -/
theorem next_spec {reverse : Bool} {state : RangeIterState P K V} (hReady : state.Ready) :
    ∃ following, state.next reverse = .ok following ∧ following.elim [] (trail reverse) =
        state.pending reverse ∧
      ∀ s, following = some s → s.Ready ∧ (s.getEntry = none → Cursors.steps (some s) <
            Cursors.steps (some state)) := by
  cases state with
  | leaf leaf entry parents =>
    rcases hReady with ⟨hLt, hParents⟩
    have hIndex : entry < (leafSlots leaf).length := by
      rw [length_leafSlots]
      exact hLt
    have hBeyond := beyond_eq reverse hIndex
    rw [length_leafSlots] at hBeyond
    cases hNext : neighbour reverse entry leaf.pairs.length with
    | some k =>
      have hk := neighbour_lt hNext
      have hGet := getElem?_eq_getElem (length_leafSlots leaf ▸ hk : k < (leafSlots leaf).length)
      refine ⟨some (.leaf leaf k parents), by
        simp only [next, hNext, pure_eq_ok], ?_, ?_⟩
      · change (leafSlots leaf)[k]?.toList ++ (beyond reverse k (leafSlots leaf) ++ _) =
            beyond reverse entry (leafSlots leaf) ++ _
        rw [hBeyond, hNext, hGet]
        change _ = onward reverse k (leafSlots leaf) ++ _
        rw [onward_eq reverse hGet]
        rfl
      · rintro s ⟨⟩
        refine ⟨⟨hk, hParents⟩, ?_⟩
        intro hNone
        change leaf.pairs[k]? = none at hNone
        rw [List.getElem?_eq_none_iff] at hNone
        omega
    | none =>
      rw [hNext] at hBeyond
      refine ⟨ofParents parents, by
        simp only [next, hNext, pure_eq_ok], ?_, ?_⟩
      · change _ = beyond reverse entry (leafSlots leaf) ++ _
        rw [hBeyond]
        cases parents with
        | nil => rfl
        | cons => rfl
      · intro s hs
        cases parents with
        | nil => cases hs
        | cons frame rest =>
          cases hs
          refine ⟨hParents, ?_⟩
          intro _
          change frame.height + 1 < frame.height + 2
          omega
  | internal frame parents =>
    have hFrame := hReady frame mem_cons_self
    obtain ⟨child, hChild⟩ : ∃ c, frame.branch.children[frame.child]? = some c :=
      ⟨_, getElem?_eq_getElem hFrame.child_lt⟩
    have hFull := hFrame.full child (mem_of_getElem? hChild)
    have hRest := afterChild_ready reverse hFrame fun f hf => hReady f (mem_cons_of_mem _ hf)
    rcases enter_spec reverse hFull hRest with ⟨hEntered, hTrail⟩
    refine ⟨some (enter reverse frame.height child.1
      (afterChild reverse frame parents)), ?_, ?_, ?_⟩
    · simp only [next, hChild]
      rfl
    · change trail reverse (enter _ _ _ _) =
        Frame.pending reverse frame ++ pendingAll reverse parents
      rw [hTrail, Frame.pending, onward_eq reverse hChild,
        pendingAll_afterChild reverse parents hFrame, flatMap_cons, append_assoc]
    · rintro s ⟨⟩
      refine ⟨hEntered, ?_⟩
      rcases frame with ⟨height, _, _⟩
      cases height with
      | zero =>
        intro hNone
        exact absurd hNone (by
          rw [enter, getEntry]
          have hLt := hEntered.1
          rw [getElem?_eq_getElem hLt]
          exact some_ne_none _)
      | succ height =>
        intro _
        change height + 1 < height + 1 + 1
        omega

/- A ready cursor in a leaf has an entry, the one of its slot. -/
theorem getEntry_eq (state : RangeIterState P K V) :
    state.getEntry = state.current.map Slot.pair := by
  cases state with
  | leaf node entry =>
    change node.pairs[entry]? = ((leafSlots node)[entry]?).map Slot.pair
    rw [getElem?_leafSlots, Option.map_map]
    cases node.pairs[entry]? with
    | none => rfl
    | some pair => rfl
  | internal => rfl

end RangeIterState

-- The Loop

namespace Cursors

variable [DecidableEq P] {reverse : Bool}

theorem met_internal
    (frame : Frame P K V) (parents : List (Frame P K V)) (other : Option (RangeIterState P K V))
    (includeMoving includeOther atSame : Bool) :
    met reverse ⟨some (.internal frame parents), other,
      includeMoving, includeOther⟩ atSame = false := by
  cases reverse with
  | false => rfl
  | true =>
    change Redbx.met other _ atSame = false
    cases other with
    | none => rfl
    | some state =>
      cases state with
      | leaf => rfl
      | internal => rfl

/-
  The loop takes the moving end to its first pending slot, and returns its entry unless the ends
  have met there.
-/
theorem loop_move (fuel : Nat) {state : RangeIterState P K V} (hReady : state.Ready)
    (hFuel : steps (some state) ≤ fuel) {slot : Slot P K V} {rest : List (Slot P K V)}
    (hPending : state.pending reverse = slot :: rest) (other : Option (RangeIterState P K V))
    (includeOther : Bool) :
    ∃ moved : RangeIterState P K V, moved.Ready ∧ moved.current = some slot ∧
        moved.pending reverse = rest ∧
        loop reverse fuel ⟨some state, other, false, includeOther⟩ =
          .ok (if met reverse ⟨some moved, other, false, includeOther⟩ !includeOther then none
              else some slot.pair,
            ⟨some moved, other, false, includeOther⟩) := by
  induction fuel generalizing state with
  | zero =>
    exfalso
    cases state with
    | leaf _ _ parents =>
      cases parents with
      | nil => exact absurd hFuel (Nat.not_succ_le_zero 0)
      | cons frame =>
        change frame.height + 2 ≤ 0 at hFuel
        omega
    | internal frame =>
      change frame.height + 1 ≤ 0 at hFuel
      omega
  | succ fuel ih =>
    rcases RangeIterState.next_spec hReady with ⟨following, hNext, hTrail, hFollowing⟩
    rw [hPending] at hTrail
    cases following with
    | none => exact absurd hTrail.symm (cons_ne_nil _ _)
    | some next =>
      rcases hFollowing next rfl with ⟨hReady', hSteps⟩
      change next.current.toList ++ next.pending reverse = slot :: rest at hTrail
      have hEntry := next.getEntry_eq
      cases hCurrent : next.current with
      | some here =>
        rw [hCurrent] at hTrail hEntry
        rcases List.cons.inj hTrail with ⟨rfl, hRest⟩
        refine ⟨next, hReady', hCurrent, hRest, ?_⟩
        simp only [loop, Bool.false_eq_true, if_false, hNext, ok_bind, pure_eq_ok, hEntry, map_some]
        split
        · rfl
        · rfl
      | none =>
        rw [hCurrent] at hTrail hEntry
        have hLess := hSteps hEntry
        obtain ⟨moved, hMoved, hSlot, hRest, hLoop⟩ :=
          ih hReady' (by omega) hTrail
        refine ⟨moved, hMoved, hSlot, hRest, ?_⟩
        have hBranch : met reverse ⟨some next, other, false, includeOther⟩
            (!includeOther) = false := by
          cases next with
          | leaf node entry =>
            exfalso
            have hLt := hReady'.1
            change (leafSlots node)[entry]? = none at hCurrent
            rw [List.getElem?_eq_none_iff, length_leafSlots] at hCurrent
            omega
          | internal frame parents => exact met_internal frame parents other false includeOther _
        rw [loop]
        simp only [Bool.false_eq_true, if_false, hNext, ok_bind, hBranch, hEntry, map_none]
        exact hLoop

end Cursors

end Redbx
