import Redbx.Btree.RangeIter

/-
  What calls on the two ends of an iterator return.

  The slots of a tree are numbered from left to right, and a cursor stands at one of them. As long
  as the left end is not behind the right end, they meet exactly when they stand at the same slot,
  and the entries between them remain.

  Key theorems include:
    * `Spans.nextBack`, `Spans.takeAll`
-/

namespace Redbx

open Redbx.Tree List

variable {P K V : Type}

-- Cursors At A Slot

/- A cursor stands at the slot `i` and goes on from there. -/
structure At (reverse : Bool) (l : List (Slot P K V)) (i : Nat) (state : RangeIterState P K V) :
    Prop where
  ready : state.Ready
  lt : i < l.length
  current : state.current = l[i]?
  pending : state.pending reverse = beyond reverse i l

/- In one page the entries are numbered upwards. -/
def Ordered (l : List (Slot P K V)) : Prop :=
  l.Pairwise fun x y => x.page = y.page → x.entry < y.entry

variable {reverse : Bool} {l : List (Slot P K V)}

theorem At.cases {i : Nat} {state : RangeIterState P K V} (hAt : At reverse l i state) :
    ∃ node entry parents pair, state = .leaf node entry parents ∧
        l[i]? = some ⟨node.page, entry, pair⟩ := by
  have hSome := getElem?_eq_getElem hAt.lt
  have hCurrent := hAt.current
  cases state with
  | leaf node entry parents =>
    change (leafSlots node)[entry]? = _ at hCurrent
    rw [getElem?_leafSlots] at hCurrent
    have hPair := getElem?_eq_getElem hAt.ready.1
    rw [hPair] at hCurrent
    exact ⟨node, entry, parents, _, rfl, hCurrent.symm⟩
  | internal =>
    rw [hSome] at hCurrent
    cases hCurrent

variable [DecidableEq P]

/- The ends have met when they stand at the same slot. -/
theorem met_eq {i k : Nat} {left right : RangeIterState P K V} (hOrdered : Ordered l)
    (hLeft : At false l i left) (hRight : At true l k right) (hLe : i ≤ k) (atSame : Bool) :
    met (some left) (some right) atSame = (decide (i = k) && atSame) := by
  rcases hLeft.cases with ⟨node, entry, _, _, rfl, hi⟩
  rcases hRight.cases with ⟨node', entry', _, _, rfl, hk⟩
  change (decide (node.page = node'.page) && (decide (entry' < entry) ||
      (decide (entry = entry') && atSame))) = _
  by_cases hSame : i = k
  · subst hSame
    rw [hi] at hk
    rcases Slot.mk.inj (Option.some.inj hk) with ⟨hPage, hEntry, -⟩
    simp [hPage, hEntry]
  · have hRel := pairwise_iff_getElem.mp hOrdered i k hLeft.lt hRight.lt (by omega)
    rcases List.getElem?_eq_some_iff.mp hi with ⟨_, hi'⟩
    rcases List.getElem?_eq_some_iff.mp hk with ⟨_, hk'⟩
    rw [hi', hk'] at hRel
    by_cases hPage : node.page = node'.page
    · have hLt := hRel hPage
      change entry < entry' at hLt
      have hNotLess : ¬ entry' < entry := by omega
      have hNotSame : ¬ entry = entry' := by omega
      simp [hSame, hNotLess, hNotSame]
    · simp [hSame, hPage]

/- The order of the two ends, for either direction. -/
def Facing (reverse : Bool) (moving other : Nat) : Prop :=
  if reverse then other ≤ moving else moving ≤ other

variable {m o : Nat}

theorem Cursors.met_eq
    {moving other : RangeIterState P K V} (hOrdered : Ordered l) (hMoving : At reverse l m moving)
    (hOther : At (!reverse) l o other) (hFacing : Facing reverse m o)
    (includeMoving includeOther atSame : Bool) :
    Cursors.met reverse ⟨some moving, some other, includeMoving, includeOther⟩ atSame =
      (decide (m = o) && atSame) := by
  cases reverse with
  | false => exact Redbx.met_eq hOrdered hMoving hOther hFacing atSame
  | true =>
    have hMet := Redbx.met_eq hOrdered hOther hMoving hFacing atSame
    have hSymm : decide (m = o) = decide (o = m) := by simp [eq_comm]
    rw [hSymm]
    exact hMet

/- The slot the moving end comes to next. -/
def following (reverse : Bool) (m : Nat) : Nat :=
  if reverse then m - 1 else m + 1

/- Before the other end there is a next slot. -/
theorem beyond_facing
    {α : Type} {l : List α} (hm : m < l.length) (ho : o < l.length) (hFacing : Facing reverse m o)
    (hNe : m ≠ o) :
    ∃ x, l[following reverse m]? = some x ∧ beyond reverse m l =
        x :: beyond reverse (following reverse m) l ∧
      following reverse m < l.length ∧
      Facing reverse (following reverse m) o := by
  have hLt : following reverse m < l.length := by
    cases reverse with
    | false =>
      change m ≤ o at hFacing
      change m + 1 < l.length
      omega
    | true =>
      change m - 1 < l.length
      omega
  have hNeighbour : neighbour reverse m l.length = some (following reverse m) := by
    cases reverse with
    | false =>
      change m + 1 < l.length at hLt
      simp [neighbour, following, hLt]
    | true =>
      change o ≤ m at hFacing
      have hPos : 0 < m := by omega
      have hIn : m - 1 < l.length := by omega
      simp [neighbour, following, hPos, hIn]
  have hGet := getElem?_eq_getElem hLt
  refine ⟨_, hGet, ?_, hLt, ?_⟩
  · rw [beyond_eq reverse hm, hNeighbour]
    exact onward_eq reverse hGet
  · cases reverse with
    | false =>
      change m ≤ o at hFacing
      change m + 1 ≤ o
      omega
    | true =>
      change o ≤ m at hFacing
      change o ≤ m - 1
      omega

/-
  One call: the ends have met, or meet at a slot that is not in the range, or the entry of a slot is
  returned.
-/
theorem advance_spec
    {moving other : RangeIterState P K V} (hOrdered : Ordered l) (hMoving : At reverse l m moving)
    (hOther : At (!reverse) l o other) (hFacing : Facing reverse m o)
    (includeMoving includeOther : Bool) :
    ∃ moved k inclusive entry, Cursors.advance reverse ⟨some moving, some other,
          includeMoving, includeOther⟩ =
        .ok (entry, ⟨some moved, some other, inclusive, includeOther⟩) ∧
      At reverse l k moved ∧ Facing reverse k o ∧
      ((entry = none ∧ k = m ∧ inclusive = includeMoving ∧
          m = o ∧ (includeMoving && includeOther) = false) ∨
        (entry = none ∧ inclusive = false ∧ includeMoving = false ∧ includeOther = false ∧
          k = o ∧ m ≠ o ∧ k = following reverse m) ∨
        (entry = l[k]?.map Slot.pair ∧ inclusive = false ∧ k = (if includeMoving then m
            else following reverse m) ∧
          (k = o → includeOther = true) ∧
          (m = o → includeMoving = true))) := by
  have hMet := Cursors.met_eq hOrdered hMoving hOther hFacing includeMoving includeOther
    (!includeMoving || !includeOther)
  unfold Cursors.advance
  simp only
  rw [hMet]
  by_cases hStop : m = o ∧ (includeMoving && includeOther) = false
  · -- the ends have met before
    have hTrue : (decide (m = o) && (!includeMoving || !includeOther)) = true := by
      rw [← Bool.not_and, hStop.2, decide_eq_true hStop.1]
      rfl
    rw [if_pos hTrue]
    exact ⟨moving, m, includeMoving, none, rfl, hMoving, hFacing, Or.inl ⟨rfl, rfl, rfl, hStop⟩⟩
  · have hFalse : (decide (m = o) && (!includeMoving || !includeOther)) = false := by
      rw [← Bool.not_and]
      by_cases hSame : m = o
      · have hBoth : (includeMoving && includeOther) = true := by
          cases h : (includeMoving && includeOther) with
          | true => rfl
          | false => exact absurd ⟨hSame, h⟩ hStop
        rw [hBoth]
        simp
      · simp [hSame]
    rw [if_neg (by rw [hFalse]; exact Bool.false_ne_true)]
    cases includeMoving with
    | true =>
      -- the entry under the moving end is returned
      have hHere := Cursors.met_eq hOrdered hMoving hOther hFacing true includeOther (!includeOther)
      have hGo : Cursors.met reverse ⟨some moving, some other,
          true, includeOther⟩ (!includeOther) = false := by
        rw [hHere]
        by_cases hSame : m = o
        · have hOtherIn : includeOther = true := by
            cases includeOther with
            | true => rfl
            | false => exact absurd ⟨hSame, rfl⟩ hStop
          simp [hOtherIn]
        · simp [hSame]
      obtain ⟨fuel, hFuel⟩ : ∃ fuel, Cursors.steps (some moving) = fuel + 1 := by
        cases moving with
        | leaf _ _ parents =>
          cases parents with
          | nil => exact ⟨0, rfl⟩
          | cons => exact ⟨_, rfl⟩
        | internal => exact ⟨_, rfl⟩
      obtain ⟨x, hGet⟩ : ∃ x, l[m]? = some x :=
        ⟨_, getElem?_eq_getElem hMoving.lt⟩
      have hEntry := moving.getEntry_eq
      rw [hMoving.current, hGet] at hEntry
      refine ⟨moving, m, false, some x.pair, ?_, hMoving, hFacing, Or.inr (Or.inr
          ⟨by rw [hGet]; rfl, rfl, rfl, ?_, fun _ => rfl⟩)⟩
      · rw [hFuel, Cursors.loop]
        simp only [if_true, pure_eq_ok, ok_bind, hGo, Bool.false_eq_true, if_false, hEntry,
          Option.map_some]
      · intro hSame
        cases includeOther with
        | true => rfl
        | false => exact absurd ⟨hSame, rfl⟩ hStop
    | false =>
      have hNe : m ≠ o := by
        intro hSame
        exact hStop ⟨hSame, rfl⟩
      rcases beyond_facing hMoving.lt hOther.lt hFacing hNe with ⟨x, hGet, hBeyond, hLt, hFacing'⟩
      have hPending := hMoving.pending
      rw [hBeyond] at hPending
      rcases Cursors.loop_move _ hMoving.ready le_rfl hPending (some other) includeOther with
        ⟨moved, hReady, hCurrent, hRest, hLoop⟩
      have hMoved : At reverse l (following reverse m) moved :=
        ⟨hReady, hLt, hCurrent.trans hGet.symm, hRest⟩
      rw [Cursors.met_eq hOrdered hMoved hOther hFacing'] at hLoop
      by_cases hEnd : following reverse m = o ∧ includeOther = false
      · rcases hEnd with ⟨hSame, rfl⟩
        rw [decide_eq_true hSame] at hLoop
        exact ⟨moved, _, false, none, hLoop, hMoved, hFacing', Or.inr (Or.inl
            ⟨rfl, rfl, rfl, rfl, hSame, hNe, rfl⟩)⟩
      · have hGo : (decide (following reverse m = o) && !includeOther) = false := by
          by_cases hSame : following reverse m = o
          · have hOtherIn : includeOther = true := by
              cases includeOther with
              | true => rfl
              | false => exact absurd ⟨hSame, rfl⟩ hEnd
            simp [hOtherIn]
          · simp [hSame]
        rw [hGo] at hLoop
        refine ⟨moved, _, false, some x.pair, hLoop, hMoved, hFacing', Or.inr (Or.inr
            ⟨by rw [hGet]; rfl, rfl, rfl, ?_, ?_⟩)⟩
        · intro hSame
          cases includeOther with
          | true => rfl
          | false => exact absurd ⟨hSame, rfl⟩ hEnd
        · intro hSame
          exact absurd hSame hNe

-- What Remains

/- The slots from `lo` up to, and without, `hi`. -/
def between {α : Type} (l : List α) (lo hi : Nat) : List α := (l.take hi).drop lo

section Between

variable {α : Type} {l : List α} {lo hi : Nat}

theorem between_nil (hLe : hi ≤ lo) : between l lo hi = [] := by
  refine drop_eq_nil_of_le ?_
  rw [length_take]
  omega

theorem between_front (hLess : lo < hi) :
    (between l lo hi).head? = l[lo]? ∧ (between l lo hi).tail = between l (lo + 1) hi := by
  refine ⟨?_, ?_⟩
  · rw [between, head?_drop, getElem?_take, if_pos hLess]
  · rw [between, tail_drop, between]

theorem between_back (hLess : lo < hi + 1) (hLt : hi < l.length) :
    (between l lo (hi + 1)).getLast? = l[hi]? ∧
      (between l lo (hi + 1)).dropLast = between l lo hi := by
  have hSplit : between l lo (hi + 1) = between l lo hi ++ [l[hi]] := by
    rw [between, between, take_succ_eq_append_getElem hLt, drop_append_of_le_length]
    rw [length_take]
    omega
  rw [hSplit, getLast?_concat, dropLast_concat, getElem?_eq_getElem hLt]
  exact ⟨rfl, rfl⟩

end Between

/- The first slot the left end leaves. -/
def lower (left : Nat) (includeLeft : Bool) : Nat := left + if includeLeft then 0 else 1

/- The first slot behind those the right end leaves. -/
def upper (right : Nat) (includeRight : Bool) : Nat := right + if includeRight then 1 else 0

/- The iterator has its ends in the tree, and these remain. -/
inductive Spans (l : List (Slot P K V)) : BtreeRangeIter P K V → List (Slot P K V) → Prop where
  | spent : Spans l BtreeRangeIter.empty []
  | ends (left right : RangeIterState P K V) (i k : Nat) (includeLeft includeRight : Bool)
      (hLeft : At false l i left) (hRight : At true l k right) (hLe : i ≤ k) :
      Spans l ⟨some left, some right, includeLeft, includeRight⟩
        (between l (lower i includeLeft) (upper k includeRight))

variable {l : List (Slot P K V)} {iter : BtreeRangeIter P K V} {rest : List (Slot P K V)}

/- `next` takes the first of what remains. -/
theorem Spans.next (hOrdered : Ordered l) (hSpans : Spans l iter rest) :
    ∃ iter', iter.next = .ok (rest.head?.map Slot.pair, iter') ∧ Spans l iter' rest.tail := by
  cases hSpans with
  | spent => exact ⟨BtreeRangeIter.empty, rfl, .spent⟩
  | ends left right i k includeLeft includeRight hLeft hRight hLe =>
    rcases advance_spec hOrdered hLeft hRight (show Facing false i k from hLe)
        includeLeft includeRight with
      ⟨moved, m, inclusive, entry, hAdvance, hMoved, hFacing, hCases⟩
    change m ≤ k at hFacing
    have hStep : entry = (between l (lower i includeLeft)
          (upper k includeRight)).head?.map Slot.pair ∧
        between l (lower m inclusive) (upper k includeRight) =
          (between l (lower i includeLeft) (upper k includeRight)).tail := by
      rcases hCases with ⟨rfl, rfl, rfl, rfl, hBoth⟩ | ⟨rfl, rfl, rfl, rfl, rfl, _, hEq⟩ |
          ⟨rfl, rfl, hEq, hOther, _⟩
      · have hNil : between l (lower m inclusive) (upper m includeRight) = [] := by
          apply between_nil
          cases inclusive with
          | false =>
            unfold lower upper
            split
            · exact Nat.le_refl _
            · exact Nat.le_succ _
          | true =>
            cases includeRight with
            | false => exact Nat.le_refl _
            | true => exact absurd hBoth (by decide)
        rw [hNil]
        exact ⟨rfl, rfl⟩
      · change m = i + 1 at hEq
        rw [between_nil (show upper m false ≤ lower i false by
          simp only [upper, lower, Bool.false_eq_true, if_false]
          omega), between_nil (show upper m false ≤ lower m false by
          simp only [upper, lower, Bool.false_eq_true, if_false]
          omega)]
        exact ⟨rfl, rfl⟩
      · have hLower : lower i includeLeft = m := by
          rw [hEq]
          cases includeLeft with
          | false | true => rfl
        have hLess : m < upper k includeRight := by
          unfold upper
          by_cases hSame : m = k
          · rw [hOther hSame, if_pos rfl]
            omega
          · omega
        rcases between_front (l := l) hLess with ⟨hHead, hTail⟩
        rw [hLower, hHead, hTail]
        exact ⟨rfl, rfl⟩
    refine ⟨⟨some moved, some right, inclusive, includeRight⟩, ?_, ?_⟩
    · simp only [BtreeRangeIter.next, hAdvance, ok_bind, pure_eq_ok, hStep.1]
    · rw [← hStep.2]
      exact .ends moved right m k inclusive includeRight hMoved hRight hFacing

/- `next_back` takes the last of what remains. -/
theorem Spans.nextBack (hOrdered : Ordered l) (hSpans : Spans l iter rest) :
    ∃ iter', iter.nextBack = .ok (rest.getLast?.map Slot.pair, iter') ∧
      Spans l iter' rest.dropLast := by
  cases hSpans with
  | spent => exact ⟨BtreeRangeIter.empty, rfl, .spent⟩
  | ends left _ i k includeLeft includeRight hLeft hRight hLe =>
    rcases advance_spec hOrdered hRight (show At (!true) l i left from hLeft)
        (show Facing true k i from hLe) includeRight includeLeft with
      ⟨moved, m, inclusive, entry, hAdvance, hMoved, hFacing, hCases⟩
    change i ≤ m at hFacing
    have hStep : entry = (between l (lower i includeLeft)
          (upper k includeRight)).getLast?.map Slot.pair ∧
        between l (lower i includeLeft) (upper m inclusive) =
          (between l (lower i includeLeft) (upper k includeRight)).dropLast := by
      rcases hCases with ⟨rfl, rfl, rfl, rfl, hBoth⟩ | ⟨rfl, rfl, rfl, rfl, rfl, _, hEq⟩ |
          ⟨rfl, rfl, hEq, hOther, hSame⟩
      · have hNil : between l (lower m includeLeft) (upper m inclusive) = [] := by
          apply between_nil
          cases inclusive with
          | false => exact Nat.le_add_right m _
          | true =>
            cases includeLeft with
            | false => exact Nat.le_refl _
            | true => exact absurd hBoth (by decide)
        rw [hNil]
        exact ⟨rfl, rfl⟩
      · change m = k - 1 at hEq
        rw [between_nil (show upper k false ≤ lower m false by
          simp only [upper, lower, Bool.false_eq_true, if_false]
          omega), between_nil (show upper m false ≤ lower m false by
          simp only [upper, lower, Bool.false_eq_true, if_false]
          omega)]
        exact ⟨rfl, rfl⟩
      · have hUpper : upper k includeRight = m + 1 := by
          rw [hEq]
          cases includeRight with
          | false =>
            have hNe : k ≠ i := by
              intro hk
              exact absurd (hSame hk) Bool.false_ne_true
            simp only [upper, following, Bool.false_eq_true, if_false, if_true]
            omega
          | true => rfl
        have hLess : lower i includeLeft < m + 1 := by
          unfold lower
          by_cases hHere : m = i
          · rw [hOther hHere, if_pos rfl]
            omega
          · split
            · omega
            · omega
        rcases between_back hLess hMoved.lt with ⟨hLast, hInit⟩
        rw [hUpper, hLast, hInit]
        exact ⟨rfl, rfl⟩
    refine ⟨⟨some left, some moved, includeLeft, inclusive⟩, ?_, ?_⟩
    · simp only [BtreeRangeIter.nextBack, hAdvance, ok_bind, pure_eq_ok, hStep.1]
    · rw [← hStep.2]
      exact .ends left moved i m includeLeft inclusive hLeft hMoved hFacing

/- What calls on both sides of a list return. -/
def dequeue {α : Type} : List Side → List α → List (Option α)
  | [], _ => []
  | .front :: sides, l => l.head? :: dequeue sides l.tail
  | .back :: sides, l => l.getLast? :: dequeue sides l.dropLast

/- Any calls return what they return on the list. -/
theorem Spans.takeAll (sides : List Side) (hOrdered : Ordered l) (hSpans : Spans l iter rest) :
    ∃ iter', iter.takeAll sides = .ok (dequeue sides (rest.map Slot.pair), iter') := by
  induction sides generalizing iter rest with
  | nil => exact ⟨iter, rfl⟩
  | cons side _ ih =>
    cases side with
    | front =>
      rcases hSpans.next hOrdered with ⟨next, hNext, hSpans'⟩
      rcases ih hSpans' with ⟨iter', hRest⟩
      refine ⟨iter', ?_⟩
      simp only [BtreeRangeIter.takeAll, BtreeRangeIter.take, hNext, ok_bind, hRest,
        pure_eq_ok, dequeue, head?_map, map_tail]
    | back =>
      rcases hSpans.nextBack hOrdered with ⟨next, hNext, hSpans'⟩
      rcases ih hSpans' with ⟨iter', hRest⟩
      refine ⟨iter', ?_⟩
      simp only [BtreeRangeIter.takeAll, BtreeRangeIter.take, hNext, ok_bind, hRest,
        pure_eq_ok, dequeue, getLast?_map, map_dropLast]

end Redbx
