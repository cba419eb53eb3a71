import Mathlib.Data.Set.Basic
import Mathlib.Data.Nat.Bitwise
import Mathlib.Tactic.Ring

/-
  Families of aligned blocks, and walks over them.

  A block of order `o` and index `j` is made of the `2 ^ o` pages `p` with `p / 2 ^ o = j`. A buddy
  system keeps its free pages as a family of disjoint blocks in which no two halves of one block are
  both present.

  Key theorems include:
    * `fillOrders_rule`, `walk_rule`
-/

namespace Redbx

-- Blocks

/- A page lies in a block of the family. -/
def Covers (family : Set (Nat × Nat)) (page : Nat) : Prop :=
  ∃ order, (order, page / 2 ^ order) ∈ family

/-
  The blocks lie below `len`, are disjoint, and no two halves of a block are both there below the
  top order.
-/
structure Buddies (family : Set (Nat × Nat)) (maxOrder len : Nat) : Prop where
  order_le : ∀ {o j}, (o, j) ∈ family → o ≤ maxOrder
  within : ∀ {o j}, (o, j) ∈ family → (j + 1) * 2 ^ o ≤ len
  single : ∀ {o k p}, (o, p / 2 ^ o) ∈ family → (k, p / 2 ^ k) ∈ family → o = k
  merged : ∀ {o j}, o < maxOrder → (o, 2 * j) ∈ family → (o, 2 * j + 1) ∉ family

theorem div_pow_succ (page order : Nat) : page / 2 ^ (order + 1) = page / 2 ^ order / 2 := by
  rw [Nat.div_div_eq_div_mul, Nat.pow_succ]

/- The pages of a block are pages of the blocks above it. -/
theorem div_pow_add (page order d : Nat) : page / 2 ^ (order + d) = page / 2 ^ order / 2 ^ d := by
  rw [Nat.div_div_eq_div_mul, Nat.pow_add]

theorem first_page (order index : Nat) : index * 2 ^ order / 2 ^ order = index :=
  Nat.mul_div_cancel _ (Nat.two_pow_pos order)

variable {index order page : Nat}

theorem div_pow_eq_iff :
    page / 2 ^ order = index ↔ index * 2 ^ order ≤ page ∧ page < (index + 1) * 2 ^ order := by
  rw [Nat.div_eq_iff (Nat.two_pow_pos order), Nat.succ_mul]
  have hPos := Nat.two_pow_pos order
  omega

/- A block ends at or below `len` iff its index fits. -/
theorem block_le_iff {len : Nat} : (index + 1) * 2 ^ order ≤ len ↔ index < len / 2 ^ order := by
  rw [Nat.lt_iff_add_one_le, Nat.le_div_iff_mul_le (Nat.two_pow_pos order)]

theorem xor_one_cases (index : Nat) :
    (index % 2 = 0 ∧ index ^^^ 1 = index + 1) ∨ (index % 2 = 1 ∧ index ^^^ 1 = index - 1) := by
  rcases Nat.even_or_odd index with hEven | hOdd
  · exact Or.inl ⟨Nat.even_iff.mp hEven, Nat.xor_one_of_even hEven⟩
  · exact Or.inr ⟨Nat.odd_iff.mp hOdd, Nat.xor_one_of_odd hOdd⟩

/- The pages of a block are those of its two halves. -/
theorem div_pow_half : page / 2 ^ (order + 1) = index / 2 ↔ page / 2 ^ order = index ∨
        page / 2 ^ order = index ^^^ 1 := by
  rw [div_pow_succ]
  rcases xor_one_cases index with ⟨hMod, hXor⟩ | ⟨hMod, hXor⟩
  · rw [hXor]
    omega
  · rw [hXor]
    omega

-- Adding And Removing A Block

theorem covers_insert {family : Set (Nat × Nat)} :
    Covers (insert (order, index) family) page ↔ Covers family page ∨ page / 2 ^ order = index := by
  constructor
  · rintro ⟨k, hIn⟩
    rcases Set.mem_insert_iff.mp hIn with hNew | hOld
    · rcases Prod.mk.inj hNew with ⟨rfl, hIndex⟩
      exact Or.inr hIndex
    · exact Or.inl ⟨k, hOld⟩
  · rintro (⟨k, hOld⟩ | rfl)
    · exact ⟨k, Set.mem_insert_of_mem _ hOld⟩
    · exact ⟨order, Set.mem_insert _ _⟩

theorem covers_without {family : Set (Nat × Nat)}
    (hSingle : ∀ {o k p}, (o, p / 2 ^ o) ∈ family → (k, p / 2 ^ k) ∈ family → o = k)
    (hIn : (order, index) ∈ family) :
    Covers (family \ {(order, index)}) page ↔ Covers family page ∧ page / 2 ^ order ≠ index := by
  constructor
  · rintro ⟨k, hOld, hNot⟩
    refine ⟨⟨k, hOld⟩, ?_⟩
    intro hPage
    -- another block with this page would be the same one
    have hOrder : k = order := hSingle hOld (hPage ▸ hIn)
    subst hOrder
    exact hNot (by rw [hPage]; rfl)
  · rintro ⟨⟨k, hOld⟩, hPage⟩
    refine ⟨k, hOld, ?_⟩
    intro hSame
    rcases Prod.mk.inj hSame with ⟨rfl, hIndex⟩
    exact hPage hIndex

namespace Buddies

variable {family : Set (Nat × Nat)} {maxOrder len order index : Nat}

theorem covers_of_mem
    {page : Nat} (hIn : (order, index) ∈ family) (hPage : page / 2 ^ order = index) :
    Covers family page :=
  ⟨order, by rw [hPage]; exact hIn⟩

variable (hBuddies : Buddies family maxOrder len)
include hBuddies

theorem covers_lt {page : Nat} (hCovers : Covers family page) : page < len := by
  rcases hCovers with ⟨k, hIn⟩
  have hEnd := hBuddies.within hIn
  have hPage := div_pow_eq_iff.mp (rfl : page / 2 ^ k = page / 2 ^ k)
  omega

/- The first part of a block, `d` orders lower. -/
theorem within_first {d : Nat} (hIn : (order + d, index) ∈ family) :
    (index * 2 ^ d + 1) * 2 ^ order ≤ len := by
  refine le_trans ?_ (hBuddies.within hIn)
  rw [Nat.pow_add, Nat.mul_comm (2 ^ order), ← Nat.mul_assoc]
  apply Nat.mul_le_mul_right
  rw [Nat.add_mul, Nat.one_mul]
  have hPos := Nat.two_pow_pos d
  omega

theorem covers_diff (hIn : (order, index) ∈ family) {page : Nat} :
    Covers (family \ {(order, index)}) page ↔ Covers family page ∧ page / 2 ^ order ≠ index :=
  covers_without hBuddies.single hIn

theorem diff (block : Nat × Nat) : Buddies (family \ {block}) maxOrder len where
  order_le := fun hIn => hBuddies.order_le hIn.1
  within := fun hIn => hBuddies.within hIn.1
  single := fun hIn hOther => hBuddies.single hIn.1 hOther.1
  merged := fun hOrder hLeft hRight => hBuddies.merged hOrder hLeft.1 hRight.1

/- A block of uncovered pages can be added when its other half is not there. -/
theorem insert (hOrder : order ≤ maxOrder) (hEnd : (index + 1) * 2 ^ order ≤ len)
    (hFresh : ∀ page, page / 2 ^ order = index → ¬ Covers family page)
    (hBuddy : order < maxOrder → (order, index ^^^ 1) ∉ family) :
    Buddies (insert (order, index) family) maxOrder len where
  order_le := by
    intro o j hIn
    rcases Set.mem_insert_iff.mp hIn with hNew | hOld
    · rcases Prod.mk.inj hNew with ⟨rfl, rfl⟩
      exact hOrder
    · exact hBuddies.order_le hOld
  within := by
    intro o j hIn
    rcases Set.mem_insert_iff.mp hIn with hNew | hOld
    · rcases Prod.mk.inj hNew with ⟨rfl, rfl⟩
      exact hEnd
    · exact hBuddies.within hOld
  single := by
    intro o k page hIn hOther
    rcases Set.mem_insert_iff.mp hIn with hNew | hOld
    · rcases Prod.mk.inj hNew with ⟨rfl, hPage⟩
      rcases Set.mem_insert_iff.mp hOther with hNew' | hOld'
      · exact (Prod.mk.inj hNew').1.symm
      · exact absurd ⟨k, hOld'⟩ (hFresh page hPage)
    · rcases Set.mem_insert_iff.mp hOther with hNew' | hOld'
      · rcases Prod.mk.inj hNew' with ⟨rfl, hPage⟩
        exact absurd ⟨o, hOld⟩ (hFresh page hPage)
      · exact hBuddies.single hOld hOld'
  merged := by
    intro o j hLt hLeft hRight
    have hXor := xor_one_cases index
    rcases Set.mem_insert_iff.mp hLeft with hNew | hOld
    · rcases Prod.mk.inj hNew with ⟨rfl, hLeftIndex⟩
      rcases Set.mem_insert_iff.mp hRight with hNew' | hOld'
      · have hRightIndex := (Prod.mk.inj hNew').2
        omega
      · have hOther : index ^^^ 1 = 2 * j + 1 := by omega
        exact hBuddy hLt (hOther ▸ hOld')
    · rcases Set.mem_insert_iff.mp hRight with hNew' | hOld'
      · rcases Prod.mk.inj hNew' with ⟨rfl, hRightIndex⟩
        have hOther : index ^^^ 1 = 2 * j := by omega
        exact hBuddy hLt (hOther ▸ hOld)
      · exact hBuddies.merged hLt hOld hOld'

omit hBuddies in
theorem not_mem_of_uncovered (hFresh : ∀ page, page / 2 ^ order = index → ¬ Covers family page) :
    (order, index) ∉ family := by
  intro hIn
  exact hFresh (index * 2 ^ order) (first_page order index)
    (covers_of_mem hIn (first_page order index))

/-
  A block of covered pages lies in one block of the family: were it put together from smaller ones,
  two halves would be left unmerged.
-/
theorem exists_block (hOrder : order ≤ maxOrder)
    (hCovered : ∀ page, page / 2 ^ order = index → Covers family page) :
    ∃ d, order + d ≤ maxOrder ∧ (order + d, index / 2 ^ d) ∈ family := by
  induction order generalizing index with
  | zero =>
    obtain ⟨k, hIn⟩ := hCovered index (by simp)
    refine ⟨k, ?_, ?_⟩
    · rw [Nat.zero_add]
      exact hBuddies.order_le hIn
    · rw [Nat.zero_add]
      exact hIn
  | succ order ih =>
    have hHalf : ∀ half, half / 2 = index → ∃ d, order + d ≤ maxOrder ∧
          (order + d, half / 2 ^ d) ∈ family := by
      intro half hHalf
      refine ih (by omega) ?_
      intro page hPage
      refine hCovered page ?_
      rw [div_pow_succ, hPage, hHalf]
    -- a block above the half is a block above the whole
    have hLift : ∀ half d, half / 2 = index → d ≠ 0 → order + d ≤ maxOrder →
        (order + d, half / 2 ^ d) ∈ family →
        ∃ d, order + 1 + d ≤ maxOrder ∧ (order + 1 + d, index / 2 ^ d) ∈ family := by
      intro half d hHalf hPos hLe hIn
      rcases Nat.exists_eq_succ_of_ne_zero hPos with ⟨e, rfl⟩
      refine ⟨e, by omega, ?_⟩
      have hOrders : order + 1 + e = order + (e + 1) := by omega
      have hIndex : half / 2 ^ (e + 1) = index / 2 ^ e := by
        rw [Nat.pow_succ', ← Nat.div_div_eq_div_mul, hHalf]
      rw [hOrders, ← hIndex]
      exact hIn
    obtain ⟨d, hLe, hLeft⟩ := hHalf (2 * index) (by omega)
    obtain ⟨e, hLe', hRight⟩ :=
      hHalf (2 * index + 1) (by omega)
    by_cases hd : d = 0
    · by_cases he : e = 0
      · subst hd
        subst he
        rw [Nat.pow_zero, Nat.div_one] at hLeft hRight
        exact absurd hRight (hBuddies.merged (by omega) hLeft)
      · exact hLift (2 * index + 1) e (by omega) he hLe' hRight
    · exact hLift (2 * index) d (by omega) hd hLe hLeft

/- A block of one family inside the pages of another. -/
theorem mem_of_covered {other : Set (Nat × Nat)} {otherLen : Nat}
    (hOther : Buddies other maxOrder otherLen)
    (hSub : ∀ page, Covers other page → Covers family page) (hIn : (order, index) ∈ family)
    (hCovered : ∀ page, page / 2 ^ order = index → Covers other page) :
    (order, index) ∈ other := by
  rcases hOther.exists_block (hBuddies.order_le hIn) hCovered with ⟨d, hLe, hUp⟩
  -- the block of the other family lies in one of this family
  have hUpCovered : ∀ page, page / 2 ^ (order + d) = index / 2 ^ d → Covers family page := by
    intro page hPage
    exact hSub page (covers_of_mem hUp hPage)
  rcases hBuddies.exists_block hLe hUpCovered with ⟨e, _, hAbove⟩
  have hFirst := first_page order index
  have hSame : order = order + d + e := by
    apply hBuddies.single (p := index * 2 ^ order)
    · rw [hFirst]
      exact hIn
    · rw [div_pow_add, div_pow_add, hFirst]
      exact hAbove
  have hZero : d = 0 := by omega
  subst hZero
  simpa using hUp

theorem eq_of_covers {other : Set (Nat × Nat)} (hOther : Buddies other maxOrder len)
    (hCovers : ∀ page, Covers family page ↔ Covers other page) :
    family = other := by
  ext ⟨o, j⟩
  constructor
  · intro hIn
    exact hBuddies.mem_of_covered hOther (fun page => (hCovers page).mpr) hIn
      fun page hPage => (hCovers page).mp (covers_of_mem hIn hPage)
  · intro hIn
    exact hOther.mem_of_covered hBuddies (fun page => (hCovers page).mp) hIn
      fun page hPage => (hCovers page).mpr (covers_of_mem hIn hPage)

end Buddies

-- Walks Over A Range Of Pages

/- The zero bits below the lowest set bit of a 32-bit word. -/
def trailingZeros (word : Nat) : Nat := ((List.range 32).find? word.testBit).getD 32

/- The word is a multiple of the power it ends in. -/
theorem pow_trailingZeros_dvd (word : Nat) : 2 ^ trailingZeros word ∣ word := by
  have hBits : ∀ i, i < trailingZeros word → word.testBit i = false := by
    intro i hi
    unfold trailingZeros at hi
    cases hFind : (List.range 32).find? word.testBit with
    | none =>
      rw [hFind] at hi
      have hAll := List.find?_eq_none.mp hFind i (List.mem_range.mpr hi)
      simpa using hAll
    | some k =>
      rw [hFind] at hi
      have hBefore := (List.find?_range_eq_some.mp hFind).2.2 i hi
      simpa using hBefore
  apply Nat.dvd_of_mod_eq_zero
  apply Nat.eq_of_testBit_eq
  intro i
  rw [Nat.testBit_mod_two_pow, Nat.zero_testBit]
  by_cases hi : i < trailingZeros word
  · simp [hBits i hi]
  · simp [hi]

section Walks

variable {σ : Type} (op : σ → Nat → Nat → Option σ)

/-
  From an arbitrary start, the largest aligned block that fits, as long as it is below the top
  order.
-/
def alignUp (maxOrder limit : Nat) (s : σ) (processed : Nat) : Option (σ × Nat) :=
  if processed < limit then
    let order := trailingZeros processed
    if maxOrder ≤ order ∨ limit < processed + 2 ^ order then
      some (s, processed)
    else do
      let s ← op s (processed / 2 ^ order) order
      alignUp maxOrder limit s (processed + 2 ^ order)
  else
    some (s, processed)
termination_by limit - processed
decreasing_by
  have hPos := Nat.two_pow_pos (trailingZeros processed)
  omega

/- Blocks of one order, as long as they fit. -/
def fillOrder (limit order : Nat) (s : σ) (processed : Nat) : Option (σ × Nat) :=
  if processed + 2 ^ order ≤ limit then do
    let s ← op s (processed / 2 ^ order) order
    fillOrder limit order s (processed + 2 ^ order)
  else
    some (s, processed)
termination_by limit - processed
decreasing_by
  have hPos := Nat.two_pow_pos order
  omega

/- The orders from `order` down to zero. -/
def fillOrders (limit : Nat) : (order : Nat) → σ → Nat → Option (σ × Nat)
  | 0, s, processed => fillOrder op limit 0 s processed
  | order + 1, s, processed => do
    let (s, processed) ← fillOrder op limit (order + 1) s processed
    fillOrders limit order s processed

variable {op} {limit maxOrder : Nat}

/- What one block preserves, the blocks of an order preserve. -/
theorem fillOrder_rule {order : Nat} (Inv : σ → Nat → Prop)
    (hStep : ∀ s p, p + 2 ^ order ≤ limit → Inv s p →
      ∃ s', op s (p / 2 ^ order) order = some s' ∧ Inv s' (p + 2 ^ order))
    (s : σ) (p : Nat) (hInv : Inv s p) :
    ∃ s' p', fillOrder op limit order s p = some (s', p') ∧ Inv s' p' ∧ limit < p' + 2 ^ order := by
  induction hLeft : limit - p using Nat.strongRecOn generalizing s p with
  | ind left ih =>
    rw [fillOrder]
    by_cases hFits : p + 2 ^ order ≤ limit
    · rcases hStep s p hFits hInv with ⟨s', hOp, hInv'⟩
      have hPos := Nat.two_pow_pos order
      rw [if_pos hFits, hOp]
      exact ih _ (by omega) s' _ hInv' rfl
    · rw [if_neg hFits]
      exact ⟨s, p, rfl, hInv, by omega⟩

/-
  An invariant for each order, kept by every block of that order and handed on to the next order.
-/
theorem fillOrders_rule (Inv : Nat → σ → Nat → Prop)
    (hStep : ∀ order s p, order ≤ maxOrder → p + 2 ^ order ≤ limit → Inv order s p →
      ∃ s', op s (p / 2 ^ order) order = some s' ∧ Inv order s' (p + 2 ^ order))
    (hNext : ∀ order s p, order < maxOrder → limit < p + 2 ^ (order + 1) →
      Inv (order + 1) s p → Inv order s p)
    (order : Nat) (hOrder : order ≤ maxOrder) (s : σ) (p : Nat) (hInv : Inv order s p) :
    ∃ s' p', fillOrders op limit order s p = some (s', p') ∧ Inv 0 s' p' ∧ limit ≤ p' := by
  induction order generalizing s p with
  | zero =>
    rcases fillOrder_rule (Inv 0) (fun s p => hStep 0 s p hOrder) s p hInv with
      ⟨s', p', hFill, hInv', hEnd⟩
    exact ⟨s', p', hFill, hInv', by omega⟩
  | succ order ih =>
    rcases fillOrder_rule (Inv (order + 1)) (fun s p => hStep (order + 1) s p hOrder) s p hInv with
      ⟨s', p', hFill, hInv', hEnd⟩
    obtain ⟨t, q, hRest, hInvT, hEndT⟩ :=
      ih (by omega) s' p' (hNext order s' p' (by omega) hEnd hInv')
    refine ⟨t, q, ?_, hInvT, hEndT⟩
    rw [fillOrders, hFill]
    exact hRest

/- Aligning and then filling goes through the whole range in aligned blocks. -/
theorem walk_rule (Inv : σ → Nat → Prop)
    (hStep : ∀ s j o, o ≤ maxOrder → (j + 1) * 2 ^ o ≤ limit → Inv s (j * 2 ^ o) →
      ∃ s', op s j o = some s' ∧ Inv s' ((j + 1) * 2 ^ o))
    (s : σ) (p : Nat) (hp : p ≤ limit) (hInv : Inv s p) :
    ∃ s', (do
        let (s, processed) ← alignUp op maxOrder limit s p
        fillOrders op limit maxOrder s processed) = some (s', limit) ∧ Inv s' limit := by
  have hBlock : ∀ s p o, o ≤ maxOrder → 2 ^ o ∣ p → p + 2 ^ o ≤ limit → Inv s p →
      ∃ s', op s (p / 2 ^ o) o = some s' ∧ Inv s' (p + 2 ^ o) := by
    rintro s p o hOrder ⟨j, rfl⟩ hEnd hInv
    rw [Nat.mul_comm] at hEnd hInv ⊢
    rw [first_page, ← Nat.succ_mul]
    exact hStep s j o hOrder (by rw [Nat.succ_mul]; exact hEnd) hInv
  -- after aligning, every order that fits is aligned
  have hAlign : ∃ s' p', alignUp op maxOrder limit s p = some (s', p') ∧ Inv s' p' ∧ p' ≤ limit ∧
      ∀ o ≤ maxOrder, p' + 2 ^ o ≤ limit → 2 ^ o ∣ p' := by
    induction hLeft : limit - p using Nat.strongRecOn generalizing s p with
    | ind left ih =>
      have hDvd := pow_trailingZeros_dvd p
      rw [alignUp]
      by_cases hBelow : p < limit
      · rw [if_pos hBelow]
        by_cases hStop : maxOrder ≤ trailingZeros p ∨ limit < p + 2 ^ trailingZeros p
        · refine ⟨s, p, if_pos hStop, hInv, hp, ?_⟩
          intro o ho hFits
          have hSmall : o ≤ trailingZeros p := by
            rcases hStop with hTop | hFull
            · omega
            · by_contra hLarge
              have hPow : 2 ^ trailingZeros p ≤ 2 ^ o := Nat.pow_le_pow_right (by decide) (by omega)
              omega
          exact dvd_trans (pow_dvd_pow 2 hSmall) hDvd
        · have hPos := Nat.two_pow_pos (trailingZeros p)
          push Not at hStop
          obtain ⟨s', hOp, hInv'⟩ :=
            hBlock s p _ (by omega) hDvd (by omega) hInv
          obtain ⟨t, q, hRest, hOthers⟩ :=
            ih _ (by omega) s' _ (by omega) hInv' rfl
          refine ⟨t, q, ?_, hOthers⟩
          simp only
          rw [if_neg (by omega), hOp]
          exact hRest
      · rw [if_neg hBelow]
        refine ⟨s, p, rfl, hInv, hp, ?_⟩
        intro o ho hFits
        have hPos := Nat.two_pow_pos o
        omega
  rcases hAlign with ⟨s₁, p₁, hAligned, hInv₁, hLe₁, hDvd₁⟩
  have hFilled : ∃ t q, fillOrders op limit maxOrder s₁ p₁ = some (t, q) ∧
        (Inv t q ∧ q ≤ limit ∧ ∀ o ≤ 0, q + 2 ^ o ≤ limit → 2 ^ o ∣ q) ∧
        limit ≤ q := by
    refine fillOrders_rule (fun order s p => Inv s p ∧ p ≤ limit ∧
        ∀ o ≤ order, p + 2 ^ o ≤ limit → 2 ^ o ∣ p)
      ?_ ?_ maxOrder le_rfl s₁ p₁ ⟨hInv₁, hLe₁, hDvd₁⟩
    · rintro order s p hOrder hFits ⟨hInv, -, hDvd⟩
      have hSelf := hDvd order le_rfl hFits
      rcases hBlock s p order hOrder hSelf hFits hInv with ⟨s', hOp, hInv'⟩
      refine ⟨s', hOp, hInv', hFits, ?_⟩
      intro o ho _
      have hPow : 2 ^ o ∣ 2 ^ order := pow_dvd_pow 2 ho
      exact Nat.dvd_add (dvd_trans hPow hSelf) hPow
    · rintro order s p _ _ ⟨hInv, hLe, hDvd⟩
      exact ⟨hInv, hLe, fun o ho hFits => hDvd o (by omega) hFits⟩
  rcases hFilled with ⟨t, q, hFill, ⟨hInvT, hLeT, -⟩, hEnd⟩
  have hq : q = limit := by omega
  subst hq
  refine ⟨t, ?_, hInvT⟩
  rw [hAligned]
  exact hFill

end Walks

end Redbx
