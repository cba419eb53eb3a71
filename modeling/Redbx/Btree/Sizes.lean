import Redbx.Btree.Mutator

/-
  Bounds on the pages of a tree, and what the page format can still encode under them.

  `Tree.Sizes` bounds the pairs and bytes of every leaf, the keys and bytes of every branch, and the
  length of every key.

  Key theorems include:
    * `Format.branchEncodable_of_sublist`, `Format.insertEncodable_of_room`
-/

namespace Redbx

open List

namespace Format

variable {K V : Type} (fmt : Format K V)

-- Bytes of Lists

@[simp]
theorem kvBytes_nil : fmt.kvBytes ([] : List (K × V)) = 0 := rfl

@[simp]
theorem kvBytes_cons (p : K × V) (pairs : List (K × V)) :
    fmt.kvBytes (p :: pairs) = fmt.pairLen p + fmt.kvBytes pairs := by
  simp [kvBytes]

@[simp]
theorem kvBytes_append (a b : List (K × V)) :
    fmt.kvBytes (a ++ b) = fmt.kvBytes a + fmt.kvBytes b := by
  simp [kvBytes]

@[simp]
theorem keyBytes_append (a b : List K) :
    fmt.keyBytes (a ++ b) = fmt.keyBytes a + fmt.keyBytes b := by
  simp [keyBytes]

@[simp]
theorem keyBytes_cons (k : K) (keys : List K) :
    fmt.keyBytes (k :: keys) = fmt.keyLen k + fmt.keyBytes keys := by
  simp [keyBytes]

theorem leafBytes_append (a b : List (K × V)) :
    fmt.leafBytes (a ++ b) + 4 = fmt.leafBytes a + fmt.leafBytes b := by
  simp only [leafBytes, kvBytes_append, length_append, Nat.mul_add]
  omega

/- One more pair costs its bytes and its offsets. -/
theorem leafBytes_cons (p : K × V) (pairs : List (K × V)) :
    fmt.leafBytes (p :: pairs) = fmt.leafBytes pairs + fmt.pointerBytes + fmt.pairLen p := by
  simp only [leafBytes, kvBytes_cons, length_cons, Nat.mul_add, Nat.mul_one]
  omega

theorem leafBytes_middle (a b : List (K × V)) (p : K × V) :
    fmt.leafBytes (a ++ [p] ++ b) = fmt.leafBytes (a ++ b) + fmt.pointerBytes + fmt.pairLen p := by
  have hLeft := fmt.leafBytes_append a (p :: b)
  have hRight := fmt.leafBytes_append a b
  have hCons := fmt.leafBytes_cons p b
  have hList : a ++ [p] ++ b = a ++ p :: b := by simp
  rw [hList]
  omega

theorem leafBytes_le_of_sublist {a b : List (K × V)} (hSub : a.Sublist b) :
    fmt.leafBytes a ≤ fmt.leafBytes b := by
  induction hSub with
  | slnil => exact Nat.le_refl _
  | cons p _ ih =>
    rw [leafBytes_cons]
    omega
  | cons_cons p _ ih =>
    rw [leafBytes_cons, leafBytes_cons]
    omega

theorem four_le_leafBytes (pairs : List (K × V)) : 4 ≤ fmt.leafBytes pairs := by
  unfold leafBytes
  omega

theorem length_le_leafBytes
    {pairs : List (K × V)} (hDistinct : pairs.Pairwise fun a b => a.1 ≠ b.1) :
    pairs.length ≤ fmt.leafBytes pairs := by
  rcases hFixed : fmt.fixedKeySize with _ | width
  · have hOffsets : 4 ≤ fmt.pointerBytes := by simp [pointerBytes, hFixed]
    have hMul := Nat.mul_le_mul_right pairs.length hOffsets
    unfold leafBytes
    omega
  · rcases Nat.eq_zero_or_pos width with rfl | hPos
    · -- a leaf has at most one key without bytes
      have hFour := fmt.four_le_leafBytes pairs
      match pairs, hDistinct with
      | [], _ => exact Nat.zero_le _
      | [_], _ => exact le_trans (by simp) hFour
      | a :: b :: _, hDistinct =>
        exact absurd (fmt.eq_of_width_zero hFixed a.1 b.1)
          (rel_of_pairwise_cons hDistinct mem_cons_self)
    · have hBytes : ∀ l : List (K × V), l.length ≤ fmt.kvBytes l := by
        intro l
        induction l with
        | nil => exact Nat.zero_le _
        | cons p =>
          have hLen := fmt.keyLen_eq width hFixed p.1
          rw [kvBytes_cons, length_cons, pairLen]
          omega
      have hPairs := hBytes pairs
      unfold leafBytes
      omega

theorem keysEnd_le_leafBytes (pairs : List (K × V)) : fmt.keysEnd pairs ≤ fmt.leafBytes pairs := by
  have hKeys : fmt.keyBytes (pairs.map Prod.fst) ≤ fmt.kvBytes pairs := by
    induction pairs with
    | nil => exact Nat.le_refl _
    | cons =>
      simp only [map_cons, keyBytes_cons, kvBytes_cons, pairLen]
      omega
  unfold keysEnd leafBytes
  omega

theorem valueEnd_le_leafBytes (pairs : List (K × V)) (i : Nat) :
    fmt.valueEnd pairs i ≤ fmt.leafBytes pairs := by
  have hParts : fmt.keyBytes (pairs.map Prod.fst) + (pairs.map fun p => fmt.valueLen p.2).sum =
        fmt.kvBytes pairs := by
    induction pairs with
    | nil => rfl
    | cons =>
      simp only [map_cons, keyBytes_cons, kvBytes_cons, pairLen, sum_cons]
      omega
  have hTake : ((pairs.take (i + 1)).map fun p => fmt.valueLen p.2).sum ≤
        (pairs.map fun p => fmt.valueLen p.2).sum := by
    have hSplit := congrArg (fun l => (l.map fun p => fmt.valueLen p.2).sum)
      (take_append_drop (i + 1) pairs)
    simp only [map_append, sum_append] at hSplit
    omega
  unfold valueEnd keysEnd leafBytes
  omega

/- Joining two branches saves a header, and needs a key. -/
theorem branchBytes_append (a b : List K) :
    fmt.branchBytes (a ++ b) + 32 = fmt.branchBytes a + fmt.branchBytes b := by
  simp only [branchBytes, keyBytes_append, length_append]
  split <;> omega

/- One more key costs its bytes, a child and an offset. -/
theorem branchBytes_cons_le (k : K) (keys : List K) :
    fmt.branchBytes keys ≤ fmt.branchBytes (k :: keys) ∧ fmt.branchBytes (k :: keys) ≤
        fmt.branchBytes keys + 28 + fmt.keyLen k := by
  simp only [branchBytes, keyBytes_cons, length_cons]
  split <;> omega

theorem branchBytes_le_of_sublist {a b : List K} (hSub : a.Sublist b) :
    fmt.branchBytes a ≤ fmt.branchBytes b := by
  induction hSub with
  | slnil => exact Nat.le_refl _
  | cons k _ ih => exact le_trans ih (fmt.branchBytes_cons_le k _).1
  | @cons_cons a b k _ ih =>
    simp only [branchBytes, keyBytes_cons, length_cons] at ih ⊢
    split at ih <;> simp_all <;> omega

theorem length_le_branchBytes (keys : List K) : 24 * keys.length ≤ fmt.branchBytes keys := by
  unfold branchBytes
  omega

-- Encodable Nodes

theorem requiredOrder_le_max {size : Nat} (hSize : size < offsetLimit) :
    requiredOrder size ≤ maxPageOrder := by
  refine requiredOrder_le size maxPageOrder ?_
  have hLimit : offsetLimit = pageBytes maxPageOrder := by decide
  omega

/- A leaf within the limits can be built from any part. -/
theorem leafEncodable_of_sublist
    {a b : List (K × V)} (hSub : a.Sublist b) (hNe : a ≠ []) (hCount : b.length ≤ maxCount)
    (hBytes : fmt.leafBytes b < offsetLimit) :
    fmt.leafEncodable a = true := by
  have hLength := hSub.length_le
  have hLess := fmt.leafBytes_le_of_sublist hSub
  have hKeys := fmt.keysEnd_le_leafBytes a
  have hOrder := requiredOrder_le_max (show fmt.leafBytes a < offsetLimit by omega)
  simp only [leafEncodable, offsetsFit, Bool.and_eq_true,
    Bool.or_eq_true, decide_eq_true_eq, Bool.not_eq_true', isEmpty_eq_false_iff]
  exact ⟨⟨hNe, ⟨by omega, Or.inr (by omega)⟩, Or.inr (by omega)⟩, hOrder⟩

/- A leaf within the limits can be edited in place. -/
theorem insertEncodable_of_room {pairs : List (K × V)} (i : Nat) (hCount : pairs.length ≤ maxCount)
    (hBytes : fmt.leafBytes pairs < offsetLimit) :
    fmt.insertEncodable pairs i = true := by
  have hKeys := fmt.keysEnd_le_leafBytes pairs
  have hValue := fmt.valueEnd_le_leafBytes pairs i
  simp only [insertEncodable, offsetsFit, Bool.and_eq_true, Bool.or_eq_true, decide_eq_true_eq]
  exact ⟨⟨⟨hCount, Or.inr (by omega)⟩, Or.inr hBytes⟩, by omega⟩

/- A branch within the limits can be built from any part. -/
theorem branchEncodable_of_sublist
    {a b : List K} (hSub : a.Sublist b) (hNe : a ≠ []) (hCount : b.length ≤ maxCount)
    (hBytes : fmt.branchBytes b < offsetLimit) :
    fmt.branchEncodable a = true := by
  have hLength := hSub.length_le
  have hLess := fmt.branchBytes_le_of_sublist hSub
  have hOrder := requiredOrder_le_max (show fmt.branchBytes a < offsetLimit by omega)
  simp only [branchEncodable, Bool.and_eq_true,
    Bool.or_eq_true, decide_eq_true_eq, Bool.not_eq_true', isEmpty_eq_false_iff]
  exact ⟨⟨⟨hNe, by omega⟩, Or.inr (by omega)⟩, hOrder⟩

end Format

-- Bounded Trees

/-
  Bounds on the pages of a tree: pairs and bytes of a leaf, keys and bytes of a branch, and bytes of
  a key.
-/
structure Bounds where
  pairs : Nat
  leafBytes : Nat
  keys : Nat
  branchBytes : Nat
  keyLen : Nat

/- Every page of the tree keeps the bounds. -/
def Tree.Sizes {P K V : Type} (fmt : Format K V) (bounds : Bounds) : (n : Nat) → Tree P K V n → Prop
  | 0, leaf =>
    (Leaf.pairs leaf).length ≤ bounds.pairs ∧ fmt.leafBytes (Leaf.pairs leaf) ≤ bounds.leafBytes ∧
      ∀ p ∈ Leaf.pairs leaf, fmt.keyLen p.1 ≤ bounds.keyLen
  | n + 1, branch =>
    (Branch.keys branch).length ≤ bounds.keys ∧ fmt.branchBytes (Branch.keys branch) ≤
        bounds.branchBytes ∧
      (∀ k ∈ Branch.keys branch, fmt.keyLen k ≤ bounds.keyLen) ∧
      ∀ c ∈ Branch.children branch, Sizes fmt bounds n c.1

end Redbx
