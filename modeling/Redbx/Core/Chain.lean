import Redbx.Core.SortedMap

/-
  Chains: the children of a search-tree node, separated by the keys of the node.

  A child `c` of a chain lies in a half-open key range `(lo, hi]`, where an absent bound does not
  restrict. What it means for a child to be good in a range is a parameter.

  Key theorems include:
    * `Chain.outside`, `Chain.append_iff`
-/

namespace Redbx

open List

-- Splicing Lists

/- Replace the `width` elements from `i` on. -/
def splice {α : Type} (xs : List α) (i width : Nat) (new : List α) : List α :=
  xs.take i ++ new ++ xs.drop (i + width)

variable {α : Type}

theorem splice_append (a m b new : List α) :
    splice (a ++ m ++ b) a.length m.length new = a ++ new ++ b := by
  have hDrop : (a ++ m ++ b).drop (a.length + m.length) = b := by
    rw [← length_append]
    exact drop_left
  have hTake : (a ++ m ++ b).take a.length = a := by
    rw [append_assoc]
    exact take_left
  rw [splice, hDrop, hTake]

/- The list operations at the end of the first part. -/
theorem insertIdx_middle (a b : List α) (x : α) :
    (a ++ [] ++ b).insertIdx a.length x = a ++ [x] ++ b := by
  have hTail := modifyTailIdx_add (List.cons x) 0 a b
  simp only [append_nil, append_assoc]
  exact hTail

theorem modify_middle (a b : List α) (x : α) (f : α → α) :
    (a ++ [x] ++ b).modify a.length f = a ++ [f x] ++ b := by
  have hTail := modifyTailIdx_add (List.modifyHead f) 0 a (x :: b)
  simp only [append_assoc]
  exact hTail

theorem set_middle (a b : List α) (x y : α) : (a ++ [x] ++ b).set a.length y = a ++ [y] ++ b := by
  simp

theorem eraseIdx_middle (a b : List α) (x : α) : (a ++ [x] ++ b).eraseIdx a.length = a ++ b := by
  rw [append_assoc, eraseIdx_append_of_length_le (Nat.le_refl _)]
  simp

theorem getElem?_middle (a b : List α) (x : α) : (a ++ [x] ++ b)[a.length]? = some x := by
  simp

/- Every list falls apart at a window inside it. -/
theorem exists_window (xs : List α) (i width : Nat) (hIn : i + width ≤ xs.length) :
    ∃ a m b, xs = a ++ m ++ b ∧ a.length = i ∧ m.length = width := by
  refine ⟨xs.take i, (xs.drop i).take width, (xs.drop i).drop width, ?_, ?_, ?_⟩
  · rw [append_assoc, take_append_drop, take_append_drop]
  · simp
    omega
  · simp
    omega

/- An element of a list with what stands around it. -/
theorem exists_middle {xs : List α} {i : Nat} {x : α} (hGet : xs[i]? = some x) :
    ∃ a b, xs = a ++ [x] ++ b ∧ a.length = i := by
  have hIn := (List.getElem?_eq_some_iff.mp hGet).1
  rcases exists_window xs i 1 (by omega) with ⟨a, m, b, hList, hA, hM⟩
  rcases length_eq_one_iff.mp hM with ⟨y, rfl⟩
  rw [hList, ← hA, getElem?_middle] at hGet
  cases hGet
  exact ⟨a, b, hList, hA⟩

-- Chains

variable {K : Type}

/-
  The children fill the range `(lo, hi]`: each is good in the range between its neighbouring keys.
-/
def Chain {C : Type} (Good : Option K → Option K → C → Prop) :
    List K → Option K → List C → Option K → Prop
  | [], lo, cs, hi => ∃ c, cs = [c] ∧ Good lo hi c
  | k :: ks, lo, cs, hi =>
    ∃ c rest, cs = c :: rest ∧ Good lo (some k) c ∧ Chain Good ks (some k) rest hi

/- The bound on the left of what follows the keys `ks`. -/
def lastBound (lo : Option K) (ks : List K) : Option K := ks.getLast?.or lo

/- The bound on the right of what precedes the keys `ks`. -/
def firstBound (ks : List K) (hi : Option K) : Option K := ks.head?.or hi

namespace Chain

variable {C : Type} {Good : Option K → Option K → C → Prop}

@[simp]
theorem nil_singleton (lo hi : Option K) (c : C) : Chain Good [] lo [c] hi ↔ Good lo hi c := by
  simp [Chain]

/- A chain that starts with a child and a key. -/
@[simp]
theorem cons_cons (k : K) (ks : List K) (lo hi : Option K) (c : C) (cs : List C) :
    Chain Good (k :: ks) lo (c :: cs) hi ↔ Good lo (some k) c ∧ Chain Good ks (some k) cs hi := by
  simp [Chain]

variable {lo hi : Option K} {ks : List K} {cs : List C}

theorem length_eq (hChain : Chain Good ks lo cs hi) : cs.length = ks.length + 1 := by
  induction ks generalizing lo cs with
  | nil =>
    rcases hChain with ⟨c, rfl, _⟩
    rfl
  | cons k ks ih =>
    rcases hChain with ⟨c, rest, rfl, _, hRest⟩
    simp [ih hRest]

/- Two chains that meet at a key. -/
theorem append_iff
    {ks ks' : List K} {k : K} {cs cs' : List C} (hLength : cs.length = ks.length + 1) :
    Chain Good (ks ++ k :: ks') lo (cs ++ cs') hi ↔ Chain Good ks lo cs (some k) ∧
        Chain Good ks' (some k) cs' hi := by
  induction ks generalizing lo cs with
  | nil =>
    rcases length_eq_one_iff.mp hLength with ⟨c, rfl⟩
    simp
  | cons j ks ih =>
    cases cs with
    | nil => simp at hLength
    | cons c cs =>
      have hRest : cs.length = ks.length + 1 := by simpa using hLength
      simp [ih hRest, and_assoc]

/- Every child of a chain is good in some range. -/
theorem exists_good (hChain : Chain Good ks lo cs hi) {c : C} (hMem : c ∈ cs) :
    ∃ a b, Good a b c := by
  induction ks generalizing lo cs with
  | nil =>
    rcases hChain with ⟨d, rfl, hGood⟩
    rcases mem_singleton.mp hMem with rfl
    exact ⟨lo, hi, hGood⟩
  | cons k ks ih =>
    rcases hChain with ⟨d, rest, rfl, hGood, hRest⟩
    rcases mem_cons.mp hMem with rfl | hIn
    · exact ⟨lo, some k, hGood⟩
    · exact ih hRest hIn

/-
  A window of a chain is a chain between the keys around it, and any chain over the same range can
  take its place.
-/
theorem window {ka km kb : List K} {ca cm cb : List C} (hA : ca.length = ka.length)
    (hM : cm.length = km.length + 1) (hChain : Chain Good (ka ++ km ++ kb) lo (ca ++ cm ++ cb) hi) :
    Chain Good km (lastBound lo ka) cm (firstBound kb hi) ∧ ∀ km' cm',
        Chain Good km' (lastBound lo ka) cm' (firstBound kb hi) →
        Chain Good (ka ++ km' ++ kb) lo (ca ++ cm' ++ cb) hi := by
  induction ka generalizing lo ca with
  | nil =>
    rcases length_eq_zero_iff.mp hA with rfl
    cases kb with
    | nil =>
      have hLength := hChain.length_eq
      have hNil : cb = [] := by
        refine length_eq_zero_iff.mp ?_
        simp at hLength
        omega
      subst hNil
      simp only [nil_append, append_nil] at hChain ⊢
      exact ⟨hChain, fun km' cm' hNew => hNew⟩
    | cons k kb =>
      simp only [nil_append] at hChain ⊢
      rcases (append_iff hM).mp hChain with ⟨hMid, hRight⟩
      refine ⟨hMid, ?_⟩
      intro km' cm' hNew
      exact (append_iff hNew.length_eq).mpr ⟨hNew, hRight⟩
  | cons k ka ih =>
    cases ca with
    | nil => simp at hA
    | cons c ca =>
      simp only [cons_append, cons_cons] at hChain ⊢
      have hLast : lastBound lo (k :: ka) = lastBound (some k) ka := by
        cases ka <;> simp [lastBound, getLast?_cons]
      rw [hLast]
      rcases ih (by simpa using hA) hChain.2 with ⟨hMid, hNew⟩
      exact ⟨hMid, fun km' cm' h => ⟨hChain.1, hNew km' cm' h⟩⟩

end Chain

-- Key Ranges

variable [LinearOrder K]

/- The key lies in the range `(lo, hi]`. -/
def Within (lo hi : Option K) (key : K) : Prop := (∀ a ∈ lo, a < key) ∧ ∀ b ∈ hi, key ≤ b

/- The range `(lo, hi]` is inside the range `(lo', hi']`. -/
def Inside (lo hi lo' hi' : Option K) : Prop :=
  (∀ a' ∈ lo', ∃ a ∈ lo, a' ≤ a) ∧ ∀ b' ∈ hi', ∃ b ∈ hi, b ≤ b'

variable {key : K}

/- A key of a range lies in every wider range. -/
theorem Within.mono
    {lo hi lo' hi' : Option K} (hKey : Within lo hi key) (hInside : Inside lo hi lo' hi') :
    Within lo' hi' key := by
  refine ⟨?_, ?_⟩
  · intro a' ha'
    rcases hInside.1 a' ha' with ⟨a, ha, hLe⟩
    exact lt_of_le_of_lt hLe (hKey.1 a ha)
  · intro b' hb'
    rcases hInside.2 b' hb' with ⟨b, hb, hLe⟩
    exact le_trans (hKey.2 b hb) hLe

theorem Inside.refl (lo hi : Option K) : Inside lo hi lo hi :=
  ⟨fun a ha => ⟨a, ha, le_refl a⟩, fun b hb => ⟨b, hb, le_refl b⟩⟩

theorem Within.inside_left {lo hi : Option K} (hKey : Within lo hi key) :
    Inside lo (some key) lo hi :=
  ⟨(Inside.refl lo hi).1, fun b hb => ⟨key, rfl, hKey.2 b hb⟩⟩

/- A range that starts at a key at or above its start. -/
theorem Inside.of_lower {lo hi : Option K} (hKey : ∀ a ∈ lo, a ≤ key) :
    Inside (some key) hi lo hi :=
  ⟨fun a ha => ⟨key, rfl, hKey a ha⟩, (Inside.refl lo hi).2⟩

-- Contents

namespace Chain

variable {C : Type} {Good : Option K → Option K → C → Prop}

section Contents

variable {V : Type} (entriesOf : C → List (K × V))
    (hGood : ∀ lo hi c, Good lo hi c → entriesOf c ≠ [] ∧ Sorted (entriesOf c) ∧
          ∀ e ∈ entriesOf c, Within lo hi e.1)
include hGood

theorem contents {ks : List K} {lo hi : Option K} {cs : List C} (hChain : Chain Good ks lo cs hi) :
    cs.flatMap entriesOf ≠ [] ∧ Sorted (cs.flatMap entriesOf) ∧
      ∀ e ∈ cs.flatMap entriesOf, Within lo hi e.1 := by
  induction ks generalizing lo cs with
  | nil =>
    rcases hChain with ⟨c, rfl, hC⟩
    simpa using hGood lo hi c hC
  | cons k ks ih =>
    rcases hChain with ⟨c, rest, rfl, hC, hRest⟩
    rcases hGood lo (some k) c hC with ⟨hNe, hSort, hIn⟩
    rcases ih hRest with ⟨hNe', hSort', hIn'⟩
    rcases exists_mem_of_ne_nil _ hNe with ⟨e, he⟩
    rcases exists_mem_of_ne_nil _ hNe' with ⟨e', he'⟩
    -- the key lies strictly inside the range
    have hKey : Within lo hi k := by
      refine ⟨fun a ha => ?_, fun b hb => ?_⟩
      · exact lt_of_lt_of_le ((hIn e he).1 a ha) ((hIn e he).2 k rfl)
      · exact le_trans (le_of_lt ((hIn' e' he').1 k rfl)) ((hIn' e' he').2 b hb)
    rw [flatMap_cons]
    refine ⟨by simp [hNe], ?_, ?_⟩
    · refine pairwise_append.mpr ⟨hSort, hSort', ?_⟩
      intro x hx y hy
      exact lt_of_le_of_lt ((hIn x hx).2 k rfl) ((hIn' y hy).1 k rfl)
    · intro x hx
      rcases mem_append.mp hx with hx | hx
      · exact (hIn x hx).mono hKey.inside_left
      · exact (hIn' x hx).mono (Inside.of_lower fun a ha => le_of_lt (hKey.1 a ha))

/-
  The entries on the left of a window are at or below the key before it, those on the right above
  the key after it.
-/
theorem outside
    {ka km kb : List K} {lo hi : Option K} {ca cm cb : List C} (hA : ca.length = ka.length)
    (hM : cm.length = km.length + 1) (hChain : Chain Good (ka ++ km ++ kb) lo (ca ++ cm ++ cb) hi) :
    (∀ e ∈ ca.flatMap entriesOf, ∃ a ∈ lastBound lo ka, e.1 ≤ a) ∧
      ∀ e ∈ cb.flatMap entriesOf, ∃ b ∈ firstBound kb hi, b < e.1 := by
  refine ⟨?_, ?_⟩
  · rcases eq_nil_or_concat' ka with rfl | ⟨ka', k, rfl⟩
    · rcases length_eq_zero_iff.mp hA with rfl
      simp
    · intro e he
      refine ⟨k, by simp [lastBound], ?_⟩
      have hSplit : Chain Good (ka' ++ k :: (km ++ kb)) lo (ca ++ (cm ++ cb)) hi := by
        simpa using hChain
      have hLeft := ((append_iff (by simpa using hA)).mp hSplit).1
      exact ((contents entriesOf hGood hLeft).2.2 e he).2 k rfl
  · cases kb with
    | nil =>
      have hLength := hChain.length_eq
      have hNil : cb = [] := by
        refine length_eq_zero_iff.mp ?_
        simp at hLength
        omega
      simp [hNil]
    | cons k kb =>
      intro e he
      refine ⟨k, by simp [firstBound], ?_⟩
      have hSplit : Chain Good ((ka ++ km) ++ k :: kb) lo ((ca ++ cm) ++ cb) hi := by
        simpa using hChain
      have hRight := ((append_iff (by simp [hA, hM]; omega)).mp hSplit).2
      exact ((contents entriesOf hGood hRight).2.2 e he).1 k rfl

end Contents

theorem widen
    (hWiden : ∀ lo hi lo' hi' c, Good lo hi c → Inside lo hi lo' hi' → Good lo' hi' c) {ks : List K}
    {lo hi lo' hi' : Option K} {cs : List C} (hChain : Chain Good ks lo cs hi)
    (hInside : Inside lo hi lo' hi') :
    Chain Good ks lo' cs hi' := by
  induction ks generalizing lo lo' cs with
  | nil =>
    rcases hChain with ⟨c, rfl, hC⟩
    exact ⟨c, rfl, hWiden _ _ _ _ c hC hInside⟩
  | cons k ks ih =>
    rcases hChain with ⟨c, rest, rfl, hC, hRest⟩
    refine ⟨c, rest, rfl, ?_, ?_⟩
    · exact hWiden _ _ _ _ c hC ⟨hInside.1, (Inside.refl lo (some k)).2⟩
    · exact ih hRest ⟨(Inside.refl (some k) hi).1, hInside.2⟩

end Chain

end Redbx
