import Mathlib.Order.Compare
import Mathlib.Order.Lattice

/-
  Binary search over a sorted list of keys.

  The loop halves the range `[lo, hi)` and stops at the first key that compares equal. Nothing here
  depends on what the keys belong to.

  Key theorems include:
    * `search_bounds`, `exists_search_eq`
-/

namespace Redbx

open List Option

-- The Loop

/-
  One binary search. `order i` is the order of the query against entry `i`. The result is a position
  and whether the entry there is the query.
-/
def bisect (order : Nat → Ordering) : Nat → Nat → Nat → Nat × Bool
  | 0, lo, _ => (lo, false)
  | fuel + 1, lo, hi =>
    if lo < hi then
      let mid := (lo + hi) / 2
      match order mid with
      | .lt => bisect order fuel lo mid
      | .eq => (mid, true)
      | .gt => bisect order fuel (mid + 1) hi
    else
      (lo, false)

/-
  The loop finds `m` when entries before `m` are below the query, `m` is not, and entries after `m`
  are above it.
-/
theorem bisect_eq (order : Nat → Ordering) (m n : Nat) (hBelow : ∀ i, i < m → order i = .gt)
    (hAt : m < n → order m ≠ .gt) (hAbove : ∀ i, m < i → i < n → order i = .lt) (fuel lo hi : Nat)
    (hFuel : hi < lo + fuel) (hLo : lo ≤ m) (hHi : m ≤ hi) (hBound : hi ≤ n)
    (hFound : m < n → order m = .eq → m < hi) :
    bisect order fuel lo hi = (m, decide (m < n ∧ order m = .eq)) := by
  induction fuel generalizing lo hi with
  | zero => omega
  | succ fuel ih =>
    unfold bisect
    by_cases hRange : lo < hi
    · simp only [hRange, if_true]
      have hMid : lo ≤ (lo + hi) / 2 ∧ (lo + hi) / 2 < hi := by omega
      cases hOrder : order ((lo + hi) / 2) with
      | lt =>
        have hLe : m ≤ (lo + hi) / 2 := by
          by_contra hGt
          rw [hBelow _ (by omega)] at hOrder
          cases hOrder
        refine ih lo _ (by omega) hLo hLe (by omega) ?_
        intro _ hEq
        rcases Nat.lt_or_eq_of_le hLe with hLt | hSame
        · exact hLt
        · rw [← hSame, hEq] at hOrder
          cases hOrder
      | eq =>
        have hSame : m = (lo + hi) / 2 := by
          rcases Nat.lt_trichotomy m ((lo + hi) / 2) with hLt | hEq | hGt
          · rw [hAbove _ hLt (by omega)] at hOrder
            cases hOrder
          · exact hEq
          · rw [hBelow _ hGt] at hOrder
            cases hOrder
        have hIn : m < n ∧ order m = .eq := ⟨by omega, by rw [hSame]; exact hOrder⟩
        simp only [← hSame, hIn, and_self, decide_true]
      | gt =>
        have hLt : (lo + hi) / 2 < m := by
          by_contra hGe
          rcases Nat.lt_or_eq_of_le (Nat.le_of_not_lt hGe) with hLt | hSame
          · rw [hAbove _ hLt (by omega)] at hOrder
            cases hOrder
          · rw [← hSame] at hOrder
            exact hAt (by omega) hOrder
        exact ih _ hi (by omega) hLt hHi hBound hFound
    · have hSame : lo = m := by omega
      have hNone : ¬(m < n ∧ order m = .eq) := by
        rintro ⟨hIn, hEq⟩
        have hLt := hFound hIn hEq
        omega
      rw [if_neg hRange, hSame, decide_eq_false hNone]

-- Searching a List

/- Binary search for a query in a list of keys. -/
def search {K : Type} [Ord K] (keys : List K) (query : K) : Nat × Bool :=
  bisect (fun i => (keys[i]?).elim .lt (compare query)) (keys.length + 1) 0 keys.length

section Bounds

variable {K : Type} [Ord K] {keys : List K} {query : K} {m : Nat}

/- A search ends at `m` when the keys before it are below the query and those behind it above. -/
theorem search_eq (hLe : m ≤ keys.length)
    (hKeys : ∀ i key, keys[i]? = some key → (i < m ↔ compare query key = .gt) ∧
      (m < i → compare query key = .lt)) :
    search keys query = (m, decide ((keys[m]?).map (compare query) = some .eq)) := by
  have hOrder (i : Nat) (hi : i < keys.length) :
      (keys[i]?).elim .lt (compare query) = compare query keys[i] := by
    rw [getElem?_eq_getElem hi, elim_some]
  have hLoop := bisect_eq (fun i => (keys[i]?).elim .lt (compare query)) m keys.length
    (fun i hi => by
      rw [hOrder i (by omega)]
      exact (hKeys i _ (getElem?_eq_getElem (by omega))).1.mp hi)
    (fun hm => by
      rw [hOrder m hm]
      exact fun hGt => Nat.lt_irrefl m ((hKeys m _ (getElem?_eq_getElem hm)).1.mpr hGt))
    (fun i hi hn => by
      rw [hOrder i hn]
      exact (hKeys i _ (getElem?_eq_getElem hn)).2 hi)
    (keys.length + 1) 0 keys.length (by omega) (by omega) hLe (Nat.le_refl _) (fun hm _ => hm)
  rw [search, hLoop]
  congr 2
  by_cases hm : m < keys.length
  · simp [hm]
  · simp [hm]

/- Where a search in sorted keys ends, for any order in which two keys may be equal. -/
theorem search_bounds [Std.TransOrd K] (query : K) (hSorted : keys.Pairwise (compare · · = .lt)) :
    (search keys query).1 ≤ keys.length ∧
      (∀ i key, keys[i]? = some key → (i < (search keys query).1 ↔ compare query key = .gt)) ∧
      ((search keys query).2 = true ↔
        (keys[(search keys query).1]?).map (compare query) = some .eq) := by
  have hBound : ∃ m ≤ keys.length, ∀ i key, keys[i]? = some key →
      (i < m ↔ compare query key = .gt) ∧ (m < i → compare query key = .lt) := by
    induction keys with
    | nil => exact ⟨0, Nat.le_refl 0, by simp⟩
    | cons k rest ih =>
      rcases pairwise_cons.mp hSorted with ⟨hHead, hRest⟩
      by_cases hGt : compare query k = .gt
      · rcases ih hRest with ⟨m, hLe, hKeys⟩
        refine ⟨m + 1, Nat.succ_le_succ hLe, fun i key hKey => ?_⟩
        cases i with
        | zero =>
          cases hKey
          simp [hGt]
        | succ i => simpa using hKeys i key hKey
      · refine ⟨0, Nat.zero_le _, fun i key hKey => ?_⟩
        cases i with
        | zero =>
          cases hKey
          simp [hGt]
        | succ i =>
          have hLt : compare query key = .lt := by
            refine Std.TransCmp.lt_of_isLE_of_lt ?_ (hHead key (mem_of_getElem? hKey))
            exact Ordering.isLE_iff_ne_gt.mpr hGt
          simp [hLt]
  rcases hBound with ⟨m, hLe, hKeys⟩
  rw [search_eq hLe hKeys]
  exact ⟨hLe, fun i key hKey => (hKeys i key hKey).1, decide_eq_true_iff⟩

end Bounds

variable {K : Type} [LinearOrder K]

/- A search ends behind the keys below the query; it succeeds when the query is the next key. -/
theorem search_append (below above : List K) (query : K) (hBelow : ∀ k ∈ below, k < query)
    (hAbove : ∀ k ∈ above, query ≤ k) (hSorted : above.Pairwise (· < ·)) :
    search (below ++ above) query = (below.length, decide (above.head? = some query)) := by
  rw [search_eq (m := below.length) (by simp)]
  · rw [getElem?_append_right (Nat.le_refl _), Nat.sub_self, ← head?_eq_getElem?]
    cases above.head? <;> simp [eq_comm (a := query)]
  · intro i key hKey
    rw [compare_gt_iff_gt, compare_lt_iff_lt]
    by_cases hi : i < below.length
    · rw [getElem?_append_left hi] at hKey
      exact ⟨by simpa [hi] using hBelow key (mem_of_getElem? hKey), by omega⟩
    · rw [getElem?_append_right (by omega)] at hKey
      refine ⟨by simpa [hi] using hAbove key (mem_of_getElem? hKey), fun hLt => ?_⟩
      cases above with
      | nil => cases hKey
      | cons k rest =>
        rw [getElem?_cons, if_neg (by omega)] at hKey
        exact lt_of_le_of_lt (hAbove k mem_cons_self)
          ((pairwise_cons.mp hSorted).1 key (mem_of_getElem? hKey))

/- Sorted keys split around every query. -/
theorem exists_search_eq (keys : List K) (query : K) (hSorted : keys.Pairwise (· < ·)) :
    ∃ below above, keys = below ++ above ∧ (∀ k ∈ below, k < query) ∧ (∀ k ∈ above, query ≤ k) ∧
      search keys query = (below.length, decide (above.head? = some query)) := by
  have hSplit : ∃ below above, keys = below ++ above ∧ (∀ k ∈ below, k < query) ∧
        (∀ k ∈ above, query ≤ k) := by
    induction keys with
    | nil => exact ⟨[], [], by simp⟩
    | cons k rest ih =>
      rcases pairwise_cons.mp hSorted with ⟨hHead, hRest⟩
      by_cases hLt : k < query
      · rcases ih hRest with ⟨below, above, rfl, hB, hA⟩
        exact ⟨k :: below, above, rfl, forall_mem_cons.mpr ⟨hLt, hB⟩, hA⟩
      · refine ⟨[], k :: rest, rfl, by simp, ?_⟩
        refine forall_mem_cons.mpr ⟨not_lt.mp hLt, fun x hx => ?_⟩
        exact le_of_lt (lt_of_le_of_lt (not_lt.mp hLt) (hHead x hx))
  rcases hSplit with ⟨below, above, rfl, hB, hA⟩
  exact ⟨below, above, rfl, hB, hA, search_append below above query hB hA
      (pairwise_append.mp hSorted).2.1⟩

theorem search_fst {keys : List K} (query : K) (hSorted : keys.Pairwise (· < ·)) :
    (search keys query).1 = keys.countP fun k => decide (k < query) := by
  rcases exists_search_eq keys query hSorted with ⟨below, above, rfl, hBelow, hAbove, hSearch⟩
  have hAll : below.countP (fun k => decide (k < query)) = below.length := by
    rw [countP_eq_length]
    intro k hk
    exact decide_eq_true (hBelow k hk)
  have hNone : above.countP (fun k => decide (k < query)) = 0 := by
    rw [countP_eq_zero]
    intro k hk
    simpa using hAbove k hk
  rw [hSearch, countP_append, hAll, hNone]
  rfl

/- A higher query ends further to the right. -/
theorem search_mono
    {keys : List K} {query query' : K} (hSorted : keys.Pairwise (· < ·)) (hLe : query ≤ query') :
    (search keys query).1 ≤ (search keys query').1 := by
  rw [search_fst query hSorted, search_fst query' hSorted]
  refine countP_mono_left ?_
  intro k _ hk
  exact decide_eq_true (lt_of_lt_of_le (of_decide_eq_true hk) hLe)

end Redbx
