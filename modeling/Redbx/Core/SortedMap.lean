import Mathlib.Order.Lattice
import Mathlib.Data.List.Basic

/-
  Finite maps as strictly sorted association lists.

  `SortedMap` is the abstract object an ordered table stands for. The list operations it is made of
  are local: applied to `a ++ m ++ b`, with `a` below the key and `b` above it, they only touch `m`.

  Key theorems include:
    * `SortedMap.length_insert`, `SortedMap.length_erase`
-/

namespace Redbx

open List

variable {K V : Type} [LinearOrder K]

-- Sorted Association Lists

/- The keys of the list strictly increase. -/
def Sorted (entries : List (K × V)) : Prop := entries.Pairwise (fun x y => x.1 < y.1)

/- Every key of the list is below `key`. -/
def Below (key : K) (entries : List (K × V)) : Prop := ∀ e ∈ entries, e.1 < key

/- Every key of the list is above `key`. -/
def Above (key : K) (entries : List (K × V)) : Prop := ∀ e ∈ entries, key < e.1

/- Bind `key`, replacing the entry it had. -/
def insertEntry (key : K) (value : V) (entries : List (K × V)) : List (K × V) :=
  entries.filter (fun e => e.1 < key) ++ (key, value) :: entries.filter (fun e => key < e.1)

/- Drop the entry of `key`. -/
def eraseEntry (key : K) (entries : List (K × V)) : List (K × V) :=
  entries.filter (fun e => e.1 ≠ key)

theorem Below.filters {key : K} {entries : List (K × V)} (hBelow : Below key entries) :
    entries.filter (fun e => e.1 < key) = entries ∧ entries.filter (fun e => key < e.1) = [] ∧
      entries.filter (fun e => e.1 ≠ key) = entries ∧
      entries.lookup key = none := by
  refine ⟨?_, ?_, ?_, ?_⟩
  · exact filter_eq_self.mpr
      fun e he => by simpa using hBelow e he
  · exact filter_eq_nil_iff.mpr
      fun e he => by simpa using le_of_lt (hBelow e he)
  · exact filter_eq_self.mpr
      fun e he => by simpa using ne_of_lt (hBelow e he)
  · exact lookup_eq_none_iff.mpr
      fun e he => by simpa using (ne_of_lt (hBelow e he)).symm

theorem Above.filters {key : K} {entries : List (K × V)} (hAbove : Above key entries) :
    entries.filter (fun e => e.1 < key) = [] ∧ entries.filter (fun e => key < e.1) = entries ∧
      entries.filter (fun e => e.1 ≠ key) = entries ∧
      entries.lookup key = none := by
  refine ⟨?_, ?_, ?_, ?_⟩
  · exact filter_eq_nil_iff.mpr
      fun e he => by simpa using le_of_lt (hAbove e he)
  · exact filter_eq_self.mpr
      fun e he => by simpa using hAbove e he
  · exact filter_eq_self.mpr
      fun e he => by simpa using ne_of_gt (hAbove e he)
  · exact lookup_eq_none_iff.mpr
      fun e he => by simpa using (ne_of_gt (hAbove e he)).symm

section Middle

variable {key : K} {a b : List (K × V)} (hBelow : Below key a) (hAbove : Above key b)
include hBelow hAbove

/- A lookup only sees the part around its key. -/
theorem lookup_middle (m : List (K × V)) : (a ++ m ++ b).lookup key = m.lookup key := by
  rw [lookup_append, lookup_append, hBelow.filters.2.2.2, hAbove.filters.2.2.2]
  simp

/- An insertion only changes the part around its key. -/
theorem insertEntry_middle (value : V) (m : List (K × V)) :
    insertEntry key value (a ++ m ++ b) = a ++ insertEntry key value m ++ b := by
  simp only [insertEntry, filter_append, hBelow.filters.1, hBelow.filters.2.1, hAbove.filters.1,
    hAbove.filters.2.1, append_nil, nil_append, append_assoc, cons_append]

/- A removal only changes the part around its key. -/
theorem eraseEntry_middle (m : List (K × V)) :
    eraseEntry key (a ++ m ++ b) = a ++ eraseEntry key m ++ b := by
  simp only [eraseEntry, filter_append, hBelow.filters.2.2.1, hAbove.filters.2.2.1]

end Middle

theorem insertEntry_singleton (key : K) (value old : V) :
    insertEntry key value [(key, old)] = [(key, value)] := by
  simp [insertEntry]

theorem insertEntry_nil (key : K) (value : V) : insertEntry key value [] = [(key, value)] := by
  simp [insertEntry]

theorem eraseEntry_singleton (key : K) (old : V) : eraseEntry key [(key, old)] = [] := by
  simp [eraseEntry]

variable {entries : List (K × V)}

/-
  A sorted list falls apart into the entries below a key, the entry of the key, and the entries
  above it.
-/
theorem Sorted.around (hSorted : Sorted entries) (key : K) :
    ∃ a b, Below key a ∧ Above key b ∧ ((entries.lookup key = none ∧ entries = a ++ [] ++ b) ∨
        ∃ v, entries.lookup key = some v ∧ entries = a ++ [(key, v)] ++ b) := by
  induction entries with
  | nil => exact ⟨[], [], by simp [Below, Above]⟩
  | cons e rest ih =>
    rcases pairwise_cons.mp hSorted with ⟨hHead, hRest⟩
    rcases lt_trichotomy e.1 key with hLt | hEq | hGt
    · rcases ih hRest with ⟨a, b, hA, hB, hCase⟩
      have hBelow : Below key (e :: a) := forall_mem_cons.mpr ⟨hLt, hA⟩
      refine ⟨e :: a, b, hBelow, hB, ?_⟩
      rcases hCase with ⟨hNone, hList⟩ | ⟨v, hSome, hList⟩
      · refine Or.inl ⟨?_, by simp [hList]⟩
        have hMid := lookup_middle hBelow hB []
        rwa [show e :: rest = e :: a ++ [] ++ b by simp [hList]]
      · refine Or.inr ⟨v, ?_, by simp [hList]⟩
        have hMid := lookup_middle hBelow hB [(key, v)]
        rw [show e :: rest = e :: a ++ [(key, v)] ++ b by simp [hList], hMid]
        simp
    · refine ⟨[], rest, by simp [Below], ?_,
        Or.inr ⟨e.2, ?_, ?_⟩⟩
      · intro x hx
        rw [← hEq]
        exact hHead x hx
      · rw [← hEq]
        exact lookup_cons_self
      · rw [← hEq]
        rfl
    · have hAbove : Above key (e :: rest) := by
        refine forall_mem_cons.mpr ⟨hGt, ?_⟩
        intro x hx
        exact lt_trans hGt (hHead x hx)
      exact ⟨[], e :: rest, by simp [Below], hAbove, Or.inl ⟨hAbove.filters.2.2.2, by simp⟩⟩

theorem insertEntry_insertEntry
    {l : List (K × V)} (hSorted : Sorted l) (key : K) (first second : V) :
    insertEntry key second (insertEntry key first l) = insertEntry key second l := by
  rcases hSorted.around key with ⟨a, b, hA, hB, ⟨_, rfl⟩ | ⟨v, _, rfl⟩⟩
  · simp only [insertEntry_middle hA hB, insertEntry_nil, insertEntry_singleton]
  · simp only [insertEntry_middle hA hB, insertEntry_singleton]

theorem Sorted.insertEntry (hSorted : Sorted entries) (key : K) (value : V) :
    Sorted (insertEntry key value entries) := by
  refine pairwise_append.mpr ⟨hSorted.filter _, ?_, ?_⟩
  · refine pairwise_cons.mpr ⟨?_, hSorted.filter _⟩
    intro e he
    simpa using (mem_filter.mp he).2
  · intro x hx y hy
    have hLow : x.1 < key := by simpa using (mem_filter.mp hx).2
    rcases mem_cons.mp hy with rfl | hy
    · exact hLow
    · have hHigh : key < y.1 := by simpa using (mem_filter.mp hy).2
      exact lt_trans hLow hHigh

theorem Sorted.eraseEntry (hSorted : Sorted entries) (key : K) : Sorted (eraseEntry key entries) :=
  hSorted.filter _

/- How an insertion changes the number of entries. -/
theorem length_insertEntry (hSorted : Sorted entries) (key : K) (value : V) :
    (insertEntry key value entries).length = entries.length +
        (if (entries.lookup key).isSome then 0 else 1) := by
  rcases hSorted.around key with ⟨a, b, hA, hB, ⟨hNone, hList⟩ | ⟨v, hSome, hList⟩⟩
  · rw [hNone, hList, insertEntry_middle hA hB, insertEntry_nil]
    simp
    omega
  · rw [hSome, hList, insertEntry_middle hA hB, insertEntry_singleton]
    simp

/- How a removal changes the number of entries. -/
theorem length_eraseEntry (hSorted : Sorted entries) (key : K) :
    (eraseEntry key entries).length = entries.length -
        (if (entries.lookup key).isSome then 1 else 0) := by
  rcases hSorted.around key with ⟨a, b, hA, hB, ⟨hNone, hList⟩ | ⟨v, hSome, hList⟩⟩
  · rw [hNone, hList, eraseEntry_middle hA hB]
    simp [eraseEntry]
  · rw [hSome, hList, eraseEntry_middle hA hB, eraseEntry_singleton]
    simp

theorem eraseEntry_of_lookup_none {key : K} (hNone : entries.lookup key = none) :
    eraseEntry key entries = entries := by
  refine filter_eq_self.mpr ?_
  intro e he
  have hNe : key ≠ e.1 := by simpa using lookup_eq_none_iff.mp hNone e he
  simpa using hNe.symm

-- The Abstract Map

/- A finite map, with its entries in key order. -/
structure SortedMap (K V : Type) [LinearOrder K] where
  entries : List (K × V)
  sorted : Sorted entries

namespace SortedMap

/- The map without entries. -/
def empty : SortedMap K V := ⟨[], List.Pairwise.nil⟩

/- What the map binds a key to. -/
def get (m : SortedMap K V) (key : K) : Option V := m.entries.lookup key

/- The map with `key` bound to `value`. -/
def insert (m : SortedMap K V) (key : K) (value : V) : SortedMap K V :=
  ⟨insertEntry key value m.entries, m.sorted.insertEntry key value⟩

/- The map without `key`. -/
def erase (m : SortedMap K V) (key : K) : SortedMap K V :=
  ⟨eraseEntry key m.entries, m.sorted.eraseEntry key⟩

/- The number of entries. -/
def length (m : SortedMap K V) : Nat := m.entries.length

/- The entry with the least key. -/
def first (m : SortedMap K V) : Option (K × V) := m.entries.head?

/- The entry with the greatest key. -/
def last (m : SortedMap K V) : Option (K × V) := m.entries.getLast?

theorem get_insert (m : SortedMap K V) (key other : K) (value : V) :
    (m.insert key value).get other = if other = key then some value else m.get other := by
  simp only [get, insert, insertEntry, lookup_append, lookup_cons]
  by_cases hEq : other = key
  · subst hEq
    have hNone : (m.entries.filter (fun e => e.1 < other)).lookup other = none := by
      refine lookup_eq_none_iff.mpr ?_
      intro e he
      have hLt : e.1 < other := by simpa using (mem_filter.mp he).2
      simpa using (ne_of_lt hLt).symm
    simp [hNone]
  · have hBeq : (other == key) = false := by simpa using hEq
    rcases m.sorted.around key with ⟨a, b, hA, hB, ⟨_, hList⟩ | ⟨v, _, hList⟩⟩ <;>
    · simp only [hList, filter_append, hA.filters.1, hA.filters.2.1, hB.filters.1, hB.filters.2.1]
      simp [hEq, hBeq, lookup_append, lookup_cons]

theorem get_erase (m : SortedMap K V) (key other : K) :
    (m.erase key).get other = if other = key then none else m.get other := by
  by_cases hEq : other = key
  · subst hEq
    rw [if_pos rfl]
    refine lookup_eq_none_iff.mpr ?_
    intro e he
    have hNe : e.1 ≠ other := by simpa using (mem_filter.mp he).2
    simpa using hNe.symm
  · rw [if_neg hEq]
    rcases m.sorted.around key with ⟨a, b, hA, hB, ⟨_, hList⟩ | ⟨v, _, hList⟩⟩
    · simp only [get, erase, hList, eraseEntry_middle hA hB]
      rfl
    · have hBeq : (other == key) = false := by simpa using hEq
      simp only [get, erase, hList, eraseEntry_middle hA hB, eraseEntry_singleton]
      simp [lookup_append, lookup_cons, hBeq]

/- The number of entries after an insertion. -/
theorem length_insert (m : SortedMap K V) (key : K) (value : V) :
    (m.insert key value).length = m.length + (if (m.get key).isSome then 0 else 1) :=
  length_insertEntry m.sorted key value

/- The number of entries after a removal. -/
theorem length_erase (m : SortedMap K V) (key : K) :
    (m.erase key).length = m.length - (if (m.get key).isSome then 1 else 0) :=
  length_eraseEntry m.sorted key

end SortedMap

end Redbx
