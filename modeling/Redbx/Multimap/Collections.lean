import Redbx.Multimap.Value
import Redbx.Btree.Refinement
import Redbx.Btree.CopyOnWrite

/-
  The values of one key of a multimap table.

  They are a collection: a leaf that is stored inside of the entry of the key while it is small, and
  a tree of their own otherwise. `insertCollection` and `removeCollection` say what becomes of it.
  Both keep it the collection of a sorted set, and turn its pages into those of the new one.

  Key theorems include:
    * `iter_drains`, `insertCollection_spec`, `removeCollection_spec`
    * `insertCollection_turns`, `removeCollection_turns`
-/

namespace Redbx

open Redbx.Tree List Option

------------------------------------------------------------
-- The Collection of a Key
------------------------------------------------------------

/- The key type, the value type and the page allocator. -/
structure MultimapEnv (P K V : Type) [DecidableEq P] where
  keyLen : K → Nat
  fixedKeySize : Option Nat
  keyLen_eq : ∀ width, fixedKeySize = some width → ∀ k, keyLen k = width
  eq_of_width_zero : fixedKeySize = some 0 → ∀ a b : K, a = b
  values : Format V Unit
  alloc : PageAllocator P

/- `MAX_VALUE_LENGTH` and `MAX_PAIR_LENGTH`. -/
def maxValueLength : Nat := 3 * 1024 * 1024 * 1024

def maxPairLength : Nat := 3 * 1024 * 1024 * 1024 + 768 * 1024 * 1024

/- The error of a key or value that is too large. -/
structure ValueTooLarge where
  length : Nat
  deriving DecidableEq

/- What becomes of the collection of a key. -/
inductive CollectionChange (P V : Type) where
  | keep
  | put (collection : DynamicCollection P V)
  | drop

/- The tree of a collection, if it has one. -/
def DynamicCollection.subtree {P V : Type} : DynamicCollection P V → TreeRoot P V Unit
  | .inline _ => none
  | .subtreeV2 root => some root

/- The tree of the values of a key. -/
def subtreeOf {P V : Type} (collection : Option (DynamicCollection P V)) :
    TreeRoot P V Unit :=
  collection.bind DynamicCollection.subtree

/- The tree after the change. -/
def CollectionChange.subtree {P V : Type} (before : TreeRoot P V Unit) :
    CollectionChange P V → TreeRoot P V Unit
  | .keep => before
  | .put collection => collection.subtree
  | .drop => none

namespace MultimapEnv

variable {P K V : Type} [DecidableEq P] (env : MultimapEnv P K V)

/- The tree of the values of one key. -/
def subtrees : BtreeEnv P V Unit := ⟨env.values, env.alloc⟩

/- A type byte, and a leaf or a tree header. -/
def collectionLen : DynamicCollection P V → Nat
  | .inline pairs => 1 + env.values.leafBytes pairs
  | .subtreeV2 _ => 1 + 32

/- The tree of the keys. -/
def table : BtreeEnv P K (DynamicCollection P V) where
  fmt :=
    { keyLen := env.keyLen
      valueLen := env.collectionLen
      fixedKeySize := env.fixedKeySize
      fixedValueSize := none
      keyLen_eq := env.keyLen_eq
      valueLen_eq := fun _ hWidth => by cases hWidth
      eq_of_width_zero := env.eq_of_width_zero }
  alloc := env.alloc

/- The leaf stays inside of the entry. -/
def fitsInline (pairs : List (V × Unit)) : Bool :=
  decide (env.values.leafBytes pairs < pageSize / 2)

variable [LinearOrder V]

/- `LeafAccessor::position` in an inlined leaf. -/
def inlinePosition (pairs : List (V × Unit)) (value : V) : Nat × Bool :=
  Leaf.position (⟨(), pairs⟩ : Leaf Unit V Unit) value

/- A value goes to the tree of a key. -/
def insertSubtree (root : TreeRoot P V Unit) (value : V) (mem : Mem P V Unit) :
    Except Panic (CollectionChange P V × Bool × Mem P V Unit) := do
  let (old, root, mem) ← env.subtrees.insert true root value () mem
  let root ← unwrap root
  return (.put (.subtreeV2 root), old.isSome, mem)

/- The leaf that an inlined collection is copied to. -/
def copiedLeaf (pairs : List (V × Unit)) (mem : Mem P V Unit) : BtreeRoot P V Unit × Mem P V Unit :=
  let (page, mem) := mem.allocate env.alloc
    (requiredOrder (env.values.leafBytes pairs)) (.leaf pairs)
  (⟨0, (⟨page, pairs⟩ : Leaf P V Unit), 0, pairs.length⟩, mem)

/- What `insert` does to the collection of the key. -/
def insertCollection (value : V) (mem : Mem P V Unit) : Option (DynamicCollection P V) →
    Except Panic (CollectionChange P V × Bool × Mem P V Unit)
  | none =>
    if env.fitsInline [(value, ())] then do
      require (env.values.offsetsFit [(value, ())]) .outOfRange
      return (.put (.inline [(value, ())]), false, mem)
    else
      env.insertSubtree none value mem
  | some (.inline pairs) =>
    let (position, found) := inlinePosition pairs value
    if found then
      return (.keep, true, mem)
    else
      let newPairs := pairs.insertIdx position (value, ())
      if env.fitsInline newPairs then do
        require (env.values.offsetsFit newPairs) .outOfRange
        return (.put (.inline newPairs), false, mem)
      else do
        let (root, mem) := env.copiedLeaf pairs mem
        let (change, existed, mem) ← env.insertSubtree (some root) value mem
        require (existed == found) .assertion
        return (change, found, mem)
  | some (.subtreeV2 root) =>
    env.insertSubtree (some root) value mem

/- The tree that a removal leaves is inlined if it is small. -/
def shrinkSubtree (root : TreeRoot P V Unit) (mem : Mem P V Unit) :
    CollectionChange P V × Mem P V Unit :=
  match root with
  | none => (.drop, mem)
  | some ⟨0, leaf, checksum, _⟩ =>
    if env.fitsInline (Leaf.pairs leaf) then
      (.put (.inline (Leaf.pairs leaf)), mem.conditionalFree true (Leaf.page leaf))
    else
      (.put (.subtreeV2 ⟨0, leaf, checksum, (Leaf.pairs leaf).length⟩), mem)
  | some root => (.put (.subtreeV2 root), mem)

/- What `remove` does to the collection of the key. -/
def removeCollection (value : V) (mem : Mem P V Unit) : DynamicCollection P V →
    Except Panic (CollectionChange P V × Bool × Mem P V Unit)
  | .inline pairs =>
    let (position, found) := inlinePosition pairs value
    if found then
      if pairs.length = 1 then
        return (.drop, true, mem)
      else do
        let newPairs := pairs.eraseIdx position
        require (env.values.offsetsFit newPairs) .outOfRange
        return (.put (.inline newPairs), true, mem)
    else
      return (.keep, false, mem)
  | .subtreeV2 root => do
    let (old, root, mem) ← env.subtrees.remove true (some root) value mem
    let (change, mem) := env.shrinkSubtree root mem
    return (change, old.isSome, mem)

end MultimapEnv

/- What the iterator over a collection yields. -/
def MultimapValue.yielded
    {P V : Type}
    [DecidableEq P]
    [Ord V]
    (collection : Option (DynamicCollection P V)) : Except Panic (List V) := do
  let iter ← MultimapValue.iter collection
  iter.drain (iter.len + 1)

------------------------------------------------------------
-- Collections as Sets
------------------------------------------------------------

section Collections

variable {P K V : Type} [LinearOrder V]

/- The collection of a key holds the values, and is not empty. -/
def Collects (collection : DynamicCollection P V) (m : SortedMap V Unit) : Prop :=
  m.entries ≠ [] ∧ match collection with
    | .inline pairs => pairs = m.entries
    | .subtreeV2 root => Represents (some root) m

/- A key without values has no collection. -/
def MayCollect : Option (DynamicCollection P V) → SortedMap V Unit → Prop
  | none, m => m.entries = []
  | some collection, m => Collects collection m

/- What a change makes of the values. -/
def CollectionChange.Leaves (before after : SortedMap V Unit) : CollectionChange P V → Prop
  | .keep => after = before
  | .put collection => Collects collection after
  | .drop => after.entries = []

variable {m : SortedMap V Unit}

theorem Collects.values_eq
    {collection : DynamicCollection P V} (hCollects : Collects collection m) :
    collection.values = m.entries.map Prod.fst ∧ collection.getNumValues = m.length := by
  cases collection with
  | inline pairs =>
    have hPairs : pairs = m.entries := hCollects.2
    rw [DynamicCollection.values, DynamicCollection.getNumValues, hPairs]
    exact ⟨rfl, rfl⟩
  | subtreeV2 root =>
    have hRep : Represents (some root) m := hCollects.2
    rw [DynamicCollection.values, DynamicCollection.getNumValues]
    exact ⟨congrArg (List.map Prod.fst) hRep.2.1, hRep.2.2⟩

/- The iterator over a collection yields its values in order. -/
theorem iter_drains
    [DecidableEq P]
    {collection : Option (DynamicCollection P V)}
    (hCollects : MayCollect collection m)
    (hDistinct : (rootPages (subtreeOf collection)).Nodup) :
    MultimapValue.yielded collection = .ok (m.entries.map Prod.fst) := by
  have hWell : ∀ c, collection = some c → c.WellFormed := by
    rintro c rfl
    cases c with
    | inline pairs =>
      have hPairs : pairs = m.entries := hCollects.2
      subst hPairs
      exact m.sorted
    | subtreeV2 root =>
      have hRep : Represents (some root) m := hCollects.2
      refine ⟨⟨?_, ?_⟩, ?_⟩
      · rintro r ⟨⟩
        exact hRep.1
      · rintro r ⟨⟩
        exact hDistinct
      · rw [hRep.2.1, hRep.2.2]
        rfl
  have hValues : valuesOf collection = m.entries.map Prod.fst := by
    cases collection with
    | none =>
      have hNil : m.entries = [] := hCollects
      rw [hNil]
      rfl
    | some c =>
      have hSome : Collects c m := hCollects
      exact hSome.values_eq.1
  rcases iter_serves hWell with ⟨value, hIter, hServes⟩
  have hDrain := hServes.drain (Nat.le_refl _) (Nat.lt_succ_self _)
  simp only [MultimapValue.yielded, hIter, ok_bind]
  rw [MultimapValue.len, hServes.remaining_eq, hDrain, hValues]

theorem SortedMap.insert_present {value : V} (hPresent : (m.get value).isSome = true) :
    m.insert value () = m := by
  have hEntries : insertEntry value () m.entries = m.entries := by
    rcases m.sorted.around value with ⟨a, b, hA, hB, ⟨hNone, _⟩ | ⟨v, _, hList⟩⟩
    · rw [SortedMap.get, hNone] at hPresent
      cases hPresent
    · rw [hList, insertEntry_middle hA hB, insertEntry_singleton]
  cases m
  simp only [SortedMap.insert, hEntries]

theorem SortedMap.erase_absent {value : V} (hAbsent : m.get value = none) : m.erase value = m := by
  have hEntries : eraseEntry value m.entries = m.entries := by
    rcases m.sorted.around value with ⟨a, b, hA, hB, ⟨_, hList⟩ | ⟨v, hSome, _⟩⟩
    · rw [hList, eraseEntry_middle hA hB]
      rfl
    · rw [SortedMap.get, hSome] at hAbsent
      cases hAbsent
  cases m
  simp only [SortedMap.erase, hEntries]

theorem insert_entries_ne_nil (m : SortedMap V Unit) (value : V) :
    (m.insert value ()).entries ≠ [] := by
  simp [SortedMap.insert, insertEntry]

variable [DecidableEq P] (env : MultimapEnv P K V)

theorem insertSubtree_spec
    {root : TreeRoot P V Unit} (hRep : Represents root m) (value : V) (mem : Mem P V Unit)
    (hRoom : env.subtrees.Roomy root (.insert value ())) :
    ∃ collection mem', env.insertSubtree root value mem =
        .ok (.put collection, (m.get value).isSome, mem') ∧
      Collects collection (m.insert value ()) := by
  rcases insert_spec env.subtrees hRep true value () mem hRoom with ⟨root', mem', hInsert, hRep'⟩
  have hFilled := insert_entries_ne_nil m value
  cases root' with
  | none => exact absurd hRep' hFilled
  | some r =>
    refine ⟨.subtreeV2 r, mem', ?_, hFilled, hRep'⟩
    simp only [MultimapEnv.insertSubtree, hInsert, ok_bind]
    rfl

/- The collection has room for one more value. -/
def MultimapEnv.InsertRoom (value : V) (mem : Mem P V Unit) : Option (DynamicCollection P V) → Prop
  | none =>
    env.values.leafBytes [(value, ())] < Format.offsetLimit
  | some (.inline pairs) =>
    pairs.length < Format.maxCount ∧
      env.subtrees.Roomy (some (env.copiedLeaf pairs mem).1) (.insert value ())
  | some (.subtreeV2 root) =>
    env.subtrees.Roomy (some root) (.insert value ())

/- The collection has room for what a removal leaves. -/
def MultimapEnv.RemoveRoom (value : V) : DynamicCollection P V → Prop
  | .inline pairs =>
    pairs.length ≤ Format.maxCount ∧ env.values.leafBytes pairs < Format.offsetLimit
  | .subtreeV2 root =>
    env.subtrees.Roomy (some root) (.remove value)

omit [LinearOrder V] in
theorem offsetsFit_of_fitsInline
    {pairs : List (V × Unit)} (hFilled : pairs ≠ []) (hCount : pairs.length ≤ Format.maxCount)
    (hBytes : env.values.leafBytes pairs < Format.offsetLimit) :
    env.values.offsetsFit pairs = true := by
  have hEncodable := env.values.leafEncodable_of_sublist
    (List.Sublist.refl pairs) hFilled hCount hBytes
  rw [Format.leafEncodable, Bool.and_eq_true, Bool.and_eq_true] at hEncodable
  exact hEncodable.1.2

omit [LinearOrder V] in
theorem lt_offsetLimit_of_fitsInline
    {pairs : List (V × Unit)} (hFits : env.fitsInline pairs = true) :
    env.values.leafBytes pairs < Format.offsetLimit := by
  have hHalf := of_decide_eq_true hFits
  have hLimit : pageSize / 2 < Format.offsetLimit := by decide
  omega

theorem insertInline_spec (hFilled : m.entries ≠ []) (value : V) (mem : Mem P V Unit)
    (hRoom : env.InsertRoom value mem (some (.inline m.entries))) :
    ∃ change mem', env.insertCollection value mem (some (.inline m.entries)) =
        .ok (change, (m.get value).isSome, mem') ∧
      change.Leaves m (m.insert value ()) := by
  unfold MultimapEnv.insertCollection
  cases hSearch : MultimapEnv.inlinePosition m.entries value with
  | mk position found =>
  have hLeaf := insertPairs_eq (⟨(), m.entries⟩ : Leaf Unit V Unit) value () m.sorted hSearch
  cases found with
  | true =>
    have hPresent : (m.get value).isSome = true := by
      rcases position_cases (⟨(), m.entries⟩ : Leaf Unit V Unit) value m.sorted with
        ⟨a, b, hA, hB, ⟨hPos, _⟩ | ⟨v, _, hList⟩⟩
      · have hBoth := hPos.symm.trans hSearch
        cases congrArg Prod.snd hBoth
      · have hEntries : m.entries = a ++ [(value, v)] ++ b := hList
        rw [SortedMap.get, hEntries, lookup_middle hA hB]
        simp
    refine ⟨.keep, mem, ?_, SortedMap.insert_present hPresent⟩
    simp only [hSearch, if_true, hPresent]
    rfl
  | false =>
    have hAbsent : m.get value = none := hLeaf.2.2.symm
    have hNew : m.entries.insertIdx position (value, ()) = (m.insert value ()).entries := hLeaf.1
    simp only [hSearch, Bool.false_eq_true, if_false, hNew, hAbsent, isSome_none]
    by_cases hFits : env.fitsInline (m.insert value ()).entries = true
    · have hCount : (m.insert value ()).entries.length ≤ Format.maxCount := by
        have hLength := m.length_insert value ()
        rw [hAbsent] at hLength
        have hMore := hRoom.1
        simp only [SortedMap.length, isSome_none, Bool.false_eq_true, if_false] at hLength
        omega
      have hOffsets := offsetsFit_of_fitsInline env (insert_entries_ne_nil m value) hCount
        (lt_offsetLimit_of_fitsInline env hFits)
      refine ⟨.put (.inline (m.insert value ()).entries), mem,
        ?_, insert_entries_ne_nil m value, rfl⟩
      simp only [if_pos hFits, hOffsets, require, if_true, ok_bind]
      rfl
    · rw [if_neg hFits]
      have hCopied : Represents (some (env.copiedLeaf m.entries mem).1) m :=
        ⟨⟨hFilled, m.sorted, fun e _ => within_none e.1⟩, rfl, rfl⟩
      rcases insertSubtree_spec env hCopied value (env.copiedLeaf m.entries mem).2 hRoom.2 with
        ⟨d, mem', hInsert, hCollects⟩
      rw [hAbsent] at hInsert
      refine ⟨.put d, mem', ?_, hCollects⟩
      simp only [hInsert, ok_bind, isSome_none, beq_self_eq_true, require, if_true]
      rfl

theorem insertCollection_spec
    {collection : Option (DynamicCollection P V)} (hCollects : MayCollect collection m) (value : V)
    (mem : Mem P V Unit) (hRoom : env.InsertRoom value mem collection) :
    ∃ change mem', env.insertCollection value mem collection =
        .ok (change, (m.get value).isSome, mem') ∧
      change.Leaves m (m.insert value ()) := by
  match collection, hCollects, hRoom with
  | none, hNone, hRoom =>
    have hNil : m.entries = [] := hNone
    have hAbsent : (m.get value).isSome = false := by
      rw [SortedMap.get, hNil]
      rfl
    have hNew : (m.insert value ()).entries = [(value, ())] := by
      change insertEntry value () m.entries = _
      rw [hNil, insertEntry_nil]
    unfold MultimapEnv.insertCollection
    by_cases hFits : env.fitsInline [(value, ())] = true
    · have hOffsets := offsetsFit_of_fitsInline env (cons_ne_nil (value, ()) [])
        (by simp [Format.maxCount]) hRoom
      refine ⟨.put (.inline [(value, ())]), mem, ?_, insert_entries_ne_nil m value, hNew.symm⟩
      simp only [if_pos hFits, hOffsets, require, if_true, ok_bind, hAbsent]
      rfl
    · rw [if_neg hFits]
      rcases insertSubtree_spec env (show Represents none m from hNil) value mem hRoom with
        ⟨d, mem', hInsert, hCollects'⟩
      exact ⟨.put d, mem', hInsert, hCollects'⟩
  | some (.subtreeV2 root), hCollects, hRoom =>
    rcases insertSubtree_spec env hCollects.2 value mem hRoom with ⟨d, mem', hInsert, hCollects'⟩
    exact ⟨.put d, mem', hInsert, hCollects'⟩
  | some (.inline pairs), hCollects, hRoom =>
    have hPairs : pairs = m.entries := hCollects.2
    subst hPairs
    exact insertInline_spec env hCollects.1 value mem hRoom

theorem shrinkSubtree_spec {root : TreeRoot P V Unit} {before after : SortedMap V Unit}
    (hRep : Represents root after) (mem : Mem P V Unit) :
    (env.shrinkSubtree root mem).1.Leaves before after := by
  match root, hRep with
  | none, hNone => exact hNone
  | some ⟨0, leaf, checksum, length⟩, hRep =>
    rcases hRep with ⟨hGood, hEntries, hLength⟩
    have hPairs : Leaf.pairs leaf = after.entries := hEntries
    have hFilled : after.entries ≠ [] := by
      rw [← hPairs]
      exact hGood.1
    by_cases hFits : env.fitsInline (Leaf.pairs leaf) = true
    · simp only [MultimapEnv.shrinkSubtree, if_pos hFits]
      exact ⟨hFilled, hPairs⟩
    · simp only [MultimapEnv.shrinkSubtree, if_neg hFits]
      exact ⟨hFilled, hGood, hEntries, congrArg List.length hPairs⟩
  | some ⟨n + 1, branch, checksum, length⟩, hRep =>
    refine ⟨?_, hRep⟩
    rw [← hRep.2.1]
    exact hRep.1.leafGood.1

theorem removeInline_spec
    (value : V) (mem : Mem P V Unit) (hRoom : env.RemoveRoom value (.inline m.entries)) :
    ∃ change mem', env.removeCollection value mem (.inline m.entries) =
        .ok (change, (m.get value).isSome, mem') ∧
      change.Leaves m (m.erase value) := by
  unfold MultimapEnv.removeCollection
  cases hSearch : MultimapEnv.inlinePosition m.entries value with
  | mk position found =>
  rcases position_cases (⟨(), m.entries⟩ : Leaf Unit V Unit) value m.sorted with
    ⟨a, b, hA, hB, ⟨hPos, hList⟩ | ⟨v, hPos, hList⟩⟩
  · have hBoth := hSearch.symm.trans hPos
    cases hBoth
    have hEntries : m.entries = a ++ [] ++ b := hList
    have hAbsent : m.get value = none := by
      rw [SortedMap.get, hEntries, lookup_middle hA hB]
      rfl
    refine ⟨.keep, mem, ?_, SortedMap.erase_absent hAbsent⟩
    simp only [hSearch, Bool.false_eq_true, if_false, hAbsent, isSome_none]
    rfl
  · have hBoth := hSearch.symm.trans hPos
    cases hBoth
    have hEntries : m.entries = a ++ [(value, v)] ++ b := hList
    have hPresent : (m.get value).isSome = true := by
      rw [SortedMap.get, hEntries, lookup_middle hA hB]
      simp
    have hErase : m.entries.eraseIdx a.length = (m.erase value).entries := by
      change _ = eraseEntry value m.entries
      rw [hEntries, eraseEntry_middle hA hB, eraseEntry_singleton, eraseIdx_middle]
      simp
    have hLength := m.length_erase value
    rw [hPresent] at hLength
    simp only [SortedMap.length, if_true] at hLength
    simp only [hSearch, if_true, hErase, hPresent]
    by_cases hOne : m.entries.length = 1
    · refine ⟨.drop, mem, ?_, ?_⟩
      · rw [if_pos hOne]
        rfl
      · apply length_eq_zero_iff.mp
        omega
    · have hMany : 0 < m.entries.length := by
        rw [hEntries]
        simp
      have hFilled : (m.erase value).entries ≠ [] := by
        intro hNil
        rw [hNil] at hLength
        simp only [length_nil] at hLength
        omega
      have hSublist : (m.erase value).entries.Sublist
          m.entries := hErase ▸ eraseIdx_sublist _ _
      have hOffsets : env.values.offsetsFit (m.erase value).entries = true := by
        have hEncodable := env.values.leafEncodable_of_sublist hSublist hFilled hRoom.1 hRoom.2
        rw [Format.leafEncodable, Bool.and_eq_true, Bool.and_eq_true] at hEncodable
        exact hEncodable.1.2
      refine ⟨.put (.inline (m.erase value).entries), mem, ?_, hFilled, rfl⟩
      simp only [if_neg hOne, hOffsets, require, if_true, ok_bind]
      rfl

theorem removeCollection_spec
    {collection : DynamicCollection P V} (hCollects : Collects collection m) (value : V)
    (mem : Mem P V Unit) (hRoom : env.RemoveRoom value collection) :
    ∃ change mem', env.removeCollection value mem collection =
        .ok (change, (m.get value).isSome, mem') ∧
      change.Leaves m (m.erase value) := by
  cases collection with
  | inline pairs =>
    have hPairs : pairs = m.entries := hCollects.2
    subst hPairs
    exact removeInline_spec env value mem hRoom
  | subtreeV2 root =>
    rcases remove_spec env.subtrees hCollects.2 true value mem
      hRoom with ⟨root', mem', hRemove, hRep⟩
    refine ⟨(env.shrinkSubtree root' mem').1, (env.shrinkSubtree root' mem').2, ?_,
      shrinkSubtree_spec env hRep mem'⟩
    simp only [MultimapEnv.removeCollection, hRemove, ok_bind]
    rfl

end Collections

------------------------------------------------------------
-- Pages of Collections
------------------------------------------------------------

section Pages

variable {P K V : Type}

theorem coe_treePageNumbers (n : Nat) (t : Tree P V Unit n) :
    (treePageNumbers n t : Multiset P) = pageSet n t := by
  induction n with
  | zero => rfl
  | succ n ih =>
    have hChildren : ∀ children : List (Tree P V Unit n × Checksum),
        (children.flatMap fun child => treePageNumbers n child.1 : Multiset P) =
          childPages (pageSet n) children := by
      intro children
      induction children with
      | nil => rfl
      | cons child rest ihRest =>
        rw [flatMap_cons, ← Multiset.coe_add, ih, ihRest, childPages_cons]
    change ((_ :: _ : List P) : Multiset P) = _
    rw [← Multiset.cons_coe, hChildren, ← Multiset.singleton_add]
    rfl

theorem DynamicCollection.coe_pageNumbers (collection : DynamicCollection P V) :
    (collection.pageNumbers : Multiset P) = rootPages collection.subtree := by
  cases collection with
  | inline pairs => rfl
  | subtreeV2 root => exact coe_treePageNumbers root.height root.tree

variable [DecidableEq P] [LinearOrder V] (env : MultimapEnv P K V)
    {mem mem' : Mem P V Unit} {value : V} {existed : Bool} {change : CollectionChange P V}
    {root before : TreeRoot P V Unit}

theorem insertSubtree_turns
    (hOwns : Owns mem (rootPages root))
    (hHolds : RootHolds mem root)
    (hRun : env.insertSubtree root value mem = .ok (change, existed, mem')) :
    Turns true mem (rootPages root) (rootPages (change.subtree before)) mem' ∧
      RootHolds mem' (change.subtree before) := by
  simp only [MultimapEnv.insertSubtree, bind_eq_ok, unwrap_eq_ok] at hRun
  rcases hRun with ⟨⟨_, _, _⟩, hInsert, root', hSome, hEq⟩
  cases hEq
  cases hSome
  exact insert_turns env.subtrees hOwns hHolds hInsert

/- The copied leaf takes a page. -/
theorem copiedLeaf_turns (pairs : List (V × Unit)) (mem : Mem P V Unit) :
    Turns true mem 0 (rootPages (some (env.copiedLeaf pairs mem).1)) (env.copiedLeaf pairs mem).2 ∧
      RootHolds (env.copiedLeaf pairs mem).2 (some (env.copiedLeaf pairs mem).1) := by
  refine ⟨turns_allocate true mem env.alloc _ _, ?_⟩
  exact Function.update_self ..

theorem insertCollection_turns
    {collection : Option (DynamicCollection P V)}
    (hOwns : Owns mem (rootPages (subtreeOf collection)))
    (hHolds : RootHolds mem (subtreeOf collection))
    (hRun : env.insertCollection value mem collection = .ok (change, existed, mem')) :
    Turns true mem (rootPages (subtreeOf collection))
        (rootPages (change.subtree (subtreeOf collection))) mem' ∧
      RootHolds mem' (change.subtree (subtreeOf collection)) := by
  match collection, hOwns, hHolds, hRun with
  | none, hOwns, hHolds, hRun =>
    simp only [MultimapEnv.insertCollection] at hRun
    split at hRun
    · simp only [bind_eq_ok] at hRun
      rcases hRun with ⟨_, _, hEq⟩
      cases hEq
      exact ⟨Turns.refl hOwns, trivial⟩
    · exact insertSubtree_turns env hOwns hHolds hRun
  | some (.subtreeV2 root), hOwns, hHolds, hRun =>
    exact insertSubtree_turns env hOwns hHolds hRun
  | some (.inline pairs), hOwns, hHolds, hRun =>
    simp only [MultimapEnv.insertCollection] at hRun
    split at hRun
    · cases hRun
      exact ⟨Turns.refl hOwns, trivial⟩
    · split at hRun
      · simp only [bind_eq_ok] at hRun
        rcases hRun with ⟨_, _, hEq⟩
        cases hEq
        exact ⟨Turns.refl hOwns, trivial⟩
      · -- the pairs are copied to a page, and the value goes there
        simp only [bind_eq_ok] at hRun
        rcases hRun with ⟨⟨_, _, _⟩, hInsert, _, _, hEq⟩
        cases hEq
        rcases copiedLeaf_turns env pairs mem with ⟨hCopied, hLeaf⟩
        rcases insertSubtree_turns env hCopied.owns hLeaf hInsert with ⟨hTurns, hKept⟩
        exact ⟨hCopied.trans hTurns, hKept⟩

omit [LinearOrder V] in
theorem shrinkSubtree_turns
    (hOwns : Owns mem (rootPages root))
    (hHolds : RootHolds mem root) :
    Turns true mem (rootPages root) (rootPages ((env.shrinkSubtree root mem).1.subtree before))
        (env.shrinkSubtree root mem).2 ∧
      RootHolds (env.shrinkSubtree root mem).2 ((env.shrinkSubtree root mem).1.subtree before) := by
  match root, hOwns, hHolds with
  | none, hOwns, _ => exact ⟨Turns.refl hOwns, trivial⟩
  | some ⟨0, leaf, checksum, length⟩, hOwns, hHolds =>
    by_cases hFits : env.fitsInline (Leaf.pairs leaf) = true
    · simp only [MultimapEnv.shrinkSubtree, if_pos hFits]
      refine ⟨turns_conditionalFree true mem _ ?_, trivial⟩
      exact hOwns.2 _ (Multiset.mem_singleton_self _)
    · simp only [MultimapEnv.shrinkSubtree, if_neg hFits]
      exact ⟨Turns.refl hOwns, hHolds⟩
  | some ⟨n + 1, branch, checksum, length⟩, hOwns, hHolds =>
    exact ⟨Turns.refl hOwns, hHolds⟩

theorem removeCollection_turns
    {collection : DynamicCollection P V}
    (hOwns : Owns mem (rootPages collection.subtree))
    (hHolds : RootHolds mem collection.subtree)
    (hRun : env.removeCollection value mem collection = .ok (change, existed, mem')) :
    Turns true mem (rootPages collection.subtree)
        (rootPages (change.subtree collection.subtree)) mem' ∧
      RootHolds mem' (change.subtree collection.subtree) := by
  cases collection with
  | inline pairs =>
    simp only [MultimapEnv.removeCollection] at hRun
    split at hRun
    · split at hRun
      · cases hRun
        exact ⟨Turns.refl hOwns, trivial⟩
      · simp only [bind_eq_ok] at hRun
        rcases hRun with ⟨_, _, hEq⟩
        cases hEq
        exact ⟨Turns.refl hOwns, trivial⟩
    · cases hRun
      exact ⟨Turns.refl hOwns, trivial⟩
  | subtreeV2 root =>
    simp only [MultimapEnv.removeCollection, bind_eq_ok] at hRun
    rcases hRun with ⟨⟨_, _, _⟩, hRemove, hEq⟩
    cases hEq
    rcases remove_turns env.subtrees hOwns hHolds hRemove with ⟨hTurns, hKept⟩
    rcases shrinkSubtree_turns env hTurns.owns hKept with ⟨hShrunk, hLast⟩
    exact ⟨hTurns.trans hShrunk, hLast⟩

end Pages

end Redbx
