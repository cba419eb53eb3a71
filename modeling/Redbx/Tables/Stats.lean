import Mathlib.Algebra.Order.BigOperators.Group.List
import Redbx.Btree.Shape
import Redbx.Multimap.Table
import Mathlib.Algebra.BigOperators.Group.Multiset.Basic

/-
  The statistics of a table.

  The bytes of a normal table are gathered over its leaves. Those of a multimap table are gathered
  over the values of each key, inlined or in a tree of their own; the bytes of the keys are counted
  as metadata.

  Key theorems include:
    * `MultimapEnv.multimapStatsHelper_spec`, `stored_bytes_exact_iff`
-/

namespace Redbx

open Redbx.Tree List

-- Lengths in a Leaf

namespace Format

variable {K V : Type} (fmt : Format K V) (pairs : List (K × V))

/- `LeafAccessor::key_section_start`. -/
def keySectionStart : Nat := 4 + fmt.pointerBytes * pairs.length

/- `LeafAccessor::key_end`. -/
def keyEnd? (i : Nat) : Option Nat :=
  if pairs.length ≤ i then
    none
  else
    some (fmt.keySectionStart pairs + fmt.keyBytes ((pairs.take (i + 1)).map Prod.fst))

/- `LeafAccessor::key_start`. -/
def keyStart? : Nat → Option Nat
  | 0 => some (fmt.keySectionStart pairs)
  | i + 1 => fmt.keyEnd? pairs i

/- `LeafAccessor::value_end`. -/
def valueEnd? (i : Nat) : Option Nat :=
  if pairs.length ≤ i then none
  else some (fmt.valueEnd pairs i)

/- `LeafAccessor::value_start`. -/
def valueStart? : Nat → Option Nat
  | 0 => fmt.keyEnd? pairs (pairs.length - 1)
  | i + 1 => fmt.valueEnd? pairs i

/- `LeafAccessor::length_of_keys`. -/
def lengthOfKeys (start stop : Nat) : Except Panic Nat :=
  if stop = 0 then
    return 0
  else do
    let endOffset ← unwrap (fmt.keyEnd? pairs (stop - 1))
    let startOffset ← unwrap (fmt.keyStart? pairs start)
    return endOffset - startOffset

/- `LeafAccessor::length_of_values`. -/
def lengthOfValues (start stop : Nat) : Except Panic Nat :=
  if stop = 0 then
    return 0
  else do
    let endOffset ← unwrap (fmt.valueEnd? pairs (stop - 1))
    let startOffset ← unwrap (fmt.valueStart? pairs start)
    return endOffset - startOffset

/- `LeafAccessor::length_of_pairs`. -/
def lengthOfPairs (start stop : Nat) : Except Panic Nat := do
  let values ← fmt.lengthOfValues pairs start stop
  let keys ← fmt.lengthOfKeys pairs start stop
  return values + keys

/- `LeafAccessor::total_length`. -/
def totalLength : Except Panic Nat := do
  require (decide (pairs ≠ [])) .outOfRange
  unwrap (fmt.valueEnd? pairs (pairs.length - 1))

theorem kvBytes_eq :
    fmt.kvBytes pairs = (pairs.map fun p => fmt.valueLen p.2).sum +
        fmt.keyBytes (pairs.map Prod.fst) := by
  unfold kvBytes keyBytes pairLen
  induction pairs with
  | nil => rfl
  | cons _ _ ih =>
    simp only [map_cons, sum_cons, ih]
    omega

theorem lengthOfPairs_all :
    fmt.lengthOfPairs pairs 0 pairs.length = .ok (fmt.kvBytes pairs) := by
  cases pairs with
  | nil => rfl
  | cons first rest =>
    have hLast : ¬ (first :: rest).length ≤ rest.length := by simp
    have hTake : (first :: rest).take (rest.length + 1) = first :: rest :=
      take_of_length_le (by simp)
    have hKeyEnd : fmt.keyEnd? (first :: rest) rest.length =
        some (fmt.keysEnd (first :: rest)) := by
      rw [keyEnd?, if_neg hLast, hTake]
      rfl
    have hValueEnd : fmt.valueEnd? (first :: rest) rest.length =
          some (fmt.keysEnd (first :: rest) + ((first :: rest).map
              fun p => fmt.valueLen p.2).sum) := by
      rw [valueEnd?, if_neg hLast, valueEnd, hTake]
    have hKeys : fmt.lengthOfKeys (first :: rest) 0 (rest.length + 1) =
        .ok (fmt.keyBytes ((first :: rest).map Prod.fst)) := by
      simp only [lengthOfKeys, Nat.add_one_ne_zero, if_false,
        Nat.add_sub_cancel, hKeyEnd, keyStart?, unwrap,
        Option.elim_some, ok_bind, pure_eq_ok, keysEnd, keySectionStart, Nat.add_sub_cancel_left]
    have hValues : fmt.lengthOfValues (first :: rest) 0 (rest.length + 1) =
        .ok ((first :: rest).map fun p => fmt.valueLen p.2).sum := by
      simp only [lengthOfValues, Nat.add_one_ne_zero, if_false,
        Nat.add_sub_cancel, hValueEnd, valueStart?, length_cons, hKeyEnd, unwrap,
        Option.elim_some, ok_bind, pure_eq_ok, Nat.add_sub_cancel_left]
    rw [length_cons, lengthOfPairs, hValues, hKeys, kvBytes_eq]
    rfl

theorem totalLength_ok {pairs : List (K × V)} (hNe : pairs ≠ []) :
    ∃ total, fmt.totalLength pairs = .ok total := by
  have hPos := length_pos_iff.mpr hNe
  refine ⟨fmt.valueEnd pairs (pairs.length - 1), ?_⟩
  rw [totalLength, valueEnd?, if_neg (by omega)]
  simp [require, hNe, unwrap]

end Format

-- Statistics

structure BtreeStats where
  treeHeight : Nat
  leafPages : Nat
  branchPages : Nat
  storedLeafBytes : Nat
  metadataBytes : Nat
  fragmentedBytes : Nat

namespace BtreeStats

/- The statistics of a table without a root. -/
def zero : BtreeStats := ⟨0, 0, 0, 0, 0, 0⟩

/- What a loop over subtrees adds for one of them. -/
def addChild (all stats : BtreeStats) : BtreeStats where
  treeHeight := max all.treeHeight stats.treeHeight
  leafPages := all.leafPages + stats.leafPages
  branchPages := all.branchPages + stats.branchPages
  storedLeafBytes := all.storedLeafBytes + stats.storedLeafBytes
  metadataBytes := all.metadataBytes + stats.metadataBytes
  fragmentedBytes := all.fragmentedBytes + stats.fragmentedBytes

/- The level of the page itself. -/
def above (stats : BtreeStats) : BtreeStats :=
  { stats with treeHeight := stats.treeHeight + 1 }

theorem foldl_addChild (children : List BtreeStats) (all : BtreeStats) :
    (children.foldl addChild all).storedLeafBytes = all.storedLeafBytes +
        (children.map storedLeafBytes).sum := by
  induction children generalizing all with
  | nil => rfl
  | cons _ _ ih =>
    rw [foldl_cons, ih, map_cons, sum_cons]
    simp only [addChild]
    omega

end BtreeStats

/- The statistics of a list of parts, one after the other. -/
def statsOf {C : Type} (stats : C → Except Panic BtreeStats) :
    List C → Except Panic (List BtreeStats)
  | [] => return []
  | first :: rest => do
    let one ← stats first
    let others ← statsOf stats rest
    return one :: others

theorem statsOf_spec
    {C : Type} {stats : C → Except Panic BtreeStats} {stored : C → Nat} {parts : List C}
    (hParts : ∀ c ∈ parts, ∃ s, stats c = .ok s ∧ s.storedLeafBytes = stored c) :
    ∃ all, statsOf stats parts = .ok all ∧ (all.map BtreeStats.storedLeafBytes).sum =
        (parts.map stored).sum := by
  induction parts with
  | nil => exact ⟨[], rfl, rfl⟩
  | cons first rest ih =>
    rcases hParts first (mem_cons_self ..) with ⟨one, hOne, hStored⟩
    rcases ih (fun c hc => hParts c (mem_cons_of_mem _ hc)) with ⟨others, hOthers, hSum⟩
    refine ⟨one :: others, ?_, ?_⟩
    · simp only [statsOf, hOne, hOthers, ok_bind, pure_eq_ok]
    · rw [map_cons, sum_cons, map_cons, sum_cons, hStored, hSum]

namespace BtreeEnv

variable {P K V : Type} [DecidableEq P] (env : BtreeEnv P K V)

/- What a branch page counts for, without its children. -/
def branchStats {C : Type} (branch : Branch P K C) : BtreeStats :=
  let total := env.fmt.branchBytes branch.keys
  ⟨0, 0, 1, 0, total, pageBytes (env.alloc.order branch.page) - total⟩

def statsHelper : (n : Nat) → Tree P K V n → Except Panic BtreeStats
  | 0, leaf => do
    let pairs := Leaf.pairs leaf
    let leafBytes ← env.fmt.lengthOfPairs pairs 0 pairs.length
    let total ← env.fmt.totalLength pairs
    return ⟨1, 1, 0, leafBytes, total - leafBytes,
      pageBytes (env.alloc.order (Leaf.page leaf)) - total⟩
  | n + 1, branch => do
    let children ← statsOf (fun c => statsHelper n c.1) (Branch.children branch)
    return (children.foldl BtreeStats.addChild (env.branchStats branch)).above

def btreeStats : TreeRoot P K V → Except Panic BtreeStats
  | some root => env.statsHelper root.height root.tree
  | none => return BtreeStats.zero

variable [LinearOrder K]

omit [DecidableEq P] [LinearOrder K] in
theorem kvBytes_flatMap
    (fmt : Format K V) {C : Type} (parts : List C) (entries : C → List (K × V)) :
    fmt.kvBytes (parts.flatMap entries) = (parts.map fun c => fmt.kvBytes (entries c)).sum := by
  induction parts with
  | nil => rfl
  | cons _ _ ih =>
    rw [flatMap_cons, map_cons, sum_cons, ← ih]
    simp [Format.kvBytes]

theorem statsHelper_spec {n : Nat} {t : Tree P K V n} {lo hi : Option K} (hGood : Good n lo hi t) :
    ∃ stats, env.statsHelper n t = .ok stats ∧ stats.storedLeafBytes =
        env.fmt.kvBytes (entries n t) := by
  induction n generalizing lo hi with
  | zero =>
    rcases env.fmt.totalLength_ok hGood.1 with ⟨total, hTotal⟩
    refine ⟨⟨1, 1, 0, env.fmt.kvBytes (Leaf.pairs t), total - env.fmt.kvBytes (Leaf.pairs t),
      pageBytes (env.alloc.order (Leaf.page t)) - total⟩, ?_, rfl⟩
    simp only [statsHelper, env.fmt.lengthOfPairs_all, hTotal, ok_bind, pure_eq_ok]
  | succ n ih =>
    have hChildren : ∀ c ∈ Branch.children t, ∃ stats,
        env.statsHelper n c.1 = .ok stats ∧ stats.storedLeafBytes =
            env.fmt.kvBytes (entries n c.1) := by
      intro c hc
      rcases Chain.exists_good hGood.2 hc with ⟨a, b, hChild⟩
      exact ih hChild
    rcases statsOf_spec hChildren with ⟨all, hAll, hSum⟩
    refine ⟨(all.foldl BtreeStats.addChild (env.branchStats t)).above, ?_, ?_⟩
    · simp only [statsHelper, hAll, ok_bind, pure_eq_ok]
    · change (all.foldl BtreeStats.addChild (env.branchStats t)).storedLeafBytes = _
      rw [BtreeStats.foldl_addChild, hSum]
      change 0 + _ = env.fmt.kvBytes ((Branch.children t).flatMap fun c => entries n c.1)
      rw [kvBytes_flatMap, Nat.zero_add]

theorem btreeStats_spec {root : TreeRoot P K V} (hRoot : SearchRoot root) :
    ∃ stats, env.btreeStats root = .ok stats ∧ stats.storedLeafBytes =
        env.fmt.kvBytes (rootEntries root) := by
  cases root with
  | none => exact ⟨BtreeStats.zero, rfl, rfl⟩
  | some r => exact env.statsHelper_spec (hRoot r rfl)

end BtreeEnv

-- Multimap Tables

namespace MultimapEnv

variable {P K V : Type} [DecidableEq P] (env : MultimapEnv P K V)

/- The bytes of the inlined values of a leaf. -/
def inlineBytes : List (K × DynamicCollection P V) → Except Panic Nat
  | [] => return 0
  | (_, .inline pairs) :: rest => do
    let bytes ← env.values.lengthOfPairs pairs 0 pairs.length
    let others ← inlineBytes rest
    return bytes + others
  | (_, .subtreeV2 _) :: rest => inlineBytes rest

omit [DecidableEq P] in
/- The trees of the values of a leaf. -/
def valueTrees : List (K × DynamicCollection P V) → List (BtreeRoot P V Unit)
  | [] => []
  | (_, .inline _) :: rest => valueTrees rest
  | (_, .subtreeV2 root) :: rest => root :: valueTrees rest

/- What a leaf page counts for, without its value trees. -/
def leafStats (leaf : Leaf P K (DynamicCollection P V)) (leafBytes total : Nat) : BtreeStats :=
  let isBranch := !(valueTrees leaf.pairs).isEmpty
  ⟨0, if isBranch then 0 else 1, if isBranch then 1 else 0,
    leafBytes, total - leafBytes, pageBytes (env.alloc.order leaf.page) - total⟩

def multimapStatsHelper : (n : Nat) → Tree P K (DynamicCollection P V) n → Except Panic BtreeStats
  | 0, leaf => do
    let pairs := Leaf.pairs leaf
    let leafBytes ← env.inlineBytes pairs
    let total ← env.table.fmt.totalLength pairs
    let trees ← statsOf (fun root => env.subtrees.btreeStats (some root)) (valueTrees pairs)
    return (trees.foldl BtreeStats.addChild (env.leafStats leaf leafBytes total)).above
  | n + 1, branch => do
    let children ← statsOf (fun c => multimapStatsHelper n c.1) (Branch.children branch)
    return (children.foldl BtreeStats.addChild (env.table.branchStats branch)).above

def multimapBtreeStats : TreeRoot P K (DynamicCollection P V) → Except Panic BtreeStats
  | some root => env.multimapStatsHelper root.height root.tree
  | none => return BtreeStats.zero

/- The bytes of the values of a key. -/
def valueBytes (collection : DynamicCollection P V) : Nat :=
  (collection.values.map env.values.keyLen).sum

/- The bytes of all keys, each once, and of all values. -/
def storedBytes (entries : List (K × DynamicCollection P V)) : Nat :=
  (entries.map fun e => env.keyLen e.1 + env.valueBytes e.2).sum

/- The bytes of all values. -/
def allValueBytes (entries : List (K × DynamicCollection P V)) : Nat :=
  (entries.map fun e => env.valueBytes e.2).sum

/- The documented bytes are those of the keys and values. -/
theorem storedBytes_eq (entries : List (K × DynamicCollection P V)) :
    env.storedBytes entries = (entries.map fun e => env.keyLen e.1).sum +
        env.allValueBytes entries := by
  unfold storedBytes allValueBytes
  induction entries with
  | nil => rfl
  | cons _ _ ih =>
    simp only [map_cons, sum_cons, ih]
    omega

/- The trees of values are search trees. -/
def GoodCollections [LinearOrder V] (entries : List (K × DynamicCollection P V)) : Prop :=
  ∀ e ∈ entries, ∀ root, e.2 = .subtreeV2 root → Good root.height none none root.tree

variable (hUnit : env.values.fixedValueSize = some 0)
include hUnit

/- A value is stored as a key without anything beside it. -/
theorem kvBytes_values (pairs : List (V × Unit)) :
    env.values.kvBytes pairs = ((pairs.map Prod.fst).map env.values.keyLen).sum := by
  rw [Format.kvBytes, map_map]
  refine congrArg List.sum (map_congr_left ?_)
  intro p _
  rw [Format.pairLen, env.values.valueLen_eq 0 hUnit]
  rfl

/- The two loops over a leaf count each collection once. -/
theorem leaf_values [LinearOrder V] {pairs : List (K × DynamicCollection P V)}
    (hGood : GoodCollections pairs) :
    ∃ bytes trees, env.inlineBytes pairs = .ok bytes ∧ statsOf
        (fun root => env.subtrees.btreeStats (some root)) (valueTrees pairs) = .ok trees ∧
      bytes + (trees.map BtreeStats.storedLeafBytes).sum = env.allValueBytes pairs := by
  induction pairs with
  | nil => exact ⟨0, [], rfl, rfl, rfl⟩
  | cons first rest ih =>
    rcases ih (fun e he => hGood e (mem_cons_of_mem _ he)) with ⟨bytes, trees, hBytes, hTrees, hSum⟩
    rcases first with ⟨key, collection⟩
    have hAll : env.allValueBytes ((key, collection) :: rest) =
        env.valueBytes collection + env.allValueBytes rest := by
      simp [allValueBytes]
    cases collection with
    | inline pairs =>
      refine ⟨env.values.kvBytes pairs + bytes, trees, ?_, hTrees, ?_⟩
      · simp only [inlineBytes, env.values.lengthOfPairs_all, hBytes, ok_bind, pure_eq_ok]
      · have hValues : env.valueBytes (.inline pairs : DynamicCollection P V) =
            env.values.kvBytes pairs := by
          rw [env.kvBytes_values hUnit]
          rfl
        rw [hAll, hValues]
        omega
    | subtreeV2 root =>
      have hRoot := hGood (key, .subtreeV2 root) (mem_cons_self ..) root rfl
      rcases env.subtrees.statsHelper_spec hRoot with ⟨stats, hStats, hStored⟩
      have hOne : env.subtrees.btreeStats (some root) = .ok stats := hStats
      refine ⟨bytes, stats :: trees, hBytes, ?_, ?_⟩
      · simp only [valueTrees, statsOf, hOne, hTrees, ok_bind, pure_eq_ok]
      · have hValues : env.valueBytes (.subtreeV2 root : DynamicCollection P V) =
            stats.storedLeafBytes := by
          rw [hStored]
          exact (env.kvBytes_values hUnit _).symm
        rw [hAll, hValues, map_cons, sum_cons]
        omega

omit hUnit in
omit [DecidableEq P] in
theorem allValueBytes_flatMap [DecidableEq P] (env : MultimapEnv P K V) {C : Type} (parts : List C)
    (entries : C → List (K × DynamicCollection P V)) :
    env.allValueBytes (parts.flatMap entries) =
      (parts.map fun c => env.allValueBytes (entries c)).sum := by
  induction parts with
  | nil => rfl
  | cons _ _ ih =>
    rw [flatMap_cons, map_cons, sum_cons, ← ih]
    simp [allValueBytes]

/- The reported bytes are those of the values. -/
theorem multimapStatsHelper_spec
    [LinearOrder K] [LinearOrder V] {n : Nat} {t : Tree P K (DynamicCollection P V) n}
    {lo hi : Option K} (hGood : Good n lo hi t) (hCollections : GoodCollections (entries n t)) :
    ∃ stats, env.multimapStatsHelper n t = .ok stats ∧ stats.storedLeafBytes =
        env.allValueBytes (entries n t) := by
  induction n generalizing lo hi with
  | zero =>
    rcases env.leaf_values hUnit hCollections with ⟨bytes, trees, hBytes, hTrees, hSum⟩
    rcases env.table.fmt.totalLength_ok hGood.1 with ⟨total, hTotal⟩
    refine ⟨(trees.foldl BtreeStats.addChild (env.leafStats t bytes total)).above, ?_, ?_⟩
    · simp only [multimapStatsHelper]
      change (env.inlineBytes (entries 0 t) >>= _) = _
      rw [hBytes]
      simp only [ok_bind]
      rw [hTotal]
      simp only [ok_bind]
      change (statsOf _ (valueTrees (entries 0 t)) >>= _) = _
      rw [hTrees]
      rfl
    · change (trees.foldl BtreeStats.addChild (env.leafStats t bytes total)).storedLeafBytes = _
      rw [BtreeStats.foldl_addChild]
      exact hSum
  | succ n ih =>
    have hChildren : ∀ c ∈ Branch.children t, ∃ stats,
        env.multimapStatsHelper n c.1 = .ok stats ∧ stats.storedLeafBytes =
            env.allValueBytes (entries n c.1) := by
      intro c hc
      rcases Chain.exists_good hGood.2 hc with ⟨a, b, hChild⟩
      refine ih hChild ?_
      intro e he
      exact hCollections e (mem_flatMap.mpr ⟨c, hc, he⟩)
    rcases statsOf_spec hChildren with ⟨all, hAll, hSum⟩
    refine ⟨(all.foldl BtreeStats.addChild (env.table.branchStats t)).above, ?_, ?_⟩
    · simp only [multimapStatsHelper, hAll, ok_bind, pure_eq_ok]
    · change (all.foldl BtreeStats.addChild (env.table.branchStats t)).storedLeafBytes = _
      rw [BtreeStats.foldl_addChild, hSum]
      change 0 + _ = env.allValueBytes ((Branch.children t).flatMap fun c => entries n c.1)
      rw [allValueBytes_flatMap, Nat.zero_add]

theorem multimapBtreeStats_spec
    [LinearOrder K] [LinearOrder V] {root : TreeRoot P K (DynamicCollection P V)}
    (hRoot : SearchRoot root) (hCollections : GoodCollections (rootEntries root)) :
    ∃ stats, env.multimapBtreeStats root = .ok stats ∧ stats.storedLeafBytes =
        env.allValueBytes (rootEntries root) := by
  cases root with
  | none => exact ⟨BtreeStats.zero, rfl, rfl⟩
  | some r => exact env.multimapStatsHelper_spec hUnit (hRoot r rfl) hCollections

end MultimapEnv

------------------------------------------------------------
-- Tables of Either Kind
------------------------------------------------------------

variable {P K V : Type} [DecidableEq P]

/- A table as its definition gives it; the values of a multimap table are keys of trees. -/
inductive AnyTable (P K V : Type) [DecidableEq P] where
  | normal (env : BtreeEnv P K V) (root : TreeRoot P K V)
  | multimap [LinearOrder V] (env : MultimapEnv P K V) (root : TreeRoot P K (DynamicCollection P V))

namespace AnyTable

/- What `TableTreeMut::stats` asks of each table. -/
def stats : AnyTable P K V → Except Panic BtreeStats
  | normal env root => env.btreeStats root
  | multimap env root => env.multimapBtreeStats root

/- The trees are search trees, and the unit value has no bytes. -/
def Good [LinearOrder K] : AnyTable P K V → Prop
  | normal _ root => SearchRoot root
  | multimap env root => env.values.fixedValueSize = some 0 ∧ SearchRoot root ∧
      MultimapEnv.GoodCollections (rootEntries root)

/- The bytes of the keys and values. -/
def documentedBytes : AnyTable P K V → Nat
  | normal env root => env.fmt.kvBytes (rootEntries root)
  | multimap env root => env.storedBytes (rootEntries root)

/- Keys that are left out have no bytes. -/
def CountsKeys : AnyTable P K V → Prop
  | normal _ _ => True
  | multimap env root => ∀ e ∈ rootEntries root, env.keyLen e.1 = 0

end AnyTable

/-
  A normal table reports the bytes of its keys and values. A multimap table reports the bytes of its
  values only, so that its report is the documented one exactly if none of its keys has any bytes.
-/
theorem stored_bytes_exact_iff
    [LinearOrder K]
    {table : AnyTable P K V}
    (hGood : table.Good) :
    ∃ stats, table.stats = .ok stats ∧
      (stats.storedLeafBytes = table.documentedBytes ↔ table.CountsKeys) := by
  cases table with
  | normal env root =>
    rcases env.btreeStats_spec hGood with ⟨stats, hStats, hStored⟩
    exact ⟨stats, hStats, iff_true_intro hStored⟩
  | multimap env root =>
    rcases hGood with ⟨hUnit, hRoot, hCollections⟩
    rcases env.multimapBtreeStats_spec hUnit hRoot hCollections with ⟨stats, hStats, hStored⟩
    refine ⟨stats, hStats, ?_⟩
    have hZero : ((rootEntries root).map fun e => env.keyLen e.1).sum = 0 ↔
        ∀ e ∈ rootEntries root, env.keyLen e.1 = 0 := by
      rw [sum_eq_zero_iff]
      exact forall_mem_map
    rw [hStored, AnyTable.documentedBytes, env.storedBytes_eq, AnyTable.CountsKeys, ← hZero]
    omega

/- A normal table with one entry. -/
def oneEntry : AnyTable (Nat × Nat) Nat Nat :=
  .normal natEnv (some ⟨0, (⟨(0, 0), [(1, 5)]⟩ : Leaf _ _ _), 0, 1⟩)

theorem oneEntry_good : oneEntry.Good := by
  rintro r ⟨⟩
  exact ⟨cons_ne_nil _ _, pairwise_singleton _ _, fun e _ => within_none e.1⟩

/- A multimap table with an inlined value and a tree of two values. -/
def twoKeys (width : Nat) : AnyTable (Nat × Nat) Nat Nat :=
  .multimap (wideKeys width) (some ⟨0, (⟨(0, 0), [(1, .inline [(5, ())]),
    (2, .subtreeV2 ⟨0, (⟨(0, 1), [(5, ()), (6, ())]⟩ : Leaf _ _ _), 0, 2⟩)]⟩ : Leaf _ _ _), 0, 3⟩)

theorem twoKeys_good (width : Nat) : (twoKeys width).Good := by
  refine ⟨rfl, ?_, ?_⟩
  · rintro r ⟨⟩
    exact ⟨cons_ne_nil _ _, pairwise_pair.mpr (by decide : 1 < 2), fun e _ => within_none e.1⟩
  · intro e he root hTree
    rcases mem_pair.mp he with rfl | rfl
    · cases hTree
    · cases hTree
      exact ⟨cons_ne_nil _ _, pairwise_pair.mpr (by decide : 5 < 6), fun e _ => within_none e.1⟩

/- A normal table is reported exactly; so are keys without bytes, over a tree of values too. -/
theorem unit_keys_are_exact :
    (∃ stats, oneEntry.stats = .ok stats ∧ stats.storedLeafBytes = oneEntry.documentedBytes) ∧
      ∃ stats, (twoKeys 0).stats = .ok stats ∧
        stats.storedLeafBytes = (twoKeys 0).documentedBytes := by
  rcases stored_bytes_exact_iff oneEntry_good with ⟨stats, hStats, hIff⟩
  rcases stored_bytes_exact_iff (twoKeys_good 0) with ⟨stats', hStats', hIff'⟩
  exact ⟨⟨stats, hStats, hIff.mpr trivial⟩, stats', hStats', hIff'.mpr fun _ _ => rfl⟩

/- A multimap table with one key of 8 bytes and one value of 8 bytes. -/
def onePairRoot : BtreeRoot (Nat × Nat) Nat (DynamicCollection (Nat × Nat) Nat) :=
  ⟨0, (⟨(0, 0), [(1, .inline [(5, ())])]⟩ : Leaf _ _ _), 0, 1⟩

/- The 8 bytes of the key are missing from the report. -/
theorem multimap_omits_key_bytes :
    (∃ stats, (wideKeys 8).multimapBtreeStats (some onePairRoot) = .ok stats ∧
      stats.storedLeafBytes = 8) ∧
      (wideKeys 8).storedBytes (rootEntries (some onePairRoot)) = 16 :=
  ⟨⟨_, rfl, rfl⟩, rfl⟩

-- Totals

/- The statistics count each byte and each page once. -/
def BtreeStats.Balanced (alloc : PageAllocator P) (stats : BtreeStats) (pages : Multiset P) : Prop :=
  stats.storedLeafBytes + stats.metadataBytes + stats.fragmentedBytes =
      (pages.map fun p => pageBytes (alloc.order p)).sum ∧
    stats.leafPages + stats.branchPages = pages.card

theorem BtreeStats.Balanced.page {alloc : PageAllocator P} {stats : BtreeStats} {page : P}
    (hBytes : stats.storedLeafBytes + stats.metadataBytes + stats.fragmentedBytes =
      pageBytes (alloc.order page)) (hPages : stats.leafPages + stats.branchPages = 1) :
    stats.Balanced alloc {page} := by
  rw [Balanced, Multiset.map_singleton, Multiset.sum_singleton, Multiset.card_singleton]
  exact ⟨hBytes, hPages⟩

theorem BtreeStats.Balanced.foldl {alloc : PageAllocator P} {C : Type}
    {stats : C → Except Panic BtreeStats} {pagesOf : C → Multiset P} {parts : List C}
    (hParts : ∀ c ∈ parts, ∀ s, stats c = .ok s → s.Balanced alloc (pagesOf c))
    {own : BtreeStats} {pages : Multiset P} (hOwn : own.Balanced alloc pages)
    {all : List BtreeStats} (hAll : statsOf stats parts = .ok all) :
    (all.foldl addChild own).above.Balanced alloc (pages + (parts.map pagesOf).sum) := by
  induction parts generalizing own pages all with
  | nil =>
    cases hAll
    rw [map_nil, sum_nil, add_zero]
    exact hOwn
  | cons first rest ih =>
    rcases bind_eq_ok.mp hAll with ⟨one, hOne, hAll⟩
    rcases bind_eq_ok.mp hAll with ⟨_, hOthers, hAll⟩
    cases hAll
    have hFirst := hParts first mem_cons_self one hOne
    have hStep : (own.addChild one).Balanced alloc (pages + pagesOf first) := by
      rcases hOwn with ⟨hBytes, hPages⟩
      rcases hFirst with ⟨hBytes', hPages'⟩
      simp only [Balanced, addChild, Multiset.map_add, Multiset.sum_add, Multiset.card_add]
      omega
    rw [map_cons, sum_cons, ← add_assoc]
    exact ih (fun c hc => hParts c (mem_cons_of_mem _ hc)) hStep hOthers

/- A leaf with entries is as long as its builder made it. -/
theorem Format.totalLength_eq (fmt : Format K V) {pairs : List (K × V)} {total : Nat}
    (hTotal : fmt.totalLength pairs = .ok total) : total = fmt.leafBytes pairs := by
  rcases bind_eq_ok.mp hTotal with ⟨_, hNe, hTotal⟩
  have hPos : 0 < pairs.length := by
    by_contra hNil
    simp [require, length_eq_zero_iff.mp (Nat.le_zero.mp (not_lt.mp hNil))] at hNe
  rw [valueEnd?, if_neg (by omega)] at hTotal
  cases hTotal
  rw [valueEnd, keysEnd, leafBytes, kvBytes_eq, take_of_length_le (by omega)]
  omega

/- The contents of each page fit into it. -/
def BtreeEnv.Stored (env : BtreeEnv P K V) : (n : Nat) → Tree P K V n → Prop
  | 0, leaf => env.fmt.leafBytes (Leaf.pairs leaf) ≤ pageBytes (env.alloc.order (Leaf.page leaf))
  | n + 1, branch =>
    env.fmt.branchBytes (Branch.keys branch) ≤ pageBytes (env.alloc.order (Branch.page branch)) ∧
      ∀ c ∈ Branch.children branch, env.Stored n c.1

theorem BtreeEnv.branchStats_balanced (env : BtreeEnv P K V) {C : Type} {branch : Branch P K C}
    (hFits : env.fmt.branchBytes branch.keys ≤ pageBytes (env.alloc.order branch.page)) :
    (env.branchStats branch).Balanced env.alloc {branch.page} := by
  refine .page ?_ rfl
  simp only [branchStats]
  omega

theorem BtreeEnv.statsHelper_balanced (env : BtreeEnv P K V) {n : Nat} {t : Tree P K V n}
    (hStored : env.Stored n t) {stats : BtreeStats} (hStats : env.statsHelper n t = .ok stats) :
    stats.Balanced env.alloc (pageSet n t) := by
  induction n generalizing stats with
  | zero =>
    rcases bind_eq_ok.mp hStats with ⟨bytes, hBytes, hStats⟩
    rcases bind_eq_ok.mp hStats with ⟨total, hTotal, hStats⟩
    cases hStats
    rw [env.fmt.lengthOfPairs_all] at hBytes
    cases hBytes
    have hFits : env.fmt.leafBytes (Leaf.pairs t) ≤ _ := hStored
    refine .page ?_ rfl
    simp only [env.fmt.totalLength_eq hTotal]
    unfold Format.leafBytes at hFits ⊢
    omega
  | succ n ih =>
    rcases bind_eq_ok.mp hStats with ⟨all, hAll, hStats⟩
    cases hStats
    exact BtreeStats.Balanced.foldl (fun c hc s hs => ih (hStored.2 c hc) hs)
      (env.branchStats_balanced hStored.1) hAll

namespace MultimapEnv

variable (env : MultimapEnv P K V)

/- The inlined values are a part of the leaf. -/
theorem inlineBytes_le {pairs : List (K × DynamicCollection P V)} {bytes : Nat}
    (hBytes : env.inlineBytes pairs = .ok bytes) : bytes ≤ env.table.fmt.kvBytes pairs := by
  induction pairs generalizing bytes with
  | nil =>
    cases hBytes
    exact Nat.zero_le _
  | cons first rest ih =>
    have hCons : env.table.fmt.kvBytes (first :: rest) =
        env.keyLen first.1 + env.collectionLen first.2 + env.table.fmt.kvBytes rest := by
      rw [Format.kvBytes, map_cons, sum_cons]
      rfl
    rw [hCons]
    rcases first with ⟨_, _ | _⟩
    · rcases bind_eq_ok.mp hBytes with ⟨own, hOwn, hBytes⟩
      rcases bind_eq_ok.mp hBytes with ⟨_, hOthers, hBytes⟩
      cases hBytes
      rw [env.values.lengthOfPairs_all] at hOwn
      cases hOwn
      have hRest := ih hOthers
      simp only [collectionLen, Format.leafBytes]
      omega
    · exact Nat.le_trans (ih hBytes) (Nat.le_add_left _ _)

/- All pages of the table, those of value trees included. -/
def allPages : (n : Nat) → Tree P K (DynamicCollection P V) n → Multiset P
  | 0, leaf => {Leaf.page leaf} +
      ((valueTrees (Leaf.pairs leaf)).map fun root => pageSet root.height root.tree).sum
  | n + 1, branch => {Branch.page branch} + childPages (allPages n) (Branch.children branch)

/- The contents of each page of the table, and of its value trees, fit into it. -/
def Stored : (n : Nat) → Tree P K (DynamicCollection P V) n → Prop
  | 0, leaf => env.table.Stored 0 leaf ∧
      ∀ root ∈ valueTrees (Leaf.pairs leaf), env.subtrees.Stored root.height root.tree
  | n + 1, branch => env.table.fmt.branchBytes (Branch.keys branch) ≤
        pageBytes (env.alloc.order (Branch.page branch)) ∧
      ∀ c ∈ Branch.children branch, Stored n c.1

theorem multimapStatsHelper_balanced {n : Nat} {t : Tree P K (DynamicCollection P V) n}
    (hStored : env.Stored n t) {stats : BtreeStats}
    (hStats : env.multimapStatsHelper n t = .ok stats) :
    stats.Balanced env.alloc (allPages n t) := by
  induction n generalizing stats with
  | zero =>
    rcases bind_eq_ok.mp hStats with ⟨bytes, hBytes, hStats⟩
    rcases bind_eq_ok.mp hStats with ⟨total, hTotal, hStats⟩
    rcases bind_eq_ok.mp hStats with ⟨trees, hTrees, hStats⟩
    cases hStats
    refine BtreeStats.Balanced.foldl (fun root hRoot s hs =>
      env.subtrees.statsHelper_balanced (hStored.2 root hRoot) hs) ?_ hTrees
    have hInline := env.inlineBytes_le hBytes
    have hFits : env.table.fmt.leafBytes (Leaf.pairs t) ≤ _ := hStored.1
    refine .page ?_ (by simp only [leafStats]; split <;> rfl)
    simp only [leafStats, env.table.fmt.totalLength_eq hTotal]
    change _ ≤ pageBytes (env.alloc.order (Leaf.page t)) at hFits
    change _ = pageBytes (env.alloc.order (Leaf.page t))
    unfold Format.leafBytes at hFits ⊢
    omega
  | succ n ih =>
    rcases bind_eq_ok.mp hStats with ⟨all, hAll, hStats⟩
    cases hStats
    exact BtreeStats.Balanced.foldl (fun c hc s hs => ih (hStored.2 c hc) hs)
      (env.table.branchStats_balanced hStored.1) hAll

end MultimapEnv

namespace AnyTable

def alloc : AnyTable P K V → PageAllocator P
  | normal env _ => env.alloc
  | multimap env _ => env.alloc

/- All pages of the table. -/
def pages : AnyTable P K V → Multiset P
  | normal _ root => rootPages root
  | multimap _ root => root.elim 0 fun r => MultimapEnv.allPages r.height r.tree

/- The contents of each page fit into it. -/
def Stored : AnyTable P K V → Prop
  | normal env root => ∀ r ∈ root, env.Stored r.height r.tree
  | multimap env root => ∀ r ∈ root, env.Stored r.height r.tree

end AnyTable

/- Stored, metadata and fragmented bytes are all bytes of the pages of a table of either kind. -/
theorem stats_add_up
    [LinearOrder K]
    {table : AnyTable P K V}
    (hGood : table.Good)
    (hStored : table.Stored) :
    ∃ stats, table.stats = .ok stats ∧ stats.Balanced table.alloc table.pages := by
  rcases table with ⟨env, _ | r⟩ | ⟨env, _ | r⟩
  · exact ⟨_, rfl, rfl, rfl⟩
  · rcases env.btreeStats_spec hGood with ⟨stats, hStats, -⟩
    exact ⟨stats, hStats, env.statsHelper_balanced (hStored r rfl) hStats⟩
  · exact ⟨_, rfl, rfl, rfl⟩
  · rcases env.multimapBtreeStats_spec hGood.1 hGood.2.1 hGood.2.2 with ⟨stats, hStats, -⟩
    exact ⟨stats, hStats, env.multimapStatsHelper_balanced (hStored r rfl) hStats⟩

/- A normal table of one page, and a multimap table with a page of values. -/
theorem two_tables_add_up :
    (∃ stats, oneEntry.stats = .ok stats ∧ stats.Balanced natAllocator {(0, 0)}) ∧
      ∃ stats, (twoKeys 8).stats = .ok stats ∧
        stats.Balanced natAllocator ({(0, 0)} + {(0, 1)}) := by
  refine ⟨stats_add_up oneEntry_good ?_, stats_add_up (twoKeys_good 8) ?_⟩
  · rintro r ⟨⟩
    exact show _ ≤ 4096 by decide
  · rintro r ⟨⟩
    refine ⟨show _ ≤ 4096 by decide, fun root hRoot => ?_⟩
    rcases mem_singleton.mp hRoot with rfl
    exact show _ ≤ 4096 by decide

end Redbx
