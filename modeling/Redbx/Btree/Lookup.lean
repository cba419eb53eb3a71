import Redbx.Btree.BtreeMut
import Redbx.Btree.Progress

/-
  Lookups and mutable guards.

  The descent to the leaf of a key finds what the entries of the tree bind the key to. A mutable
  guard makes the path to this leaf uncommitted and then overwrites the value of the key in the
  leaf.

  Key theorems include:
    * `getMutHelper_spec`, `guardHelper_spec`
-/

namespace Redbx

open Redbx.Tree List Option

variable {P K V : Type} [LinearOrder K]

-- Lookups

variable {n : Nat} {lo hi : Option K} {key : K} {t : Tree P K V n}

theorem getHelper_eq (hGood : Good n lo hi t) (hKey : Within lo hi key) :
    BtreeEnv.getHelper n t key = .ok ((entries n t).lookup key) := by
  induction n generalizing lo hi with
  | zero =>
    rw [BtreeEnv.getHelper]
    change _ = Except.ok ((Leaf.pairs t).lookup key)
    rcases position_cases t key hGood.2.1 with ⟨a, b, hA, hB, ⟨hPos, hList⟩ | ⟨v, hPos, hList⟩⟩
    · rw [hPos, hList, lookup_middle hA hB]
      rfl
    · rw [hPos, hList, lookup_middle hA hB]
      simp only [getElem?_middle]
      simp [unwrap]
  | succ n ih =>
    rcases exists_route hGood hKey with ⟨ca, c, cb, ka, kb, hRoute⟩
    rw [BtreeEnv.getHelper, hRoute.child_eq, hRoute.entries_eq,
      lookup_middle hRoute.below hRoute.above]
    exact ih hRoute.good hRoute.within

/- The leftmost descent finds the first entry. -/
theorem firstHelper_eq (hGood : Good n lo hi t) :
    ∃ e, BtreeEnv.firstHelper n t = .ok e ∧ (entries n t).head? = some e := by
  induction n generalizing lo hi with
  | zero =>
    have hNe : Leaf.pairs t ≠ [] := hGood.1
    refine ⟨(Leaf.pairs t).head hNe, ?_, head?_eq_some_head hNe⟩
    rw [BtreeEnv.firstHelper, ← head?_eq_getElem?, head?_eq_some_head hNe]
    rfl
  | succ n ih =>
    have hChain : Chain (ChildGood n) (Branch.keys t) lo (Branch.children t) hi := hGood.2
    have hLength := hChain.length_eq
    rcases hChildren : Branch.children t with _ | ⟨c, rest⟩
    · rw [hChildren] at hLength
      simp at hLength
    · rw [hChildren] at hChain
      rcases hChain.exists_good mem_cons_self with ⟨a, b, hC⟩
      rcases ih hC with ⟨e, hFirst, hHead⟩
      refine ⟨e, ?_, ?_⟩
      · rw [BtreeEnv.firstHelper, hChildren]
        exact hFirst
      · change (childEntries n (Branch.children t)).head? = _
        rw [hChildren, childEntries, flatMap_cons, head?_append, hHead]
        rfl

/- The rightmost descent finds the last entry. -/
theorem lastHelper_eq (hGood : Good n lo hi t) :
    ∃ e, BtreeEnv.lastHelper n t = .ok e ∧ (entries n t).getLast? = some e := by
  induction n generalizing lo hi with
  | zero =>
    have hNe : Leaf.pairs t ≠ [] := hGood.1
    refine ⟨(Leaf.pairs t).getLast hNe, ?_, getLast?_eq_some_getLast hNe⟩
    rw [BtreeEnv.lastHelper, ← getLast?_eq_getElem?, getLast?_eq_some_getLast hNe]
    rfl
  | succ n ih =>
    have hChain : Chain (ChildGood n) (Branch.keys t) lo (Branch.children t) hi := hGood.2
    have hLength := hChain.length_eq
    rcases eq_nil_or_concat' (Branch.children t) with hChildren | ⟨rest, c, hChildren⟩
    · rw [hChildren] at hLength
      simp at hLength
    · rw [hChildren] at hChain
      rcases hChain.exists_good (mem_append_right _ mem_cons_self) with ⟨a, b, hC⟩
      rcases ih hC with ⟨e, hLast, hEnd⟩
      refine ⟨e, ?_, ?_⟩
      · rw [BtreeEnv.lastHelper, ← getLast?_eq_getElem?, hChildren, getLast?_concat]
        exact hLast
      · change (childEntries n (Branch.children t)).getLast? = _
        rw [hChildren, childEntries_append, childEntries_singleton, getLast?_append, hEnd]
        rfl

-- The Leaf of a Key

variable {branch : Branch P K (Tree P K V n)} {ca cb : Children P K V n}
    {c : Tree P K V n × Checksum} {ka kb : List K}

theorem Route.leafFor_eq (hRoute : Route branch lo hi key ca c cb ka kb) :
    leafFor (n + 1) branch key = leafFor n c.1 key := by
  rw [leafFor, hRoute.child_eq]

theorem leafFor_sorted {leaf : Leaf P K V} (hGood : Good n lo hi t) (hKey : Within lo hi key)
    (hLeaf : leafFor n t key = some leaf) :
    Sorted leaf.pairs := by
  induction n generalizing lo hi with
  | zero =>
    cases hLeaf
    exact hGood.2.1
  | succ n ih =>
    rcases exists_route hGood hKey with ⟨ca, c, cb, ka, kb, hRoute⟩
    rw [hRoute.leafFor_eq] at hLeaf
    exact ih hRoute.good hRoute.within hLeaf

/- The branch with another child on the way to a key. -/
abbrev Branch.setChild {C : Type} (branch : Branch P K C) (key : K) (d : C × Checksum) :
    Branch P K C :=
  ⟨branch.page, branch.children.set (branch.childForKey key) d, branch.keys⟩

theorem Route.set_leafFor
    (hRoute : Route branch lo hi key ca c cb ka kb) (d : Tree P K V n × Checksum) :
    leafFor (n + 1) (branch.setChild key d) key = leafFor n d.1 key := by
  have hChild : (Branch.children (branch.setChild key d))[
        Branch.childForKey (branch.setChild key d) key]? = some d := by
    change (branch.children.set (branch.childForKey key) d)[ branch.childForKey key]? = some d
    rw [hRoute.set_eq, hRoute.index_eq, getElem?_middle]
  rw [leafFor, hChild]

theorem Route.set_good
    (hGood : Good (n + 1) lo hi branch) (hRoute : Route branch lo hi key ca c cb ka kb)
    {d : Tree P K V n × Checksum} (hD : Good n (lastBound lo ka) (firstBound kb hi) d.1) :
    Good (n + 1) lo hi (branch.setChild key d) ∧ entries (n + 1) (branch.setChild key d) =
        childEntries n ca ++ entries n d.1 ++ childEntries n cb := by
  refine ⟨⟨hGood.1, ?_⟩, ?_⟩
  · change Chain (ChildGood n) branch.keys lo (branch.children.set (branch.childForKey key) d) hi
    rw [hRoute.set_eq, hRoute.keys_eq]
    exact hRoute.replace [] [d] ((Chain.nil_singleton _ _ _).mpr hD)
  · change childEntries n (branch.children.set (branch.childForKey key) d) = _
    rw [hRoute.set_eq, childEntries_append, childEntries_append, childEntries_singleton]

theorem Route.set_insert
    {value : V} (hGood : Good (n + 1) lo hi branch) (hRoute : Route branch lo hi key ca c cb ka kb)
    {d : Tree P K V n × Checksum} (hD : Good n (lastBound lo ka) (firstBound kb hi) d.1)
    (hEntries : entries n d.1 = insertEntry key value (entries n c.1)) :
    Good (n + 1) lo hi (branch.setChild key d) ∧
      entries (n + 1) (branch.setChild key d) = insertEntry key value (entries (n + 1) branch) := by
  rcases hRoute.set_good hGood hD with ⟨hNewGood, hNewEntries⟩
  refine ⟨hNewGood, ?_⟩
  rw [hNewEntries, hEntries, hRoute.entries_eq, insertEntry_middle hRoute.below hRoute.above]

-- Mutable Guards

/- The leaf of the key has the pairs and is uncommitted. -/
def Guarded [DecidableEq P] (mem : Mem P K V) (n : Nat) (t : Tree P K V n) (key : K)
    (pairs : List (K × V)) :
    Prop :=
  ∃ p, leafFor n t key = some ⟨p, pairs⟩ ∧ p ∈ mem.uncommitted

/- A node on another page is the same node. -/
theorem withPage_eq (n : Nat) (t : Tree P K V n) (p : P) (key : K) (lo hi : Option K) :
    page n (withPage n t p) = p ∧ (Good n lo hi (withPage n t p) ↔ Good n lo hi t) ∧
      entries n (withPage n t p) = entries n t ∧
      (leafFor n (withPage n t p) key).map Leaf.pairs = (leafFor n t key).map Leaf.pairs := by
  cases n with
  | zero | succ => exact ⟨rfl, Iff.rfl, rfl, rfl⟩

section Guards

variable [DecidableEq P] (env : BtreeEnv P K V)

/- An owned node is the same node on an uncommitted page. -/
theorem ownPage_spec (n : Nat) (t : Tree P K V n) (checksum : Checksum) (mem : Mem P K V) (key : K)
    (lo hi : Option K) :
    let result := env.ownPage n t checksum mem
    page n result.1.1 ∈ result.2.uncommitted ∧ mem.uncommitted ⊆ result.2.uncommitted ∧
      (Good n lo hi result.1.1 ↔ Good n lo hi t) ∧
      entries n result.1.1 = entries n t ∧
      (leafFor n result.1.1 key).map Leaf.pairs = (leafFor n t key).map Leaf.pairs := by
  intro result
  by_cases hU : mem.isUncommitted (page n t) = true
  · have hEq : result = ((t, checksum), mem) := by simp [result, BtreeEnv.ownPage, hU]
    rw [hEq]
    exact ⟨by simpa [PageMemory.isUncommitted] using hU, Finset.Subset.refl _, Iff.rfl, rfl, rfl⟩
  · have hEq : result = ((withPage n t (env.alloc.pick mem.allocated (requiredOrder
              (pageBytes (env.alloc.order (page n t))))),
          deferred),
          (mem.allocate env.alloc (requiredOrder (pageBytes (env.alloc.order (page n t))))
            (image n t)).2.pushFreed (page n t)) := by
      simp [result, BtreeEnv.ownPage, hU, PageMemory.allocate]
    rw [hEq]
    rcases withPage_eq n t (env.alloc.pick mem.allocated
      (requiredOrder (pageBytes (env.alloc.order (page n t)))))
      key lo hi with ⟨hPage, hGood, hEntries, hLeaf⟩
    refine ⟨?_, Finset.subset_insert _ _, hGood, hEntries, hLeaf⟩
    rw [hPage]
    exact Finset.mem_insert_self _ _

/- The path to the leaf of a key becomes uncommitted. -/
theorem getMutHelper_spec
    {n : Nat} {t : Tree P K V n} {mem : Mem P K V} {lo hi : Option K} {key : K}
    (hGood : Good n lo hi t) (hKey : Within lo hi key) (hOwned : page n t ∈ mem.uncommitted) :
    ∃ t' found mem' pairs, env.getMutHelper n t key mem = .ok (t', found, mem') ∧ Good n lo hi t' ∧
      entries n t' = entries n t ∧
      found = ((entries n t).lookup key).isSome ∧
      mem.uncommitted ⊆ mem'.uncommitted ∧
      (leafFor n t key).map Leaf.pairs = some pairs ∧
      pairs.lookup key = (entries n t).lookup key ∧
      Guarded mem' n t' key pairs := by
  induction n generalizing lo hi mem with
  | zero =>
    have hIn : mem.isUncommitted (Leaf.page t) = true := decide_eq_true hOwned
    have hFound : (Leaf.position t key).2 = ((Leaf.pairs t).lookup key).isSome := by
      rcases position_cases t key hGood.2.1 with ⟨a, b, hA, hB, ⟨hPos, hList⟩ | ⟨v, hPos, hList⟩⟩
      · rw [hPos, hList, lookup_middle hA hB]
        rfl
      · rw [hPos, hList, lookup_middle hA hB]
        simp
    refine ⟨t, (Leaf.position t key).2, mem, Leaf.pairs t, ?_,
      hGood, rfl, hFound, Finset.Subset.refl _, rfl, rfl, Leaf.page t, rfl, hOwned⟩
    simp [BtreeEnv.getMutHelper, require, hIn]
  | succ n ih =>
    rcases exists_route hGood hKey with ⟨ca, c, cb, ka, kb, hRoute⟩
    rcases ownPage_spec env n c.1 c.2 mem key (lastBound lo ka) (firstBound kb hi) with
      ⟨hPage, hMore, hSame, hEntries, hLeaf⟩
    generalize hOwn : env.ownPage n c.1 c.2 mem = owned at *
    -- recording the copy changes no mark
    generalize hMem : (if (!mem.isUncommitted (page n c.1)) = true then
        owned.2.write (Branch.page t) (branchImage n ((Branch.children t).set
              (Branch.childForKey t key) owned.1)
            (Branch.keys t))
      else owned.2) = mem1
    have hMarks : mem1.uncommitted = owned.2.uncommitted := by
      rw [← hMem]
      split <;> rfl
    rcases ih (hSame.mpr hRoute.good) hRoute.within (hMarks ▸ hPage) with
      ⟨child, found, mem', pairs, hSub, hChild, hSubEntries,
        hFound, hKept, hPairs, hLookup, p, hAt, hU⟩
    have hAll : mem.uncommitted ⊆ mem'.uncommitted := hMore.trans (hMarks ▸ hKept)
    have hIn : mem'.isUncommitted (Branch.page t) = true := decide_eq_true (hAll hOwned)
    have hTree : (entries (n + 1) t).lookup key = (entries n c.1).lookup key := by
      rw [hRoute.entries_eq, lookup_middle hRoute.below hRoute.above]
    rcases hRoute.set_good hGood (d := (child, owned.1.2)) hChild with ⟨hNewGood, hNewEntries⟩
    refine ⟨Branch.setChild t key (child, owned.1.2), found, mem', pairs,
      ?_, hNewGood, ?_, ?_, hAll, ?_, ?_, p, ?_, hU⟩
    · simp only [BtreeEnv.getMutHelper, hRoute.child_eq,
        unwrap, elim_some, ok_bind, hOwn, hMem, hSub, hIn, require, Bool.or_true]
      rfl
    · rw [hNewEntries, hSubEntries, hEntries, ← hRoute.entries_eq]
    · rw [hFound, hTree, hEntries]
    · rw [hRoute.leafFor_eq, ← hLeaf, hPairs]
    · rw [hLookup, hTree, hEntries]
    · rw [hRoute.set_leafFor, hAt]

/- Overwriting the value of a guarded key. -/
theorem guardHelper_spec {n : Nat} {t : Tree P K V n} {mem : Mem P K V} {lo hi : Option K} {key : K}
    {pairs : List (K × V)} (value : V) (hGood : Good n lo hi t) (hKey : Within lo hi key)
    (hGuarded : Guarded mem n t key pairs) (hFound : (pairs.lookup key).isSome)
    (hCount : pairs.length ≤ Format.maxCount)
    (hBytes : env.fmt.leafBytes (insertEntry key value pairs) < Format.offsetLimit) :
    ∃ t' moved mem', env.guardHelper n t key value mem = .ok (t', moved, mem') ∧ Good n lo hi t' ∧
      entries n t' = insertEntry key value (entries n t) ∧
      Guarded mem' n t' key (insertEntry key value pairs) := by
  induction n generalizing lo hi with
  | zero =>
    rcases hGuarded with ⟨p, hAt, hU⟩
    cases hAt
    have hSorted : Sorted pairs := hGood.2.1
    have hLength : (insertEntry key value pairs).length = pairs.length := by
      rw [length_insertEntry hSorted, if_pos hFound]
      rfl
    have hNew : LeafGood lo hi (insertEntry key value pairs) :=
      LeafGood.insertEntry hGood hKey value
    have hPos : (Leaf.position ⟨p, pairs⟩ key : Nat × Bool).2 = true := by
      rcases position_cases (⟨p, pairs⟩ : Leaf P K V) key hSorted with
        ⟨a, b, hA, hB, ⟨_, hList⟩ | ⟨v, hPos, hList⟩⟩
      · change pairs = _ at hList
        rw [hList, lookup_middle hA hB] at hFound
        simp at hFound
      · rw [hPos]
    rcases hSearch : Leaf.position (⟨p, pairs⟩ : Leaf P K V) key with ⟨position, found⟩
    rw [hSearch] at hPos
    cases hPos
    have hPairs := (insertPairs_eq (⟨p, pairs⟩ : Leaf P K V) key value hSorted hSearch).1
    change insertInplace pairs position true key value = _ at hPairs
    simp only [BtreeEnv.guardHelper, hSearch, hPairs]
    split
    · have hFits := env.fmt.insertEncodable_of_room position (hLength ▸ hCount) hBytes
      rw [hFits]
      exact ⟨_, _, _, rfl, hNew, rfl, p, rfl, hU⟩
    · rcases buildLeaf_returns env mem (env.fmt.leafEncodable_of_sublist (List.Sublist.refl _)
          hNew.1 (hLength ▸ hCount) hBytes) with
        ⟨newLeaf, mem1, hBuild⟩
      have hNewPairs := (env.buildLeaf_ok hBuild).2.1
      rcases env.buildLeaf_fresh hBuild with ⟨hFresh, hMarks⟩
      have hNewPage : newLeaf.page ≠ p := by
        intro hEq
        rw [hEq] at hFresh
        exact hFresh (Finset.mem_union_right _ hU)
      have hOld : mem1.isUncommitted p = true := by
        refine decide_eq_true ?_
        rw [hMarks]
        exact Finset.mem_insert_of_mem hU
      simp only [hBuild, ok_bind, hOld, require]
      refine ⟨newLeaf, true, mem1.free p, rfl, ?_, hNewPairs, newLeaf.page, ?_, ?_⟩
      · change LeafGood lo hi newLeaf.pairs
        rwa [hNewPairs]
      · rw [← hNewPairs]
        rfl
      · refine Finset.mem_erase.mpr ⟨hNewPage, ?_⟩
        rw [hMarks]
        exact Finset.mem_insert_self _ _
  | succ n ih =>
    rcases exists_route hGood hKey with ⟨ca, c, cb, ka, kb, hRoute⟩
    rcases hGuarded with ⟨p, hAt, hU⟩
    rw [hRoute.leafFor_eq] at hAt
    rcases ih hRoute.good hRoute.within ⟨p, hAt, hU⟩ with
      ⟨child, moved, mem', hSub, hChild, hEntries, q, hNewAt, hNewU⟩
    simp only [BtreeEnv.guardHelper, hRoute.child_eq, unwrap, elim_some, ok_bind, hSub]
    cases moved with
    | true =>
      rcases hRoute.set_insert hGood (d := (child, deferred)) hChild hEntries with ⟨hG, hE⟩
      exact ⟨_, _, _, rfl, hG, hE, q, (hRoute.set_leafFor _).trans hNewAt, hNewU⟩
    | false =>
      rcases hRoute.set_insert hGood (d := (child, c.2)) hChild hEntries with ⟨hG, hE⟩
      exact ⟨_, _, _, rfl, hG, hE, q, (hRoute.set_leafFor _).trans hNewAt, hNewU⟩

end Guards

end Redbx
