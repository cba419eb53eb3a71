import Redbx.Btree.LeafCapacity

/-
  The shape of every tree that calls on a table lead to.

  The shape is stated on the pages of the memory, as one finds them by following page numbers from
  the root. Every call that returns keeps the search-tree invariant; no room is assumed, since a
  call without room does not return.

  Key theorems include:
    * `trees_are_well_shaped`, `snapshot_keeps_entries`
-/

namespace Redbx

open Redbx.Tree List

-- Shape of the Pages

/- A page is found a number of levels below another. -/
inductive FoundAt {P K V : Type} (pages : P → Option (Node P K V)) : P → Nat → P → Prop where
  | here (p : P) : FoundAt pages p 0 p
  | under {p q : P} {d : Nat} {children : List (P × Checksum)} {keys : List K} {c : P × Checksum}
      (hPage : pages p = some (.branch children keys)) (hChild : c ∈ children)
      (hFound : FoundAt pages c.1 d q) :
      FoundAt pages p (d + 1) q

/- The key is in a leaf below the page. -/
def KeyBelow {P K V : Type} (pages : P → Option (Node P K V)) (p : P) (key : K) : Prop :=
  ∃ d q pairs, FoundAt pages p d q ∧ pages q = some (.leaf pairs) ∧ key ∈ pairs.map Prod.fst

/- The shape of the tree below a root page. -/
structure WellShaped
    {P K V : Type} [LinearOrder K] (pages : P → Option (Node P K V)) (root : P) (height : Nat) :
    Prop where
  present : ∀ d q, FoundAt pages root d q → (pages q).isSome
  leafDepth : ∀ d q pairs, FoundAt pages root d q → pages q = some (.leaf pairs) → d = height
  leafPairs : ∀ d q pairs, FoundAt pages root d q → pages q = some (.leaf pairs) → pairs ≠ []
  leafKeys : ∀ d q pairs, FoundAt pages root d q → pages q = some (.leaf pairs) →
      (pairs.map Prod.fst).Pairwise (· < ·)
  branchChildren : ∀ d q children keys, FoundAt pages root d q →
    pages q = some (.branch children keys) → 2 ≤ children.length ∧ children.length = keys.length + 1
  branchKeys : ∀ d q children keys, FoundAt pages root d q →
    pages q = some (.branch children keys) → keys.Pairwise (· < ·)
  separates : ∀ d q children keys, FoundAt pages root d q → pages q = some (.branch children keys) →
    ∀ i separator, keys[i]? = some separator → (∀ c, children[i]? = some c →
        ∀ key, KeyBelow pages c.1 key → key ≤ separator) ∧
      ∀ c, children[i + 1]? = some c → ∀ key, KeyBelow pages c.1 key → separator < key

-- Stored Search Trees

section Stored

variable {P K V : Type} [LinearOrder K] [DecidableEq P] {mem : Mem P K V} {n : Nat}

variable {t : Tree P K V n} {lo hi : Option K}

theorem FoundAt.subtree {d : Nat} {q : P} (hHolds : Holds mem n t) (hGood : Good n lo hi t)
    (hFound : FoundAt mem.pages (page n t) d q) :
    ∃ m, ∃ s : Tree P K V m, ∃ lo' hi', d + m = n ∧ page m s = q ∧ Holds mem m s ∧
        Good m lo' hi' s ∧ entries m s ⊆ entries n t := by
  induction n generalizing lo hi d q with
  | zero =>
    cases hFound with
    | here => exact ⟨0, t, lo, hi, rfl, rfl, hHolds, hGood, List.Subset.refl _⟩
    | under hPage =>
      have hLeaf : mem.pages (page 0 t) = some (.leaf (Leaf.pairs t)) := hHolds
      rw [hLeaf] at hPage
      cases hPage
  | succ n ih =>
    cases hFound with
    | here => exact ⟨n + 1, t, lo, hi, Nat.zero_add _, rfl, hHolds, hGood, List.Subset.refl _⟩
    | under hPage hChild hBelow =>
      have hBranch : mem.pages (page (n + 1) t) =
          some (branchImage n (Branch.children t) (Branch.keys t)) := hHolds.1
      rw [hBranch] at hPage
      cases hPage
      rcases mem_map.mp hChild with ⟨c, hc, rfl⟩
      rcases Chain.exists_good hGood.2 hc with ⟨lo', hi', hChildGood⟩
      rcases ih (hHolds.2 c hc) hChildGood hBelow with
        ⟨m, s, lo'', hi'', hDepth, hAt, hStored, hSub, hEntries⟩
      refine ⟨m, s, lo'', hi'', by omega, hAt, hStored, hSub, ?_⟩
      intro e he
      exact mem_flatMap.mpr ⟨c, hc, hEntries he⟩

/- A key below a stored tree is one of its keys. -/
theorem KeyBelow.mem_entries {key : K} (hHolds : Holds mem n t) (hGood : Good n lo hi t)
    (hBelow : KeyBelow mem.pages (page n t) key) :
    ∃ e ∈ entries n t, e.1 = key := by
  rcases hBelow with ⟨d, q, pairs, hFound, hPage, hKey⟩
  rcases hFound.subtree hHolds hGood with ⟨m, s, _, _, _, rfl, hStored, _, hEntries⟩
  rw [hStored.pages_page] at hPage
  cases m with
  | zero =>
    cases hPage
    rcases mem_map.mp hKey with ⟨e, he, rfl⟩
    exact ⟨e, hEntries he, rfl⟩
  | succ m => cases hPage

omit [DecidableEq P] in
theorem chain_separates {keys : List K} {children : Children P K V n}
    (hChain : Chain (ChildGood n) keys lo children hi) {i : Nat} {separator : K}
    (hKey : keys[i]? = some separator) :
    (∀ c, children[i]? = some c → ∀ e ∈ entries n c.1, e.1 ≤ separator) ∧
      ∀ c, children[i + 1]? = some c → ∀ e ∈ entries n c.1, separator < e.1 := by
  induction keys generalizing lo children i with
  | nil => cases hKey
  | cons k rest ih =>
    rcases hChain with ⟨_, _, rfl, hFirst, hRest⟩
    cases i with
    | succ i => exact ih hRest hKey
    | zero =>
      have hIs : k = separator := Option.some.inj hKey
      subst hIs
      refine ⟨?_, ?_⟩
      · intro c hc e he
        cases hc
        exact (hFirst.leafGood.2.2 e he).2 k rfl
      · intro c hc e he
        -- the child on the right starts the rest
        have hLow : ∃ b, ChildGood n (some k) b c := by
          cases rest with
          | nil =>
            rcases hRest with ⟨only, rfl, hOnly⟩
            cases hc
            exact ⟨hi, hOnly⟩
          | cons next =>
            rcases hRest with ⟨_, _, rfl, hSecond, _⟩
            cases hc
            exact ⟨some next, hSecond⟩
        rcases hLow with ⟨b, hc⟩
        exact (hc.leafGood.2.2 e he).1 k rfl

/- A stored search tree is well shaped. -/
theorem wellShaped_of_good (hHolds : Holds mem n t) (hGood : Good n none none t) :
    WellShaped mem.pages (page n t) n := by
  -- what a leaf page and a branch page below the root are
  have hLeaf : ∀ d q pairs, FoundAt mem.pages (page n t) d q →
      mem.pages q = some (.leaf pairs) → d = n ∧ ∃ lo hi, LeafGood lo hi pairs := by
    intro d q pairs hFound hPage
    rcases hFound.subtree hHolds hGood with ⟨m, s, lo, hi, hDepth, rfl, hStored, hSub, _⟩
    rw [hStored.pages_page] at hPage
    cases m with
    | zero =>
      cases hPage
      exact ⟨hDepth, lo, hi, hSub⟩
    | succ m => cases hPage
  have hBranch : ∀ d q children keys, FoundAt mem.pages (page n t) d q →
      mem.pages q = some (.branch children keys) →
        ∃ m lo hi, ∃ below : Children P K V m,
          children = below.map (fun c => (page m c.1, c.2)) ∧ keys ≠ [] ∧
            Chain (ChildGood m) keys lo below hi ∧
            ∀ c ∈ below, Holds mem m c.1 := by
    intro d q children keys hFound hPage
    rcases hFound.subtree hHolds hGood with ⟨m, s, lo, hi, hDepth, rfl, hStored, hSub, _⟩
    rw [hStored.pages_page] at hPage
    cases m with
    | zero => cases hPage
    | succ m =>
      cases hPage
      exact ⟨m, lo, hi, Branch.children s, rfl, hSub.1, hSub.2, hStored.2⟩
  refine ⟨?_, ?_, ?_, ?_, ?_, ?_, ?_⟩
  · intro d q hFound
    rcases hFound.subtree hHolds hGood with ⟨m, s, _, _, _, rfl, hStored, _, _⟩
    rw [hStored.pages_page]
    rfl
  · intro d q pairs hFound hPage
    exact (hLeaf d q pairs hFound hPage).1
  · intro d q pairs hFound hPage
    rcases (hLeaf d q pairs hFound hPage).2 with ⟨lo, hi, hPairs⟩
    exact hPairs.1
  · intro d q pairs hFound hPage
    rcases (hLeaf d q pairs hFound hPage).2 with ⟨lo, hi, hPairs⟩
    exact pairwise_map.mpr hPairs.2.1
  · intro d q children keys hFound hPage
    rcases hBranch d q children keys hFound hPage with ⟨_, _, _, _, rfl, hKeys, hChain, _⟩
    have hLength := hChain.length_eq
    have hSome := length_pos_iff.mpr hKeys
    rw [length_map]
    exact ⟨by omega, hLength⟩
  · intro d q children keys hFound hPage
    rcases hBranch d q children keys hFound hPage with ⟨_, _, _, _, rfl, _, hChain, _⟩
    exact (keys_sorted hChain).1
  · intro d q children keys hFound hPage i separator hKey
    rcases hBranch d q children keys hFound hPage with ⟨m, lo, hi, below, rfl, _, hChain, hStored⟩
    rcases chain_separates hChain hKey with ⟨hLeft, hRight⟩
    -- a key below a child is a key of one of its entries
    have hEntry : ∀ (j : Nat) (c : P × Checksum),
        (below.map fun c => (page m c.1, c.2))[j]? = some c →
          ∃ c' : Tree P K V m × Checksum, below[j]? = some c' ∧
            ∀ key, KeyBelow mem.pages c.1 key → ∃ e ∈ entries m c'.1, e.1 = key := by
      intro j c hc
      rw [getElem?_map] at hc
      rcases Option.map_eq_some_iff.mp hc with ⟨c', hc', rfl⟩
      have hMem := mem_of_getElem? hc'
      rcases Chain.exists_good hChain hMem with ⟨a, b, hChild⟩
      refine ⟨c', hc', ?_⟩
      intro key hBelow
      exact hBelow.mem_entries (hStored c' hMem) hChild
    refine ⟨?_, ?_⟩
    · intro c hc key hBelow
      rcases hEntry i c hc with ⟨c', hc', hKeys⟩
      rcases hKeys key hBelow with ⟨e, he, rfl⟩
      exact hLeft c' hc' e he
    · intro c hc key hBelow
      rcases hEntry (i + 1) c hc with ⟨c', hc', hKeys⟩
      rcases hKeys key hBelow with ⟨e, he, rfl⟩
      exact hRight c' hc' e he

end Stored

-- Calls

variable {P K V : Type} [LinearOrder K]

/- The root is that of a search tree. -/
def SearchRoot (root : TreeRoot P K V) : Prop :=
  ∀ r, root = some r → Good r.height none none r.tree

variable [DecidableEq P] {env : BtreeEnv P K V} {mem mem' : Mem P K V}
    {root root' : TreeRoot P K V} {key : K} {value : V}

/- An insertion that returns leaves a search tree. -/
theorem insert_good {modify : Bool} {old : Option V} (hRoot : SearchRoot root)
    (hRun : env.insert modify root key value mem = .ok (old, root', mem')) :
    SearchRoot root' := by
  cases root with
  | none =>
    simp only [BtreeEnv.insert, bind_eq_ok] at hRun
    rcases hRun with ⟨⟨leaf, mem1⟩, hBuild, hEq⟩
    cases hEq
    have hPairs := (env.buildLeaf_ok hBuild).2.1
    intro r hr
    cases hr
    change LeafGood none none leaf.pairs
    rw [hPairs]
    exact ⟨cons_ne_nil _ _, pairwise_singleton _ _, fun e _ => within_none e.1⟩
  | some r =>
    simp only [BtreeEnv.insert, bind_eq_ok] at hRun
    rcases hRun with ⟨⟨result, mem1⟩, hInsert, hRest⟩
    have hChain := (insertHelper_contents env (hRoot r rfl) (within_none key) hInsert).1
    cases hNext : result.pieces.next with
    | none =>
      simp only [hNext] at hRest
      cases hRest
      have hParts : result.pieces.keys = [] ∧ result.pieces.children = [result.pieces.first] := by
        simp [Pieces.keys, Pieces.children, hNext]
      rw [hParts.1, hParts.2] at hChain
      have hFirst : ChildGood r.height none none result.pieces.first :=
        (Chain.nil_singleton _ _ _).mp hChain
      intro r' hr'
      cases hr'
      exact hFirst
    | some next =>
      rcases next with ⟨separator, sibling⟩
      simp only [hNext, bind_eq_ok] at hRest
      rcases hRest with ⟨⟨branch, mem2⟩, hBuild, hEq⟩
      cases hEq
      have hParts : result.pieces.keys = [separator] ∧ result.pieces.children =
            [result.pieces.first, sibling] := by
        simp [Pieces.keys, Pieces.children, hNext]
      rw [hParts.1, hParts.2] at hChain
      rcases env.buildBranch_ok hBuild with ⟨_, _, hChildren, hKeys, _⟩
      intro r' hr'
      cases hr'
      change branch.keys ≠ [] ∧ Chain (ChildGood r.height) branch.keys none branch.children none
      rw [hKeys, hChildren]
      exact ⟨cons_ne_nil _ _, hChain⟩

theorem rootAfterDelete_good
    {n length : Nat} {target : List (K × V)} {result : DeletionResult P K V n}
    (hLeft : Left none none target result)
    (hRun : env.rootAfterDelete length result mem = .ok (root', mem')) :
    SearchRoot root' := by
  intro r hr
  cases result with
  | subtree =>
    rw [BtreeEnv.rootAfterDelete] at hRun
    cases hRun
    cases hr
    exact hLeft.1
  | deletedLeaf =>
    cases hRun
    cases hr
  | partialLeaf pairs =>
    simp only [BtreeEnv.rootAfterDelete, bind_eq_ok, require_eq_ok] at hRun
    rcases hRun with ⟨⟨leaf, mem1⟩, hBuild, _, _, hEq⟩
    cases hEq
    cases hr
    change LeafGood none none leaf.pairs
    rw [(env.buildLeaf_ok hBuild).2.1, hLeft.1]
    exact hLeft.2.2
  | partialBranch | deletedBranch =>
    cases hRun
    cases hr
    exact hLeft.1

/- A removal that returns leaves a search tree. -/
theorem remove_good {modify : Bool} {old : Option V} (hRoot : SearchRoot root)
    (hRun : env.remove modify root key mem = .ok (old, root', mem')) :
    SearchRoot root' := by
  cases root with
  | none =>
    cases hRun
    exact hRoot
  | some r =>
    simp only [BtreeEnv.remove, bind_eq_ok] at hRun
    rcases hRun with ⟨⟨_, _, _⟩, hDelete, ⟨_, _⟩, hAfter, hEq⟩
    cases hEq
    have hLeft := (deleteHelper_contents env (hRoot r rfl) (within_none key) hDelete).2
    exact rootAfterDelete_good hLeft hAfter

theorem removeEach_good {keys : List K} (hRoot : SearchRoot root)
    (hRun : env.removeEach keys root mem = .ok (root', mem')) :
    SearchRoot root' := by
  induction keys generalizing root mem with
  | nil =>
    cases hRun
    exact hRoot
  | cons _ _ ih =>
    simp only [BtreeEnv.removeEach, bind_eq_ok, require_eq_ok] at hRun
    rcases hRun with ⟨⟨_, _, _⟩, hRemove, _, _, hRest⟩
    exact ih (remove_good hRoot hRemove) hRest

theorem guardHelper_good
    {n : Nat} {t t' : Tree P K V n} {lo hi : Option K} {moved : Bool} (hGood : Good n lo hi t)
    (hKey : Within lo hi key) (hFound : ((entries n t).lookup key).isSome)
    (hRun : env.guardHelper n t key value mem = .ok (t', moved, mem')) :
    Good n lo hi t' ∧ entries n t' = insertEntry key value (entries n t) := by
  induction n generalizing lo hi moved mem mem' with
  | zero =>
    have hSorted : Sorted (Leaf.pairs t) := hGood.2.1
    have hPos : (Leaf.position t key).2 = true := by
      rcases position_cases t key hSorted with ⟨a, b, hA, hB, ⟨_, hList⟩ | ⟨v, hPos, _⟩⟩
      · change ((Leaf.pairs t).lookup key).isSome at hFound
        rw [hList, lookup_middle hA hB] at hFound
        cases hFound
      · rw [hPos]
    have hPairs := (insertPairs_eq t key value hSorted (Prod.mk.eta).symm).1
    rw [hPos] at hPairs
    have hNew : LeafGood lo hi (insertEntry key value (Leaf.pairs t)) :=
      LeafGood.insertEntry hGood hKey value
    simp only [BtreeEnv.guardHelper, hPairs] at hRun
    split at hRun
    · simp only [bind_eq_ok] at hRun
      rcases hRun with ⟨_, _, hEq⟩
      cases hEq
      exact ⟨hNew, rfl⟩
    · simp only [bind_eq_ok, require_eq_ok] at hRun
      rcases hRun with ⟨⟨leaf, mem1⟩, hBuild, _, _, hEq⟩
      cases hEq
      have hLeaf := (env.buildLeaf_ok hBuild).2.1
      refine ⟨?_, hLeaf⟩
      change LeafGood lo hi (Leaf.pairs leaf)
      rw [hLeaf]
      exact hNew
  | succ n ih =>
    rcases exists_route hGood hKey with ⟨ca, c, cb, ka, kb, hRoute⟩
    have hChildFound : ((entries n c.1).lookup key).isSome := by
      rw [hRoute.entries_eq, lookup_middle hRoute.below hRoute.above] at hFound
      exact hFound
    simp only [BtreeEnv.guardHelper, hRoute.child_eq, unwrap,
      Option.elim_some, ok_bind, bind_eq_ok] at hRun
    rcases hRun with ⟨⟨_, moved1, _⟩, hSub, hRest⟩
    rcases ih hRoute.good hRoute.within hChildFound hSub with ⟨hChild, hEntries⟩
    cases moved1 with
    | true | false =>
      cases hRest
      exact hRoute.set_insert hGood hChild hEntries

theorem guardInserts_good
    {values : List V} {r r' : BtreeRoot P K V} (hGood : Good r.height none none r.tree)
    (hFound : ((entries r.height r.tree).lookup key).isSome)
    (hRun : env.guardInserts key values r mem = .ok (r', mem')) :
    Good r'.height none none r'.tree := by
  induction values generalizing r mem with
  | nil =>
    cases hRun
    exact hGood
  | cons value rest ih =>
    simp only [BtreeEnv.guardInserts, BtreeEnv.guardInsert, bind_eq_ok] at hRun
    rcases hRun with ⟨⟨_, _⟩, ⟨⟨t', _, _⟩, hGuard, hEq⟩, hRest⟩
    cases hEq
    rcases guardHelper_good hGood (within_none key) hFound hGuard with ⟨hNewGood, hNewEntries⟩
    refine ih hNewGood ?_ hRest
    have hSorted := hGood.leafGood.2.1
    have hGet := SortedMap.get_insert ⟨entries r.height r.tree, hSorted⟩ key key value
    rw [if_pos rfl] at hGet
    change (insertEntry key value (entries r.height r.tree)).lookup key = _ at hGet
    change ((entries r.height t').lookup key).isSome
    rw [hNewEntries, hGet]
    rfl

/- The path to the leaf is copied, and nothing else. -/
theorem getMut_good {found : Bool} {r r' : BtreeRoot P K V} (hGood : Good r.height none none r.tree)
    (hRun : env.getMut r key mem = .ok (r', found, mem')) :
    Good r'.height none none r'.tree ∧ found = ((entries r'.height r'.tree).lookup key).isSome := by
  rcases ownPage_spec env r.height r.tree r.checksum mem key none none with ⟨hPage, _, hSame, _, _⟩
  rcases getMutHelper_spec env (hSame.mpr hGood) (within_none key) hPage with
    ⟨t', _, _, _, hHelper, hNewGood, hNewEntries, hFound, _⟩
  simp only [BtreeEnv.getMut, hHelper, ok_bind] at hRun
  cases hRun
  refine ⟨hNewGood, ?_⟩
  change found = ((entries r.height t').lookup key).isSome
  rw [hNewEntries]
  exact hFound

variable {state state' : BtreeState P K V}

theorem call_good {c : Call K V} {reply : Reply K V} (hRoot : SearchRoot state.root)
    (hRun : env.call state c = .ok (reply, state')) :
    SearchRoot state'.root := by
  cases env.call_ok hRun with
  | kept _ => exact hRoot
  | inserted _ _ _ _ _ _ _ hInsert => exact insert_good hRoot hInsert
  | removed _ _ _ _ hRemove => exact remove_good hRoot hRemove
  | missed _ _ r r' _ hState hGuard =>
    intro r'' hr''
    cases hr''
    exact (getMut_good (hRoot r hState) hGuard).1
  | written _ _ r r1 r2 _ _ hState hGuard hWrites =>
    intro r'' hr''
    cases hr''
    rcases getMut_good (hRoot r hState) hGuard with ⟨hOwned, hFound⟩
    exact guardInserts_good hOwned hFound.symm hWrites

theorem tableCall_good {c : TableCall K V} (hRoot : SearchRoot state.root)
    (hRun : env.tableCall state c = .ok state') :
    SearchRoot state'.root := by
  rcases env.tableCall_ok hRun with ⟨_, _, _, hCall⟩ | ⟨_, hRemoved⟩
  · exact call_good hRoot hCall
  · simp only [BtreeEnv.removeIterating, bind_eq_ok] at hRemoved
    rcases hRemoved with ⟨⟨root1, mem1⟩, hEach, hEq⟩
    have hRootEq : state'.root = root1 := (congrArg Prod.fst (Except.ok.inj hEq)).symm
    rw [hRootEq]
    exact removeEach_good hRoot hEach

-- Runs

/- The tree is a search tree, and the memory has it. -/
theorem tableRun_good
    {events : List (TableEvent P K V)} (hStored : Stored state) (hRoot : SearchRoot state.root)
    (hRun : env.tableRun events state = .ok state') :
    Stored state' ∧ SearchRoot state'.root := by
  induction events generalizing state with
  | nil =>
    cases hRun
    exact ⟨hStored, hRoot⟩
  | cons event rest ih =>
    simp only [BtreeEnv.tableRun, bind_eq_ok] at hRun
    rcases hRun with ⟨_, hStep, hRest⟩
    cases event with
    | call c => exact ih (tableCall_turns env hStored hStep).2 (tableCall_good hRoot hStep) hRest
    | mark committed =>
      cases hStep
      exact ih (hStored.mark committed) hRoot hRest

/- Every tree that calls on an empty table lead to has the shape of a B-tree, page by page. -/
theorem trees_are_well_shaped (events : List (TableEvent P K V)) {state : BtreeState P K V}
    (hRun : env.tableRun events ⟨none, emptyMemory⟩ = .ok state) (r : BtreeRoot P K V)
    (hRoot : state.root = some r) :
    WellShaped state.mem.pages (page r.height r.tree) r.height := by
  have hNone : SearchRoot (BtreeState.mk none emptyMemory : BtreeState P K V).root := by
    intro r hr
    cases hr
  rcases tableRun_good stored_empty hNone hRun with ⟨hFinal, hSearch⟩
  have hHolds : Holds state.mem r.height r.tree := by
    have hRootHolds := hFinal.holds
    rw [hRoot] at hRootHolds
    exact hRootHolds
  exact wellShaped_of_good hHolds (hSearch r hRoot)

/- Two large values are inserted into an empty table, whose leaf splits. -/
theorem split_leaf_is_well_shaped :
    ∃ state r, natEnv.tableRun [.call (.call (.insert 1 3000)), .call (.call (.insert 2 3000))]
        ⟨none, emptyMemory⟩ = .ok state ∧
      state.root = some r ∧
      r.height = 1 ∧
      WellShaped state.mem.pages (page r.height r.tree) r.height := by
  have hRun : natEnv.tableRun [.call (.call (.insert 1 3000)), .call (.call (.insert 2 3000))]
      ⟨none, emptyMemory⟩ = .ok _ := rfl
  exact ⟨_, _, hRun, rfl, rfl, trees_are_well_shaped _ hRun _ rfl⟩

-- Snapshots

/- One event keeps the committed pages that it does not unmark as they are. -/
theorem tableStep_keeps {event : TableEvent P K V} (hStored : Stored state)
    (hStep : env.tableStep state event = .ok state') :
    Stored state' ∧ ∀ p ∈ state.mem.committed, (∀ marked, event = .mark marked → p ∈ marked) →
      p ∈ state'.mem.committed ∧ state'.mem.pages p = state.mem.pages p := by
  cases event with
  | call c =>
    rcases tableCall_turns env hStored hStep with ⟨hTurns, hNext⟩
    exact ⟨hNext, fun p hp _ => hTurns.queued.1 p hp⟩
  | mark marked =>
    cases hStep
    refine ⟨hStored.mark marked, fun p hp hMark => ⟨?_, rfl⟩⟩
    exact Finset.mem_inter.mpr ⟨Finset.mem_union_left _ hp, hMark marked rfl⟩

/-
  A committed root is a snapshot: through any later calls and changes of the committed pages, as long
  as its own pages stay committed, it denotes the entries it had, whatever became of the tree.
-/
theorem snapshot_keeps_entries {events : List (TableEvent P K V)}
    {snapshot : TreeRoot P K V} (hStored : Stored state)
    (hHolds : RootHolds state.mem snapshot)
    (hCommitted : ∀ p ∈ rootPages snapshot, p ∈ state.mem.committed)
    (hMarks : ∀ marked, .mark marked ∈ events → ∀ p ∈ rootPages snapshot, p ∈ marked)
    (hRun : env.tableRun events state = .ok state') :
    (∀ p ∈ rootPages snapshot, p ∈ state'.mem.committed) ∧
      readRoot state'.mem.pages snapshot = some (rootEntries snapshot) := by
  induction events generalizing state with
  | nil =>
    cases hRun
    exact ⟨hCommitted, hHolds.readRoot_eq⟩
  | cons event rest ih =>
    simp only [BtreeEnv.tableRun, bind_eq_ok] at hRun
    rcases hRun with ⟨_, hStep, hRest⟩
    rcases tableStep_keeps hStored hStep with ⟨hNext, hKeep⟩
    have hPages := fun p hp => hKeep p (hCommitted p hp) fun marked hEvent =>
      hMarks marked (hEvent ▸ mem_cons_self) p hp
    exact ih hNext (hHolds.congr fun p hp => (hPages p hp).2) (fun p hp => (hPages p hp).1)
      (fun marked hIn => hMarks marked (mem_cons_of_mem event hIn)) hRest

/- The tree goes on without its first leaf, which can still be read. -/
theorem committedLeaf_stays_readable : ∃ state',
    natEnv.tableRun [.call (.call (.insert 2 7)), .mark {(0, 1)},
        .call (.retain (fun _ => true) fun k _ => k == 2)] committedLeaf = .ok state' ∧
      rootEntries state'.root = [(2, 7)] ∧
      readRoot state'.mem.pages committedLeaf.root = some [(1, 5)] := by
  have hRun : natEnv.tableRun [.call (.call (.insert 2 7)), .mark {(0, 1)},
      .call (.retain (fun _ => true) fun k _ => k == 2)] committedLeaf = .ok _ := rfl
  have hHolds : RootHolds committedLeaf.mem committedLeaf.root := rfl
  refine ⟨_, hRun, rfl, ?_⟩
  refine (snapshot_keeps_entries committedLeaf_stored hHolds ?_ ?_ hRun).2
  · decide
  · simp [committedLeaf, rootPages, pageSet]

end Redbx
