import Redbx.Btree.Mutator

/-
  `BtreeMut`: the operations of a B-tree on its root.

  Key definitions include:
    * `BtreeEnv.insert`, `BtreeEnv.remove`
-/

namespace Redbx

-- Roots

/- `BtreeHeader`, with the tree that its root page roots. -/
structure BtreeRoot (P K V : Type) where
  height : Nat
  tree : Tree P K V height
  checksum : Checksum
  length : Nat

/- The root of a tree, if it has one. -/
abbrev TreeRoot (P K V : Type) := Option (BtreeRoot P K V)

/- The entries that a root denotes. -/
def rootEntries {P K V : Type} (root : TreeRoot P K V) : List (K × V) :=
  match root with
  | none => []
  | some r => Tree.entries r.height r.tree

/- `Btree::len`: the length stored with the root. -/
def storedLength {P K V : Type} (root : TreeRoot P K V) : Nat :=
  match root with
  | none => 0
  | some r => r.length

/- The same node on another page. -/
def Tree.withPage {P K V : Type} : (n : Nat) → Tree P K V n → P → Tree P K V n
  | 0, leaf, p => ⟨p, Leaf.pairs leaf⟩
  | _ + 1, branch, p =>
    ⟨p, Branch.children branch, Branch.keys branch⟩

namespace BtreeEnv

variable {P K V : Type} [DecidableEq P] [Ord K] (env : BtreeEnv P K V)

-- Insertion and Removal

/- `MutateHelper::insert`. -/
def insert (modifyUncommitted : Bool) (root : TreeRoot P K V) (key : K) (value : V)
    (mem : Mem P K V) :
    Except Panic (Option V × TreeRoot P K V × Mem P K V) :=
  match root with
  | none => do
    let (leaf, mem) ← env.buildLeaf [(key, value)] mem
    return (none, some ⟨0, leaf, deferred, 1⟩, mem)
  | some r => do
    let (result, mem) ← env.insertHelper modifyUncommitted r.height r.tree r.checksum key value mem
    let length := if result.oldValue.isSome then r.length else r.length + 1
    match result.pieces.next with
    | none =>
      return (result.oldValue, some ⟨r.height, result.pieces.first.1,
          result.pieces.first.2, length⟩, mem)
    | some (separator, sibling) =>
      let (branch, mem) ← env.buildBranch [result.pieces.first, sibling] [separator] mem
      return (result.oldValue, some ⟨r.height + 1, branch, deferred, length⟩, mem)

/- The root that `MutateHelper::delete` leaves. -/
def rootAfterDelete (length : Nat) : {n : Nat} → DeletionResult P K V n → Mem P K V →
    Except Panic (TreeRoot P K V × Mem P K V)
  | n, .subtree tree checksum, mem =>
    return (some ⟨n, tree, checksum, length⟩, mem)
  | 0, .deletedLeaf, mem => return (none, mem)
  | 0, .partialLeaf pairs deletedPair, mem => do
    let (leaf, mem) ← env.buildLeaf (pairs.eraseIdx deletedPair) mem
    require (decide (length = pairs.length - 1)) .assertion
    return (some ⟨0, leaf, deferred, length⟩, mem)
  | n + 1, .partialBranch branch checksum, mem =>
    return (some ⟨n + 1, branch, checksum, length⟩, mem)
  | n + 1, .deletedBranch child checksum, mem =>
    return (some ⟨n, child, checksum, length⟩, mem)

/- `MutateHelper::delete`. -/
def remove
    (modifyUncommitted : Bool) (root : TreeRoot P K V) (key : K) (mem : Mem P K V) :
    Except Panic (Option V × TreeRoot P K V × Mem P K V) :=
  match root with
  | none => return (none, none, mem)
  | some r => do
    let (result, found, mem) ← env.deleteHelper modifyUncommitted r.height r.tree r.checksum key mem
    let length := if found.isSome then r.length - 1 else r.length
    let (root, mem) ← env.rootAfterDelete length result mem
    return (found, root, mem)

/-
  The deletions of `retain_in` and of `BtreeExtractIf`: the old pages are not modified, as the
  iterator still reads them.
-/
def removeEach : List K → TreeRoot P K V → Mem P K V →
    Except Panic (TreeRoot P K V × Mem P K V)
  | [], root, mem => return (root, mem)
  | key :: rest, root, mem => do
    let (old, root, mem) ← env.remove false root key mem
    require old.isSome .assertion
    removeEach rest root mem

/-
  The pages queued since the queue had the given length are given back if they are uncommitted, and
  queued otherwise.
-/
def releaseFreed (queued : Nat) (mem : Mem P K V) : Mem P K V :=
  (mem.freed.drop queued).foldl (fun mem p => mem.conditionalFree true p)
    { mem with freed := mem.freed.take queued }

/- Remove keys while iterating, then release the old pages. -/
def removeIterating (keys : List K) (root : TreeRoot P K V) (mem : Mem P K V) :
    Except Panic (TreeRoot P K V × Mem P K V) := do
  let queued := mem.freed.length
  let (root, mem) ← env.removeEach keys root mem
  return (root, releaseFreed queued mem)

/-
  `BtreeMut::retain_in`. Every entry is shown to the predicate once, so one with a state is a
  function of the entry here.
-/
def retainIn (inRange : K → Bool) (predicate : K → V → Bool) (root : TreeRoot P K V)
    (mem : Mem P K V) :
    Except Panic (TreeRoot P K V × Mem P K V) :=
  env.removeIterating (((rootEntries root).filter fun e =>
      inRange e.1 && !predicate e.1 e.2).map Prod.fst) root mem

end BtreeEnv

/- `next` or `next_back` of an iterator. -/
inductive Side where
  | front
  | back

/- The keys that an iterator over `keys` returns. -/
def takeSides {K : Type} : List Side → List K → List K
  | [], _ => []
  | .front :: sides, keys =>
    keys.head?.toList ++ takeSides sides keys.tail
  | .back :: sides, keys =>
    keys.getLast?.toList ++ takeSides sides keys.dropLast

namespace BtreeEnv

variable {P K V : Type} [DecidableEq P] [Ord K] (env : BtreeEnv P K V)

/-
  `BtreeMut::extract_from_if`, of which the caller takes entries from both sides and then drops it.
-/
def extractFromIf (inRange : K → Bool) (predicate : K → V → Bool) (sides : List Side)
    (root : TreeRoot P K V) (mem : Mem P K V) :
    Except Panic (TreeRoot P K V × Mem P K V) :=
  env.removeIterating (takeSides sides (((rootEntries root).filter fun e =>
      inRange e.1 && predicate e.1 e.2).map Prod.fst)) root mem

-- Lookups

/- `Btree::get_helper`. -/
def getHelper : (n : Nat) → Tree P K V n → K → Except Panic (Option V)
  | 0, leaf, key =>
    match Leaf.position leaf key with
    | (position, true) => do
      let pair ← unwrap (Leaf.pairs leaf)[position]?
      return some pair.2
    | (_, false) => return none
  | n + 1, branch, key => do
    let child ← unwrap (Branch.children branch)[Branch.childForKey branch key]?
    getHelper n child.1 key

/- `Btree::get`. -/
def get (root : TreeRoot P K V) (key : K) : Except Panic (Option V) :=
  match root with
  | none => return none
  | some r => getHelper r.height r.tree key

/- `Btree::first_helper`. -/
def firstHelper : (n : Nat) → Tree P K V n → Except Panic (K × V)
  | 0, leaf => unwrap (Leaf.pairs leaf)[0]?
  | n + 1, branch => do
    let child ← unwrap (Branch.children branch)[0]?
    firstHelper n child.1

/- `Btree::last_helper`. -/
def lastHelper : (n : Nat) → Tree P K V n → Except Panic (K × V)
  | 0, leaf =>
    unwrap (Leaf.pairs leaf)[(Leaf.pairs leaf).length - 1]?
  | n + 1, branch => do
    let child ← unwrap (Branch.children branch)[ (Branch.children branch).length - 1]?
    lastHelper n child.1

/- `Btree::first`. -/
def first (root : TreeRoot P K V) : Except Panic (Option (K × V)) :=
  match root with
  | none => return none
  | some r => do
    let pair ← firstHelper r.height r.tree
    return some pair

/- `Btree::last`. -/
def last (root : TreeRoot P K V) : Except Panic (Option (K × V)) :=
  match root with
  | none => return none
  | some r => do
    let pair ← lastHelper r.height r.tree
    return some pair

-- Mutable Guards

/-
  Make the root page of a subtree uncommitted: a committed page is copied to a new one and queued.
-/
def ownPage (n : Nat) (tree : Tree P K V n) (checksum : Checksum) (mem : Mem P K V) :
    (Tree P K V n × Checksum) × Mem P K V :=
  let p := Tree.page n tree
  if mem.isUncommitted p then
    ((tree, checksum), mem)
  else
    let order := requiredOrder (pageBytes (env.alloc.order p))
    let (new, mem) := mem.allocate env.alloc order (Tree.image n tree)
    ((Tree.withPage n tree new, deferred), mem.pushFreed p)

/-
  `BtreeMut::get_mut_helper` on a page that is uncommitted: the path to the leaf of the key becomes
  uncommitted. The flag tells whether the key is there.
-/
def getMutHelper : (n : Nat) → Tree P K V n → K → Mem P K V →
    Except Panic (Tree P K V n × Bool × Mem P K V)
  | 0, leaf, key, mem => do
    let found := (Leaf.position leaf key).2
    require (!found || mem.isUncommitted (Leaf.page leaf)) .assertion
    return (leaf, found, mem)
  | n + 1, branch, key, mem => do
    let i := Branch.childForKey branch key
    let (child, checksum) ← unwrap (Branch.children branch)[i]?
    let clean := !mem.isUncommitted (Tree.page n child)
    let (owned, mem) := env.ownPage n child checksum mem
    let children := (Branch.children branch).set i owned
    -- a copied child is recorded in the branch page
    let mem := if clean then
        mem.write (Branch.page branch) (Tree.branchImage n children (Branch.keys branch))
      else
        mem
    let (child, found, mem) ← getMutHelper n owned.1 key mem
    require (decide (n ≠ 0) || !found || mem.isUncommitted (Branch.page branch)) .assertion
    return (⟨Branch.page branch, (Branch.children branch).set i (child, owned.2),
      Branch.keys branch⟩, found, mem)

/- `BtreeMut::get_mut` up to the leaf of the key. -/
def getMut (root : BtreeRoot P K V) (key : K) (mem : Mem P K V) :
    Except Panic (BtreeRoot P K V × Bool × Mem P K V) := do
  let (owned, mem) := env.ownPage root.height root.tree root.checksum mem
  let (tree, found, mem) ← env.getMutHelper root.height owned.1 key mem
  return (⟨root.height, tree, owned.2, root.length⟩, found, mem)

/-
  `AccessGuardMut::insert` in the subtree of the guard's leaf. The leaf is edited in place or moved
  to a new page; the flag tells whether it moved.
-/
def guardHelper : (n : Nat) → Tree P K V n → K → V → Mem P K V →
    Except Panic (Tree P K V n × Bool × Mem P K V)
  | 0, leaf, key, value, mem => do
    let position := (Leaf.position leaf key).1
    let pairs := insertInplace (Leaf.pairs leaf) position true key value
    if env.fmt.sufficientInsertInplaceSpace
        (env.alloc.order (Leaf.page leaf)) (Leaf.pairs leaf) position true key value then
      require (env.fmt.insertEncodable pairs position) .outOfRange
      return (⟨Leaf.page leaf, pairs⟩, false, mem.write (Leaf.page leaf) (.leaf pairs))
    else
      let (newLeaf, mem) ← env.buildLeaf pairs mem
      require (mem.isUncommitted (Leaf.page leaf)) .assertion
      return (newLeaf, true, mem.free (Leaf.page leaf))
  | n + 1, branch, key, value, mem => do
    let i := Branch.childForKey branch key
    let (child, checksum) ← unwrap (Branch.children branch)[i]?
    let (child, moved, mem) ← guardHelper n child key value mem
    if moved then
      let children := (Branch.children branch).set i (child, deferred)
      return (⟨Branch.page branch, children, Branch.keys branch⟩, false,
        mem.write (Branch.page branch) (Tree.branchImage n children (Branch.keys branch)))
    else
      return (⟨Branch.page branch, (Branch.children branch).set i (child, checksum),
          Branch.keys branch⟩, false, mem)

/- `AccessGuardMut::insert`. -/
def guardInsert (root : BtreeRoot P K V) (key : K) (value : V) (mem : Mem P K V) :
    Except Panic (BtreeRoot P K V × Mem P K V) := do
  let (tree, moved, mem) ← env.guardHelper root.height root.tree key value mem
  return (⟨root.height, tree, if moved then deferred else root.checksum, root.length⟩, mem)

-- Calls

end BtreeEnv

/-
  A call on a B-tree. `insertReserve` stands for the call and the writes through its guard, which
  fill the reserved bytes; `getMut` for the call and the `insert`s through its guard.
-/
inductive Call (K V : Type) where
  | insert (key : K) (value : V)
  | insertReserve (key : K) (value : V)
  | remove (key : K)
  | get (key : K)
  | getMut (key : K) (values : List V)
  | first
  | last

/- What a call returns. -/
inductive Reply (K V : Type) where
  | done
  | value (value : Option V)
  | entry (entry : Option (K × V))

/- A B-tree and the pages it lives in. -/
structure BtreeState (P K V : Type) [DecidableEq P] where
  root : TreeRoot P K V
  mem : Mem P K V

/- No page in use. -/
def emptyMemory {P K V : Type} [DecidableEq P] : Mem P K V where
  pages := fun _ => none
  committed := ∅
  uncommitted := ∅
  disjoint := Finset.disjoint_empty_left _
  freed := []

namespace BtreeEnv

variable {P K V : Type} [DecidableEq P] [Ord K] (env : BtreeEnv P K V)

/- The values written through one mutable guard. -/
def guardInserts (key : K) : List V → BtreeRoot P K V → Mem P K V →
    Except Panic (BtreeRoot P K V × Mem P K V)
  | [], root, mem => return (root, mem)
  | value :: rest, root, mem => do
    let (root, mem) ← env.guardInsert root key value mem
    guardInserts key rest root mem

/- One call on the tree. -/
def call (state : BtreeState P K V) : Call K V → Except Panic (Reply K V × BtreeState P K V)
  | .insert key value => do
    let (old, root, mem) ← env.insert true state.root key value state.mem
    return (.value old, ⟨root, mem⟩)
  | .insertReserve key value => do
    let (_, root, mem) ← env.insert true state.root key value state.mem
    return (.done, ⟨root, mem⟩)
  | .remove key => do
    let (old, root, mem) ← env.remove true state.root key state.mem
    return (.value old, ⟨root, mem⟩)
  | .get key => do
    let value ← get state.root key
    return (.value value, state)
  | .getMut key values =>
    match state.root with
    | none => return (.value none, state)
    | some root => do
      let (root, found, mem) ← env.getMut root key state.mem
      if found then
        let value ← get (some root) key
        let (root, mem) ← env.guardInserts key values root mem
        return (.value value, ⟨some root, mem⟩)
      else
        return (.value none, ⟨some root, mem⟩)
  | .first => do
    let entry ← first state.root
    return (.entry entry, state)
  | .last => do
    let entry ← last state.root
    return (.entry entry, state)

/- The calls of one transaction, with their replies. -/
def transaction : List (Call K V) → BtreeState P K V →
    Except Panic (List (Reply K V) × BtreeState P K V)
  | [], state => return ([], state)
  | c :: rest, state => do
    let (reply, state) ← env.call state c
    let (replies, state) ← transaction rest state
    return (reply :: replies, state)

end BtreeEnv

/- A call on a table, which may iterate and remove. -/
inductive TableCall (K V : Type) where
  | call (c : Call K V)
  | retain (inRange : K → Bool) (predicate : K → V → Bool)
  | extractIf (inRange : K → Bool) (predicate : K → V → Bool) (sides : List Side)

/- One call on a table. -/
def BtreeEnv.tableCall
    {P K V : Type} [DecidableEq P] [Ord K] (env : BtreeEnv P K V) (state : BtreeState P K V) :
    TableCall K V → Except Panic (BtreeState P K V)
  | .call c => do
    let (_, state) ← env.call state c
    return state
  | .retain inRange predicate => do
    let (root, mem) ← env.retainIn inRange predicate state.root state.mem
    return ⟨root, mem⟩
  | .extractIf inRange predicate sides => do
    let (root, mem) ← env.extractFromIf inRange predicate sides state.root state.mem
    return ⟨root, mem⟩

-- Outcomes

section Outcomes

variable {P K V : Type} [DecidableEq P] [Ord K] (env : BtreeEnv P K V)

/- What a call does to the tree. -/
inductive CallOutcome (state : BtreeState P K V) : Call K V → BtreeState P K V → Prop where
  | kept (c : Call K V) : CallOutcome state c state
  | inserted (c : Call K V) (key : K) (value : V) (old : Option V) (root : TreeRoot P K V)
      (mem : Mem P K V) (hCall : c = .insert key value ∨ c = .insertReserve key value)
      (hInsert : env.insert true state.root key value state.mem = .ok (old, root, mem)) :
      CallOutcome state c ⟨root, mem⟩
  | removed (key : K) (old : Option V) (root : TreeRoot P K V) (mem : Mem P K V)
      (hRemove : env.remove true state.root key state.mem = .ok (old, root, mem)) :
      CallOutcome state (.remove key) ⟨root, mem⟩
  | missed (key : K) (values : List V) (r r' : BtreeRoot P K V) (mem : Mem P K V)
      (hRoot : state.root = some r) (hGuard : env.getMut r key state.mem = .ok (r', false, mem)) :
      CallOutcome state (.getMut key values) ⟨some r', mem⟩
  | written (key : K) (values : List V) (r r1 r2 : BtreeRoot P K V) (mem1 mem2 : Mem P K V)
      (hRoot : state.root = some r) (hGuard : env.getMut r key state.mem = .ok (r1, true, mem1))
      (hWrites : env.guardInserts key values r1 mem1 = .ok (r2, mem2)) :
      CallOutcome state (.getMut key values) ⟨some r2, mem2⟩

theorem BtreeEnv.call_ok {state state' : BtreeState P K V} {c : Call K V} {reply : Reply K V}
    (hCall : env.call state c = .ok (reply, state')) :
    CallOutcome env state c state' := by
  cases c with
  | insert key value =>
    simp only [BtreeEnv.call, bind_eq_ok] at hCall
    rcases hCall with ⟨⟨old, root, mem⟩, hInsert, hEq⟩
    cases hEq
    exact .inserted _ key value old root mem (Or.inl rfl) hInsert
  | insertReserve key value =>
    simp only [BtreeEnv.call, bind_eq_ok] at hCall
    rcases hCall with ⟨⟨old, root, mem⟩, hInsert, hEq⟩
    cases hEq
    exact .inserted _ key value old root mem (Or.inr rfl) hInsert
  | remove key =>
    simp only [BtreeEnv.call, bind_eq_ok] at hCall
    rcases hCall with ⟨⟨old, root, mem⟩, hRemove, hEq⟩
    cases hEq
    exact .removed key old root mem hRemove
  | get key =>
    simp only [BtreeEnv.call, bind_eq_ok] at hCall
    rcases hCall with ⟨value, _, hEq⟩
    cases hEq
    exact .kept _
  | getMut key values =>
    rcases state with ⟨root, mem⟩
    cases root with
    | none =>
      cases hCall
      exact .kept _
    | some r =>
      simp only [BtreeEnv.call, bind_eq_ok] at hCall
      rcases hCall with ⟨⟨r1, found, mem1⟩, hGuard, hRest⟩
      cases found with
      | false =>
        cases hRest
        exact .missed key values r r1 mem1 rfl hGuard
      | true =>
        simp only [if_true, bind_eq_ok] at hRest
        rcases hRest with ⟨value, _, ⟨r2, mem2⟩, hWrites, hEq⟩
        cases hEq
        exact .written key values r r1 r2 mem1 mem2 rfl hGuard hWrites
  | first | last =>
    simp only [BtreeEnv.call, bind_eq_ok] at hCall
    rcases hCall with ⟨entry, _, hEq⟩
    cases hEq
    exact .kept _

theorem BtreeEnv.tableCall_ok {state state' : BtreeState P K V} {c : TableCall K V}
    (hCall : env.tableCall state c = .ok state') :
    (∃ single reply, c = .call single ∧ env.call state single = .ok (reply, state')) ∨
      ∃ keys, env.removeIterating keys state.root state.mem = .ok (state'.root, state'.mem) := by
  cases c with
  | call single =>
    simp only [BtreeEnv.tableCall, bind_eq_ok] at hCall
    rcases hCall with ⟨⟨reply, _⟩, hSingle, hEq⟩
    cases hEq
    exact Or.inl ⟨single, reply, rfl, hSingle⟩
  | retain =>
    simp only [BtreeEnv.tableCall, BtreeEnv.retainIn, bind_eq_ok] at hCall
    rcases hCall with ⟨⟨_, _⟩, hRemoved, hEq⟩
    cases hEq
    exact Or.inr ⟨_, hRemoved⟩
  | extractIf =>
    simp only [BtreeEnv.tableCall, BtreeEnv.extractFromIf, bind_eq_ok] at hCall
    rcases hCall with ⟨⟨_, _⟩, hRemoved, hEq⟩
    cases hEq
    exact Or.inr ⟨_, hRemoved⟩

end Outcomes

end Redbx
