import Redbx.Btree.Format
import Redbx.Btree.Node
import Redbx.Core.Chain

/-
  `LeafBuilder` and `BranchBuilder`: writing nodes to new pages, in one piece or split in two.

  A call that panics in the source is an error here. The checks stand where the source has them; a
  successful build is described by one inversion lemma each.

  Key theorems include:
    * `leafPieces_ok`, `branchPieces_ok`
-/

namespace Redbx

-- Panics

/-
  Why a call panics: an index or `unwrap` that fails, an assertion, or a count, offset or page order
  out of range.
-/
inductive Panic where
  | unwrapped
  | assertion
  | outOfRange
  deriving DecidableEq

/- Go on only if the check succeeds. -/
def require (check : Bool) (panic : Panic) : Except Panic Unit :=
  if check then .ok () else .error panic

/- `Option::unwrap`. -/
def unwrap {α : Type} (x : Option α) : Except Panic α := x.elim (.error .unwrapped) .ok

/- A sequence of two calls returns if both do. -/
theorem bind_eq_ok {α β : Type} {x : Except Panic α} {f : α → Except Panic β} {b : β} :
    (x >>= f) = .ok b ↔ ∃ a, x = .ok a ∧ f a = .ok b := by
  cases x with
  | error e =>
    refine ⟨fun h => ?_, ?_⟩
    · cases h
    · rintro ⟨a, hA, _⟩
      cases hA
  | ok a =>
    refine ⟨fun h => ⟨a, rfl, h⟩, ?_⟩
    rintro ⟨a', hA, hB⟩
    cases hA
    exact hB

@[simp]
theorem ok_bind {α β : Type} (a : α) (f : α → Except Panic β) :
    ((Except.ok a : Except Panic α) >>= f) = f a := rfl

@[simp]
theorem pure_eq_ok {α : Type} (a : α) : (pure a : Except Panic α) = .ok a := rfl

@[simp]
theorem require_eq_ok {check : Bool} {panic : Panic} {u : Unit} :
    require check panic = .ok u ↔ check = true := by
  cases check <;> simp [require]

@[simp]
theorem unwrap_eq_ok {α : Type} {x : Option α} {a : α} : unwrap x = .ok a ↔ x = some a := by
  cases x <;> simp [unwrap]

-- Builders

/- The formats of the tree and the page allocator. -/
structure BtreeEnv (P K V : Type) [DecidableEq P] where
  fmt : Format K V
  alloc : PageAllocator P

/- One node, or two with the key between them, each with the checksum to record for it. -/
structure Pieces (K C : Type) where
  first : C × Checksum
  next : Option (K × C × Checksum)

namespace Pieces

variable {K C : Type}

/- The nodes, from left to right. -/
def children (pieces : Pieces K C) : List (C × Checksum) :=
  match pieces.next with
  | none => [pieces.first]
  | some (_, sibling) => [pieces.first, sibling]

/- The key between the nodes. -/
def keys (pieces : Pieces K C) : List K :=
  match pieces.next with
  | none => []
  | some (key, _) => [key]

end Pieces

namespace BtreeEnv

variable {P K V : Type} [DecidableEq P] (env : BtreeEnv P K V)

/- `LeafBuilder::build`. -/
def buildLeaf (pairs : List (K × V)) (mem : Mem P K V) : Except Panic (Leaf P K V × Mem P K V) := do
  require (env.fmt.leafEncodable pairs) .outOfRange
  let order := requiredOrder (env.fmt.leafBytes pairs)
  let (page, mem) := mem.allocate env.alloc order (.leaf pairs)
  return (⟨page, pairs⟩, mem)

/- `LeafBuilder::build_split` or, without a split, `build`. -/
def leafPieces (pairs : List (K × V)) (mem : Mem P K V) :
    Except Panic (Pieces K (Leaf P K V) × Mem P K V) := do
  if env.fmt.shouldSplitLeaf pairs then
    let division := env.fmt.division pairs
    let (page1, mem) ← env.buildLeaf (pairs.take division) mem
    let (page2, mem) ← env.buildLeaf (pairs.drop division) mem
    let splitPair ← unwrap pairs[division - 1]?
    return (⟨(page1, deferred), some (splitPair.1, page2, deferred)⟩, mem)
  else
    let (page, mem) ← env.buildLeaf pairs mem
    return (⟨(page, deferred), none⟩, mem)

/- `BranchBuilder::build`. -/
def buildBranch
    {n : Nat} (children : Children P K V n) (keys : List K) (mem : Mem P K V) :
    Except Panic (Branch P K (Tree P K V n) × Mem P K V) := do
  require (decide (children.length = keys.length + 1)) .assertion
  require (env.fmt.branchEncodable keys) .outOfRange
  let order := requiredOrder (env.fmt.branchBytes keys)
  let (page, mem) := mem.allocate env.alloc order (Tree.branchImage n children keys)
  return (⟨page, children, keys⟩, mem)

/- `BranchBuilder::build_split` or, without a split, `build`. -/
def branchPieces
    {n : Nat} (children : Children P K V n) (keys : List K) (mem : Mem P K V) :
    Except Panic (Pieces K (Branch P K (Tree P K V n)) × Mem P K V) := do
  if env.fmt.shouldSplitBranch keys then
    require (decide (children.length = keys.length + 1)) .assertion
    let division := keys.length / 2
    let divisionKey ← unwrap keys[division]?
    let (page1, mem) ← env.buildBranch (children.take (division + 1)) (keys.take division) mem
    let (page2, mem) ← env.buildBranch (children.drop (division + 1)) (keys.drop (division + 1)) mem
    return (⟨(page1, deferred), some (divisionKey, page2, deferred)⟩, mem)
  else
    let (page, mem) ← env.buildBranch children keys mem
    return (⟨(page, deferred), none⟩, mem)

-- Inversion

variable {mem mem' : Mem P K V} {pairs : List (K × V)}

theorem buildLeaf_ok {leaf : Leaf P K V} (hBuild : env.buildLeaf pairs mem = .ok (leaf, mem')) :
    env.fmt.leafEncodable pairs = true ∧ leaf.pairs = pairs ∧
      (leaf.page, mem') = mem.allocate env.alloc
        (requiredOrder (env.fmt.leafBytes pairs)) (.leaf pairs) := by
  simp only [buildLeaf, bind_eq_ok, require_eq_ok] at hBuild
  rcases hBuild with ⟨_, hFits, hEq⟩
  cases hEq
  exact ⟨hFits, rfl, rfl⟩

theorem buildLeaf_fresh {leaf : Leaf P K V} (hBuild : env.buildLeaf pairs mem = .ok (leaf, mem')) :
    leaf.page ∉ mem.allocated ∧ mem'.uncommitted = insert leaf.page mem.uncommitted := by
  rcases env.buildLeaf_ok hBuild with ⟨_, _, hAlloc⟩
  have hPage := congrArg Prod.fst hAlloc
  have hMem := congrArg Prod.snd hAlloc
  change leaf.page = env.alloc.pick _ _ at hPage
  change mem' = _ at hMem
  rw [hMem, hPage]
  exact ⟨env.alloc.pick_fresh _ _, rfl⟩

theorem buildBranch_ok {n : Nat} {children : Children P K V n} {keys : List K}
    {branch : Branch P K (Tree P K V n)}
    (hBuild : env.buildBranch children keys mem = .ok (branch, mem')) :
    children.length = keys.length + 1 ∧ env.fmt.branchEncodable keys = true ∧
      branch.children = children ∧ branch.keys = keys ∧
      (branch.page, mem') = mem.allocate env.alloc (requiredOrder (env.fmt.branchBytes keys))
        (Tree.branchImage n children keys) := by
  simp only [buildBranch, bind_eq_ok, require_eq_ok, decide_eq_true_eq] at hBuild
  rcases hBuild with ⟨_, hLength, _, hFits, hEq⟩
  cases hEq
  exact ⟨hLength, hFits, rfl, rfl, rfl⟩

/- The two ways a list of pairs becomes leaf pages. -/
theorem leafPieces_ok
    {pieces : Pieces K (Leaf P K V)} (hPieces : env.leafPieces pairs mem = .ok (pieces, mem')) :
    (∃ leaf, env.fmt.shouldSplitLeaf pairs = false ∧ env.buildLeaf pairs mem = .ok (leaf, mem') ∧
        pieces = ⟨(leaf, deferred), none⟩) ∨
      ∃ left mem1 right splitPair, env.fmt.shouldSplitLeaf pairs = true ∧
        env.buildLeaf (pairs.take (env.fmt.division pairs)) mem = .ok (left, mem1) ∧
        env.buildLeaf (pairs.drop (env.fmt.division pairs)) mem1 = .ok (right, mem') ∧
        pairs[env.fmt.division pairs - 1]? = some splitPair ∧
        pieces = ⟨(left, deferred), some (splitPair.1, right, deferred)⟩ := by
  unfold leafPieces at hPieces
  cases hSplit : env.fmt.shouldSplitLeaf pairs with
  | false =>
    simp only [hSplit, Bool.false_eq_true, if_false, bind_eq_ok] at hPieces
    rcases hPieces with ⟨⟨leaf, mem1⟩, hBuild, hEq⟩
    cases hEq
    exact Or.inl ⟨leaf, rfl, hBuild, rfl⟩
  | true =>
    simp only [hSplit, if_true, bind_eq_ok, unwrap_eq_ok] at hPieces
    rcases hPieces with ⟨⟨left, mem1⟩, hLeft, ⟨right, mem2⟩, hRight, splitPair, hPair, hEq⟩
    cases hEq
    exact Or.inr ⟨left, mem1, right, splitPair, rfl, hLeft, hRight, hPair, rfl⟩

/- The two ways a list of children becomes branch pages. -/
theorem branchPieces_ok {n : Nat} {children : Children P K V n} {keys : List K}
    {pieces : Pieces K (Branch P K (Tree P K V n))}
    (hPieces : env.branchPieces children keys mem = .ok (pieces, mem')) :
    (∃ branch, env.fmt.shouldSplitBranch keys = false ∧
        env.buildBranch children keys mem = .ok (branch, mem') ∧
        pieces = ⟨(branch, deferred), none⟩) ∨
      ∃ left mem1 right divisionKey, env.fmt.shouldSplitBranch keys = true ∧
        children.length = keys.length + 1 ∧
        keys[keys.length / 2]? = some divisionKey ∧
        env.buildBranch (children.take (keys.length / 2 + 1))
          (keys.take (keys.length / 2)) mem = .ok (left, mem1) ∧
        env.buildBranch (children.drop (keys.length / 2 + 1))
          (keys.drop (keys.length / 2 + 1)) mem1 =
          .ok (right, mem') ∧
        pieces = ⟨(left, deferred), some (divisionKey, right, deferred)⟩ := by
  unfold branchPieces at hPieces
  cases hSplit : env.fmt.shouldSplitBranch keys with
  | false =>
    simp only [hSplit, Bool.false_eq_true, if_false, bind_eq_ok] at hPieces
    rcases hPieces with ⟨⟨branch, mem1⟩, hBuild, hEq⟩
    cases hEq
    exact Or.inl ⟨branch, rfl, hBuild, rfl⟩
  | true =>
    simp only [hSplit, if_true, bind_eq_ok, unwrap_eq_ok,
      require_eq_ok, decide_eq_true_eq] at hPieces
    rcases hPieces with ⟨_, hLength, divisionKey, hKey,
      ⟨left, mem1⟩, hLeft, ⟨right, mem2⟩, hRight, hEq⟩
    cases hEq
    exact Or.inr ⟨left, mem1, right, divisionKey, rfl, hLength, hKey, hLeft, hRight, rfl⟩

end BtreeEnv

-- Where a Leaf Is Split

namespace Format

variable {K V : Type} (fmt : Format K V)

/- The loop counts at least one and at most all pairs. -/
theorem divisionLoop_bounds (half : Nat) (pairs : List (K × V)) (bytes division : Nat) :
    fmt.divisionLoop half pairs bytes division ≤ division + pairs.length ∧ (pairs ≠ [] →
        division < fmt.divisionLoop half pairs bytes division) := by
  induction pairs generalizing bytes division with
  | nil => simp [divisionLoop]
  | cons p rest ih =>
    unfold divisionLoop
    by_cases hStop : half ≤ bytes + fmt.pairLen p
    · simp [hStop]
    · have hRest := ih (bytes + fmt.pairLen p) (division + 1)
      simp only [hStop, if_false, List.length_cons]
      refine ⟨by omega, fun _ => ?_⟩
      by_cases hNil : rest = []
      · simp [hNil, divisionLoop]
      · have hLt := hRest.2 hNil
        omega

theorem division_bounds (pairs : List (K × V)) (hLength : 1 < pairs.length) :
    0 < fmt.division pairs ∧ fmt.division pairs < pairs.length := by
  have hBounds := fmt.divisionLoop_bounds (fmt.kvBytes pairs / 2)
    (pairs.take (pairs.length - 1)) 0 0
  have hTake : (pairs.take (pairs.length - 1)).length = pairs.length - 1 := by simp
  have hNe : pairs.take (pairs.length - 1) ≠ [] := by
    intro hNil
    rw [hNil] at hTake
    simp at hTake
    omega
  have hPos := hBounds.2 hNe
  have hLe := hBounds.1
  rw [hTake] at hLe
  unfold division
  omega

end Format

end Redbx
