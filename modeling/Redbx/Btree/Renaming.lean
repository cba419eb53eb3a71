import Redbx.Btree.BtreeMut

/-
  What the tree code cannot see.

  A renaming replaces keys, values and checksums. It respects two environments if it keeps what the
  tree code looks at: the lengths of keys and values and the order of keys. Then the searches, the
  sizes, the contents of pages and the page memory commute with it.

  Key theorems include:
    * `branchImage_rename`, `write_rename`
-/

namespace Redbx

open Redbx.Tree List Function

variable {P K V K' V' : Type}

-- Renamings

/- New keys, values and checksums for old ones. -/
structure Renaming (K V K' V' : Type) where
  key : K → K'
  value : V → V'
  checksum : Checksum → Checksum

namespace Renaming

variable (r : Renaming K V K' V')

def pair (p : K × V) : K' × V' := (r.key p.1, r.value p.2)

/- The page numbers stay. -/
def leaf (l : Leaf P K V) : Leaf P K' V' := ⟨l.page, l.pairs.map r.pair⟩

def child {C C' : Type} (f : C → C') (c : C × Checksum) : C' × Checksum := (f c.1, r.checksum c.2)

def branch {C C' : Type} (f : C → C') (b : Branch P K C) : Branch P K' C' :=
  ⟨b.page, b.children.map (r.child f), b.keys.map r.key⟩

def tree : (n : Nat) → Tree P K V n → Tree P K' V' n
  | 0, l => r.leaf l
  | n + 1, b => r.branch (tree n) b

def node : Node P K V → Node P K' V'
  | .leaf pairs => .leaf (pairs.map r.pair)
  | .branch children keys =>
    .branch (children.map (r.child id)) (keys.map r.key)

def root (r : Renaming K V K' V') (t : BtreeRoot P K V) : BtreeRoot P K' V' :=
  ⟨t.height, r.tree t.height t.tree, r.checksum t.checksum, t.length⟩

def pieces {C C' : Type} (f : C → C') (p : Pieces K C) : Pieces K' C' :=
  ⟨r.child f p.first, p.next.map fun n => (r.key n.1, r.child f n.2)⟩

def insertion {C C' : Type} (f : C → C') (result : InsertionResult K V C) :
    InsertionResult K' V' C' :=
  ⟨r.pieces f result.pieces, result.oldValue.map r.value⟩

def deletion : {n : Nat} → DeletionResult P K V n → DeletionResult P K' V' n
  | n, .subtree t checksum =>
    .subtree (r.tree n t) (r.checksum checksum)
  | _, .deletedLeaf => .deletedLeaf
  | _, .partialLeaf pairs deletedPair =>
    .partialLeaf (pairs.map r.pair) deletedPair
  | n + 1, .partialBranch b checksum =>
    .partialBranch (r.branch (r.tree n) b) (r.checksum checksum)
  | n + 1, .deletedBranch c checksum =>
    .deletedBranch (r.tree n c) (r.checksum checksum)

variable [DecidableEq P]

/- The page memory, with the same pages in use. -/
def mem (m : Mem P K V) : Mem P K' V' where
  pages := fun p => (m.pages p).map r.node
  committed := m.committed
  uncommitted := m.uncommitted
  disjoint := m.marks_disjoint
  freed := m.freed

def state (s : BtreeState P K V) : BtreeState P K' V' := ⟨s.root.map r.root, r.mem s.mem⟩

/- The renaming keeps what the tree code looks at: lengths and the order of keys. -/
structure Respects [Ord K] [Ord K'] (env : BtreeEnv P K V) (env' : BtreeEnv P K' V') : Prop where
  alloc : env'.alloc = env.alloc
  keyLen : ∀ k, env'.fmt.keyLen (r.key k) = env.fmt.keyLen k
  valueLen : ∀ v, env'.fmt.valueLen (r.value v) = env.fmt.valueLen v
  fixedKeySize : env'.fmt.fixedKeySize = env.fmt.fixedKeySize
  fixedValueSize : env'.fmt.fixedValueSize = env.fmt.fixedValueSize
  compare : ∀ a b, compare (r.key a) (r.key b) = compare a b
  deferred : r.checksum deferred = deferred

end Renaming

-- Calls That May Panic

/- A renamed step followed by steps that commute. -/
theorem bind_rename
    {ε α α' β β' : Type} {f : α → α'} {h : β → β'} {x : Except ε α} {g : α → Except ε β}
    {g' : α' → Except ε β'} (hNext : ∀ a, g' (f a) = (g a).map h) :
    (x.map f >>= g') = (x >>= g).map h := by
  cases x with
  | error e => rfl
  | ok a => exact hNext a

theorem pure_map {α β : Type} (f : α → β) (a : α) :
    (pure a : Except Panic α).map f = pure (f a) :=
  rfl

theorem unwrap_map {α β : Type} (f : α → β) (x : Option α) :
    unwrap (x.map f) = (unwrap x).map f := by
  cases x with
  | none => rfl
  | some a => rfl

theorem map_eq_ok {ε α β : Type} {f : α → β} {x : Except ε α} {b : β} (hMap : x.map f = .ok b) :
    ∃ a, x = .ok a ∧ f a = b := by
  cases x with
  | error e => cases hMap
  | ok a =>
    cases hMap
    exact ⟨a, rfl, rfl⟩

theorem map_eq_error
    {ε α β : Type} {f : α → β} {x : Except ε α} {e : ε} (hMap : x.map f = .error e) :
    x = .error e := by
  cases x with
  | error e =>
    cases hMap
    rfl
  | ok a => cases hMap

theorem require_rename
    {β β' : Type} {h : β → β'} {condition : Bool} {panic : Panic} {g : Unit → Except Panic β}
    {g' : Unit → Except Panic β'} (hNext : g' () = (g ()).map h) :
    (require condition panic >>= g') = (require condition panic >>= g).map h := by
  cases condition with
  | false => rfl
  | true => exact hNext

-- Lengths

section Lengths

variable [DecidableEq P] [Ord K] [Ord K'] {r : Renaming K V K' V'} {env : BtreeEnv P K V}
    {env' : BtreeEnv P K' V'}

namespace Renaming.Respects

variable (hr : r.Respects env env') (pairs : List (K × V))
include hr

theorem pairLen (p : K × V) : env'.fmt.pairLen (r.pair p) = env.fmt.pairLen p := by
  simp only [Format.pairLen, Renaming.pair, hr.keyLen, hr.valueLen]

theorem kvBytes :
    env'.fmt.kvBytes (pairs.map r.pair) = env.fmt.kvBytes pairs := by
  have hComp : env'.fmt.pairLen ∘ r.pair = env.fmt.pairLen := funext hr.pairLen
  rw [Format.kvBytes, Format.kvBytes, map_map, hComp]

theorem keyBytes (keys : List K) : env'.fmt.keyBytes (keys.map r.key) = env.fmt.keyBytes keys := by
  have hComp : env'.fmt.keyLen ∘ r.key = env.fmt.keyLen := funext hr.keyLen
  rw [Format.keyBytes, Format.keyBytes, map_map, hComp]

theorem pointerBytes : env'.fmt.pointerBytes = env.fmt.pointerBytes := by
  simp only [Format.pointerBytes, hr.fixedKeySize, hr.fixedValueSize]

theorem leafBytes :
    env'.fmt.leafBytes (pairs.map r.pair) = env.fmt.leafBytes pairs := by
  rw [Format.leafBytes, Format.leafBytes, hr.kvBytes, hr.pointerBytes, length_map]

theorem keysEnd :
    env'.fmt.keysEnd (pairs.map r.pair) = env.fmt.keysEnd pairs := by
  have hKeys : (pairs.map r.pair).map Prod.fst = (pairs.map Prod.fst).map r.key := by
    rw [map_map, map_map]
    rfl
  rw [Format.keysEnd, Format.keysEnd, hKeys, hr.keyBytes, hr.pointerBytes, length_map]

theorem valueEnd (i : Nat) :
    env'.fmt.valueEnd (pairs.map r.pair) i = env.fmt.valueEnd pairs i := by
  have hComp : (fun p => env'.fmt.valueLen p.2) ∘ r.pair = fun p => env.fmt.valueLen p.2 :=
    funext fun p => hr.valueLen p.2
  rw [Format.valueEnd, Format.valueEnd, hr.keysEnd, ← map_take, map_map, hComp]

theorem branchBytes (keys : List K) :
    env'.fmt.branchBytes (keys.map r.key) = env.fmt.branchBytes keys := by
  rw [Format.branchBytes, Format.branchBytes, hr.keyBytes, hr.fixedKeySize, length_map]

theorem shouldSplitLeaf :
    env'.fmt.shouldSplitLeaf (pairs.map r.pair) = env.fmt.shouldSplitLeaf pairs := by
  rw [Format.shouldSplitLeaf, Format.shouldSplitLeaf, hr.leafBytes, length_map]

theorem singleLargeValue :
    env'.fmt.singleLargeValue (pairs.map r.pair) = env.fmt.singleLargeValue pairs := by
  rw [Format.singleLargeValue, Format.singleLargeValue, hr.leafBytes, length_map]

theorem divisionLoop (half : Nat) (pairs : List (K × V)) (bytes division : Nat) :
    env'.fmt.divisionLoop half (pairs.map r.pair) bytes division =
      env.fmt.divisionLoop half pairs bytes division := by
  induction pairs generalizing bytes division with
  | nil => rfl
  | cons p rest ih => simp only [map_cons, Format.divisionLoop, hr.pairLen, ih]

theorem division :
    env'.fmt.division (pairs.map r.pair) = env.fmt.division pairs := by
  rw [Format.division, Format.division, hr.kvBytes, length_map, ← map_take, hr.divisionLoop]

theorem shouldSplitBranch (keys : List K) :
    env'.fmt.shouldSplitBranch (keys.map r.key) = env.fmt.shouldSplitBranch keys := by
  rw [Format.shouldSplitBranch, Format.shouldSplitBranch, hr.branchBytes, length_map]

theorem sufficientInsertInplaceSpace (order : Nat) (pairs : List (K × V)) (position : Nat)
    (overwrite : Bool) (key : K) (value : V) :
    env'.fmt.sufficientInsertInplaceSpace order (pairs.map r.pair) position overwrite (r.key key)
        (r.value value) =
      env.fmt.sufficientInsertInplaceSpace order pairs position overwrite key value := by
  have hNew : env'.fmt.pairLen (r.key key, r.value value) = env.fmt.pairLen (key, value) :=
    hr.pairLen (key, value)
  have hOld : ((pairs.map r.pair)[position]?).map env'.fmt.pairLen =
        (pairs[position]?).map env.fmt.pairLen := by
    rw [getElem?_map, Option.map_map]
    congr 1
    exact funext hr.pairLen
  simp only [Format.sufficientInsertInplaceSpace, hNew, hOld,
    hr.leafBytes, hr.pointerBytes, length_map]

theorem offsetsFit :
    env'.fmt.offsetsFit (pairs.map r.pair) = env.fmt.offsetsFit pairs := by
  rw [Format.offsetsFit, Format.offsetsFit, hr.keysEnd,
    hr.leafBytes, hr.fixedKeySize, hr.fixedValueSize, length_map]

theorem leafEncodable :
    env'.fmt.leafEncodable (pairs.map r.pair) = env.fmt.leafEncodable pairs := by
  rw [Format.leafEncodable, Format.leafEncodable, hr.offsetsFit, hr.leafBytes, isEmpty_map]

theorem insertEncodable (i : Nat) :
    env'.fmt.insertEncodable (pairs.map r.pair) i = env.fmt.insertEncodable pairs i := by
  rw [Format.insertEncodable, Format.insertEncodable, hr.offsetsFit, hr.valueEnd]

theorem branchEncodable (keys : List K) :
    env'.fmt.branchEncodable (keys.map r.key) = env.fmt.branchEncodable keys := by
  rw [Format.branchEncodable, Format.branchEncodable,
    hr.branchBytes, hr.fixedKeySize, length_map, isEmpty_map]

theorem search (keys : List K) (query : K) :
    Redbx.search (keys.map r.key) (r.key query) = Redbx.search keys query := by
  have hOrder : (fun i : Nat => ((keys.map r.key)[i]?).elim .lt (Ord.compare (r.key query))) =
      fun i : Nat => (keys[i]?).elim .lt (Ord.compare query) := by
    funext i
    rw [getElem?_map]
    cases keys[i]? with
    | none => rfl
    | some k => exact hr.compare query k
  rw [Redbx.search, Redbx.search, hOrder, length_map]

theorem position (l : Leaf P K V) (key : K) :
    Leaf.position (r.leaf l) (r.key key) = Leaf.position l key := by
  have hKeys : (r.leaf l).pairs.map Prod.fst = (l.pairs.map Prod.fst).map r.key := by
    change (l.pairs.map r.pair).map Prod.fst = _
    rw [map_map, map_map]
    rfl
  rw [Leaf.position, Leaf.position, hKeys, hr.search]

theorem childForKey {C C' : Type} (f : C → C') (b : Branch P K C) (key : K) :
    Branch.childForKey (r.branch f b) (r.key key) = Branch.childForKey b key := by
  change (Redbx.search (b.keys.map r.key) (r.key key)).1 = _
  rw [hr.search, Branch.childForKey]

end Renaming.Respects

end Lengths

-- Lists, Nodes and Memory

theorem map_splice {α β : Type} (f : α → β) (xs : List α) (i width : Nat) (new : List α) :
    (splice xs i width new).map f = splice (xs.map f) i width (new.map f) := by
  simp only [splice, map_append, map_take, map_drop]

theorem takeSides_map (f : K → K') (sides : List Side) (keys : List K) :
    takeSides sides (keys.map f) = (takeSides sides keys).map f := by
  induction sides generalizing keys with
  | nil => rfl
  | cons side rest ih =>
    cases side with
    | front =>
      simp only [takeSides, map_append, head?_map, Option.toList_map, ← map_tail, ih]
    | back =>
      simp only [takeSides, map_append, getLast?_map, Option.toList_map, ← map_dropLast, ih]

/- Two lists, in the order that a condition gives. -/
theorem map_sided {α β : Type} (f : α → β) (before : Prop) [Decidable before] (xs ys : List α) :
    (if before then xs ++ ys else ys ++ xs).map f = if before then xs.map f ++ ys.map f
      else ys.map f ++ xs.map f := by
  split
  · exact map_append
  · exact map_append

section Nodes

variable (r : Renaming K V K' V')

theorem insertInplace_rename
    (pairs : List (K × V)) (position : Nat) (overwrite : Bool) (key : K) (value : V) :
    insertInplace (pairs.map r.pair) position overwrite (r.key key) (r.value value) =
      (insertInplace pairs position overwrite key value).map r.pair := by
  unfold insertInplace
  cases overwrite with
  | false =>
    simp only [Bool.false_eq_true, if_false]
    rw [map_insertIdx]
    rfl
  | true =>
    simp only [if_true]
    apply ext_getElem?
    intro i
    rw [getElem?_modify, getElem?_map, getElem?_map, getElem?_modify]
    cases pairs[i]? with
    | none => simp
    | some p =>
      by_cases hAt : position = i
      · simp [hAt, Renaming.pair]
      · simp [hAt]

theorem insertRebuilt_rename
    (pairs : List (K × V)) (position : Nat) (found : Bool) (key : K) (value : V) :
    insertRebuilt (pairs.map r.pair) position found (r.key key) (r.value value) =
      (insertRebuilt pairs position found key value).map r.pair := by
  rw [insertRebuilt, insertRebuilt, map_splice]
  rfl

theorem page_rename (n : Nat) (t : Tree P K V n) : page n (r.tree n t) = page n t := by
  cases n with
  | zero => rfl
  | succ n => rfl

theorem branchImage_rename (n : Nat) (children : Children P K V n) (keys : List K) :
    branchImage n (children.map (r.child (r.tree n))) (keys.map r.key) =
      r.node (branchImage n children keys) := by
  simp only [branchImage, Renaming.node, map_map]
  congr 1
  apply map_congr_left
  intro c _
  simp only [Function.comp, Renaming.child, page_rename, id]

theorem image_rename (n : Nat) (t : Tree P K V n) : image n (r.tree n t) = r.node (image n t) := by
  cases n with
  | zero => rfl
  | succ n => exact branchImage_rename r n _ _

theorem leaf_page_rename (l : Leaf P K V) : (r.leaf l).page = l.page := rfl

theorem leaf_pairs_rename (l : Leaf P K V) : (r.leaf l).pairs = l.pairs.map r.pair := rfl

variable {C C' : Type}

theorem branch_page_rename (f : C → C') (b : Branch P K C) : (r.branch f b).page = b.page := rfl

theorem branch_children_rename (f : C → C') (b : Branch P K C) :
    (r.branch f b).children = b.children.map (r.child f) := rfl

theorem branch_keys_rename (f : C → C') (b : Branch P K C) :
    (r.branch f b).keys = b.keys.map r.key := rfl

theorem pieces_children_rename (f : C → C') (pieces : Pieces K C) :
    (r.pieces f pieces).children = pieces.children.map (r.child f) := by
  rcases pieces with ⟨first, next⟩
  cases next with
  | none => rfl
  | some n => rfl

theorem pieces_keys_rename (f : C → C') (pieces : Pieces K C) :
    (r.pieces f pieces).keys = pieces.keys.map r.key := by
  rcases pieces with ⟨first, next⟩
  cases next with
  | none => rfl
  | some n => rfl

theorem withPage_rename (n : Nat) (t : Tree P K V n) (p : P) :
    withPage n (r.tree n t) p = r.tree n (withPage n t p) := by
  cases n with
  | zero => rfl
  | succ n => rfl

theorem firstHelper_rename (n : Nat) (t : Tree P K V n) :
    BtreeEnv.firstHelper n (r.tree n t) = (BtreeEnv.firstHelper n t).map r.pair := by
  induction n with
  | zero =>
    simp only [BtreeEnv.firstHelper, Renaming.tree, Renaming.leaf, getElem?_map, unwrap_map]
  | succ n ih =>
    simp only [BtreeEnv.firstHelper, Renaming.tree, branch_children_rename, getElem?_map,
      unwrap_map]
    apply bind_rename
    rintro ⟨c, _⟩
    exact ih c

theorem lastHelper_rename (n : Nat) (t : Tree P K V n) :
    BtreeEnv.lastHelper n (r.tree n t) = (BtreeEnv.lastHelper n t).map r.pair := by
  induction n with
  | zero =>
    simp only [BtreeEnv.lastHelper, Renaming.tree,
      Renaming.leaf, length_map, getElem?_map, unwrap_map]
  | succ n ih =>
    simp only [BtreeEnv.lastHelper, Renaming.tree, branch_children_rename, length_map,
      getElem?_map, unwrap_map]
    apply bind_rename
    rintro ⟨c, _⟩
    exact ih c

theorem entries_rename (n : Nat) (t : Tree P K V n) :
    entries n (r.tree n t) = (entries n t).map r.pair := by
  induction n with
  | zero => rfl
  | succ n ih =>
    simp only [entries, Renaming.tree, branch_children_rename, map_flatMap, flatMap_map]
    congr 1
    funext c
    exact ih c.1

theorem rootEntries_rename (root : TreeRoot P K V) :
    rootEntries (root.map r.root) = (rootEntries root).map r.pair := by
  cases root with
  | none => rfl
  | some t => exact entries_rename r t.height t.tree

theorem first_rename (root : TreeRoot P K V) :
    BtreeEnv.first (root.map r.root) = (BtreeEnv.first root).map (Option.map r.pair) := by
  cases root with
  | none => rfl
  | some t =>
    simp only [Option.map_some, BtreeEnv.first, Renaming.root, firstHelper_rename]
    apply bind_rename
    intro p
    rfl

theorem last_rename (root : TreeRoot P K V) :
    BtreeEnv.last (root.map r.root) = (BtreeEnv.last root).map (Option.map r.pair) := by
  cases root with
  | none => rfl
  | some t =>
    simp only [Option.map_some, BtreeEnv.last, Renaming.root, lastHelper_rename]
    apply bind_rename
    intro p
    rfl

theorem selected_rename {p : K × V → Bool} {p' : K' × V' → Bool} (hSame : ∀ e, p' (r.pair e) = p e)
    (root : TreeRoot P K V) :
    ((rootEntries (root.map r.root)).filter p').map Prod.fst =
      (((rootEntries root).filter p).map Prod.fst).map r.key := by
  have hComp : p' ∘ r.pair = p := funext hSame
  rw [rootEntries_rename, filter_map, hComp, map_map, map_map]
  rfl

variable [DecidableEq P]

theorem PageMemory.ext_fields {N : Type} {a b : PageMemory P N} (hPages : a.pages = b.pages)
    (hCommitted : a.committed = b.committed) (hUncommitted : a.uncommitted = b.uncommitted)
    (hFreed : a.freed = b.freed) :
    a = b := by
  cases a
  cases b
  simp only at hPages hCommitted hUncommitted hFreed
  subst hPages hCommitted hUncommitted hFreed
  rfl

theorem pages_update_rename (m : Mem P K V) (p : P) (content : Node P K V) :
    Function.update (fun q => (m.pages q).map r.node) p (some (r.node content)) =
      fun q => (Function.update m.pages p (some content) q).map r.node := by
  funext q
  by_cases hSame : q = p
  · rw [hSame, update_self, update_self]
    rfl
  · rw [update_of_ne hSame, update_of_ne hSame]

theorem write_rename (m : Mem P K V) (p : P) (content : Node P K V) :
    (r.mem m).write p (r.node content) = r.mem (m.write p content) :=
  PageMemory.ext_fields (pages_update_rename r m p content) rfl rfl rfl

theorem allocate_rename
    (m : Mem P K V) (alloc : PageAllocator P) (order : Nat) (content : Node P K V) :
    (r.mem m).allocate alloc order (r.node content) = ((m.allocate alloc order content).1,
        r.mem (m.allocate alloc order content).2) := by
  refine Prod.ext rfl ?_
  exact PageMemory.ext_fields (pages_update_rename r m _ content) rfl rfl rfl

theorem conditionalFree_rename (m : Mem P K V) (modify : Bool) (p : P) :
    (r.mem m).conditionalFree modify p = r.mem (m.conditionalFree modify p) := by
  change (if modify && m.isUncommitted p then (r.mem m).free p else (r.mem m).pushFreed p) = _
  rw [PageMemory.conditionalFree]
  split
  · rfl
  · rfl

theorem foldl_conditionalFree_rename (modify : Bool) (dropped : List P) (m : Mem P K V) :
    dropped.foldl (fun m p => m.conditionalFree modify p) (r.mem m) =
      r.mem (dropped.foldl (fun m p => m.conditionalFree modify p) m) := by
  induction dropped generalizing m with
  | nil => rfl
  | cons p rest ih => rw [foldl_cons, foldl_cons, conditionalFree_rename, ih]

end Nodes

end Redbx
