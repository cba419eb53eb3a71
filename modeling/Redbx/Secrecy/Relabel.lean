import Redbx.Secrecy.Store

/-
  Two runs of the same steps.

  A relabelling replaces the keys and values of all tables and the checksums. If it keeps lengths
  and the order of keys, and the hashes computed on the way correspond, a step on the relabelled
  database leaves the relabelled result.

  Key theorems include:
    * `step_relabel`, `run_relabel`
-/

namespace Redbx

open Bytes Redbx.Tree

variable {P T : Type} {K V K' V' : T → Type}

-- Relabellings

/- New keys, values and checksums for old ones. -/
structure Relabel (T : Type) (K V K' V' : T → Type) where
  key : (t : T) → K t → K' t
  value : (t : T) → V t → V' t
  checksum : Checksum → Checksum

namespace Relabel

variable (f : Relabel T K V K' V')

/- What a relabelling does to the values of a user. -/
def user (t : T) : Renaming (K t) (V t) (K' t) (V' t) := ⟨f.key t, f.value t, f.checksum⟩

def header (root : RootHeader P) : RootHeader P :=
  { root with checksum := f.checksum root.checksum }

/- A definition keeps the page and the length. -/
def stored (t : T) : StoredValue P T (V t) → StoredValue P T (V' t)
  | .user value => .user (f.value t value)
  | .definition table root =>
    .definition table (root.map f.header)

/- What a relabelling does to the tree of a table. -/
def onTree (t : T) : Renaming (K t) (StoredValue P T (V t)) (K' t) (StoredValue P T (V' t)) :=
  ⟨f.key t, f.stored t, f.checksum⟩

def write : FileWrite P T K V → FileWrite P T K' V'
  | .page t p node => .page t p ((f.onTree t).node node)
  | .slot which user system transactionId =>
    .slot which (user.map f.header) (system.map f.header) transactionId
  | .front data => .front data
  | .resize length => .resize length

/- The roots of all trees. -/
def roots (roots : (t : T) → TreeRoot P (K t) (StoredValue P T (V t))) :
    (t : T) → Option (BtreeRoot P (K' t) (StoredValue P T (V' t))) :=
  fun t => (roots t).map (f.onTree t).root

variable [DecidableEq P]

def store (s : Store P T K V) : Store P T K' V' where
  roots := f.roots s.roots
  pages := fun t p => (s.pages t p).map (f.onTree t).node
  committed := s.committed
  uncommitted := s.uncommitted
  disjoint := s.disjoint
  freed := s.freed
  saved := s.saved.map f.roots
  log := s.log.map f.write

/- The same step on relabelled keys and values. -/
inductive SameEvent : Event P T K V → Event P T K' V' → Prop where
  | call (t : T) {c : TableCall (K t) (V t)} {c' : TableCall (K' t) (V' t)}
      (hSame : (f.user t).SameCall c c') :
      SameEvent (.call t c) (.call t c')
  | finalize (t : T) : SameEvent (.finalize t) (.finalize t)
  | record (t u : T) (name : K u) : SameEvent (.record t u name) (.record t u (f.key u name))
  | writePage (t : T) (p : P) : SameEvent (.writePage t p) (.writePage t p)
  | writeSlot (which : Fin 2) (user system : T) (transactionId : UInt64) :
      SameEvent (.writeSlot which user system transactionId)
        (.writeSlot which user system transactionId)
  | writeFront (data : Bytes) : SameEvent (.writeFront data) (.writeFront data)
  | resize (length : Nat) : SameEvent (.resize length) (.resize length)
  | commit : SameEvent .commit .commit
  | release (p : P) : SameEvent (.release p) (.release p)
  | restore (i : Nat) : SameEvent (.restore i) (.restore i)

/-
  The relabelling keeps the lengths of keys and values, the order of keys and everything that does
  not depend on them.
-/
structure Respects [∀ t, Ord (K t)] [∀ t, Ord (K' t)] (e : Engine P T K V)
    (e' : Engine P T K' V') : Prop where
  alloc : e'.alloc = e.alloc
  tail : e'.definitionTail = e.definitionTail
  fixedKeySize : ∀ t, (e'.fmt t).fixedKeySize = (e.fmt t).fixedKeySize
  fixedValueSize : ∀ t, (e'.fmt t).fixedValueSize = (e.fmt t).fixedValueSize
  keyLen : ∀ t k, (e'.keyData t (f.key t k)).length = (e.keyData t k).length
  valueLen : ∀ t v, (e'.valueData t (f.value t v)).length = (e.valueData t v).length
  compare : ∀ t (a b : K t), compare (f.key t a) (f.key t b) = compare a b
  deferred : f.checksum deferred = deferred

/- The hashes of branches correspond. -/
def SameBranchDigests (e : Engine P T K V) (e' : Engine P T K' V') : Prop :=
  ∀ t children keys, e'.digest t ((f.onTree t).node (.branch children keys)) =
      f.checksum (e.digest t (.branch children keys))

/- The hashes of the leaves that a step hashes correspond. -/
def SameDigests (e : Engine P T K V) (e' : Engine P T K' V') (s : Store P T K V) :
    Event P T K V → Prop
  | .finalize t =>
    ∀ pairs ∈ rootDirtyLeaves s.uncommitted (s.roots t),
      e'.digest t ((f.onTree t).node (.leaf pairs)) = f.checksum (e.digest t (.leaf pairs))
  | _ => True

end Relabel

-- Trees

/- A definition is as long without its root's checksum. -/
theorem Encoding.length_definitionData
    (e : Encoding P T K V) (table : T) (root : Option (RootHeader P)) :
    (e.definitionData table root).length = 42 + (e.definitionTail table).length := by
  cases root with
  | none | some =>
    simp [definitionData, TransactionHeader.rootBytes]
    omega

variable {f : Relabel T K V K' V'}

theorem Renaming.SameCall.stored {t : T} {c : TableCall (K t) (V t)} {c' : TableCall (K' t) (V' t)}
    (hSame : (f.user t).SameCall c c') :
    (f.onTree (P := P) t).SameCall (c.stored P T) (c'.stored P T) := by
  cases hSame with
  | call c =>
    have hCall : Renaming.call ⟨id, StoredValue.user, id⟩ ((f.user t).call c) =
          (f.onTree (P := P) t).call (Renaming.call ⟨id, StoredValue.user, id⟩ c) := by
      cases c with
      | getMut =>
        simp only [Renaming.call, List.map_map]
        rfl
      | insert => rfl
      | insertReserve => rfl
      | remove key => rfl
      | get key => rfl
      | first | last => rfl
    simp only [TableCall.stored, hCall]
    exact .call _
  | retain hRange hPredicate =>
    refine .retain hRange ?_
    intro k v
    cases v with
    | user value => exact hPredicate k value
    | definition => rfl
  | extractIf sides hRange hPredicate =>
    refine .extractIf sides hRange ?_
    intro k v
    cases v with
    | user value => exact hPredicate k value
    | definition => rfl

variable [DecidableEq P]

theorem header_relabel (s : Store P T K V) (t : T) : ((f.store s).roots t).map BtreeRoot.header =
      ((s.roots t).map BtreeRoot.header).map f.header := by
  have hRoots : (f.store s).roots t = (s.roots t).map (f.onTree t).root := rfl
  rw [hRoots]
  cases s.roots t with
  | none => rfl
  | some root =>
    simp only [Option.map_some, BtreeRoot.header, Renaming.root, page_rename, Relabel.header,
      Relabel.onTree]

theorem put_relabel [DecidableEq T] (s : Store P T K V) (t : T)
    (tree : BtreeState P (K t) (StoredValue P T (V t))) :
    (f.store s).put t ((f.onTree t).state tree) = f.store (s.put t tree) := by
  have hRoots : Function.update (f.store s).roots t ((f.onTree t).state tree).root =
        f.roots (Function.update s.roots t tree.root) := by
    funext u
    exact (Function.apply_update (fun u => Option.map (f.onTree u).root) s.roots t tree.root u).symm
  have hPages : Function.update (f.store s).pages t ((f.onTree t).state tree).mem.pages =
        fun u p => (Function.update s.pages t tree.mem.pages u p).map (f.onTree u).node := by
    funext u
    exact (Function.apply_update (fun u pages p => Option.map (f.onTree u).node
        (pages p)) s.pages t tree.mem.pages u).symm
  unfold Store.put
  rw [hRoots, hPages]
  rfl

variable [∀ t, Ord (K t)] [∀ t, Ord (K' t)] {e : Engine P T K V} {e' : Engine P T K' V'}

theorem Relabel.Respects.onTree (hf : f.Respects e e') (t : T) :
    (f.onTree t).Respects (e.env t) (e'.env t) := { hf with
  keyLen := by
    intro k
    simp only [Engine.env, Relabel.onTree, e.keyLen_data, e'.keyLen_data, hf.keyLen]
  valueLen := by
    intro v
    simp only [Engine.env, Relabel.onTree, e.valueLen_data, e'.valueLen_data]
    cases v with
    | user value => exact hf.valueLen t value
    | definition =>
      simp only [Relabel.stored, Encoding.storedData, Encoding.length_definitionData, hf.tail]
  fixedKeySize := hf.fixedKeySize t
  fixedValueSize := hf.fixedValueSize t
  compare := hf.compare t }

-- Steps and Runs

variable [DecidableEq T]

/- One step of the relabelled database. -/
theorem step_relabel
    (hf : f.Respects e e') (hBranches : f.SameBranchDigests e e') (s : Store P T K V)
    {event : Event P T K V} {event' : Event P T K' V'} (hSame : f.SameEvent event event')
    (hLeaves : f.SameDigests e e' s event) :
    e'.step (f.store s) event' = (e.step s event).map f.store := by
  cases hSame with
  | call t hCall =>
    have hStep := tableCall_rename (hf.onTree t) (s.tree t) hCall.stored
    simp only [Engine.step]
    refine (congrArg (· >>= _) hStep).trans ?_
    apply bind_rename
    intro tree
    simp only [put_relabel, pure, Except.pure, Except.map]
  | finalize t =>
    have hStep := finalizeDirtyChecksums_rename (r := f.onTree t)
        (hBranches t) (s.tree t).root (s.tree t).mem hLeaves
    simp only [Engine.step]
    refine (congrArg (· >>= _) hStep).trans ?_
    apply bind_rename
    rintro ⟨root, mem⟩
    exact congrArg Except.ok (put_relabel s t ⟨root, mem⟩)
  | record t u name =>
    have hStep := insert_rename (hf.onTree u) true (s.tree u).root name
        (.definition t ((s.roots t).map BtreeRoot.header)) (s.tree u).mem
    simp only [Engine.step, header_relabel]
    refine (congrArg (· >>= _) hStep).trans ?_
    apply bind_rename
    rintro ⟨old, root, mem⟩
    exact congrArg Except.ok (put_relabel s u ⟨root, mem⟩)
  | writePage t p =>
    have hPages : (f.store s).pages t p = (s.pages t p).map (f.onTree t).node := rfl
    simp only [Engine.step, hPages]
    cases s.pages t p with
    | none => rfl
    | some node => simp [Store.write, Relabel.store, Relabel.write, pure, Except.pure, Except.map]
  | writeSlot =>
    simp only [Engine.step, header_relabel]
    simp [Store.write, Relabel.store, Relabel.write, pure, Except.pure, Except.map]
  | writeFront | resize =>
    simp [Engine.step, Store.write, Relabel.store, Relabel.write, pure, Except.pure, Except.map]
  | commit => rfl
  | release p => rfl
  | restore i =>
    have hSaved : (f.store s).saved[i]? = (s.saved[i]?).map f.roots := List.getElem?_map
    simp only [Engine.step, hSaved]
    cases s.saved[i]? with
    | none => rfl
    | some => rfl

/- A run of the relabelled database, if the hashes correspond at every step on the way. -/
theorem run_relabel (hf : f.Respects e e') (hBranches : f.SameBranchDigests e e')
    (hLeaves : ∀ s event, f.SameDigests e e' s event) {script : List (Event P T K V)}
    {events : List (Event P T K' V')} (hSame : List.Forall₂ f.SameEvent script events)
    (s : Store P T K V) :
    e'.run (f.store s) events = (e.run s script).map f.store := by
  induction hSame generalizing s with
  | nil => rfl
  | cons hEvent _ ih =>
    simp only [Engine.run]
    rw [step_relabel hf hBranches s hEvent (hLeaves s _)]
    apply bind_rename
    intro s1
    exact ih s1

end Redbx
