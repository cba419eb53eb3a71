import Redbx.Btree.Changes
import Redbx.Btree.RangeSearch
import Mathlib.Data.List.ReduceOption

/-
  Iterators that remove entries, `extract_if` and `retain_in`.

  Both walk over the tree as it was and remove entries from a copy that they build beside it, so
  pages are only given back once the walk is over. The predicate may have a state of its own. What
  it is asked and answers is recorded in `shown`.

  On lists, `sift` is one call of the iterator and `answers` the whole walk of `retain_in`. The
  loops over the tree do the same, and remove the keys of the entries one by one.

  Key theorems include:
    * `retainIn_eq_retainRun`, `extractFromIf_eq_extractRun`
-/

namespace Redbx

open Redbx.Tree List

-- Iterators

/- An answer and the state after it. -/
abbrev Predicate (K V S : Type) := S → K × V → Bool × S

/-
  `BtreeExtractIf`. The pages to free on drop are those queued after the first `queued` ones.
  `bound` exceeds the number of entries that `inner` can return.
-/
structure BtreeExtractIf (P K V S : Type) [DecidableEq P] where
  root : TreeRoot P K V
  inner : BtreeRangeIter P K V
  state : S
  shown : List ((K × V) × Bool)
  queued : Nat
  bound : Nat
  mem : Mem P K V

/- `drop`. -/
def BtreeExtractIf.drop {P K V S : Type} [DecidableEq P] (self : BtreeExtractIf P K V S) :
    BtreeState P K V :=
  ⟨self.root, BtreeEnv.releaseFreed self.queued self.mem⟩

namespace BtreeEnv

variable
    {P K V S : Type} [DecidableEq P] [Ord K] (env : BtreeEnv P K V) (predicate : Predicate K V S)

/- The loop of `next` and `next_back`. -/
def extractLoop (side : Side) :
    Nat → BtreeExtractIf P K V S → Except Panic (Option (K × V) × BtreeExtractIf P K V S)
  | 0, _ => throw .assertion
  | fuel + 1, self => do
    let (item, inner) ← self.inner.take side
    match item with
    | none => return (none, { self with inner := inner })
    | some entry =>
      let (answer, state) := predicate self.state entry
      let self := { self with
          inner := inner
          state := state
          shown := self.shown ++ [(entry, answer)] }
      if answer then
        let (old, root, mem) ← env.remove false self.root entry.1 self.mem
        require old.isSome .assertion
        return (some entry, { self with root := root, mem := mem })
      else
        extractLoop side fuel self

/- Any calls, with what they return. -/
def extractAll : List Side → BtreeExtractIf P K V S → Except Panic
        (List (Option (K × V)) × BtreeExtractIf P K V S)
  | [], self => return ([], self)
  | side :: sides, self => do
    let (hit, self) ← env.extractLoop predicate side self.bound self
    let (hits, self) ← extractAll sides self
    return (hit :: hits, self)

/- A new iterator over a range. -/
def extractNew
    (start last : Bound K) (state : S) (root : TreeRoot P K V) (mem : Mem P K V) :
    Except Panic (BtreeExtractIf P K V S) := do
  let inner ← BtreeRangeIter.new start last root
  return ⟨root, inner, state, [], mem.freed.length, (rootEntries root).length + 1, mem⟩

/- `extract_from_if` and calls on the iterator. -/
def extractRun
    (start last : Bound K) (state : S) (sides : List Side) (root : TreeRoot P K V)
    (mem : Mem P K V) :
    Except Panic (List (Option (K × V)) × BtreeExtractIf P K V S) := do
  let self ← extractNew start last state root mem
  env.extractAll predicate sides self

/- The loop of `retain_in`. -/
def retainLoop : Nat → BtreeExtractIf P K V S → Except Panic (BtreeExtractIf P K V S)
  | 0, _ => throw .assertion
  | fuel + 1, self => do
    let (item, inner) ← self.inner.next
    match item with
    | none => return { self with inner := inner }
    | some entry =>
      let (answer, state) := predicate self.state entry
      let self := { self with
          inner := inner
          state := state
          shown := self.shown ++ [(entry, answer)] }
      if answer then
        retainLoop fuel self
      else
        let (old, root, mem) ← env.remove false self.root entry.1 self.mem
        require old.isSome .assertion
        retainLoop fuel { self with root := root, mem := mem }

/- `retain_in`, up to giving the old pages back. -/
def retainRun
    (start last : Bound K) (state : S) (root : TreeRoot P K V) (mem : Mem P K V) :
    Except Panic (BtreeExtractIf P K V S) := do
  let self ← extractNew start last state root mem
  env.retainLoop predicate self.bound self

end BtreeEnv

-- The Same on Lists

section Lists

variable {K V S : Type}

/- A list as it is read from one side. -/
def Side.view {α : Type} : Side → List α → List α
  | .front, l => l
  | .back, l => l.reverse

theorem Side.view_view {α : Type} (side : Side) (l : List α) : side.view (side.view l) = l := by
  cases side with
  | front => rfl
  | back => exact reverse_reverse l

theorem Side.view_map {α β : Type} (side : Side) (f : α → β) (l : List α) :
    side.view (l.map f) = (side.view l).map f := by
  cases side with
  | front => rfl
  | back => exact map_reverse.symm

theorem Side.view_perm {α : Type} (side : Side) (l : List α) : (side.view l).Perm l := by
  cases side with
  | front => exact List.Perm.refl l
  | back => exact reverse_perm l

/- What one call finds, asks and leaves. -/
structure Sifted (K V S : Type) where
  hit : Option (K × V)
  state : S
  shown : List ((K × V) × Bool)
  rest : List (K × V)

/- Entries are asked for until one is chosen. -/
def sift (predicate : Predicate K V S) : S → List (K × V) → Sifted K V S
  | state, [] => ⟨none, state, [], []⟩
  | state, e :: rest =>
    let (answer, state) := predicate state e
    if answer then
      ⟨some e, state, [(e, true)], rest⟩
    else
      let later := sift predicate state rest
      { later with shown := (e, false) :: later.shown }

/- What several calls find, ask and leave. -/
structure SiftedAll (K V S : Type) where
  hits : List (Option (K × V))
  state : S
  shown : List ((K × V) × Bool)
  rest : List (K × V)

/- Calls from both sides. -/
def siftAll (predicate : Predicate K V S) : List Side → S → List (K × V) → SiftedAll K V S
  | [], state, l => ⟨[], state, [], l⟩
  | side :: sides, state, l =>
    let now := sift predicate state (side.view l)
    let later := siftAll predicate sides now.state (side.view now.rest)
    ⟨now.hit :: later.hits, later.state, now.shown ++ later.shown, later.rest⟩

/- All entries are shown, from the first to the last. -/
def answers (predicate : Predicate K V S) : S → List (K × V) → S × List ((K × V) × Bool)
  | state, [] => (state, [])
  | state, e :: rest =>
    let (answer, state) := predicate state e
    let (state, later) := answers predicate state rest
    (state, (e, answer) :: later)

/- The keys of what is found first and later. -/
theorem hitKeys_cons (hit : Option (K × V)) (hits : List (Option (K × V))) :
    (hit :: hits).reduceOption.map Prod.fst = (hit.map Prod.fst).toList ++
        hits.reduceOption.map Prod.fst := by
  cases hit with
  | none => rfl
  | some e => rfl

theorem sift_shown (predicate : Predicate K V S) (state : S) (l : List (K × V)) :
    (sift predicate state l).shown.map Prod.fst ++ (sift predicate state l).rest = l ∧
      (sift predicate state l).hit.toList = ((sift predicate state l).shown.filter
          Prod.snd).map Prod.fst := by
  induction l generalizing state with
  | nil => exact ⟨rfl, rfl⟩
  | cons e rest ih =>
    rcases hAnswer : predicate state e with ⟨answer, state'⟩
    cases answer with
    | true => simp [sift, hAnswer]
    | false =>
      rcases ih state' with ⟨hShown, hHit⟩
      refine ⟨?_, ?_⟩
      · simp [sift, hAnswer, hShown]
      · simp [sift, hAnswer, hHit]

/- Whatever the sides, no entry is shown twice. -/
theorem siftAll_shown
    (predicate : Predicate K V S) (sides : List Side) (state : S) (l : List (K × V)) :
    ((siftAll predicate sides state l).shown.map Prod.fst ++
        (siftAll predicate sides state l).rest).Perm l ∧
      (siftAll predicate sides state l).hits.reduceOption =
        ((siftAll predicate sides state l).shown.filter Prod.snd).map Prod.fst := by
  induction sides generalizing state l with
  | nil => exact ⟨List.Perm.refl l, rfl⟩
  | cons side _ ih =>
    rcases sift_shown predicate state (side.view l) with ⟨hNow, hHit⟩
    rcases ih (sift predicate state (side.view l)).state
      (side.view (sift predicate state (side.view l)).rest) with ⟨hLater, hHits⟩
    refine ⟨?_, ?_⟩
    · have hRest := hLater.trans (side.view_perm _)
      simp only [siftAll, map_append, append_assoc]
      refine (hRest.append_left _).trans ?_
      rw [hNow]
      exact side.view_perm l
    · simp only [siftAll, filter_append, map_append, ← hHits, ← hHit]
      cases (sift predicate state (side.view l)).hit with
      | none => rfl
      | some e => rfl

/- The answers are for all entries in order. -/
theorem answers_shown (predicate : Predicate K V S) (state : S) (l : List (K × V)) :
    (answers predicate state l).2.map Prod.fst = l := by
  induction l generalizing state with
  | nil => rfl
  | cons e rest ih => simp [answers, ih]

end Lists

-- The Loops

section Loops

variable {P K V S : Type} [DecidableEq P]

theorem Spans.take
    (side : Side) {l : List (Slot P K V)} {iter : BtreeRangeIter P K V} {rest : List (Slot P K V)}
    (hOrdered : Ordered l) (hSpans : Spans l iter (side.view rest)) :
    ∃ iter', iter.take side = .ok (rest.head?.map Slot.pair, iter') ∧
      Spans l iter' (side.view rest.tail) := by
  cases side with
  | front => exact hSpans.next hOrdered
  | back =>
    rcases hSpans.nextBack hOrdered with ⟨iter', hTake, hLeft⟩
    have hLast : (Side.back.view rest).getLast? = rest.head? := getLast?_reverse
    have hInit : (Side.back.view rest).dropLast = Side.back.view rest.tail := dropLast_reverse
    rw [hLast] at hTake
    rw [hInit] at hLeft
    exact ⟨iter', hTake, hLeft⟩

variable [Ord K] (env : BtreeEnv P K V) (predicate : Predicate K V S)

theorem removeEach_append (a b : List K) (root : TreeRoot P K V) (mem : Mem P K V) :
    env.removeEach (a ++ b) root mem = env.removeEach a root mem >>= fun p =>
        env.removeEach b p.1 p.2 := by
  induction a generalizing root mem with
  | nil => rfl
  | cons _ _ ih => simp only [cons_append, BtreeEnv.removeEach, ih, bind_assoc]

/- The iterator over another tree and other pages. -/
def BtreeExtractIf.over (self : BtreeExtractIf P K V S) (p : TreeRoot P K V × Mem P K V) :
    BtreeExtractIf P K V S :=
  { self with root := p.1, mem := p.2 }

variable {l rest : List (Slot P K V)}

/-
  One call chooses as on the list, and removes its choice. The walk does not depend on the tree that
  it removes from.
-/
theorem extractLoop_eq
    (side : Side) {fuel : Nat} (self : BtreeExtractIf P K V S) (hOrdered : Ordered l)
    (hSpans : Spans l self.inner (side.view rest)) (hFuel : rest.length < fuel) :
    ∃ inner left, Spans l inner (side.view left) ∧
      left.map Slot.pair = (sift predicate self.state (rest.map Slot.pair)).rest ∧
      ∀ p, env.extractLoop predicate side fuel (self.over p) = env.removeEach
          ((sift predicate self.state (rest.map Slot.pair)).hit.map Prod.fst).toList
          p.1 p.2 >>= fun p =>
        .ok ((sift predicate self.state (rest.map Slot.pair)).hit, BtreeExtractIf.over
            { self with
              inner := inner
              state := (sift predicate self.state (rest.map Slot.pair)).state
              shown := self.shown ++ (sift predicate self.state
                (rest.map Slot.pair)).shown } p) := by
  induction rest generalizing fuel self with
  | nil =>
    rcases hSpans.take side hOrdered with ⟨inner, hTake, hLeft⟩
    rcases fuel with _ | fuel
    · cases hFuel
    · refine ⟨inner, [], hLeft, rfl, fun p => ?_⟩
      simp [BtreeEnv.extractLoop, BtreeExtractIf.over, hTake, sift, BtreeEnv.removeEach]
  | cons slot rest ih =>
    rcases hSpans.take side hOrdered with ⟨inner, hTake, hLeft⟩
    rcases fuel with _ | fuel
    · cases hFuel
    rcases hAnswer : predicate self.state slot.pair with ⟨answer, state⟩
    cases answer with
    | true =>
      refine ⟨inner, rest, hLeft, ?_, fun p => ?_⟩
      · simp [sift, hAnswer]
      · simp [BtreeEnv.extractLoop, BtreeExtractIf.over, hTake, sift, hAnswer, BtreeEnv.removeEach,
          bind_assoc]
    | false =>
      have hLess : rest.length < fuel := by simpa using hFuel
      rcases ih { self with
          inner := inner
          state := state
          shown := self.shown ++ [(slot.pair, false)] }
        hLeft hLess with ⟨inner', left, hMore, hRest, hEq⟩
      refine ⟨inner', left, hMore, ?_, fun p => ?_⟩
      · simpa [sift, hAnswer] using hRest
      · have hLater := hEq p
        simp only [BtreeExtractIf.over] at hLater
        simp only [BtreeEnv.extractLoop, BtreeExtractIf.over, hTake, ok_bind,
          head?_cons, Option.map_some, hAnswer, Bool.false_eq_true, if_false, hLater]
        simp [sift, hAnswer]

/- Any calls choose as on the list, and remove their choices. -/
theorem extractAll_eq (sides : List Side) (self : BtreeExtractIf P K V S) (hOrdered : Ordered l)
    (hSpans : Spans l self.inner rest) (hBound : rest.length < self.bound) :
    ∃ inner, ∀ p, env.extractAll predicate sides (self.over p) = env.removeEach
          ((siftAll predicate sides self.state (rest.map Slot.pair)).hits.reduceOption.map Prod.fst)
          p.1 p.2 >>= fun p =>
        .ok ((siftAll predicate sides self.state (rest.map Slot.pair)).hits,
          BtreeExtractIf.over { self with
              inner := inner
              state := (siftAll predicate sides self.state (rest.map Slot.pair)).state
              shown := self.shown ++ (siftAll predicate sides
                self.state (rest.map Slot.pair)).shown } p) := by
  induction sides generalizing self rest with
  | nil =>
    refine ⟨self.inner, fun p => ?_⟩
    simp [BtreeEnv.extractAll, BtreeExtractIf.over, siftAll, BtreeEnv.removeEach, List.reduceOption]
  | cons side _ ih =>
    have hView : Spans l self.inner (side.view (side.view rest)) := by
      rw [side.view_view]
      exact hSpans
    have hLength : (side.view rest).length < self.bound := by
      rw [(side.view_perm rest).length_eq]
      exact hBound
    rcases extractLoop_eq env predicate side self hOrdered
      hView hLength with ⟨inner, left, hMore, hRest, hNow⟩
    rw [← side.view_map] at hRest hNow
    have hShorter : (side.view left).length < self.bound := by
      have hCount := congrArg List.length (sift_shown predicate
        self.state (side.view (rest.map Slot.pair))).1
      rw [← hRest] at hCount
      simp only [length_append, length_map, (side.view_perm _).length_eq] at hCount
      rw [(side.view_perm left).length_eq]
      omega
    rcases ih { self with
        inner := inner
        state := (sift predicate self.state (side.view (rest.map Slot.pair))).state
        shown := self.shown ++ (sift predicate self.state (side.view (rest.map Slot.pair))).shown }
      hMore hShorter with ⟨inner', hLater⟩
    refine ⟨inner', fun p => ?_⟩
    rw [← side.view_map, hRest] at hLater
    have hBoundOver : (self.over p).bound = self.bound := rfl
    simp only [BtreeEnv.extractAll, hBoundOver, hNow, bind_assoc, ok_bind, hLater, siftAll,
      hitKeys_cons, removeEach_append, pure_eq_ok, append_assoc]

theorem retainLoop_eq {fuel : Nat} (self : BtreeExtractIf P K V S) (hOrdered : Ordered l)
    (hSpans : Spans l self.inner rest) (hFuel : rest.length < fuel) :
    ∃ inner, ∀ p, env.retainLoop predicate fuel (self.over p) = env.removeEach
          (((answers predicate self.state (rest.map Slot.pair)).2.filter (!·.2)).map (·.1.1))
          p.1 p.2 >>= fun p =>
        .ok (BtreeExtractIf.over { self with
            inner := inner
            state := (answers predicate self.state (rest.map Slot.pair)).1
            shown := self.shown ++ (answers predicate self.state (rest.map Slot.pair)).2 } p) := by
  induction rest generalizing fuel self with
  | nil =>
    rcases hSpans.next hOrdered with ⟨inner, hTake, _⟩
    rcases fuel with _ | fuel
    · cases hFuel
    · refine ⟨inner, fun p => ?_⟩
      simp [BtreeEnv.retainLoop, BtreeExtractIf.over, hTake, answers, BtreeEnv.removeEach]
  | cons slot rest ih =>
    rcases hSpans.next hOrdered with ⟨inner, hTake, hLeft⟩
    rcases fuel with _ | fuel
    · cases hFuel
    have hLess : rest.length < fuel := by simpa using hFuel
    rcases hAnswer : predicate self.state slot.pair with ⟨answer, state⟩
    rcases ih { self with
        inner := inner
        state := state
        shown := self.shown ++ [(slot.pair, answer)] }
      hLeft hLess with ⟨inner', hLater⟩
    refine ⟨inner', fun p => ?_⟩
    simp only [BtreeExtractIf.over] at hLater
    cases answer with
    | true =>
      have hRest := hLater p
      simp only [BtreeEnv.retainLoop, BtreeExtractIf.over,
        hTake, ok_bind, head?_cons, Option.map_some, hAnswer, if_true, hRest]
      simp [answers, hAnswer]
    | false =>
      simp only [BtreeEnv.retainLoop, BtreeExtractIf.over,
        hTake, ok_bind, head?_cons, Option.map_some, hAnswer, Bool.false_eq_true, if_false]
      have hRest (q : TreeRoot P K V) (mem : Mem P K V) := hLater (q, mem)
      simp only [hRest]
      simp [answers, hAnswer, BtreeEnv.removeEach, bind_assoc]

end Loops

-- What Is Removed

section Removed

variable {P K V S : Type} [DecidableEq P] [LinearOrder K] {env : BtreeEnv P K V}
    {root : TreeRoot P K V} {mem : Mem P K V} {m : SortedMap K V}

/- The entries of the range. -/
def entriesInside (start last : Bound K) (root : TreeRoot P K V) : List (K × V) :=
  (rootEntries root).filter fun e => inRange start last e.1

variable (hRep : Represents root m)
include hRep

/- A stored tree of a map has distinct pages. -/
theorem Represents.rootGood (hStored : Stored ⟨root, mem⟩) : RootGood root := by
  cases root with
  | none =>
    refine ⟨?_, ?_⟩
    · rintro r ⟨⟩
    · rintro r ⟨⟩
  | some r =>
    refine ⟨?_, ?_⟩
    · rintro r' ⟨⟩
      exact hRep.1
    · rintro r' ⟨⟩
      exact hStored.owns.1

/-
  Removals during a walk: the old tree can still be read, and the new one is stored and lacks just
  the keys.
-/
theorem removeEach_beside {keys : List K} (hStored : Stored ⟨root, mem⟩) (hNodup : keys.Nodup)
    (hIn : ∀ key ∈ keys, key ∈ (rootEntries root).map Prod.fst)
    (hRoomy : env.RoomyRemoves keys root mem) :
    ∃ root' mem', env.removeEach keys root mem = .ok (root', mem') ∧ RootHolds mem' root ∧
      Stored ⟨root', BtreeEnv.releaseFreed mem.freed.length mem'⟩ ∧
      rootEntries root' = (rootEntries root).filter fun e => e.1 ∉ keys := by
  have hPresent : ∀ key ∈ keys, (m.get key).isSome = true :=
    fun key hKey => hRep.get_isSome (hIn key hKey)
  rcases removeEach_spec env hRep hNodup hPresent hRoomy with ⟨root', mem', hEach, hRep'⟩
  rcases removeEach_turns env hStored.owns hStored.holds hEach with ⟨hTurns, hHolds⟩
  have hGrows := (removeEach_changes hStored.owns hStored.holds hEach).grows
  rcases releaseFreed_turns hTurns with ⟨hAll, hPages⟩
  refine ⟨root', mem', hEach, hStored.holds.grows hStored.owns hGrows,
    ⟨hAll.owns, hHolds.congr fun p _ => congrFun hPages p⟩, ?_⟩
  rw [hRep'.entries_eq.1, SortedMap.entries_eraseAll, hRep.entries_eq.1]

omit [DecidableEq P] in
theorem Represents.entry_unique {e e' : K × V} (hMem : e ∈ rootEntries root)
    (hMem' : e' ∈ rootEntries root) (hKey : e.1 = e'.1) :
    e = e' := by
  rw [hRep.entries_eq.1] at hMem hMem'
  exact inj_on_of_nodup_map m.keys_nodup hMem hMem' hKey

omit [DecidableEq P] in
theorem Represents.entries_nodup : (rootEntries root).Nodup := by
  rw [hRep.entries_eq.1]
  exact m.keys_nodup.of_map

omit [DecidableEq P] in
theorem Represents.keys_nodup_of_subset {l : List (K × V)} (hNodup : l.Nodup)
    (hSub : ∀ e ∈ l, e ∈ rootEntries root) :
    (l.map Prod.fst).Nodup := by
  refine (nodup_map_iff_inj_on hNodup).mpr ?_
  intro e he e' he' hKey
  exact hRep.entry_unique (hSub e he) (hSub e' he') hKey

omit hRep

theorem extractNew_spans
    (start last : Bound K) (state : S) (hRep : Represents root m) (hStored : Stored ⟨root, mem⟩) :
    ∃ (self : BtreeExtractIf P K V S) (l rest : List (Slot P K V)),
      BtreeEnv.extractNew start last state root mem = .ok self ∧ self = self.over (root, mem) ∧
        self.state = state ∧ self.shown = [] ∧
        self.queued = mem.freed.length ∧
        Ordered l ∧ Spans l self.inner rest ∧
        rest.length < self.bound ∧
        rest.map Slot.pair = entriesInside start last root := by
  rcases new_spans start last (hRep.rootGood hStored) with
    ⟨inner, l, rest, hNew, hOrdered, hSpans, hRest⟩
  refine ⟨⟨root, inner, state, [], mem.freed.length,
    (rootEntries root).length + 1, mem⟩, l, rest, ?_, rfl, rfl,
    rfl, rfl, hOrdered, hSpans, ?_, hRest⟩
  · simp only [BtreeEnv.extractNew, hNew, ok_bind, pure_eq_ok]
  · have hLe := length_filter_le (fun e => inRange start last e.1) (rootEntries root)
    rw [← hRest, length_map] at hLe
    exact Nat.lt_succ_of_le hLe

/- Calls on `extract_if` remove what they return. -/
theorem extractRun_removes
    (start last : Bound K) (predicate : Predicate K V S) (state : S) (sides : List Side)
    (hRep : Represents root m) (hStored : Stored ⟨root, mem⟩)
    (hRoomy : env.RoomyRemoves ((siftAll predicate sides state
          (entriesInside start last root)).hits.reduceOption.map Prod.fst) root mem) :
    ∃ hits self, env.extractRun predicate start last state sides root mem = .ok (hits, self) ∧
        RootHolds self.mem root ∧
        Stored self.drop ∧
        (∀ e, e ∈ rootEntries self.drop.root ↔ e ∈ rootEntries root ∧ e ∉ hits.reduceOption) ∧
        (∀ e ∈ hits.reduceOption, e ∈ entriesInside start last root) ∧
        (self.shown.map Prod.fst).Nodup ∧
        ∀ e ∈ self.shown.map Prod.fst, e ∈ entriesInside start last root := by
  rcases extractNew_spans start last state hRep hStored with
    ⟨self, l, rest, hNew, hOver, hState, hEmpty, hQueued, hOrdered, hSpans, hBound, hRest⟩
  rcases extractAll_eq env predicate sides self hOrdered hSpans hBound with ⟨inner, hRun⟩
  rw [hRest, hState] at hRun
  rcases siftAll_shown predicate sides state (entriesInside start last root) with ⟨hShown, hHits⟩
  generalize hSifted : siftAll predicate sides state (entriesInside start last root) = sifted at *
  -- what is shown or left are the entries of the range
  have hDistinct : (sifted.shown.map Prod.fst).Nodup :=
    (nodup_append.mp (hShown.nodup_iff.mpr (hRep.entries_nodup.filter _))).1
  have hFrom : ∀ e ∈ sifted.shown.map Prod.fst, e ∈ entriesInside start last root :=
    fun e he => hShown.subset (mem_append_left _ he)
  have hHitSub : (sifted.hits.reduceOption).Sublist (sifted.shown.map Prod.fst) := by
    rw [hHits]
    exact filter_sublist.map _
  have hHitRoot : ∀ e ∈ sifted.hits.reduceOption, e ∈ rootEntries root := fun e he =>
    (mem_filter.mp (hFrom e (hHitSub.subset he))).1
  rcases removeEach_beside hRep hStored
    (hRep.keys_nodup_of_subset (hDistinct.sublist hHitSub) hHitRoot) (fun key hKey => by
      rcases mem_map.mp hKey with ⟨e, he, rfl⟩
      exact mem_map_of_mem (hHitRoot e he)) hRoomy with
    ⟨root', mem', hEach, hOld, hNewStored, hEntries⟩
  have hFinal := hRun (root, mem)
  rw [← hOver] at hFinal
  simp only [hEach, ok_bind, hEmpty, nil_append] at hFinal
  have hStart : env.extractRun predicate start last state sides root mem =
        env.extractAll predicate sides self := by
    simp only [BtreeEnv.extractRun, hNew, ok_bind]
  refine ⟨_, _, hStart.trans hFinal, hOld, ?_, ?_,
    fun e he => hFrom e (hHitSub.subset he), hDistinct, hFrom⟩
  · simp only [BtreeExtractIf.drop, BtreeExtractIf.over, hQueued]
    exact hNewStored
  · intro e
    change e ∈ rootEntries root' ↔ _
    rw [hEntries, mem_filter, decide_eq_true_eq]
    refine and_congr_right fun hMem => not_congr ⟨?_, ?_⟩
    · intro hKey
      rcases mem_map.mp hKey with ⟨e', he', hSame⟩
      have hEq := hRep.entry_unique (hHitRoot e' he') hMem hSame
      rw [← hEq]
      exact he'
    · exact fun he => mem_map_of_mem he

theorem retainRun_keeps
    (start last : Bound K) (predicate : Predicate K V S) (state : S) (hRep : Represents root m)
    (hStored : Stored ⟨root, mem⟩) (hRoomy : env.RoomyRemoves (((answers predicate state
          (entriesInside start last root)).2.filter (!·.2)).map (·.1.1)) root mem) :
    ∃ self, env.retainRun predicate start last state root mem = .ok self ∧ RootHolds self.mem root ∧
        Stored self.drop ∧
        (∀ e, e ∈ rootEntries self.drop.root ↔ e ∈ rootEntries root ∧
            (inRange start last e.1 = false ∨ (e, true) ∈ self.shown)) ∧
        self.shown.map Prod.fst = entriesInside start last root := by
  rcases extractNew_spans start last state hRep hStored with
    ⟨self, l, rest, hNew, hOver, hState, hEmpty, hQueued, hOrdered, hSpans, hBound, hRest⟩
  rcases retainLoop_eq env predicate self hOrdered hSpans hBound with ⟨inner, hRun⟩
  rw [hRest, hState] at hRun
  have hShown := answers_shown predicate state (entriesInside start last root)
  generalize hAnswers : answers predicate state (entriesInside start last root) = answered at *
  have hDistinct : (answered.2.map Prod.fst).Nodup := by
    rw [hShown]
    exact hRep.entries_nodup.filter _
  -- the refused entries
  have hRefused : (answered.2.filter (!·.2)).map (·.1.1) =
        ((answered.2.filter (!·.2)).map Prod.fst).map Prod.fst := by
    rw [map_map]
    rfl
  have hSub : ((answered.2.filter (!·.2)).map Prod.fst).Sublist
        (entriesInside start last root) := by
    rw [← hShown]
    exact filter_sublist.map _
  have hSubRoot : ∀ e ∈ (answered.2.filter (!·.2)).map Prod.fst, e ∈ rootEntries root := fun e he =>
    (mem_filter.mp (hSub.subset he)).1
  rw [hRefused] at hRoomy hRun
  rcases removeEach_beside hRep hStored (hRep.keys_nodup_of_subset
      (hDistinct.sublist (by rw [hShown]; exact hSub)) hSubRoot)
    (fun key hKey => by
      rcases mem_map.mp hKey with ⟨e, he, rfl⟩
      exact mem_map_of_mem (hSubRoot e he)) hRoomy with
    ⟨root', mem', hEach, hOld, hNewStored, hEntries⟩
  have hFinal := hRun (root, mem)
  rw [← hOver] at hFinal
  simp only [hEach, ok_bind, hEmpty, nil_append] at hFinal
  have hStart : env.retainRun predicate start last state root mem =
        env.retainLoop predicate self.bound self := by
    simp only [BtreeEnv.retainRun, hNew, ok_bind]
  refine ⟨_, hStart.trans hFinal, hOld, ?_, ?_, hShown⟩
  · simp only [BtreeExtractIf.drop, BtreeExtractIf.over, hQueued]
    exact hNewStored
  · intro e
    change e ∈ rootEntries root' ↔ _
    rw [hEntries, mem_filter, decide_eq_true_eq]
    refine and_congr_right fun hMem => ⟨?_, ?_⟩
    · intro hKey
      cases hRange : inRange start last e.1 with
      | false => exact Or.inl rfl
      | true =>
        right
        have hIn : e ∈ entriesInside start last root := mem_filter.mpr ⟨hMem, hRange⟩
        rw [← hShown] at hIn
        rcases mem_map.mp hIn with ⟨⟨e', answer⟩, hPair, rfl⟩
        cases answer with
        | true => exact hPair
        | false =>
          refine absurd (mem_map_of_mem (mem_map_of_mem (mem_filter.mpr ⟨hPair, rfl⟩))) hKey
    · intro hKept hKey
      rcases mem_map.mp hKey with ⟨e', he', hSame⟩
      have hEq := hRep.entry_unique (hSubRoot e' he') hMem hSame
      subst hEq
      rcases hKept with hOutside | hYes
      · have hRange := (mem_filter.mp (hSub.subset he')).2
        rw [hOutside] at hRange
        cases hRange
      · rcases mem_map.mp he' with ⟨⟨_, _⟩, hPair, rfl⟩
        rcases mem_filter.mp hPair with ⟨hNo, hAnswer⟩
        have hTwice := inj_on_of_nodup_map hDistinct hYes hNo rfl
        cases hTwice
        cases hAnswer

/-
  In a tree with room for the removals: whatever calls are made on `extract_if`, just the entries
  they return are removed, and the predicate sees no entry twice; `retain_in` shows it every entry
  of the range, and keeps those that it answers yes to and those outside. Until the end the tree as
  it was can be read.
-/
theorem removed_exactly_as_answered
    (start last : Bound K) (predicate : Predicate K V S) (state : S) (sides : List Side)
    (hRep : Represents root m) (hStored : Stored ⟨root, mem⟩) :
    (env.RoomyRemoves ((siftAll predicate sides state
          (entriesInside start last root)).hits.reduceOption.map Prod.fst) root mem →
      ∃ hits self, env.extractRun predicate start last state sides root mem = .ok (hits, self) ∧
          RootHolds self.mem root ∧
          Stored self.drop ∧
          (∀ e, e ∈ rootEntries self.drop.root ↔ e ∈ rootEntries root ∧ e ∉ hits.reduceOption) ∧
          (∀ e ∈ hits.reduceOption, e ∈ entriesInside start last root) ∧
          (self.shown.map Prod.fst).Nodup ∧
          ∀ e ∈ self.shown.map Prod.fst, e ∈ entriesInside start last root) ∧
    (env.RoomyRemoves (((answers predicate state (entriesInside start last root)).2.filter
            (!·.2)).map (·.1.1)) root mem →
      ∃ self, env.retainRun predicate start last state root mem = .ok self ∧
          RootHolds self.mem root ∧
          Stored self.drop ∧
          (∀ e, e ∈ rootEntries self.drop.root ↔ e ∈ rootEntries root ∧
              (inRange start last e.1 = false ∨ (e, true) ∈ self.shown)) ∧
          self.shown.map Prod.fst = entriesInside start last root) := by
  refine ⟨fun hRoomy => ?_, fun hRoomy => ?_⟩
  · exact extractRun_removes start last predicate state sides hRep hStored hRoomy
  · exact retainRun_keeps start last predicate state hRep hStored hRoomy

-- Predicates Without a State

/- A predicate that looks at the entry only. -/
def stateless (predicate : K → V → Bool) : Predicate K V Unit :=
  fun _ e => (predicate e.1 e.2, ())

omit [LinearOrder K] in
theorem answers_stateless (predicate : K → V → Bool) (l : List (K × V)) :
    (answers (stateless predicate) () l).2 = l.map fun e => (e, predicate e.1 e.2) := by
  induction l with
  | nil => rfl
  | cons e rest ih => simp [answers, stateless, ← ih]

omit [LinearOrder K] in
/- One call finds the first entry that is chosen. -/
theorem sift_stateless (predicate : K → V → Bool) (l : List (K × V)) :
    (sift (stateless predicate) () l).hit = (l.filter fun e => predicate e.1 e.2).head? ∧
      (sift (stateless predicate) () l).rest.filter (fun e => predicate e.1 e.2) =
        (l.filter fun e => predicate e.1 e.2).tail := by
  induction l with
  | nil => exact ⟨rfl, rfl⟩
  | cons e rest ih =>
    cases hAnswer : predicate e.1 e.2 with
    | true => simp [sift, stateless, hAnswer]
    | false => simpa [sift, stateless, hAnswer] using ih

omit [LinearOrder K] in
/- Calls from both sides take the chosen entries. -/
theorem siftAll_stateless (predicate : K → V → Bool) (sides : List Side) (l : List (K × V)) :
    (siftAll (stateless predicate) sides () l).hits.reduceOption.map Prod.fst =
      takeSides sides ((l.filter fun e => predicate e.1 e.2).map Prod.fst) := by
  induction sides generalizing l with
  | nil => rfl
  | cons side _ ih =>
    rcases sift_stateless predicate (side.view l) with ⟨hHit, hRest⟩
    simp only [siftAll, hitKeys_cons, hHit, ih]
    cases side with
    | front =>
      simp only [Side.view] at hRest ⊢
      rw [hRest, ← head?_map, map_tail]
      rfl
    | back =>
      simp only [Side.view, filter_reverse, head?_reverse, tail_reverse] at hRest ⊢
      rw [hRest, reverse_reverse, ← getLast?_map, map_dropLast]
      rfl

/- `retain_in` as a sequence of removals is the walk. -/
theorem retainIn_eq_retainRun
    (start last : Bound K) (predicate : K → V → Bool) (hRep : Represents root m)
    (hStored : Stored ⟨root, mem⟩) :
    env.retainIn (inRange start last) predicate root mem =
      env.retainRun (stateless predicate) start last () root mem >>= fun self =>
          .ok (self.drop.root, self.drop.mem) := by
  rcases extractNew_spans start last () hRep hStored with
    ⟨self, l, rest, hNew, hOver, hState, hEmpty, hQueued, hOrdered, hSpans, hBound, hRest⟩
  rcases retainLoop_eq env (stateless predicate) self hOrdered hSpans hBound with ⟨inner, hRun⟩
  have hFinal := hRun (root, mem)
  rw [hRest, ← hOver, answers_stateless] at hFinal
  have hKeys : ((((entriesInside start last root).map fun e =>
        (e, predicate e.1 e.2)).filter (!·.2)).map (·.1.1)) =
        ((rootEntries root).filter fun e => inRange start last e.1 && !predicate e.1 e.2).map
            Prod.fst := by
    rw [filter_map, map_map, entriesInside, filter_filter]
    exact congrArg (List.map Prod.fst) (filter_congr fun e _ => Bool.and_comm _ _)
  rw [hKeys] at hFinal
  simp only [BtreeEnv.retainRun, hNew, ok_bind, hFinal, BtreeEnv.retainIn, BtreeEnv.removeIterating,
    bind_assoc, BtreeExtractIf.drop, BtreeExtractIf.over, hQueued, pure_eq_ok]

/- And so are the calls on `extract_if`. -/
theorem extractFromIf_eq_extractRun
    (start last : Bound K) (predicate : K → V → Bool) (sides : List Side) (hRep : Represents root m)
    (hStored : Stored ⟨root, mem⟩) :
    env.extractFromIf (inRange start last) predicate sides root mem =
      env.extractRun (stateless predicate) start last () sides root mem >>= fun r =>
          .ok (r.2.drop.root, r.2.drop.mem) := by
  rcases extractNew_spans start last () hRep hStored with
    ⟨self, l, rest, hNew, hOver, hState, hEmpty, hQueued, hOrdered, hSpans, hBound, hRest⟩
  rcases extractAll_eq env (stateless predicate) sides self
    hOrdered hSpans hBound with ⟨inner, hRun⟩
  have hFinal := hRun (root, mem)
  rw [hRest, ← hOver, siftAll_stateless] at hFinal
  have hKeys : (entriesInside start last root).filter (fun e => predicate e.1 e.2) =
        (rootEntries root).filter fun e => inRange start last e.1 && predicate e.1 e.2 := by
    rw [entriesInside, filter_filter]
    exact filter_congr fun e _ => Bool.and_comm _ _
  rw [hKeys] at hFinal
  simp only [BtreeEnv.extractRun, hNew, ok_bind, hFinal,
    BtreeEnv.extractFromIf, BtreeEnv.removeIterating, bind_assoc,
    BtreeExtractIf.drop, BtreeExtractIf.over, hQueued, pure_eq_ok]

end Removed

------------------------------------------------------------
-- Trees of Two Leaves
------------------------------------------------------------

/- A leaf of two entries and one beside it, both committed. -/
def twoCommitted (page : Nat × Nat) (pairs : List (Nat × Nat)) : BtreeState (Nat × Nat) Nat Nat where
  root := some ⟨1, (⟨(0, 1), [((⟨(0, 2), [(0, 1000), (1, 500)]⟩ : Leaf _ _ _), deferred),
      (⟨page, pairs⟩, deferred)], [1]⟩ : Branch _ _ (Leaf _ _ _)), deferred, 2 + pairs.length⟩
  mem :=
    { pages := fun p => if p = (0, 1) then
          some (.branch [((0, 2), deferred), (page, deferred)] [1])
        else if p = (0, 2) then
          some (.leaf [(0, 1000), (1, 500)])
        else if p = page then
          some (.leaf pairs)
        else
          none
      committed := {(0, 1), (0, 2), page}
      uncommitted := ∅
      disjoint := Finset.disjoint_empty_right _
      freed := [] }

theorem twoCommitted_represents
    (page : Nat × Nat)
    {pairs : List (Nat × Nat)}
    (hFilled : pairs ≠ [])
    (hAbove : ∀ e ∈ pairs, 1 < e.1)
    {m : SortedMap Nat Nat}
    (hMap : m.entries = [(0, 1000), (1, 500)] ++ pairs) :
    Represents (twoCommitted page pairs).root m := by
  have hSmall : LeafGood none (some 1) [((0 : Nat), (1000 : Nat)), (1, 500)] := by
    refine ⟨by simp, by simp [Sorted], ?_⟩
    intro e he
    simp only [mem_cons, not_mem_nil, or_false] at he
    rcases he with rfl | rfl
    · exact ⟨by simp, by simp⟩
    · exact ⟨by simp, by simp⟩
  have hSorted : Sorted pairs := by
    have hAll := m.sorted
    rw [hMap] at hAll
    exact (pairwise_append.mp hAll).2.1
  have hLarge : LeafGood (some 1) none pairs := by
    refine ⟨hFilled, hSorted, ?_⟩
    intro e he
    exact ⟨by simpa using hAbove e he, by simp⟩
  refine ⟨⟨cons_ne_nil _ _, ?_⟩, ?_, ?_⟩
  · exact (Chain.cons_cons _ _ _ _ _ _).mpr ⟨hSmall, (Chain.nil_singleton _ _ _).mpr hLarge⟩
  · rw [hMap]
    exact congrArg ([(0, 1000), (1, 500)] ++ ·) (append_nil pairs)
  · rw [SortedMap.length, hMap, length_append]
    rfl

theorem twoCommitted_stored
    {page : Nat × Nat}
    (hFirst : page ≠ (0, 1))
    (hSecond : page ≠ (0, 2))
    (pairs : List (Nat × Nat)) :
    Stored (twoCommitted page pairs) where
  owns := by
    have hPages : rootPages (twoCommitted page pairs).root = {(0, 1), (0, 2), page} := rfl
    rw [hPages]
    refine ⟨by simp [hFirst.symm, hSecond.symm], ?_⟩
    intro p hp
    simpa [twoCommitted, PageMemory.allocated] using hp
  holds := by
    refine ⟨rfl, ?_⟩
    intro c hc
    simp only [mem_cons, not_mem_nil, or_false] at hc
    rcases hc with rfl | rfl
    · rfl
    · change (if page = (0, 1) then _ else if page = (0, 2) then _ else if page = page then _
        else none) = _
      rw [if_neg hFirst, if_neg hSecond, if_pos rfl]

/- Four entries, of which the first two make a small leaf when one of them is removed. -/
def fourEntries : BtreeState (Nat × Nat) Nat Nat := twoCommitted (0, 3) [(2, 600), (3, 700)]

def fourEntriesMap : SortedMap Nat Nat :=
  ⟨[(0, 1000), (1, 500), (2, 600), (3, 700)], by simp [Sorted]⟩

theorem fourEntries_represents : Represents fourEntries.root fourEntriesMap :=
  twoCommitted_represents (0, 3) (by simp) (by decide) rfl

theorem fourEntries_stored : Stored fourEntries :=
  twoCommitted_stored (by decide) (by decide) _

theorem fourEntries_retain_is_walk :
    natEnv.retainIn (inRange .unbounded .unbounded) (fun k _ => k == 2) fourEntries.root
        fourEntries.mem =
      natEnv.retainRun (stateless fun k _ => k == 2) .unbounded .unbounded () fourEntries.root
          fourEntries.mem >>= fun self => .ok (self.drop.root, self.drop.mem) :=
  retainIn_eq_retainRun _ _ _ fourEntries_represents fourEntries_stored

theorem fourEntries_extract_is_walk :
    natEnv.extractFromIf (inRange .unbounded .unbounded) (fun k _ => k != 1) [.back, .front]
        fourEntries.root fourEntries.mem =
      natEnv.extractRun (stateless fun k _ => k != 1) .unbounded .unbounded () [.back, .front]
          fourEntries.root fourEntries.mem >>= fun r => .ok (r.2.drop.root, r.2.drop.mem) :=
  extractFromIf_eq_extractRun _ _ _ _ fourEntries_represents fourEntries_stored

theorem fourEntries_roomy (key : Nat) :
    natEnv.RoomyRemoves [key] fourEntries.root fourEntries.mem := by
  refine ⟨⟨⟨2, 2000, 1, 100, 8⟩, ⟨by decide, by decide, fun _ _ => Nat.le_refl 8, ?_⟩, ?_⟩,
    fun _ _ _ _ => trivial⟩
  · intro c hc
    simp only [mem_cons, not_mem_nil, or_false] at hc
    rcases hc with rfl | rfl
    · exact ⟨by decide, by decide, fun _ _ => Nat.le_refl 8⟩
    · exact ⟨by decide, by decide, fun _ _ => Nat.le_refl 8⟩
  · exact ⟨by decide, by decide, by decide, by decide⟩

/- The first entry is extracted, or the second is not retained; the leaves merge. -/
theorem entry_is_removed_with_merge :
    Represents fourEntries.root fourEntriesMap ∧ Stored fourEntries ∧ (∃ hits self,
        natEnv.extractRun (fun (_ : Unit) _ => (true, ())) .unbounded .unbounded () [.front]
            fourEntries.root fourEntries.mem =
          .ok (hits, self) ∧
        ∀ e, e ∈ rootEntries self.drop.root ↔ e ∈ rootEntries fourEntries.root ∧
            e ∉ hits.reduceOption) ∧
      ∃ self, natEnv.retainRun (fun (_ : Unit) e => (decide (e.1 ≠ 1), ()))
            .unbounded .unbounded () fourEntries.root
            fourEntries.mem = .ok self ∧
          self.shown.map Prod.fst = fourEntriesMap.entries := by
  have hExtract := (removed_exactly_as_answered .unbounded .unbounded
    (fun (_ : Unit) _ => (true, ())) () [.front] fourEntries_represents fourEntries_stored).1
    (fourEntries_roomy 0)
  have hRetain := (removed_exactly_as_answered .unbounded .unbounded
    (fun (_ : Unit) e => (decide (e.1 ≠ 1), ())) () [] fourEntries_represents
    fourEntries_stored).2 (fourEntries_roomy 1)
  rcases hExtract with ⟨hits, self, hRun, _, _, hEntries, _⟩
  rcases hRetain with ⟨kept, hKept, _, _, _, hShown⟩
  exact ⟨fourEntries_represents, fourEntries_stored,
    ⟨hits, self, hRun, hEntries⟩, kept, hKept, hShown⟩

/- The entries of a leaf of nearly 4 GiB. -/
def swollenPairs : List (Nat × Nat) := [(2, 2000000000), (3, 2294967241), (4, 5)]

/- A small leaf beside it. -/
def swollen : BtreeState (Nat × Nat) Nat Nat := twoCommitted (20, 3) swollenPairs

def swollenMap : SortedMap Nat Nat :=
  ⟨[(0, 1000), (1, 500)] ++ swollenPairs, by simp [Sorted, swollenPairs]⟩

theorem swollen_represents : Represents swollen.root swollenMap :=
  twoCommitted_represents (20, 3) (by simp [swollenPairs]) (by decide) rfl

theorem swollen_stored : Stored swollen := twoCommitted_stored (by decide) (by decide) _

/-
  The predicate refuses one entry of the small leaf. What is left of the leaf is merged into the
  large one, beyond 4 GiB: instead of removing the entry `retain_in` panics.
-/
theorem retain_panics_on_merge :
    Represents swollen.root swollenMap ∧ Stored swollen ∧ natEnv.retainRun
          (fun (_ : Unit) e => (decide (e.1 ≠ 1), ()))
          .unbounded .unbounded () swollen.root swollen.mem =
        .error .outOfRange :=
  ⟨swollen_represents, swollen_stored, rfl⟩

end Redbx
