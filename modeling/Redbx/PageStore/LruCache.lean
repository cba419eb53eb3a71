import Mathlib.Data.Finmap

/-
  `LRUCache`: a cache whose entries get a second chance before they are evicted.

  The queue may hold keys that are no longer cached, and a key more than once. What matters is that
  every cached key is queued: then an eviction finds an entry as long as there is one.

  Key theorems include:
    * `LruCache.popLowestPriority_spec`, `LruCache.calls_keep_values`
-/

namespace Redbx

/- The values, the keys whose second-chance flag is set, and the queue. -/
structure LruCache (T : Type) where
  cache : Finmap fun _ : UInt64 => T
  secondChance : Finset UInt64
  lruQueue : List UInt64

namespace LruCache

variable {T : Type}

-- Operations

def new : LruCache T := ⟨∅, ∅, []⟩

/- A new entry has no second chance. -/
def insert (self : LruCache T) (key : UInt64) (value : T) : Option T × LruCache T :=
  let result := self.cache.lookup key
  (result, ⟨self.cache.insert key value, self.secondChance.erase key,
    if result.isNone then self.lruQueue ++ [key] else self.lruQueue⟩)

/- One round of the loop in `remove`. -/
def cycle (self : LruCache T) : LruCache T :=
  match self.lruQueue with
  | [] => self
  | removedKey :: queue =>
    if removedKey ∈ self.cache then
      ⟨self.cache, self.secondChance.erase removedKey, queue ++ [removedKey]⟩
    else
      { self with lruQueue := queue }

def remove (self : LruCache T) (key : UInt64) : Option T × LruCache T :=
  match self.cache.lookup key with
  | some value =>
    let left : LruCache T := ⟨self.cache.erase key, self.secondChance.erase key, self.lruQueue⟩
    (some value, if left.lruQueue.length > 2 * left.cache.keys.card then left.cycle.cycle else left)
  | none => (none, self)

def get (self : LruCache T) (key : UInt64) : Option T × LruCache T :=
  match self.cache.lookup key with
  | some value => (some value, { self with secondChance := self.secondChance ∪ {key} })
  | none => (none, self)

/- `get_mut`, with what is written through the reference. -/
def getMut (self : LruCache T) (key : UInt64) (write : T → T) : Option T × LruCache T :=
  match self.cache.lookup key with
  | some value =>
    (some value, ⟨self.cache.insert key (write value), self.secondChance ∪ {key}, self.lruQueue⟩)
  | none => (none, self)

/- `iter`, in no particular order. -/
def iter (self : LruCache T) : Multiset (Σ _ : UInt64, T) := self.cache.entries

/- Every round takes a key off the queue or a second chance. -/
def popLowestPriority (self : LruCache T) : Option (UInt64 × T) × LruCache T :=
  match hQueue : self.lruQueue with
  | [] => (none, self)
  | key :: queue =>
    match self.cache.lookup key with
    | some value =>
      -- `compare_exchange` of the flag
      if hChance : key ∈ self.secondChance then
        popLowestPriority ⟨self.cache, self.secondChance.erase key, queue ++ [key]⟩
      else
        (some (key, value), ⟨self.cache.erase key, self.secondChance, queue⟩)
    | none => popLowestPriority ⟨self.cache, self.secondChance, queue⟩
termination_by self.lruQueue.length + self.secondChance.card
decreasing_by
  · have hLess := Finset.card_erase_lt_of_mem hChance
    simp only [hQueue, List.length_append, List.length_cons, List.length_nil]
    omega
  · simp [hQueue]

-- The Queue

variable {self : LruCache T} {key : UInt64} {queue : List UInt64}

/- Every cached key is in the queue. -/
def Queued (self : LruCache T) : Prop := ∀ key ∈ self.cache, key ∈ self.lruQueue

theorem Queued.rotate (hQueued : self.Queued) (hQueue : self.lruQueue = key :: queue)
    (flags : Finset UInt64) : Queued ⟨self.cache, flags, queue ++ [key]⟩ := by
  intro other hOther
  have hIn := hQueued other hOther
  rw [hQueue] at hIn
  simpa [or_comm] using hIn

theorem Queued.tail (hQueued : self.Queued) (hQueue : self.lruQueue = key :: queue)
    {cache : Finmap fun _ : UInt64 => T} (hCache : ∀ other ∈ cache, other ≠ key ∧ other ∈ self.cache)
    (flags : Finset UInt64) : Queued ⟨cache, flags, queue⟩ := by
  intro other hOther
  have hIn := hQueued other (hCache other hOther).2
  rw [hQueue] at hIn
  exact (List.mem_cons.mp hIn).resolve_left (hCache other hOther).1

theorem ne_of_mem (hKey : key ∉ self.cache) {other : UInt64} (hOther : other ∈ self.cache) :
    other ≠ key ∧ other ∈ self.cache := ⟨fun hEq => hKey (hEq ▸ hOther), hOther⟩

theorem cycle_spec (hQueued : self.Queued) :
    self.cycle.Queued ∧ self.cycle.cache = self.cache := by
  unfold cycle
  split
  · exact ⟨hQueued, rfl⟩
  · next removedKey queue hQueue =>
    split
    · exact ⟨hQueued.rotate hQueue _, rfl⟩
    · next hKey => exact ⟨hQueued.tail hQueue (fun _ => ne_of_mem hKey) _, rfl⟩

/- An entry is evicted, unless there is none. -/
theorem popLowestPriority_spec (self : LruCache T) (hQueued : self.Queued) :
    self.popLowestPriority.2.Queued ∧ match self.popLowestPriority with
      | (none, after) => self.cache = ∅ ∧ after.cache = ∅
      | (some (key, value), after) =>
        self.cache.lookup key = some value ∧ after.cache = self.cache.erase key := by
  fun_induction popLowestPriority self with
  | case1 self hQueue =>
    -- the queue ran out, so no key is cached
    have hNone : self.cache = ∅ := by
      refine Finmap.ext_lookup fun key => Finmap.lookup_eq_none.mpr fun hKey => ?_
      have hIn := hQueued key hKey
      rw [hQueue] at hIn
      cases hIn
    exact ⟨hQueued, hNone, hNone⟩
  | case2 _ _ _ hQueue _ _ _ ih => exact ih (hQueued.rotate hQueue _)
  | case3 _ _ _ hQueue _ hKey =>
    exact ⟨hQueued.tail hQueue (fun _ => Finmap.mem_erase.mp) _, hKey, rfl⟩
  | case4 _ _ _ hQueue hKey ih =>
    exact ih (hQueued.tail hQueue (fun _ => ne_of_mem (Finmap.lookup_eq_none.mp hKey)) _)

theorem remove_spec (hQueued : self.Queued) (key : UInt64) : (self.remove key).2.Queued ∧
    (self.remove key).1 = self.cache.lookup key ∧
      (self.remove key).2.cache = self.cache.erase key := by
  unfold remove
  split
  · next value hKey =>
    have hLeft : Queued ⟨self.cache.erase key, self.secondChance.erase key, self.lruQueue⟩ :=
      fun other hOther => hQueued other (Finmap.mem_erase.mp hOther).2
    -- the loop of `remove` makes two rounds
    rcases cycle_spec hLeft with ⟨hOnce, hCache⟩
    rcases cycle_spec hOnce with ⟨hTwice, hCache'⟩
    dsimp only
    split
    · exact ⟨hTwice, hKey.symm, hCache'.trans hCache⟩
    · exact ⟨hLeft, hKey.symm, rfl⟩
  · next hKey =>
    refine ⟨hQueued, hKey.symm, Finmap.ext_lookup fun other => ?_⟩
    rcases eq_or_ne other key with rfl | hNe
    · rw [hKey, Finmap.lookup_erase]
    · rw [Finmap.lookup_erase_ne hNe]

end LruCache

-- Runs

inductive LruCall (T : Type) where
  | insert (key : UInt64) (value : T)
  | get (key : UInt64)
  | getMut (key : UInt64) (write : T → T)
  | remove (key : UInt64)
  | iter
  | popLowestPriority

namespace LruCache

variable {T : Type}

def step (self : LruCache T) : LruCall T → LruCache T
  | .insert key value => (self.insert key value).2
  | .get key => (self.get key).2
  | .getMut key write => (self.getMut key write).2
  | .remove key => (self.remove key).2
  | .iter => self
  | .popLowestPriority => self.popLowestPriority.2

theorem step_queued {self : LruCache T} (hQueued : self.Queued) (c : LruCall T) :
    (self.step c).Queued := by
  cases c with
  | insert =>
    intro other hOther
    have hIn := (Finmap.mem_insert.mp hOther).imp_right (hQueued other)
    simp only [step, insert]
    split
    · simpa [or_comm] using hIn
    · next hSome =>
      rcases hIn with rfl | hIn
      · exact hQueued other (by simpa [Finmap.lookup_eq_none] using hSome)
      · exact hIn
  | get key =>
    simp only [step, get]
    split <;> exact hQueued
  | getMut =>
    simp only [step, getMut]
    split
    · next value hKey =>
      intro other hOther
      rcases Finmap.mem_insert.mp hOther with rfl | hOther
      · exact hQueued other (Finmap.mem_of_lookup_eq_some hKey)
      · exact hQueued other hOther
    · exact hQueued
  | remove key => exact (remove_spec hQueued key).1
  | iter => exact hQueued
  | popLowestPriority => exact (popLowestPriority_spec self hQueued).1

/-
  After any calls every cached key is queued. An eviction finds nothing only in an empty cache, and
  otherwise takes out an entry; the other calls change at most the entry of their key.
-/
theorem calls_keep_values (calls : List (LruCall T)) :
    let self := calls.foldl step new
    (∀ key ∈ self.cache, key ∈ self.lruQueue) ∧
      (match self.popLowestPriority with
        | (none, after) => self.cache = ∅ ∧ after.cache = ∅
        | (some (key, value), after) =>
          self.cache.lookup key = some value ∧ after.cache = self.cache.erase key) ∧
      (∀ key value, (self.insert key value).1 = self.cache.lookup key ∧
        (self.insert key value).2.cache = self.cache.insert key value) ∧
      (∀ key, (self.get key).1 = self.cache.lookup key ∧ (self.get key).2.cache = self.cache) ∧
      (∀ key write, (self.getMut key write).1 = self.cache.lookup key ∧
        (self.getMut key write).2.cache = match self.cache.lookup key with
          | some value => self.cache.insert key (write value)
          | none => self.cache) ∧
      (∀ key, (self.remove key).1 = self.cache.lookup key ∧
        (self.remove key).2.cache = self.cache.erase key) ∧
      self.iter.NodupKeys ∧
        ∀ key value, ⟨key, value⟩ ∈ self.iter ↔ self.cache.lookup key = some value := by
  intro self
  have hQueued : self.Queued :=
    List.foldlRecOn calls step (fun key hKey => by cases hKey) fun _ hQueued c _ =>
      step_queued hQueued c
  refine ⟨hQueued, (popLowestPriority_spec self hQueued).2, fun _ _ => ⟨rfl, rfl⟩, fun key => ?_,
    fun key write => ?_, fun key => (remove_spec hQueued key).2, self.cache.nodupKeys,
    fun _ _ => Finmap.lookup_eq_some_iff.symm⟩
  · unfold get
    split <;> simp [*]
  · unfold getMut
    split <;> simp [*]

end LruCache

end Redbx
