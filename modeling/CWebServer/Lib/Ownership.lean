import Mathlib.Algebra.BigOperators.Fin
import Mathlib.Algebra.Order.Group.Multiset
import Mathlib.Data.Finset.Basic

/-!
# Ownership of resources

The resources that are in use, as a set, are shared out among holders: as a
multiset they are the sum of what each holder has. No resource is then held
twice, and every resource that is held is in use.
-/

namespace Ownership

section
variable {ρ : Type*}

theorem mem_of_shared {used : Finset ρ} {a b : Multiset ρ} (h : used.val = a + b) {r : ρ} (hr : r ∈ a) : r ∈ used := by
  rw [← Finset.mem_val, h]
  exact Multiset.mem_add.mpr (Or.inl hr)

theorem notMem_of_shared {used : Finset ρ} {a b : Multiset ρ} (h : used.val = a + b) {r : ρ} (hr : r ∈ a) : r ∉ b := by
  have hnodup : (a + b).Nodup := h ▸ used.nodup
  exact fun hb => Multiset.disjoint_left.mp (Multiset.nodup_add.mp hnodup).2.2 hr hb

variable [DecidableEq ρ]

theorem insert_shared {used : Finset ρ} {a : Multiset ρ} (h : used.val = a) {r : ρ} (hr : r ∉ used) :
    (insert r used).val = {r} + a := by
  rw [Finset.insert_val_of_notMem hr, h, Multiset.singleton_add]

theorem erase_shared {used : Finset ρ} {a : Multiset ρ} {r : ρ} (h : used.val = {r} + a) : (used.erase r).val = a := by
  rw [Finset.erase_val, h, Multiset.singleton_add, Multiset.erase_cons_head]

end

section
variable {ι α M : Type*} [Fintype ι] [DecidableEq ι] [AddCommMonoid M] (f : α → M) (holders : ι → α) (i : ι)

def others : M := ∑ j ∈ Finset.univ.erase i, f (holders j)

theorem sum_holders : ∑ j, f (holders j) = f (holders i) + others f holders i :=
  (Finset.add_sum_erase _ _ (Finset.mem_univ i)).symm

/-- Only the holder that changes counts anew. -/
theorem sum_update (x : α) : ∑ j, f (Function.update holders i x j) = f x + others f holders i := by
  rw [sum_holders f (Function.update holders i x) i, Function.update_self]
  congr 1
  refine Finset.sum_congr rfl fun j hj => ?_
  rw [Function.update_of_ne (Finset.ne_of_mem_erase hj)]

end

section
variable {ι α ρ : Type*} [Fintype ι] [DecidableEq ι] {f : α → Multiset ρ} {holders : ι → α}

theorem mem_others {i j : ι} (hij : j ≠ i) {r : ρ} (hr : r ∈ f (holders j)) : r ∈ others f holders i := by
  have hmem : j ∈ Finset.univ.erase i := Finset.mem_erase.mpr ⟨hij, Finset.mem_univ j⟩
  rw [others, ← Finset.add_sum_erase _ _ hmem]
  exact Multiset.mem_add.mpr (Or.inl hr)

/-- What one holder has is in use, and neither another holder nor the rest has it. -/
theorem owned {used : Finset ρ} {rest : Multiset ρ} (h : used.val = ∑ j, f (holders j) + rest) {i : ι} {r : ρ}
    (hr : r ∈ f (holders i)) : r ∈ used ∧ r ∉ rest ∧ ∀ j, j ≠ i → r ∉ f (holders j) := by
  have hsum : used.val = f (holders i) + (others f holders i + rest) := by rw [h, sum_holders f holders i, add_assoc]
  have hnot := notMem_of_shared hsum hr
  rw [Multiset.mem_add, not_or] at hnot
  exact ⟨mem_of_shared hsum hr, hnot.2, fun j hj hrj => hnot.1 (mem_others hj hrj)⟩

end

end Ownership
