import Mathlib.Algebra.Group.Nat.Defs

/-!
# Checked arithmetic

A result that leaves the range of its type is no result. One in the range is read
back from the type, and from the type of the other sign where both have it.
-/

namespace Checked

section
variable {α : Type} {lo hi : Int} {ofInt : Int → α} {toInt : α → Int} {n : Int}

def checked (lo hi : Int) (ofInt : Int → α) (n : Int) : Option α := if lo ≤ n ∧ n ≤ hi then some (ofInt n) else none

theorem checked_eq_none (h : hi < n) : checked lo hi ofInt n = none := if_neg (fun hin => by omega)

theorem checked_eq_some (hread : ∀ n, lo ≤ n → n ≤ hi → toInt (ofInt n) = n) (hlo : lo ≤ n) (hhi : n ≤ hi) :
    ∃ x, checked lo hi ofInt n = some x ∧ toInt x = n :=
  ⟨ofInt n, if_pos ⟨hlo, hhi⟩, hread n hlo hhi⟩

end

/-! ## Between signed and unsigned words -/

theorem toNat_toUInt32 {x : Int32} (h : 0 ≤ x.toInt) : x.toUInt32.toNat = x.toInt.toNat :=
  Int32.toNat_toUInt32_of_le (Int32.le_iff_toInt_le.mpr h)

theorem toInt_toInt32 {x : UInt32} (h : x.toNat < 2 ^ 31) : x.toInt32.toInt = x.toNat := by
  have hlt : 2 * x.toBitVec.toNat < 2 ^ 32 := by
    rw [UInt32.toNat_toBitVec]
    omega
  exact BitVec.toInt_eq_toNat_of_lt hlt

theorem toInt_toInt64 {x : UInt64} (h : x.toNat < 2 ^ 63) : x.toInt64.toInt = x.toNat := by
  have hlt : 2 * x.toBitVec.toNat < 2 ^ 64 := by
    rw [UInt64.toNat_toBitVec]
    omega
  exact BitVec.toInt_eq_toNat_of_lt hlt

end Checked
