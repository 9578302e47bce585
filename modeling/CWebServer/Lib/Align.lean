import Mathlib.Algebra.Group.Nat.Defs

/-!
# Rounding up by masks

`clear y m` is `y & ~m`. Adding `a - 1` first rounds up, to a multiple of `a`
if `a` is a power of two, and to some number not below otherwise.
-/

namespace Align

def clear (y m : Nat) : Nat := y - (y &&& m)

def roundUp (p a : Nat) : Nat := clear (p + (a - 1)) (a - 1)

theorem and_disjoint_and_not {w : Nat} (y m : BitVec w) : (y &&& m) &&& (y &&& ~~~m) = 0#w := by
  ext i hi
  cases hm : m[i] <;> simp [hm]

theorem and_add_and_not {w : Nat} (y m : BitVec w) : (y &&& m) + (y &&& ~~~m) = y := by
  rw [BitVec.add_eq_or_of_and_eq_zero _ _ (and_disjoint_and_not y m)]
  ext i hi
  cases hm : m[i] <;> simp [hm]

theorem and_complement {w y m : Nat} (hy : y < 2 ^ w) (hm : m < 2 ^ w) : y &&& (2 ^ w - 1 - m) = clear y m := by
  have hsum := congrArg BitVec.toNat (and_add_and_not (BitVec.ofNat w y) (BitVec.ofNat w m))
  rw [BitVec.toNat_add_of_and_eq_zero (and_disjoint_and_not _ _), BitVec.toNat_and, BitVec.toNat_and,
    BitVec.toNat_not, BitVec.toNat_ofNat, BitVec.toNat_ofNat, Nat.mod_eq_of_lt hy, Nat.mod_eq_of_lt hm] at hsum
  unfold clear
  omega

theorem dvd_clear (y k : Nat) : 2 ^ k ∣ clear y (2 ^ k - 1) := by
  unfold clear
  rw [Nat.and_two_pow_sub_one_eq_mod]
  exact Nat.dvd_sub_mod y

theorem clear_of_dvd {y k r : Nat} (h : 2 ^ k ∣ y) (hr : r < 2 ^ k) : clear (y + r) (2 ^ k - 1) = y := by
  unfold clear
  obtain ⟨c, rfl⟩ := h
  rw [Nat.and_two_pow_sub_one_eq_mod, Nat.mul_add_mod, Nat.mod_eq_of_lt hr, Nat.add_sub_cancel]

theorem le_roundUp (p a : Nat) : p ≤ roundUp p a := by
  have hand : (p + (a - 1)) &&& (a - 1) ≤ a - 1 := Nat.and_le_right
  unfold roundUp clear
  omega

theorem roundUp_le_add (p a : Nat) : roundUp p a ≤ p + (a - 1) := Nat.sub_le _ _

theorem roundUp_of_dvd {p k : Nat} (h : 2 ^ k ∣ p) : roundUp p (2 ^ k) = p :=
  clear_of_dvd h (Nat.sub_lt (Nat.two_pow_pos k) Nat.one_pos)

theorem clear_eq_mul (y k : Nat) : clear y (2 ^ k - 1) = 2 ^ k * (y / 2 ^ k) := by
  have hsplit := Nat.div_add_mod y (2 ^ k)
  unfold clear
  rw [Nat.and_two_pow_sub_one_eq_mod]
  omega

theorem roundUp_mono {p q : Nat} (k : Nat) (h : p ≤ q) : roundUp p (2 ^ k) ≤ roundUp q (2 ^ k) := by
  unfold roundUp
  rw [clear_eq_mul, clear_eq_mul]
  exact Nat.mul_le_mul_left _ (Nat.div_le_div_right (Nat.add_le_add_right h _))

theorem dvd_roundUp (p k : Nat) : 2 ^ k ∣ roundUp p (2 ^ k) := dvd_clear _ k

theorem roundUp_le_of_dvd {p q k : Nat} (h : p ≤ q) (hq : 2 ^ k ∣ q) : roundUp p (2 ^ k) ≤ q := by
  have := roundUp_mono k h
  rwa [roundUp_of_dvd hq] at this

/-- Rounding to a smaller power of two first makes no difference. -/
theorem roundUp_roundUp {k j : Nat} (hk : k ≤ j) (p : Nat) :
    roundUp (roundUp p (2 ^ k)) (2 ^ j) = roundUp p (2 ^ j) := by
  apply Nat.le_antisymm
  · apply roundUp_le_of_dvd _ (dvd_roundUp p j)
    exact roundUp_le_of_dvd (le_roundUp p _) (Nat.dvd_trans (Nat.pow_dvd_pow 2 hk) (dvd_roundUp p j))
  · exact roundUp_mono j (le_roundUp p _)

theorem roundUp_between {p q k : Nat} (h : p ≤ q) (hq : q ≤ roundUp p (2 ^ k)) :
    roundUp q (2 ^ k) = roundUp p (2 ^ k) :=
  Nat.le_antisymm (roundUp_le_of_dvd hq (dvd_roundUp p k)) (roundUp_mono k h)

theorem clear_mod {w k : Nat} (hk : k ≤ w) (y : Nat) : clear (y % 2 ^ w) (2 ^ k - 1) = clear y (2 ^ k - 1) % 2 ^ w := by
  have hrest : y % 2 ^ w % 2 ^ k = y % 2 ^ k := Nat.mod_mod_of_dvd y (Nat.pow_dvd_pow 2 hk)
  have hle : y % 2 ^ k ≤ y % 2 ^ w := by
    rw [← hrest]
    exact Nat.mod_le _ _
  have hlt : y % 2 ^ w - y % 2 ^ k < 2 ^ w := Nat.lt_of_le_of_lt (Nat.sub_le _ _) (Nat.mod_lt _ (Nat.two_pow_pos w))
  have hsplit : y - y % 2 ^ k = 2 ^ w * (y / 2 ^ w) + (y % 2 ^ w - y % 2 ^ k) := by
    rw [← Nat.add_sub_assoc hle, Nat.div_add_mod]
  unfold clear
  rw [Nat.and_two_pow_sub_one_eq_mod, Nat.and_two_pow_sub_one_eq_mod, hrest, hsplit, Nat.mul_add_mod,
    Nat.mod_eq_of_lt hlt]

theorem roundUp_le {w k y : Nat} (hk : k ≤ w) (h : y ≤ 2 ^ w) : roundUp y (2 ^ k) ≤ 2 ^ w := by
  have hdvd : 2 ^ k ∣ 2 ^ w := Nat.pow_dvd_pow 2 hk
  have hpos := Nat.two_pow_pos k
  have hround : roundUp y (2 ^ k) < 2 ^ w + 2 ^ k := by
    have := roundUp_le_add y (2 ^ k)
    omega
  obtain ⟨c, hc⟩ := dvd_clear (y + (2 ^ k - 1)) k
  obtain ⟨d, hd⟩ := hdvd
  change roundUp y (2 ^ k) = _ at hc
  rw [hc, hd] at hround ⊢
  have hcd : c < d + 1 := Nat.lt_of_mul_lt_mul_left (a := 2 ^ k) (by rw [Nat.mul_add, Nat.mul_one]; exact hround)
  exact Nat.mul_le_mul_left _ (Nat.le_of_lt_succ hcd)

end Align
