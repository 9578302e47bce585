import Mathlib.Logic.Basic

/-!
# Shifts that are combined with their word

A word combined by exclusive or with its own shift is zero only if the word is.
-/

namespace XorShift

section
variable {w k : Nat} {x : BitVec w}

theorem eq_zero_of_eq_shiftLeft (hk : 0 < k) (h : x = x <<< k) : x = 0#w := by
  have hbit : ∀ i, x.getLsbD i = false := by
    intro i
    induction i using Nat.strongRecOn with
    | _ i ih =>
      -- each bit is that of a place below it
      rw [h, BitVec.getLsbD_shiftLeft]
      by_cases hi : i < k
      · simp [hi]
      · simp [ih (i - k) (by omega)]
  apply BitVec.eq_of_getLsbD_eq
  intro i _
  simp [hbit i]

theorem eq_zero_of_eq_ushiftRight (hk : 0 < k) (h : x = x >>> k) : x = 0#w := by
  have hbit : ∀ n i, w ≤ i + n → x.getLsbD i = false := by
    intro n
    induction n with
    | zero => exact fun i hi => x.getLsbD_of_ge i hi
    | succ n ih =>
      intro i hi
      -- each bit is that of a place above it
      rw [h, BitVec.getLsbD_ushiftRight]
      exact ih (k + i) (by omega)
  apply BitVec.eq_of_getLsbD_eq
  intro i _
  simp [hbit w i (Nat.le_add_left w i)]

theorem xor_shiftLeft_ne_zero (hk : 0 < k) (h : x ≠ 0#w) : x ^^^ x <<< k ≠ 0#w := fun hzero =>
  h (eq_zero_of_eq_shiftLeft hk (BitVec.xor_eq_zero_iff.mp hzero))

theorem xor_ushiftRight_ne_zero (hk : 0 < k) (h : x ≠ 0#w) : x ^^^ x >>> k ≠ 0#w := fun hzero =>
  h (eq_zero_of_eq_ushiftRight hk (BitVec.xor_eq_zero_iff.mp hzero))

end

end XorShift
