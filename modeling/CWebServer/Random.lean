import CWebServer.Lib.Checked
import CWebServer.Lib.XorShift
import CWebServer.Str

/-!
# Random integers

`i32_random` computes the size of its range in `i32`, where the difference of the
bounds may not fit.
-/

namespace CWebServer

/-- A result of `i32` arithmetic. An overflow is undefined. -/
def i32Checked (n : Int) : Option Int32 := Checked.checked (-2 ^ 31) (2 ^ 31 - 1) Int32.ofInt n

/-- A division by zero is undefined. -/
def u32Mod (a b : UInt32) : Option UInt32 := if b = 0 then none else some (a % b)

def xorShift (seed : UInt32) : UInt32 :=
  let seed := seed ^^^ (seed <<< 13)
  let seed := seed ^^^ (seed >>> 17)
  seed ^^^ (seed <<< 5)

/-- `i32_random` behind the exchange of its bounds. -/
def randomBetween (min max : Int32) (seed : UInt32) : Option (Int32 × UInt32) := do
  let span ← i32Checked (max.toInt - min.toInt)
  let size ← i32Checked (span.toInt + 1)
  let range := size.toUInt32
  let seed := xorShift seed
  -- the cast seed is an operand of an unsigned modulus
  let rem ← u32Mod seed.toInt32.toUInt32 range
  let result ← i32Checked (min.toInt + rem.toInt32.toInt)
  return (result, seed)

def i32Random (min max : Int32) (seed : UInt32) : Option (Int32 × UInt32) :=
  if max < min then randomBetween max min seed else randomBetween min max seed

/-! ## The seed -/

theorem xorShift_ne_zero {seed : UInt32} (h : seed ≠ 0) : xorShift seed ≠ 0 := by
  have hbits : ∀ x : UInt32, x ≠ 0 ↔ x.toBitVec ≠ 0#32 := fun x => not_congr UInt32.toBitVec_inj.symm
  rw [hbits] at h ⊢
  unfold xorShift
  have hleft := XorShift.xor_shiftLeft_ne_zero (k := 13) (by decide) h
  have hright := XorShift.xor_ushiftRight_ne_zero (k := 17) (by decide) hleft
  have hlast := XorShift.xor_shiftLeft_ne_zero (k := 5) (by decide) hright
  simpa using hlast

/-! ## Checked arithmetic -/

theorem i32Checked_eq_none {n : Int} (h : 2 ^ 31 ≤ n) : i32Checked n = none := Checked.checked_eq_none (by omega)

theorem i32Checked_eq_some {n : Int} (hlo : -2 ^ 31 ≤ n) (hhi : n < 2 ^ 31) :
    ∃ x : Int32, i32Checked n = some x ∧ x.toInt = n :=
  Checked.checked_eq_some (fun _ hlo hhi => Int32.toInt_ofInt_of_le hlo (by omega)) hlo (by omega)

theorem toInt_bounds (x : Int32) : -2 ^ 31 ≤ x.toInt ∧ x.toInt < 2 ^ 31 := ⟨x.le_toInt, x.toInt_lt⟩


theorem u32Mod_eq_some {a b : UInt32} (h : 0 < b.toNat) : ∃ r, u32Mod a b = some r ∧ r.toNat < b.toNat := by
  have hne : b ≠ 0 := by
    rintro rfl
    exact absurd h (by decide)
  refine ⟨a % b, if_neg hne, ?_⟩
  rw [UInt32.toNat_mod]
  exact Nat.mod_lt _ h

/-! ## The range -/

theorem randomBetween_eq_none {min max : Int32} (h : 2 ^ 31 - 1 ≤ max.toInt - min.toInt) (seed : UInt32) :
    randomBetween min max seed = none := by
  unfold randomBetween
  by_cases hspan : 2 ^ 31 ≤ max.toInt - min.toInt
  · rw [i32Checked_eq_none hspan, Option.bind_eq_bind, Option.bind_none]
  · -- the difference fits and the size does not
    obtain ⟨span, hsome, hval⟩ := i32Checked_eq_some (show -2 ^ 31 ≤ max.toInt - min.toInt by omega) (by omega)
    have hsize : i32Checked (span.toInt + 1) = none := i32Checked_eq_none (by omega)
    rw [hsome, Option.bind_eq_bind, Option.bind_some, hsize, Option.bind_eq_bind, Option.bind_none]

theorem randomBetween_eq_some {min max : Int32} (h : min.toInt ≤ max.toInt)
    (hspan : max.toInt - min.toInt ≤ 2 ^ 31 - 2) (seed : UInt32) :
    ∃ result, randomBetween min max seed = some (result, xorShift seed) ∧
      min.toInt ≤ result.toInt ∧ result.toInt ≤ max.toInt := by
  have hmin := toInt_bounds min
  have hmax := toInt_bounds max
  obtain ⟨span, hspan', hspanVal⟩ := i32Checked_eq_some (show -2 ^ 31 ≤ max.toInt - min.toInt by omega) (by omega)
  obtain ⟨size, hsize, hsizeVal⟩ := i32Checked_eq_some (show -2 ^ 31 ≤ span.toInt + 1 by omega) (by omega)
  have hrange : size.toUInt32.toNat = size.toInt.toNat := Checked.toNat_toUInt32 (by omega)
  obtain ⟨rem, hrem, hlt⟩ := u32Mod_eq_some (a := (xorShift seed).toInt32.toUInt32) (b := size.toUInt32) (by omega)
  have hremVal : rem.toInt32.toInt = rem.toNat := Checked.toInt_toInt32 (by omega)
  rw [UInt32.toUInt32_toInt32] at hrem
  have hsum : -2 ^ 31 ≤ min.toInt + rem.toInt32.toInt := by omega
  obtain ⟨result, hresult, hval⟩ := i32Checked_eq_some hsum (by omega)
  refine ⟨result, ?_, by omega, by omega⟩
  simp [randomBetween, hspan', hsize, hrem, hresult]

/-- Nothing undefined, a result between the bounds, and a seed that is not lost. -/
def StaysInRange (min max : Int32) (seed : UInt32) : Prop :=
  ∃ result seed', i32Random min max seed = some (result, seed') ∧
    (min.toInt ≤ result.toInt ∧ result.toInt ≤ max.toInt ∨ max.toInt ≤ result.toInt ∧ result.toInt ≤ min.toInt) ∧
    (seed ≠ 0 → seed' ≠ 0)

theorem staysInRange_of_wide {min max : Int32} {seed : UInt32} (h : 2 ^ 31 - 1 ≤ (max.toInt - min.toInt).natAbs) :
    ¬ StaysInRange min max seed := by
  rintro ⟨result, seed', hsome, -, -⟩
  unfold i32Random at hsome
  split at hsome
  · next hlt =>
    rw [Int32.lt_iff_toInt_lt] at hlt
    rw [randomBetween_eq_none (by omega)] at hsome
    cases hsome
  · next hle =>
    rw [Int32.lt_iff_toInt_lt] at hle
    rw [randomBetween_eq_none (by omega)] at hsome
    cases hsome

theorem staysInRange_of_narrow {min max : Int32} (h : (max.toInt - min.toInt).natAbs ≤ 2 ^ 31 - 2) (seed : UInt32) :
    StaysInRange min max seed := by
  by_cases hlt : max < min
  · have hlt' := Int32.lt_iff_toInt_lt.mp hlt
    have hle' : max.toInt ≤ min.toInt := Int.le_of_lt hlt'
    obtain ⟨result, hsome, hbounds⟩ := randomBetween_eq_some hle' (by omega) seed
    exact ⟨result, xorShift seed, (if_pos hlt).trans hsome, Or.inr hbounds, xorShift_ne_zero⟩
  · have hle : min.toInt ≤ max.toInt := Int.not_lt.mp (fun hlt' => hlt (Int32.lt_iff_toInt_lt.mpr hlt'))
    obtain ⟨result, hsome, hbounds⟩ := randomBetween_eq_some hle (by omega) seed
    exact ⟨result, xorShift seed, (if_neg hlt).trans hsome, Or.inl hbounds, xorShift_ne_zero⟩

theorem staysInRange_iff (min max : Int32) (seed : UInt32) :
    StaysInRange min max seed ↔ (max.toInt - min.toInt).natAbs ≤ 2 ^ 31 - 2 := by
  refine ⟨fun hstays => ?_, fun h => staysInRange_of_narrow h seed⟩
  by_contra hwide
  exact staysInRange_of_wide (by omega) hstays

/-- Of the full range even the size that wraps is no modulus. -/
theorem not_staysInRange :
    ¬ StaysInRange Int32.minValue Int32.maxValue 1 ∧ (Int32.maxValue - Int32.minValue + 1).toUInt32 = 0 :=
  ⟨staysInRange_of_wide (by decide), by decide⟩

end CWebServer
