import CWebServer.Lib.Checked
import CWebServer.Str

/-!
# Scaled division

`tm__i64Muldiv` divides before it multiplies, so that the product does not leave
`i64`. Its result does: it is returned as an `i32`.
-/

namespace CWebServer

/-- A result of `i64` arithmetic. An overflow is undefined. -/
def i64Checked (n : Int) : Option Int64 := Checked.checked (-2 ^ 63) (2 ^ 63 - 1) Int64.ofInt n

def i64Div (a b : Int64) : Option Int64 := if b = 0 then none else i64Checked (a.toInt.tdiv b.toInt)

/-- Where the quotient overflows the remainder is undefined, too. -/
def i64Mod (a b : Int64) : Option Int64 := do
  let _ ← i64Div a b
  i64Checked (a.toInt.tmod b.toInt)

def tmI64Muldiv (value numer denom : Int64) : Option Int32 := do
  let q ← i64Div value denom
  let r ← i64Mod value denom
  let high ← i64Checked (q.toInt * numer.toInt)
  let low ← i64Checked (r.toInt * numer.toInt)
  let low ← i64Div low denom
  let sum ← i64Checked (high.toInt + low.toInt)
  return sum.toInt32

/-- The branch for Windows. The `i32` is widened with its sign. -/
def tmCountToNanoseconds (frequency : UInt64) (count : Int64) : Option UInt64 := do
  let now ← tmI64Muldiv count 1000000000 frequency.toInt64
  return now.toInt64.toUInt64

/-! ## The quotient -/

/-- The operands that the scaled division is for. -/
structure Scalable (value numer denom : Int64) : Prop where
  value_nonneg : 0 ≤ value.toInt
  numer_pos : 0 < numer.toInt
  denom_pos : 0 < denom.toInt
  fits : value.toInt * numer.toInt / denom.toInt < 2 ^ 63
  high_fits : value.toInt / denom.toInt * numer.toInt < 2 ^ 63
  low_fits : value.toInt % denom.toInt * numer.toInt < 2 ^ 63

theorem Scalable.floor_nonneg {value numer denom : Int64} (h : Scalable value numer denom) :
    0 ≤ value.toInt * numer.toInt / denom.toInt :=
  Int.ediv_nonneg (Int.mul_nonneg h.value_nonneg (Int.le_of_lt h.numer_pos)) (Int.le_of_lt h.denom_pos)

theorem i64Checked_eq_some {n : Int} (hlo : 0 ≤ n) (hhi : n < 2 ^ 63) :
    ∃ x : Int64, i64Checked n = some x ∧ x.toInt = n :=
  Checked.checked_eq_some (fun _ hlo hhi => Int64.toInt_ofInt_of_le hlo (by omega)) (by omega) (by omega)

section
variable {a b : Int64}

theorem ne_zero_of_pos (hb : 0 < b.toInt) : b ≠ 0 := by
  intro h
  rw [h] at hb
  exact absurd hb (by decide)

theorem i64Div_eq_some (ha : 0 ≤ a.toInt) (hb : 0 < b.toInt) :
    ∃ q : Int64, i64Div a b = some q ∧ q.toInt = a.toInt / b.toInt := by
  have hnonneg : 0 ≤ a.toInt / b.toInt := Int.ediv_nonneg ha (Int.le_of_lt hb)
  have hle : a.toInt / b.toInt ≤ a.toInt := Int.ediv_le_self _ ha
  have hlt := a.toInt_lt
  unfold i64Div
  rw [if_neg (ne_zero_of_pos hb), Int.tdiv_eq_ediv_of_nonneg ha]
  exact i64Checked_eq_some hnonneg (by omega)

theorem i64Mod_eq_some (ha : 0 ≤ a.toInt) (hb : 0 < b.toInt) :
    ∃ r : Int64, i64Mod a b = some r ∧ r.toInt = a.toInt % b.toInt := by
  obtain ⟨q, hq, -⟩ := i64Div_eq_some ha hb
  have hnonneg : 0 ≤ a.toInt % b.toInt := Int.emod_nonneg _ (Int.ne_of_gt hb)
  have hlt : a.toInt % b.toInt < b.toInt := Int.emod_lt_of_pos _ hb
  have hbound := b.toInt_lt
  unfold i64Mod
  rw [hq, Int.tmod_eq_emod_of_nonneg ha]
  exact i64Checked_eq_some hnonneg (by omega)

end

theorem split_ediv (value numer : Int) {denom : Int} (h : 0 < denom) :
    value / denom * numer + value % denom * numer / denom = value * numer / denom := by
  have hsplit : value * numer = value % denom * numer + value / denom * numer * denom := by
    calc value * numer = (value % denom + denom * (value / denom)) * numer := by rw [Int.emod_add_mul_ediv]
      _ = value % denom * numer + value / denom * denom * numer := by rw [Int.add_mul, Int.mul_comm denom]
      _ = value % denom * numer + value / denom * numer * denom := by rw [Int.mul_right_comm]
  rw [hsplit, Int.add_mul_ediv_right _ _ (Int.ne_of_gt h), Int.add_comm]

/-- Nothing overflows before the result is cut down to 32 bits. -/
theorem tmI64Muldiv_eq_some {value numer denom : Int64} (h : Scalable value numer denom) :
    ∃ result : Int32, tmI64Muldiv value numer denom = some result ∧
      result.toInt = (value.toInt * numer.toInt / denom.toInt).bmod (2 ^ 32) := by
  obtain ⟨q, hq, hqVal⟩ := i64Div_eq_some h.value_nonneg h.denom_pos
  obtain ⟨r, hr, hrVal⟩ := i64Mod_eq_some h.value_nonneg h.denom_pos
  have hqNonneg : 0 ≤ q.toInt := hqVal ▸ Int.ediv_nonneg h.value_nonneg (Int.le_of_lt h.denom_pos)
  have hrNonneg : 0 ≤ r.toInt := hrVal ▸ Int.emod_nonneg _ (Int.ne_of_gt h.denom_pos)
  obtain ⟨high, hhigh, hhighVal⟩ :=
    i64Checked_eq_some (Int.mul_nonneg hqNonneg (Int.le_of_lt h.numer_pos)) (hqVal ▸ h.high_fits)
  obtain ⟨low, hlow, hlowVal⟩ :=
    i64Checked_eq_some (Int.mul_nonneg hrNonneg (Int.le_of_lt h.numer_pos)) (hrVal ▸ h.low_fits)
  have hlowNonneg : 0 ≤ low.toInt := hlowVal ▸ Int.mul_nonneg hrNonneg (Int.le_of_lt h.numer_pos)
  obtain ⟨part, hpart, hpartVal⟩ := i64Div_eq_some hlowNonneg h.denom_pos
  have hsum : high.toInt + part.toInt = value.toInt * numer.toInt / denom.toInt := by
    rw [hhighVal, hpartVal, hlowVal, hqVal, hrVal, split_ediv _ _ h.denom_pos]
  obtain ⟨sum, hsome, hsumVal⟩ := i64Checked_eq_some (hsum ▸ h.floor_nonneg) (hsum ▸ h.fits)
  refine ⟨sum.toInt32, ?_, ?_⟩
  · simp [tmI64Muldiv, hq, hr, hhigh, hlow, hpart, hsome]
  · rw [Int64.toInt_toInt32, hsumVal, hsum]

/-! ## What the result is -/

/-- The floor, in unbounded integers. -/
def MuldivExact (value numer denom : Int64) : Prop :=
  ∃ result : Int32, tmI64Muldiv value numer denom = some result ∧
    result.toInt = value.toInt * numer.toInt / denom.toInt

theorem bmod_eq_self_iff {n : Int} (h : 0 ≤ n) : n.bmod (2 ^ 32) = n ↔ n < 2 ^ 31 := by
  rw [Int.bmod_def]
  split <;> omega

theorem muldivExact_iff {value numer denom : Int64} (h : Scalable value numer denom) :
    MuldivExact value numer denom ↔ value.toInt * numer.toInt < 2 ^ 31 * denom.toInt := by
  obtain ⟨result, hsome, hval⟩ := tmI64Muldiv_eq_some h
  rw [← Int.ediv_lt_iff_lt_mul h.denom_pos, ← bmod_eq_self_iff h.floor_nonneg, ← hval]
  constructor
  · intro ⟨result', hsome', hval'⟩
    rw [hsome, Option.some.injEq] at hsome'
    rw [hsome', hval']
  · intro hexact
    exact ⟨result, hsome, hexact⟩

/-! ## The clock -/

/-- Over the counts that the scaled division is for. -/
def NanosMonotone (frequency : UInt64) : Prop :=
  ∀ count count' : Int64, Scalable count 1000000000 frequency.toInt64 →
    Scalable count' 1000000000 frequency.toInt64 → count ≤ count' →
    ∃ now now', tmCountToNanoseconds frequency count = some now ∧
      tmCountToNanoseconds frequency count' = some now' ∧ now ≤ now'

theorem toNat_toUInt64 (x : Int64) : (x.toUInt64.toNat : Int) = x.toInt % 2 ^ 64 := by
  have hbits : x.toUInt64.toNat = (BitVec.ofInt 64 x.toInt).toNat := by
    rw [← Int64.toNat_toBitVec, ← Int64.toInt_toBitVec, BitVec.ofInt_toInt]
  rw [hbits, BitVec.toNat_ofInt]
  omega

/-- The floor, cut down with its sign and widened with it. -/
theorem tmCountToNanoseconds_eq_some {frequency : UInt64} {count : Int64}
    (h : Scalable count 1000000000 frequency.toInt64) :
    ∃ now : UInt64, tmCountToNanoseconds frequency count = some now ∧
      (now.toNat : Int) = (count.toInt * 1000000000 / frequency.toInt64.toInt).bmod (2 ^ 32) % 2 ^ 64 := by
  obtain ⟨result, hsome, hval⟩ := tmI64Muldiv_eq_some h
  refine ⟨result.toInt64.toUInt64, ?_, ?_⟩
  · simp [tmCountToNanoseconds, hsome]
  · rw [toNat_toUInt64, Int32.toInt_toInt64, hval]
    rfl

theorem bmod_emod_le {m n : Int} (hm : 0 ≤ m) (hmn : m ≤ n) (hn : n < 2 ^ 32) :
    m.bmod (2 ^ 32) % 2 ^ 64 ≤ n.bmod (2 ^ 32) % 2 ^ 64 := by
  rw [Int.bmod_def, Int.bmod_def]
  split <;> split <;> omega

section
variable {frequency : UInt64} (hlt : frequency.toNat < 2 ^ 63)
include hlt

theorem nanos_lt {count : Int64} (h : Scalable count 1000000000 frequency.toInt64)
    (hfast : 2 ^ 63 ≤ 5 * frequency.toNat) : count.toInt * 1000000000 / frequency.toInt64.toInt < 2 ^ 32 := by
  have hfrequency := Checked.toInt_toInt64 hlt
  have hcount := count.toInt_lt
  have hlow : count.toInt % frequency.toInt64.toInt * 1000000000 < 2 ^ 63 := h.low_fits
  have hq : count.toInt / frequency.toInt64.toInt < 5 := Int.ediv_lt_of_lt_mul h.denom_pos (by omega)
  have hr : count.toInt % frequency.toInt64.toInt * 1000000000 / frequency.toInt64.toInt < 5 :=
    Int.ediv_lt_of_lt_mul h.denom_pos (by omega)
  rw [← split_ediv _ _ h.denom_pos]
  omega

theorem nanosMonotone_of_fast (hfast : 2 ^ 63 ≤ 5 * frequency.toNat) : NanosMonotone frequency := by
  intro count count' hscalable hscalable' hle
  obtain ⟨now, hnow, hval⟩ := tmCountToNanoseconds_eq_some hscalable
  obtain ⟨now', hnow', hval'⟩ := tmCountToNanoseconds_eq_some hscalable'
  refine ⟨now, now', hnow, hnow', ?_⟩
  have hcounts : count.toInt * 1000000000 ≤ count'.toInt * 1000000000 :=
    Int.mul_le_mul_of_nonneg_right (Int64.le_iff_toInt_le.mp hle) (by decide)
  have hnonneg : 0 ≤ count.toInt * 1000000000 / frequency.toInt64.toInt := hscalable.floor_nonneg
  have hkeeps := bmod_emod_le hnonneg (Int.ediv_le_ediv hscalable.denom_pos hcounts)
    (nanos_lt hlt hscalable' hfast)
  rw [UInt64.le_iff_toNat_le]
  omega

theorem exists_seconds (hpos : 0 < frequency.toNat) {k : Nat} (hk : k ≤ 5) (hfits : k * frequency.toNat < 2 ^ 63) :
    ∃ count : Int64, count.toInt = k * frequency.toNat ∧ Scalable count 1000000000 frequency.toInt64 ∧
      count.toInt * 1000000000 / frequency.toInt64.toInt = k * 1000000000 := by
  have hfrequency := Checked.toInt_toInt64 hlt
  have hne : (frequency.toNat : Int) ≠ 0 := by omega
  have hprod : ((k * frequency.toNat : Nat) : Int) = k * frequency.toNat := Int.natCast_mul k frequency.toNat
  obtain ⟨count, -, hcount⟩ := i64Checked_eq_some (n := k * frequency.toNat) (by omega) (by omega)
  have hfloor : count.toInt * 1000000000 / frequency.toInt64.toInt = k * 1000000000 := by
    rw [hcount, hfrequency, Int.mul_right_comm, Int.mul_ediv_cancel _ hne]
  have hq : count.toInt / frequency.toInt64.toInt = k := by rw [hcount, hfrequency, Int.mul_ediv_cancel _ hne]
  have hr : count.toInt % frequency.toInt64.toInt = 0 := by rw [hcount, hfrequency, Int.mul_emod_left]
  have hnumer : (1000000000 : Int64).toInt = 1000000000 := by decide
  refine ⟨count, hcount, ⟨by omega, by omega, by omega, ?_, ?_, ?_⟩, hfloor⟩
  · rw [hnumer, hfloor]
    omega
  · rw [hnumer, hq]
    omega
  · rw [hr, Int.zero_mul]
    decide

/-- Behind the fourth second the clock is widened with a sign, behind the fifth it has none. -/
theorem fast_of_nanosMonotone (hpos : 0 < frequency.toNat) (h : NanosMonotone frequency) :
    2 ^ 63 ≤ 5 * frequency.toNat := by
  by_contra hslow
  obtain ⟨count, hcount, hscalable, hfloor⟩ := exists_seconds hlt hpos (k := 4) (by decide) (by omega)
  obtain ⟨count', hcount', hscalable', hfloor'⟩ := exists_seconds hlt hpos (k := 5) (by decide) (by omega)
  have hle : count ≤ count' := Int64.le_iff_toInt_le.mpr (by omega)
  obtain ⟨now, now', hsome, hsome', hnow⟩ := h count count' hscalable hscalable' hle
  obtain ⟨here, hhere, hval⟩ := tmCountToNanoseconds_eq_some hscalable
  obtain ⟨there, hthere, hval'⟩ := tmCountToNanoseconds_eq_some hscalable'
  rw [hsome, Option.some.injEq] at hhere
  rw [hsome', Option.some.injEq] at hthere
  rw [hfloor, ← hhere] at hval
  rw [hfloor', ← hthere] at hval'
  have hnow' : now.toNat ≤ now'.toNat := UInt64.le_iff_toNat_le.mp hnow
  have hfour : ((4 : Nat) * 1000000000 : Int).bmod (2 ^ 32) % 2 ^ 64 = 2 ^ 64 - 294967296 := by decide
  have hfive : ((5 : Nat) * 1000000000 : Int).bmod (2 ^ 32) % 2 ^ 64 = 705032704 := by decide
  omega

end

/-- Where the scaled division is exact, and of which frequencies the clock never goes back. -/
theorem muldiv_exact_and_monotone_iff {value numer denom : Int64} {frequency : UInt64}
    (h : Scalable value numer denom) (hpos : 0 < frequency.toNat) (hlt : frequency.toNat < 2 ^ 63) :
    (MuldivExact value numer denom ↔ value.toInt * numer.toInt < 2 ^ 31 * denom.toInt) ∧
      (NanosMonotone frequency ↔ 2 ^ 63 ≤ 5 * frequency.toNat) :=
  ⟨muldivExact_iff h, fast_of_nanosMonotone hlt hpos, nanosMonotone_of_fast hlt⟩

theorem muldiv_exact_and_monotone_iff_at :
    (MuldivExact 7 3 2 ↔ (7 : Int64).toInt * (3 : Int64).toInt < 2 ^ 31 * (2 : Int64).toInt) ∧
      (NanosMonotone 10000000 ↔ 2 ^ 63 ≤ 5 * (10000000 : UInt64).toNat) :=
  muldiv_exact_and_monotone_iff ⟨by decide, by decide, by decide, by decide, by decide, by decide⟩ (by decide)
    (by decide)

/-- Three seconds of a clock of ten megahertz. -/
theorem not_muldivExact_and_not_nanosMonotone :
    Scalable 30000000 1000000000 10000000 ∧ ¬ MuldivExact 30000000 1000000000 10000000 ∧
      ¬ NanosMonotone 10000000 := by
  have hscalable : Scalable 30000000 1000000000 10000000 :=
    ⟨by decide, by decide, by decide, by decide, by decide, by decide⟩
  refine ⟨hscalable, ?_, ?_⟩
  · intro h
    exact absurd ((muldivExact_iff hscalable).mp h) (by decide)
  · intro h
    exact absurd (fast_of_nanosMonotone (by decide) (by decide) h) (by decide)

end CWebServer
