import Mathlib.Logic.Basic

/-!
# Bit fields

A word of 64 bits that records a set of indices below 64, an index by the flag
`1 <<< idx`.
-/

namespace BitField

theorem toBitVec_flag {idx : Nat} (h : idx < 64) : ((1 : UInt64) <<< idx.toUInt64).toBitVec = BitVec.twoPow 64 idx := by
  rw [UInt64.toBitVec_shiftLeft, BitVec.twoPow_eq]
  simp [Nat.mod_eq_of_lt h]

theorem getLsbD_flag {idx : Nat} (h : idx < 64) (i : Nat) :
    ((1 : UInt64) <<< idx.toUInt64).toBitVec.getLsbD i = decide (i = idx) := by
  rw [toBitVec_flag h, BitVec.getLsbD_twoPow]
  simp [h, eq_comm]

theorem and_flag_iff {word : UInt64} {idx : Nat} (h : idx < 64) :
    word &&& 1 <<< idx.toUInt64 = 1 <<< idx.toUInt64 ↔ word.toBitVec.getLsbD idx = true := by
  rw [← UInt64.toBitVec_inj, UInt64.toBitVec_and, BitVec.eq_of_getLsbD_eq_iff]
  simp only [BitVec.getLsbD_and, getLsbD_flag h]
  constructor
  · intro heq
    simpa using heq idx h
  · intro hbit i _
    by_cases hi : i = idx
    · simp [hi, hbit]
    · simp [hi]

/-- The indices below 64 that the word records are those with `p`. -/
def Records (word : UInt64) (p : Nat → Prop) : Prop := ∀ idx < 64, word.toBitVec.getLsbD idx = true ↔ p idx

section
variable {word : UInt64} {p : Nat → Prop}

theorem records_zero (h : ∀ idx, ¬ p idx) : Records 0 p := by
  intro idx _
  simp [h idx]

theorem Records.seen_iff (hr : Records word p) {idx : Nat} (h : idx < 64) :
    word &&& 1 <<< idx.toUInt64 = 1 <<< idx.toUInt64 ↔ p idx :=
  (and_flag_iff h).trans (hr idx h)

theorem Records.insert (hr : Records word p) {idx : Nat} (h : idx < 64) :
    Records (word ||| 1 <<< idx.toUInt64) fun i => p i ∨ i = idx := by
  intro i hi
  rw [UInt64.toBitVec_or, BitVec.getLsbD_or, getLsbD_flag h, Bool.or_eq_true, hr i hi, decide_eq_true_eq]

theorem Records.congr {q : Nat → Prop} (hr : Records word p) (h : ∀ idx, p idx ↔ q idx) : Records word q :=
  fun idx hidx => (hr idx hidx).trans (h idx)

end

end BitField
