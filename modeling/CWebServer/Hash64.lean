import CWebServer.Str

/-!
# The 64-bit hash

`str_hash64` folds two lanes over the bytes from the last to the first. It puts
them together as `u32` and widens the sum only then.
-/

namespace CWebServer

/-- A turn of the loop for one of the two hashes. -/
def hashTurn (c : UInt8) (hash : UInt32) : UInt32 := (hash * 33) ^^^ c.toUInt32

def strHash64 (str : List UInt8) : UInt64 :=
  let hash := str.foldr (fun c hash => (hashTurn c hash.1, hashTurn c hash.2)) ((5381, 52711) : UInt32 × UInt32)
  ((hash.1 >>> (0 : UInt32)) * 4096 + (hash.2 >>> (0 : UInt32))).toUInt64

/-! ## The lanes -/

/-- The fold from the last byte to the first, on numbers. -/
def hashLane (start : Nat) (str : List UInt8) : Nat := str.foldr (fun c h => (h * 33 % 2 ^ 32) ^^^ c.toNat) start

def bothLanes (str : List UInt8) : Nat := hashLane 5381 str * 4096 + hashLane 52711 str

def KeepsLanes (str : List UInt8) : Prop := (strHash64 str).toNat = bothLanes str

theorem toNat_hashTurn (c : UInt8) (hash : UInt32) :
    (hashTurn c hash).toNat = (hash.toNat * 33 % 2 ^ 32) ^^^ c.toNat := by
  simp [hashTurn]

theorem foldr_hashTurn (str : List UInt8) (hash : UInt32 × UInt32) :
    str.foldr (fun c hash => (hashTurn c hash.1, hashTurn c hash.2)) hash =
      (str.foldr hashTurn hash.1, str.foldr hashTurn hash.2) := by
  induction str with
  | nil => rfl
  | cons c str ih => rw [List.foldr_cons, ih, List.foldr_cons, List.foldr_cons]

theorem toNat_foldr_hashTurn (str : List UInt8) (hash : UInt32) :
    (str.foldr hashTurn hash).toNat = hashLane hash.toNat str := by
  induction str with
  | nil => rfl
  | cons c str ih => rw [List.foldr_cons, toNat_hashTurn, ih, hashLane, hashLane, List.foldr_cons]

/-- The sum that is widened has wrapped. -/
theorem toNat_strHash64 (str : List UInt8) : (strHash64 str).toNat = bothLanes str % 2 ^ 32 := by
  have hfirst := toNat_foldr_hashTurn str 5381
  have hsecond := toNat_foldr_hashTurn str 52711
  unfold strHash64 bothLanes
  rw [foldr_hashTurn]
  simp only [UInt32.toNat_toUInt64, UInt32.toNat_add, UInt32.toNat_mul, UInt32.shiftRight_zero, hfirst, hsecond]
  simp

/-! ## Short strings -/

/-- A byte changes only the lowest byte of a lane. -/
theorem lane_div (x : Nat) (c : UInt8) : (x ^^^ c.toNat) / 256 = x / 256 := by
  have hbyte : c.toNat >>> 8 = 0 := Nat.shiftRight_eq_zero _ _ c.toNat_lt
  have hshift : (x ^^^ c.toNat) >>> 8 = x >>> 8 := by
    rw [Nat.shiftRight_xor_distrib, hbyte, Nat.xor_zero]
  simpa [Nat.shiftRight_eq_div_pow] using hshift

theorem hashLane_cons (start : Nat) (c : UInt8) (str : List UInt8) :
    hashLane start (c :: str) / 256 = hashLane start str * 33 % 2 ^ 32 / 256 := lane_div _ c

theorem bothLanes_lt {str : List UInt8} (h : str.length ≤ 1) : bothLanes str < 2 ^ 32 := by
  match str, h with
  | [], _ => decide
  | [a], _ =>
    have hfirst : hashLane 5381 [a] / 256 = 693 := hashLane_cons 5381 a []
    have hsecond : hashLane 52711 [a] / 256 = 6794 := hashLane_cons 52711 a []
    unfold bothLanes
    omega

/-- The bounds of a lane behind one more byte, where `base` wraps off its product. -/
theorem hashLane_bounds {start lo hi lo' hi' : Nat} {str : List UInt8} (c : UInt8) (base : Nat)
    (h : lo ≤ hashLane start str ∧ hashLane start str ≤ hi) (hbase : 2 ^ 32 ∣ base) (hwrap : hi * 33 < base + 2 ^ 32)
    (hlo : base + lo' + 255 ≤ lo * 33) (hhi : hi * 33 + 255 ≤ base + hi') :
    lo' ≤ hashLane start (c :: str) ∧ hashLane start (c :: str) ≤ hi' := by
  have hlow := Nat.mul_le_mul_right 33 h.1
  have hhigh := Nat.mul_le_mul_right 33 h.2
  obtain ⟨rest, hrest⟩ := Nat.exists_eq_add_of_le (Nat.le_trans (by omega : base ≤ lo * 33) hlow)
  have hdiv : hashLane start (c :: str) / 256 = rest / 256 := by
    obtain ⟨k, rfl⟩ := hbase
    rw [hashLane_cons, hrest, Nat.mul_add_mod, Nat.mod_eq_of_lt (by omega)]
  omega

theorem bothLanes_ge {str : List UInt8} (htwo : 2 ≤ str.length) (hfour : str.length ≤ 4) : 2 ^ 32 ≤ bothLanes str := by
  have hone : ∀ c, 177318 ≤ hashLane 5381 [c] ∧ hashLane 5381 [c] ≤ 177828 := fun c =>
    hashLane_bounds c 0 ⟨Nat.le_refl 5381, Nat.le_refl 5381⟩ (Nat.dvd_zero _) (by decide) (by decide) (by decide)
  have htwo' : ∀ b c, 5851239 ≤ hashLane 5381 [b, c] ∧ hashLane 5381 [b, c] ≤ 5868579 := fun b c =>
    hashLane_bounds b 0 (hone c) (Nat.dvd_zero _) (by decide) (by decide) (by decide)
  have hthree : ∀ a b c, 193090632 ≤ hashLane 5381 [a, b, c] ∧ hashLane 5381 [a, b, c] ≤ 193663362 := fun a b c =>
    hashLane_bounds a 0 (htwo' b c) (Nat.dvd_zero _) (by decide) (by decide) (by decide)
  have hlarge : 2 ^ 20 ≤ hashLane 5381 str := by
    match str, htwo, hfour with
    | [a, b], _, _ => exact Nat.le_trans (by decide) (htwo' a b).1
    | [a, b, c], _, _ => exact Nat.le_trans (by decide) (hthree a b c).1
    | [a, b, c, d], _, _ =>
      -- the last product has wrapped once
      have hfour' : 2077023305 ≤ hashLane 5381 [a, b, c, d] ∧ hashLane 5381 [a, b, c, d] ≤ 2095923905 :=
        hashLane_bounds a (2 ^ 32) (hthree b c d) (Nat.dvd_refl _) (by decide) (by decide) (by decide)
      exact Nat.le_trans (by decide) hfour'.1
  unfold bothLanes
  omega

theorem keepsLanes_lt_iff (str : List UInt8) : KeepsLanes str ↔ bothLanes str < 2 ^ 32 := by
  unfold KeepsLanes
  rw [toNat_strHash64]
  omega

/-- Of the shortest strings those of at most one byte have such lanes, and those of two to four bytes do not. -/
theorem keepsLanes_iff (str : List UInt8) :
    (KeepsLanes str ↔ bothLanes str < 2 ^ 32) ∧ (str.length ≤ 1 → KeepsLanes str) ∧
      (2 ≤ str.length ∧ str.length ≤ 4 → ¬ KeepsLanes str) := by
  have hiff := keepsLanes_lt_iff str
  refine ⟨hiff, ?_, ?_⟩
  · intro h
    exact hiff.mpr (bothLanes_lt h)
  · intro h hkeeps
    exact absurd (hiff.mp hkeeps) (Nat.not_lt.mpr (bothLanes_ge h.1 h.2))

theorem not_keepsLanes : ¬ KeepsLanes (s8 "ab") := by
  intro h
  exact absurd ((keepsLanes_lt_iff _).mp h) (by decide)

end CWebServer
