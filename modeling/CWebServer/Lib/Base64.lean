import Mathlib.Data.List.Basic

/-!
# Base64

Three bytes are four values below 64. A last group of two or three values ends
the bytes, and a single value that is left over says nothing. A text may hold
other characters between those of the alphabet.
-/

namespace Base64

def ofBytes : List UInt8 → List Nat
  | a :: b :: c :: rest =>
    a.toNat / 4 :: (a.toNat % 4 * 16 + b.toNat / 16) :: (b.toNat % 16 * 4 + c.toNat / 64) :: c.toNat % 64 ::
      ofBytes rest
  | [a, b] => [a.toNat / 4, a.toNat % 4 * 16 + b.toNat / 16, b.toNat % 16 * 4]
  | [a] => [a.toNat / 4, a.toNat % 4 * 16]
  | [] => []

def toBytes : List Nat → List UInt8
  | w :: x :: y :: z :: rest =>
    UInt8.ofNat (w * 4 + x / 16) :: UInt8.ofNat (x % 16 * 16 + y / 4) :: UInt8.ofNat (y % 4 * 64 + z) :: toBytes rest
  | [w, x, y] => [UInt8.ofNat (w * 4 + x / 16), UInt8.ofNat (x % 16 * 16 + y / 4)]
  | [w, x] => [UInt8.ofNat (w * 4 + x / 16)]
  | _ => []

theorem first_byte (a b : UInt8) :
    UInt8.ofNat (a.toNat / 4 * 4 + (a.toNat % 4 * 16 + b.toNat / 16) / 16) = a := by
  have hb := b.toNat_lt
  rw [show a.toNat / 4 * 4 + (a.toNat % 4 * 16 + b.toNat / 16) / 16 = a.toNat by omega, UInt8.ofNat_toNat]

theorem second_byte (a b c : UInt8) :
    UInt8.ofNat ((a.toNat % 4 * 16 + b.toNat / 16) % 16 * 16 + (b.toNat % 16 * 4 + c.toNat / 64) / 4) = b := by
  have hb := b.toNat_lt
  have hc := c.toNat_lt
  have hsum : (a.toNat % 4 * 16 + b.toNat / 16) % 16 * 16 + (b.toNat % 16 * 4 + c.toNat / 64) / 4 = b.toNat := by omega
  rw [hsum, UInt8.ofNat_toNat]

theorem third_byte (b c : UInt8) : UInt8.ofNat ((b.toNat % 16 * 4 + c.toNat / 64) % 4 * 64 + c.toNat % 64) = c := by
  have hc := c.toNat_lt
  rw [show (b.toNat % 16 * 4 + c.toNat / 64) % 4 * 64 + c.toNat % 64 = c.toNat by omega, UInt8.ofNat_toNat]

/-- Bytes are found again. -/
theorem toBytes_ofBytes (bytes : List UInt8) : toBytes (ofBytes bytes) = bytes := by
  induction bytes using ofBytes.induct with
  | case1 a b c rest ih => rw [ofBytes, toBytes, first_byte, second_byte, third_byte, ih]
  | case2 a b =>
    have hsecond := second_byte a b 0
    have hzero : (b.toNat % 16 * 4 + (0 : UInt8).toNat / 64) = b.toNat % 16 * 4 := Nat.add_zero _
    rw [hzero] at hsecond
    rw [ofBytes, toBytes, first_byte, hsecond]
  | case3 a =>
    have hfirst := first_byte a 0
    have hzero : a.toNat % 4 * 16 + (0 : UInt8).toNat / 16 = a.toNat % 4 * 16 := Nat.add_zero _
    rw [hzero] at hfirst
    rw [ofBytes, toBytes, hfirst]
  | case4 => rfl

theorem length_toBytes (values : List Nat) : (toBytes values).length = values.length * 3 / 4 := by
  induction values using toBytes.induct with
  | case1 w x y z rest ih =>
    simp only [toBytes, List.length_cons, ih]
    omega
  | case2 w x y => simp [toBytes]
  | case3 w x => simp [toBytes]
  | case4 values h₁ h₂ h₃ =>
    match values with
    | [] => rfl
    | [w] => simp [toBytes]
    | [w, x] => exact absurd rfl (h₃ w x)
    | [w, x, y] => exact absurd rfl (h₂ w x y)
    | w :: x :: y :: z :: rest => exact absurd rfl (h₁ w x y z rest)

/-- Groups of four are decoded one by one. -/
theorem toBytes_drop (values : List Nat) : toBytes values = toBytes (values.take 4) ++ toBytes (values.drop 4) := by
  match values with
  | [] => rfl
  | [w] => simp [toBytes]
  | [w, x] => simp [toBytes]
  | [w, x, y] => simp [toBytes]
  | w :: x :: y :: z :: rest => simp [toBytes]

/-! ## Text -/

/-- The value of a character of the alphabet. -/
def value (c : UInt8) : Option Nat :=
  if 65 ≤ c ∧ c ≤ 90 then some (c.toNat - 65)
  else if 97 ≤ c ∧ c ≤ 122 then some (c.toNat - 71)
  else if 48 ≤ c ∧ c ≤ 57 then some (c.toNat + 4)
  else if c = 43 then some 62
  else if c = 47 then some 63
  else none

def values (text : List UInt8) : List Nat := text.filterMap value

theorem values_cons_none {c : UInt8} (h : value c = none) (text : List UInt8) : values (c :: text) = values text :=
  List.filterMap_cons_none h

theorem values_cons_some {c : UInt8} {v : Nat} (h : value c = some v) (text : List UInt8) :
    values (c :: text) = v :: values text :=
  List.filterMap_cons_some h

/-- What a text says. -/
def decode (text : List UInt8) : List UInt8 := toBytes (values text)

theorem length_decode (text : List UInt8) : (decode text).length ≤ text.length * 3 / 4 := by
  have hle : (values text).length ≤ text.length := List.length_filterMap_le _ _
  rw [decode, length_toBytes]
  exact Nat.div_le_div_right (Nat.mul_le_mul_right 3 hle)

def char (v : Nat) : UInt8 :=
  if v < 26 then UInt8.ofNat (v + 65)
  else if v < 52 then UInt8.ofNat (v + 71)
  else if v < 62 then UInt8.ofNat (v - 4)
  else if v = 62 then 43
  else 47

/-- The characters of the bytes, filled up to a whole group. -/
def encode (bytes : List UInt8) : List UInt8 :=
  (ofBytes bytes).map char ++ List.replicate ((3 - bytes.length % 3) % 3) 61

/-- A text with the characters of `bytes`, wherever its lines are broken and however it is padded, says `bytes`. -/
theorem decode_of_values {text bytes : List UInt8} (h : values text = ofBytes bytes) : decode text = bytes := by
  rw [decode, h, toBytes_ofBytes]

end Base64
