import CWebServer.Args
import CWebServer.JoinSound

/-!
# Reading a printed number back

`str_parseS64N` on the numeral that `str_join` writes for an `i64`. It never
counts the first character as a digit, so only the numbers that have a sign,
and zero, come back.
-/

namespace CWebServer

/-- The text of a number, as it is joined. -/
def numeral (v : Int64) : List UInt8 := (PlainValue.i64 v).render

/-- The number and its length come back, whatever stands behind the number. -/
def ParseUndoes (v : Int64) : Prop :=
  ∀ rest : List UInt8, (∀ c ∈ rest.head?, strIsNumberChar c = false) →
    strParseS64N (numeral v ++ rest) = (v, (numeral v).length)

/-! ## The loop -/

theorem foldl_appendDigit_lt (digits : List UInt8) {out out' : Nat} (h : out < out') :
    digits.foldl appendDigit out < digits.foldl appendDigit out' := by
  induction digits generalizing out out' with
  | nil => exact h
  | cons c digits ih =>
    apply ih
    unfold appendDigit
    omega

theorem digit_sub {d : Nat} (hd : d < 10) : (digit d - chr '0').toNat = d := by
  have hval : (digit d).toNat = 48 + d := by
    rw [digit, Nat.toUInt8_eq, UInt8.toNat_ofNat']
    exact Nat.mod_eq_of_lt (by omega)
  have hle : chr '0' ≤ digit d := by
    rw [UInt8.le_iff_toNat_le, hval]
    exact Nat.le_add_right 48 d
  rw [UInt8.toNat_sub_of_le _ _ hle, hval]
  exact Nat.add_sub_cancel_left 48 d

theorem append_digit_toNat {c : UInt8} (hc : strIsNumberChar c = true) {out : UInt64}
    (hlt : appendDigit out.toNat c < 2 ^ 64) : (out * 10 + (c - chr '0').toUInt64).toNat = appendDigit out.toNat c := by
  obtain ⟨d, hd, rfl⟩ := strIsNumberChar_iff.mp hc
  rw [appendDigit_digit _ hd] at hlt ⊢
  rw [UInt64.toNat_add, UInt64.toNat_mul, UInt8.toNat_toUInt64, digit_sub hd, Nat.mod_add_mod]
  exact Nat.mod_eq_of_lt hlt

theorem parseS64Loop_digits {mult : Int64} {digits : List UInt8} (hnumber : ∀ c ∈ digits, strIsNumberChar c = true)
    (out : UInt64) (hlt : digits.foldl appendDigit out.toNat < 2 ^ 64 - 1) (rest : List UInt8) (idx : Nat) :
    parseS64Loop mult (digits ++ rest) out idx =
      parseS64Loop mult rest (UInt64.ofNat (digits.foldl appendDigit out.toNat)) (idx + digits.length) := by
  induction digits generalizing out idx with
  | nil => simp
  | cons c digits ih =>
    have hc := hnumber c List.mem_cons_self
    have hle := le_foldl_appendDigit digits (appendDigit out.toNat c)
    rw [List.foldl_cons] at hlt ⊢
    have hout := append_digit_toNat hc (Nat.lt_of_le_of_lt hle (Nat.lt_trans hlt (by decide)))
    have hmax : ¬ i64Max.toUInt64 ≤ out * 10 + (c - chr '0').toUInt64 := by
      rw [UInt64.le_iff_toNat_le, hout]
      exact Nat.not_le.mpr (Nat.lt_of_le_of_lt hle hlt)
    rw [List.cons_append, parseS64Loop, if_pos hc]
    dsimp only
    rw [if_neg hmax, ih (fun b hb => hnumber b (List.mem_cons_of_mem _ hb)) _ (by rw [hout]; exact hlt), hout,
      List.length_cons, Nat.add_assoc, Nat.add_comm 1]

theorem parseS64Loop_end (mult : Int64) {rest : List UInt8} (hrest : ∀ c ∈ rest.head?, strIsNumberChar c = false)
    (out : UInt64) (idx : Nat) : parseS64Loop mult rest out idx = ((out * mult.toUInt64).toInt64, idx) := by
  cases rest with
  | nil => rfl
  | cons c rest =>
    rw [parseS64Loop, if_neg (by rw [hrest c rfl]; exact Bool.false_ne_true)]

/-- The number that the loop reads from the digits behind the first character. -/
theorem strParseS64N_cons (c : UInt8) {digits : List UInt8} (hnumber : ∀ c ∈ digits, strIsNumberChar c = true)
    (hlt : decimalValue digits < 2 ^ 64 - 1) {rest : List UInt8}
    (hrest : ∀ c ∈ rest.head?, strIsNumberChar c = false) :
    strParseS64N (c :: digits ++ rest) =
      ((UInt64.ofNat (decimalValue digits) * (if c = chr '-' then (-1 : Int64) else 1).toUInt64).toInt64,
        (c :: digits).length) := by
  rw [List.cons_append, strParseS64N, parseS64Loop_digits hnumber 0 hlt, parseS64Loop_end _ hrest, List.length_cons,
    Nat.add_comm]
  rfl

/-! ## Numbers that come back -/

theorem negative_back {v : Int64} (hv : v.toInt < 0) :
    (UInt64.ofNat v.toInt.natAbs * (-1 : Int64).toUInt64).toInt64 = v := by
  have hneg : v.toInt = -(v.toInt.natAbs : Int) := by omega
  calc (UInt64.ofNat v.toInt.natAbs * (-1 : Int64).toUInt64).toInt64
      = Int64.ofNat v.toInt.natAbs * -1 := rfl
    _ = -Int64.ofNat v.toInt.natAbs := by rw [Int64.mul_neg, Int64.mul_one]
    _ = Int64.ofInt v.toInt := by rw [Int64.neg_ofNat, ← hneg]
    _ = v := Int64.ofInt_toInt v

theorem parseUndoes_negative {v : Int64} (hv : v.toInt < 0) : ParseUndoes v := by
  have htext : numeral v = chr '-' :: decimal v.toInt.natAbs := by
    rw [numeral, PlainValue.render, signed_decimal, decide_eq_true hv]
    rfl
  have hlow := v.le_toInt
  have hvalue := decimalValue_decimal v.toInt.natAbs
  intro rest hrest
  rw [htext, strParseS64N_cons _ (decimal_number _) (by omega) hrest, hvalue, if_pos rfl, negative_back hv]

theorem parseUndoes_zero : ParseUndoes 0 := by
  intro rest hrest
  exact @strParseS64N_cons (chr '0') [] (by simp) (by decide) rest hrest

/-- The first digit of a positive number is no zero, so the digits behind it are a smaller one. -/
theorem decimal_first {n : Nat} (hn : 0 < n) : ∃ c digits, decimal n = c :: digits ∧
    (∀ b ∈ c :: digits, strIsNumberChar b = true) ∧ decimalValue digits < n := by
  have hnumber := decimal_number n
  have hvalue := decimalValue_decimal n
  cases hdec : decimal n with
  | nil => exact absurd hdec (decimal_ne_nil _)
  | cons c digits =>
    rw [hdec] at hnumber hvalue
    refine ⟨c, digits, rfl, hnumber, ?_⟩
    have hfirst : 0 < appendDigit 0 c := by
      obtain ⟨d, hd, rfl⟩ := strIsNumberChar_iff.mp (hnumber c List.mem_cons_self)
      rw [appendDigit_digit 0 hd, Nat.zero_mul, Nat.zero_add]
      apply Nat.pos_of_ne_zero
      rintro rfl
      have := decimal_head (n := n) (by rw [hdec]; rfl)
      omega
    rw [← hvalue]
    exact foldl_appendDigit_lt digits hfirst

/-- The first digit of a positive number is lost. -/
theorem not_parseUndoes_positive {v : Int64} (hv : 0 < v.toInt) : ¬ ParseUndoes v := by
  have htext : numeral v = decimal v.toInt.toNat := by
    rw [numeral, PlainValue.render, signed_decimal, decide_eq_false (by omega),
      (by omega : v.toInt.natAbs = v.toInt.toNat)]
    rfl
  have hhigh := v.toInt_lt
  obtain ⟨c, digits, hdec, hnumber, hlead⟩ := decimal_first (by omega : 0 < v.toInt.toNat)
  intro h
  have hparse := h [] (by simp)
  have hminus : c ≠ chr '-' := by
    rintro rfl
    exact absurd (hnumber _ List.mem_cons_self) (by decide)
  rw [htext, hdec, strParseS64N_cons c (fun b hb => hnumber b (List.mem_cons_of_mem _ hb)) (by omega) (by simp),
    if_neg hminus] at hparse
  have hback : Int64.ofNat (decimalValue digits) = v := by
    rw [← Int64.mul_one (Int64.ofNat (decimalValue digits))]
    exact congrArg Prod.fst hparse
  have hint := congrArg Int64.toInt hback
  rw [Int64.toInt_ofNat_of_lt (by omega)] at hint
  omega

theorem parseUndoes_iff (v : Int64) : ParseUndoes v ↔ v ≤ 0 := by
  rw [Int64.le_iff_toInt_le, show (0 : Int64).toInt = 0 from rfl]
  constructor
  · intro h
    by_contra hv
    exact not_parseUndoes_positive (Int.not_le.mp hv) h
  · intro hle
    rcases Int.lt_or_eq_of_le hle with hv | hv
    · exact parseUndoes_negative hv
    · rw [(Int64.toInt_inj.mp hv : v = 0)]
      exact parseUndoes_zero

theorem not_parseUndoes_seven : ¬ ParseUndoes 7 := by
  intro h
  have := h [] (by simp)
  revert this
  decide

end CWebServer
