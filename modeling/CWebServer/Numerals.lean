import CWebServer.Join
import Mathlib.Data.List.Induction

/-!
# Decimal numerals

The digit loop of `str_recordU64` and the tables of `str__ufast_utoa10` both
write the numeral without leading zeros.
-/

namespace CWebServer

def decimal (n : Nat) : List UInt8 := s8 (toString n)

theorem chr_digitChar : ∀ n < 10, chr (Nat.digitChar n) = digit n := by decide

theorem decimal_eq (n : Nat) : decimal n = (Nat.toDigits 10 n).map chr := by
  unfold decimal s8
  rw [Nat.toString_eq_repr, Nat.toList_repr]

theorem decimal_of_lt {n : Nat} (h : n < 10) : decimal n = [digit n] := by
  rw [decimal_eq, Nat.toDigits_of_lt_base h, List.map_singleton, chr_digitChar n h]

theorem decimal_zero : decimal 0 = s8 "0" := decimal_of_lt (by decide)

theorem decimal_of_ge {n : Nat} (h : 10 ≤ n) : decimal n = decimal (n / 10) ++ [digit (n % 10)] := by
  rw [decimal_eq, decimal_eq, Nat.toDigits_of_base_le (by decide) h, List.map_append, List.map_singleton,
    chr_digitChar _ (Nat.mod_lt n (by decide))]

theorem decimal_mul_ten_add {q d : Nat} (hq : 0 < q) (hd : d < 10) : decimal (q * 10 + d) = decimal q ++ [digit d] := by
  rw [decimal_of_ge (by omega), (by omega : (q * 10 + d) / 10 = q), (by omega : (q * 10 + d) % 10 = d)]

theorem decimal_length_le {n k : Nat} (hk : 0 < k) (h : n < 10 ^ k) : (decimal n).length ≤ k := by
  rw [decimal_eq, List.length_map]
  exact (Nat.length_toDigits_le_iff (by decide) hk).mpr h

theorem decimal_ne_nil (n : Nat) : decimal n ≠ [] := by
  rw [decimal_eq]
  intro h
  exact Nat.toDigits_ne_nil (List.map_eq_nil_iff.mp h)

theorem digitLoop_eq {n : Nat} (h : 0 < n) (acc : List UInt8) : digitLoop n acc = decimal n ++ acc := by
  induction n, acc using digitLoop.induct with
  | case1 acc => cases h
  | case2 n acc hn ih =>
    rw [digitLoop, if_neg hn]
    by_cases hten : n < 10
    · have hq : n / 10 = 0 := Nat.div_eq_of_lt hten
      rw [hq, decimal_of_lt hten, digitLoop, if_pos rfl, Nat.zero_mul]
      rfl
    · rw [ih (by omega), decimal_of_ge (by omega : 10 ≤ n), List.append_assoc,
        (by omega : n - n / 10 * 10 = n % 10)]
      rfl

/-! ## The tables -/

theorem decimal_table2 {q r : Nat} (hq : 0 < q) (hr : r < 100) : decimal (q * 100 + r) = decimal q ++ table2 r := by
  have hsplit : q * 100 + r = (q * 10 + r / 10) * 10 + r % 10 := by omega
  rw [hsplit, decimal_mul_ten_add (by omega) (by omega), decimal_mul_ten_add hq (by omega), List.append_assoc]
  rfl

theorem decimal_table3 {q r : Nat} (hq : 0 < q) (hr : r < 1000) : decimal (q * 1000 + r) = decimal q ++ table3 r := by
  have hsplit : q * 1000 + r = (q * 10 + r / 100) * 100 + r % 100 := by omega
  rw [hsplit, decimal_table2 (by omega) (by omega), decimal_mul_ten_add hq (by omega), List.append_assoc]
  rfl

theorem decimal_table4 {q r : Nat} (hq : 0 < q) (hr : r < 10000) : decimal (q * 10000 + r) = decimal q ++ table4 r := by
  have hsplit : q * 10000 + r = (q * 10 + r / 1000) * 1000 + r % 1000 := by omega
  rw [hsplit, decimal_table3 (by omega) (by omega), decimal_mul_ten_add hq (by omega), List.append_assoc]
  rfl

theorem table2_eq {n : Nat} (h : 10 ≤ n) (h' : n < 100) : table2 n = decimal n := by
  rw [decimal_of_ge h, decimal_of_lt (by omega)]
  rfl

theorem table3_eq {n : Nat} (h : 100 ≤ n) (h' : n < 1000) : table3 n = decimal n := by
  have hsplit : n = n / 100 * 100 + n % 100 := by omega
  conv => rhs; rw [hsplit]
  rw [decimal_table2 (by omega) (by omega), decimal_of_lt (by omega)]
  rfl

theorem table4_eq {n : Nat} (h : 1000 ≤ n) (h' : n < 10000) : table4 n = decimal n := by
  have hsplit : n = n / 1000 * 1000 + n % 1000 := by omega
  conv => rhs; rw [hsplit]
  rw [decimal_table3 (by omega) (by omega), decimal_of_lt (by omega)]
  rfl

theorem table5_eq {n : Nat} (h : n < 1000) : table5 n = decimal n := by
  unfold table5
  by_cases h100 : 100 ≤ n
  · rw [if_pos h100, table3_eq h100 h]
  · rw [if_neg h100]
    by_cases h10 : 10 ≤ n
    · rw [if_pos h10, table2_eq h10 (by omega)]
    · rw [if_neg h10, decimal_of_lt (by omega)]

/-! ## `str__ufast_utoa10` -/

theorem div_10000 {v : Nat} (h : v < 2 ^ 32) : v * 3518437209 / 2 ^ 45 = v / 10000 := by omega

theorem div_100000000 {v : Nat} (h : v < 2 ^ 32) : v * 2882303762 / 2 ^ 58 = v / 100000000 := by omega

theorem decimal_low {v : Nat} (h : 10000 ≤ v) : decimal v = decimal (v / 10000) ++ table4 (v - v / 10000 * 10000) := by
  have hsplit : v = v / 10000 * 10000 + (v - v / 10000 * 10000) := by omega
  conv => lhs; rw [hsplit]
  rw [decimal_table4 (by omega) (by omega)]

theorem decimal_low_low {v : Nat} (h : 100000000 ≤ v) :
    decimal v = decimal (v / 100000000) ++
      (table4 (v / 10000 - v / 100000000 * 10000) ++ table4 (v - v / 10000 * 10000)) := by
  have hdiv : v / 10000 / 10000 = v / 100000000 := by omega
  rw [decimal_low (by omega), decimal_low (by omega : 10000 ≤ v / 10000), hdiv, List.append_assoc]

theorem strUfastUtoa10_eq {v : Nat} (h : v < 2 ^ 32) : strUfastUtoa10 true v = decimal v := by
  unfold strUfastUtoa10
  simp only [if_true, div_10000 h, div_100000000 h]
  by_cases h8 : 100000000 ≤ v
  · rw [if_pos h8, decimal_low_low h8]
    by_cases h10 : 10 ≤ v / 100000000
    · rw [if_pos h10, table5_eq (by omega)]
    · rw [if_neg h10, decimal_of_lt (by omega)]
      rfl
  · rw [if_neg h8]
    by_cases h4 : 10000 ≤ v
    · rw [if_pos h4, decimal_low h4]
      by_cases h1000 : 1000 ≤ v / 10000
      · rw [if_pos h1000, table4_eq h1000 (by omega)]
      · rw [if_neg h1000, table5_eq (by omega)]
    · rw [if_neg h4]
      by_cases h1000 : 1000 ≤ v
      · rw [if_pos h1000, table4_eq h1000 (by omega)]
      · rw [if_neg h1000]
        by_cases h100 : 100 ≤ v
        · rw [if_pos h100, table3_eq h100 (by omega)]
        · rw [if_neg h100]
          by_cases h10 : 10 ≤ v
          · rw [if_pos h10, table2_eq h10 (by omega)]
          · rw [if_neg h10, decimal_of_lt (by omega)]

/-! ## Values -/

theorem strIsNumberChar_iff {c : UInt8} : strIsNumberChar c = true ↔ ∃ d < 10, c = digit d := by
  unfold strIsNumberChar digit
  simp only [Bool.and_eq_true, decide_eq_true_eq, UInt8.le_iff_toNat_le]
  constructor
  · rintro ⟨hlo, hhi⟩
    have hlo' : 48 ≤ c.toNat := hlo
    have hhi' : c.toNat ≤ 57 := hhi
    refine ⟨c.toNat - 48, by omega, ?_⟩
    rw [(by omega : 48 + (c.toNat - 48) = c.toNat), Nat.toUInt8_eq, UInt8.ofNat_toNat]
  · rintro ⟨d, hd, rfl⟩
    have hval : (48 + d).toUInt8.toNat = 48 + d := by
      rw [Nat.toUInt8_eq, UInt8.toNat_ofNat']
      exact Nat.mod_eq_of_lt (by omega)
    rw [hval]
    exact ⟨Nat.le_add_right 48 d, Nat.add_le_add_left (Nat.le_of_lt_succ hd) 48⟩

theorem appendDigit_digit (out : Nat) {d : Nat} (h : d < 10) : appendDigit out (digit d) = out * 10 + d := by
  unfold appendDigit digit
  rw [Nat.toUInt8_eq, UInt8.toNat_ofNat', Nat.mod_eq_of_lt (by omega), Nat.add_sub_cancel_left]

theorem decimalValue_concat (digits : List UInt8) {d : Nat} (h : d < 10) :
    decimalValue (digits ++ [digit d]) = decimalValue digits * 10 + d := by
  unfold decimalValue
  rw [List.foldl_append, List.foldl_cons, List.foldl_nil, appendDigit_digit _ h]

theorem decimalValue_decimal (n : Nat) : decimalValue (decimal n) = n := by
  induction n using Nat.strongRecOn with
  | ind n ih =>
    by_cases h : n < 10
    · rw [decimal_of_lt h, ← List.nil_append [digit n], decimalValue_concat [] h]
      exact Nat.zero_add n
    · rw [decimal_of_ge (by omega), decimalValue_concat _ (Nat.mod_lt n (by decide)), ih (n / 10) (by omega)]
      exact Nat.div_add_mod' n 10

theorem decimal_number (n : Nat) : ∀ c ∈ decimal n, strIsNumberChar c = true := by
  induction n using Nat.strongRecOn with
  | ind n ih =>
    intro c hc
    by_cases h : n < 10
    · rw [decimal_of_lt h] at hc
      exact strIsNumberChar_iff.mpr ⟨n, h, List.mem_singleton.mp hc⟩
    · rw [decimal_of_ge (by omega)] at hc
      rcases List.mem_append.mp hc with hc | hc
      · exact ih (n / 10) (by omega) c hc
      · exact strIsNumberChar_iff.mpr ⟨n % 10, Nat.mod_lt n (by decide), List.mem_singleton.mp hc⟩

/-- A numeral that starts with a zero is that of zero. -/
theorem decimal_head {n : Nat} (h : (decimal n).head? = some (chr '0')) : n = 0 := by
  induction n using Nat.strongRecOn with
  | ind n ih =>
    by_cases hlt : n < 10
    · rw [decimal_of_lt hlt, List.head?_cons] at h
      calc n = appendDigit 0 (digit n) := by rw [appendDigit_digit 0 hlt, Nat.zero_mul, Nat.zero_add]
        _ = appendDigit 0 (chr '0') := by rw [Option.some.inj h]
        _ = 0 := rfl
    · rw [decimal_of_ge (by omega), List.head?_append_of_ne_nil _ (decimal_ne_nil _)] at h
      have hq := ih (n / 10) (by omega) h
      omega

/-- Digits without a leading zero are the numeral of their value. -/
theorem decimal_decimalValue {digits : List UInt8} (hne : digits ≠ [])
    (hnumber : ∀ c ∈ digits, strIsNumberChar c = true)
    (hlead : digits.head? = some (chr '0') → digits = s8 "0") : decimal (decimalValue digits) = digits := by
  induction digits using List.reverseRecOn with
  | nil => exact absurd rfl hne
  | append_singleton digits c ih =>
    obtain ⟨d, hd, rfl⟩ := strIsNumberChar_iff.mp (hnumber c (by simp))
    by_cases hnil : digits = []
    · subst hnil
      rw [decimalValue_concat [] hd]
      exact (congrArg decimal (Nat.zero_add d)).trans (decimal_of_lt hd)
    · -- What stands before the last digit has no leading zero at all: it is not the whole.
      have hhead : digits.head? ≠ some (chr '0') := by
        intro h
        have hlen := congrArg List.length (hlead (by rw [List.head?_append_of_ne_nil _ hnil, h]))
        have hpos := List.length_pos_iff.mpr hnil
        simp only [List.length_append, List.length_singleton] at hlen
        exact absurd hlen (Nat.ne_of_gt (Nat.succ_lt_succ hpos))
      have hdec := ih hnil (fun b hb => hnumber b (List.mem_append_left _ hb)) (fun h => absurd h hhead)
      have hpos : 0 < decimalValue digits := by
        apply Nat.pos_of_ne_zero
        intro h
        rw [h, decimal_zero] at hdec
        exact hhead (hdec ▸ rfl)
      rw [decimalValue_concat _ hd, decimal_mul_ten_add hpos hd, hdec]

theorem eq_decimal_iff {digits : List UInt8} (hne : digits ≠ [])
    (hnumber : ∀ c ∈ digits, strIsNumberChar c = true) (n : Nat) :
    digits = decimal n ↔ (digits.head? = some (chr '0') → digits = s8 "0") ∧ decimalValue digits = n := by
  constructor
  · rintro rfl
    refine ⟨fun h => ?_, decimalValue_decimal n⟩
    rw [decimal_head h, decimal_zero]
  · rintro ⟨hlead, rfl⟩
    exact (decimal_decimalValue hne hnumber hlead).symm

end CWebServer
