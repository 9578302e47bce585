import CWebServer.Numerals

/-!
# Reading unsigned numbers

`str_parseU32N` stops at `u32_max`, which is the greatest `i32`. So it reads
exactly the numbers below that one.
-/

namespace CWebServer

/-! ## The loop -/

theorem parseU32Loop_number {c : UInt8} (hc : strIsNumberChar c = true) (str : List UInt8) (out idx : Nat) :
    parseU32Loop (c :: str) out idx =
      if u32Max ≤ appendDigit out c then (u32Max, idx) else parseU32Loop str (appendDigit out c) (idx + 1) := by
  rw [parseU32Loop, if_pos hc]
  rfl

theorem parseU32Loop_lt {str : List UInt8} {out : Nat}
    (hlt : (str.takeWhile strIsNumberChar).foldl appendDigit out < u32Max) (idx : Nat) :
    parseU32Loop str out idx =
      ((str.takeWhile strIsNumberChar).foldl appendDigit out, idx + (str.takeWhile strIsNumberChar).length) := by
  induction str generalizing out idx with
  | nil => rfl
  | cons c str ih =>
    by_cases hc : strIsNumberChar c = true
    · rw [List.takeWhile_cons_of_pos hc, List.foldl_cons] at hlt ⊢
      have hbelow : appendDigit out c < u32Max := Nat.lt_of_le_of_lt (le_foldl_appendDigit _ _) hlt
      rw [parseU32Loop_number hc, if_neg (Nat.not_le.mpr hbelow), ih hlt, List.length_cons, Nat.add_right_comm,
        Nat.add_assoc]
    · rw [List.takeWhile_cons_of_neg hc, parseU32Loop, if_neg hc]
      rfl

/-- At the limit the loop stops on a digit. -/
theorem parseU32Loop_ge {str : List UInt8} {out : Nat} (hout : out < u32Max)
    (hge : u32Max ≤ (str.takeWhile strIsNumberChar).foldl appendDigit out) (idx : Nat) :
    (parseU32Loop str out idx).1 = u32Max ∧
      (parseU32Loop str out idx).2 < idx + (str.takeWhile strIsNumberChar).length := by
  induction str generalizing out idx with
  | nil => exact absurd hge (Nat.not_le.mpr hout)
  | cons c str ih =>
    by_cases hc : strIsNumberChar c = true
    · rw [List.takeWhile_cons_of_pos hc, List.foldl_cons] at hge
      rw [List.takeWhile_cons_of_pos hc, List.length_cons, parseU32Loop_number hc]
      by_cases hover : u32Max ≤ appendDigit out c
      · rw [if_pos hover]
        exact ⟨rfl, by dsimp only; omega⟩
      · rw [if_neg hover]
        obtain ⟨hu, hoff⟩ := ih (Nat.not_le.mp hover) hge (idx + 1)
        exact ⟨hu, by omega⟩
    · rw [List.takeWhile_cons_of_neg hc] at hge
      exact absurd hge (Nat.not_le.mpr hout)

/-! ## The parser -/

/-- The number of the digits at the start, or the greatest `u32`, and how many there are. -/
def ParsesU32 (t : List UInt8) : Prop :=
  let digits := t.takeWhile strIsNumberChar
  (strParseU32N t).1 = min (decimalValue digits) 4294967295 ∧
    (decimalValue digits ≤ 4294967295 → (strParseU32N t).2 = digits.length)

theorem parsesU32_iff (t : List UInt8) : ParsesU32 t ↔ decimalValue (t.takeWhile strIsNumberChar) < u32Max := by
  unfold ParsesU32 strParseU32N decimalValue
  constructor
  · rintro ⟨hu, hoff⟩
    by_contra hge
    obtain ⟨hmax, hlt⟩ := parseU32Loop_ge (by decide) (Nat.not_lt.mp hge) 0
    rw [hmax, u32Max] at hu
    rw [hoff (by omega), Nat.zero_add] at hlt
    exact Nat.lt_irrefl _ hlt
  · intro hlt
    rw [parseU32Loop_lt hlt, Nat.zero_add]
    rw [u32Max] at hlt
    exact ⟨(Nat.min_eq_left (by omega)).symm, fun _ => rfl⟩

theorem not_parsesU32 : ¬ ParsesU32 (s8 "4294967295") := by
  rintro ⟨hu, -⟩
  revert hu
  decide

theorem takeWhile_decimal (n : Nat) : (decimal n).takeWhile strIsNumberChar = decimal n :=
  List.takeWhile_eq_self_iff.mpr (decimal_number n)

theorem strParseU32_decimal (n : Nat) : strParseU32 (decimal n) = n ↔ n ≤ u32Max := by
  have hvalue : ((decimal n).takeWhile strIsNumberChar).foldl appendDigit 0 = n := by
    rw [takeWhile_decimal]
    exact decimalValue_decimal n
  unfold strParseU32 strParseU32N
  rcases Nat.lt_or_ge n u32Max with hlt | hge
  · rw [parseU32Loop_lt (hvalue.symm ▸ hlt), hvalue]
    exact iff_of_true rfl (Nat.le_of_lt hlt)
  · rw [(parseU32Loop_ge (by decide) (hvalue.symm ▸ hge) 0).1]
    omega

end CWebServer
