import Mathlib.Algebra.Group.Int.Defs
import Mathlib.Algebra.Group.Nat.Defs
import CWebServer.Lib.Scan

/-!
# Strings

`S8` is a byte pointer with a size. The pointer is `NULL`, points to a string
literal, or points into the bytes the function was handed (`d` below).
-/

namespace CWebServer

def chr (c : Char) : UInt8 := c.toNat.toUInt8

/-- The bytes of an ASCII string literal. -/
def s8 (lit : String) : List UInt8 := lit.toList.map chr

def wrap64 (n : Int) : Nat := (n % 2 ^ 64).toNat

theorem wrap64_of_lt {n : Nat} (h : n < 2 ^ 64) : wrap64 n = n := by
  unfold wrap64
  omega

theorem wrap64_succ {n : Nat} (h : n + 1 < 2 ^ 64) : wrap64 (n + 1 : Int) = n + 1 := wrap64_of_lt h

inductive S8
  | null
  | lit (text : List UInt8)
  | slice (start size : Nat)
  deriving DecidableEq, Repr

def S8.bytes (d : List UInt8) : S8 → List UInt8
  | .null => []
  | .lit text => text
  | .slice start size => (d.drop start).take size

@[simp] theorem bytes_null (d : List UInt8) : S8.null.bytes d = [] := rfl

@[simp] theorem bytes_lit (d text : List UInt8) : (S8.lit text).bytes d = text := rfl

@[simp] theorem bytes_slice (d : List UInt8) (start size : Nat) :
    (S8.slice start size).bytes d = (d.drop start).take size := rfl

def strIsSpacingChar (c : UInt8) : Bool := c == chr ' ' || c == chr '\t' || c == chr '\x0b' || c == chr '\x0c'

def strIsEndOfLineChar (c : UInt8) : Bool := c == chr '\n' || c == chr '\r'

def strIsNumberChar (c : UInt8) : Bool := chr '0' ≤ c && c ≤ chr '9'

/-- What the source calls so is the greatest `i32`. -/
def u32Max : Nat := 0x7FFFFFFF

def parseU32Loop : List UInt8 → Nat → Nat → Nat × Nat
  | [], out, idx => (out, idx)
  | numChar :: str, out, idx =>
    if strIsNumberChar numChar then
      let out := out * 10 + (numChar.toNat - 48)
      if u32Max ≤ out then (u32Max, idx) else parseU32Loop str out (idx + 1)
    else (out, idx)

/-- The number and the index where it ends. -/
def strParseU32N (str : List UInt8) : Nat × Nat := parseU32Loop str 0 0

def strParseU32 (str : List UInt8) : Nat := (strParseU32N str).1

def appendDigit (out : Nat) (c : UInt8) : Nat := out * 10 + (c.toNat - 48)

def decimalValue (digits : List UInt8) : Nat := digits.foldl appendDigit 0

def strIsEqual (left right : List UInt8) : Bool :=
  if left.length ≠ right.length then false else (left.zip right).all fun p => p.1 == p.2

def isWhite (c : UInt8) : Bool := strIsSpacingChar c || strIsEndOfLineChar c

/-- `str.size -= 1, str.content += 1` as long as the first byte is white. -/
def skipLoop (d : List UInt8) : Nat → Nat → S8
  | start, 0 => .slice start 0
  | start, size + 1 =>
    match d[start]? with
    | some c => if isWhite c then skipLoop d (start + 1) size else .slice start (size + 1)
    | none => .slice start (size + 1)

def strSkipWhiteSpace (d : List UInt8) : S8 → S8
  | .null => .null
  | .lit text => .lit (text.dropWhile isWhite)
  | .slice start size => skipLoop d start size

theorem le_foldl_appendDigit (digits : List UInt8) (out : Nat) : out ≤ digits.foldl appendDigit out := by
  induction digits generalizing out with
  | nil => exact Nat.le_refl out
  | cons c digits ih =>
    apply Nat.le_trans _ (ih (appendDigit out c))
    unfold appendDigit
    omega

theorem strIsEqual_iff {left right : List UInt8} : strIsEqual left right = true ↔ left = right := by
  unfold strIsEqual
  split
  · rename_i h
    refine ⟨fun h => (by cases h), ?_⟩
    rintro rfl; exact absurd rfl h
  · rename_i h
    rw [not_not] at h
    induction left generalizing right with
    | nil => cases right with
      | nil => simp
      | cons _ _ => simp at h
    | cons a l ih => cases right with
      | nil => simp at h
      | cons b r =>
        simp only [List.length_cons, Nat.add_right_cancel_iff] at h
        simp only [List.zip_cons_cons, List.all_cons, Bool.and_eq_true, beq_iff_eq, ih h, List.cons.injEq]

theorem bytes_skipLoop (d : List UInt8) (start size : Nat) :
    (skipLoop d start size).bytes d = ((d.drop start).take size).dropWhile isWhite := by
  induction size generalizing start with
  | zero => simp [skipLoop, S8.bytes]
  | succ size ih =>
    unfold skipLoop
    split
    · rename_i c hc
      obtain ⟨hlt, hc⟩ := List.getElem?_eq_some_iff.mp hc
      have hd : (d.drop start).take (size + 1) = c :: (d.drop (start + 1)).take size := by
        rw [List.drop_eq_getElem_cons hlt, List.take_succ_cons, hc]
      rw [hd]
      split
      · rename_i hw; rw [ih, List.dropWhile_cons_of_pos hw]
      · rename_i hw; rw [List.dropWhile_cons_of_neg hw, S8.bytes, hd]
    · rename_i hn
      simp [S8.bytes, List.drop_eq_nil_of_le (List.getElem?_eq_none_iff.mp hn)]

theorem bytes_strSkipWhiteSpace (d : List UInt8) (s : S8) :
    (strSkipWhiteSpace d s).bytes d = (s.bytes d).dropWhile isWhite := by
  cases s with
  | null => rfl
  | lit text => rfl
  | slice start size => exact bytes_skipLoop d start size

/-! ## Searching and slicing -/

/-- The index as an `i64`. -/
def strFindChar (str : List UInt8) (c : UInt8) : Int :=
  match str.findIdx? (· == c) with
  | some idx => idx
  | none => -1

/-- The inner loop compares `str` with itself, so that the outer one returns in its first turn. -/
def strFind (str findExp : List UInt8) : Int := if findExp.length < str.length then 0 else -1

def strStartsWithChar (str : List UInt8) (startChar : UInt8) : Bool :=
  match str with
  | [] => false
  | c :: _ => c == startChar

def strHasPrefix (str start : List UInt8) : Bool :=
  if str.length < start.length then false else (str.zip start).all fun p => p.1 == p.2

def strSubStr (str : List UInt8) (start size : Nat) : List UInt8 :=
  if str.length = 0 then str
  else if str.length ≤ start then []
  else (str.drop start).take (min (str.length - start) size)

def strFrom (str : List UInt8) (start : Nat) : List UInt8 :=
  if str.length ≤ start then [] else str.drop (min (str.length - 1) start)

theorem strFindChar_of_notMem {str : List UInt8} {c : UInt8} (h : c ∉ str) : strFindChar str c = -1 := by
  have hnone : str.findIdx? (· == c) = none := by
    apply List.findIdx?_eq_none_iff.mpr
    intro b hb
    rw [beq_eq_false_iff_ne]
    rintro rfl
    exact h hb
  unfold strFindChar
  rw [hnone]

theorem strFindChar_append {a b : List UInt8} {c : UInt8} (h : c ∉ a) : strFindChar (a ++ c :: b) c = a.length := by
  have hsome : (a ++ c :: b).findIdx? (· == c) = some a.length := by
    induction a with
    | nil => simp [List.findIdx?_cons]
    | cons d a ih =>
      obtain ⟨hd, ha⟩ := not_or.mp (List.mem_cons.not.mp h)
      have hne : (d == c) = false := beq_eq_false_iff_ne.mpr (Ne.symm hd)
      simp [List.findIdx?_cons, hne, ih ha]
  unfold strFindChar
  rw [hsome]

theorem strSubStr_eq (str : List UInt8) (start size : Nat) : strSubStr str start size = (str.drop start).take size := by
  unfold strSubStr
  by_cases h0 : str.length = 0
  · rw [if_pos h0, List.length_eq_zero_iff.mp h0]
    simp
  · rw [if_neg h0]
    by_cases hle : str.length ≤ start
    · rw [if_pos hle, List.drop_eq_nil_of_le hle]
      simp
    · rw [if_neg hle, ← List.length_drop, min_comm, ← List.take_eq_take_min]

theorem strSubStr_append (a b : List UInt8) : strSubStr (a ++ b) 0 a.length = a := by
  rw [strSubStr_eq, List.drop_zero, List.take_left]

theorem strSubStr_drop {str : List UInt8} {start size : Nat} (h : str.length ≤ start + size) :
    strSubStr str start size = str.drop start := by
  rw [strSubStr_eq]
  apply List.take_of_length_le
  rw [List.length_drop]
  omega

theorem strFrom_eq (str : List UInt8) (start : Nat) : strFrom str start = str.drop start := by
  unfold strFrom
  by_cases hle : str.length ≤ start
  · rw [if_pos hle, List.drop_eq_nil_of_le hle]
  · rw [if_neg hle, Nat.min_eq_right (by omega)]

theorem strHasPrefix_append (start rest : List UInt8) : strHasPrefix (start ++ rest) start = true := by
  unfold strHasPrefix
  rw [if_neg (by simp)]
  induction start with
  | nil => simp
  | cons c start ih =>
    simp only [List.cons_append, List.zip_cons_cons, List.all_cons, beq_self_eq_true, Bool.true_and]
    exact ih

end CWebServer
