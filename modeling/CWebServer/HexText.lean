import CWebServer.JoinSound
import CWebServer.Wide

/-!
# Hexadecimal numerals

`str_u32ToHex` takes a digit from each shift of its value. It leaves out those
before the first shift that is not zero.
-/

namespace CWebServer

def hexDigits : List UInt8 := s8 "0123456789ABCDEF"

/-- Its turns are counted down from `hexLen`. `none` is a write behind `strTmp`. -/
def hexLoop (value : UInt32) : Nat → UInt32 → Nat → List UInt8 → Option (Nat × List UInt8)
  | 0, _, i, strTmp => some (i, strTmp)
  | f + 1, j, i, strTmp =>
    let digitIdx := value >>> j
    if i = 0 ∧ digitIdx = 0 then hexLoop value f (j - 4) i strTmp
    else do
      let c ← hexDigits[((value >>> j) &&& 0x0f).toNat]?
      let strTmp ← writeUnits strTmp i [c]
      hexLoop value f (j - 4) (i + 1) strTmp

/-- `stale` is what `strTmp` holds before. -/
def strU32ToHex (stale : Nat → UInt8) (arena : Arena) (value : UInt32) : Option (S8 × Arena) := do
  let hexLen := 4 <<< 1
  let strTmp := (List.range (4 <<< 1)).map stale
  let c ← hexDigits[0]?
  let strTmp ← writeUnits strTmp 0 [c]
  let (i, strTmp) ← hexLoop value hexLen ((hexLen.toUInt32 - 1) * 4) 0 strTmp
  let raw := strTmp.take (if i = 0 then 1 else i)
  strJoinVargs arena [.str (s8 "0x"), .str raw]

/-! ## The numeral -/

/-- In capital letters. -/
def hexDigit (n : Nat) : UInt8 := chr (Nat.digitChar n).toUpper

def hexNumeral (n : Nat) : List UInt8 := (Nat.toDigits 16 n).map fun c => chr c.toUpper

def hexValue (text : List UInt8) : Nat := text.foldl (fun n c => n * 16 + hexDigits.idxOf c) 0

theorem hexDigits_get : ∀ n < 16, hexDigits[n]? = some (hexDigit n) := by decide

theorem idxOf_hexDigit : ∀ n < 16, hexDigits.idxOf (hexDigit n) = n := by decide

theorem hexNumeral_of_lt {n : Nat} (h : n < 16) : hexNumeral n = [hexDigit n] := by
  unfold hexNumeral hexDigit
  rw [Nat.toDigits_of_lt_base h, List.map_singleton]

theorem hexNumeral_of_ge {n : Nat} (h : 16 ≤ n) : hexNumeral n = hexNumeral (n / 16) ++ [hexDigit (n % 16)] := by
  unfold hexNumeral hexDigit
  rw [Nat.toDigits_of_base_le (by decide) h, List.map_append, List.map_singleton]

theorem hexNumeral_ne_nil (n : Nat) : hexNumeral n ≠ [] := by
  intro h
  exact Nat.toDigits_ne_nil (List.map_eq_nil_iff.mp h)

/-- Over one digit, and over one more digit behind a numeral. -/
theorem hexNumeral_induction {motive : Nat → List UInt8 → Prop} (digit : ∀ d < 16, motive d [hexDigit d])
    (more : ∀ n ≥ 16, motive (n / 16) (hexNumeral (n / 16)) → motive n (hexNumeral (n / 16) ++ [hexDigit (n % 16)]))
    (n : Nat) : motive n (hexNumeral n) := by
  induction n using Nat.strongRecOn with
  | _ n ih =>
    by_cases h : n < 16
    · rw [hexNumeral_of_lt h]
      exact digit n h
    · rw [hexNumeral_of_ge (by omega)]
      exact more n (by omega) (ih (n / 16) (by omega))

theorem hexValue_append (text : List UInt8) (c : UInt8) :
    hexValue (text ++ [c]) = hexValue text * 16 + hexDigits.idxOf c := by
  unfold hexValue
  rw [List.foldl_append, List.foldl_cons, List.foldl_nil]

theorem hexValue_hexNumeral (n : Nat) : hexValue (hexNumeral n) = n := by
  apply hexNumeral_induction (motive := fun n text => hexValue text = n)
  · intro d hd
    rw [← List.nil_append [hexDigit d], hexValue_append, idxOf_hexDigit d hd]
    exact Nat.zero_add d
  · intro n _ ih
    rw [hexValue_append, ih, idxOf_hexDigit _ (Nat.mod_lt n (by decide))]
    omega

theorem hexDigit_ne_zero : ∀ n < 16, n ≠ 0 → hexDigit n ≠ hexDigit 0 := by decide

theorem head_hexNumeral_ne {n : Nat} : n ≠ 0 → (hexNumeral n).head? ≠ some (hexDigit 0) := by
  apply hexNumeral_induction (motive := fun n text => n ≠ 0 → text.head? ≠ some (hexDigit 0))
  · intro d hd hne hhead
    exact hexDigit_ne_zero d hd hne (Option.some.inj hhead)
  · intro n hge ih _
    rw [List.head?_append_of_ne_nil _ (hexNumeral_ne_nil _)]
    exact ih (by omega)

theorem mem_hexDigits_of_mem (n : Nat) : ∀ c ∈ hexNumeral n, c ∈ hexDigits := by
  have hdigit : ∀ d < 16, hexDigit d ∈ hexDigits := fun d hd => List.mem_of_getElem? (hexDigits_get d hd)
  apply hexNumeral_induction (motive := fun _ text => ∀ c ∈ text, c ∈ hexDigits)
  · intro d hd c hc
    rw [List.mem_singleton.mp hc]
    exact hdigit d hd
  · intro n _ ih c hc
    rcases List.mem_append.mp hc with hc | hc
    · exact ih c hc
    · rw [List.mem_singleton.mp hc]
      exact hdigit _ (Nat.mod_lt n (by decide))

/-- Digits that are read as `n`, the first of which is a zero only if it is the last. -/
structure IsNumeral (n : Nat) (text : List UInt8) : Prop where
  digits : ∀ c ∈ text, c ∈ hexDigits
  ne_nil : text ≠ []
  value : hexValue text = n
  head : text.head? = some (hexDigit 0) → text = s8 "0"

theorem isNumeral_hexNumeral (n : Nat) : IsNumeral n (hexNumeral n) where
  digits := mem_hexDigits_of_mem n
  ne_nil := hexNumeral_ne_nil n
  value := hexValue_hexNumeral n
  head := by
    intro hhead
    by_cases h : n = 0
    · rw [h]
      rfl
    · exact absurd hhead (head_hexNumeral_ne h)

/-! ## The loop -/

/-- The digits that are written of the shifted value. -/
def hexText (n : Nat) : List UInt8 := if n = 0 then [] else hexNumeral n

theorem hexText_succ {n : Nat} (h : n ≠ 0) : hexText n = hexText (n / 16) ++ [hexDigit (n % 16)] := by
  unfold hexText
  rw [if_neg h]
  by_cases hlt : n < 16
  · rw [if_pos (Nat.div_eq_of_lt hlt), hexNumeral_of_lt hlt, Nat.mod_eq_of_lt hlt, List.nil_append]
  · rw [if_neg (by omega), hexNumeral_of_ge (by omega)]

theorem length_hexText_eq_zero {n : Nat} : (hexText n).length = 0 ↔ n = 0 := by
  unfold hexText
  split
  · simp [*]
  · simp [*, hexNumeral_ne_nil]

section
variable {value j : UInt32} {t : Nat}

theorem toNat_shift (ht : t < 8) (hj : j.toNat = 4 * t) : (value >>> j).toNat = value.toNat / 16 ^ t := by
  have hshift : j.toNat % 32 = 4 * t := by omega
  rw [UInt32.toNat_shiftRight, hshift, Nat.shiftRight_eq_div_pow, Nat.pow_mul]

theorem toNat_nibble (ht : t < 8) (hj : j.toNat = 4 * t) :
    ((value >>> j) &&& 0x0f).toNat = value.toNat / 16 ^ t % 16 := by
  rw [UInt32.toNat_and, toNat_shift ht hj]
  exact Nat.and_two_pow_sub_one_eq_mod _ 4

end

/-- What stands in front of the last `turns` nibbles is written. -/
structure HexWritten (value : UInt32) (turns i : Nat) (strTmp : List UInt8) : Prop where
  length : i = (hexText (value.toNat / 16 ^ turns)).length
  text : strTmp.take i = hexText (value.toNat / 16 ^ turns)
  room : i + turns ≤ strTmp.length

/-- A turn writes the next nibble, or leaves out a leading zero. -/
theorem hexLoop_step {value j : UInt32} {t i : Nat} {strTmp : List UInt8} (h : HexWritten value (t + 1) i strTmp)
    (ht : t < 8) (hj : j.toNat = 4 * t) :
    ∃ i' strTmp', hexLoop value (t + 1) j i strTmp = hexLoop value t (j - 4) i' strTmp' ∧
      HexWritten value t i' strTmp' := by
  obtain ⟨hlength, htext, hroom⟩ := h
  have hshift : (value >>> j).toNat = value.toNat / 16 ^ t := toNat_shift ht hj
  have hdiv : value.toNat / 16 ^ (t + 1) = value.toNat / 16 ^ t / 16 := by
    rw [Nat.pow_succ, Nat.div_div_eq_div_mul]
  have hskip : (i = 0 ∧ value >>> j = 0) ↔ value.toNat / 16 ^ t = 0 := by
    rw [hlength, length_hexText_eq_zero, hdiv, ← UInt32.toNat_inj, hshift]
    constructor
    · intro h
      exact h.2
    · intro h
      exact ⟨by rw [h], h⟩
  rw [hdiv] at hlength htext
  rw [hexLoop]
  by_cases hzero : value.toNat / 16 ^ t = 0
  · rw [if_pos (hskip.mpr hzero)]
    rw [hzero] at hlength htext
    exact ⟨i, strTmp, rfl, by rw [hlength, hzero], by rw [htext, hzero], by omega⟩
  · rw [if_neg (fun h => hzero (hskip.mp h)), toNat_nibble ht hj, hexDigits_get _ (Nat.mod_lt _ (by decide))]
    have hfit : i + [hexDigit (value.toNat / 16 ^ t % 16)].length ≤ strTmp.length := by
      rw [List.length_singleton]
      omega
    obtain ⟨next, hwrite, hlen⟩ := writeUnits_some hfit
    refine ⟨i + 1, next, ?_, ?_, ?_, by omega⟩
    · simp only [Option.bind_eq_bind, Option.bind_some, hwrite]
    · rw [hexText_succ hzero, List.length_append, ← hlength, List.length_singleton]
    · rw [hexText_succ hzero, ← htext]
      exact take_writeUnits hwrite

theorem hexLoop_eq {value : UInt32} {turns i : Nat} {j : UInt32} {strTmp : List UInt8}
    (h : HexWritten value turns i strTmp) (hturns : turns ≤ 8) (hj : ∀ t, turns = t + 1 → j.toNat = 4 * t) :
    ∃ i' strTmp', hexLoop value turns j i strTmp = some (i', strTmp') ∧ HexWritten value 0 i' strTmp' := by
  induction turns generalizing i j strTmp with
  | zero => exact ⟨i, strTmp, rfl, h⟩
  | succ t ih =>
    obtain ⟨i', strTmp', hstep, hwritten⟩ := hexLoop_step h hturns (hj t rfl)
    rw [hstep]
    apply ih hwritten (Nat.le_of_lt hturns)
    intro t' ht'
    have hjt := hj t rfl
    have hle : (4 : UInt32).toNat ≤ j.toNat := by
      rw [hjt, ht']
      exact Nat.le_add_left 4 (4 * t')
    rw [UInt32.toNat_sub_of_le _ _ (UInt32.le_iff_toNat_le.mpr hle), hjt, ht']
    exact Nat.add_sub_cancel (4 * t') 4

theorem hexLoop_zero (turns : Nat) (j : UInt32) (strTmp : List UInt8) :
    hexLoop 0 turns j 0 strTmp = some (0, strTmp) := by
  induction turns generalizing j with
  | zero => rfl
  | succ t ih =>
    rw [hexLoop, if_pos ⟨rfl, UInt32.zero_shiftRight⟩]
    exact ih (j - 4)

theorem strU32ToHex_eq (stale : Nat → UInt8) (arena : Arena) (value : UInt32) :
    strU32ToHex stale arena value = strJoinVargs arena [.str (s8 "0x"), .str (hexNumeral value.toNat)] := by
  have hfit : 0 + [hexDigit 0].length ≤ ((List.range (4 <<< 1)).map stale).length := by simp
  obtain ⟨strTmp, hwrite, hlen⟩ := writeUnits_some hfit
  have htake := take_writeUnits hwrite
  rw [List.length_map, List.length_range] at hlen
  unfold strU32ToHex
  simp only [hexDigits_get 0 (by decide), Option.bind_eq_bind, Option.bind_some, hwrite]
  by_cases hzero : value = 0
  · rw [hzero, hexLoop_zero, Option.bind_some, if_pos rfl]
    rw [show strTmp.take 1 = [hexDigit 0] from htake]
    rfl
  · have hne : value.toNat ≠ 0 := fun h => hzero (UInt32.toNat_inj.mp h)
    have hnone : value.toNat / 16 ^ 8 = 0 := Nat.div_eq_of_lt value.toNat_lt
    have hempty : hexText (value.toNat / 16 ^ 8) = [] := by rw [hnone, hexText, if_pos rfl]
    have hstart : HexWritten value 8 0 strTmp :=
      ⟨by rw [hempty, List.length_nil], by rw [hempty, List.take_zero], by omega⟩
    have hj : ∀ t, 8 = t + 1 → (((4 <<< 1 : Nat).toUInt32 - 1) * 4).toNat = 4 * t := by
      intro t ht
      obtain rfl : t = 7 := by omega
      rfl
    obtain ⟨i, strTmp', hloop, hlength, htext, -⟩ := hexLoop_eq hstart (Nat.le_refl 8) hj
    rw [Nat.pow_zero, Nat.div_one] at hlength htext
    have hi : i ≠ 0 := fun h => hne (length_hexText_eq_zero.mp (hlength ▸ h))
    have hhexLen : 4 <<< 1 = 8 := rfl
    rw [hhexLen] at hloop ⊢
    rw [hloop, Option.bind_some, if_neg hi, htext, hexText, if_neg hne]

theorem strU32ToHex_spec (stale : Nat → UInt8) {arena : Arena} {value : UInt32}
    (h : HasRoom arena (s8 "0x" ++ hexNumeral value.toNat).length) :
    ∃ str arena', strU32ToHex stale arena value = some (str, arena') ∧
      Returns arena' str (s8 "0x" ++ hexNumeral value.toNat) ∧ IsNumeral value.toNat (hexNumeral value.toNat) := by
  have htext : argsText [.str (s8 "0x"), .str (hexNumeral value.toNat)] = s8 "0x" ++ hexNumeral value.toNat := by
    simp [argsText, PlainValue.render]
  have hpeak : argsPeak [.str (s8 "0x"), .str (hexNumeral value.toNat)] =
      (s8 "0x" ++ hexNumeral value.toNat).length := by
    simp [argsPeak, PlainValue.peak, PlainValue.render]
  obtain ⟨arena', hjoin, hmemory, -⟩ :=
    strRecord_spec (writes_args [.str (s8 "0x"), .str (hexNumeral value.toNat)]) (hpeak ▸ h)
  rw [htext] at hjoin hmemory
  refine ⟨_, arena', (strU32ToHex_eq stale arena value).trans hjoin, returns_recorded ?_, isNumeral_hexNumeral _⟩
  rw [hmemory]
  exact Memory.read_write ..

theorem strU32ToHex_spec_inner_zero :
    ∃ str arena', strU32ToHex (fun _ => 0) (memMakeArenaPreAllocated (fun _ => 0) 256) 0x1A0B = some (str, arena') ∧
      Returns arena' str (s8 "0x1A0B") ∧ IsNumeral 0x1A0B (s8 "1A0B") :=
  strU32ToHex_spec _ ⟨Int.le_refl _, Nat.le_refl _, by decide, by decide⟩

end CWebServer
