import CWebServer.Lib.Occurrences
import CWebServer.Str

/-!
# Finding strings in strings

`str_find`, `str_findFirst`, `str_findLast` and `str_containsSubStringCount`
against the occurrences of a search string, and exactly where they agree with
them.
-/

namespace CWebServer

open Occurrences (OccursAt FirstFrom LastFrom count)

/-! ## The searches -/

/-- The inner loop of `str_find` at `fi`, for at most as many turns: where it ends. It compares `str` with itself. -/
def strFindInner (str : List UInt8) (idx : Nat) : Nat → Nat → Option Nat
  | 0, _ => none
  | turns + 1, fi => do
    let a ← str[idx + fi]?
    let b ← str[fi]?
    if a ≠ b then strFindInner str idx turns (fi + 1) else some fi

/-- `strFind` with its reads, `none` for one behind the string. The outer loop returns in its first turn. -/
def strFindReads (str findExp : List UInt8) : Option Int :=
  if 0 + findExp.length < str.length then (strFindInner str 0 str.length 0).map fun _ => 0 else some (-1)

/-- The test of one turn. `c` is signed and the bytes of `str` are not. -/
def findHit (str findStr : List UInt8) (i : Nat) : Bool :=
  let c := (findStr.headD 0).toInt8
  ((str.getD i 0).toNat : Int) = c.toInt ∧ findStr.length ≤ str.length - i ∧
    strIsEqual ((str.drop i).take findStr.length) findStr

/-- The loop of `str_findFirst`, for at most as many turns. -/
def findFirstLoop (str findStr : List UInt8) : Nat → Nat → Nat
  | 0, i => i
  | turns + 1, i => if findHit str findStr i then i else findFirstLoop str findStr turns (i + 1)

def strFindFirst (str findStr : List UInt8) (offset : Nat) : Nat :=
  if 0 < findStr.length then
    if findStr.length ≤ str.length then
      let onePastLast := str.length - findStr.length + 1
      let i := findFirstLoop str findStr (onePastLast - offset) offset
      if i = onePastLast then str.length else i
    else str.length
  else 0

/-- The loop of `str_findLast`, which leaves out index 0. -/
def findLastLoop (str findStr : List UInt8) (notFoundReturn : Nat) : Nat → Nat
  | 0 => notFoundReturn
  | idx + 1 =>
    if strIsEqual (strSubStr str (idx + 1) findStr.length) findStr then idx + 1
    else findLastLoop str findStr notFoundReturn idx

/-- The index is a `u32`, and counts from `offset`. -/
def strFindLast (str findStr : List UInt8) (offset : Nat) : Nat :=
  if str.length < wrap64 (findStr.length + offset) then str.length
  else
    let notFoundReturn := str.length
    let str := strFrom str offset
    findLastLoop str findStr notFoundReturn (((str.length : Int) - findStr.length) % 2 ^ 32).toNat

/-- The loop of `str_containsSubStringCount`, for at most as many turns. -/
def countLoop (str findStr : List UInt8) : Nat → Nat → Nat → Option Nat
  | 0, _, _ => none
  | turns + 1, ct, idx =>
    let idx := strFindFirst str findStr idx
    if idx = str.length then some ct else countLoop str findStr turns (ct + 1) (idx + 1)

def strContainsSubStringCount (turns : Nat) (str findStr : List UInt8) : Option Nat := countLoop str findStr turns 0 0

/-! ## `str_find` -/

theorem strFindReads_eq (str findExp : List UInt8) : strFindReads str findExp = some (strFind str findExp) := by
  unfold strFindReads strFind
  rw [Nat.zero_add]
  by_cases h : findExp.length < str.length
  · rw [if_pos h, if_pos h]
    cases str with
    | nil => cases h
    | cons c str => simp [strFindInner]
  · rw [if_neg h, if_neg h]

/-- The first occurrence or -1, without a read behind either string. -/
def FindsExp (str findExp : List UInt8) : Prop :=
  ∃ i, strFindReads str findExp = some i ∧
    ((∃ n : Nat, i = n ∧ OccursAt findExp str n ∧ ∀ m < n, ¬ OccursAt findExp str m) ∨
      (i = -1 ∧ ∀ n, ¬ OccursAt findExp str n))

theorem findsExp_iff {findExp : List UInt8} (hf : findExp ≠ []) (str : List UInt8) :
    FindsExp str findExp ↔ if findExp.length < str.length then findExp <+: str else findExp ≠ str := by
  unfold FindsExp
  rw [strFindReads_eq, strFind]
  by_cases h : findExp.length < str.length
  · rw [if_pos h, if_pos h]
    constructor
    · rintro ⟨i, hi, ⟨n, hn, hocc, -⟩ | ⟨hneg, -⟩⟩
      · rw [← Option.some.inj hi] at hn
        rw [← Int.natCast_inj.mp hn] at hocc
        exact hocc
      · rw [← Option.some.inj hi] at hneg
        cases hneg
    · intro hprefix
      exact ⟨0, rfl, Or.inl ⟨0, rfl, hprefix, fun m hm => absurd hm (Nat.not_lt_zero m)⟩⟩
  · rw [if_neg h, if_neg h]
    constructor
    · rintro ⟨i, hi, ⟨n, hn, -⟩ | ⟨-, hnone⟩⟩ heq
      · rw [← Option.some.inj hi] at hn
        omega
      · exact hnone 0 (heq ▸ List.prefix_refl _)
    · intro hne
      refine ⟨-1, rfl, Or.inr ⟨rfl, fun n hn => ?_⟩⟩
      have hle := hn.le hf
      obtain rfl : n = 0 := by omega
      exact hne (hn.eq_of_length (by rw [List.drop_zero]; omega))

theorem findsExp_iff_first : FindsExp (s8 "ab") (s8 "a") ↔
    if (s8 "a").length < (s8 "ab").length then s8 "a" <+: s8 "ab" else s8 "a" ≠ s8 "ab" :=
  findsExp_iff (by decide) (s8 "ab")

theorem not_findsExp : ¬ FindsExp (s8 "ab") (s8 "b") := by
  rintro ⟨i, hi, ⟨n, hn, hocc, -⟩ | ⟨hneg, -⟩⟩
  · have hzero : (0 : Int) = i := Option.some.inj hi
    obtain rfl : n = 0 := by omega
    revert hocc
    decide
  · rw [hneg] at hi
    revert hi
    decide

/-! ## `str_findFirst` -/

theorem signed_eq_iff (a b : UInt8) : (a.toNat : Int) = b.toInt8.toInt ↔ a = b ∧ b < 128 := by
  have ha := a.toNat_lt
  have hb := b.toNat_lt
  have hval : b.toInt8.toInt = if 2 * b.toNat < 2 ^ 8 then (b.toNat : Int) else (b.toNat : Int) - (2 ^ 8 : Nat) := by
    rw [← Int8.toInt_toBitVec, UInt8.toBitVec_toInt8, BitVec.toInt_eq_toNat_cond, UInt8.toNat_toBitVec]
  have hlt : b < 128 ↔ b.toNat < 128 := UInt8.lt_iff_toNat_lt
  rw [hval, hlt, ← UInt8.toNat_inj]
  split <;> omega

theorem head_of_occursAt {str findStr : List UInt8} {i : Nat} (hf : findStr ≠ []) (h : OccursAt findStr str i) :
    str.getD i 0 = findStr.headD 0 := by
  obtain ⟨c, rest, rfl⟩ := List.exists_cons_of_ne_nil hf
  obtain ⟨t, ht⟩ := h
  have hget : (str.drop i)[0]? = some c := by rw [← ht]; rfl
  rw [List.getElem?_drop, Nat.add_zero] at hget
  rw [List.getD_eq_getElem?_getD, hget]
  rfl

theorem findHit_iff {str findStr : List UInt8} (hf : findStr ≠ []) (i : Nat) :
    findHit str findStr i = true ↔ findStr.headD 0 < 128 ∧ OccursAt findStr str i := by
  unfold findHit
  dsimp only
  rw [decide_eq_true_eq, signed_eq_iff, strIsEqual_iff, ← Occurrences.occursAt_iff_take]
  constructor
  · rintro ⟨⟨-, hascii⟩, -, hocc⟩
    exact ⟨hascii, hocc⟩
  · rintro ⟨hascii, hocc⟩
    have hle := hocc.le hf
    exact ⟨⟨head_of_occursAt hf hocc, hascii⟩, by omega, hocc⟩

theorem findFirstLoop_spec (str findStr : List UInt8) (turns i : Nat) :
    i ≤ findFirstLoop str findStr turns i ∧ findFirstLoop str findStr turns i ≤ i + turns ∧
      (findFirstLoop str findStr turns i < i + turns → findHit str findStr (findFirstLoop str findStr turns i)) ∧
      ∀ j, i ≤ j → j < findFirstLoop str findStr turns i → findHit str findStr j = false := by
  induction turns generalizing i with
  | zero => exact ⟨Nat.le_refl i, Nat.le_refl i, fun h => absurd h (Nat.lt_irrefl i), fun j hle hlt => by
      exact absurd hlt (Nat.not_lt.mpr hle)⟩
  | succ turns ih =>
    rw [findFirstLoop]
    by_cases hhit : findHit str findStr i
    · rw [if_pos hhit]
      exact ⟨Nat.le_refl i, Nat.le_add_right _ _, fun _ => hhit, fun j hle hlt => absurd hlt (Nat.not_lt.mpr hle)⟩
    · rw [if_neg hhit]
      obtain ⟨hge, hle, hend, hbefore⟩ := ih (i + 1)
      refine ⟨by omega, by omega, fun h => hend (by omega), fun j hj hlt => ?_⟩
      rcases Nat.eq_or_lt_of_le hj with rfl | hj
      · simpa using hhit
      · exact hbefore j hj hlt

section
variable {str findStr : List UInt8} {offset : Nat}

theorem strFindFirst_short (hf : findStr ≠ []) (h : str.length < findStr.length) :
    strFindFirst str findStr offset = str.length := by
  unfold strFindFirst
  rw [if_pos (List.length_pos_of_ne_nil hf), if_neg (Nat.not_le.mpr h)]

/-- Behind the last possible index the offset comes back. -/
theorem strFindFirst_late (hf : findStr ≠ []) (hle : findStr.length ≤ str.length)
    (h : str.length - findStr.length + 1 < offset) : strFindFirst str findStr offset = offset := by
  unfold strFindFirst
  rw [if_pos (List.length_pos_of_ne_nil hf), if_pos hle]
  dsimp only
  rw [Nat.sub_eq_zero_of_le (Nat.le_of_lt h)]
  exact if_neg (Nat.ne_of_gt h)

theorem strFindFirst_scan (hf : findStr ≠ []) (hle : findStr.length ≤ str.length)
    (h : offset ≤ str.length - findStr.length + 1) :
    (findHit str findStr (strFindFirst str findStr offset) = true ∧ offset ≤ strFindFirst str findStr offset ∧
      ∀ j, offset ≤ j → j < strFindFirst str findStr offset → findHit str findStr j = false) ∨
    (strFindFirst str findStr offset = str.length ∧
      ∀ j, offset ≤ j → findHit str findStr j = false) := by
  have hpos := List.length_pos_of_ne_nil hf
  have hmax : offset + (str.length - findStr.length + 1 - offset) = str.length - findStr.length + 1 := by omega
  obtain ⟨hge, hmost, hend, hbefore⟩ :=
    findFirstLoop_spec str findStr (str.length - findStr.length + 1 - offset) offset
  rw [hmax] at hmost hend
  unfold strFindFirst
  rw [if_pos hpos, if_pos hle]
  dsimp only
  split
  · rename_i hlast
    refine Or.inr ⟨rfl, fun j hj => ?_⟩
    by_cases hin : j < str.length - findStr.length + 1
    · exact hbefore j hj (by rw [hlast]; exact hin)
    · rw [Bool.eq_false_iff, ne_eq, findHit_iff hf]
      rintro ⟨-, hocc⟩
      have hend := hocc.le hf
      omega
  · rename_i hlast
    exact Or.inl ⟨hend (by omega), hge, hbefore⟩

end

def FindsFirst (str findStr : List UInt8) (offset : Nat) : Prop :=
  FirstFrom findStr str offset (strFindFirst str findStr offset)

theorem findsFirst_iff {findStr : List UInt8} (hf : findStr ≠ []) (str : List UInt8) (offset : Nat) :
    FindsFirst str findStr offset ↔
      (str.length < findStr.length ∨ offset ≤ str.length - findStr.length + 1 ∨ offset = str.length) ∧
        (findStr.headD 0 < 128 ∨ ∀ i, offset ≤ i → ¬ OccursAt findStr str i) := by
  have hpos := List.length_pos_of_ne_nil hf
  unfold FindsFirst FirstFrom
  rcases Nat.lt_or_ge str.length findStr.length with hshort | hle
  · have hnone : ∀ i, ¬ OccursAt findStr str i := fun i hi => by
      have := hi.le hf
      omega
    rw [strFindFirst_short hf hshort]
    exact ⟨fun _ => ⟨Or.inl hshort, Or.inr fun i _ => hnone i⟩, fun _ => Or.inr ⟨rfl, fun i _ => hnone i⟩⟩
  · rcases Nat.lt_or_ge (str.length - findStr.length + 1) offset with hlate | hin
    · have hnone : ∀ i, offset ≤ i → ¬ OccursAt findStr str i := fun i hi hocc => by
        have := hocc.le hf
        omega
      rw [strFindFirst_late hf hle hlate]
      constructor
      · rintro (⟨hocc, -⟩ | ⟨heq, -⟩)
        · exact absurd hocc (hnone offset (Nat.le_refl _))
        · exact ⟨Or.inr (Or.inr heq), Or.inr hnone⟩
      · rintro ⟨hshort | hin | heq, -⟩
        · omega
        · omega
        · exact Or.inr ⟨heq, hnone⟩
    · have hscan := strFindFirst_scan hf hle hin
      simp only [findHit_iff hf, ← Bool.not_eq_true] at hscan
      constructor
      · rintro (⟨hocc, hge, -⟩ | ⟨-, hnone⟩)
        · refine ⟨Or.inr (Or.inl hin), Or.inl ?_⟩
          rcases hscan with ⟨⟨hascii, -⟩, -⟩ | ⟨heq, -⟩
          · exact hascii
          · have := hocc.le hf
            omega
        · exact ⟨Or.inr (Or.inl hin), Or.inr hnone⟩
      · rintro ⟨-, hascii⟩
        rcases hscan with ⟨⟨hascii, hocc⟩, hge, hbefore⟩ | ⟨heq, hnone⟩
        · exact Or.inl ⟨hocc, hge, fun j hj hlt h => hbefore j hj hlt ⟨hascii, h⟩⟩
        · refine Or.inr ⟨heq, fun j hj hocc => ?_⟩
          rcases hascii with hascii | hno
          · exact hnone j hj ⟨hascii, hocc⟩
          · exact hno j hj hocc

theorem findsFirst_iff_ascii : FindsFirst (s8 "abab") (s8 "ab") 1 ↔
    ((s8 "abab").length < (s8 "ab").length ∨ 1 ≤ (s8 "abab").length - (s8 "ab").length + 1 ∨
        1 = (s8 "abab").length) ∧
      ((s8 "ab").headD 0 < 128 ∨ ∀ i, 1 ≤ i → ¬ OccursAt (s8 "ab") (s8 "abab") i) :=
  findsFirst_iff (by decide) (s8 "abab") 1

theorem not_findsFirst : ¬ FindsFirst [0xC3, 0xA9] [0xC3, 0xA9] 0 := by
  rintro (⟨hocc, -⟩ | ⟨-, hnone⟩)
  · revert hocc
    decide
  · exact hnone 0 (Nat.le_refl 0) (List.prefix_refl _)

/-! ## `str_findLast` -/

theorem findLastLoop_spec (str findStr : List UInt8) (notFoundReturn idx : Nat) :
    (∃ i, findLastLoop str findStr notFoundReturn idx = i ∧ 0 < i ∧ i ≤ idx ∧ OccursAt findStr str i ∧
        ∀ j, i < j → j ≤ idx → ¬ OccursAt findStr str j) ∨
      (findLastLoop str findStr notFoundReturn idx = notFoundReturn ∧
        ∀ j, 0 < j → j ≤ idx → ¬ OccursAt findStr str j) := by
  have hiff : ∀ i, strIsEqual (strSubStr str i findStr.length) findStr = true ↔ OccursAt findStr str i := fun i => by
    rw [strIsEqual_iff, strSubStr_eq, Occurrences.occursAt_iff_take]
  induction idx with
  | zero => exact Or.inr ⟨rfl, fun j hpos hle => absurd hpos (Nat.not_lt.mpr hle)⟩
  | succ idx ih =>
    rw [findLastLoop]
    by_cases hhit : strIsEqual (strSubStr str (idx + 1) findStr.length) findStr
    · rw [if_pos hhit]
      exact Or.inl ⟨idx + 1, rfl, Nat.succ_pos idx, Nat.le_refl _, (hiff _).mp hhit, fun j hlt hle =>
        absurd hlt (Nat.not_lt.mpr hle)⟩
    · rw [if_neg hhit]
      have hnot : ¬ OccursAt findStr str (idx + 1) := fun hocc => hhit ((hiff _).mpr hocc)
      have hstep : ∀ j, j ≤ idx + 1 → (j ≤ idx → ¬ OccursAt findStr str j) → ¬ OccursAt findStr str j := by
        intro j hle hbelow
        rcases Nat.eq_or_lt_of_le hle with rfl | hlt
        · exact hnot
        · exact hbelow (Nat.le_of_lt_succ hlt)
      rcases ih with ⟨i, heq, hpos, hle, hocc, habove⟩ | ⟨heq, hnone⟩
      · exact Or.inl ⟨i, heq, hpos, Nat.le_succ_of_le hle, hocc, fun j hlt hj => hstep j hj (habove j hlt)⟩
      · exact Or.inr ⟨heq, fun j hpos hj => hstep j hj (hnone j hpos)⟩

def FindsLast (str findStr : List UInt8) (offset : Nat) : Prop :=
  LastFrom findStr str offset (strFindLast str findStr offset)

/-- The index behind which `str_findLast` does not look. -/
def lastIndex (str findStr : List UInt8) : Nat := (str.length - findStr.length) % 2 ^ 32

section
variable {str findStr : List UInt8} {offset : Nat}

theorem strFindLast_none (hnone : ∀ i, offset ≤ i → ¬ OccursAt findStr str i) :
    strFindLast str findStr offset = str.length := by
  unfold strFindLast
  by_cases h : str.length < wrap64 (findStr.length + offset)
  · exact if_pos h
  · rw [if_neg h]
    dsimp only
    rw [strFrom_eq]
    rcases findLastLoop_spec (str.drop offset) findStr str.length
      ((((str.drop offset).length : Int) - findStr.length) % 2 ^ 32).toNat with ⟨i, -, -, -, hocc, -⟩ | ⟨heq, -⟩
    · exact absurd (Occurrences.occursAt_drop.mp hocc) (hnone _ (Nat.le_add_right offset i))
    · exact heq

theorem lastIndex_eq (h : findStr.length ≤ str.length) :
    ((((str.length : Int) - findStr.length) % 2 ^ 32).toNat) = lastIndex str findStr := by
  unfold lastIndex
  omega

theorem strFindLast_scan (hle : findStr.length + offset ≤ str.length) :
    (∃ i, strFindLast str findStr offset = i ∧ 0 < i ∧ i ≤ lastIndex (str.drop offset) findStr ∧
        OccursAt findStr str (offset + i) ∧
        ∀ j, i < j → j ≤ lastIndex (str.drop offset) findStr → ¬ OccursAt findStr str (offset + j)) ∨
      (strFindLast str findStr offset = str.length ∧
        ∀ j, 0 < j → j ≤ lastIndex (str.drop offset) findStr → ¬ OccursAt findStr str (offset + j)) := by
  have hfits : ¬ str.length < wrap64 (findStr.length + offset) := by
    unfold wrap64
    omega
  unfold strFindLast
  rw [if_neg hfits]
  dsimp only
  rw [strFrom_eq, lastIndex_eq (by rw [List.length_drop]; omega)]
  simp only [← Occurrences.occursAt_drop]
  rcases findLastLoop_spec (str.drop offset) findStr str.length (lastIndex (str.drop offset) findStr) with
    ⟨i, heq, hpos, hmax, hocc, habove⟩ | ⟨heq, hnone⟩
  · exact Or.inl ⟨i, heq, hpos, hmax, hocc, habove⟩
  · exact Or.inr ⟨heq, hnone⟩

end

theorem findsLast_iff {findStr : List UInt8} (hf : findStr ≠ []) (str : List UInt8) (offset : Nat) :
    FindsLast str findStr offset ↔ (∀ i, offset ≤ i → ¬ OccursAt findStr str i) ∨
      (offset = 0 ∧ (∃ i, 0 < i ∧ OccursAt findStr str i) ∧
        ∀ i, lastIndex str findStr < i → ¬ OccursAt findStr str i) := by
  have hpos := List.length_pos_of_ne_nil hf
  unfold FindsLast LastFrom
  by_cases hnone : ∀ i, offset ≤ i → ¬ OccursAt findStr str i
  · exact ⟨fun _ => Or.inl hnone, fun _ => Or.inr ⟨strFindLast_none hnone, hnone⟩⟩
  · have hsome := hnone
    simp only [not_forall, not_not] at hsome
    obtain ⟨i, hi, hocc⟩ := hsome
    have hend := hocc.le hf
    have hscan := @strFindLast_scan str findStr offset (by omega)
    constructor
    · rintro (⟨hfound, -, hlast⟩ | ⟨-, hno⟩)
      · have hfend := hfound.le hf
        rcases hscan with ⟨k, heq, hkpos, hkmax, hk, -⟩ | ⟨heq, -⟩
        · rw [heq] at hlast hfound
          -- the index counts from `offset`, so that the same match stands further behind in `str`
          obtain rfl : offset = 0 := by
            by_contra hne
            exact hlast (offset + k) (by omega) hk
          exact Or.inr ⟨rfl, ⟨k, hkpos, hfound⟩, fun j hj => hlast j (Nat.lt_of_le_of_lt hkmax hj)⟩
        · omega
      · exact absurd hno hnone
    · rintro (hno | ⟨rfl, ⟨k, hkpos, hk⟩, hbeyond⟩)
      · exact absurd hno hnone
      · simp only [Nat.zero_add, List.drop_zero] at hscan
        have hrest : ∀ {m}, (∀ j, m < j → j ≤ lastIndex str findStr → ¬ OccursAt findStr str j) →
            ∀ j, m < j → ¬ OccursAt findStr str j := by
          intro m hin j hj
          rcases Nat.lt_or_ge (lastIndex str findStr) j with hlt | hle
          · exact hbeyond j hlt
          · exact hin j hj hle
        rcases hscan with ⟨m, heq, -, -, hm, habove⟩ | ⟨-, hno⟩
        · rw [heq]
          exact Or.inl ⟨hm, Nat.zero_le m, hrest habove⟩
        · exact absurd hk (hrest hno k hkpos)

theorem findsLast_iff_second : FindsLast (s8 "abab") (s8 "ab") 0 ↔
    (∀ i, 0 ≤ i → ¬ OccursAt (s8 "ab") (s8 "abab") i) ∨
      (0 = 0 ∧ (∃ i, 0 < i ∧ OccursAt (s8 "ab") (s8 "abab") i) ∧
        ∀ i, lastIndex (s8 "abab") (s8 "ab") < i → ¬ OccursAt (s8 "ab") (s8 "abab") i) :=
  findsLast_iff (by decide) (s8 "abab") 0

theorem not_findsLast : ¬ FindsLast (s8 "abc") (s8 "a") 0 := by
  rintro (⟨hocc, -⟩ | ⟨-, hnone⟩)
  · revert hocc
    decide
  · exact hnone 0 (Nat.le_refl 0) (by decide)

/-! ## `str_containsSubStringCount` -/

theorem countLoop_nil (turns ct idx : Nat) {str : List UInt8} (h : str ≠ []) :
    countLoop str [] turns ct idx = none := by
  have hfirst : ∀ i, strFindFirst str [] i ≠ str.length := fun i heq => h (List.length_eq_zero_iff.mp heq.symm)
  induction turns generalizing ct idx with
  | zero => rfl
  | succ turns ih =>
    rw [countLoop, if_neg (hfirst idx)]
    exact ih _ _

section
variable {str findStr : List UInt8}

theorem count_drop_zero (hf : findStr ≠ []) {idx : Nat} (h : ∀ j, idx ≤ j → ¬ OccursAt findStr str j) :
    count findStr (str.drop idx) = 0 := by
  apply (Occurrences.count_eq_zero_iff hf).mpr
  intro i hi
  exact h _ (Nat.le_add_right idx i) (Occurrences.occursAt_drop.mp hi)

theorem count_drop_first {idx i : Nat} (hle : idx ≤ i) (hi : i < str.length) (hocc : OccursAt findStr str i)
    (hbefore : ∀ j, idx ≤ j → j < i → ¬ OccursAt findStr str j) :
    count findStr (str.drop idx) = count findStr (str.drop (i + 1)) + 1 := by
  have hk : i - idx + 1 ≤ (str.drop idx).length := by
    rw [List.length_drop]
    omega
  rw [Occurrences.count_drop findStr hk, List.drop_drop, show idx + (i - idx + 1) = i + 1 by omega]
  have hnone : (List.range (i - idx)).countP (fun j => OccursAt findStr (str.drop idx) j) = 0 := by
    apply List.countP_eq_zero.mpr
    intro j hj hd
    have hlt := List.mem_range.mp hj
    exact hbefore (idx + j) (Nat.le_add_right idx j) (by omega) (Occurrences.occursAt_drop.mp (of_decide_eq_true hd))
  have hhit : decide (OccursAt findStr (str.drop idx) (i - idx)) = true := by
    rw [decide_eq_true_eq, Occurrences.occursAt_drop, show idx + (i - idx) = i by omega]
    exact hocc
  rw [List.range_succ, List.countP_append, List.countP_singleton, hnone, if_pos hhit]
  omega

/-- A call that answers continues behind each occurrence and ends behind the last one. -/
theorem countLoop_eq (hf : findStr ≠ []) (hascii : findStr.headD 0 < 128 ∨ ∀ i, ¬ OccursAt findStr str i)
    (turns ct : Nat) {idx : Nat} (hle : idx ≤ str.length - findStr.length + 1) (hturns : str.length + 1 < turns + idx) :
    countLoop str findStr turns ct idx = some (ct + count findStr (str.drop idx)) := by
  have hpos := List.length_pos_of_ne_nil hf
  induction turns generalizing ct idx with
  | zero => omega
  | succ turns ih =>
    have hfirst : FindsFirst str findStr idx :=
      (findsFirst_iff hf str idx).mpr ⟨Or.inr (Or.inl hle), hascii.imp_right fun h i _ => h i⟩
    rw [countLoop]
    rcases hfirst with ⟨hocc, hge, hbefore⟩ | ⟨heq, hnone⟩
    · have hend := hocc.le hf
      rw [if_neg (by omega), ih (ct + 1) (by omega) (by omega), count_drop_first hge (by omega) hocc hbefore]
      congr 1
      omega
    · rw [if_pos heq, count_drop_zero hf hnone, Nat.add_zero]

theorem countLoop_signed (hf : findStr ≠ []) (hsigned : ¬ findStr.headD 0 < 128) (turns ct : Nat) :
    countLoop str findStr (turns + 1) ct 0 = some ct := by
  have hend : strFindFirst str findStr 0 = str.length := by
    rcases Nat.lt_or_ge str.length findStr.length with hshort | hle
    · exact strFindFirst_short hf hshort
    · rcases strFindFirst_scan hf hle (Nat.zero_le _) with ⟨hhit, -⟩ | ⟨heq, -⟩
      · exact absurd ((findHit_iff hf _).mp hhit).1 hsigned
      · exact heq
  rw [countLoop, if_pos hend]

end

/-- The count comes back, and for a non-empty string it is the number of positions where it stands. -/
def CountsPositions (str findStr : List UInt8) : Prop :=
  ∃ turns ct, strContainsSubStringCount turns str findStr = some ct ∧ (findStr ≠ [] → ct = count findStr str)

theorem countsPositions_iff (str findStr : List UInt8) : CountsPositions str findStr ↔
    (findStr = [] ∧ str = []) ∨ (findStr ≠ [] ∧ (findStr.headD 0 < 128 ∨ ∀ i, ¬ OccursAt findStr str i)) := by
  unfold CountsPositions strContainsSubStringCount
  by_cases hf : findStr = []
  · subst hf
    constructor
    · rintro ⟨turns, ct, hct, -⟩
      refine Or.inl ⟨rfl, ?_⟩
      by_contra hstr
      rw [countLoop_nil turns 0 0 hstr] at hct
      cases hct
    · rintro (⟨-, rfl⟩ | ⟨hf, -⟩)
      · exact ⟨1, 0, rfl, fun hf => absurd rfl hf⟩
      · exact absurd rfl hf
  · constructor
    · rintro ⟨turns, ct, hct, hcount⟩
      refine Or.inr ⟨hf, ?_⟩
      by_contra hnot
      obtain ⟨hsigned, hocc⟩ := not_or.mp hnot
      cases turns with
      | zero => cases hct
      | succ turns =>
        rw [countLoop_signed hf hsigned] at hct
        have hzero : count findStr str = 0 := by rw [← hcount hf, Option.some.inj hct]
        exact hocc ((Occurrences.count_eq_zero_iff hf).mp hzero)
    · rintro (⟨hnil, -⟩ | ⟨-, hascii⟩)
      · exact absurd hnil hf
      · refine ⟨str.length + 2, count findStr str, ?_, fun _ => rfl⟩
        rw [countLoop_eq hf hascii (str.length + 2) 0 (Nat.zero_le _) (Nat.lt_succ_self _), Nat.zero_add]
        rfl

theorem not_countsPositions : ¬ CountsPositions (s8 "a") [] := by
  rintro ⟨turns, ct, hct, -⟩
  unfold strContainsSubStringCount at hct
  rw [countLoop_nil turns 0 0 (by decide)] at hct
  cases hct

end CWebServer
