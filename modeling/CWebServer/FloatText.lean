import CWebServer.JoinSound
import Mathlib.Algebra.Field.Rat
import Mathlib.Algebra.Order.Ring.Rat

/-!
# The layout of a floating point number

`str__f32ToCharArr` returns the digits of a finite number and the place of
its point among them. The two functions that write them do not write a sign,
and put zeros neither before nor behind the digits.
-/

namespace CWebServer

/-- What `str__f32ToCharArr` returns for a finite number. -/
structure FiniteChars where
  ng : Bool
  digits : List UInt8
  decPos : Int32
  nonempty : digits ≠ []
  number : ∀ c ∈ digits, strIsNumberChar c = true
  -- they lie in `char str[512]`
  fits : digits.length ≤ 512

def FiniteChars.chars (c : FiniteChars) : FloatChars :=
  { chars := c.digits, length := c.digits.length, decPos := c.decPos.toInt }

def signValue (neg : Bool) : ℚ := if neg then -1 else 1

/-- The digits stand behind the point, which moves by `decPos`. -/
def FiniteChars.value (c : FiniteChars) : ℚ :=
  signValue c.ng * decimalValue c.digits * 10 ^ (c.decPos.toInt - c.digits.length)

structure Numeral where
  neg : Bool
  whole : List UInt8
  /-- What stands behind the point, if there is one. -/
  frac : Option (List UInt8)
  nonempty : whole ≠ []
  whole_number : ∀ c ∈ whole, strIsNumberChar c = true
  frac_number : ∀ c ∈ frac.getD [], strIsNumberChar c = true

namespace Numeral

def text (n : Numeral) : List UInt8 := signText n.neg ++ (n.whole ++ n.frac.elim [] (chr '.' :: ·))

def value (n : Numeral) : ℚ :=
  signValue n.neg * decimalValue (n.whole ++ n.frac.getD []) / 10 ^ (n.frac.getD []).length

end Numeral

/-- One numeral is appended, and it has the value `q`. -/
def RecordsNumeral (arena : Arena) (result : Option Arena) (q : ℚ) : Prop :=
  ∃ (numeral : Numeral) (commitPos : Nat), result = some (arena.append numeral.text commitPos) ∧ numeral.value = q

/-! ## Numerals -/

theorem number_ne_minus {c : UInt8} (h : strIsNumberChar c = true) : c ≠ chr '-' := by
  rintro rfl
  cases h

theorem number_ne_point {c : UInt8} (h : strIsNumberChar c = true) : c ≠ chr '.' := by
  rintro rfl
  cases h

theorem split_point {whole whole' : List UInt8} {frac frac' : Option (List UInt8)}
    (hwhole : ∀ c ∈ whole, strIsNumberChar c = true) (hwhole' : ∀ c ∈ whole', strIsNumberChar c = true)
    (h : whole ++ frac.elim [] (chr '.' :: ·) = whole' ++ frac'.elim [] (chr '.' :: ·)) :
    whole = whole' ∧ frac = frac' := by
  induction whole generalizing whole' with
  | nil =>
    cases whole' with
    | nil =>
      cases frac <;> cases frac' <;> simp_all
    | cons c whole' =>
      cases frac with
      | none => cases h
      | some frac =>
        have hc := number_ne_point (hwhole' c List.mem_cons_self)
        exact absurd (List.cons.inj h).1.symm hc
  | cons c whole ih =>
    cases whole' with
    | nil =>
      cases frac' with
      | none => cases h
      | some frac' =>
        have hc := number_ne_point (hwhole c List.mem_cons_self)
        exact absurd (List.cons.inj h).1 hc
    | cons c' whole' =>
      obtain ⟨rfl, htail⟩ := List.cons.inj h
      obtain ⟨rfl, hfrac⟩ := ih (fun b hb => hwhole b (List.mem_cons_of_mem _ hb))
        (fun b hb => hwhole' b (List.mem_cons_of_mem _ hb)) htail
      exact ⟨rfl, hfrac⟩

theorem numeral_text_inj {n n' : Numeral} (h : n.text = n'.text) : n = n' := by
  obtain ⟨neg, whole, frac, hne, hwhole, hfrac⟩ := n
  obtain ⟨neg', whole', frac', hne', hwhole', hfrac'⟩ := n'
  have hhead : ∀ digits rest : List UInt8, digits ≠ [] → (∀ c ∈ digits, strIsNumberChar c = true) →
      (digits ++ rest).head? ≠ some (chr '-') := by
    intro digits rest hne hnumber
    obtain ⟨c, digits, rfl⟩ := List.exists_cons_of_ne_nil hne
    intro hc
    exact number_ne_minus (hnumber c List.mem_cons_self) (Option.some.inj hc)
  have hneg : neg = neg' := by
    cases neg <;> cases neg'
    · rfl
    · exact absurd (congrArg List.head? h) (hhead whole _ hne hwhole)
    · exact absurd (congrArg List.head? h).symm (hhead whole' _ hne' hwhole')
    · rfl
  subst hneg
  obtain ⟨rfl, rfl⟩ := split_point hwhole hwhole' (List.append_cancel_left h)
  rfl

theorem count_point_digits {digits : List UInt8} (h : ∀ c ∈ digits, strIsNumberChar c = true) :
    digits.count (chr '.') = 0 := by
  apply List.count_eq_zero.mpr
  intro hmem
  exact number_ne_point (h _ hmem) rfl

theorem numeral_count_point (n : Numeral) : n.text.count (chr '.') ≤ 1 := by
  have hsign : (signText n.neg).count (chr '.') = 0 := by
    cases n.neg <;> rfl
  have hfrac : (n.frac.elim [] (chr '.' :: ·)).count (chr '.') ≤ 1 := by
    have h := n.frac_number
    cases hf : n.frac with
    | none => exact Nat.zero_le _
    | some frac =>
      rw [hf, Option.getD_some] at h
      show (chr '.' :: frac).count (chr '.') ≤ 1
      rw [List.count_cons_self, count_point_digits h]
  unfold Numeral.text
  rw [List.count_append, List.count_append, hsign, count_point_digits n.whole_number]
  omega

/-- A numeral without a sign has the value of the digits just where the point is at its place. -/
theorem value_eq_iff (neg : Bool) (v k : Nat) (e : Int) :
    (v : ℚ) / 10 ^ k = signValue neg * v * 10 ^ e ↔ v = 0 ∨ neg = false ∧ e = -k := by
  have hk : (v : ℚ) / 10 ^ k = v * 10 ^ (-(k : Int)) := by
    rw [zpow_neg, zpow_natCast, div_eq_mul_inv]
  rw [hk]
  by_cases hv : v = 0
  · simp [hv]
  · have hv' : (v : ℚ) ≠ 0 := Nat.cast_ne_zero.mpr hv
    rw [mul_comm (signValue neg), mul_assoc, mul_right_inj' hv']
    have hpow : ∀ m : Int, (0 : ℚ) < 10 ^ m := fun m => zpow_pos (by decide) m
    cases neg with
    | false =>
      have hinj : (10 : ℚ) ^ (-(k : Int)) = 10 ^ e ↔ -(k : Int) = e := zpow_right_inj₀ (by decide) (by decide)
      simp only [signValue, Bool.false_eq_true, if_false, one_mul, hv, false_or, true_and, hinj]
      exact eq_comm
    | true =>
      have hne : (10 : ℚ) ^ (-(k : Int)) ≠ -1 * 10 ^ e := by
        intro heq
        have h1 := hpow (-(k : Int))
        rw [heq, neg_one_mul, neg_pos] at h1
        exact lt_asymm h1 (hpow e)
      simp [signValue, hv] at hne ⊢
      exact hne

/-! ## Recorded digits -/

theorem emits_pushChars {chars : List UInt8} {size : Nat} (h : size ≤ chars.length) :
    Emits (fun arena => pushChars arena size chars) (chars.take size) := by
  have hpush := emits_pushCopy (chars.take size)
  rw [List.length_take_of_le h] at hpush
  simp only [pushChars, h, if_true]
  exact hpush

/-- The digits with a point behind the first `p` of them -/
def pointText (digits : List UInt8) (p : Nat) : List UInt8 := digits.take p ++ (s8 "." ++ digits.drop p)

section
variable {c : FiniteChars} {p : Nat}

theorem emits_point (hp : c.decPos.toInt = p) (hle : p ≤ c.digits.length) :
    Emits (fun arena => (do
      let arena ← pushChars arena (wrap64 c.decPos.toInt) c.digits
      let arena ← pushCopy arena 1 (s8 ".")
      pushChars arena (wrap64 (c.digits.length - c.decPos.toInt) % 2 ^ 32) (c.digits.drop (wrap64 c.decPos.toInt))))
      (pointText c.digits p) := by
  have hfits := c.fits
  have hwrap : wrap64 c.decPos.toInt = p := by
    rw [hp]
    exact wrap64_of_lt (by omega)
  have hrest : wrap64 (c.digits.length - c.decPos.toInt) % 2 ^ 32 = (c.digits.drop p).length := by
    rw [hp, ← Int.ofNat_sub hle, wrap64_of_lt (by omega), List.length_drop]
    exact Nat.mod_eq_of_lt (by omega)
  have hlast := emits_pushChars (Nat.le_refl (c.digits.drop p).length)
  rw [List.take_length] at hlast
  rw [hwrap, hrest]
  exact (emits_pushChars hle).bind ((emits_pushCopy (s8 ".")).bind hlast)

theorem emits_f32_zero (hp : c.decPos.toInt = 0) :
    Emits (strRecordf32Cast · c.chars) (s8 "0." ++ pointText c.digits 0) := by
  have hpoint := (emits_pushCopy (s8 "0.")).bind (emits_point (p := 0) hp (Nat.zero_le _))
  have hlt : wrap64 c.decPos.toInt % 2 ^ 32 < c.digits.length := by
    rw [hp]
    exact List.length_pos_iff.mpr c.nonempty
  unfold strRecordf32Cast FiniteChars.chars
  simp only [hp, if_true] at hlt hpoint ⊢
  simp only [hlt, if_true]
  exact hpoint

theorem emits_f32_inside (hp : c.decPos.toInt = p) (hpos : 0 < p) (hlt : p < c.digits.length) :
    Emits (strRecordf32Cast · c.chars) (pointText c.digits p) := by
  have hpoint := emits_point hp (Nat.le_of_lt hlt)
  have hzero : c.decPos.toInt ≠ 0 := by omega
  have hlt' : wrap64 c.decPos.toInt % 2 ^ 32 < c.digits.length := by
    have hfits := c.fits
    rw [hp, wrap64_of_lt (by omega), Nat.mod_eq_of_lt (by omega)]
    exact hlt
  unfold strRecordf32Cast FiniteChars.chars
  simp only [hzero, if_false, hlt', if_true]
  exact hpoint

theorem emits_f32_outside (hp : c.decPos.toInt < 0 ∨ c.digits.length ≤ c.decPos.toInt) :
    Emits (strRecordf32Cast · c.chars) c.digits := by
  have hall := emits_pushChars (Nat.le_refl c.digits.length)
  rw [List.take_length] at hall
  have hne := List.length_pos_iff.mpr c.nonempty
  have hzero : c.decPos.toInt ≠ 0 := by omega
  have hge : ¬ wrap64 c.decPos.toInt % 2 ^ 32 < c.digits.length := by
    have hfits := c.fits
    have hlo := c.decPos.le_toInt
    have hhi := c.decPos.toInt_lt
    unfold wrap64
    omega
  unfold strRecordf32Cast FiniteChars.chars
  simp only [hzero, if_false, hge]
  exact hall

theorem emits_f64 (hp : c.decPos.toInt = p) (hpos : 0 < p) (hle : p ≤ c.digits.length) :
    Emits (strRecordF64 · c.chars) (pointText c.digits p) := by
  have hpoint := emits_point hp hle
  have hzero : c.decPos.toInt ≠ 0 := by omega
  unfold strRecordF64 FiniteChars.chars
  simp only [hzero, if_false]
  exact hpoint

/-- It would read in front of the digits, or behind them. -/
theorem f64_outside (hp : c.decPos.toInt < 0 ∨ c.digits.length < c.decPos.toInt) (arena : Arena) :
    strRecordF64 arena c.chars = none := by
  have hfits := c.fits
  have hlo := c.decPos.le_toInt
  have hhi := c.decPos.toInt_lt
  have hzero : c.decPos.toInt ≠ 0 := by omega
  have hge : ¬ wrap64 c.decPos.toInt ≤ c.digits.length := by
    unfold wrap64
    omega
  unfold strRecordF64 FiniteChars.chars
  simp only [hzero, if_false, pushChars, hge]
  rfl

theorem f64_zero_run {arena arena₁ : Arena} (hp : c.decPos.toInt = 0)
    (hpush : pushCopy arena c.digits.length (s8 "0.") = some arena₁) (h : Recording arena₁ (1 + c.digits.length)) :
    ∃ commitPos, strRecordF64 arena c.chars = some (arena₁.append (pointText c.digits 0) commitPos) := by
  have hlen : (pointText c.digits 0).length = 1 + c.digits.length := by
    simp [pointText, s8, Nat.add_comm]
  have hpoint := emits_point (p := 0) hp (Nat.zero_le _) arena₁ (by rw [hlen]; exact h)
  unfold strRecordF64 FiniteChars.chars
  simp only [hp, if_true] at hpoint ⊢
  rw [hpush]
  exact hpoint

/-- The block for the `0.` is as long as the digits: with one digit the second point is put over the first. -/
theorem f64_zero_one {arena : Arena} (hp : c.decPos.toInt = 0) (hone : c.digits.length = 1) (h : Recording arena 3) :
    ∃ commitPos, strRecordF64 arena c.chars = some (arena.append (s8 "0." ++ c.digits) commitPos) := by
  obtain ⟨commitPos, hpush⟩ := push_record (h.mono (by decide : 1 ≤ 3))
  have hcopy : pushCopy arena c.digits.length (s8 "0.") = some { arena with
      pos := arena.pos + 1, commitPos, memory := Memory.write arena.memory (arena.pos - sizeOfArena) (s8 "0.") } := by
    rw [hone]
    unfold pushCopy
    rw [hpush]
  obtain ⟨commitPos', hrun⟩ := f64_zero_run hp hcopy
    { record := h.record
      pos := Nat.le_trans h.pos (Nat.le_add_right _ _)
      room := by have := h.room; rw [hone]; exact this
      cap := h.cap }
  refine ⟨commitPos', hrun.trans (congrArg some ?_)⟩
  have hover : Memory.write (Memory.write arena.memory (arena.pos - sizeOfArena) (s8 "0."))
      (arena.pos - sizeOfArena + 1) (pointText c.digits 0) =
      Memory.write arena.memory (arena.pos - sizeOfArena) (s8 "0." ++ c.digits) :=
    Memory.write_over arena.memory (arena.pos - sizeOfArena) (s8 "0") (u := s8 ".") (by simp [pointText, s8])
  have hlen : (pointText c.digits 0).length = 2 := by
    simp [pointText, s8, hone]
  have hstart : arena.pos + 1 - sizeOfArena = arena.pos - sizeOfArena + 1 := Nat.sub_add_comm h.pos
  have hpos : arena.pos + 1 + (pointText c.digits 0).length = arena.pos + (s8 "0." ++ c.digits).length := by
    rw [hlen, List.length_append, hone]
    rfl
  unfold Arena.append
  simp only [hstart, hpos, hover]

/-- With more digits there are bytes of the old memory between the two points. -/
theorem f64_zero {arena : Arena} (hp : c.decPos.toInt = 0) (hlen : 2 ≤ c.digits.length)
    (h : Recording arena (2 * c.digits.length + 3)) :
    ∃ stale commitPos,
      strRecordF64 arena c.chars = some (arena.append (s8 "0." ++ stale ++ pointText c.digits 0) commitPos) := by
  have hroom : Recording arena (c.digits.length + (1 + c.digits.length)) := h.mono (by omega)
  obtain ⟨commitPos, hpush⟩ := push_record (hroom.mono (Nat.le_add_right _ _))
  have htwo : (s8 "0.").length = 2 := rfl
  refine ⟨Memory.read arena.memory (arena.pos - sizeOfArena + 2) (c.digits.length - 2), ?_⟩
  have hread := Memory.write_read arena.memory (arena.pos - sizeOfArena) (s8 "0.") (c.digits.length - 2)
  rw [htwo] at hread
  have hcopy : pushCopy arena c.digits.length (s8 "0.") = some (arena.append (s8 "0." ++
      Memory.read arena.memory (arena.pos - sizeOfArena + 2) (c.digits.length - 2)) commitPos) := by
    have hsum : 2 + (c.digits.length - 2) = c.digits.length := by omega
    unfold pushCopy Arena.append
    rw [hpush, hread, List.length_append, Memory.length_read, htwo, hsum]
  obtain ⟨commitPos', hrun⟩ := f64_zero_run hp hcopy (Recording.append (by
    rw [List.length_append, Memory.length_read, htwo, (by omega : 2 + (c.digits.length - 2) = c.digits.length)]
    exact hroom) commitPos)
  rw [append_append h.pos] at hrun
  exact ⟨commitPos', hrun⟩

end

/-! ## When the text denotes the number -/

theorem arena_append_inj {arena : Arena} {t t' : List UInt8} {commitPos commitPos' : Nat}
    (h : arena.append t commitPos = arena.append t' commitPos') : t = t' := by
  have hlen : t.length = t'.length := Nat.add_left_cancel (congrArg Arena.pos h)
  have hmem := congrArg Arena.memory h
  rw [memory_append, memory_append] at hmem
  have hread := Memory.read_write arena.memory (arena.pos - sizeOfArena) t
  rw [hmem, hlen, Memory.read_write] at hread
  exact hread.symm

section
variable {arena : Arena} {result : Option Arena} {q : ℚ} {commitPos : Nat}

theorem recordsNumeral_text_iff {n : Numeral} (h : result = some (arena.append n.text commitPos)) :
    RecordsNumeral arena result q ↔ n.value = q := by
  constructor
  · rintro ⟨n', commitPos', hresult, hvalue⟩
    rw [h] at hresult
    rw [numeral_text_inj (arena_append_inj (Option.some.inj hresult))]
    exact hvalue
  · exact fun hvalue => ⟨n, commitPos, h, hvalue⟩

theorem not_recordsNumeral_points {t : List UInt8} (h : result = some (arena.append t commitPos))
    (hpoints : 2 ≤ t.count (chr '.')) : ¬ RecordsNumeral arena result q := by
  rintro ⟨n, commitPos', hresult, -⟩
  rw [h] at hresult
  rw [arena_append_inj (Option.some.inj hresult)] at hpoints
  exact absurd (numeral_count_point n) (by omega)

end

namespace FiniteChars

variable (c : FiniteChars)

def plain : Numeral where
  neg := false
  whole := c.digits
  frac := none
  nonempty := c.nonempty
  whole_number := c.number
  frac_number := by simp

/-- The point stands behind the first `p` digits. -/
def pointed {p : Nat} (hpos : 0 < p) : Numeral where
  neg := false
  whole := c.digits.take p
  frac := some (c.digits.drop p)
  nonempty := by
    intro h
    rcases List.take_eq_nil_iff.mp h with h | h
    · exact absurd h (Nat.ne_of_gt hpos)
    · exact c.nonempty h
  whole_number := fun b hb => c.number b (List.mem_of_mem_take hb)
  frac_number := fun b hb => c.number b (List.mem_of_mem_drop hb)

/-- The digits stand behind `0.` -/
def behindPoint : Numeral where
  neg := false
  whole := s8 "0"
  frac := some c.digits
  nonempty := by decide
  whole_number := List.all_eq_true.mp rfl
  frac_number := c.number

theorem plain_text : c.plain.text = c.digits := List.append_nil _

theorem plain_value_iff :
    c.plain.value = c.value ↔ decimalValue c.digits = 0 ∨ c.ng = false ∧ c.decPos.toInt = c.digits.length := by
  have h := value_eq_iff c.ng (decimalValue c.digits) 0 (c.decPos.toInt - c.digits.length)
  have hvalue : c.plain.value = decimalValue c.digits / 10 ^ 0 := by
    simp [Numeral.value, plain, signValue]
  rw [hvalue]
  refine h.trans ?_
  simp only [Int.ofNat_zero, Int.neg_zero, Int.sub_eq_zero]

theorem pointed_value_iff {p : Nat} (hpos : 0 < p) (hp : c.decPos.toInt = p) (hle : p ≤ c.digits.length) :
    (c.pointed hpos).value = c.value ↔ decimalValue c.digits = 0 ∨ c.ng = false := by
  have h := value_eq_iff c.ng (decimalValue c.digits) (c.digits.length - p) (c.decPos.toInt - c.digits.length)
  have hvalue : (c.pointed hpos).value = decimalValue c.digits / 10 ^ (c.digits.length - p) := by
    simp [Numeral.value, pointed, signValue]
  rw [hvalue]
  refine h.trans ?_
  have he : c.decPos.toInt - c.digits.length = -((c.digits.length - p : Nat) : Int) := by omega
  simp only [he, and_true]

theorem behindPoint_value_iff (hp : c.decPos.toInt = 0) :
    c.behindPoint.value = c.value ↔ decimalValue c.digits = 0 ∨ c.ng = false := by
  have h := value_eq_iff c.ng (decimalValue c.digits) c.digits.length (c.decPos.toInt - c.digits.length)
  have hvalue : c.behindPoint.value = decimalValue c.digits / 10 ^ c.digits.length := by
    have hzero : decimalValue (s8 "0" ++ c.digits) = decimalValue c.digits := rfl
    simp [Numeral.value, behindPoint, signValue, hzero]
  rw [hvalue]
  refine h.trans ?_
  simp only [hp, Int.zero_sub, and_true]

end FiniteChars

section
variable {c : FiniteChars} {arena : Arena}

theorem recordsNumeral_f32_iff (h : Recording arena (2 * c.digits.length + 3)) :
    RecordsNumeral arena (strRecordf32Cast arena c.chars) c.value ↔
      c.decPos.toInt ≠ 0 ∧
      (decimalValue c.digits = 0 ∨ c.ng = false ∧ 0 < c.decPos.toInt ∧ c.decPos.toInt ≤ c.digits.length) := by
  have hne := List.length_pos_iff.mpr c.nonempty
  have hfirst : (s8 "0.").count (chr '.') = 1 := rfl
  have hsecond : (s8 ".").count (chr '.') = 1 := rfl
  by_cases hzero : c.decPos.toInt = 0
  · obtain ⟨commitPos, hrun⟩ := emits_f32_zero hzero arena (h.mono (by simp [pointText, s8]; omega))
    have hpoints : 2 ≤ (s8 "0." ++ pointText c.digits 0).count (chr '.') := by
      simp only [pointText, List.count_append, hfirst, hsecond]
      omega
    simp [not_recordsNumeral_points hrun hpoints, hzero]
  by_cases hin : 0 < c.decPos.toInt ∧ c.decPos.toInt < c.digits.length
  · obtain ⟨hpos, hlt⟩ := hin
    obtain ⟨p, hp⟩ := Int.eq_ofNat_of_zero_le (Int.le_of_lt hpos)
    have hpos' : 0 < p := by omega
    obtain ⟨commitPos, hrun⟩ := emits_f32_inside hp hpos' (by omega) arena
      (h.mono (by simp [pointText, s8]; omega))
    rw [recordsNumeral_text_iff (n := c.pointed hpos') hrun, c.pointed_value_iff hpos' hp (by omega)]
    simp only [ne_eq, hzero, not_false_eq_true, true_and, hpos, Int.le_of_lt hlt, and_true]
  · have hout : c.decPos.toInt < 0 ∨ c.digits.length ≤ c.decPos.toInt := by omega
    obtain ⟨commitPos, hrun⟩ := emits_f32_outside hout arena (h.mono (by omega))
    rw [← c.plain_text] at hrun
    rw [recordsNumeral_text_iff hrun, c.plain_value_iff]
    have hend : c.decPos.toInt = c.digits.length ↔ 0 < c.decPos.toInt ∧ c.decPos.toInt ≤ c.digits.length := by omega
    simp only [ne_eq, hzero, not_false_eq_true, true_and, hend]

theorem recordsNumeral_f64_iff (h : Recording arena (2 * c.digits.length + 3)) :
    RecordsNumeral arena (strRecordF64 arena c.chars) c.value ↔
      (0 < c.decPos.toInt ∧ c.decPos.toInt ≤ c.digits.length ∨ c.decPos.toInt = 0 ∧ c.digits.length = 1) ∧
      (decimalValue c.digits = 0 ∨ c.ng = false) := by
  have hne := List.length_pos_iff.mpr c.nonempty
  have hfirst : (s8 "0.").count (chr '.') = 1 := rfl
  have hsecond : (s8 ".").count (chr '.') = 1 := rfl
  by_cases hzero : c.decPos.toInt = 0
  · by_cases hone : c.digits.length = 1
    · obtain ⟨commitPos, hrun⟩ := f64_zero_one hzero hone (h.mono (by omega))
      rw [recordsNumeral_text_iff (n := c.behindPoint) hrun, c.behindPoint_value_iff hzero]
      simp [hzero, hone]
    · obtain ⟨stale, commitPos, hrun⟩ := f64_zero hzero (by omega) h
      have hpoints : 2 ≤ (s8 "0." ++ stale ++ pointText c.digits 0).count (chr '.') := by
        simp only [pointText, List.count_append, hfirst, hsecond]
        omega
      simp [not_recordsNumeral_points hrun hpoints, hzero, hone]
  by_cases hin : 0 < c.decPos.toInt ∧ c.decPos.toInt ≤ c.digits.length
  · obtain ⟨hpos, hle⟩ := hin
    obtain ⟨p, hp⟩ := Int.eq_ofNat_of_zero_le (Int.le_of_lt hpos)
    have hpos' : 0 < p := by omega
    obtain ⟨commitPos, hrun⟩ := emits_f64 hp hpos' (by omega) arena (h.mono (by simp [pointText, s8]; omega))
    rw [recordsNumeral_text_iff (n := c.pointed hpos') hrun, c.pointed_value_iff hpos' hp (by omega)]
    simp only [hpos, hle, and_true, true_or, true_and]
  · have hout : c.decPos.toInt < 0 ∨ c.digits.length < c.decPos.toInt := by omega
    rw [f64_outside hout]
    simp only [hin, hzero, false_and, or_false, iff_false]
    rintro ⟨n, commitPos, hresult, -⟩
    cases hresult

end

theorem recordsNumeral_iff (c : FiniteChars) {arena : Arena} (h : Recording arena (2 * c.digits.length + 3)) :
    (RecordsNumeral arena (strRecordf32Cast arena c.chars) c.value ↔
      c.decPos.toInt ≠ 0 ∧
      (decimalValue c.digits = 0 ∨ c.ng = false ∧ 0 < c.decPos.toInt ∧ c.decPos.toInt ≤ c.digits.length)) ∧
    (RecordsNumeral arena (strRecordF64 arena c.chars) c.value ↔
      (0 < c.decPos.toInt ∧ c.decPos.toInt ≤ c.digits.length ∨ c.decPos.toInt = 0 ∧ c.digits.length = 1) ∧
      (decimalValue c.digits = 0 ∨ c.ng = false)) :=
  ⟨recordsNumeral_f32_iff h, recordsNumeral_f64_iff h⟩

/-- The result for two digits, and the point at `decPos` -/
def twoDigits (decPos : Int32) : FiniteChars where
  ng := false
  digits := s8 "25"
  decPos
  nonempty := by decide
  number := List.all_eq_true.mp rfl
  fits := by decide

def recordArena : Arena := memArenaStartUnsafeRecord (memMakeArenaPreAllocated (fun _ => 0) 1024)

theorem recordsNumeral_iff_two_point_five :
    RecordsNumeral recordArena (strRecordf32Cast recordArena (twoDigits 1).chars) (twoDigits 1).value ∧
    RecordsNumeral recordArena (strRecordF64 recordArena (twoDigits 1).chars) (twoDigits 1).value := by
  have hroom : Recording recordArena (2 * (twoDigits 1).digits.length + 3) :=
    ⟨by decide, by decide, by decide, by decide⟩
  obtain ⟨hf32, hf64⟩ := recordsNumeral_iff (twoDigits 1) hroom
  exact ⟨hf32.mpr (by decide), hf64.mpr (by decide)⟩

/-- The results for a quarter: four digits of a `f32`, three of a `f64`. -/
def quarterF32 : FiniteChars where
  ng := false
  digits := s8 "2500"
  decPos := 0
  nonempty := by decide
  number := List.all_eq_true.mp rfl
  fits := by decide

def quarterF64 : FiniteChars where
  ng := false
  digits := s8 "250"
  decPos := 0
  nonempty := by decide
  number := List.all_eq_true.mp rfl
  fits := by decide

/-- A quarter is written as `0..2500`, and with a byte of the old memory between the points. -/
theorem not_recordsNumeral_quarter :
    ¬ RecordsNumeral recordArena (strRecordf32Cast recordArena quarterF32.chars) quarterF32.value ∧
      ¬ RecordsNumeral recordArena (strRecordF64 recordArena quarterF64.chars) quarterF64.value := by
  have hf32 : Recording recordArena (2 * quarterF32.digits.length + 3) := ⟨by decide, by decide, by decide, by decide⟩
  have hf64 : Recording recordArena (2 * quarterF64.digits.length + 3) := ⟨by decide, by decide, by decide, by decide⟩
  constructor
  · intro h
    exact (recordsNumeral_f32_iff hf32).mp h |>.1 rfl
  · intro h
    exact absurd (recordsNumeral_f64_iff hf64 |>.mp h).1 (by decide)

end CWebServer
