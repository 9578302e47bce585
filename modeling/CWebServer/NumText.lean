import CWebServer.JoinSound

/-!
# Numbers from the text of an expression

The macros hand the text of an argument on with its value, and a number whose
text starts like a literal is written as it was spelled. The spelling is that
of the value for plain decimal literals alone.
-/

namespace CWebServer

/-! ## The conversions -/

/-- `strExpression[idx]`; behind the text is its terminator. -/
def exprChar (strExpression : List UInt8) (idx : Nat) : UInt8 := strExpression.getD idx 0

def isSuffixChar (c : UInt8) : Bool :=
  c == chr 'u' || c == chr 'U' || c == chr 'l' || c == chr 'L' || c == chr 'z' || c == chr 'Z'

/-- The loop from `idx` on, with `left` characters before the end. -/
def numExpressionLoop (strExpression : List UInt8) : Nat → Nat → Option Nat
  | 0, idx => some idx
  | left + 1, idx =>
    let c := exprChar strExpression idx
    if strIsNumberChar c then numExpressionLoop strExpression left (idx + 1)
    else if isSuffixChar c then some idx
    else none

/-- The string that is put in place of the number. -/
def strReadNumExpression (strExpression : List UInt8) : Option (List UInt8) :=
  if strIsNumberChar (exprChar strExpression 0) = false ∧ exprChar strExpression 0 ≠ chr '-' then none
  else if exprChar strExpression 1 = 0 then some (strExpression.take 1)
  else if strIsNumberChar (exprChar strExpression 1) = false then none
  else (numExpressionLoop strExpression (strExpression.length - 1) 1).map strExpression.take

/-- The conversion of a number, given the value that it makes of it otherwise. -/
def numToVal (value : PlainValue) (strExpression : List UInt8) : PlainValue :=
  match strReadNumExpression strExpression with
  | some text => .str text
  | none => value

def strU32ToVal (u32Val : UInt32) (strExpression : List UInt8) : PlainValue := numToVal (.u32 u32Val) strExpression

def strU64ToVal (u64Val : UInt64) (strExpression : List UInt8) : PlainValue := numToVal (.u64 u64Val) strExpression

def strI32ToVal (i32Val : Int32) (strExpression : List UInt8) : PlainValue :=
  if exprChar strExpression 0 = chr '\x27' then .char (max (min 255 i32Val.toInt) 0).toNat.toUInt8
  else numToVal (.i32 i32Val) strExpression

def strI64ToVal (i64Val : Int64) (strExpression : List UInt8) : PlainValue := numToVal (.i64 i64Val) strExpression

def strValueToKeyVal (value : PlainValue) : List UInt8 × PlainValue := ([], value)

def strU32ToKeyVal (u32Val : UInt32) (strExpression : List UInt8) : List UInt8 × PlainValue :=
  strValueToKeyVal (strU32ToVal u32Val strExpression)

def strU64ToKeyVal (u64Val : UInt64) (strExpression : List UInt8) : List UInt8 × PlainValue :=
  strValueToKeyVal (strU64ToVal u64Val strExpression)

def strI32ToKeyVal (i32Val : Int32) (strExpression : List UInt8) : List UInt8 × PlainValue :=
  strValueToKeyVal (strI32ToVal i32Val strExpression)

def strI64ToKeyVal (i64Val : Int64) (strExpression : List UInt8) : List UInt8 × PlainValue :=
  strValueToKeyVal (strI64ToVal i64Val strExpression)

/-! ## Expressions and their values -/

inductive NumArg
  | u32 (u32Val : UInt32)
  | u64 (u64Val : UInt64)
  | i32 (i32Val : Int32)
  | i64 (i64Val : Int64)
  deriving DecidableEq, Repr

namespace NumArg

def int : NumArg → Int
  | u32 u32Val => u32Val.toNat
  | u64 u64Val => u64Val.toNat
  | i32 i32Val => i32Val.toInt
  | i64 i64Val => i64Val.toInt

def plain : NumArg → PlainValue
  | u32 u32Val => .u32 u32Val
  | u64 u64Val => .u64 u64Val
  | i32 i32Val => .i32 i32Val
  | i64 i64Val => .i64 i64Val

def toVal (strExpression : List UInt8) : NumArg → PlainValue
  | u32 u32Val => strU32ToVal u32Val strExpression
  | u64 u64Val => strU64ToVal u64Val strExpression
  | i32 i32Val => strI32ToVal i32Val strExpression
  | i64 i64Val => strI64ToVal i64Val strExpression

def toKeyVal (strExpression : List UInt8) : NumArg → List UInt8 × PlainValue
  | u32 u32Val => strU32ToKeyVal u32Val strExpression
  | u64 u64Val => strU64ToKeyVal u64Val strExpression
  | i32 i32Val => strI32ToKeyVal i32Val strExpression
  | i64 i64Val => strI64ToKeyVal i64Val strExpression

def numeral (arg : NumArg) : List UInt8 := s8 (toString arg.int)

end NumArg

inductive NumSign
  | none | plus | minus
  deriving DecidableEq, Repr

def NumSign.text : NumSign → List UInt8
  | none => []
  | plus => s8 "+"
  | minus => s8 "-"

/-- An expression that starts with a decimal or octal literal: a sign, blanks behind it, digits, a suffix and the
rest of the expression. -/
structure NumExpr where
  sign : NumSign
  gap : List UInt8
  digits : List UInt8
  suffix : List UInt8
  rest : List UInt8
  gap_blank : ∀ c ∈ gap, c = chr ' '
  gap_nil : sign = .none → gap = []
  digits_ne : digits ≠ []
  digits_number : ∀ c ∈ digits, strIsNumberChar c = true
  suffix_chars : ∀ c ∈ suffix, isSuffixChar c = true
  rest_head : ∀ c ∈ rest.head?, strIsNumberChar c = false ∧ isSuffixChar c = false ∧ c ≠ 0

namespace NumExpr

def text (e : NumExpr) : List UInt8 := e.sign.text ++ (e.gap ++ (e.digits ++ (e.suffix ++ e.rest)))

/-- The text is written in place of the number. -/
def Taken (e : NumExpr) : Prop :=
  e.sign ≠ .plus ∧ e.gap = [] ∧
    (e.suffix = [] ∧ e.rest = [] ∨ e.suffix ≠ [] ∧ (e.sign = .minus ∨ 2 ≤ e.digits.length))

def literal (e : NumExpr) : Int := if e.sign = .minus then -decimalValue e.digits else decimalValue e.digits

/-- No leading zero, and no sign before a zero. -/
def Spelled (e : NumExpr) : Prop :=
  (e.digits.head? = some (chr '0') → e.digits = s8 "0") ∧ (e.sign = .minus → decimalValue e.digits ≠ 0)

end NumExpr

/-- What the eight conversions make of the expression renders to the numeral of the value. -/
structure RendersValue (e : NumExpr) (arg : NumArg) : Prop where
  val : (arg.toVal e.text).render = arg.numeral
  keyVal : (arg.toKeyVal e.text).2.render = arg.numeral

/-! ## The scan -/

theorem exprChar_append (before after : List UInt8) : exprChar (before ++ after) before.length = after.headD 0 := by
  cases after with
  | nil => simp [exprChar]
  | cons c after => simp [exprChar]

theorem numExpressionLoop_digits {digits : List UInt8} (h : ∀ c ∈ digits, strIsNumberChar c = true)
    (before after : List UInt8) :
    numExpressionLoop (before ++ (digits ++ after)) (digits ++ after).length before.length =
      numExpressionLoop (before ++ (digits ++ after)) after.length (before ++ digits).length := by
  induction digits generalizing before with
  | nil => simp
  | cons c digits ih =>
    have hchar : exprChar (before ++ (c :: digits ++ after)) before.length = c := exprChar_append before _
    have hrest := ih (fun b hb => h b (List.mem_cons_of_mem c hb)) (before ++ [c])
    simp only [List.append_assoc, List.singleton_append, List.length_append, List.length_singleton] at hrest
    simp only [List.cons_append, List.length_cons, List.length_append, numExpressionLoop] at hchar hrest ⊢
    rw [hchar, if_pos (h c List.mem_cons_self), hrest]

/-- Behind the digits the scan ends at the end of the text or at a suffix. -/
theorem numExpressionLoop_tail {suffix rest : List UInt8} (hsuffix : ∀ c ∈ suffix, isSuffixChar c = true)
    (hnumber : ∀ c ∈ suffix, strIsNumberChar c = false)
    (hrest : ∀ c ∈ rest.head?, strIsNumberChar c = false ∧ isSuffixChar c = false) (before : List UInt8) :
    numExpressionLoop (before ++ (suffix ++ rest)) (suffix ++ rest).length before.length =
      if suffix = [] ∧ rest ≠ [] then none else some before.length := by
  have hchar := exprChar_append before (suffix ++ rest)
  cases suffix with
  | nil =>
    cases rest with
    | nil => rfl
    | cons c rest =>
      obtain ⟨hn, hs⟩ := hrest c rfl
      simp only [List.nil_append, List.headD_cons, List.length_cons, numExpressionLoop] at hchar ⊢
      simp [hchar, hn, hs]
  | cons c suffix =>
    have hn := hnumber c List.mem_cons_self
    have hs := hsuffix c List.mem_cons_self
    simp only [List.cons_append, List.headD_cons, List.length_cons, numExpressionLoop] at hchar ⊢
    simp [hchar, hn, hs]

theorem isSuffixChar_cases {c : UInt8} (h : isSuffixChar c = true) : strIsNumberChar c = false ∧ c ≠ 0 := by
  unfold isSuffixChar at h
  simp only [Bool.or_eq_true, beq_iff_eq] at h
  rcases h with ((((rfl | rfl) | rfl) | rfl) | rfl) | rfl <;> decide

theorem strReadNumExpression_digits {c : UInt8} (hc : strIsNumberChar c = true ∨ c = chr '-')
    {digits suffix rest : List UInt8} (hne : digits ≠ []) (hdigits : ∀ c ∈ digits, strIsNumberChar c = true)
    (hsuffix : ∀ c ∈ suffix, isSuffixChar c = true)
    (hrest : ∀ c ∈ rest.head?, strIsNumberChar c = false ∧ isSuffixChar c = false) :
    strReadNumExpression (c :: (digits ++ (suffix ++ rest))) =
      if suffix = [] ∧ rest ≠ [] then none else some (c :: digits) := by
  obtain ⟨d, more, rfl⟩ := List.exists_cons_of_ne_nil hne
  have hd := hdigits d List.mem_cons_self
  have hd0 : d ≠ 0 := by
    rintro rfl
    exact absurd hd (by decide)
  have hc' : ¬ (strIsNumberChar c = false ∧ c ≠ chr '-') := by
    rintro ⟨hn, hm⟩
    rcases hc with hc | hc
    · rw [hc] at hn
      cases hn
    · exact hm hc
  have hloop := (numExpressionLoop_digits hdigits [c] (suffix ++ rest)).trans
    ((congrArg (numExpressionLoop · _ _) (List.append_assoc [c] (d :: more) (suffix ++ rest)).symm).trans
      (numExpressionLoop_tail hsuffix (fun b hb => (isSuffixChar_cases (hsuffix b hb)).1) hrest ([c] ++ (d :: more))))
  have hlen : (c :: (d :: more ++ (suffix ++ rest))).length - 1 = (d :: more ++ (suffix ++ rest)).length := rfl
  unfold strReadNumExpression
  rw [if_neg (by simpa [exprChar] using hc'), if_neg (by simpa [exprChar] using hd0),
    if_neg (by simp [exprChar, hd]), hlen]
  have hone : numExpressionLoop (c :: (d :: more ++ (suffix ++ rest))) (d :: more ++ (suffix ++ rest)).length 1 = _ :=
    hloop
  rw [hone]
  by_cases h : suffix = [] ∧ rest ≠ []
  · rw [if_pos h, if_pos h]
    rfl
  · rw [if_neg h, if_neg h]
    simp

namespace NumExpr

theorem rest_not (e : NumExpr) : ∀ c ∈ e.rest.head?, strIsNumberChar c = false ∧ isSuffixChar c = false :=
  fun c hc => ⟨(e.rest_head c hc).1, (e.rest_head c hc).2.1⟩

/-- What follows the digits starts with none of them, and is not the terminator. -/
theorem tail_head (e : NumExpr) {c : UInt8} {tail : List UInt8} (h : e.suffix ++ e.rest = c :: tail) :
    strIsNumberChar c = false ∧ c ≠ 0 := by
  cases hs : e.suffix with
  | nil =>
    rw [hs, List.nil_append] at h
    obtain ⟨hn, _, h0⟩ := e.rest_head c (by rw [h]; rfl)
    exact ⟨hn, h0⟩
  | cons b suffix =>
    rw [hs, List.cons_append] at h
    injection h with hb _
    exact isSuffixChar_cases (e.suffix_chars c (by rw [hs, hb]; exact List.mem_cons_self))

structure Scanned (e : NumExpr) : Prop where
  taken : e.Taken → strReadNumExpression e.text = some (e.sign.text ++ e.digits)
  refused : ¬ e.Taken → strReadNumExpression e.text = none

theorem scanned_plus {e : NumExpr} (h : e.sign = .plus) : Scanned e where
  taken ht := absurd h ht.1
  refused _ := by
    unfold strReadNumExpression text
    rw [h]
    rfl

theorem scanned_gap {e : NumExpr} (h : e.sign = .minus) (hgap : e.gap ≠ []) : Scanned e where
  taken ht := absurd ht.2.1 hgap
  refused _ := by
    obtain ⟨c, gap, hg⟩ := List.exists_cons_of_ne_nil hgap
    have hc : c = chr ' ' := e.gap_blank c (by rw [hg]; exact List.mem_cons_self)
    subst hc
    unfold strReadNumExpression text
    rw [h, hg]
    rfl

/-- Where there are digits behind the first character, the suffix and the rest decide. -/
theorem scanned_of_scan {e : NumExpr} (hplus : e.sign ≠ .plus) (hgap : e.gap = [])
    (hlong : e.sign = .minus ∨ 2 ≤ e.digits.length)
    (hscan : strReadNumExpression e.text =
      if e.suffix = [] ∧ e.rest ≠ [] then none else some (e.sign.text ++ e.digits)) : Scanned e where
  taken ht := by
    rw [hscan, if_neg]
    rintro ⟨hs, hr⟩
    rcases ht.2.2 with ⟨_, hr'⟩ | ⟨hs', _⟩
    · exact hr hr'
    · exact hs' hs
  refused ht := by
    rw [hscan, if_pos]
    by_contra hend
    refine ht ⟨hplus, hgap, ?_⟩
    by_cases hs : e.suffix = []
    · exact .inl ⟨hs, not_not.mp fun hr => hend ⟨hs, hr⟩⟩
    · exact .inr ⟨hs, hlong⟩

theorem scanned_minus {e : NumExpr} (h : e.sign = .minus) (hgap : e.gap = []) : Scanned e := by
  apply scanned_of_scan (by rw [h]; decide) hgap (.inl h)
  unfold text
  rw [h, hgap]
  exact strReadNumExpression_digits (.inr rfl) e.digits_ne e.digits_number e.suffix_chars e.rest_not

/-- A lone digit is taken where nothing follows it. -/
theorem scanned_digit {e : NumExpr} (h : e.sign = .none) {d : UInt8} (hd : e.digits = [d]) : Scanned e := by
  have hnumber := e.digits_number d (by rw [hd]; exact List.mem_singleton.mpr rfl)
  have htext : e.text = d :: (e.suffix ++ e.rest) := by
    unfold text
    rw [h, e.gap_nil h, hd]
    rfl
  cases htail : e.suffix ++ e.rest with
  | nil =>
    obtain ⟨hs, hr⟩ := List.append_eq_nil_iff.mp htail
    refine ⟨fun _ => ?_, fun ht => absurd ⟨by rw [h]; decide, e.gap_nil h, .inl ⟨hs, hr⟩⟩ ht⟩
    rw [htext, htail, h, hd]
    unfold strReadNumExpression
    simp [exprChar, hnumber, NumSign.text]
  | cons c tail =>
    obtain ⟨hc, hc0⟩ := e.tail_head htail
    refine ⟨fun ht => ?_, fun _ => ?_⟩
    · rcases ht.2.2 with ⟨hs, hr⟩ | ⟨_, hm | hlen⟩
      · rw [hs, hr] at htail
        cases htail
      · rw [h] at hm
        cases hm
      · rw [hd] at hlen
        exact absurd hlen (Nat.not_succ_le_self 1)
    · rw [htext, htail]
      unfold strReadNumExpression
      simp [exprChar, hnumber, hc, hc0]

theorem scanned_digits {e : NumExpr} (h : e.sign = .none) {d c : UInt8} {more : List UInt8}
    (hd : e.digits = d :: c :: more) : Scanned e := by
  apply scanned_of_scan (by rw [h]; decide) (e.gap_nil h) (.inr (by rw [hd]; exact Nat.le_add_left 2 more.length))
  unfold text
  rw [h, e.gap_nil h, hd]
  apply strReadNumExpression_digits (.inl (e.digits_number d (by rw [hd]; exact List.mem_cons_self)))
    (List.cons_ne_nil c more) _ e.suffix_chars e.rest_not
  intro b hb
  exact e.digits_number b (by rw [hd]; exact List.mem_cons_of_mem d hb)

theorem scanned (e : NumExpr) : Scanned e := by
  cases h : e.sign with
  | plus => exact scanned_plus h
  | minus =>
    by_cases hgap : e.gap = []
    · exact scanned_minus h hgap
    · exact scanned_gap h hgap
  | none =>
    obtain ⟨d, digits, hd⟩ := List.exists_cons_of_ne_nil e.digits_ne
    cases digits with
    | nil => exact scanned_digit h hd
    | cons c more => exact scanned_digits h hd

end NumExpr

/-! ## The numeral that is written -/

theorem plain_render (arg : NumArg) : arg.plain.render = arg.numeral := by cases arg <;> rfl

theorem exprChar_text_ne (e : NumExpr) : exprChar e.text 0 ≠ chr '\x27' := by
  unfold NumExpr.text
  cases h : e.sign with
  | plus => exact (by decide : chr '+' ≠ chr '\x27')
  | minus => exact (by decide : chr '-' ≠ chr '\x27')
  | none =>
    obtain ⟨d, digits, hd⟩ := List.exists_cons_of_ne_nil e.digits_ne
    have hnumber := e.digits_number d (by rw [hd]; exact List.mem_cons_self)
    rw [e.gap_nil h, hd]
    rintro rfl
    exact absurd hnumber (by decide)

theorem toVal_text (e : NumExpr) (arg : NumArg) : arg.toVal e.text = numToVal arg.plain e.text := by
  cases arg with
  | i32 i32Val => exact if_neg (exprChar_text_ne e)
  | _ => rfl

theorem toKeyVal_text (e : NumExpr) (arg : NumArg) : (arg.toKeyVal e.text).2 = arg.toVal e.text := by
  cases arg <;> rfl

/-- Digits without a sign are the numeral of a value that is not negative. -/
theorem digits_eq_iff {digits : List UInt8} (hne : digits ≠ []) (hnumber : ∀ c ∈ digits, strIsNumberChar c = true)
    (v : Int) :
    digits = s8 (toString v) ↔ (digits.head? = some (chr '0') → digits = s8 "0") ∧ v = decimalValue digits := by
  rw [signed_decimal]
  by_cases h : v < 0
  · rw [decide_eq_true h]
    constructor
    · rintro rfl
      exact absurd (hnumber (chr '-') List.mem_cons_self) (by decide)
    · rintro ⟨_, hv⟩
      omega
  · rw [decide_eq_false h]
    refine (eq_decimal_iff hne hnumber v.natAbs).trans (and_congr_right fun _ => ?_)
    omega

theorem minus_digits_eq_iff {digits : List UInt8} (hne : digits ≠ [])
    (hnumber : ∀ c ∈ digits, strIsNumberChar c = true) (v : Int) :
    chr '-' :: digits = s8 (toString v) ↔
      ((digits.head? = some (chr '0') → digits = s8 "0") ∧ decimalValue digits ≠ 0) ∧ v = -decimalValue digits := by
  rw [signed_decimal]
  by_cases h : v < 0
  · rw [decide_eq_true h]
    have hcons : chr '-' :: digits = signText true ++ decimal v.natAbs ↔ digits = decimal v.natAbs :=
      List.cons_inj_right (chr '-')
    rw [hcons, eq_decimal_iff hne hnumber]
    constructor
    · rintro ⟨hlead, hv⟩
      exact ⟨⟨hlead, by omega⟩, by omega⟩
    · rintro ⟨⟨hlead, _⟩, hv⟩
      exact ⟨hlead, by omega⟩
  · rw [decide_eq_false h]
    constructor
    · intro heq
      have hmem : chr '-' ∈ decimal v.natAbs := by
        rw [← List.nil_append (decimal v.natAbs)]
        exact heq ▸ List.mem_cons_self
      have hminus := decimal_number v.natAbs (chr '-') hmem
      exact absurd hminus (by decide)
    · rintro ⟨⟨_, hne0⟩, hv⟩
      omega

theorem spelling_iff {e : NumExpr} (h : e.sign ≠ .plus) (arg : NumArg) :
    e.sign.text ++ e.digits = arg.numeral ↔ e.Spelled ∧ arg.int = e.literal := by
  unfold NumArg.numeral NumExpr.Spelled NumExpr.literal
  cases hs : e.sign with
  | plus => exact absurd hs h
  | none =>
    refine (digits_eq_iff e.digits_ne e.digits_number arg.int).trans ?_
    simp
  | minus =>
    refine (minus_digits_eq_iff e.digits_ne e.digits_number arg.int).trans ?_
    simp

/-- A number renders to the text of its value unless its own text is taken, which has then to be that text. -/
theorem rendersValue_iff (e : NumExpr) (arg : NumArg) :
    RendersValue e arg ↔ (e.Taken → e.Spelled ∧ arg.int = e.literal) := by
  have hval : (arg.toVal e.text).render = arg.numeral ↔ (e.Taken → e.Spelled ∧ arg.int = e.literal) := by
    rw [toVal_text]
    unfold numToVal
    by_cases h : e.Taken
    · rw [e.scanned.taken h]
      exact (spelling_iff h.1 arg).trans ⟨fun hr _ => hr, fun hr => hr h⟩
    · rw [e.scanned.refused h]
      exact ⟨fun _ ht => absurd ht h, fun _ => plain_render arg⟩
  constructor
  · rintro ⟨hr, _⟩
    exact hval.mp hr
  · intro hr
    exact ⟨hval.mpr hr, (congrArg PlainValue.render (toKeyVal_text e arg)).trans (hval.mpr hr)⟩

def octalExpr : NumExpr where
  sign := .none
  gap := []
  digits := s8 "010"
  suffix := []
  rest := []
  gap_blank := by simp
  gap_nil _ := rfl
  digits_ne := List.cons_ne_nil _ _
  digits_number := List.all_eq_true.mp (by decide)
  suffix_chars := by simp
  rest_head := by simp

/-- The octal literal is written as `010`, not as `8`. -/
theorem not_rendersValue : octalExpr.text = s8 "010" ∧ ¬ RendersValue octalExpr (.i32 8) := by
  refine ⟨rfl, fun h => ?_⟩
  exact absurd h.val (by decide)

end CWebServer
