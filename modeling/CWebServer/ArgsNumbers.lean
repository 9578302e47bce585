import CWebServer.ArgsMissing
import CWebServer.ParseSigned
import CWebServer.ParseUnsigned

/-!
# Numbers as values

`arg_nextOpt` compares the offset of a number with the index of the last byte
of its value. A number that is read to its end has the offset behind it, so
that it is rejected, and what is accepted is what the parsers stop at its last
byte.
-/

namespace CWebServer

/-! ## Where a parser stops -/

/-- The offset of the digits from `out` on, up to a value with `limit`. -/
def digitsOffset (limit : Nat → Prop) [DecidablePred limit] : List UInt8 → Nat → Nat → Nat
  | [], _, idx => idx
  | c :: str, out, idx =>
    if strIsNumberChar c then
      if limit (appendDigit out c) then idx else digitsOffset limit str (appendDigit out c) (idx + 1)
    else idx

/-- Digits below the limit, and a last byte that is no digit or comes to the limit. -/
def StopsAtLast (limit : Nat → Prop) (out : Nat) (str : List UInt8) : Prop :=
  ∃ digits last, str = digits ++ [last] ∧ (∀ c ∈ digits, strIsNumberChar c = true) ∧
    (∀ p, p <+: digits → ¬ limit (p.foldl appendDigit out)) ∧
    (strIsNumberChar last = true → limit ((digits ++ [last]).foldl appendDigit out))

section
variable {limit : Nat → Prop}

theorem not_stopsAtLast_nil (out : Nat) : ¬ StopsAtLast limit out [] := by
  rintro ⟨digits, last, h, -⟩
  exact List.append_ne_nil_of_right_ne_nil digits (List.cons_ne_nil last []) h.symm

theorem stopsAtLast_single {out : Nat} (hout : ¬ limit out) (c : UInt8) :
    StopsAtLast limit out [c] ↔ (strIsNumberChar c = true → limit (appendDigit out c)) := by
  constructor
  · rintro ⟨digits, last, h, -, -, hlast⟩
    cases digits with
    | nil =>
      cases h
      exact hlast
    | cons d digits =>
      have hlen := congrArg List.length h
      simp at hlen
  · intro hlast
    refine ⟨[], c, rfl, by simp, fun p hp => ?_, hlast⟩
    rw [List.prefix_nil.mp hp]
    exact hout

theorem stopsAtLast_cons {out : Nat} (hout : ¬ limit out) (c b : UInt8) (str : List UInt8) :
    StopsAtLast limit out (c :: b :: str) ↔
      strIsNumberChar c = true ∧ ¬ limit (appendDigit out c) ∧ StopsAtLast limit (appendDigit out c) (b :: str) := by
  constructor
  · rintro ⟨digits, last, h, hnumber, hbelow, hlast⟩
    cases digits with
    | nil => cases h
    | cons d digits =>
      obtain ⟨rfl, hrest⟩ := List.cons.inj h
      refine ⟨hnumber c List.mem_cons_self, hbelow [c] (List.prefix_append [c] digits), digits, last, hrest,
        fun e he => hnumber e (List.mem_cons_of_mem c he), fun p hp => ?_, hlast⟩
      exact hbelow (c :: p) (List.cons_prefix_cons.mpr ⟨rfl, hp⟩)
  · rintro ⟨hc, hnext, digits, last, h, hnumber, hbelow, hlast⟩
    refine ⟨c :: digits, last, by rw [h]; rfl, List.forall_mem_cons.mpr ⟨hc, hnumber⟩, fun p hp => ?_, hlast⟩
    cases p with
    | nil => exact hout
    | cons d p =>
      obtain ⟨rfl, hrest⟩ := List.cons_prefix_cons.mp hp
      exact hbelow p hrest

variable [DecidablePred limit]

theorem digitsOffset_last_iff (str : List UInt8) {out : Nat} (hout : ¬ limit out) (idx : Nat) :
    digitsOffset limit str out idx + 1 = idx + str.length ↔ StopsAtLast limit out str := by
  induction str generalizing out idx with
  | nil => exact iff_of_false (Nat.succ_ne_self idx) (not_stopsAtLast_nil out)
  | cons c str ih =>
    cases str with
    | nil =>
      rw [stopsAtLast_single hout, digitsOffset]
      by_cases hc : strIsNumberChar c = true
      · rw [if_pos hc]
        by_cases hnext : limit (appendDigit out c)
        · rw [if_pos hnext]
          exact iff_of_true rfl fun _ => hnext
        · rw [if_neg hnext]
          exact iff_of_false (Nat.succ_ne_self (idx + 1)) fun h => hnext (h hc)
      · rw [if_neg hc]
        exact iff_of_true rfl fun h => absurd h hc
    | cons b str =>
      rw [stopsAtLast_cons hout, digitsOffset]
      have hearly : ¬ idx + 1 = idx + (c :: b :: str).length := by simp
      by_cases hc : strIsNumberChar c = true
      · rw [if_pos hc]
        by_cases hnext : limit (appendDigit out c)
        · rw [if_pos hnext]
          exact iff_of_false hearly fun h => h.2.1 hnext
        · rw [if_neg hnext, ← ih hnext (idx + 1), List.length_cons, ← Nat.add_assoc, Nat.add_right_comm idx]
          exact ⟨fun h => ⟨hc, hnext, h⟩, fun h => h.2.2⟩
      · rw [if_neg hc]
        exact iff_of_false hearly fun h => hc h.1

end

/-! ## The two parsers -/

theorem parseU32Loop_offset (str : List UInt8) (out idx : Nat) :
    (parseU32Loop str out idx).2 = digitsOffset (u32Max ≤ ·) str out idx := by
  induction str generalizing out idx with
  | nil => rfl
  | cons c str ih =>
    rw [digitsOffset]
    by_cases hc : strIsNumberChar c = true
    · rw [parseU32Loop_number hc, if_pos hc, ← ih]
      exact apply_ite Prod.snd _ _ _
    · rw [parseU32Loop, if_neg hc, if_neg hc]

/-- `out` is a `u64`, and the loop ends at the greatest one. -/
def atI64Max (n : Nat) : Prop := 2 ^ 64 - 1 ≤ n % 2 ^ 64

instance : DecidablePred atI64Max := fun n => inferInstanceAs (Decidable (2 ^ 64 - 1 ≤ n % 2 ^ 64))

theorem ofNat_appendDigit {c : UInt8} (hc : strIsNumberChar c = true) (n : Nat) :
    UInt64.ofNat n * 10 + (c - chr '0').toUInt64 = UInt64.ofNat (appendDigit n c) := by
  obtain ⟨d, hd, rfl⟩ := strIsNumberChar_iff.mp hc
  rw [← UInt64.toNat_inj, UInt64.toNat_add, UInt64.toNat_mul, UInt8.toNat_toUInt64, digit_sub hd,
    appendDigit_digit _ hd, UInt64.toNat_ofNat', UInt64.toNat_ofNat', Nat.mod_add_mod, Nat.add_mod, Nat.mod_mul_mod,
    ← Nat.add_mod]
  rfl

theorem parseS64Loop_offset (mult : Int64) (str : List UInt8) (n idx : Nat) :
    (parseS64Loop mult str (UInt64.ofNat n) idx).2 = digitsOffset atI64Max str n idx := by
  induction str generalizing n idx with
  | nil => rfl
  | cons c str ih =>
    rw [digitsOffset, parseS64Loop]
    by_cases hc : strIsNumberChar c = true
    · have hmax : i64Max.toUInt64 ≤ UInt64.ofNat (appendDigit n c) ↔ atI64Max (appendDigit n c) := by
        rw [UInt64.le_iff_toNat_le, UInt64.toNat_ofNat']
        exact Iff.rfl
      rw [if_pos hc, if_pos hc, ← ih]
      dsimp only
      rw [ofNat_appendDigit hc]
      by_cases hend : atI64Max (appendDigit n c)
      · rw [if_pos hend, if_pos (hmax.mpr hend)]
      · rw [if_neg hend, if_neg (fun h => hend (hmax.mp h))]
    · rw [if_neg hc, if_neg hc]

theorem argWholeValue_iff {value : List UInt8} (hne : value ≠ []) (hsize : value.length < 2 ^ 64) (offset : Nat) :
    argWholeValue offset value = true ↔ offset + 1 = value.length := by
  have hpos := List.length_pos_of_ne_nil hne
  unfold argWholeValue wrap64
  rw [decide_eq_true_eq]
  omega

theorem wholeU32_iff {value : List UInt8} (hsize : value.length < 2 ^ 64) :
    argWholeValue (strParseU32N value).2 value = true ↔ StopsAtLast (u32Max ≤ ·) 0 value := by
  by_cases hne : value = []
  · subst hne
    exact iff_of_false (by decide) (not_stopsAtLast_nil 0)
  · rw [argWholeValue_iff hne hsize, strParseU32N, parseU32Loop_offset, ← digitsOffset_last_iff value (by decide) 0,
      Nat.zero_add]

theorem wholeS64_iff {value : List UInt8} (hsize : value.length < 2 ^ 64) :
    argWholeValue (strParseS64N value).2 value = true ↔ StopsAtLast atI64Max 0 value.tail := by
  cases value with
  | nil => exact iff_of_false (by decide) (not_stopsAtLast_nil 0)
  | cons c rest =>
    have hoffset : (strParseS64N (c :: rest)).2 = digitsOffset atI64Max rest 0 1 := parseS64Loop_offset _ rest 0 1
    rw [argWholeValue_iff (List.cons_ne_nil c rest) hsize, hoffset, List.tail_cons,
      ← digitsOffset_last_iff rest (by decide) 1, List.length_cons, Nat.add_comm rest.length]

/-! ## Numbers -/

def IsNumber (max : Nat) (value : List UInt8) : Prop :=
  value ≠ [] ∧ (∀ c ∈ value, strIsNumberChar c = true) ∧ decimalValue value ≤ max

theorem decimalValue_tail_le (value : List UInt8) : decimalValue value.tail ≤ decimalValue value := by
  cases value with
  | nil => exact Nat.le_refl _
  | cons c rest =>
    rcases Nat.eq_zero_or_pos (appendDigit 0 c) with hzero | hpos
    · exact Nat.le_of_eq (congrArg (fun out => rest.foldl appendDigit out) hzero.symm)
    · exact Nat.le_of_lt (foldl_appendDigit_lt rest hpos)

theorem IsNumber.parsed {max : Nat} {value : List UInt8} (h : IsNumber max value) :
    (strParseU32N value).1 = min (decimalValue value) u32Max := by
  have hall : value.takeWhile strIsNumberChar = value := List.takeWhile_eq_self_iff.mpr h.2.1
  unfold strParseU32N decimalValue
  rcases Nat.lt_or_ge (value.foldl appendDigit 0) u32Max with hlt | hge
  · rw [parseU32Loop_lt (by rwa [hall]), hall, Nat.min_eq_left (Nat.le_of_lt hlt)]
  · rw [(parseU32Loop_ge (by decide) (by rwa [hall]) 0).1, Nat.min_eq_right hge]

theorem IsNumber.stored {max : Nat} {value : List UInt8} (h : IsNumber max value) :
    (strParseU32N value).1.toUInt32.toNat = min (decimalValue value) u32Max := by
  have hle := Nat.min_le_right (decimalValue value) u32Max
  rw [u32Max] at hle
  rw [h.parsed, Nat.toUInt32_eq, UInt32.toNat_ofNat', u32Max]
  exact Nat.mod_eq_of_lt (by omega)

theorem IsNumber.not_stopsS64 {max : Nat} (hmax : max < 2 ^ 64 - 1) {value : List UInt8} (h : IsNumber max value) :
    ¬ StopsAtLast atI64Max 0 value.tail := by
  obtain ⟨-, hnumber, hle⟩ := h
  rintro ⟨digits, last, heq, -, -, hlast⟩
  have hmem : last ∈ value.tail := heq ▸ List.mem_append_right digits (List.mem_singleton_self last)
  have hend := hlast (hnumber last (List.mem_of_mem_tail hmem))
  rw [← heq] at hend
  have htail := decimalValue_tail_le value
  unfold atI64Max at hend
  unfold decimalValue at htail hle
  omega

theorem IsNumber.stopsU32_iff {value : List UInt8} (h : IsNumber 4294967295 value) :
    StopsAtLast (u32Max ≤ ·) 0 value ↔ u32Max ≤ decimalValue value := by
  obtain ⟨hne, hnumber, hle⟩ := h
  constructor
  · rintro ⟨digits, last, rfl, -, -, hlast⟩
    exact hlast (hnumber last (List.mem_append_right digits (List.mem_singleton_self last)))
  · intro hge
    refine ⟨value.dropLast, value.getLast hne, (List.dropLast_append_getLast hne).symm,
      fun c hc => hnumber c (List.dropLast_subset value hc), fun p hp => ?_, fun _ => ?_⟩
    · have hlast : decimalValue value = appendDigit (decimalValue value.dropLast) (value.getLast hne) := by
        conv => lhs; rw [← List.dropLast_append_getLast hne]
        exact List.foldl_append ..
      obtain ⟨q, hq⟩ := hp
      have hgrow : p.foldl appendDigit 0 ≤ decimalValue value.dropLast := by
        rw [← hq, decimalValue, List.foldl_append]
        exact le_foldl_appendDigit q _
      unfold appendDigit at hlast
      rw [u32Max]
      omega
    · rw [List.dropLast_append_getLast hne]
      exact hge

/-! ## A call with a value -/

/-- The next argument names the option at `idx`, and the one behind it is its value. -/
structure ValueCall (ctx : ArgCtx) (idx : Nat) (opt : ArgOpt) (value : CStr) : Prop where
  next_lt : ctx.nextIdx < ctx.inputOptsCount
  value_lt : ctx.nextIdx + 1 < ctx.inputOptsCount
  key : ∃ charOpt longName key, ctx.inputOpts[ctx.nextIdx.toNat]? = some charOpt ∧
    argKey charOpt.bytes = some (longName, key) ∧ argSearch longName key ctx.opts 0 = some (idx, opt)
  value_get : ctx.inputOpts[(ctx.nextIdx + 1).toNat]? = some value
  value_dash : value.bytes.headD 0 ≠ chr '-'
  value_size : value.bytes.length < 2 ^ 64

theorem argNextOpt_value {ctx : ArgCtx} {idx : Nat} {opt : ArgOpt} {value : CStr} (h : ValueCall ctx idx opt value) :
    argNextOpt ctx = some (argFound { ctx with nextIdx := ctx.nextIdx + 1 } idx opt value.bytes) := by
  obtain ⟨charOpt, longName, key, hget, hkey, hsearch⟩ := h.key
  exact argNextOpt_match h.next_lt hget hkey (argValue_next h.value_lt h.value_get h.value_dash) hsearch

section
variable {ctx : ArgCtx} {idx : Nat} {opt : ArgOpt} {value : List UInt8}

theorem argFound_shortName {whole : Bool} (htyped : ∀ ctx, (argTyped ctx opt value).1 =
      if whole then opt.shortName else argErrorInvalidValue) :
    (argFound ctx idx opt value).1 =
      if Repeated ctx idx opt then argErrorDuplicate
      else if LacksValue opt value then argErrorMissingValue
      else if whole then opt.shortName else argErrorInvalidValue := by
  rcases argFound_cases ctx idx opt value with ⟨hrep, heq⟩ | ⟨hrep, hlacks, heq⟩ | ⟨hrep, hlacks, heq⟩
  · rw [heq, if_pos hrep]
  · rw [heq, if_neg hrep, if_pos hlacks]
  · rw [heq, if_neg hrep, if_neg hlacks, htyped]

theorem foundi32Value_zero : (argFound ctx idx opt value).2.foundi32Value = 0 := by
  obtain ⟨f, u, hframe⟩ := argFound_frame ctx idx opt value
  rw [hframe]
  rfl

theorem foundFlagsValue_eq (htype : opt.type = .flags) : (argFound ctx idx opt value).2.foundFlagsValue =
    if Repeated ctx idx opt then 0 else if LacksValue opt value then 0 else (strParseU32N value).1.toUInt32 := by
  rcases argFound_cases ctx idx opt value with ⟨hrep, heq⟩ | ⟨hrep, hlacks, heq⟩ | ⟨hrep, hlacks, heq⟩
  · rw [heq, if_pos hrep]
    rfl
  · rw [heq, if_neg hrep, if_pos hlacks]
    rfl
  · rw [heq, if_neg hrep, if_neg hlacks]
    unfold argTyped
    rw [htype]

end

/-! ## Acceptance -/

/-- The call returns the short name for the numbers up to `max`, which it stores, and an error for all other values. -/
def AcceptsNumber (max : Nat) (stored : ArgCtx → Int) (ctx : ArgCtx) (opt : ArgOpt) (value : List UInt8) : Prop :=
  ∃ shortName ctx', argNextOpt ctx = some (shortName, ctx') ∧
    (shortName = opt.shortName ↔ IsNumber max value) ∧
    (IsNumber max value → stored ctx' = decimalValue value) ∧
    (¬ IsNumber max value → shortName = argErrorInvalidValue)

def RejectsValue (ctx : ArgCtx) (idx : Nat) (opt : ArgOpt) (value : List UInt8) (stops : Prop) : Prop :=
  ¬ Repeated ctx idx opt ∧ ¬ LacksValue opt value ∧ opt.shortName ≠ argErrorInvalidValue ∧ ¬ stops

/-- The number of an `i32` is never stored and never accepted. -/
def I32Condition (ctx : ArgCtx) (idx : Nat) (opt : ArgOpt) (value : List UInt8) : Prop :=
  (IsNumber 2147483647 value → decimalValue value = 0 ∧
    opt.shortName = if Repeated ctx idx opt then argErrorDuplicate else argErrorInvalidValue) ∧
  (¬ IsNumber 2147483647 value → RejectsValue ctx idx opt value (StopsAtLast atI64Max 0 value.tail))

/-- Of the numbers of a `u32` only `u32_max` is accepted and stored. -/
def FlagsCondition (ctx : ArgCtx) (idx : Nat) (opt : ArgOpt) (value : List UInt8) : Prop :=
  (IsNumber 4294967295 value →
    if Repeated ctx idx opt then decimalValue value = 0 ∧ opt.shortName = argErrorDuplicate
    else decimalValue value = u32Max ∨ (decimalValue value < u32Max ∧ opt.shortName = argErrorInvalidValue)) ∧
  (¬ IsNumber 4294967295 value → RejectsValue ctx idx opt value (StopsAtLast (u32Max ≤ ·) 0 value))

section
variable {ctx : ArgCtx} {idx : Nat} {opt : ArgOpt} {value : List UInt8}

theorem rejectsValue_iff {whole : Bool} {stops : Prop} (hwhole : whole = true ↔ stops)
    (htyped : ∀ ctx, (argTyped ctx opt value).1 = if whole then opt.shortName else argErrorInvalidValue) :
    (argFound ctx idx opt value).1 = argErrorInvalidValue ∧ opt.shortName ≠ argErrorInvalidValue ↔
      RejectsValue ctx idx opt value stops := by
  unfold RejectsValue
  rw [argFound_shortName htyped, ← hwhole]
  by_cases hrep : Repeated ctx idx opt
  · rw [if_pos hrep]
    exact iff_of_false (fun h => absurd h.1 (by decide)) fun h => h.1 hrep
  · rw [if_neg hrep]
    by_cases hlacks : LacksValue opt value
    · rw [if_pos hlacks]
      exact iff_of_false (fun h => absurd h.1 (by decide)) fun h => h.2.1 hlacks
    · rw [if_neg hlacks]
      cases whole with
      | true => exact iff_of_false (fun h => h.2 h.1) fun h => h.2.2.2 rfl
      | false => exact ⟨fun h => ⟨hrep, hlacks, h.2, Bool.false_ne_true⟩, fun h => ⟨rfl, h.2.2.1⟩⟩

theorem IsNumber.hasValue {max : Nat} {value : List UInt8} (h : IsNumber max value) : ¬ LacksValue opt value :=
  fun hlacks => h.1 (List.length_eq_zero_iff.mp hlacks.2)

theorem argTyped_i32 (htype : opt.type = .i32) (ctx : ArgCtx) : (argTyped ctx opt value).1 =
    if argWholeValue (strParseS64N value).2 value then opt.shortName else argErrorInvalidValue := by
  unfold argTyped
  rw [htype]

theorem argTyped_flags (htype : opt.type = .flags) (ctx : ArgCtx) : (argTyped ctx opt value).1 =
    if argWholeValue (strParseU32N value).2 value then opt.shortName else argErrorInvalidValue := by
  unfold argTyped
  rw [htype]

theorem i32Number_iff (htype : opt.type = .i32) (hsize : value.length < 2 ^ 64) (hn : IsNumber 2147483647 value) :
    (argFound ctx idx opt value).1 = opt.shortName ∧
        (argFound ctx idx opt value).2.foundi32Value.toInt = decimalValue value ↔
      decimalValue value = 0 ∧
        opt.shortName = if Repeated ctx idx opt then argErrorDuplicate else argErrorInvalidValue := by
  have hwhole := Bool.eq_false_iff.mpr (mt (wholeS64_iff hsize).mp (hn.not_stopsS64 (by decide)))
  rw [foundi32Value_zero, argFound_shortName (argTyped_i32 htype), if_neg hn.hasValue, hwhole,
    if_neg Bool.false_ne_true]
  show _ ∧ (0 : Int) = _ ↔ _
  rw [and_comm, eq_comm, Int.natCast_eq_zero, eq_comm (a := opt.shortName)]

theorem flagsNumber_iff (htype : opt.type = .flags) (hsize : value.length < 2 ^ 64) (hn : IsNumber 4294967295 value) :
    (argFound ctx idx opt value).1 = opt.shortName ∧
        ((argFound ctx idx opt value).2.foundFlagsValue.toNat : Int) = decimalValue value ↔
      if Repeated ctx idx opt then decimalValue value = 0 ∧ opt.shortName = argErrorDuplicate
      else decimalValue value = u32Max ∨ (decimalValue value < u32Max ∧ opt.shortName = argErrorInvalidValue) := by
  have hwhole := (wholeU32_iff hsize).trans hn.stopsU32_iff
  rw [foundFlagsValue_eq htype, argFound_shortName (argTyped_flags htype), if_neg hn.hasValue, if_neg hn.hasValue]
  by_cases hrep : Repeated ctx idx opt
  · rw [if_pos hrep, if_pos hrep, if_pos hrep]
    show _ ∧ (0 : Int) = _ ↔ _
    rw [and_comm, eq_comm, Int.natCast_eq_zero, eq_comm (a := opt.shortName)]
  · rw [if_neg hrep, if_neg hrep, if_neg hrep, hn.stored]
    rcases Nat.lt_or_ge (decimalValue value) u32Max with hlt | hge
    · rw [if_neg (fun h => absurd (hwhole.mp h) (Nat.not_le.mpr hlt)), Nat.min_eq_left (Nat.le_of_lt hlt)]
      constructor
      · rintro ⟨hshort, -⟩
        exact Or.inr ⟨hlt, hshort.symm⟩
      · rintro (heq | ⟨-, hshort⟩)
        · exact absurd heq (Nat.ne_of_lt hlt)
        · exact ⟨hshort.symm, rfl⟩
    · rw [if_pos (hwhole.mpr hge), Nat.min_eq_right hge]
      constructor
      · rintro ⟨-, heq⟩
        exact Or.inl (Int.natCast_inj.mp heq).symm
      · rintro (heq | ⟨hlt, -⟩)
        · exact ⟨rfl, congrArg Int.ofNat heq.symm⟩
        · exact absurd hge (Nat.not_le.mpr hlt)

end

section
variable {ctx : ArgCtx} {idx : Nat} {opt : ArgOpt} {value : CStr}

theorem acceptsNumber_iff (h : ValueCall ctx idx opt value) (max : Nat) (stored : ArgCtx → Int) :
    AcceptsNumber max stored ctx opt value.bytes ↔
      (IsNumber max value.bytes →
        (argFound { ctx with nextIdx := ctx.nextIdx + 1 } idx opt value.bytes).1 = opt.shortName ∧
          stored (argFound { ctx with nextIdx := ctx.nextIdx + 1 } idx opt value.bytes).2 = decimalValue value.bytes) ∧
      (¬ IsNumber max value.bytes →
        (argFound { ctx with nextIdx := ctx.nextIdx + 1 } idx opt value.bytes).1 = argErrorInvalidValue ∧
          opt.shortName ≠ argErrorInvalidValue) := by
  unfold AcceptsNumber
  rw [argNextOpt_value h]
  constructor
  · rintro ⟨shortName, ctx', hcall, hshort, hstored, herror⟩
    rw [Option.some.inj hcall]
    refine ⟨fun hn => ⟨hshort.mpr hn, hstored hn⟩, fun hn => ⟨herror hn, fun heq => hn ?_⟩⟩
    exact hshort.mp ((herror hn).trans heq.symm)
  · rintro ⟨hyes, hno⟩
    refine ⟨_, _, rfl, ⟨fun heq => ?_, fun hn => (hyes hn).1⟩, fun hn => (hyes hn).2, fun hn => (hno hn).1⟩
    by_contra hn
    exact (hno hn).2 (heq.symm.trans (hno hn).1)

theorem acceptsI32_iff (h : ValueCall ctx idx opt value) (htype : opt.type = .i32) :
    AcceptsNumber 2147483647 (fun ctx => ctx.foundi32Value.toInt) ctx opt value.bytes ↔
      I32Condition ctx idx opt value.bytes := by
  unfold I32Condition
  rw [acceptsNumber_iff h]
  apply and_congr
  · apply imp_congr_right
    intro hn
    exact @i32Number_iff { ctx with nextIdx := ctx.nextIdx + 1 } idx opt _ htype h.value_size hn
  · apply imp_congr_right
    intro _
    exact @rejectsValue_iff { ctx with nextIdx := ctx.nextIdx + 1 } idx opt _ _ _ (wholeS64_iff h.value_size)
      (argTyped_i32 htype)

theorem acceptsFlags_iff (h : ValueCall ctx idx opt value) (htype : opt.type = .flags) :
    AcceptsNumber 4294967295 (fun ctx => ctx.foundFlagsValue.toNat) ctx opt value.bytes ↔
      FlagsCondition ctx idx opt value.bytes := by
  unfold FlagsCondition
  rw [acceptsNumber_iff h]
  apply and_congr
  · apply imp_congr_right
    intro hn
    exact @flagsNumber_iff { ctx with nextIdx := ctx.nextIdx + 1 } idx opt _ htype h.value_size hn
  · apply imp_congr_right
    intro _
    exact @rejectsValue_iff { ctx with nextIdx := ctx.nextIdx + 1 } idx opt _ _ _ (wholeU32_iff h.value_size)
      (argTyped_flags htype)

theorem acceptsNumbers_iff (h : ValueCall ctx idx opt value) :
    (opt.type = .i32 → (AcceptsNumber 2147483647 (fun ctx => ctx.foundi32Value.toInt) ctx opt value.bytes ↔
      I32Condition ctx idx opt value.bytes)) ∧
    (opt.type = .flags → (AcceptsNumber 4294967295 (fun ctx => ctx.foundFlagsValue.toNat) ctx opt value.bytes ↔
      FlagsCondition ctx idx opt value.bytes)) :=
  ⟨acceptsI32_iff h, acceptsFlags_iff h⟩

end

def countOpt : ArgOpt where
  name := s8 "count"
  shortName := 'n'.toNat.toInt32
  type := .i32
  flags := 0
  defaultValue := []

/-- `-n 5` -/
def countCtx : ArgCtx := argMakeCtx [countOpt] [⟨s8 "-n", by decide⟩, ⟨s8 "5", by decide⟩] 2

theorem valueCall_five : ValueCall countCtx 0 countOpt ⟨s8 "5", by decide⟩ where
  next_lt := by decide
  value_lt := by decide
  key := ⟨_, _, _, rfl, rfl, rfl⟩
  value_get := rfl
  value_dash := by decide
  value_size := by decide

def levelOpt : ArgOpt where
  name := s8 "level"
  shortName := 'l'.toNat.toInt32
  type := .flags
  flags := 0
  defaultValue := []

/-- `-l 2147483647` -/
def levelCtx : ArgCtx := argMakeCtx [levelOpt] [⟨s8 "-l", by decide⟩, ⟨s8 "2147483647", by decide⟩] 2

theorem valueCall_level : ValueCall levelCtx 0 levelOpt ⟨s8 "2147483647", by decide⟩ where
  next_lt := by decide
  value_lt := by decide
  key := ⟨_, _, _, rfl, rfl, rfl⟩
  value_get := rfl
  value_dash := by decide
  value_size := by decide

/-- A value of each type. -/
theorem acceptsNumbers_iff_five :
    (AcceptsNumber 2147483647 (fun ctx => ctx.foundi32Value.toInt) countCtx countOpt (s8 "5") ↔
      I32Condition countCtx 0 countOpt (s8 "5")) ∧
    (AcceptsNumber 4294967295 (fun ctx => ctx.foundFlagsValue.toNat) levelCtx levelOpt (s8 "2147483647") ↔
      FlagsCondition levelCtx 0 levelOpt (s8 "2147483647")) :=
  ⟨(acceptsNumbers_iff valueCall_five).1 rfl, (acceptsNumbers_iff valueCall_level).2 rfl⟩

theorem not_acceptsNumber_five : ¬ AcceptsNumber 2147483647 (fun ctx => ctx.foundi32Value.toInt) countCtx countOpt
    (s8 "5") := by
  rintro ⟨shortName, ctx', hcall, hshort, -⟩
  have hn : IsNumber 2147483647 (s8 "5") := ⟨by decide, by simp [s8]; decide, by decide⟩
  have hresult : (argNextOpt countCtx).map Prod.fst = some argErrorInvalidValue := by decide
  have hne : countOpt.shortName ≠ argErrorInvalidValue := by decide
  rw [hcall, Option.map_some, hshort.mpr hn] at hresult
  exact hne (Option.some.inj hresult)

end CWebServer
