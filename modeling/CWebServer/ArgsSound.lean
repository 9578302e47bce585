import CWebServer.Args
import CWebServer.Lib.BitField
import Mathlib.Data.List.Nodup

/-!
# Reading a command line back

A command line that is written from assignments of values to options is read
as these assignments. The bit field holds the options that have been read, and
the index stands in front of the assignments that are left.
-/

namespace CWebServer

/-! ## Tables and command lines -/

/-- A table of string options. Short names are one byte, in an `i32`. -/
structure ArgTable where
  opts : List ArgOpt
  count_le : opts.length ≤ 64
  string : ∀ opt ∈ opts, opt.type = .string
  name_ne : ∀ opt ∈ opts, opt.name ≠ []
  name_nul : ∀ opt ∈ opts, 0 ∉ opt.name
  names : (opts.map ArgOpt.name).Nodup
  short_byte : ∀ opt ∈ opts, 0 ≤ opt.shortName.toInt ∧ opt.shortName.toInt < 256
  short_dash : ∀ opt ∈ opts, opt.shortName.toInt ≠ (chr '-').toNat
  shorts : (opts.map ArgOpt.shortName).Nodup

def ArgTable.opt (table : ArgTable) (idx : Fin table.opts.length) : ArgOpt := table.opts[idx]

def ArgOpt.shortChar (opt : ArgOpt) : UInt8 := opt.shortName.toInt.toNat.toUInt8

/-- A value for an option of the table, by its long or its short name. No argument holds the terminator as a name. -/
structure Assignment (table : ArgTable) where
  idx : Fin table.opts.length
  longName : Bool
  short_ne : longName = false → (table.opt idx).shortChar ≠ 0
  value : CStr
  value_ne : value.bytes ≠ []
  value_dash : value.bytes.head? ≠ some (chr '-')

namespace Assignment

variable {table : ArgTable} (a : Assignment table)

def opt : ArgOpt := table.opt a.idx

theorem opt_mem : a.opt ∈ table.opts := List.getElem_mem a.idx.isLt

/-- The name that is written behind the dashes. -/
def name : List UInt8 := if a.longName then a.opt.name else [a.opt.shortChar]

theorem nul_name : 0 ∉ a.name := by
  unfold name
  cases h : a.longName with
  | true => exact table.name_nul a.opt a.opt_mem
  | false => exact fun hmem => a.short_ne h (List.mem_singleton.mp hmem).symm

def dashes : List UInt8 := if a.longName then s8 "--" else s8 "-"

theorem nul_dashes : 0 ∉ a.dashes := by
  unfold dashes
  cases a.longName <;> decide

def key : CStr where
  bytes := a.dashes ++ a.name
  nul h := (List.mem_append.mp h).elim a.nul_dashes a.nul_name

def args : List CStr := [a.key, a.value]

def found : ArgFound where
  shortName := a.opt.shortName
  foundKey := a.opt.name
  foundValue := a.value.bytes

end Assignment

/-- Assignments behind the name of the program, of which no two are for the same option unless it allows duplicates. -/
structure CommandLine (table : ArgTable) where
  program : CStr
  program_dash : program.bytes.head? ≠ some (chr '-')
  assignments : List (Assignment table)
  repeats : assignments.Pairwise fun a b => a.idx = b.idx → b.opt.flags &&& argFlagDuplicatesAllowed ≠ 0
  count_lt : 2 * assignments.length + 1 < 2 ^ 32

def CommandLine.inputOpts {table : ArgTable} (line : CommandLine table) : List CStr :=
  line.program :: line.assignments.flatMap Assignment.args

/-! ## Names -/

theorem shortChar_toNat {opt : ArgOpt} (h : 0 ≤ opt.shortName.toInt ∧ opt.shortName.toInt < 256) :
    (opt.shortChar.toNat : Int) = opt.shortName.toInt := by
  unfold ArgOpt.shortChar
  rw [Nat.toUInt8_eq, UInt8.toNat_ofNat']
  omega

theorem toInt32_toNat (c : UInt8) : c.toUInt32.toInt32.toInt = c.toNat := by
  have hc := c.toNat_lt
  rw [← Int32.toInt_toBitVec, UInt32.toBitVec_toInt32, UInt8.toBitVec_toUInt32, BitVec.toInt_setWidth,
    UInt8.toNat_toBitVec]
  apply Int.bmod_eq_of_le <;> omega

variable {table : ArgTable}

theorem shortChar_ne (a : Assignment table) : a.opt.shortChar ≠ chr '-' := by
  intro h
  apply table.short_dash a.opt a.opt_mem
  rw [← shortChar_toNat (table.short_byte a.opt a.opt_mem), h]

theorem argKey_key (a : Assignment table) : argKey a.key.bytes = some (a.longName, a.name) := by
  have hkey : a.key.bytes = a.dashes ++ a.name := rfl
  rw [hkey]
  unfold Assignment.dashes Assignment.name
  cases a.longName with
  | true =>
    have hne := List.length_pos_iff.mpr (table.name_ne a.opt a.opt_mem)
    have hsub : strSubStr (s8 "--" ++ a.opt.name) 2 (s8 "--" ++ a.opt.name).length = a.opt.name :=
      strSubStr_drop (Nat.le_add_left _ 2)
    unfold argKey
    simp only [if_true, strHasPrefix_append, hsub]
    rw [if_neg (Nat.ne_of_gt hne)]
  | false =>
    have hne := shortChar_ne a
    have hlong : strHasPrefix [chr '-', a.opt.shortChar] (s8 "--") = false := by
      simp [strHasPrefix, s8, hne]
    have hshort : strHasPrefix [chr '-', a.opt.shortChar] (s8 "-") = true := strHasPrefix_append (s8 "-") _
    have hshape : argKey [chr '-', a.opt.shortChar] = some (false, [a.opt.shortChar]) :=
      (if_neg (by rw [hlong]; decide)).trans (if_pos ⟨hshort, Nat.lt_add_one 1⟩)
    exact hshape

theorem argKey_skip {bytes : List UInt8} (h : bytes.head? ≠ some (chr '-')) : argKey bytes = none := by
  unfold argKey
  cases bytes with
  | nil => rfl
  | cons c bytes =>
    have hc : c ≠ chr '-' := fun hc => h (congrArg some hc)
    have hone : strHasPrefix (c :: bytes) (s8 "-") = false := by simp [strHasPrefix, s8, hc]
    have htwo : strHasPrefix (c :: bytes) (s8 "--") = false := by simp [strHasPrefix, s8, hc]
    simp [hone, htwo]

theorem ArgTable.opt_inj {β : Type} {f : ArgOpt → β} (h : (table.opts.map f).Nodup)
    {i j : Fin table.opts.length} : f (table.opt i) = f (table.opt j) ↔ i = j := by
  have hlen : (table.opts.map f).length = table.opts.length := List.length_map f
  constructor
  · intro heq
    have hget : (table.opts.map f).get (i.cast hlen.symm) = (table.opts.map f).get (j.cast hlen.symm) := by
      simpa [ArgTable.opt] using heq
    have hval : (i.cast hlen.symm).val = (j.cast hlen.symm).val :=
      congrArg Fin.val (List.nodup_iff_injective_get.mp h hget)
    exact Fin.ext hval
  · rintro rfl
    rfl

/-- The names of the table tell its options apart. -/
theorem argMatches_iff (a : Assignment table) (idx : Fin table.opts.length) :
    argMatches a.longName a.name (table.opt idx) = true ↔ idx = a.idx := by
  unfold argMatches Assignment.name
  cases a.longName with
  | true =>
    simp only [if_true, strIsEqual_iff]
    exact (ArgTable.opt_inj table.names).trans eq_comm
  | false =>
    have hshort : a.opt.shortChar.toUInt32.toInt32 = a.opt.shortName := by
      rw [← Int32.toInt_inj, toInt32_toNat, shortChar_toNat (table.short_byte a.opt a.opt_mem)]
    simp only [Bool.false_eq_true, if_false, List.length_singleton, List.headD_cons, hshort, true_and,
      decide_eq_true_eq]
    exact (ArgTable.opt_inj table.shorts).trans eq_comm

theorem argSearch_eq {longName : Bool} {key : List UInt8} {opts : List ArgOpt} {idx : Nat} (hidx : idx < opts.length)
    (h : ∀ (i : Nat) (hi : i < opts.length), argMatches longName key opts[i] = true ↔ i = idx) (base : Nat) :
    argSearch longName key opts base = some (base + idx, opts[idx]) := by
  induction opts generalizing idx base with
  | nil => cases hidx
  | cons opt opts ih =>
    have hhead : argMatches longName key opt = true ↔ 0 = idx := h 0 (Nat.zero_lt_succ _)
    cases idx with
    | zero => exact if_pos (hhead.mpr rfl)
    | succ idx =>
      have hrest := ih (Nat.lt_of_succ_lt_succ hidx)
        (fun i hi => (h (i + 1) (Nat.succ_lt_succ hi)).trans Nat.succ_inj) (base + 1)
      have hne : ¬ argMatches longName key opt = true := fun hm => absurd (hhead.mp hm) (Nat.zero_ne_add_one idx)
      rw [argSearch, if_neg hne, hrest, Nat.add_assoc, Nat.add_comm 1]
      rfl

theorem argSearch_assignment (a : Assignment table) :
    argSearch a.longName a.name table.opts 0 = some (a.idx.val, a.opt) := by
  have h := argSearch_eq a.idx.isLt
    (fun i hi => (argMatches_iff a ⟨i, hi⟩).trans (Fin.ext_iff (a := ⟨i, hi⟩))) 0
  rw [h, Nat.zero_add]
  rfl

/-! ## A match -/

/-- The option is reported as a duplicate. -/
def Repeated (ctx : ArgCtx) (idx : Nat) (opt : ArgOpt) : Prop :=
  ctx.redArgsBitField &&& 1 <<< idx.toUInt64 = 1 <<< idx.toUInt64 ∧ opt.flags &&& argFlagDuplicatesAllowed = 0

def LacksValue (opt : ArgOpt) (value : List UInt8) : Prop := opt.flags &&& argFlagRequiredValue ≠ 0 ∧ value.length = 0

instance (ctx : ArgCtx) (idx : Nat) (opt : ArgOpt) : Decidable (Repeated ctx idx opt) :=
  inferInstanceAs (Decidable (_ ∧ _))

instance (opt : ArgOpt) (value : List UInt8) : Decidable (LacksValue opt value) := inferInstanceAs (Decidable (_ ∧ _))

def ArgCtx.matched (ctx : ArgCtx) (idx : Nat) (opt : ArgOpt) (value : List UInt8) : ArgCtx :=
  { ctx with
    foundKey := opt.name
    foundValue := if 0 < value.length then value else opt.defaultValue
    foundi32Value := 0
    foundF32Value := 0
    foundFlagsValue := 0
    currentOpt := some idx
    nextIdx := ctx.nextIdx + 1 }

def ArgCtx.recorded (ctx : ArgCtx) (idx : Nat) (opt : ArgOpt) (value : List UInt8) : ArgCtx :=
  { ctx.matched idx opt value with redArgsBitField := ctx.redArgsBitField ||| 1 <<< idx.toUInt64 }

theorem argFound_cases (ctx : ArgCtx) (idx : Nat) (opt : ArgOpt) (value : List UInt8) :
    (Repeated ctx idx opt ∧ argFound ctx idx opt value = (argErrorDuplicate, ctx.matched idx opt value)) ∨
      (¬ Repeated ctx idx opt ∧ LacksValue opt value ∧
        argFound ctx idx opt value = (argErrorMissingValue, ctx.recorded idx opt value)) ∨
      (¬ Repeated ctx idx opt ∧ ¬ LacksValue opt value ∧
        argFound ctx idx opt value = argTyped (ctx.recorded idx opt value) opt value) := by
  by_cases hrep : Repeated ctx idx opt
  · exact Or.inl ⟨hrep, if_pos hrep⟩
  · have hrest : argFound ctx idx opt value = if LacksValue opt value then _ else _ := if_neg hrep
    by_cases hlacks : LacksValue opt value
    · exact Or.inr (Or.inl ⟨hrep, hlacks, hrest.trans (if_pos hlacks)⟩)
    · exact Or.inr (Or.inr ⟨hrep, hlacks, hrest.trans (if_neg hlacks)⟩)

/-- Only the two numbers that are stored change with the type. -/
theorem argTyped_frame (ctx : ArgCtx) (opt : ArgOpt) (value : List UInt8) :
    ∃ f u, (argTyped ctx opt value).2 = { ctx with foundF32Value := f, foundFlagsValue := u } := by
  unfold argTyped
  split
  · exact ⟨_, ctx.foundFlagsValue, rfl⟩
  · exact ⟨ctx.foundF32Value, ctx.foundFlagsValue, rfl⟩
  · exact ⟨ctx.foundF32Value, _, rfl⟩
  · exact ⟨ctx.foundF32Value, ctx.foundFlagsValue, rfl⟩
  · exact ⟨ctx.foundF32Value, ctx.foundFlagsValue, rfl⟩

theorem argFound_frame (ctx : ArgCtx) (idx : Nat) (opt : ArgOpt) (value : List UInt8) :
    ∃ f u, (argFound ctx idx opt value).2 =
      { ctx.matched idx opt value with
        foundF32Value := f
        foundFlagsValue := u
        redArgsBitField :=
          if Repeated ctx idx opt then ctx.redArgsBitField else ctx.redArgsBitField ||| 1 <<< idx.toUInt64 } := by
  rcases argFound_cases ctx idx opt value with ⟨hrep, heq⟩ | ⟨hrep, -, heq⟩ | ⟨hrep, -, heq⟩
  · rw [heq, if_pos hrep]
    exact ⟨0, 0, rfl⟩
  · rw [heq, if_neg hrep]
    exact ⟨0, 0, rfl⟩
  · obtain ⟨f, u, htyped⟩ := argTyped_frame (ctx.recorded idx opt value) opt value
    rw [heq, if_neg hrep, htyped]
    exact ⟨f, u, rfl⟩

/-! ## One option -/

def ArgCtx.afterFound (ctx : ArgCtx) (idx : Nat) (opt : ArgOpt) (value : List UInt8) : ArgCtx :=
  { ctx with
    foundKey := opt.name
    foundValue := value
    foundi32Value := 0
    foundF32Value := 0
    foundFlagsValue := 0
    currentOpt := some idx
    nextIdx := ctx.nextIdx + 1
    redArgsBitField := ctx.redArgsBitField ||| 1 <<< idx.toUInt64 }

theorem argFound_string {ctx : ArgCtx} {idx : Nat} {opt : ArgOpt} {value : List UInt8} (htype : opt.type = .string)
    (hvalue : value ≠ [])
    (hdup : ctx.redArgsBitField &&& 1 <<< idx.toUInt64 = 1 <<< idx.toUInt64 →
      opt.flags &&& argFlagDuplicatesAllowed ≠ 0) :
    argFound ctx idx opt value = (opt.shortName, ctx.afterFound idx opt value) := by
  have hlen := List.length_pos_iff.mpr hvalue
  rcases argFound_cases ctx idx opt value with ⟨hrep, -⟩ | ⟨-, hlacks, -⟩ | ⟨-, -, heq⟩
  · exact absurd hrep.2 (hdup hrep.1)
  · exact absurd hlacks.2 (Nat.ne_of_gt hlen)
  · rw [heq]
    unfold argTyped ArgCtx.recorded ArgCtx.matched
    rw [htype, if_pos hlen]
    rfl

/-- The context in front of the assignments `rest`, where those of `read` have been read. -/
structure Ready (read rest : List (Assignment table)) (ctx : ArgCtx) : Prop where
  opts : ctx.opts = table.opts
  count : ctx.inputOptsCount.toNat = ctx.inputOpts.length
  next_le : ctx.nextIdx.toNat ≤ ctx.inputOpts.length
  inputs : ctx.inputOpts.drop ctx.nextIdx.toNat = rest.flatMap Assignment.args
  bits : BitField.Records ctx.redArgsBitField fun idx => ∃ b ∈ read, b.idx.val = idx

theorem toNat_succ {idx count : UInt32} (h : idx < count) : (idx + 1).toNat = idx.toNat + 1 := by
  have hlt := UInt32.lt_iff_toNat_lt.mp h
  have hcount := count.toNat_lt
  rw [UInt32.toNat_add]
  exact Nat.mod_eq_of_lt (Nat.lt_of_le_of_lt (Nat.succ_le_of_lt hlt) hcount)

theorem left_succ {ctx : ArgCtx} (hlt : ctx.nextIdx < ctx.inputOptsCount) :
    ctx.inputOptsCount.toNat - ctx.nextIdx.toNat = ctx.inputOptsCount.toNat - (ctx.nextIdx + 1).toNat + 1 := by
  have hlt' := UInt32.lt_iff_toNat_lt.mp hlt
  rw [toNat_succ hlt]
  omega

theorem argNextOpt_skip {ctx : ArgCtx} {charOpt : CStr} (hlt : ctx.nextIdx < ctx.inputOptsCount)
    (hget : ctx.inputOpts[ctx.nextIdx.toNat]? = some charOpt) (hkey : argKey charOpt.bytes = none) :
    argNextOpt ctx = argNextOpt { ctx with nextIdx := ctx.nextIdx + 1 } := by
  have hscan : argScan (ctx.inputOptsCount.toNat - ctx.nextIdx.toNat) ctx =
      argScan (ctx.inputOptsCount.toNat - (ctx.nextIdx + 1).toNat) { ctx with nextIdx := ctx.nextIdx + 1 } := by
    rw [left_succ hlt, argScan, if_pos hlt]
    simp [hget, strFromNullTerminatedCharPtr, hkey]
  unfold argNextOpt
  rw [hscan]

theorem argValue_next {ctx : ArgCtx} {value : CStr} (hlt : ctx.nextIdx + 1 < ctx.inputOptsCount)
    (hget : ctx.inputOpts[(ctx.nextIdx + 1).toNat]? = some value) (hdash : value.bytes.headD 0 ≠ chr '-') :
    argValue ctx = some (value.bytes, ctx.nextIdx + 1) := by
  unfold argValue
  rw [if_pos hlt, hget, Option.bind_eq_bind, Option.bind_some, if_pos hdash]
  rfl

/-- The call on an argument that names an option. -/
theorem argNextOpt_match {ctx : ArgCtx} {charOpt : CStr} {longName : Bool} {key value : List UInt8} {next : UInt32}
    {idx : Nat} {opt : ArgOpt} (hlt : ctx.nextIdx < ctx.inputOptsCount)
    (hget : ctx.inputOpts[ctx.nextIdx.toNat]? = some charOpt) (hkey : argKey charOpt.bytes = some (longName, key))
    (hread : argValue ctx = some (value, next)) (hsearch : argSearch longName key ctx.opts 0 = some (idx, opt)) :
    argNextOpt ctx = some (argFound { ctx with nextIdx := next } idx opt value) := by
  have hscan : argScan (ctx.inputOptsCount.toNat - ctx.nextIdx.toNat) ctx =
      some (some (argFound { ctx with nextIdx := next } idx opt value).1,
        (argFound { ctx with nextIdx := next } idx opt value).2) := by
    rw [left_succ hlt, argScan, if_pos hlt]
    simp [hget, strFromNullTerminatedCharPtr, hkey, hread, hsearch]
  unfold argNextOpt
  rw [hscan]
  rfl

theorem argNextOpt_found {ctx : ArgCtx} (a : Assignment table) (hopts : ctx.opts = table.opts)
    (hlt : ctx.nextIdx < ctx.inputOptsCount) (hlt' : ctx.nextIdx + 1 < ctx.inputOptsCount)
    (hkey : ctx.inputOpts[ctx.nextIdx.toNat]? = some a.key)
    (hvalue : ctx.inputOpts[(ctx.nextIdx + 1).toNat]? = some a.value)
    (hdup : ctx.redArgsBitField &&& 1 <<< a.idx.val.toUInt64 = 1 <<< a.idx.val.toUInt64 →
      a.opt.flags &&& argFlagDuplicatesAllowed ≠ 0) :
    argNextOpt ctx = some (a.opt.shortName,
      { ctx with nextIdx := ctx.nextIdx + 1 }.afterFound a.idx a.opt a.value.bytes) := by
  have hread : argValue ctx = some (a.value.bytes, ctx.nextIdx + 1) := by
    apply argValue_next hlt' hvalue
    obtain ⟨c, bytes, hbytes⟩ := List.exists_cons_of_ne_nil a.value_ne
    rw [hbytes]
    rintro rfl
    exact a.value_dash (congrArg List.head? hbytes)
  have hfound : argFound { ctx with nextIdx := ctx.nextIdx + 1 } a.idx a.opt a.value.bytes = _ :=
    argFound_string (table.string a.opt a.opt_mem) a.value_ne hdup
  have hsearch : argSearch a.longName a.name ctx.opts 0 = some (a.idx.val, a.opt) := by
    rw [hopts, argSearch_assignment]
  rw [argNextOpt_match hlt hkey (argKey_key a) hread hsearch, hfound]

theorem Ready.step {read rest : List (Assignment table)} {a : Assignment table} {ctx : ArgCtx}
    (h : Ready read (a :: rest) ctx)
    (hdup : ∀ b ∈ read, b.idx = a.idx → a.opt.flags &&& argFlagDuplicatesAllowed ≠ 0) :
    ∃ ctx', argNextOpt ctx = some (a.opt.shortName, ctx') ∧ ctx'.foundKey = a.opt.name ∧
      ctx'.foundValue = a.value.bytes ∧ Ready (read ++ [a]) rest ctx' := by
  have hinputs : ctx.inputOpts.drop ctx.nextIdx.toNat = a.key :: a.value :: rest.flatMap Assignment.args := h.inputs
  have hlen := congrArg List.length hinputs
  simp only [List.length_drop, List.length_cons] at hlen
  have hlt : ctx.nextIdx < ctx.inputOptsCount := UInt32.lt_iff_toNat_lt.mpr (by rw [h.count]; omega)
  have hnext := toNat_succ hlt
  have hlt' : ctx.nextIdx + 1 < ctx.inputOptsCount :=
    UInt32.lt_iff_toNat_lt.mpr (by rw [hnext, h.count]; omega)
  have hnext' := toNat_succ hlt'
  have hkey : ctx.inputOpts[ctx.nextIdx.toNat]? = some a.key := by
    rw [← Nat.add_zero ctx.nextIdx.toNat, ← List.getElem?_drop, hinputs]
    rfl
  have hvalue : ctx.inputOpts[(ctx.nextIdx + 1).toNat]? = some a.value := by
    rw [hnext, ← List.getElem?_drop, hinputs]
    rfl
  have hidx : a.idx.val < 64 := Nat.lt_of_lt_of_le a.idx.isLt table.count_le
  refine ⟨_, argNextOpt_found a h.opts hlt hlt' hkey hvalue ?_, rfl, rfl, ?_⟩
  · -- A bit that is set is that of an assignment to the same option.
    intro hseen
    obtain ⟨b, hb, hba⟩ := (h.bits.seen_iff hidx).mp hseen
    exact hdup b hb (Fin.ext hba)
  · refine ⟨h.opts, h.count, ?_, ?_, ?_⟩
    · show (ctx.nextIdx + 1 + 1).toNat ≤ ctx.inputOpts.length
      omega
    · show ctx.inputOpts.drop (ctx.nextIdx + 1 + 1).toNat = rest.flatMap Assignment.args
      rw [hnext', hnext, Nat.add_assoc, ← List.drop_drop, hinputs]
      rfl
    · apply (h.bits.insert hidx).congr
      intro i
      simp [or_and_right, exists_or, eq_comm]

/-- The call behind the last argument. The flag of its search for missing arguments has no bit, so that none is
missing. -/
theorem argNextOpt_end {ctx : ArgCtx} (h : ctx.nextIdx = ctx.inputOptsCount) :
    ∃ ctx', argNextOpt ctx = some (argEnd, ctx') := by
  have hzero : ctx.nextIdx - ctx.inputOptsCount = 0 := by rw [h, UInt32.sub_self]
  have hleft : ctx.inputOptsCount.toNat - ctx.nextIdx.toNat = 0 := by rw [h, Nat.sub_self]
  have hmissing : ∃ ctx', argMissing 0 1 ctx = some (false, ctx') := by
    unfold argMissing
    rw [hzero]
    cases hopts : ctx.opts with
    | nil => exact ⟨_, rfl⟩
    | cons opt opts => simp [argMissing]
  obtain ⟨ctx', hmissing⟩ := hmissing
  unfold argNextOpt
  rw [hleft]
  simp [argScan, hzero, hmissing]

theorem Ready.done {read : List (Assignment table)} {ctx : ArgCtx} (h : Ready read [] ctx) :
    ∃ ctx', argNextOpt ctx = some (argEnd, ctx') := by
  have hlen := congrArg List.length h.inputs
  have hle := h.next_le
  simp only [List.length_drop, List.flatMap_nil, List.length_nil] at hlen
  apply argNextOpt_end
  rw [← UInt32.toNat_inj, h.count]
  omega

/-! ## A whole command line -/

theorem shortName_ne_end (a : Assignment table) : a.opt.shortName ≠ argEnd := by
  intro h
  have hbyte := (table.short_byte a.opt a.opt_mem).1
  rw [h] at hbyte
  exact absurd hbyte (by decide)

theorem Ready.run {read rest : List (Assignment table)} {ctx : ArgCtx} (h : Ready read rest ctx)
    (hdup : (read ++ rest).Pairwise fun a b => a.idx = b.idx → b.opt.flags &&& argFlagDuplicatesAllowed ≠ 0) :
    argAll (rest.length + 1) ctx = some (rest.map Assignment.found) := by
  induction rest generalizing read ctx with
  | nil =>
    obtain ⟨ctx', hend⟩ := h.done
    rw [argAll, hend]
    rfl
  | cons a rest ih =>
    have hread : ∀ b ∈ read, b.idx = a.idx → a.opt.flags &&& argFlagDuplicatesAllowed ≠ 0 :=
      fun b hb => (List.pairwise_append.mp hdup).2.2 b hb a List.mem_cons_self
    obtain ⟨ctx', hcall, hkey, hvalue, hready⟩ := h.step hread
    have hrest := ih hready (by rwa [List.append_assoc])
    rw [List.length_cons, argAll, hcall]
    simp [shortName_ne_end, hrest, hkey, hvalue, Assignment.found]

theorem length_args (assignments : List (Assignment table)) :
    (assignments.flatMap Assignment.args).length = 2 * assignments.length := by
  induction assignments with
  | nil => rfl
  | cons a assignments ih =>
    rw [List.flatMap_cons, List.length_append, ih, List.length_cons, Nat.mul_succ, Nat.add_comm]
    rfl

theorem CommandLine.roundTrip (line : CommandLine table) :
    argAll (line.assignments.length + 1)
        (argMakeCtx table.opts line.inputOpts line.inputOpts.length.toUInt32) =
      some (line.assignments.map Assignment.found) := by
  have hlen : line.inputOpts.length = 2 * line.assignments.length + 1 := congrArg (· + 1) (length_args _)
  have hcount : line.inputOpts.length.toUInt32.toNat = line.inputOpts.length := by
    rw [hlen]
    exact Nat.mod_eq_of_lt line.count_lt
  have hlt : (0 : UInt32) < line.inputOpts.length.toUInt32 := by
    rw [UInt32.lt_iff_toNat_lt, hcount, hlen]
    exact Nat.zero_lt_succ _
  let start := argMakeCtx table.opts line.inputOpts line.inputOpts.length.toUInt32
  have hskip : argNextOpt start = argNextOpt { start with nextIdx := 1 } :=
    argNextOpt_skip hlt rfl (argKey_skip line.program_dash)
  have hready : Ready [] line.assignments { start with nextIdx := 1 } := by
    refine ⟨rfl, hcount, ?_, rfl, BitField.records_zero fun idx => ?_⟩
    · show 1 ≤ line.inputOpts.length
      omega
    · rintro ⟨b, hb, _⟩
      cases hb
  have hrun := hready.run line.repeats
  rw [argAll] at hrun ⊢
  rwa [← hskip] at hrun

/-- The options of the server, with the paths that it has under the root of the project. -/
def serverTable (projectRoot : List UInt8) : ArgTable where
  opts := [
    { name := s8 "certificate", shortName := 'c'.toNat.toInt32, type := .string,
      flags := argFlagRequired ||| argFlagRequiredValue, defaultValue := projectRoot ++ s8 "certs/cert.pem" },
    { name := s8 "privateKey", shortName := 'p'.toNat.toInt32, type := .string,
      flags := argFlagRequired ||| argFlagRequiredValue, defaultValue := projectRoot ++ s8 "certs/privatekey.pem" }]
  count_le := Nat.le_add_left 2 62
  string := by simp
  name_ne := by simp [s8]
  name_nul := by simp; decide
  names := by simp; decide
  short_byte := by simp; decide
  short_dash := by simp; decide
  shorts := by simp; decide

/-- `server -p k.pem --certificate c.pem` -/
def serverLine : CommandLine (serverTable []) where
  program := ⟨s8 "server", by decide⟩
  program_dash := by decide
  assignments := [
    { idx := ⟨1, by decide⟩, longName := false, value := ⟨s8 "k.pem", by decide⟩,
      short_ne := by decide, value_ne := by decide, value_dash := by decide },
    { idx := ⟨0, by decide⟩, longName := true, value := ⟨s8 "c.pem", by decide⟩,
      short_ne := by decide, value_ne := by decide, value_dash := by decide }]
  repeats := by decide
  count_lt := by decide

theorem CommandLine.roundTrip_server : argAll 3 (argMakeCtx (serverTable []).opts serverLine.inputOpts 5) =
    some [⟨'p'.toNat.toInt32, s8 "privateKey", s8 "k.pem"⟩, ⟨'c'.toNat.toInt32, s8 "certificate", s8 "c.pem"⟩] :=
  serverLine.roundTrip

end CWebServer
