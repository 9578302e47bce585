import CWebServer.ArgsSound
import CWebServer.Lib.Traces

/-!
# Missing options

What the calls of `arg_nextOpt` return once the arguments are used up. The
search for missing options moves the count of the arguments and compares with
an empty flag, so that it finds none and leaves a context behind that reads on
behind the last argument.
-/

namespace CWebServer

open Traces (trace)

/-- The scan over the arguments that a call starts with. -/
def ArgCtx.scan (ctx : ArgCtx) : Option (Option Int32 × ArgCtx) :=
  argScan (ctx.inputOptsCount.toNat - ctx.nextIdx.toNat) ctx

/-- The next call comes to the end of the arguments. -/
def ArgCtx.UsedUp (ctx : ArgCtx) : Prop := ∃ ctx', ctx.scan = some (none, ctx')

/-- The calls from `ctx` on find these options, by their indices, and leave `ctx'`. -/
inductive Finds : ArgCtx → List Nat → ArgCtx → Prop
  | nil (ctx : ArgCtx) : Finds ctx [] ctx
  | cons {ctx ctx₁ ctx' : ArgCtx} {shortName : Int32} {idx : Nat} {idxs : List Nat}
    (hscan : ctx.scan = some (some shortName, ctx₁)) (hidx : ctx₁.currentOpt = some idx)
    (hrest : Finds ctx₁ idxs ctx') : Finds ctx (idx :: idxs) ctx'

/-- The required options that are not among the found ones. -/
def missingOpts (opts : List ArgOpt) (found : List Nat) : List (ArgOpt × Nat) :=
  opts.zipIdx.filter fun p => p.1.flags &&& argFlagRequired ≠ 0 ∧ p.2 ∉ found

def argNextOpts (ctx : ArgCtx) (calls : Nat) : Option (List Int32 × ArgCtx) :=
  trace (fun ctx (_ : Unit) => argNextOpt ctx) ctx (List.replicate calls ())

/-- Behind the last argument, each missing option is reported once, and then the end however often, without a read
behind the arguments and with the same input. -/
def ReportsMissing (opts : List ArgOpt) (args : List CStr) : Prop :=
  ∀ found ctx, Finds (argMakeCtx opts args args.length.toUInt32) found ctx → ctx.UsedUp →
    ∀ calls, ∃ ctx', argNextOpts ctx calls = some
      (((missingOpts opts found).map (fun _ => argErrorMissingArg) ++ List.replicate calls argEnd).take calls, ctx') ∧
      ctx'.inputOpts = ctx.inputOpts ∧ ctx'.inputOptsCount = ctx.inputOptsCount

/-! ## The scan -/

/-- The fields that describe the input. -/
def ArgCtx.input (ctx : ArgCtx) : List ArgOpt × List CStr × UInt32 := (ctx.opts, ctx.inputOpts, ctx.inputOptsCount)

structure CtxInBounds (ctx : ArgCtx) : Prop where
  next_le : ctx.nextIdx ≤ ctx.inputOptsCount
  count_le : ctx.inputOptsCount.toNat ≤ ctx.inputOpts.length

theorem argFound_input (ctx : ArgCtx) (idx : Nat) (opt : ArgOpt) (value : List UInt8) :
    (argFound ctx idx opt value).2.input = ctx.input ∧ (argFound ctx idx opt value).2.nextIdx = ctx.nextIdx + 1 ∧
      (argFound ctx idx opt value).2.currentOpt = some idx := by
  obtain ⟨f, u, hframe⟩ := argFound_frame ctx idx opt value
  rw [hframe]
  exact ⟨rfl, rfl, rfl⟩

theorem CtxInBounds.get {ctx : ArgCtx} (h : CtxInBounds ctx) {idx : UInt32} (hidx : idx < ctx.inputOptsCount) :
    ∃ charOpt, ctx.inputOpts[idx.toNat]? = some charOpt := by
  have hlt := Nat.lt_of_lt_of_le (UInt32.lt_iff_toNat_lt.mp hidx) h.count_le
  exact ⟨_, List.getElem?_eq_getElem hlt⟩

theorem succ_le_of_lt {idx count : UInt32} (h : idx < count) : idx + 1 ≤ count ∧ idx < idx + 1 := by
  have hlt := UInt32.lt_iff_toNat_lt.mp h
  have hsucc := toNat_succ h
  constructor
  · rw [UInt32.le_iff_toNat_le, hsucc]
    exact hlt
  · rw [UInt32.lt_iff_toNat_lt, hsucc]
    exact Nat.lt_succ_self _

theorem CtxInBounds.next {ctx : ArgCtx} (h : CtxInBounds ctx) {idx : UInt32} (hidx : idx < ctx.inputOptsCount) :
    CtxInBounds { ctx with nextIdx := idx + 1 } := ⟨(succ_le_of_lt hidx).1, h.count_le⟩

theorem argValue_cases {ctx : ArgCtx} (h : CtxInBounds ctx) (hlt : ctx.nextIdx < ctx.inputOptsCount) :
    ∃ value nextIdx, argValue ctx = some (value, nextIdx) ∧ ctx.nextIdx ≤ nextIdx ∧ nextIdx < ctx.inputOptsCount := by
  unfold argValue
  by_cases hnext : ctx.nextIdx + 1 < ctx.inputOptsCount
  · obtain ⟨charOpt, hget⟩ := h.get hnext
    rw [if_pos hnext, hget, Option.bind_eq_bind, Option.bind_some]
    by_cases hdash : charOpt.bytes.headD 0 ≠ chr '-'
    · rw [if_pos hdash]
      exact ⟨_, _, rfl, UInt32.le_of_lt (succ_le_of_lt hlt).2, hnext⟩
    · rw [if_neg hdash]
      exact ⟨_, _, rfl, UInt32.le_refl _, hlt⟩
  · rw [if_neg hnext]
    exact ⟨_, _, rfl, UInt32.le_refl _, hlt⟩

/-- What a scan does: it runs to the end of the arguments, or it finds an option in front of it. -/
inductive Scanned (ctx : ArgCtx) : Option Int32 → ArgCtx → Prop
  | ended {ctx' : ArgCtx} (hinput : ctx'.input = ctx.input) (hnext : ctx'.nextIdx = ctx.inputOptsCount) :
    Scanned ctx none ctx'
  | found {ctx' : ArgCtx} {shortName : Int32} {idx : Nat} (hinput : ctx'.input = ctx.input)
    (hidx : ctx'.currentOpt = some idx) (hlt : ctx.nextIdx < ctx'.nextIdx) (hle : ctx'.nextIdx ≤ ctx.inputOptsCount)
    (hopts : ctx.opts ≠ []) : Scanned ctx (some shortName) ctx'

theorem Scanned.later {ctx : ArgCtx} {nextIdx : UInt32} {r : Option Int32} {ctx' : ArgCtx}
    (hle : ctx.nextIdx ≤ nextIdx) (h : Scanned { ctx with nextIdx := nextIdx } r ctx') : Scanned ctx r ctx' := by
  cases h with
  | ended hinput hnext => exact .ended hinput hnext
  | found hinput hidx hlt hend hopts => exact .found hinput hidx (UInt32.lt_of_le_of_lt hle hlt) hend hopts

theorem argScan_spec {left : Nat} {ctx : ArgCtx} (h : CtxInBounds ctx)
    (hleft : ctx.inputOptsCount.toNat - ctx.nextIdx.toNat ≤ left) :
    ∃ r ctx', argScan left ctx = some (r, ctx') ∧ Scanned ctx r ctx' := by
  induction left generalizing ctx with
  | zero =>
    refine ⟨none, ctx, rfl, .ended rfl ?_⟩
    apply UInt32.le_antisymm h.next_le
    rw [UInt32.le_iff_toNat_le]
    omega
  | succ left ih =>
    rw [argScan]
    by_cases hlt : ctx.nextIdx < ctx.inputOptsCount
    · obtain ⟨charOpt, hget⟩ := h.get hlt
      -- both ways on go through the rest of the loop with a later index
      have hon : ∀ nextIdx, ctx.nextIdx ≤ nextIdx → nextIdx < ctx.inputOptsCount →
          ∃ r ctx', argScan left { ctx with nextIdx := nextIdx + 1 } = some (r, ctx') ∧ Scanned ctx r ctx' := by
        intro nextIdx hle hlast
        have hleft' : ctx.inputOptsCount.toNat - (nextIdx + 1).toNat ≤ left := by
          have := UInt32.le_iff_toNat_le.mp hle
          rw [toNat_succ hlast]
          omega
        obtain ⟨r, ctx', hscan, hspec⟩ := ih (h.next hlast) hleft'
        exact ⟨r, ctx', hscan, hspec.later (UInt32.le_trans hle (UInt32.le_of_lt (succ_le_of_lt hlast).2))⟩
      rw [if_pos hlt, hget, Option.bind_eq_bind, Option.bind_some]
      cases argKey (strFromNullTerminatedCharPtr charOpt) with
      | none => exact hon _ (UInt32.le_refl _) hlt
      | some key =>
        obtain ⟨value, nextIdx, hvalue, hle, hlast⟩ := argValue_cases h hlt
        dsimp only
        rw [hvalue, Option.bind_eq_bind, Option.bind_some]
        dsimp only
        cases hsearch : argSearch key.1 key.2 ctx.opts 0 with
        | none => exact hon nextIdx hle hlast
        | some opt =>
          obtain ⟨hinput, hnext, hidx⟩ := argFound_input { ctx with nextIdx := nextIdx } opt.1 opt.2 value
          refine ⟨_, _, rfl, .found hinput hidx ?_ ?_ ?_⟩
          · rw [hnext]
            exact UInt32.lt_of_le_of_lt hle (succ_le_of_lt hlast).2
          · rw [hnext]
            exact (succ_le_of_lt hlast).1
          · intro hnil
            rw [hnil] at hsearch
            cases hsearch
    · rw [if_neg hlt]
      exact ⟨none, ctx, rfl, .ended rfl (UInt32.le_antisymm h.next_le (UInt32.not_lt.mp hlt))⟩

theorem scan_spec {ctx : ArgCtx} (h : CtxInBounds ctx) : ∃ r ctx', ctx.scan = some (r, ctx') ∧ Scanned ctx r ctx' :=
  argScan_spec h (Nat.le_refl _)

/-! ## Up to the last argument -/

theorem CtxInBounds.of_input {ctx ctx' : ArgCtx} (h : CtxInBounds ctx) (hinput : ctx'.input = ctx.input)
    (hle : ctx'.nextIdx ≤ ctx.inputOptsCount) : CtxInBounds ctx' := by
  simp only [ArgCtx.input, Prod.mk.injEq] at hinput
  obtain ⟨-, hinputs, hcount⟩ := hinput
  refine ⟨?_, ?_⟩
  · rw [hcount]
    exact hle
  · rw [hcount, hinputs]
    exact h.count_le

theorem Finds.input {ctx ctx' : ArgCtx} {found : List Nat} (hfinds : Finds ctx found ctx') (h : CtxInBounds ctx) :
    ctx'.input = ctx.input ∧ CtxInBounds ctx' ∧ (ctx.opts = [] → found = []) := by
  induction hfinds with
  | nil ctx => exact ⟨rfl, h, fun _ => rfl⟩
  | @cons ctx ctx₁ ctx' shortName idx idxs hscan _ _ ih =>
    obtain ⟨r, ctx₂, hscan', hspec⟩ := scan_spec h
    rw [hscan] at hscan'
    cases hscan'
    cases hspec with
    | found hinput _ _ hle hopts =>
      obtain ⟨hinput', hwithin, -⟩ := ih (h.of_input hinput hle)
      exact ⟨hinput'.trans hinput, hwithin, fun hnil => absurd hnil hopts⟩

/-- The calls find options until the arguments are used up. -/
theorem exists_usedUp {ctx : ArgCtx} (h : CtxInBounds ctx) : ∃ found ctx', Finds ctx found ctx' ∧ ctx'.UsedUp := by
  induction hn : ctx.inputOptsCount.toNat - ctx.nextIdx.toNat using Nat.strong_induction_on generalizing ctx with
  | _ n ih =>
    obtain ⟨r, ctx₁, hscan, hspec⟩ := scan_spec h
    cases hspec with
    | ended => exact ⟨[], ctx, .nil ctx, ctx₁, hscan⟩
    | found hinput hidx hlt hle =>
      have hcount : ctx₁.inputOptsCount = ctx.inputOptsCount := congrArg (·.2.2) hinput
      have hless : ctx₁.inputOptsCount.toNat - ctx₁.nextIdx.toNat < n := by
        have := UInt32.lt_iff_toNat_lt.mp hlt
        have := UInt32.le_iff_toNat_le.mp hle
        rw [hcount]
        omega
      obtain ⟨found, ctx', hfinds, hused⟩ := ih _ hless (h.of_input hinput hle) rfl
      exact ⟨_, ctx', .cons hscan hidx hfinds, hused⟩

theorem within_makeCtx (opts : List ArgOpt) (args : List CStr) :
    CtxInBounds (argMakeCtx opts args args.length.toUInt32) := by
  constructor
  · rw [UInt32.le_iff_toNat_le]
    exact Nat.zero_le _
  · exact Nat.mod_le _ _

/-! ## Behind the last argument -/

/-- The search for missing options, with its flag of 0. -/
theorem argMissing_zero {ctx : ArgCtx} (hnext : ctx.nextIdx = ctx.inputOptsCount) :
    argMissing 0 1 ctx = some (false, if ctx.opts = [] then ctx else
      { ctx with inputOptsCount := ctx.inputOptsCount + 1 }) := by
  have hzero : ctx.nextIdx - ctx.inputOptsCount = 0 := by rw [hnext, UInt32.sub_self]
  unfold argMissing
  rw [hzero]
  cases hopts : ctx.opts with
  | nil => simp
  | cons opt opts => simp [argMissing]

theorem usedUp_call {ctx : ArgCtx} (h : CtxInBounds ctx) (hused : ctx.UsedUp) :
    ∃ ctx', argNextOpt ctx = some (argEnd, ctx') ∧
      ctx'.opts = ctx.opts ∧ ctx'.inputOpts = ctx.inputOpts ∧ ctx'.nextIdx = ctx.inputOptsCount ∧
      ctx'.inputOptsCount = if ctx.opts = [] then ctx.inputOptsCount else ctx.inputOptsCount + 1 := by
  obtain ⟨ctx₁, hscan⟩ := hused
  obtain ⟨r, ctx₂, hscan', hspec⟩ := scan_spec h
  rw [hscan] at hscan'
  cases hscan'
  cases hspec with
  | ended hinput hnext =>
    simp only [ArgCtx.input, Prod.mk.injEq] at hinput
    obtain ⟨hopts, hinputs, hcount⟩ := hinput
    have hend : ctx₁.nextIdx = ctx₁.inputOptsCount := by rw [hnext, hcount]
    have hidx : ctx₁.nextIdx - ctx₁.inputOptsCount = 0 := by rw [hend, UInt32.sub_self]
    have hmissing := argMissing_zero hend
    unfold ArgCtx.scan at hscan
    unfold argNextOpt
    rw [hscan]
    simp only [Option.bind_eq_bind, Option.bind_some, hidx]
    rw [show (0 : UInt32).toNat + 1 = 1 from rfl, hmissing]
    refine ⟨_, rfl, ?_⟩
    by_cases hnil : ctx.opts = []
    · rw [if_pos (hopts.trans hnil), if_pos hnil]
      exact ⟨hopts, hinputs, hnext, hcount⟩
    · rw [if_neg (hopts ▸ hnil), if_neg hnil]
      exact ⟨hopts, hinputs, hnext, congrArg (· + 1) hcount⟩

/-- Without a table the calls go on returning the end. -/
theorem usedUp_calls {ctx : ArgCtx} (h : CtxInBounds ctx) (hused : ctx.UsedUp) (hnil : ctx.opts = []) (calls : Nat) :
    ∃ ctx', argNextOpts ctx calls = some (List.replicate calls argEnd, ctx') ∧
      ctx'.inputOpts = ctx.inputOpts ∧ ctx'.inputOptsCount = ctx.inputOptsCount := by
  induction calls generalizing ctx with
  | zero => exact ⟨ctx, rfl, rfl, rfl⟩
  | succ calls ih =>
    obtain ⟨ctx₁, hcall, hopts, hinputs, hnext, hcount⟩ := usedUp_call h hused
    rw [if_pos hnil] at hcount
    have hwithin : CtxInBounds ctx₁ := by
      refine ⟨?_, ?_⟩
      · rw [hnext, hcount]
        exact UInt32.le_refl _
      · rw [hinputs, hcount]
        exact h.count_le
    have hused₁ : ctx₁.UsedUp := by
      refine ⟨ctx₁, ?_⟩
      unfold ArgCtx.scan
      rw [hnext, hcount, Nat.sub_self]
      rfl
    obtain ⟨ctx', hcalls, hinputs', hcount'⟩ := ih hwithin hused₁ (hopts.trans hnil)
    refine ⟨ctx', ?_, hinputs'.trans hinputs, hcount'.trans hcount⟩
    unfold argNextOpts at hcalls ⊢
    rw [List.replicate_succ, Traces.trace_cons hcall, hcalls]
    rfl

/-- Behind a call that moved the count, the next one reads the argument behind the last. -/
theorem read_behind_arguments {ctx : ArgCtx} (hnext : ctx.nextIdx < ctx.inputOptsCount)
    (hlast : ctx.nextIdx.toNat = ctx.inputOpts.length) : argNextOpt ctx = none := by
  have hget : ctx.inputOpts[ctx.nextIdx.toNat]? = none := by
    rw [hlast]
    exact List.getElem?_eq_none (Nat.le_refl _)
  have hscan : argScan (ctx.inputOptsCount.toNat - ctx.nextIdx.toNat) ctx = none := by
    rw [left_succ hnext, argScan, if_pos hnext, hget]
    rfl
  unfold argNextOpt
  rw [hscan]
  rfl

theorem reportsMissing_iff (opts : List ArgOpt) (args : List CStr) : ReportsMissing opts args ↔ opts = [] := by
  have hstart := within_makeCtx opts args
  constructor
  · intro h
    by_contra hne
    obtain ⟨found, ctx, hfinds, hused⟩ := exists_usedUp hstart
    obtain ⟨hinput, hwithin, -⟩ := hfinds.input hstart
    have hopts : ctx.opts = opts := congrArg (·.1) hinput
    obtain ⟨ctx₁, hcall, -, -, -, hcount⟩ := usedUp_call hwithin hused
    rw [hopts, if_neg hne] at hcount
    -- one call is enough to see the count move
    obtain ⟨ctx', hone, -, hsame⟩ := h found ctx hfinds hused 1
    unfold argNextOpts at hone
    rw [List.replicate_one, Traces.trace_cons hcall] at hone
    have hctx : ctx₁ = ctx' := congrArg Prod.snd (Option.some.inj hone)
    rw [← hctx, hcount] at hsame
    simp at hsame
  · rintro rfl found ctx hfinds hused calls
    obtain ⟨hinput, hwithin, hfound⟩ := hfinds.input hstart
    have hnil : ctx.opts = [] := congrArg (·.1) hinput
    have hmissing : missingOpts [] found = [] := rfl
    rw [hmissing, List.map_nil, List.nil_append, List.take_of_length_le (by simp)]
    exact usedUp_calls hwithin hused hnil calls

/-- `server`, without the options that are required -/
theorem not_reportsMissing_server : ¬ ReportsMissing (serverTable []).opts [serverLine.program] := by
  intro h
  obtain ⟨ctx', hone, -⟩ := h [] _ (.nil _) ⟨_, rfl⟩ 1
  have hfirst : (argNextOpts (argMakeCtx (serverTable []).opts [serverLine.program] 1) 1).map Prod.fst =
      some [argErrorMissingArg] := congrArg (Option.map Prod.fst) hone
  revert hfirst
  decide

end CWebServer
