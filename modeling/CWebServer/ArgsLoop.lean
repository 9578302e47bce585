import CWebServer.ArgsMissing

/-!
# The loop over the options

The caller calls `arg_nextOpt` until it returns `arg_end`. Each call before it
moves the index towards the count of the arguments.
-/

namespace CWebServer

/-- The loop of the caller, with at most as many calls: what the calls before `arg_end` return, with the contexts
behind them, and the context behind the last one. -/
def argLoop : Nat → ArgCtx → Option (List (Int32 × ArgCtx) × ArgCtx)
  | 0, _ => none
  | calls + 1, ctx => do
    let (opt, ctx) ← argNextOpt ctx
    if opt = argEnd then some ([], ctx)
    else
      let (opts, last) ← argLoop calls ctx
      some ((opt, ctx) :: opts, last)

def MovesOn (ctx ctx' : ArgCtx) : Prop := ctx.nextIdx < ctx'.nextIdx

theorem argNextOpt_scan {ctx ctx' : ArgCtx} {shortName : Int32} (hscan : ctx.scan = some (some shortName, ctx')) :
    argNextOpt ctx = some (shortName, ctx') := by
  unfold ArgCtx.scan at hscan
  unfold argNextOpt
  rw [hscan]
  rfl

/-- A call reads no argument behind the last, and it is the last one or goes on behind its argument. -/
theorem argNextOpt_spec {ctx : ArgCtx} (h : CtxInBounds ctx) :
    ∃ opt ctx', argNextOpt ctx = some (opt, ctx') ∧ (opt ≠ argEnd →
      MovesOn ctx ctx' ∧ ctx'.inputOptsCount = ctx.inputOptsCount ∧ CtxInBounds ctx') := by
  obtain ⟨r, ctx', hscan, hspec⟩ := scan_spec h
  cases hspec with
  | ended hinput hnext =>
    obtain ⟨ctx₁, hcall, -⟩ := usedUp_call h ⟨ctx', hscan⟩
    exact ⟨argEnd, ctx₁, hcall, fun hne => absurd rfl hne⟩
  | found hinput hidx hlt hle hopts =>
    have hcount : ctx'.inputOptsCount = ctx.inputOptsCount := congrArg (·.2.2) hinput
    exact ⟨_, ctx', argNextOpt_scan hscan, fun _ => ⟨hlt, hcount, h.of_input hinput hle⟩⟩

/-- The arguments that are left bound the calls. -/
theorem argLoop_spec {calls : Nat} {ctx : ArgCtx} (h : CtxInBounds ctx)
    (hcalls : ctx.inputOptsCount.toNat - ctx.nextIdx.toNat < calls) :
    ∃ opts last, argLoop calls ctx = some (opts, last) ∧ opts.length < calls ∧
      List.IsChain MovesOn (ctx :: opts.map Prod.snd) := by
  induction calls generalizing ctx with
  | zero => exact absurd hcalls (Nat.not_lt_zero _)
  | succ calls ih =>
    obtain ⟨opt, ctx₁, hcall, hon⟩ := argNextOpt_spec h
    rw [argLoop, hcall, Option.bind_eq_bind, Option.bind_some]
    by_cases hend : opt = argEnd
    · refine ⟨[], ctx₁, if_pos hend, Nat.succ_pos _, ?_⟩
      exact .singleton ctx
    · obtain ⟨hadv, hcount, hwithin⟩ := hon hend
      have hless : ctx₁.inputOptsCount.toNat - ctx₁.nextIdx.toNat < calls := by
        have hlt := UInt32.lt_iff_toNat_lt.mp hadv
        have hle := UInt32.le_iff_toNat_le.mp hwithin.next_le
        rw [hcount] at hle ⊢
        omega
      obtain ⟨opts, last, hloop, hlen, hchain⟩ := ih hwithin hless
      refine ⟨(opt, ctx₁) :: opts, last, ?_, Nat.succ_lt_succ hlen, ?_⟩
      · dsimp only
        rw [if_neg hend, hloop]
        rfl
      · exact List.isChain_cons_cons.mpr ⟨hadv, hchain⟩

/-- One call more than there are arguments is enough, and no argument behind the last is read. -/
theorem argLoop_ends (opts : List ArgOpt) (args : List CStr) :
    ∃ founds last, argLoop (args.length + 1) (argMakeCtx opts args args.length.toUInt32) = some (founds, last) ∧
      founds.length + 1 ≤ args.length + 1 ∧
      List.IsChain MovesOn (argMakeCtx opts args args.length.toUInt32 :: founds.map Prod.snd) := by
  have hstart := within_makeCtx opts args
  have hcalls : (argMakeCtx opts args args.length.toUInt32).inputOptsCount.toNat -
      (argMakeCtx opts args args.length.toUInt32).nextIdx.toNat < args.length + 1 :=
    Nat.lt_succ_of_le ((Nat.sub_le _ _).trans hstart.count_le)
  obtain ⟨founds, last, hloop, hlen, hchain⟩ := argLoop_spec hstart hcalls
  exact ⟨founds, last, hloop, hlen, hchain⟩

end CWebServer
