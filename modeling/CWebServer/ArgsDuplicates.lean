import CWebServer.ArgsMissing

/-!
# Duplicate options

The bit field of `arg_nextOpt` records an option by the remainder of its index
by 64. So the calls report the duplicates of a run exactly where no option is
found behind another one with the same remainder.
-/

namespace CWebServer

/-! ## The bit field -/

theorem flag_mod (idx : Nat) : (1 : UInt64) <<< idx.toUInt64 = 1 <<< (idx % 64).toUInt64 := by
  apply UInt64.toBitVec_inj.mp
  rw [UInt64.toBitVec_shiftLeft, UInt64.toBitVec_shiftLeft]
  simp

/-- The word holds the remainders of the indices in `found`. -/
def RecordsFound (word : UInt64) (found : List Nat) : Prop := BitField.Records word fun b => ∃ i ∈ found, i % 64 = b

theorem RecordsFound.seen_iff {word : UInt64} {found : List Nat} (h : RecordsFound word found) (idx : Nat) :
    word &&& 1 <<< idx.toUInt64 = 1 <<< idx.toUInt64 ↔ ∃ i ∈ found, i % 64 = idx % 64 := by
  rw [flag_mod]
  exact BitField.Records.seen_iff h (Nat.mod_lt idx (by decide))

theorem RecordsFound.congr {word : UInt64} {found found' : List Nat} (h : RecordsFound word found)
    (hmem : ∀ b, (∃ i ∈ found, i % 64 = b) ↔ ∃ i ∈ found', i % 64 = b) : RecordsFound word found' :=
  BitField.Records.congr h hmem

theorem RecordsFound.insert {word : UInt64} {found : List Nat} (h : RecordsFound word found) (idx : Nat) :
    RecordsFound (word ||| 1 <<< idx.toUInt64) (found ++ [idx]) := by
  rw [flag_mod]
  apply (BitField.Records.insert h (Nat.mod_lt idx (by decide))).congr
  intro b
  simp [or_and_right, exists_or, eq_comm]

/-! ## One call -/

theorem argSearch_some {longName : Bool} {key : List UInt8} {opts : List ArgOpt} {base idx : Nat} {opt : ArgOpt}
    (h : argSearch longName key opts base = some (idx, opt)) : ∃ k, idx = base + k ∧ opts[k]? = some opt := by
  induction opts generalizing base with
  | nil => cases h
  | cons first opts ih =>
    rw [argSearch] at h
    by_cases hmatch : argMatches longName key first = true
    · rw [if_pos hmatch] at h
      cases h
      exact ⟨0, rfl, rfl⟩
    · rw [if_neg hmatch] at h
      obtain ⟨k, rfl, hk⟩ := ih h
      exact ⟨k + 1, by omega, hk⟩

/-- A scan that finds an option leaves all but the index to `argFound`. -/
theorem argScan_found {left : Nat} {ctx ctx' : ArgCtx} {shortName : Int32}
    (h : argScan left ctx = some (some shortName, ctx')) :
    ∃ nextIdx idx opt value, ctx.opts[idx]? = some opt ∧
      argFound { ctx with nextIdx := nextIdx } idx opt value = (shortName, ctx') := by
  induction left generalizing ctx with
  | zero => cases h
  | succ left ih =>
    rw [argScan] at h
    split at h
    · obtain ⟨charOpt, -, h⟩ := Option.bind_eq_some_iff.mp h
      split at h
      · obtain ⟨nextIdx, idx, opt, value, hfound⟩ := ih h
        exact ⟨nextIdx, idx, opt, value, hfound⟩
      · rename_i longName key _
        obtain ⟨⟨value, nextIdx⟩, -, h⟩ := Option.bind_eq_some_iff.mp h
        dsimp only at h
        split at h
        · rename_i idx opt hsearch
          obtain ⟨k, rfl, hopt⟩ := argSearch_some hsearch
          rw [Nat.zero_add] at h
          refine ⟨nextIdx, k, opt, value, hopt, ?_⟩
          cases h
          rfl
        · obtain ⟨nextIdx, idx, opt, value, hfound⟩ := ih h
          exact ⟨nextIdx, idx, opt, value, hfound⟩
    · cases h

theorem repeated_iff {ctx : ArgCtx} {found : List Nat} (h : RecordsFound ctx.redArgsBitField found) (idx : Nat)
    (opt : ArgOpt) :
    Repeated ctx idx opt ↔ (∃ i ∈ found, i % 64 = idx % 64) ∧ opt.flags &&& argFlagDuplicatesAllowed = 0 := by
  rw [← h.seen_iff]
  rfl

/-- The bit is set for a match, and also for one that ends in another error. -/
theorem argFound_bits (ctx : ArgCtx) (idx : Nat) (opt : ArgOpt) (value : List UInt8) {found : List Nat}
    (h : RecordsFound ctx.redArgsBitField found) :
    RecordsFound (argFound ctx idx opt value).2.redArgsBitField (found ++ [idx]) := by
  obtain ⟨f, u, hframe⟩ := argFound_frame ctx idx opt value
  rw [hframe]
  by_cases hrep : Repeated ctx idx opt
  · obtain ⟨⟨i, hi, hmod⟩, -⟩ := (repeated_iff h idx opt).mp hrep
    rw [if_pos hrep]
    apply h.congr
    intro b
    constructor
    · rintro ⟨j, hj, rfl⟩
      exact ⟨j, List.mem_append_left _ hj, rfl⟩
    · rintro ⟨j, hj, rfl⟩
      rcases List.mem_append.mp hj with hj | hj
      · exact ⟨j, hj, rfl⟩
      · rw [List.mem_singleton.mp hj]
        exact ⟨i, hi, hmod⟩
  · rw [if_neg hrep]
    exact h.insert idx

theorem argTyped_ne_duplicate {ctx : ArgCtx} {opt : ArgOpt} (value : List UInt8)
    (hshort : opt.shortName ≠ argErrorDuplicate) : (argTyped ctx opt value).1 ≠ argErrorDuplicate := by
  have hinvalid : argErrorInvalidValue ≠ argErrorDuplicate := by decide
  unfold argTyped
  split
  · dsimp only
    split <;> assumption
  · dsimp only
    split <;> assumption
  · dsimp only
    split <;> assumption
  · exact hshort
  · exact hshort

theorem argFound_duplicate_iff {ctx : ArgCtx} {idx : Nat} {opt : ArgOpt} (value : List UInt8)
    (hshort : opt.shortName ≠ argErrorDuplicate) {found : List Nat} (h : RecordsFound ctx.redArgsBitField found) :
    (argFound ctx idx opt value).1 = argErrorDuplicate ↔
      (∃ i ∈ found, i % 64 = idx % 64) ∧ opt.flags &&& argFlagDuplicatesAllowed = 0 := by
  rw [← repeated_iff h]
  rcases argFound_cases ctx idx opt value with ⟨hrep, heq⟩ | ⟨hrep, -, heq⟩ | ⟨hrep, -, heq⟩
  · rw [heq]
    exact iff_of_true rfl hrep
  · rw [heq]
    exact iff_of_false (by decide : argErrorMissingValue ≠ argErrorDuplicate) hrep
  · rw [heq]
    exact iff_of_false (argTyped_ne_duplicate value hshort) hrep

/-! ## Whole runs -/

theorem scan_found {ctx ctx' : ArgCtx} {shortName : Int32} {idx : Nat} (h : ctx.scan = some (some shortName, ctx'))
    (hidx : ctx'.currentOpt = some idx) :
    ∃ nextIdx opt value, ctx.opts[idx]? = some opt ∧
      argFound { ctx with nextIdx := nextIdx } idx opt value = (shortName, ctx') := by
  obtain ⟨nextIdx, idx', opt, value, hopt, hfound⟩ := argScan_found h
  have hcurrent := (argFound_input { ctx with nextIdx := nextIdx } idx' opt value).2.2
  rw [hfound] at hcurrent
  obtain rfl : idx' = idx := Option.some.inj (hcurrent.symm.trans hidx)
  exact ⟨nextIdx, opt, value, hopt, hfound⟩

theorem Finds.recordsFound {ctx ctx' : ArgCtx} {found before : List Nat} (h : Finds ctx found ctx')
    (hbits : RecordsFound ctx.redArgsBitField before) :
    RecordsFound ctx'.redArgsBitField (before ++ found) ∧ ctx'.opts = ctx.opts := by
  induction h generalizing before with
  | nil ctx => exact ⟨by rwa [List.append_nil], rfl⟩
  | @cons ctx ctx₁ ctx' shortName idx found hscan hidx _ ih =>
    obtain ⟨nextIdx, opt, value, -, hfound⟩ := scan_found hscan hidx
    have hnext := argFound_bits { ctx with nextIdx := nextIdx } idx opt value hbits
    have hinput := (argFound_input { ctx with nextIdx := nextIdx } idx opt value).1
    rw [hfound] at hnext hinput
    obtain ⟨hrest, hopts⟩ := ih hnext
    refine ⟨?_, hopts.trans (congrArg (·.1) hinput)⟩
    rwa [List.append_assoc, List.singleton_append] at hrest

/-- A run on the arguments has found the options `found`, and its next call finds `opt` at `idx` and returns
`shortName`. -/
def NextFinds (opts : List ArgOpt) (args : List CStr) (count : UInt32) (found : List Nat) (idx : Nat) (opt : ArgOpt)
    (shortName : Int32) : Prop :=
  ∃ ctx ctx', Finds (argMakeCtx opts args count) found ctx ∧ ctx.scan = some (some shortName, ctx') ∧
    ctx'.currentOpt = some idx ∧ opts[idx]? = some opt

/-- In each run the duplicates are those of the same entry of the table that allows none. -/
def ReportsDuplicates (opts : List ArgOpt) (args : List CStr) (count : UInt32) : Prop :=
  ∀ found idx opt shortName, NextFinds opts args count found idx opt shortName →
    (shortName = argErrorDuplicate ↔ idx ∈ found ∧ opt.flags &&& argFlagDuplicatesAllowed = 0)

theorem NextFinds.mem {opts : List ArgOpt} {args : List CStr} {count : UInt32} {found : List Nat} {idx : Nat}
    {opt : ArgOpt} {shortName : Int32} (h : NextFinds opts args count found idx opt shortName) : opt ∈ opts := by
  obtain ⟨ctx, ctx', -, -, -, hopt⟩ := h
  exact List.mem_of_getElem? hopt

theorem NextFinds.duplicate_iff {opts : List ArgOpt} {args : List CStr} {count : UInt32} {found : List Nat} {idx : Nat}
    {opt : ArgOpt} {shortName : Int32} (h : NextFinds opts args count found idx opt shortName)
    (hshort : opt.shortName ≠ argErrorDuplicate) :
    shortName = argErrorDuplicate ↔
      (∃ i ∈ found, i % 64 = idx % 64) ∧ opt.flags &&& argFlagDuplicatesAllowed = 0 := by
  obtain ⟨ctx, ctx', hfinds, hscan, hidx, hopt⟩ := h
  have hnew : RecordsFound (argMakeCtx opts args count).redArgsBitField [] := BitField.records_zero (by simp)
  obtain ⟨hbits, hopts⟩ := hfinds.recordsFound hnew
  obtain ⟨nextIdx, opt', value, hopt', hfound⟩ := scan_found hscan hidx
  have hsame : ctx.opts[idx]? = some opt := by
    rw [hopts]
    exact hopt
  obtain rfl : opt' = opt := Option.some.inj (hopt'.symm.trans hsame)
  have hiff := @argFound_duplicate_iff { ctx with nextIdx := nextIdx } idx opt' value hshort found hbits
  rwa [hfound] at hiff

theorem reportsDuplicates_iff {opts : List ArgOpt} {args : List CStr} {count : UInt32}
    (hshort : ∀ found idx opt shortName, NextFinds opts args count found idx opt shortName →
      opt.shortName ≠ argErrorDuplicate) :
    ReportsDuplicates opts args count ↔
      ∀ found idx opt shortName, NextFinds opts args count found idx opt shortName →
        opt.flags &&& argFlagDuplicatesAllowed = 0 → idx ∈ found ∨ ∀ i ∈ found, i % 64 ≠ idx % 64 := by
  constructor
  · intro h found idx opt shortName hnext hflags
    by_contra hnot
    obtain ⟨hnew, hmod⟩ := not_or.mp hnot
    simp only [not_forall, not_not] at hmod
    obtain ⟨i, hi, hmod⟩ := hmod
    have hopt := hshort found idx opt shortName hnext
    have hdup := (hnext.duplicate_iff hopt).mpr ⟨⟨i, hi, hmod⟩, hflags⟩
    exact hnew ((h found idx opt shortName hnext).mp hdup).1
  · intro h found idx opt shortName hnext
    have hopt := hshort found idx opt shortName hnext
    rw [hnext.duplicate_iff hopt]
    constructor
    · rintro ⟨⟨i, hi, hmod⟩, hflags⟩
      rcases h found idx opt shortName hnext hflags with hin | hapart
      · exact ⟨hin, hflags⟩
      · exact absurd hmod (hapart i hi)
    · rintro ⟨hin, hflags⟩
      exact ⟨⟨idx, hin, rfl⟩, hflags⟩

/-- `server -p k.pem -p k.pem` -/
def repeatedArgs : List CStr := serverLine.inputOpts.take 3 ++ (serverLine.inputOpts.drop 1).take 2

theorem reportsDuplicates_iff_server :
    ReportsDuplicates (serverTable []).opts repeatedArgs 5 ↔
      ∀ found idx opt shortName, NextFinds (serverTable []).opts repeatedArgs 5 found idx opt shortName →
        opt.flags &&& argFlagDuplicatesAllowed = 0 → idx ∈ found ∨ ∀ i ∈ found, i % 64 ≠ idx % 64 := by
  have hshort : ∀ opt ∈ (serverTable []).opts, opt.shortName ≠ argErrorDuplicate := by
    simp [serverTable]
    decide
  exact reportsDuplicates_iff fun _ _ opt _ hnext => hshort opt hnext.mem

def switchOpt (name : List UInt8) (shortName : Char) : ArgOpt where
  name := name
  shortName := shortName.toNat.toInt32
  type := .none
  flags := 0
  defaultValue := []

/-- 65 options, of which the first and the last share their bit. -/
def wideOpts : List ArgOpt :=
  switchOpt (s8 "first") 'a' :: (List.replicate 63 (switchOpt (s8 "other") 'o') ++ [switchOpt (s8 "last") 'b'])

/-- `-a -b` -/
theorem not_reportsDuplicates : ¬ ReportsDuplicates wideOpts [⟨s8 "-a", by decide⟩, ⟨s8 "-b", by decide⟩] 2 := by
  intro h
  have hnext : NextFinds wideOpts [⟨s8 "-a", by decide⟩, ⟨s8 "-b", by decide⟩] 2 [0] 64
      (switchOpt (s8 "last") 'b') argErrorDuplicate :=
    ⟨_, _, .cons rfl rfl (.nil _), rfl, rfl, rfl⟩
  have hmem := ((h _ _ _ _ hnext).mp rfl).1
  revert hmem
  decide

end CWebServer
