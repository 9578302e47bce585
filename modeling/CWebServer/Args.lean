import CWebServer.Str

/-!
# Options of the command line

`arg_nextOpt` walks over the arguments with a table of the options that the
program knows. An argument behind a name that starts with no dash is its value.
-/

namespace CWebServer

/-! ## Numbers -/

/-- The constant of the source, which is no maximum. -/
def i64Max : Int64 := -1

def parseS64Loop (mult : Int64) : List UInt8 → UInt64 → Nat → Int64 × Nat
  | [], out, idx => ((out * mult.toUInt64).toInt64, idx)
  | numChar :: str, out, idx =>
    if strIsNumberChar numChar then
      let out := out * 10 + (numChar - chr '0').toUInt64
      if i64Max.toUInt64 ≤ out then (mult * i64Max, idx) else parseS64Loop mult str out (idx + 1)
    else ((out * mult.toUInt64).toInt64, idx)

/-- The number and the index where it ends. The first character is only looked at for its sign. -/
def strParseS64N (str : List UInt8) : Int64 × Nat :=
  match str with
  | [] => (0, 0)
  | c :: rest => parseS64Loop (if c = chr '-' then -1 else 1) rest 0 1

def strParseF32N (str : List UInt8) : Float32 × Nat :=
  let (left, offset) := strParseS64N str
  if offset = 0 then (0, 0)
  else if offset + 2 < str.length ∧ str.getD (offset + 1) 0 = chr '.' then
    let sub := strSubStr str (offset + 1) str.length
    let (right, offsetRight) := strParseS64N sub
    if offsetRight ≠ 0 ∧ 0 < right then
      ((if 0 < left then 1 else -1) * right.toFloat32 / offsetRight.toUInt64.toFloat32, offset + offsetRight)
    else (left.toFloat32, offset)
  else (left.toFloat32, offset)

/-! ## Options and arguments -/

inductive ArgOptType
  | none | string | f32 | i32 | flags
  deriving DecidableEq, Repr

structure ArgOpt where
  name : List UInt8
  shortName : Int32
  type : ArgOptType
  flags : UInt32
  defaultValue : List UInt8
  deriving DecidableEq, Repr

def argFlagRequired : UInt32 := 1

def argFlagRequiredValue : UInt32 := 2

def argFlagDuplicatesAllowed : UInt32 := 4

def argErrorDuplicate : Int32 := '&'.toNat.toInt32

def argErrorMissingArg : Int32 := '='.toNat.toInt32

def argErrorMissingValue : Int32 := '+'.toNat.toInt32

def argErrorInvalidValue : Int32 := '!'.toNat.toInt32

def argEnd : Int32 := -1

/-- A string up to its terminator. -/
structure CStr where
  bytes : List UInt8
  nul : 0 ∉ bytes
  deriving DecidableEq, Repr

def strFromNullTerminatedCharPtr (charArr : CStr) : List UInt8 := charArr.bytes

structure ArgCtx where
  opts : List ArgOpt
  inputOpts : List CStr
  inputOptsCount : UInt32
  redArgsBitField : UInt64 := 0
  nextIdx : UInt32 := 0
  /-- The index in `opts`. -/
  currentOpt : Option Nat := none
  foundKey : List UInt8 := []
  foundValue : List UInt8 := []
  foundi32Value : Int32 := 0
  foundF32Value : Float32 := 0
  foundFlagsValue : UInt32 := 0

def argMakeCtx (opts : List ArgOpt) (inputOpts : List CStr) (inputOptsCount : UInt32) : ArgCtx where
  opts := opts
  inputOpts := inputOpts
  inputOptsCount := inputOptsCount

/-! ## `arg_nextOpt` -/

/-- Whether an argument is a long name, and the name; `none` for one that is skipped. -/
def argKey (key : List UInt8) : Option (Bool × List UInt8) :=
  if strHasPrefix key (s8 "--") then
    let key := strSubStr key 2 key.length
    if key.length = 0 then none else some (true, key)
  else if strHasPrefix key (s8 "-") = true ∧ 1 < key.length then some (false, strSubStr key 1 key.length)
  else none

/-- The value behind the key at `nextIdx`, and the index of the last argument that was read. -/
def argValue (ctx : ArgCtx) : Option (List UInt8 × UInt32) :=
  if ctx.nextIdx + 1 < ctx.inputOptsCount then do
    let charOpt ← ctx.inputOpts[(ctx.nextIdx + 1).toNat]?
    some (if charOpt.bytes.headD 0 ≠ chr '-' then (strFromNullTerminatedCharPtr charOpt, ctx.nextIdx + 1)
      else ([], ctx.nextIdx))
  else some ([], ctx.nextIdx)

def argMatches (longName : Bool) (key : List UInt8) (opt : ArgOpt) : Bool :=
  if longName then strIsEqual key opt.name
  else key.length = 1 ∧ (key.headD 0).toUInt32.toInt32 = opt.shortName

def argSearch (longName : Bool) (key : List UInt8) : List ArgOpt → Nat → Option (Nat × ArgOpt)
  | [], _ => none
  | opt :: opts, idx => if argMatches longName key opt then some (idx, opt) else argSearch longName key opts (idx + 1)

/-- The offset of a number that is read to its end. -/
def argWholeValue (offset : Nat) (value : List UInt8) : Bool := offset = wrap64 (value.length - 1)

def argTyped (ctx : ArgCtx) (opt : ArgOpt) (value : List UInt8) : Int32 × ArgCtx :=
  match opt.type with
  | .f32 =>
    let (f, offset) := strParseF32N value
    (if argWholeValue offset value then opt.shortName else argErrorInvalidValue, { ctx with foundF32Value := f })
  | .i32 => (if argWholeValue (strParseS64N value).2 value then opt.shortName else argErrorInvalidValue, ctx)
  | .flags =>
    let (u, offset) := strParseU32N value
    (if argWholeValue offset value then opt.shortName else argErrorInvalidValue,
      { ctx with foundFlagsValue := u.toUInt32 })
  | .string | .none => (opt.shortName, ctx)

def argFound (ctx : ArgCtx) (idx : Nat) (opt : ArgOpt) (value : List UInt8) : Int32 × ArgCtx :=
  let ctx := { ctx with
    foundKey := opt.name
    foundValue := if 0 < value.length then value else opt.defaultValue
    foundi32Value := 0
    foundF32Value := 0
    foundFlagsValue := 0
    currentOpt := some idx
    nextIdx := ctx.nextIdx + 1 }
  let flag : UInt64 := 1 <<< idx.toUInt64
  if ctx.redArgsBitField &&& flag = flag ∧ opt.flags &&& argFlagDuplicatesAllowed = 0 then (argErrorDuplicate, ctx)
  else
    let ctx := { ctx with redArgsBitField := ctx.redArgsBitField ||| flag }
    if opt.flags &&& argFlagRequiredValue ≠ 0 ∧ value.length = 0 then (argErrorMissingValue, ctx)
    else argTyped ctx opt value

/-- The loop over the arguments, of which `left` are left. What it returns is `none` where it comes to their end. -/
def argScan : Nat → ArgCtx → Option (Option Int32 × ArgCtx)
  | 0, ctx => some (none, ctx)
  | left + 1, ctx =>
    if ctx.nextIdx < ctx.inputOptsCount then do
      let charOpt ← ctx.inputOpts[ctx.nextIdx.toNat]?
      match argKey (strFromNullTerminatedCharPtr charOpt) with
      | none => argScan left { ctx with nextIdx := ctx.nextIdx + 1 }
      | some (longName, key) =>
        let (value, nextIdx) ← argValue ctx
        match argSearch longName key ctx.opts 0 with
        | some (idx, opt) =>
          let (shortName, ctx) := argFound { ctx with nextIdx := nextIdx } idx opt value
          some (some shortName, ctx)
        | none => argScan left { ctx with nextIdx := nextIdx + 1 }
    else some (none, ctx)

/-- The search for missing arguments, with at most `left` turns. The count of the arguments moves and the flag
stays that of the first turn. -/
def argMissing (idx : UInt32) : Nat → ArgCtx → Option (Bool × ArgCtx)
  | 0, ctx => some (false, ctx)
  | left + 1, ctx =>
    if (ctx.nextIdx - ctx.inputOptsCount).toNat < ctx.opts.length then do
      let opt ← ctx.opts[(ctx.nextIdx - ctx.inputOptsCount).toNat]?
      let flag : UInt64 := (idx <<< 1).toUInt64
      if opt.flags &&& argFlagRequired ≠ 0 ∧ ctx.redArgsBitField &&& flag ≠ flag then some (true, ctx)
      else argMissing idx left { ctx with inputOptsCount := ctx.inputOptsCount + 1 }
    else some (false, ctx)

/-- The result and the context behind the call; `none` for a read behind the arguments. -/
def argNextOpt (ctx : ArgCtx) : Option (Int32 × ArgCtx) := do
  match ← argScan (ctx.inputOptsCount.toNat - ctx.nextIdx.toNat) ctx with
  | (some shortName, ctx) => some (shortName, ctx)
  | (none, ctx) =>
    let idx := ctx.nextIdx - ctx.inputOptsCount
    let (missing, ctx) ← argMissing idx (idx.toNat + 1) ctx
    if missing then some (argErrorMissingArg, ctx)
    else
      some (argEnd, { ctx with
        foundKey := []
        foundValue := []
        foundi32Value := 0
        foundF32Value := 0
        foundFlagsValue := 0
        currentOpt := none })

structure ArgFound where
  shortName : Int32
  foundKey : List UInt8
  foundValue : List UInt8
  deriving DecidableEq, Repr

/-- The loop of the caller up to `arg_end`, with at most as many calls. -/
def argAll : Nat → ArgCtx → Option (List ArgFound)
  | 0, _ => none
  | calls + 1, ctx => do
    let (opt, ctx) ← argNextOpt ctx
    if opt = argEnd then some []
    else
      let founds ← argAll calls ctx
      some ({ shortName := opt, foundKey := ctx.foundKey, foundValue := ctx.foundValue } :: founds)

end CWebServer
