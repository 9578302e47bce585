import CWebServer.Join

/-!
# Formatting a template

`FmtInput.loop` is the scan of `str_fmtVargs`: what it writes, in order, and
whether it returned early. The scan reads nothing that its writes change.
Indices are `Nat`, which is what the `i32` of the source are in a template of
less than `2 ^ 31 - 1` bytes (`strFmtVargsWords_eq`).
-/

namespace CWebServer

structure StrKeyValue where
  key : List UInt8
  value : StrValue

/-- A template, what is behind it in memory (`none` where a read faults), the arguments, and whether `ASSERT` is off. -/
structure FmtInput where
  fmt : List UInt8
  behind : Nat → Option UInt8
  args : List StrKeyValue
  ndebug : Bool

inductive FmtWrite
  | text (bytes : List UInt8)
  | value (value : StrValue) (format : List UInt8)

def FmtWrite.run (arena : Arena) : FmtWrite → Option Arena
  | .text bytes => pushCopy arena bytes.length bytes
  | .value (.custom buildStrFn) format => buildStrFn arena format
  | .value arg _ => strRecordValue arena arg

/-! ## `str__insertValue` -/

/-- The index of the argument and where the format may follow; `none` where a key is to be looked for. -/
def insertIndex (insertCount : Nat) (valueFormat : List UInt8) : Option (Nat × Nat) :=
  match valueFormat.head? with
  | none => some (insertCount, 0)
  | some c =>
    if c = chr ':' then some (insertCount, 0)
    else if strIsNumberChar c then
      let (number, offset) := strParseU32N valueFormat
      if offset ≠ 0 then some (number, offset) else none
    else none

/-- `valueFormat` has a closing brace behind it, which ends every search. -/
def insertKey (valueFormat : List UInt8) : List UInt8 :=
  valueFormat.takeWhile fun c => c ≠ chr ':' && c ≠ chr '\x7d'

/-- What is behind the colon at `fmtIdx`. -/
def insertFormat (valueFormat : List UInt8) (fmtIdx : Nat) : List UInt8 :=
  if valueFormat[fmtIdx]? = some (chr ':') then
    (valueFormat.drop (fmtIdx + 1)).takeWhile fun c => c ≠ chr '\x7d'
  else []

/-- The write of `str__insertValue`, or `none` at one of its assertions. -/
def strInsertValue (insertCount : Nat) (valueFormat : List UInt8) (args : List StrKeyValue) : Option FmtWrite :=
  match insertIndex insertCount valueFormat with
  | some (index, fmtIdx) => args[index]?.map fun arg => .value arg.value (insertFormat valueFormat fmtIdx)
  | none =>
    let key := insertKey valueFormat
    if 1 < key.length then
      (args.find? fun arg => strIsEqual arg.key key).map fun arg =>
        .value arg.value (insertFormat valueFormat key.length)
    else none

/-! ## The scan -/

structure FmtScan where
  lastChar : UInt8 := 0
  insertCount : Nat := 0
  insertStartIdx : Option Nat := none
  textStartIdx : Nat := 0
  deriving DecidableEq, Repr

/-- A turn returns early, or writes, skips the second of two braces, and goes on. -/
inductive FmtTurn
  | error
  | next (writes : List FmtWrite) (skip : Nat) (scan : FmtScan)

structure FmtTrace where
  writes : List FmtWrite
  error : Bool

namespace FmtInput
variable (i : FmtInput)

def byteAt (idx : Nat) : Option UInt8 := if h : idx < i.fmt.length then some i.fmt[idx] else i.behind (idx - i.fmt.length)

def readBytes (start size : Nat) : Option (List UInt8) := (List.range size).mapM fun k => i.byteAt (start + k)

/-- The text is copied unless it is empty. -/
def copyText (start size : Nat) : Option (List FmtWrite) :=
  if 0 < size then (i.readBytes start size).map fun bytes => [.text bytes] else some []

def turn (idx : Nat) (s : FmtScan) (currentChar : UInt8) : Option FmtTurn :=
  match s.insertStartIdx with
  | some start =>
    if currentChar = chr '\x7d' ∧ s.lastChar ≠ chr '\\' then
      let valueFormat := (i.fmt.drop (start + 1)).take (idx - (start + 1))
      let insertCount := s.insertCount + 1
      match strInsertValue s.insertCount valueFormat i.args with
      | some write => some (.next [write] 0 { s with insertStartIdx := none, insertCount, textStartIdx := idx + 1 })
      | none =>
        if i.ndebug then some (.next [] 0 { s with insertStartIdx := none, insertCount, textStartIdx := start })
        else none
    else some (.next [] 0 s)
  | none =>
    if currentChar = chr '\x7b' then do
      let nextChar ← i.byteAt (idx + 1)
      let skip := if nextChar = chr '\x7b' then 1 else 0
      let writes ← i.copyText s.textStartIdx (idx + skip - s.textStartIdx)
      let insertStartIdx := if nextChar ≠ chr '\x7b' then some (idx + skip) else none
      some (.next writes skip { s with insertStartIdx, textStartIdx := idx + skip + 1 })
    else if currentChar = chr '\x7d' then do
      let nextChar ← i.byteAt (idx + 1)
      if nextChar = chr '\x7d' then
        let writes ← i.copyText s.textStartIdx (idx + 1 - s.textStartIdx)
        some (.next writes 1 { s with textStartIdx := idx + 1 + 1 })
      else if i.ndebug then some .error else none
    else some (.next [] 0 s)

/-- `fmt.size - textStartIdx`, as a `u32`. -/
def textLeft (textStartIdx : Nat) : Nat :=
  if textStartIdx ≤ i.fmt.length then i.fmt.length - textStartIdx else 2 ^ 32 - (textStartIdx - i.fmt.length)

def loop (idx : Nat) (s : FmtScan) : Option FmtTrace :=
  if h : idx < i.fmt.length then do
    match ← i.turn idx s i.fmt[idx] with
    | .error => some ⟨[], true⟩
    | .next writes skip s =>
      let lastChar ← i.byteAt (idx + skip)
      let trace ← loop (idx + skip + 1) { s with lastChar }
      some ⟨writes ++ trace.writes, trace.error⟩
  else do
    let writes ← i.copyText s.textStartIdx (i.textLeft s.textStartIdx)
    some ⟨writes, false⟩
termination_by i.fmt.length - idx
decreasing_by omega

end FmtInput

/-! ## `str_fmtVargs` -/

/-- `failed` is the return of `""` from within the record. -/
inductive FmtResult
  | str (strOut : S8) (arena : Arena)
  | failed (arena : Arena)

/-- The end of `str_record`. -/
def strRecordEnd (startIdx : Nat) (arena : Arena) : Option (S8 × Arena) := do
  let pos := memGetArenaMemOffsetPos arena
  let str := if startIdx - 1 < pos then .slice (startIdx - 1) (pos - (startIdx - 1)) else .null
  let arena ← memArenaStopUnsafeRecord arena
  some (str, arena)

def strFmtVargs (arena : Arena) (i : FmtInput) : Option FmtResult := do
  -- kept in a `u32`
  let storedAligmnet := arena.alignment % 2 ^ 32
  let arena := { arena with alignment := 1 }
  let startIdx := memGetArenaMemOffsetPos arena + 1
  let trace ← i.loop 0 {}
  let arena ← trace.writes.foldlM FmtWrite.run (memArenaStartUnsafeRecord arena)
  if trace.error then some (.failed { arena with alignment := storedAligmnet })
  else
    let (strOut, arena) ← strRecordEnd startIdx arena
    some (.str strOut { arena with alignment := storedAligmnet })

end CWebServer
