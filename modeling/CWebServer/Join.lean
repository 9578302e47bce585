import CWebServer.Arena

/-!
# Joining strings in an arena

`strJoinVargs` records the texts of its arguments one behind the other. A
write through a `NULL` block is a fault, `none`.
-/

namespace CWebServer

/-- What `str__f32ToCharArr` returns: the bytes from `startChar` on, the number of digits and the decimal position. -/
structure FloatChars where
  chars : List UInt8
  length : Nat
  decPos : Int
  deriving DecidableEq, Repr

/-- `custom` is `buildStrFn` with its `usrPtr`; it takes the arena and the format. -/
inductive StrValue
  | custom (buildStrFn : Arena → List UInt8 → Option Arena)
  | str (strVal : List UInt8)
  | char (charVal : UInt8)
  | f32 (f32Val : FloatChars)
  | f64 (f64Val : FloatChars)
  | u32 (u32Val : Nat)
  | u64 (u64Val : Nat)
  | i32 (i32Val : Int)
  | i64 (i64Val : Int)

def strRecordStr (arena : Arena) (str : List UInt8) : Option Arena := pushCopy arena str.length str

def strRecordChar (arena : Arena) (value : UInt8) : Option Arena := pushCopy arena 1 [value]

/-- `mem_copy(mem_arenaPush(arena, size), chars, size)`, a fault if it reads behind `chars`. -/
def pushChars (arena : Arena) (size : Nat) (chars : List UInt8) : Option Arena :=
  if size ≤ chars.length then pushCopy arena size (chars.take size) else none

def strRecordf32Cast (arena : Arena) (c : FloatChars) : Option Arena := do
  let decPos := wrap64 c.decPos
  let arena ← if c.decPos = 0 then pushCopy arena 2 (s8 "0.") else some arena
  -- `decPos < length` compares two `u32`
  if decPos % 2 ^ 32 < c.length then
    let arena ← pushChars arena decPos c.chars
    let arena ← pushCopy arena 1 (s8 ".")
    pushChars arena (wrap64 (c.length - c.decPos) % 2 ^ 32) (c.chars.drop decPos)
  else pushChars arena c.length c.chars

def strRecordF64 (arena : Arena) (c : FloatChars) : Option Arena := do
  let decPos := wrap64 c.decPos
  let arena ← if c.decPos = 0 then pushCopy arena c.length (s8 "0.") else some arena
  let arena ← pushChars arena decPos c.chars
  let arena ← pushCopy arena 1 (s8 ".")
  pushChars arena (wrap64 (c.length - c.decPos) % 2 ^ 32) (c.chars.drop decPos)

def digit (n : Nat) : UInt8 := (48 + n).toUInt8

def digitLoop (tmpVal : Nat) (intStr : List UInt8) : List UInt8 :=
  if tmpVal = 0 then intStr else digitLoop (tmpVal / 10) (digit (tmpVal - tmpVal / 10 * 10) :: intStr)
termination_by tmpVal
decreasing_by omega

def recordSign (arena : Arena) (isNegativ : Bool) : Option Arena :=
  if isNegativ then pushCopy arena 1 (s8 "-") else some arena

def strRecordU64 (arena : Arena) (value : Nat) (isNegativ : Bool) : Option Arena := do
  let arena ← recordSign arena isNegativ
  if value = 0 then pushCopy arena 1 (s8 "0")
  else
    let text := digitLoop value []
    pushCopy arena text.length text

/-! ## `str__ufast_utoa10` -/

def table2 (n : Nat) : List UInt8 := [digit (n / 10), digit (n % 10)]

def table3 (n : Nat) : List UInt8 := digit (n / 100) :: table2 (n % 100)

def table4 (n : Nat) : List UInt8 := digit (n / 1000) :: table3 (n % 1000)

/-- The first `offsets[n]` bytes of `table5[n]`. -/
def table5 (n : Nat) : List UInt8 := if 100 ≤ n then table3 n else if 10 ≤ n then table2 n else [digit n]

/-- The bytes that stay in `str`. Without `x64` it is the variant that divides. -/
def strUfastUtoa10 (x64 : Bool) (value : Nat) : List UInt8 :=
  let quotient := if x64 then value * 3518437209 / 2 ^ 45 else value / 10000
  if 100000000 ≤ value then
    let v2 := if x64 then value * 2882303762 / 2 ^ 58 else value / 100000000
    let texts := table4 (quotient - v2 * 10000) ++ table4 (value - quotient * 10000)
    if 10 ≤ v2 then table5 v2 ++ texts else digit v2 :: texts
  else if 10000 ≤ value then
    if 1000 ≤ quotient then table4 quotient ++ table4 (value - quotient * 10000)
    else table5 quotient ++ table4 (value - quotient * 10000)
  else if 1000 ≤ value then table4 value
  else if 100 ≤ value then table3 value
  else if 10 ≤ value then table2 value
  else [digit value]

def strRecordU32 (arena : Arena) (value : Nat) (isNegativ : Bool) : Option Arena := do
  let arena ← recordSign arena isNegativ
  if value = 0 then pushCopy arena 1 (s8 "0")
  else
    let text := strUfastUtoa10 true value
    let arena ← pushCopy arena 10 text
    some (if text.length < 10 then memArenaPopTo arena (arena.pos - (10 - text.length)) else arena)

/-! ## Records -/

def S8.inArena (arena : Arena) : S8 → List UInt8
  | .null => []
  | .lit text => text
  | .slice start size => Memory.read arena.memory start size

/-- The macro `str_record`; `body` is the statement behind it. The string is a slice of `arena->memory`. -/
def strRecord (arena : Arena) (body : Arena → Option Arena) : Option (S8 × Arena) := do
  let startIdx := memGetArenaMemOffsetPos arena + 1
  let arena ← body (memArenaStartUnsafeRecord arena)
  let pos := memGetArenaMemOffsetPos arena
  let str := if startIdx - 1 < pos then .slice (startIdx - 1) (pos - (startIdx - 1)) else .null
  let arena ← memArenaStopUnsafeRecord arena
  some (str, arena)

def strRecordValue (arena : Arena) : StrValue → Option Arena
  | .custom buildStrFn => buildStrFn arena []
  | .char charVal => strRecordChar arena charVal
  | .str strVal => strRecordStr arena strVal
  | .f32 f32Val => strRecordf32Cast arena f32Val
  | .f64 f64Val => strRecordF64 arena f64Val
  | .u32 u32Val => strRecordU32 arena u32Val false
  | .u64 u64Val => strRecordU64 arena u64Val false
  -- as an unsigned number the absolute value of the least number is right
  | .i32 i32Val => strRecordU32 arena i32Val.natAbs (i32Val < 0)
  | .i64 i64Val => strRecordU64 arena i64Val.natAbs (i64Val < 0)

def strJoinVargs (arena : Arena) (args : List StrValue) : Option (S8 × Arena) :=
  strRecord arena fun arena => args.foldlM strRecordValue arena

/-! ## Strings within a record -/

/-- The arena has room for `n` more bytes, in a record or not. -/
structure HasRoom (arena : Arena) (n : Nat) : Prop where
  record : 0 ≤ arena.unsafeRecord
  pos : sizeOfArena ≤ arena.pos
  room : arena.pos + n ≤ arena.cap
  cap : arena.cap < 2 ^ 64

instance (arena : Arena) (n : Nat) : Decidable (HasRoom arena n) :=
  decidable_of_iff (0 ≤ arena.unsafeRecord ∧ sizeOfArena ≤ arena.pos ∧ arena.pos + n ≤ arena.cap ∧ arena.cap < 2 ^ 64)
    ⟨fun h => ⟨h.1, h.2.1, h.2.2.1, h.2.2.2⟩, fun h => ⟨h.record, h.pos, h.room, h.cap⟩⟩

theorem HasRoom.mono {arena : Arena} {m n : Nat} (h : HasRoom arena n) (hmn : m ≤ n) : HasRoom arena m :=
  { h with room := Nat.le_trans (Nat.add_le_add_left hmn _) h.room }

theorem HasRoom.recording {arena : Arena} {n : Nat} (h : HasRoom arena n) :
    Recording (memArenaStartUnsafeRecord arena) n where
  record := Int.lt_add_one_of_le h.record
  pos := h.pos
  room := h.room
  cap := h.cap

theorem Recording.hasRoom {arena : Arena} {n : Nat} (h : Recording arena n) : HasRoom arena n :=
  ⟨Int.le_of_lt h.record, h.pos, h.room, h.cap⟩

/-- The string of `n` recorded bytes. -/
def recorded (start n : Nat) : S8 := if n = 0 then .null else .slice start n

theorem strRecord_spec {f : Arena → Option Arena} {t : List UInt8} {peak : Nat} (hf : Writes f t peak) {arena : Arena}
    (h : HasRoom arena peak) :
    ∃ arena', strRecord arena f = some (recorded (arena.pos - sizeOfArena) t.length, arena') ∧
      arena'.memory = Memory.write arena.memory (arena.pos - sizeOfArena) t ∧
      (0 < arena.unsafeRecord → ∃ c, arena' = arena.append t c) := by
  obtain ⟨c, hc⟩ := hf.run _ h.recording
  have hrecord := h.record
  have hpos := h.pos
  have hroom := h.room
  have hcap := h.cap
  have hlen := hf.length_le
  have hstart : memGetArenaMemOffsetPos arena = arena.pos - sizeOfArena := memOffsetPos_eq hpos (by omega)
  have hend : memGetArenaMemOffsetPos ((memArenaStartUnsafeRecord arena).append t c) =
      arena.pos - sizeOfArena + t.length := by
    rw [← Nat.sub_add_comm hpos]
    exact memOffsetPos_eq (Nat.le_trans hpos (Nat.le_add_right _ _)) (by show arena.pos + t.length < 2 ^ 64; omega)
  have hstr : (if arena.pos - sizeOfArena < arena.pos - sizeOfArena + t.length then
      S8.slice (arena.pos - sizeOfArena) (arena.pos - sizeOfArena + t.length - (arena.pos - sizeOfArena))
      else .null) = recorded (arena.pos - sizeOfArena) t.length := by
    unfold recorded
    by_cases h0 : t.length = 0
    · rw [if_pos h0, if_neg (by omega)]
    · rw [if_neg h0, if_pos (by omega), Nat.add_sub_cancel_left]
  have hpositive : 0 < arena.unsafeRecord + 1 := by omega
  unfold strRecord
  simp only [hc, hstart, hend, Nat.add_sub_cancel, Option.bind_eq_bind, Option.bind_some, hstr]
  unfold memArenaStopUnsafeRecord memArenaStartUnsafeRecord Arena.append
  simp only [hpositive, if_true, Int.add_sub_cancel, Option.bind_some]
  refine ⟨_, rfl, ?_, ?_⟩
  · by_cases hr : arena.unsafeRecord = 0
    · rw [if_pos hr]
    · rw [if_neg hr]
  · intro hr
    rw [if_neg (by omega)]
    exact ⟨c, rfl⟩

theorem Writes.strRecord {f : Arena → Option Arena} {t : List UInt8} {peak : Nat} (hf : Writes f t peak) :
    Writes (fun arena => (strRecord arena f).map Prod.snd) t peak := by
  refine ⟨hf.length_le, fun arena h => ?_⟩
  obtain ⟨arena', hrec, _, happ⟩ := strRecord_spec hf h.hasRoom
  obtain ⟨c, rfl⟩ := happ h.record
  exact ⟨c, by rw [hrec]; rfl⟩

theorem Emits.strRecord {f : Arena → Option Arena} {t : List UInt8} (hf : Emits f t) :
    Emits (fun arena => (strRecord arena f).map Prod.snd) t := hf.writes.strRecord.run

def strJoin (arena : Arena) (texts : List (List UInt8)) : Option Arena :=
  (strJoinVargs arena (texts.map .str)).map Prod.snd

theorem emits_strJoin (texts : List (List UInt8)) : Emits (strJoin · texts) texts.flatten := by
  have hloop : Emits (fun arena => (texts.map StrValue.str).foldlM strRecordValue arena) texts.flatten := by
    have h : Emits (fun arena => texts.foldlM strRecordStr arena) (texts.flatMap id) := .foldlM emits_pushCopy texts
    rw [List.flatMap_id] at h
    simp only [List.foldlM_map]
    exact h
  exact hloop.strRecord

end CWebServer
