import CWebServer.Utf

/-!
# Wide strings

`str_toS16` and `str_toS32` count the terminator as a part of the text, and
`str_fromS16` reads it back as a byte. An `S16` and an `S32` are their units.
-/

namespace CWebServer

section
variable {α : Type}

/-- Units written at `dptr` of a block; `none` where the block ends before. -/
def writeUnits (memory : List α) (dptr : Nat) (units : List α) : Option (List α) :=
  if dptr + units.length ≤ memory.length then some (memory.take dptr ++ units ++ memory.drop (dptr + units.length))
  else none

/-- The loop of both conversions from UTF-8, for `turns` turns at most: the block and `dptr` behind the text. -/
def widenLoop (encode : UInt32 → List α × Nat) : Nat → List UInt8 → List α → Nat → Option (List α × Nat)
  | _, [], memory, dptr => some (memory, dptr)
  | 0, _ :: _, _, _ => none
  | turns + 1, b :: ptr, memory, dptr => do
    let decode ← strDecodeUtf8 (b :: ptr) (b :: ptr).length
    let (units, encSize) := encode decode.codepoint
    let memory ← writeUnits memory dptr units
    widenLoop encode turns ((b :: ptr).drop decode.size.toNat) memory (dptr + encSize)

/-- `stale` is what the block holds that `mem_arenaPushArray` returns. -/
def strWiden (zero : α) (encode : UInt32 → List α × Nat) (stale : Nat → α) (str : List UInt8) : Option (List α) := do
  let allocSize := str.length * 4 + 2
  let memory := (List.range allocSize).map stale
  let (memory, dptr) ← widenLoop encode str.length str memory 0
  let memory ← writeUnits memory dptr [zero]
  let dptr := dptr + 1
  let memory ← writeUnits memory dptr [zero]
  some (memory.take dptr)

end

def strToS16 (osWin : Bool) (stale : Nat → UInt16) (str : List UInt8) : Option (List UInt16) :=
  strWiden 0 (strEncodeUtf16 osWin) stale str

def strToS32 (stale : Nat → UInt32) (str : List UInt8) : Option (List UInt32) :=
  strWiden 0 (fun codepoint => ([codepoint], 1)) stale str

def fromS16Loop : Nat → List UInt16 → List UInt8 → Nat → Option (List UInt8 × Nat)
  | _, [], memory, dptr => some (memory, dptr)
  | 0, _ :: _, _, _ => none
  | turns + 1, u :: ptr, memory, dptr => do
    let decode ← strDecodeUtf16 (u :: ptr) (u :: ptr).length
    let units := strEncodeUtf8 decode.codepoint
    let memory ← writeUnits memory dptr units
    fromS16Loop turns ((u :: ptr).drop decode.size.toNat) memory (dptr + units.length)

def strFromS16 (str : List UInt16) : Option (List UInt8) := do
  let memory := List.replicate (str.length * 3 + 1) 0
  let (memory, dptr) ← fromS16Loop str.length str memory 0
  let memory ← writeUnits memory dptr [0]
  some (memory.take dptr)

/-! ## Writing to a block -/

section
variable {α : Type} {memory memory' : List α} {dptr : Nat} {units : List α}

theorem writeUnits_some (h : dptr + units.length ≤ memory.length) :
    ∃ memory', writeUnits memory dptr units = some memory' ∧ memory'.length = memory.length := by
  refine ⟨_, if_pos h, ?_⟩
  simp
  omega

theorem take_writeUnits (h : writeUnits memory dptr units = some memory') :
    memory'.take (dptr + units.length) = memory.take dptr ++ units := by
  unfold writeUnits at h
  split at h
  · rename_i hle
    cases h
    have hlen : (memory.take dptr ++ units).length = dptr + units.length := by
      simp
      omega
    rw [← hlen, List.take_left]
  · cases h

theorem take_writeUnits_behind (h : writeUnits memory dptr units = some memory') :
    memory'.take dptr = memory.take dptr := by
  have htake := congrArg (List.take dptr) (take_writeUnits h)
  rw [List.take_take, Nat.min_eq_left (Nat.le_add_right _ _)] at htake
  rw [htake]
  unfold writeUnits at h
  split at h
  · rename_i hle
    have hlen : dptr ≤ (memory.take dptr).length := by
      simp
      omega
    rw [List.take_append_of_le_length hlen, List.take_take, Nat.min_self]
  · cases h

/-! ## From UTF-8 -/

variable {encode : UInt32 → List α × Nat} {step : Nat}

/-- Each byte takes the same step, and its units fit. -/
structure StepsBy (encode : UInt32 → List α × Nat) (step : Nat) : Prop where
  size : ∀ b : UInt8, (encode b.toUInt32).2 = step
  units : ∀ b : UInt8, (encode b.toUInt32).1.length ≤ step

theorem widenLoop_eq (h : StepsBy encode step) {turns : Nat} {ptr : List UInt8} (hturns : ptr.length ≤ turns)
    (hroom : dptr + step * ptr.length ≤ memory.length) :
    ∃ memory', widenLoop encode turns ptr memory dptr = some (memory', dptr + step * ptr.length) ∧
      memory'.length = memory.length := by
  induction ptr generalizing turns memory dptr with
  | nil => cases turns <;> exact ⟨memory, rfl, rfl⟩
  | cons b ptr ih =>
    cases turns with
    | zero => cases hturns
    | succ turns =>
      have hunits := h.units b
      rw [List.length_cons, Nat.mul_add_one] at hroom
      obtain ⟨written, hwrite, hlen⟩ : ∃ memory', writeUnits memory dptr (encode b.toUInt32).1 = some memory' ∧
          memory'.length = memory.length := writeUnits_some (by omega)
      obtain ⟨memory', hloop, hlen'⟩ :=
        ih (Nat.le_of_succ_le_succ hturns) (by rw [hlen]; omega : dptr + step + step * ptr.length ≤ written.length)
      refine ⟨memory', ?_, hlen'.trans hlen⟩
      rw [widenLoop, decode_byte]
      simp only [Option.bind_eq_bind, Option.bind_some, hwrite, h.size]
      rw [List.length_cons, Nat.mul_add_one, Nat.add_comm (step * ptr.length), ← Nat.add_assoc]
      exact hloop

/-- The terminator is the last unit of the result. -/
theorem strWiden_eq (h : StepsBy encode step) (hstep : step ≤ 4) (zero : α) (stale : Nat → α) (str : List UInt8) :
    ∃ units, strWiden zero encode stale str = some (units ++ [zero]) ∧ units.length = step * str.length := by
  have hmul : step * str.length ≤ 4 * str.length := Nat.mul_le_mul_right _ hstep
  have halloc : ((List.range (str.length * 4 + 2)).map stale).length = str.length * 4 + 2 := by simp
  have hroom : 0 + step * str.length ≤ ((List.range (str.length * 4 + 2)).map stale).length := by omega
  obtain ⟨memory, hloop, hlen⟩ := widenLoop_eq h (Nat.le_refl _) hroom
  rw [Nat.zero_add] at hloop
  obtain ⟨memory', hfirst, hlen'⟩ : ∃ memory', writeUnits memory (step * str.length) [zero] = some memory' ∧
      memory'.length = memory.length := writeUnits_some (by rw [hlen, halloc, List.length_singleton]; omega)
  obtain ⟨memory'', hsecond, -⟩ : ∃ memory'', writeUnits memory' (step * str.length + 1) [zero] = some memory'' ∧
      memory''.length = memory'.length := writeUnits_some (by rw [hlen', hlen, halloc, List.length_singleton]; omega)
  refine ⟨memory.take (step * str.length), ?_, ?_⟩
  · unfold strWiden
    simp only [hloop, hfirst, hsecond, Option.bind_eq_bind, Option.bind_some]
    rw [take_writeUnits_behind hsecond]
    exact congrArg some (take_writeUnits hfirst)
  · rw [List.length_take]
    omega

end

theorem byte_lt (b : UInt8) : b.toUInt32 < 0x10000 := by
  rw [UInt32.lt_iff_toNat_lt, UInt8.toNat_toUInt32]
  exact Nat.lt_trans b.toNat_lt (by decide)

theorem stepsBy_utf16 (osWin : Bool) : StepsBy (strEncodeUtf16 osWin) (if osWin then 1 else 2) := by
  constructor <;> intro b
  · simp [strEncodeUtf16, byte_lt b]
  · cases osWin <;> simp [strEncodeUtf16, byte_lt b]

theorem strToS16_eq (osWin : Bool) (stale : Nat → UInt16) (str : List UInt8) :
    ∃ units, strToS16 osWin stale str = some (units ++ [0]) := by
  have hstep : (if osWin then 1 else 2) ≤ 4 := by cases osWin <;> decide
  obtain ⟨units, h, -⟩ := strWiden_eq (stepsBy_utf16 osWin) hstep 0 stale str
  exact ⟨units, h⟩

theorem strToS32_eq (stale : Nat → UInt32) (str : List UInt8) :
    ∃ units, strToS32 stale str = some (units ++ [0]) ∧ units.length = str.length := by
  have hsteps : StepsBy (fun codepoint : UInt32 => ([codepoint], 1)) 1 := ⟨fun _ => rfl, fun _ => Nat.le_refl _⟩
  obtain ⟨units, h, hlen⟩ := strWiden_eq hsteps (by decide) 0 stale str
  exact ⟨units, h, hlen.trans (Nat.one_mul _)⟩

/-! ## From UTF-16 -/

theorem decodeUnits_size {α : Type} {widen : α → UInt16} {u : α} {rest : List α} {cap : Nat}
    {decode : StrStringDecode} (h : decodeUnits widen (u :: rest) cap = some decode) :
    decode.size = 1 ∨ decode.size = 2 ∧ ∃ v ∈ rest.head?, 0xDC00 ≤ widen v := by
  unfold decodeUnits at h
  dsimp only at h
  split at h
  · cases h
    exact Or.inl rfl
  · split at h
    · obtain ⟨v, hv, he⟩ := Option.map_eq_some_iff.mp h
      split at he
      · rename_i hpair
        cases he
        exact Or.inr ⟨rfl, v, hv, hpair.2.2.1⟩
      · cases he
        exact Or.inl rfl
    · cases h
      exact Or.inl rfl

/-- The loop takes the terminator for a unit like the others. -/
theorem fromS16Loop_zero {turns : Nat} {units : List UInt16} {memory memory' : List UInt8} {dptr dptr' : Nat}
    (h : fromS16Loop turns (units ++ [0]) memory dptr = some (memory', dptr')) :
    ∃ text, memory'.take dptr' = text ++ [0] := by
  induction turns generalizing units memory dptr with
  | zero => cases units <;> cases h
  | succ turns ih =>
    cases units with
    | nil =>
      obtain ⟨written, hwrite, hloop⟩ := Option.bind_eq_some_iff.mp h
      have hend : some (written, dptr + 1) = some (memory', dptr') := by
        cases turns <;> exact hloop
      cases hend
      exact ⟨_, take_writeUnits hwrite⟩
    | cons u units =>
      obtain ⟨decode, hdecode, h⟩ := Option.bind_eq_some_iff.mp h
      obtain ⟨written, -, hloop⟩ := Option.bind_eq_some_iff.mp h
      rcases decodeUnits_size hdecode with hsize | ⟨hsize, v, hv, hle⟩
      · rw [hsize] at hloop
        exact ih hloop
      · rw [hsize] at hloop
        cases units with
        | nil =>
          cases hv
          exact absurd hle (by decide)
        | cons v units => exact ih hloop

theorem strFromS16_zero {units : List UInt16} {str : List UInt8} (h : strFromS16 (units ++ [0]) = some str) :
    ∃ text, str = text ++ [0] := by
  obtain ⟨⟨memory, dptr⟩, hloop, h⟩ := Option.bind_eq_some_iff.mp h
  obtain ⟨memory', hwrite, h⟩ := Option.bind_eq_some_iff.mp h
  cases h
  rw [take_writeUnits_behind hwrite]
  exact fromS16Loop_zero hloop

/-! ## What the conversions lose -/

def utf8Text (chars : List Char) : List UInt8 := chars.flatMap String.utf8EncodeChar

def NarrowKept (osWin : Bool) (stale : Nat → UInt16) (chars : List Char) : Prop :=
  (strToS16 osWin stale (utf8Text chars)).bind strFromS16 = some (utf8Text chars)

def WideKept (stale : Nat → UInt32) (chars : List Char) : Prop :=
  strToS32 stale (utf8Text chars) = some (chars.map Char.val)

theorem length_le_utf8Text (chars : List Char) : chars.length ≤ (utf8Text chars).length := by
  induction chars with
  | nil => exact Nat.le_refl _
  | cons c chars ih =>
    have hpos := c.utf8Size_pos
    unfold utf8Text at ih ⊢
    rw [List.flatMap_cons, List.length_append, String.length_utf8EncodeChar, List.length_cons]
    omega

theorem not_narrowKept {chars : List Char} (h : 0 ∉ utf8Text chars) (osWin : Bool) (stale : Nat → UInt16) :
    ¬ NarrowKept osWin stale chars := by
  intro hkept
  obtain ⟨units, hunits⟩ := strToS16_eq osWin stale (utf8Text chars)
  unfold NarrowKept at hkept
  rw [hunits, Option.bind_some] at hkept
  obtain ⟨text, htext⟩ := strFromS16_zero hkept
  rw [htext] at h
  exact h (List.mem_append_right _ List.mem_cons_self)

theorem not_wideKept (stale : Nat → UInt32) (chars : List Char) : ¬ WideKept stale chars := by
  intro hkept
  obtain ⟨units, hunits, hlen⟩ := strToS32_eq stale (utf8Text chars)
  unfold WideKept at hkept
  rw [hunits] at hkept
  have hcount := congrArg List.length (Option.some.inj hkept)
  have hle := length_le_utf8Text chars
  rw [List.length_append, List.length_singleton, List.length_map] at hcount
  omega

structure LosesNothing (osWin : Bool) (stale16 : Nat → UInt16) (stale32 : Nat → UInt32) (chars : List Char) : Prop where
  narrow : NarrowKept osWin stale16 chars
  wide : WideKept stale32 chars

/-- Neither half holds, whatever the text, the platform and the memory. -/
theorem conversions_lose (osWin : Bool) (stale16 : Nat → UInt16) (stale32 : Nat → UInt32) (chars : List Char)
    (h : 0 ∉ utf8Text chars) :
    ¬ NarrowKept osWin stale16 chars ∧ ¬ WideKept stale32 chars ∧ ¬ LosesNothing osWin stale16 stale32 chars :=
  ⟨not_narrowKept h osWin stale16, not_wideKept stale32 chars, fun hkept => not_wideKept stale32 chars hkept.wide⟩

theorem conversions_lose_a :
    ¬ NarrowKept true (fun _ => 0) ['a'] ∧ ¬ WideKept (fun _ => 0) ['a'] ∧
      ¬ LosesNothing true (fun _ => 0) (fun _ => 0) ['a'] :=
  conversions_lose true (fun _ => 0) (fun _ => 0) ['a'] (by decide)

theorem not_losesNothing : ¬ LosesNothing true (fun _ => 0) (fun _ => 0) ['a'] := by
  intro h
  have hwide : strToS32 (fun _ => 0) (utf8Text ['a']) = some [0x61, 0] := by decide
  rw [h.wide] at hwide
  exact absurd hwide (by decide)

end CWebServer
