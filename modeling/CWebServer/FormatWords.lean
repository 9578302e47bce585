import CWebServer.FormatSound
import CWebServer.HeaderWords

/-!
# Formatting in words

`str_fmtVargs` with the `i32` indices and the `u32` sizes of the source. Of a
template that an `i32` can scan it does what the scan over `Nat` does.
-/

namespace CWebServer

structure FmtScanWords where
  lastChar : UInt8 := 0
  insertCount : Int32 := 0
  insertStartIdx : Int32 := -1
  textStartIdx : Int32 := 0
  deriving DecidableEq, Repr

inductive FmtTurnWords
  | error
  | next (writes : List FmtWrite) (idx : Int32) (scan : FmtScanWords)

/-- `insertIndex` and `fmtIdx`, where -1 asks for the search of a key. -/
def insertIndexWords (insertCount : UInt32) (valueFormat : List UInt8) : Int32 × Int32 :=
  match valueFormat.head? with
  | none => (insertCount.toInt32, 0)
  | some c =>
    if c = chr ':' then (insertCount.toInt32, 0)
    else if strIsNumberChar c then
      let (number, offset) := strParseU32N valueFormat
      if UInt64.ofNat offset ≠ 0 then ((UInt32.ofNat number).toInt32, (UInt64.ofNat offset).toUInt32.toInt32)
      else (-1, 0)
    else (-1, 0)

def insertFormatWords (valueFormat : List UInt8) (fmtIdx : Int32) : List UInt8 :=
  if readAt valueFormat fmtIdx = some (chr ':') then
    let size := (UInt64.ofNat valueFormat.length - u64OfInt (fmtIdx + 1)).toUInt32
    ((valueFormat.drop (fmtIdx + 1).toNatClampNeg).take size.toNat).takeWhile fun c => c ≠ chr '\x7d'
  else []

/-- The write of `str__insertValue`, or `none` at one of its assertions. -/
def strInsertValueWords (insertCount : UInt32) (valueFormat : List UInt8) (args : List StrKeyValue) : Option FmtWrite :=
  let argCount := UInt32.ofNat args.length
  let (insertIndex, fmtIdx) := insertIndexWords insertCount valueFormat
  if insertIndex ≠ -1 then
    if insertIndex.toUInt32 ≥ argCount then none
    else args[insertIndex.toUInt32.toNat]?.map fun arg => .value arg.value (insertFormatWords valueFormat fmtIdx)
  else
    let key := insertKey valueFormat
    let count := UInt32.ofNat key.length
    if count > 1 then
      (args.find? fun arg => strIsEqual arg.key key).map fun arg =>
        .value arg.value (insertFormatWords valueFormat count.toInt32)
    else none

namespace FmtInput
variable (i : FmtInput)

/-- `fmt.content[idx]` -/
def byteAtWords (idx : Int32) : Option UInt8 := if 0 ≤ idx then i.byteAt idx.toNatClampNeg else none

/-- `mem_copy` of `size` bytes at `fmt.content + textStartIdx`. -/
def copyWords (textStartIdx : Int32) (size : Nat) : Option (List FmtWrite) :=
  if 0 ≤ textStartIdx then (i.readBytes textStartIdx.toNatClampNeg size).map fun bytes => [.text bytes] else none

/-- `textSize` is an `i32`. -/
def copyTextWords (textStartIdx textSize : Int32) : Option (List FmtWrite) :=
  if textSize > 0 then i.copyWords textStartIdx textSize.toNatClampNeg else some []

/-- The `size` of the remaining text is a `u32`. -/
def copyRestWords (textStartIdx : Int32) (size : UInt32) : Option (List FmtWrite) :=
  if size > 0 then i.copyWords textStartIdx size.toNat else some []

def turnWords (idx : Int32) (s : FmtScanWords) (currentChar : UInt8) : Option FmtTurnWords :=
  if s.insertStartIdx ≠ -1 then
    if currentChar = chr '\x7d' ∧ s.lastChar ≠ chr '\\' then
      let size := u64OfInt (idx - (s.insertStartIdx + 1))
      let valueFormat := (i.fmt.drop (s.insertStartIdx + 1).toNatClampNeg).take size.toNat
      let insertCount := s.insertCount + 1
      match strInsertValueWords s.insertCount.toUInt32 valueFormat i.args with
      | some write => some (.next [write] idx { s with insertStartIdx := -1, insertCount, textStartIdx := idx + 1 })
      | none =>
        if i.ndebug then
          some (.next [] idx { s with insertStartIdx := -1, insertCount, textStartIdx := s.insertStartIdx })
        else none
    else some (.next [] idx s)
  else if currentChar = chr '\x7b' then do
    let nextChar ← i.byteAtWords (idx + 1)
    let idx := if nextChar = chr '\x7b' then idx + 1 else idx
    let writes ← i.copyTextWords s.textStartIdx (idx - s.textStartIdx)
    let insertStartIdx := if nextChar ≠ chr '\x7b' then idx else s.insertStartIdx
    some (.next writes idx { s with insertStartIdx, textStartIdx := idx + 1 })
  else if currentChar = chr '\x7d' then do
    let nextChar ← i.byteAtWords (idx + 1)
    if nextChar = chr '\x7d' then
      let idx := idx + 1
      let writes ← i.copyTextWords s.textStartIdx (idx - s.textStartIdx)
      some (.next writes idx { s with textStartIdx := idx + 1 })
    else if i.ndebug then some .error else none
  else some (.next [] idx s)

/-- The loop for at most as many turns, and the copy of the remaining text. -/
def loopWords : Nat → Int32 → FmtScanWords → Option FmtTrace
  | 0, _, _ => none
  | turns + 1, idx, s =>
    if belowSize i.fmt idx then do
      let currentChar ← i.byteAtWords idx
      match ← i.turnWords idx s currentChar with
      | .error => some ⟨[], true⟩
      | .next writes idx s =>
        let lastChar ← i.byteAtWords idx
        let trace ← loopWords turns (idx + 1) { s with lastChar }
        some ⟨writes ++ trace.writes, trace.error⟩
    else do
      let size := (UInt64.ofNat i.fmt.length - u64OfInt s.textStartIdx).toUInt32
      let writes ← i.copyRestWords s.textStartIdx size
      some ⟨writes, false⟩

end FmtInput

def strFmtVargsWords (arena : Arena) (i : FmtInput) : Option FmtResult := do
  -- kept in a `u32`
  let storedAligmnet := arena.alignment % 2 ^ 32
  let arena := { arena with alignment := 1 }
  let startIdx := memGetArenaMemOffsetPos arena + 1
  let trace ← i.loopWords (i.fmt.length + 2) 0 {}
  let arena ← trace.writes.foldlM FmtWrite.run (memArenaStartUnsafeRecord arena)
  if trace.error then some (.failed { arena with alignment := storedAligmnet })
  else
    let (strOut, arena) ← strRecordEnd startIdx arena
    some (.str strOut { arena with alignment := storedAligmnet })

/-! ## `str__insertValue` in words -/

theorem toUInt32_ofNat (n : Nat) : (Int32.ofNat n).toUInt32 = UInt32.ofNat n := rfl

theorem toInt32_ofNat (n : Nat) : (UInt32.ofNat n).toInt32 = Int32.ofNat n := rfl

theorem ofNat_ne_neg_one {n : Nat} (h : n < 2 ^ 31) : Int32.ofNat n ≠ -1 := by
  intro heq
  have hint := congrArg Int32.toInt heq
  rw [toInt_ofNat h] at hint
  have hneg : (-1 : Int32).toInt = -1 := rfl
  omega

theorem readAt_getElem? {d : List UInt8} {n : Nat} (h : n < 2 ^ 31) : readAt d (.ofNat n) = d[n]? := by
  rw [readAt, if_pos (nonneg_ofNat h), toNatClampNeg_ofNat h]

theorem u64OfInt_small {n : Nat} (h : n < 2 ^ 31) : (u64OfInt (.ofNat n)).toNat = n := by
  rw [u64OfInt_ofNat (by omega), if_pos h]

theorem toUInt32_sub {a b : Nat} (ha : a < 2 ^ 31) (hb : b ≤ a) :
    (UInt64.ofNat a - u64OfInt (.ofNat b)).toUInt32 = UInt32.ofNat (a - b) := by
  have hsub : (UInt64.ofNat a - u64OfInt (.ofNat b)).toNat = a - b := by
    rw [UInt64.toNat_sub, u64OfInt_small (by omega), UInt64.toNat_ofNat',
      Nat.mod_eq_of_lt (show a < 2 ^ 64 by omega)]
    omega
  rw [← UInt32.toNat_inj, UInt64.toNat_toUInt32, hsub, UInt32.toNat_ofNat']

theorem toNat_ofNat32 {n : Nat} (h : n < 2 ^ 32) : (UInt32.ofNat n).toNat = n := by
  rw [UInt32.toNat_ofNat', Nat.mod_eq_of_lt h]

theorem parseU32Loop_le (str : List UInt8) (out idx : Nat) (hout : out ≤ u32Max) :
    (parseU32Loop str out idx).1 ≤ u32Max ∧ (parseU32Loop str out idx).2 ≤ idx + str.length := by
  induction str generalizing out idx with
  | nil => exact ⟨hout, Nat.le_refl _⟩
  | cons c str ih =>
    rw [parseU32Loop]
    by_cases hc : strIsNumberChar c
    · rw [if_pos hc]
      dsimp only
      by_cases hmax : u32Max ≤ out * 10 + (c.toNat - 48)
      · rw [if_pos hmax]
        exact ⟨Nat.le_refl _, Nat.le_add_right _ _⟩
      · rw [if_neg hmax]
        have hrest := ih (out * 10 + (c.toNat - 48)) (idx + 1) (by omega)
        rw [List.length_cons]
        exact ⟨hrest.1, by omega⟩
    · rw [if_neg hc]
      exact ⟨hout, Nat.le_add_right _ _⟩

theorem strParseU32N_le (str : List UInt8) :
    (strParseU32N str).1 ≤ u32Max ∧ (strParseU32N str).2 ≤ str.length := by
  obtain ⟨hnumber, hoffset⟩ := parseU32Loop_le str 0 0 (Nat.zero_le _)
  rw [Nat.zero_add] at hoffset
  exact ⟨hnumber, hoffset⟩

section
variable {valueFormat : List UInt8} {k : Nat}

theorem insertIndex_lt (hk : k < 2 ^ 31) {index fmtIdx : Nat} (h : insertIndex k valueFormat = some (index, fmtIdx)) :
    index < 2 ^ 31 ∧ fmtIdx ≤ valueFormat.length := by
  have hcount : ∀ {p : Nat × Nat}, some (k, 0) = some p → p.1 < 2 ^ 31 ∧ p.2 ≤ valueFormat.length := by
    rintro p ⟨⟩
    exact ⟨hk, Nat.zero_le _⟩
  unfold insertIndex at h
  split at h
  · exact hcount h
  · split at h
    · exact hcount h
    · split at h
      · dsimp only at h
        split at h
        · obtain ⟨rfl, rfl⟩ := Prod.mk.inj (Option.some.inj h)
          obtain ⟨hnumber, hoffset⟩ := strParseU32N_le valueFormat
          exact ⟨Nat.lt_of_le_of_lt hnumber (by decide), hoffset⟩
        · cases h
      · cases h

variable (hlen : valueFormat.length < 2 ^ 31)

include hlen in
theorem insertIndexWords_eq :
    insertIndexWords (.ofNat k) valueFormat =
      (insertIndex k valueFormat).elim (-1, 0) fun p => (.ofNat p.1, .ofNat p.2) := by
  unfold insertIndexWords insertIndex
  cases valueFormat.head? with
  | none => rfl
  | some c =>
    dsimp only
    by_cases hcolon : c = chr ':'
    · rw [if_pos hcolon, if_pos hcolon]
      rfl
    · by_cases hnumber : strIsNumberChar c
      · rw [if_neg hcolon, if_neg hcolon, if_pos hnumber, if_pos hnumber]
        have hle := (strParseU32N_le valueFormat).2
        have hzero : UInt64.ofNat (strParseU32N valueFormat).2 ≠ 0 ↔ (strParseU32N valueFormat).2 ≠ 0 := by
          rw [ne_eq, ← UInt64.toNat_inj, UInt64.toNat_ofNat', Nat.mod_eq_of_lt (by omega)]
          rfl
        have hword : (UInt64.ofNat (strParseU32N valueFormat).2).toUInt32.toInt32 =
            Int32.ofNat (strParseU32N valueFormat).2 := by
          rw [UInt64.toUInt32_ofNat', toInt32_ofNat]
        by_cases h0 : (strParseU32N valueFormat).2 ≠ 0
        · rw [if_pos (hzero.mpr h0), if_pos h0, hword]
          rfl
        · rw [if_neg (fun h => h0 (hzero.mp h)), if_neg h0]
          rfl
      · rw [if_neg hcolon, if_neg hcolon, if_neg hnumber, if_neg hnumber]
        rfl

include hlen in
theorem insertFormatWords_eq {n : Nat} (hn : n ≤ valueFormat.length) :
    insertFormatWords valueFormat (.ofNat n) = insertFormat valueFormat n := by
  unfold insertFormatWords insertFormat
  rw [readAt_getElem? (by omega)]
  by_cases hcolon : valueFormat[n]? = some (chr ':')
  · have hlt : n < valueFormat.length := (List.getElem?_eq_some_iff.mp hcolon).1
    rw [if_pos hcolon, if_pos hcolon, ofNat_succ, toNatClampNeg_ofNat (by omega), toUInt32_sub hlen hlt]
    dsimp only
    rw [toNat_ofNat32 (by omega), ← List.length_drop, List.take_length]
  · rw [if_neg hcolon, if_neg hcolon]

include hlen in
theorem strInsertValueWords_eq {args : List StrKeyValue} (hk : k < 2 ^ 31) (hargs : args.length < 2 ^ 32) :
    strInsertValueWords (.ofNat k) valueFormat args = strInsertValue k valueFormat args := by
  unfold strInsertValueWords strInsertValue
  rw [insertIndexWords_eq hlen]
  cases hindex : insertIndex k valueFormat with
  | none =>
    have hkey : (insertKey valueFormat).length ≤ valueFormat.length := (List.takeWhile_sublist _).length_le
    have hcount : UInt32.ofNat (insertKey valueFormat).length > 1 ↔ 1 < (insertKey valueFormat).length := by
      rw [gt_iff_lt, UInt32.lt_iff_toNat_lt, toNat_ofNat32 (by omega)]
      rfl
    simp only [Option.elim_none, ne_eq, not_true_eq_false, if_false, hcount, toInt32_ofNat,
      insertFormatWords_eq hlen hkey]
  | some p =>
    obtain ⟨index, fmtIdx⟩ := p
    obtain ⟨hlt, hle⟩ := insertIndex_lt hk hindex
    have hbound : UInt32.ofNat index ≥ UInt32.ofNat args.length ↔ args.length ≤ index := by
      rw [ge_iff_le, UInt32.le_iff_toNat_le, toNat_ofNat32 hargs,
        toNat_ofNat32 (show index < 2 ^ 32 by omega)]
    simp only [Option.elim_some, ofNat_ne_neg_one hlt, ne_eq, not_false_eq_true, if_true, toUInt32_ofNat, hbound,
      toNat_ofNat32 (show index < 2 ^ 32 by omega), insertFormatWords_eq hlen hle]
    split
    · rename_i hout
      rw [List.getElem?_eq_none hout]
      rfl
    · rfl

end

/-! ## The scan in words -/

def FmtScan.words (s : FmtScan) : FmtScanWords :=
  ⟨s.lastChar, .ofNat s.insertCount, s.insertStartIdx.elim (-1) Int32.ofNat, .ofNat s.textStartIdx⟩

def FmtTurn.words (idx : Nat) : FmtTurn → FmtTurnWords
  | .error => .error
  | .next writes skip s => .next writes (.ofNat (idx + skip)) s.words

/-- What a scan counts and remembers lies before the byte that is next. -/
structure FmtScan.Before (s : FmtScan) (idx : Nat) : Prop where
  count : s.insertCount ≤ idx
  start : ∀ start ∈ s.insertStartIdx, start < idx
  text : s.textStartIdx ≤ idx

namespace FmtInput
variable {i : FmtInput} {idx : Nat} {s : FmtScan} {c : UInt8}

theorem byteAtWords_ofNat (h : idx < 2 ^ 31) : i.byteAtWords (.ofNat idx) = i.byteAt idx := by
  rw [byteAtWords, if_pos (nonneg_ofNat h), toNatClampNeg_ofNat h]

theorem copyWords_ofNat {start : Nat} (h : start < 2 ^ 31) (size : Nat) :
    i.copyWords (.ofNat start) size = (i.readBytes start size).map fun bytes => [.text bytes] := by
  rw [copyWords, if_pos (nonneg_ofNat h), toNatClampNeg_ofNat h]

theorem copyTextWords_ofNat {start size : Nat} (hstart : start < 2 ^ 31) (hsize : size < 2 ^ 31) :
    i.copyTextWords (.ofNat start) (.ofNat size) = i.copyText start size := by
  have hpos : Int32.ofNat size > 0 ↔ 0 < size := by
    rw [gt_iff_lt, Int32.lt_iff_toInt_lt, toInt_ofNat hsize]
    exact Int.natCast_pos
  unfold copyTextWords copyText
  simp only [hpos, copyWords_ofNat hstart, toNatClampNeg_ofNat hsize]

/-- The bytes that a turn goes on by, and what it leaves behind. -/
theorem turn_before (hs : s.Before idx) {writes : List FmtWrite} {skip : Nat} {s' : FmtScan}
    (h : i.turn idx s c = some (.next writes skip s')) : skip ≤ 1 ∧ s'.Before (idx + skip + 1) := by
  obtain ⟨hcount, hstart, htext⟩ := hs
  have hsame : s.Before (idx + 0 + 1) := ⟨by omega, fun k hk => Nat.lt_succ_of_lt (hstart k hk), by omega⟩
  unfold turn at h
  cases hin : s.insertStartIdx with
  | some start =>
    have hlt := hstart start hin
    simp only [hin] at h
    split at h
    · split at h
      · cases h
        exact ⟨Nat.zero_le _, by dsimp only; omega, fun k hk => (by cases hk), by dsimp only; omega⟩
      · split at h
        · cases h
          exact ⟨Nat.zero_le _, by dsimp only; omega, fun k hk => (by cases hk), by dsimp only; omega⟩
        · cases h
    · cases h
      exact ⟨Nat.zero_le _, hsame⟩
  | none =>
    simp only [hin] at h
    split at h
    · obtain ⟨nextChar, -, h⟩ := Option.bind_eq_some_iff.mp h
      obtain ⟨copied, -, h⟩ := Option.bind_eq_some_iff.mp h
      cases h
      split
      · exact ⟨Nat.le_refl _, by dsimp only; omega, fun k hk => (by simp_all), by dsimp only; omega⟩
      · refine ⟨Nat.zero_le _, by dsimp only; omega, fun k hk => ?_, by dsimp only; omega⟩
        cases hk
        omega
    · split at h
      · obtain ⟨nextChar, -, h⟩ := Option.bind_eq_some_iff.mp h
        split at h
        · obtain ⟨copied, -, h⟩ := Option.bind_eq_some_iff.mp h
          cases h
          exact ⟨Nat.le_refl _, by dsimp only; omega, fun k hk => (by simp_all), by dsimp only; omega⟩
        · split at h <;> cases h
      · cases h
        exact ⟨Nat.zero_le _, hsame⟩

section
variable (hfmt : i.fmt.length + 1 < 2 ^ 31) (hargs : i.args.length < 2 ^ 32)

include hfmt in
/-- The turn of a brace outside of a placeholder: what is pending is copied, up to the second of two braces. -/
theorem copyPending (hidx : idx < i.fmt.length) {start skip : Nat} (hstart : start ≤ idx) (hskip : skip ≤ 1) :
    i.copyTextWords (.ofNat start) (.ofNat (idx + skip) - .ofNat start) = i.copyText start (idx + skip - start) := by
  rw [ofNat_sub (by omega), copyTextWords_ofNat (by omega) (by omega)]

include hfmt hargs in
theorem turnWords_eq (hidx : idx < i.fmt.length) (hs : s.Before idx) :
    i.turnWords (.ofNat idx) s.words c = (i.turn idx s c).map (FmtTurn.words idx) := by
  obtain ⟨hcount, hstart, htext⟩ := hs
  obtain ⟨lastChar, insertCount, insertStartIdx, textStartIdx⟩ := s
  have hnext : i.byteAtWords (.ofNat idx + 1) = i.byteAt (idx + 1) := by
    rw [ofNat_succ, byteAtWords_ofNat (by omega)]
  cases insertStartIdx with
  | some start =>
    have hlt : start < idx := hstart start rfl
    have hne : Int32.ofNat start ≠ -1 := ofNat_ne_neg_one (by omega)
    have hsize : (u64OfInt (.ofNat idx - (.ofNat start + 1))).toNat = idx - (start + 1) := by
      rw [ofNat_succ, ofNat_sub hlt, u64OfInt_small (by omega)]
    have hfrom : (Int32.ofNat start + 1).toNatClampNeg = start + 1 := by
      rw [ofNat_succ, toNatClampNeg_ofNat (by omega)]
    have hvalue : ((i.fmt.drop (start + 1)).take (idx - (start + 1))).length < 2 ^ 31 := by
      rw [List.length_take]
      omega
    unfold turnWords turn
    simp only [FmtScan.words, Option.elim_some, hne, ne_eq, not_false_eq_true, if_true, hsize, hfrom]
    split
    · rw [toUInt32_ofNat, strInsertValueWords_eq hvalue (by dsimp only at hcount; omega) hargs]
      cases strInsertValue insertCount ((i.fmt.drop (start + 1)).take (idx - (start + 1))) i.args with
      | some write =>
        simp only [Option.map_some, FmtTurn.words, FmtScan.words, Option.elim_none, ofNat_succ, Nat.add_zero]
      | none =>
        cases i.ndebug with
        | true =>
          simp only [if_true, Option.map_some, FmtTurn.words, FmtScan.words, Option.elim_none, ofNat_succ, Nat.add_zero]
        | false => rfl
    · rfl
  | none =>
    unfold turnWords turn
    simp only [FmtScan.words, Option.elim_none, ne_eq, not_true_eq_false, if_false, hnext]
    split
    · cases hbyte : i.byteAt (idx + 1) with
      | none => rfl
      | some nextChar =>
        simp only [Option.bind_eq_bind, Option.bind_some, ofNat_succ]
        by_cases hdouble : nextChar = chr '\x7b'
        · simp only [hdouble, if_true, copyPending hfmt hidx htext (Nat.le_refl 1), not_true_eq_false, if_false]
          cases i.copyText textStartIdx (idx + 1 - textStartIdx) with
          | none => rfl
          | some copied =>
            simp only [Option.bind_some, Option.map_some, FmtTurn.words, FmtScan.words, Option.elim_none, ofNat_succ]
        · have hcopy := copyPending hfmt hidx htext (Nat.zero_le 1)
          rw [Nat.add_zero] at hcopy
          simp only [hdouble, if_false, Nat.add_zero, hcopy, not_false_eq_true, if_true]
          cases i.copyText textStartIdx (idx - textStartIdx) with
          | none => rfl
          | some copied =>
            simp only [Option.bind_some, Option.map_some, FmtTurn.words, FmtScan.words, Option.elim_some, ofNat_succ,
              Nat.add_zero]
    · split
      · cases hbyte : i.byteAt (idx + 1) with
        | none => rfl
        | some nextChar =>
          simp only [Option.bind_eq_bind, Option.bind_some, ofNat_succ]
          split
          · rw [copyPending hfmt hidx htext (Nat.le_refl 1)]
            cases i.copyText textStartIdx (idx + 1 - textStartIdx) with
            | none => rfl
            | some copied =>
              simp only [Option.bind_some, Option.map_some, FmtTurn.words, FmtScan.words, Option.elim_none]
          · split <;> rfl
      · rfl

include hfmt in
theorem copyRestWords_eq {start : Nat} (hstart : start ≤ i.fmt.length + 1) :
    i.copyRestWords (.ofNat start) (UInt64.ofNat i.fmt.length - u64OfInt (.ofNat start)).toUInt32 =
      i.copyText start (i.textLeft start) := by
  have hleft : (UInt64.ofNat i.fmt.length - u64OfInt (.ofNat start)).toUInt32.toNat = i.textLeft start := by
    rw [UInt64.toNat_toUInt32, UInt64.toNat_sub, u64OfInt_small (by omega), UInt64.toNat_ofNat',
      Nat.mod_eq_of_lt (show i.fmt.length < 2 ^ 64 by omega), textLeft]
    split <;> omega
  have hpos : (UInt64.ofNat i.fmt.length - u64OfInt (.ofNat start)).toUInt32 > 0 ↔ 0 < i.textLeft start := by
    rw [gt_iff_lt, UInt32.lt_iff_toNat_lt, hleft]
    rfl
  unfold copyRestWords copyText
  simp only [hpos, hleft, copyWords_ofNat (show start < 2 ^ 31 by omega)]

include hfmt hargs in
theorem loopWords_eq : ∀ (turns idx : Nat) (s : FmtScan), s.Before idx → idx ≤ i.fmt.length + 1 →
    i.fmt.length + 1 - idx < turns → i.loopWords turns (.ofNat idx) s.words = i.loop idx s
  | 0, _, _, _, _, ht => absurd ht (Nat.not_lt_zero _)
  | turns + 1, idx, s, hs, hidx, ht => by
    unfold loopWords
    rw [belowSize_ofNat (by omega) hidx]
    by_cases hlt : idx < i.fmt.length
    · have hbyte : i.byteAt idx = some i.fmt[idx] := by rw [byteAt, dif_pos hlt]
      rw [decide_eq_true hlt, if_pos rfl, byteAtWords_ofNat (by omega), hbyte, Option.bind_eq_bind, Option.bind_some,
        turnWords_eq hfmt hargs hlt hs, loop_turn hlt]
      cases hturn : i.turn idx s i.fmt[idx] with
      | none => rfl
      | some turn =>
        cases turn with
        | error => rfl
        | next writes skip s' =>
          obtain ⟨hskip, hs'⟩ := turn_before hs hturn
          have hlast : ∀ lastChar, ({ s' with lastChar } : FmtScan).Before (idx + skip + 1) := fun _ =>
            ⟨hs'.count, hs'.start, hs'.text⟩
          have hbyte' := @byteAtWords_ofNat i (idx + skip) (by omega)
          simp only [Option.map_some, Option.bind_some, FmtTurn.words, hbyte', ofNat_succ, Option.bind_eq_bind]
          cases i.byteAt (idx + skip) with
          | none => rfl
          | some lastChar =>
            have hrest :=
              loopWords_eq turns (idx + skip + 1) { s' with lastChar } (hlast lastChar) (by omega) (by omega)
            simp only [Option.bind_some, ← hrest, Option.map_eq_bind]
            rfl
    · rw [decide_eq_false hlt, if_neg Bool.false_ne_true, loop_end (by omega), Option.map_eq_bind]
      exact congrArg (Option.bind · _) (copyRestWords_eq hfmt (Nat.le_trans hs.text hidx))

end

end FmtInput

/-- Of a template below `2 ^ 31 - 1` bytes the format in words is the one over `Nat`. -/
theorem strFmtVargsWords_eq (arena : Arena) {i : FmtInput} (hfmt : i.fmt.length + 1 < 2 ^ 31)
    (hargs : i.args.length < 2 ^ 32) : strFmtVargsWords arena i = strFmtVargs arena i := by
  have hstart : FmtScan.Before {} 0 := ⟨Nat.le_refl _, fun _ h => (by cases h), Nat.le_refl _⟩
  have hloop : i.loopWords (i.fmt.length + 2) 0 {} = i.loop 0 {} :=
    FmtInput.loopWords_eq hfmt hargs _ 0 {} hstart (Nat.zero_le _) (by omega)
  rw [strFmtVargsWords, hloop, strFmtVargs]

/-! ## Formats in words -/

theorem fmtWords_of_scan {i : FmtInput} {t : List UInt8} {peak : Nat} (hscan : ScansTo i i.fmt 0 t peak) {arena : Arena}
    (h : HasRoom arena peak) (hfmt : i.fmt.length + 1 < 2 ^ 31) (hargs : i.args.length < 2 ^ 32) :
    ∃ str arena', strFmtVargsWords arena i = some (.str str arena') ∧ Returns arena' str t := by
  rw [strFmtVargsWords_eq arena hfmt hargs]
  exact fmt_of_scan hscan h

theorem fmt_roundtrip {arena : Arena} {text : List UInt8} {texts : List (List UInt8)} {args : List FmtArg}
    (hn : texts.length ≤ args.length) (h : HasRoom arena (fmtPeak text texts args))
    (hfmt : (fmtTemplate text texts).length + 1 < 2 ^ 31) (hargs : args.length < 2 ^ 32) (behind : Nat → Option UInt8)
    (ndebug : Bool) :
    ∃ str arena', strFmtVargsWords arena ⟨fmtTemplate text texts, behind, args.map FmtArg.toStrKeyValue, ndebug⟩ =
        some (.str str arena') ∧
      Returns arena' str (fmtText text texts args) := by
  have hscan : Scans ⟨fmtTemplate text texts, behind, args.map FmtArg.toStrKeyValue, ndebug⟩ text texts 0 args :=
    scans_template texts text 0 args rfl hn
  refine fmtWords_of_scan hscan h hfmt ?_
  rw [List.length_map]
  exact hargs

theorem fmt_roundtrip_braces :
    ∃ str arena', strFmtVargsWords (memMakeArenaPreAllocated (fun _ => 0) 1024)
        ⟨s8 "\x7b\x7b\x7b\x7d\x7d\x7d", fun _ => none, [⟨s8 "n", .i64 (-3)⟩].map FmtArg.toStrKeyValue, false⟩ =
        some (.str str arena') ∧
      Returns arena' str (s8 "\x7b-3\x7d") :=
  @fmt_roundtrip _ (s8 "\x7b") [s8 "\x7d"] [⟨s8 "n", .i64 (-3)⟩] (Nat.le_refl _)
    ⟨Int.le_refl _, Nat.le_refl _, by decide, by decide⟩ (by decide) (by decide) (fun _ => none) false

end CWebServer
