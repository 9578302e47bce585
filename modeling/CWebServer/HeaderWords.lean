import CWebServer.HttpSound
import CWebServer.Lib.Traces

/-!
# The request head parser in words

The parser with the `i32` indices and the 64-bit comparisons of the source, and
with reads that fault (`none`) outside of the data. On data of less than
`2 ^ 31` bytes it never faults and does what the parser over `Nat` does.
Arithmetic on `i32` wraps; only the last `idx++` of `http_headerInit` can need
that, on `2 ^ 31 - 1` bytes.
-/

namespace CWebServer

structure HttpHeaderWords where
  headerData : List UInt8
  headerStart : Int32
  needle : Int32
  method : HttpMethodType
  methodText : S8
  path : S8
  protocol : S8
  currentHeaderKey : S8
  currentHeaderValue : S8
  deriving DecidableEq, Repr

structure RequestScanWords where
  headerTextLastEnd : Int32
  headerText : List S8
  deriving DecidableEq, Repr

/-- An `i32` in a comparison with a `u64`. -/
def u64OfInt (n : Int32) : UInt64 := n.toInt64.toUInt64

/-- `idx < headerData.size` -/
def belowSize (d : List UInt8) (idx : Int32) : Bool := u64OfInt idx < UInt64.ofNat d.length

/-- `headerData.content[idx]` -/
def readAt (d : List UInt8) (idx : Int32) : Option UInt8 := if 0 ≤ idx then d[idx.toNatClampNeg]? else none

def maxVal (a b : Int32) : Int32 := if a > b then a else b

/-- `&headerData.content[start]` with a size. -/
def sliceAt (start : Int32) (size : Nat) : Option S8 :=
  if 0 ≤ start then some (.slice start.toNatClampNeg size) else none

/-- The two loops of `http_headerInit`, the outer one where `inText` is false, for at most as many turns. -/
def scanWords (d : List UInt8) : Nat → Bool → Int32 → RequestScanWords → Option (Int32 × RequestScanWords)
  | 0, _, _, _ => none
  | turns + 1, false, idx, s =>
    if belowSize d idx then do
      let c ← readAt d idx
      if strIsSpacingChar c then scanWords d turns false (idx + 1) { s with headerTextLastEnd := idx + 1 }
      else if strIsEndOfLineChar c then some (idx + 1, s)
      else scanWords d turns true idx s
    else some (idx, s)
  | turns + 1, true, idx, s =>
    if belowSize d idx then
      if s.headerText.length < 3 then do
        let c ← readAt d idx
        let eol := strIsEndOfLineChar c
        if eol || strIsSpacingChar c then
          let text ← sliceAt s.headerTextLastEnd (u64OfInt (idx - s.headerTextLastEnd)).toNat
          let s := { headerTextLastEnd := idx + 1, headerText := s.headerText ++ [text] }
          if eol then some (idx + 1, s) else scanWords d turns false (idx + 1) s
        else scanWords d turns true (idx + 1) s
      else scanWords d turns true (idx + 1) s
    else scanWords d turns false (idx + 1) s

/-- The bytes of a string that is read. -/
def readText (d : List UInt8) : S8 → Option (List UInt8)
  | .slice start size => if start + size ≤ d.length then some ((S8.slice start size).bytes d) else none
  | text => some (text.bytes d)

def methodWords (d : List UInt8) (methodText : S8) : Option HttpMethodType := do
  let text ← readText d methodText
  some (if strIsEqual text (s8 "GET") then .get else if strIsEqual text (s8 "POST") then .post else .unknown)

def httpHeaderInitWords (headerData : List UInt8) : Option HttpHeaderWords := do
  let (idx, s) ← scanWords headerData (2 * headerData.length + 3) false 0 { headerTextLastEnd := 0, headerText := [] }
  let headerStart := idx + 1
  let last := UInt64.ofNat headerData.length - 1
  let headerStart := if u64OfInt headerStart < last then headerStart else last.toUInt32.toInt32
  let method ← match s.headerText[0]? with
    | some methodText => methodWords headerData methodText
    | none => some .unknown
  some {
    headerData
    headerStart
    needle := headerStart
    method
    methodText := s.headerText[0]?.getD (.lit (s8 ""))
    path := s.headerText[1]?.getD (.lit (s8 ""))
    protocol := s.headerText[2]?.getD (.lit (s8 ""))
    currentHeaderKey := .lit (s8 "")
    currentHeaderValue := .lit (s8 "") }

/-- A loop that advances `_needle` to a byte, for at most as many turns. -/
def scanWordsTo (p : UInt8 → Bool) (d : List UInt8) : Nat → Int32 → Option Int32
  | 0, _ => none
  | turns + 1, needle =>
    if belowSize d needle then do
      let c ← readAt d needle
      if p c then some needle else scanWordsTo p d turns (needle + 1)
    else some needle

def skipWords (d : List UInt8) : Nat → Nat → Option S8
  | start, 0 => some (.slice start 0)
  | start, size + 1 => do
    let c ← d[start]?
    if strIsSpacingChar c || strIsEndOfLineChar c then skipWords d (start + 1) size else some (.slice start (size + 1))

def strSkipWhiteSpaceWords (d : List UInt8) : S8 → Option S8
  | .slice start size => skipWords d start size
  | .lit text => some (.lit (text.dropWhile fun c => strIsSpacingChar c || strIsEndOfLineChar c))
  | .null => some .null

def httpHeaderNextWords (header : HttpHeaderWords) : Option (Bool × HttpHeaderWords) := do
  let d := header.headerData
  let turns := d.length + 1
  let keyStart := header.needle
  let needle ← scanWordsTo isColon d turns keyStart
  let header := { header with needle }
  if belowSize d needle then
    let key ← sliceAt keyStart (maxVal 0 (needle - keyStart)).toNatClampNeg
    let valueStart := needle + 1
    let needle ← scanWordsTo strIsEndOfLineChar d turns needle
    let header := { header with needle }
    if belowSize d needle then
      let value ← sliceAt valueStart (maxVal 0 (needle - valueStart)).toNatClampNeg
      let currentHeaderKey ← strSkipWhiteSpaceWords d key
      let currentHeaderValue ← strSkipWhiteSpaceWords d value
      let needle ← scanWordsTo (! strIsEndOfLineChar ·) d turns needle
      some (true, { header with needle, currentHeaderKey, currentHeaderValue })
    else some (false, header)
  else some (false, header)

def httpHeaderResetWords (header : HttpHeaderWords) : HttpHeaderWords := { header with needle := header.headerStart }

inductive HeaderCall
  | next | reset
  deriving DecidableEq, Repr

/-- A call and what it returns; a reset returns nothing. -/
def headerCall (header : HttpHeaderWords) : HeaderCall → Option (Option Bool × HttpHeaderWords)
  | .next => (httpHeaderNextWords header).map fun r => (some r.1, r.2)
  | .reset => some (none, httpHeaderResetWords header)

/-- `while (http_headerNext(&header))` for at most `fuel` calls. -/
def headerLoopWords : Nat → HttpHeaderWords → Option (List (S8 × S8) × HttpHeaderWords)
  | 0, _ => none
  | fuel + 1, header => do
    let (found, h) ← httpHeaderNextWords header
    if found then
      let r ← headerLoopWords fuel h
      some ((h.currentHeaderKey, h.currentHeaderValue) :: r.1, r.2)
    else some ([], h)

/-! ## Words of numbers -/

theorem toInt_ofNat {n : Nat} (h : n < 2 ^ 31) : (Int32.ofNat n).toInt = n := Int32.toInt_ofNat_of_lt h

theorem toNatClampNeg_ofNat {n : Nat} (h : n < 2 ^ 31) : (Int32.ofNat n).toNatClampNeg = n := by
  rw [Int32.toNatClampNeg, toInt_ofNat h]
  rfl

theorem u64OfInt_ofNat {n : Nat} (h : n < 2 ^ 32) :
    (u64OfInt (Int32.ofNat n)).toNat = if n < 2 ^ 31 then n else n + (2 ^ 64 - 2 ^ 32) := by
  have hval : (u64OfInt (Int32.ofNat n)).toNat = ((BitVec.ofNat 32 n).signExtend 64).toNat := rfl
  rw [hval, BitVec.toNat_signExtend, BitVec.toNat_setWidth, BitVec.toNat_ofNat, BitVec.msb_eq_decide,
    BitVec.toNat_ofNat, Nat.mod_eq_of_lt h, Nat.mod_eq_of_lt (Nat.lt_trans h (by decide))]
  simp only [decide_eq_true_eq]
  split <;> split <;> omega

theorem lt_size_iff {n m : Nat} (hn : n < 2 ^ 32) (hm : m < 2 ^ 31) :
    u64OfInt (Int32.ofNat n) < UInt64.ofNat m ↔ n < m := by
  rw [UInt64.lt_iff_toNat_lt, u64OfInt_ofNat hn, UInt64.toNat_ofNat', Nat.mod_eq_of_lt (Nat.lt_trans hm (by decide))]
  split <;> omega

theorem ofNat_succ (n : Nat) : Int32.ofNat n + 1 = Int32.ofNat (n + 1) :=
  (Int32.ofNat_add n 1).symm

theorem ofNat_sub {n m : Nat} (h : m ≤ n) : Int32.ofNat n - Int32.ofNat m = Int32.ofNat (n - m) :=
  (Int32.ofNat_sub n m h).symm
theorem nonneg_ofNat {n : Nat} (h : n < 2 ^ 31) : 0 ≤ Int32.ofNat n := by
  rw [Int32.le_iff_toInt_le, toInt_ofNat h]
  simp
section
variable {d : List UInt8} (hd : d.length < 2 ^ 31)

include hd in
theorem belowSize_ofNat {i : Nat} (hi : i ≤ d.length + 1) : belowSize d (.ofNat i) = decide (i < d.length) := by
  unfold belowSize
  rw [decide_eq_decide]
  exact lt_size_iff (by omega) hd

include hd in
theorem readAt_ofNat {i : Nat} (hi : i < d.length) : readAt d (.ofNat i) = some d[i] := by
  unfold readAt
  rw [if_pos (nonneg_ofNat (by omega)), toNatClampNeg_ofNat (by omega), List.getElem?_eq_getElem hi]

include hd in
theorem sliceAt_ofNat {i : Nat} (hi : i ≤ d.length) (n : Nat) : sliceAt (.ofNat i) n = some (.slice i n) := by
  unfold sliceAt
  rw [if_pos (nonneg_ofNat (by omega)), toNatClampNeg_ofNat (by omega)]

include hd in
theorem scanWordsTo_eq (p : UInt8 → Bool) : ∀ (turns i : Nat), i ≤ d.length → d.length - i < turns →
    scanWordsTo p d turns (.ofNat i) = some (.ofNat (Scan.scanTo p d i))
  | 0, _, _, ht => absurd ht (Nat.not_lt_zero _)
  | turns + 1, i, hi, ht => by
    unfold scanWordsTo
    rw [belowSize_ofNat hd (by omega)]
    by_cases hlt : i < d.length
    · simp only [hlt, decide_true, if_true]
      rw [readAt_ofNat hd hlt, Option.bind_eq_bind, Option.bind_some]
      cases hp : p d[i] with
      | true => rw [if_pos rfl, Scan.scanTo_self p hlt hp]
      | false =>
        rw [if_neg (by simp), ofNat_succ, Scan.scanTo_succ p hlt hp]
        exact scanWordsTo_eq p turns (i + 1) hlt (by omega)
    · have hle := Scan.scanTo_le p hi
      have hge := Scan.le_scanTo p d i
      simp only [hlt, decide_false, Bool.false_eq_true, if_false]
      rw [show Scan.scanTo p d i = i by omega]

end

/-! ## The request line -/

def RequestScan.words (s : RequestScan) : RequestScanWords := ⟨.ofNat s.headerTextLastEnd, s.headerText⟩

theorem scanText_skip {c : UInt8} (hc : isWhite c = false) (rest : List UInt8) (idx : Nat) (s : RequestScan) :
    scanText (c :: rest) idx s = scanText rest (idx + 1) s := by
  unfold isWhite at hc
  rw [scanText, Bool.or_comm, hc]
  simp

section
variable {d : List UInt8} (hd : d.length < 2 ^ 31)

include hd in
theorem scanWords_outer {idx : Nat} (hidx : idx < d.length) (turns : Nat) (s : RequestScan) :
    scanWords d (turns + 1) false (.ofNat idx) s.words =
      if strIsSpacingChar d[idx] then
        scanWords d turns false (.ofNat (idx + 1)) (RequestScan.words { s with headerTextLastEnd := idx + 1 })
      else if strIsEndOfLineChar d[idx] then some (.ofNat (idx + 1), s.words)
      else scanWords d turns true (.ofNat idx) s.words := by
  rw [scanWords, belowSize_ofNat hd (by omega), readAt_ofNat hd hidx]
  simp only [hidx, decide_true, if_true, Option.bind_eq_bind, Option.bind_some, ofNat_succ, RequestScan.words]

include hd in
theorem scanWords_inner {idx : Nat} (hidx : idx < d.length) (turns : Nat) {s : RequestScan}
    (hlast : s.headerTextLastEnd ≤ idx) :
    scanWords d (turns + 1) true (.ofNat idx) s.words =
      if s.headerText.length < 3 then
        if strIsEndOfLineChar d[idx] || strIsSpacingChar d[idx] then
          let s' : RequestScan :=
            ⟨idx + 1, s.headerText ++ [.slice s.headerTextLastEnd (idx - s.headerTextLastEnd)]⟩
          if strIsEndOfLineChar d[idx] then some (.ofNat (idx + 1), s'.words)
          else scanWords d turns false (.ofNat (idx + 1)) s'.words
        else scanWords d turns true (.ofNat (idx + 1)) s.words
      else scanWords d turns true (.ofNat (idx + 1)) s.words := by
  have hsize : (u64OfInt (.ofNat (idx - s.headerTextLastEnd))).toNat = idx - s.headerTextLastEnd := by
    rw [u64OfInt_ofNat (by omega), if_pos (by omega)]
  rw [scanWords, belowSize_ofNat hd (by omega), readAt_ofNat hd hidx]
  simp only [hidx, decide_true, if_true, Option.bind_eq_bind, Option.bind_some, ofNat_succ, RequestScan.words]
  rw [ofNat_sub hlast, hsize, sliceAt_ofNat hd (by omega)]
  rfl

include hd in
theorem scanWords_end {idx : Nat} (hge : d.length ≤ idx) (hle : idx ≤ d.length + 1) (turns : Nat)
    (s : RequestScanWords) : scanWords d (turns + 1) false (.ofNat idx) s = some (.ofNat idx, s) := by
  rw [scanWords, belowSize_ofNat hd hle]
  simp only [Nat.not_lt.mpr hge, decide_false, Bool.false_eq_true, if_false]

include hd in
theorem scanWords_innerEnd (turns : Nat) (s : RequestScanWords) :
    scanWords d (turns + 2) true (.ofNat d.length) s = some (.ofNat (d.length + 1), s) := by
  rw [scanWords, belowSize_ofNat hd (by omega), ofNat_succ]
  simp only [Nat.lt_irrefl, decide_false, Bool.false_eq_true, if_false]
  exact scanWords_end hd (Nat.le_succ _) (Nat.le_refl _) turns s

include hd in
/-- The outer loop at `idx` takes at most `2 * (size - idx) + 3` turns, the inner one a turn less. -/
theorem scanWords_eq : ∀ (turns idx : Nat) (s : RequestScan), idx ≤ d.length → s.headerTextLastEnd ≤ idx →
    (2 * (d.length - idx) + 3 ≤ turns → scanWords d turns false (.ofNat idx) s.words =
      some (.ofNat (scanSpacing (d.drop idx) idx s).1, (scanSpacing (d.drop idx) idx s).2.words)) ∧
    (2 * (d.length - idx) + 2 ≤ turns → scanWords d turns true (.ofNat idx) s.words =
      some (.ofNat (scanText (d.drop idx) idx s).1, (scanText (d.drop idx) idx s).2.words))
  | 0, _, _, _, _ => ⟨fun h => by omega, fun h => by omega⟩
  | turns + 1, idx, s, hidx, hlast => by
    rcases Nat.lt_or_ge idx d.length with hlt | hge
    · have ih := scanWords_eq turns (idx + 1)
      have hat := scanWords_eq turns idx s hidx hlast
      have hdrop := List.drop_eq_getElem_cons hlt
      refine ⟨fun hturns => ?_, fun hturns => ?_⟩
      · rw [scanWords_outer hd hlt]
        by_cases hspace : strIsSpacingChar d[idx]
        · rw [if_pos hspace, hdrop, scanSpacing, if_pos hspace]
          exact (ih _ hlt (Nat.le_refl _)).1 (by omega)
        · by_cases heol : strIsEndOfLineChar d[idx]
          · rw [if_neg hspace, if_pos heol, hdrop, scanSpacing, if_neg hspace, if_pos heol]
          · have hwhite : isWhite d[idx] = false := by simp [isWhite, hspace, heol]
            rw [if_neg hspace, if_neg heol, hat.2 (by omega), hdrop, scanSpacing, if_neg hspace, if_neg heol,
              scanText_skip hwhite]
      · rw [scanWords_inner hd hlt turns hlast, hdrop, scanText]
        by_cases htexts : s.headerText.length < 3
        · rw [if_pos htexts, if_pos htexts]
          by_cases hwhite : strIsEndOfLineChar d[idx] || strIsSpacingChar d[idx]
          · rw [if_pos hwhite, if_pos hwhite]
            by_cases heol : strIsEndOfLineChar d[idx]
            · simp only [heol, if_true]
            · simp only [heol, Bool.false_eq_true, if_false]
              exact (ih _ hlt (Nat.le_refl _)).1 (by omega)
          · rw [if_neg hwhite, if_neg hwhite]
            exact (ih s hlt (Nat.le_succ_of_le hlast)).2 (by omega)
        · rw [if_neg htexts, if_neg htexts]
          exact (ih s hlt (Nat.le_succ_of_le hlast)).2 (by omega)
    · obtain rfl : idx = d.length := Nat.le_antisymm hidx hge
      rw [List.drop_length]
      refine ⟨fun hturns => scanWords_end hd (Nat.le_refl _) (Nat.le_succ _) turns s.words, fun hturns => ?_⟩
      obtain ⟨turns, rfl⟩ : ∃ n, turns = n + 1 := ⟨turns - 1, by omega⟩
      exact scanWords_innerEnd hd turns s.words

end

/-- Where a scan of data that ends at `n` may leave. -/
def ScanEnds (n : Nat) (r : Nat × RequestScan) : Prop := r.1 ≤ n + 1 ∧ ∀ text ∈ r.2.headerText, text.EndsBy n

theorem scan_ends : ∀ (t : List UInt8) (idx : Nat) (s : RequestScan), s.headerTextLastEnd ≤ idx →
    (∀ text ∈ s.headerText, text.EndsBy idx) →
    ScanEnds (idx + t.length) (scanSpacing t idx s) ∧ ScanEnds (idx + t.length) (scanText t idx s)
  | [], idx, s, _, htexts => by
    rw [scanSpacing, scanText]
    exact ⟨⟨Nat.le_succ _, htexts⟩, Nat.le_refl _, htexts⟩
  | c :: t, idx, s, hlast, htexts => by
    have hmono : ∀ text ∈ s.headerText, text.EndsBy (idx + 1) := fun text h => (htexts text h).mono (Nat.le_succ _)
    have ih := scan_ends t (idx + 1)
    have hlen : idx + 1 + t.length = idx + (c :: t).length := by rw [List.length_cons]; omega
    have hend : ∀ text ∈ s.headerText, text.EndsBy (idx + (c :: t).length) :=
      fun text h => (htexts text h).mono (Nat.le_add_right _ _)
    have hidx : idx + 1 ≤ idx + (c :: t).length + 1 := by omega
    rw [hlen] at ih
    rw [scanSpacing, scanText]
    refine ⟨?_, ?_⟩
    · split
      · exact (ih { s with headerTextLastEnd := idx + 1 } (Nat.le_refl _) hmono).1
      · split
        · exact ⟨hidx, hend⟩
        · exact (ih s (Nat.le_succ_of_le hlast) hmono).2
    · have hmore : ∀ n, idx ≤ n → (∀ text ∈ s.headerText, text.EndsBy n) →
          ∀ text ∈ s.headerText ++ [S8.slice s.headerTextLastEnd (idx - s.headerTextLastEnd)], text.EndsBy n := by
        intro n hn h text htext
        rcases List.mem_append.mp htext with hold | hnew
        · exact h text hold
        · rw [List.mem_singleton.mp hnew]
          unfold S8.EndsBy; omega
      split
      · split
        · split
          · exact ⟨hidx, hmore _ (Nat.le_add_right _ _) hend⟩
          · exact (ih _ (Nat.le_refl _) (hmore _ (Nat.le_succ _) hmono)).1
        · exact (ih s (Nat.le_succ_of_le hlast) hmono).2
      · exact (ih s (Nat.le_succ_of_le hlast) hmono).2

theorem readText_eq {d : List UInt8} {text : S8} (h : text.EndsBy d.length) :
    readText d text = some (text.bytes d) := by
  cases text with
  | slice start size => exact if_pos h
  | lit text => rfl
  | null => rfl

/-! ## The header -/

def HttpHeader.words (header : HttpHeader) : HttpHeaderWords where
  headerData := header.headerData
  headerStart := .ofNat header.headerStart
  needle := .ofNat header.needle
  method := header.method
  methodText := header.methodText
  path := header.path
  protocol := header.protocol
  currentHeaderKey := header.currentHeaderKey
  currentHeaderValue := header.currentHeaderValue

theorem httpHeaderInitWords_eq {d : List UInt8} (hpos : 0 < d.length) (hd : d.length < 2 ^ 31) :
    httpHeaderInitWords d = some (httpHeaderInit d).words := by
  have hscan := (scanWords_eq hd (2 * d.length + 3) 0 ⟨0, []⟩ (Nat.zero_le _) (Nat.le_refl _)).1 (by omega)
  have hends := (scan_ends d 0 ⟨0, []⟩ (Nat.le_refl _) (by simp)).1
  rw [List.drop_zero] at hscan
  rw [Nat.zero_add] at hends
  unfold httpHeaderInitWords httpHeaderInit
  change scanWords d _ false 0 ⟨0, []⟩ = _ at hscan
  rw [hscan]
  generalize scanSpacing d 0 ⟨0, []⟩ = r at hends
  obtain ⟨idx, s⟩ := r
  have hstart : (if u64OfInt (Int32.ofNat idx + 1) < UInt64.ofNat d.length - 1 then Int32.ofNat idx + 1
      else (UInt64.ofNat d.length - 1).toUInt32.toInt32) = .ofNat (min (idx + 1) (d.length - 1)) := by
    have hlast : UInt64.ofNat d.length - 1 = UInt64.ofNat (d.length - 1) := (UInt64.ofNat_sub hpos).symm
    have hidx := hends.1
    rw [hlast, ofNat_succ, UInt64.toUInt32_ofNat', UInt32.toInt32_ofNat']
    by_cases hlt : idx + 1 < d.length - 1
    · rw [if_pos ((lt_size_iff (by omega) (by omega)).mpr hlt), Nat.min_eq_left (Nat.le_of_lt hlt)]
    · rw [if_neg (mt (lt_size_iff (by omega) (by omega)).mp hlt), Nat.min_eq_right (Nat.le_of_not_lt hlt)]
  have hmethod : ∀ text ∈ s.headerText, methodWords d text = some (methodOf d text) := by
    intro text htext
    rw [methodWords, readText_eq (hends.2 text htext)]
    rfl
  simp only [Option.bind_eq_bind, Option.bind_some, RequestScan.words, hstart, HttpHeader.words]
  rw [if_neg (Nat.ne_of_gt hpos)]
  cases htexts : s.headerText with
  | nil => rfl
  | cons text texts =>
    simp only [List.getElem?_cons_zero, hmethod text (by rw [htexts]; exact List.mem_cons_self), Option.bind_some,
      Option.map_some, Option.getD_some]

theorem skipWords_eq {d : List UInt8} : ∀ (size start : Nat), start + size ≤ d.length →
    skipWords d start size = some (skipLoop d start size)
  | 0, _, _ => rfl
  | size + 1, start, h => by
    have hstart : start < d.length := by omega
    rw [skipWords, skipLoop, List.getElem?_eq_getElem hstart, Option.bind_eq_bind, Option.bind_some]
    change (if isWhite d[start] then _ else _) = some (if isWhite d[start] then _ else _)
    split
    · exact skipWords_eq size (start + 1) (by omega)
    · rfl

structure HttpHeader.InBounds (header : HttpHeader) : Prop where
  start_le : header.headerStart ≤ header.needle
  needle_le : header.needle ≤ header.headerData.length
  key : header.currentHeaderKey.EndsBy header.headerData.length
  value : header.currentHeaderValue.EndsBy header.headerData.length

theorem HttpHeader.InBounds.ends_le {header : HttpHeader} (h : header.InBounds) :
    keyEnd header ≤ header.headerData.length ∧ valueEnd header ≤ header.headerData.length := by
  have hkeyEnd : keyEnd header ≤ header.headerData.length := Scan.scanTo_le isColon h.needle_le
  exact ⟨hkeyEnd, Scan.scanTo_le strIsEndOfLineChar hkeyEnd⟩

theorem sliceSize_eq {stop start : Nat} (hle : start ≤ stop) (hlt : stop < 2 ^ 31) :
    (maxVal 0 (Int32.ofNat stop - Int32.ofNat start)).toNatClampNeg = stop - start := by
  have hnonneg := nonneg_ofNat (by omega : stop - start < 2 ^ 31)
  rw [maxVal, ofNat_sub hle, if_neg (Int32.not_lt.mpr hnonneg), toNatClampNeg_ofNat (by omega)]

theorem httpHeaderNextWords_eq {header : HttpHeader} (h : header.InBounds) (hd : header.headerData.length < 2 ^ 31) :
    httpHeaderNextWords header.words = some ((httpHeaderNext header).1, (httpHeaderNext header).2.words) := by
  have hturns : ∀ i, header.headerData.length - i < header.headerData.length + 1 := fun i => by omega
  have hkeyStart := needle_le_keyEnd header
  obtain ⟨hkeyEnd, hvalueEnd⟩ := h.ends_le
  unfold httpHeaderNextWords
  simp only [HttpHeader.words, Option.bind_eq_bind]
  rw [scanWordsTo_eq hd isColon _ _ h.needle_le (hturns _), Option.bind_some]
  simp only [belowSize_ofNat hd (Nat.le_succ_of_le hkeyEnd), decide_eq_true_eq]
  by_cases hk : keyEnd header < header.headerData.length
  · have hvalueStart := keyEnd_lt_valueEnd header hk
    rw [if_pos hk, sliceAt_ofNat hd h.needle_le, Option.bind_some,
      scanWordsTo_eq hd _ _ _ hkeyEnd (hturns _), Option.bind_some]
    simp only [belowSize_ofNat hd (Nat.le_succ_of_le hvalueEnd), decide_eq_true_eq]
    by_cases hv : valueEnd header < header.headerData.length
    · rw [if_pos hv, ofNat_succ, sliceAt_ofNat hd hk, Option.bind_some, sliceSize_eq hkeyStart (by omega),
        sliceSize_eq hvalueStart (by omega), strSkipWhiteSpaceWords, skipWords_eq _ _ (by omega), Option.bind_some,
        strSkipWhiteSpaceWords, skipWords_eq _ _ (by omega), Option.bind_some,
        scanWordsTo_eq hd _ _ _ hvalueEnd (hturns _), headerNext_eq header hk hv]
      rfl
    · rw [if_neg hv, headerNext_noValue header hk hv]
  · rw [if_neg hk, headerNext_noKey header hk]

/-! ## Progress -/

/-- What a call does: it reads a header and goes on by at least two bytes, or it goes to the end of the data. -/
theorem headerNext_cases {header : HttpHeader} (h : header.InBounds) :
    (∃ needle currentHeaderKey currentHeaderValue,
      httpHeaderNext header = (true, { header with needle, currentHeaderKey, currentHeaderValue }) ∧
      header.needle + 2 ≤ needle ∧ needle ≤ header.headerData.length ∧
      currentHeaderKey.EndsBy header.headerData.length ∧ currentHeaderValue.EndsBy header.headerData.length) ∨
    httpHeaderNext header = (false, { header with needle := header.headerData.length }) := by
  have hkeyStart := needle_le_keyEnd header
  obtain ⟨hkeyEnd, hvalueEnd⟩ := h.ends_le
  by_cases hk : keyEnd header < header.headerData.length
  · by_cases hv : valueEnd header < header.headerData.length
    · have hvalueStart := keyEnd_lt_valueEnd header hk
      have heol : strIsEndOfLineChar header.headerData[valueEnd header] = true := Scan.scanTo_get _ hv
      have hnext : valueEnd header + 1 ≤ Scan.scanTo (! strIsEndOfLineChar ·) header.headerData (valueEnd header) := by
        rw [Scan.scanTo_succ _ hv (by rw [heol]; rfl)]; exact Scan.le_scanTo ..
      refine Or.inl ⟨_, _, _, headerNext_eq header hk hv, by omega, Scan.scanTo_le _ hvalueEnd, ?_, ?_⟩
      · exact skipLoop_endsBy _ _ (by omega)
      · exact skipLoop_endsBy _ _ (by omega)
    · rw [headerNext_noValue header hk hv, Nat.le_antisymm hvalueEnd (Nat.le_of_not_lt hv)]
      exact Or.inr rfl
  · rw [headerNext_noKey header hk, Nat.le_antisymm hkeyEnd (Nat.le_of_not_lt hk)]
    exact Or.inr rfl

theorem HttpHeader.InBounds.next {header : HttpHeader} (h : header.InBounds) : (httpHeaderNext header).2.InBounds := by
  obtain ⟨needle, key, value, hnext, hlt, hle, hkey, hvalue⟩ | hnext := headerNext_cases h
  · rw [hnext]
    exact ⟨Nat.le_trans h.start_le (Nat.le_trans (Nat.le_add_right _ 2) hlt), hle, hkey, hvalue⟩
  · rw [hnext]
    exact ⟨Nat.le_trans h.start_le h.needle_le, Nat.le_refl _, h.key, h.value⟩

/-- `header` after some calls. -/
structure HttpHeader.Reaches (header h : HttpHeader) : Prop where
  bounds : h.InBounds
  same : h = { header with
    needle := h.needle
    currentHeaderKey := h.currentHeaderKey
    currentHeaderValue := h.currentHeaderValue }

def headerStep (header : HttpHeader) : HeaderCall → Option Bool × HttpHeader
  | .next => (some (httpHeaderNext header).1, (httpHeaderNext header).2)
  | .reset => (none, httpHeaderReset header)

theorem HttpHeader.Reaches.step {header h : HttpHeader} (hr : header.Reaches h) (call : HeaderCall) :
    header.Reaches (headerStep h call).2 := by
  obtain ⟨hbounds, hsame⟩ := hr
  cases call with
  | reset => exact ⟨⟨Nat.le_refl _, Nat.le_trans hbounds.start_le hbounds.needle_le, hbounds.key, hbounds.value⟩,
      by rw [hsame]; rfl⟩
  | next =>
    refine ⟨hbounds.next, ?_⟩
    unfold headerStep
    obtain ⟨needle, key, value, hnext, _⟩ | hnext := headerNext_cases hbounds
    · rw [hnext, hsame]
    · rw [hnext, hsame]

theorem headerLoop_ends : ∀ (fuel : Nat) {header : HttpHeader}, header.InBounds →
    (header.headerData.length - header.needle) / 2 < fuel →
    ∃ ps h, headerLoop fuel header = some (ps, h) ∧ ps.length ≤ (header.headerData.length - header.needle) / 2
  | 0, _, _, hf => absurd hf (Nat.not_lt_zero _)
  | fuel + 1, header, h, hf => by
    unfold headerLoop
    obtain ⟨needle, key, value, hnext, hlt, hle, hkey, hvalue⟩ | hnext := headerNext_cases h
    · have hin := h.next
      rw [hnext] at hin ⊢
      obtain ⟨ps, h', hl, hps⟩ := headerLoop_ends fuel hin (by dsimp only; omega)
      refine ⟨(key, value) :: ps, h', by simp only [hl, Option.map_some], ?_⟩
      dsimp only at hps
      rw [List.length_cons]; omega
    · rw [hnext]
      exact ⟨[], _, rfl, Nat.zero_le _⟩

/-- The pairs do not depend on the pair that the header holds. -/
theorem headerLoop_pairs (fuel : Nat) (header : HttpHeader) (key value : S8) :
    (headerLoop fuel { header with currentHeaderKey := key, currentHeaderValue := value }).map Prod.fst =
      (headerLoop fuel header).map Prod.fst := by
  cases fuel with
  | zero => rfl
  | succ fuel =>
    unfold headerLoop httpHeaderNext
    by_cases hk : keyEnd header < header.headerData.length
    · by_cases hv : valueEnd header < header.headerData.length
      · simp only [hk, hv, if_true]
      · simp only [hk, hv, if_true, if_false, Option.map_some]
    · simp only [hk, if_false, Option.map_some]

theorem headerLoopWords_eq : ∀ (fuel : Nat) {header : HttpHeader}, header.InBounds →
    header.headerData.length < 2 ^ 31 →
    headerLoopWords fuel header.words = (headerLoop fuel header).map fun r => (r.1, r.2.words)
  | 0, _, _, _ => rfl
  | fuel + 1, header, h, hd => by
    rw [headerLoopWords, headerLoop, httpHeaderNextWords_eq h hd, Option.bind_eq_bind, Option.bind_some]
    obtain ⟨needle, key, value, hnext, hlt, hle, hkey, hvalue⟩ | hnext := headerNext_cases h
    · have hin := h.next
      rw [hnext] at hin ⊢
      dsimp only
      rw [if_pos rfl, headerLoopWords_eq fuel hin hd]
      cases headerLoop fuel { header with needle, currentHeaderKey := key, currentHeaderValue := value } with
      | none => rfl
      | some r => rfl
    · rw [hnext]
      rfl

theorem headerCall_eq {header : HttpHeader} (h : header.InBounds) (hd : header.headerData.length < 2 ^ 31)
    (call : HeaderCall) :
    headerCall header.words call = some ((headerStep header call).1, (headerStep header call).2.words) := by
  cases call with
  | reset => rfl
  | next => rw [headerCall, httpHeaderNextWords_eq h hd]; rfl

theorem httpHeaderInit_inBounds {d : List UInt8} (hpos : 0 < d.length) : (httpHeaderInit d).InBounds where
  start_le := Nat.le_refl _
  needle_le := by
    change (httpHeaderInit d).headerStart ≤ d.length
    rw [headerStart_of_pos hpos]
    omega
  key := trivial
  value := trivial

/-- At the end of the data every call returns false and changes nothing. -/
theorem headerCalls_end {header : HttpHeader} (h : header.InBounds) (hd : header.headerData.length < 2 ^ 31)
    (hend : header.needle = header.headerData.length) (n : Nat) :
    Traces.trace headerCall header.words (List.replicate n .next) =
      some (List.replicate n (some false), header.words) := by
  have hcall : headerCall header.words .next = some (some false, header.words) := by
    rw [headerCall_eq h hd, headerStep]
    obtain ⟨needle, key, value, hnext, hlt, hle, _⟩ | hnext := headerNext_cases h
    · omega
    · rw [hnext, ← hend]
  induction n with
  | zero => rfl
  | succ n ih =>
    rw [List.replicate_succ, Traces.trace_cons hcall, ih]
    rfl

/-- What holds of every header `h` that calls on `header` lead to. -/
structure HttpHeaderWords.Iterates (header h : HttpHeaderWords) : Prop where
  data : h.headerData = header.headerData
  start_nonneg : 0 ≤ h.headerStart
  start_le : h.headerStart ≤ h.needle
  needle_le : h.needle.toInt ≤ h.headerData.length
  key : h.currentHeaderKey.EndsBy h.headerData.length
  value : h.currentHeaderValue.EndsBy h.headerData.length
  ends : ∃ ps h', headerLoopWords (h.headerData.length / 2 + 1) h = some (ps, h') ∧ ps.length ≤ h.headerData.length / 2
  last : ∀ h', httpHeaderNextWords h = some (false, h') →
    h'.currentHeaderKey = h.currentHeaderKey ∧ h'.currentHeaderValue = h.currentHeaderValue ∧
      ∀ n, Traces.trace headerCall h' (List.replicate n .next) = some (List.replicate n (some false), h')
  again : (headerLoopWords (h.headerData.length / 2 + 1) (httpHeaderResetWords h)).map Prod.fst =
    (headerLoopWords (h.headerData.length / 2 + 1) header).map Prod.fst

theorem HttpHeader.Reaches.iterates {d : List UInt8} (hpos : 0 < d.length) (hd : d.length < 2 ^ 31) {h : HttpHeader}
    (hr : (httpHeaderInit d).Reaches h) : (httpHeaderInit d).words.Iterates h.words := by
  obtain ⟨hbounds, hsame⟩ := hr
  have hdata : h.headerData = d := by rw [hsame]; rfl
  have hlen : h.headerData.length < 2 ^ 31 := by rw [hdata]; exact hd
  have hneedle : h.needle < 2 ^ 31 := Nat.lt_of_le_of_lt hbounds.needle_le hlen
  have hstart : h.headerStart < 2 ^ 31 := Nat.lt_of_le_of_lt hbounds.start_le hneedle
  refine ⟨hdata, nonneg_ofNat hstart, ?_, ?_, hbounds.key, hbounds.value, ?_, ?_, ?_⟩
  · rw [Int32.le_iff_toInt_le, HttpHeader.words, toInt_ofNat hstart, toInt_ofNat hneedle]
    exact Int.ofNat_le.mpr hbounds.start_le
  · rw [HttpHeader.words, toInt_ofNat hneedle]
    exact Int.ofNat_le.mpr hbounds.needle_le
  · obtain ⟨ps, h', hloop, hps⟩ := headerLoop_ends (h.headerData.length / 2 + 1) hbounds (by omega)
    refine ⟨ps, h'.words, ?_, Nat.le_trans hps (by change _ ≤ h.headerData.length / 2; omega)⟩
    rw [headerLoopWords_eq _ hbounds hlen]
    change (headerLoop (h.headerData.length / 2 + 1) h).map _ = _
    rw [hloop]; rfl
  · intro h' hfalse
    have hin := hbounds.next
    rw [httpHeaderNextWords_eq hbounds hlen] at hfalse
    obtain ⟨needle, key, value, hnext, _⟩ | hnext := headerNext_cases hbounds
    · rw [hnext] at hfalse; cases hfalse
    · rw [hnext] at hfalse hin
      cases hfalse
      exact ⟨rfl, rfl, headerCalls_end hin hlen rfl⟩
  · have hreset : httpHeaderReset h = { httpHeaderInit d with
        currentHeaderKey := h.currentHeaderKey
        currentHeaderValue := h.currentHeaderValue } := by rw [hsame]; rfl
    have hbounds' : (httpHeaderReset h).InBounds := (HttpHeader.Reaches.step ⟨hbounds, hsame⟩ .reset).bounds
    change (headerLoopWords _ (httpHeaderReset h).words).map _ = _
    rw [headerLoopWords_eq _ hbounds' hlen, headerLoopWords_eq _ (httpHeaderInit_inBounds hpos) hd, Option.map_map,
      Option.map_map, hreset]
    exact headerLoop_pairs _ _ _ _

/-- Header iteration makes progress and stays within the data, and no read faults. -/
theorem headers_iterate {d : List UInt8} (hpos : 0 < d.length) (hd : d.length < 2 ^ 31) :
    ∃ header, httpHeaderInitWords d = some header ∧
      ∀ calls, ∃ rs h, Traces.trace headerCall header calls = some (rs, h) ∧ header.Iterates h := by
  refine ⟨_, httpHeaderInitWords_eq hpos hd, fun calls => ?_⟩
  have hinit : (httpHeaderInit d).Reaches (httpHeaderInit d) := ⟨httpHeaderInit_inBounds hpos, rfl⟩
  have hstep : ∀ s t call, (s = t.words ∧ (httpHeaderInit d).Reaches t) →
      ∃ s', headerCall s call = some ((headerStep t call).1, s') ∧
        s' = (headerStep t call).2.words ∧ (httpHeaderInit d).Reaches (headerStep t call).2 := by
    rintro _ t call ⟨rfl, hr⟩
    have hdata : t.headerData = d := by rw [hr.same]; rfl
    exact ⟨_, headerCall_eq hr.bounds (by rw [hdata]; exact hd) call, rfl, hr.step call⟩
  obtain ⟨h, htrace, rfl, hr⟩ := Traces.trace_simulates hstep ⟨rfl, hinit⟩ calls
  exact ⟨_, _, htrace, hr.iterates hpos hd⟩

theorem headers_iterate_get : ∃ header, httpHeaderInitWords (s8 "GET / HTTP/1.1\r\nHost: a\r\n\r\n") = some header ∧
    ∀ calls, ∃ rs h, Traces.trace headerCall header calls = some (rs, h) ∧ header.Iterates h :=
  headers_iterate (by decide) (by decide)

end CWebServer
