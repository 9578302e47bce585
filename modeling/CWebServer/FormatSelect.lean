import CWebServer.FormatReads
import CWebServer.FormatWords
import CWebServer.ParseUnsigned

/-!
# Selecting an argument

A placeholder selects its argument by an index or by a key of two bytes or
more. Formatting a template of such placeholders gives its texts with what the
selected arguments write between them.
-/

namespace CWebServer

/-! ## Placeholders -/

section
variable {i : FmtInput} {rest body t u format : List UInt8} {k peak m : Nat} {v : StrValue}

theorem ScansTo.insert (h : ScansTo i rest (k + 1) t peak) (hbody : Placeholder body)
    (hinsert : strInsertValue k body i.args = some (.value v format))
    (hvalue : WritesAll [.value v format] u m) :
    ScansTo i (chr '\x7b' :: (body ++ chr '\x7d' :: rest)) k (u ++ t) (max m (u.length + peak)) := by
  apply h.value hvalue
  intro done last ts copied hfmt hcopy
  have hinner : i.fmt = (done ++ [chr '\x7b']) ++ (body ++ chr '\x7d' :: rest) := hfmt.trans (List.append_cons ..)
  have hlen : (done ++ [chr '\x7b']).length = done.length + 1 := List.length_append
  have hformat : (i.fmt.drop (done.length + 1)).take ((done ++ [chr '\x7b'] ++ body).length - (done.length + 1)) =
      body := by
    rw [← hlen, List.length_append, Nat.add_sub_cancel_left, hinner, List.drop_left, List.take_left]
  apply loop_closed hbody hfmt hcopy
  apply FmtInput.turn_value hbody.last_ne
  rw [hformat]
  exact hinsert

end

/-! ## Templates -/

/-- An argument, and what it writes in a record for a format. -/
structure RenderedArg where
  key : List UInt8
  value : StrValue
  render : List UInt8 → List UInt8
  peak : List UInt8 → Nat
  writes : ∀ format, Writes (FmtWrite.run · (.value value format)) (render format) (peak format)

def RenderedArg.toStrKeyValue (arg : RenderedArg) : StrKeyValue := ⟨arg.key, arg.value⟩

/-- The index of an argument is an `i32`. -/
structure RenderedArgs where
  args : List RenderedArg
  keys : (args.map RenderedArg.key).Nodup
  count_le : args.length ≤ u32Max

/-- An index, or a key of at least two bytes that does not open a brace. -/
inductive Selects (args : List RenderedArg) : List UInt8 → RenderedArg → Prop
  | index {digits : List UInt8} {arg : RenderedArg} (hne : digits ≠ [])
    (hnumber : ∀ c ∈ digits, strIsNumberChar c = true) (harg : args[decimalValue digits]? = some arg) :
    Selects args digits arg
  | key {arg : RenderedArg} (harg : arg ∈ args) (hlong : 1 < arg.key.length)
    (hdigit : ∀ c ∈ arg.key.head?, strIsNumberChar c = false) (hopen : arg.key.head? ≠ some (chr '\x7b'))
    (hplain : ∀ c ∈ arg.key, c ≠ chr ':' ∧ c ≠ chr '\x7d' ∧ c ≠ chr '\\') : Selects args arg.key arg

structure Spec where
  text : List UInt8
  inner : Unclosed (chr ':') text
  last : text.getLast? ≠ some (chr '\\')

def specText : Option Spec → List UInt8
  | some spec => chr ':' :: spec.text
  | none => []

def specFormat : Option Spec → List UInt8
  | some spec => spec.text.takeWhile fun c => c ≠ chr '\x7d'
  | none => []

/-- A placeholder and the text behind it. -/
structure SelectPiece (args : List RenderedArg) where
  selector : List UInt8
  spec : Option Spec
  arg : RenderedArg
  selects : Selects args selector arg
  text : List UInt8

section
variable {args : List RenderedArg}

def SelectPiece.body (piece : SelectPiece args) : List UInt8 := piece.selector ++ specText piece.spec

def selectTemplate (text : List UInt8) : List (SelectPiece args) → List UInt8
  | [] => escape text
  | piece :: pieces => escape text ++ chr '\x7b' :: (piece.body ++ chr '\x7d' :: selectTemplate piece.text pieces)

def selectText (text : List UInt8) : List (SelectPiece args) → List UInt8
  | [] => text
  | piece :: pieces => text ++ (piece.arg.render (specFormat piece.spec) ++ selectText piece.text pieces)

def selectPeak (text : List UInt8) : List (SelectPiece args) → Nat
  | [] => text.length
  | piece :: pieces => text.length + max (piece.arg.peak (specFormat piece.spec))
    ((piece.arg.render (specFormat piece.spec)).length + selectPeak piece.text pieces)

end

/-! ## What a placeholder selects -/

section
variable {args : List RenderedArg} {selector : List UInt8} {arg : RenderedArg}

theorem Selects.ne_nil (h : Selects args selector arg) : selector ≠ [] := by
  cases h with
  | index hne => exact hne
  | key _ hlong =>
    intro hnil
    rw [hnil] at hlong
    cases hlong

theorem number_plain {c : UInt8} (hc : strIsNumberChar c = true) :
    c ≠ chr ':' ∧ c ≠ chr '\x7d' ∧ c ≠ chr '\\' ∧ c ≠ chr '\x7b' := by
  refine ⟨?_, ?_, ?_, ?_⟩ <;> (rintro rfl; revert hc; decide)

theorem Selects.plain (h : Selects args selector arg) :
    ∀ c ∈ selector, c ≠ chr ':' ∧ c ≠ chr '\x7d' ∧ c ≠ chr '\\' := by
  cases h with
  | index _ hnumber =>
    intro c hc
    obtain ⟨hcolon, hclose, hback, -⟩ := number_plain (hnumber c hc)
    exact ⟨hcolon, hclose, hback⟩
  | key _ _ _ _ hplain => exact hplain

theorem Selects.head_ne (h : Selects args selector arg) : selector.head? ≠ some (chr '\x7b') := by
  cases h with
  | index _ hnumber =>
    intro hhead
    exact (number_plain (hnumber _ (List.mem_of_mem_head? hhead))).2.2.2 rfl
  | key _ _ _ hopen => exact hopen

theorem unclosed_append {last : UInt8} {a b : List UInt8} (ha : ∀ c ∈ a, c ≠ chr '\x7d')
    (hb : Unclosed (a.getLast?.getD last) b) : Unclosed last (a ++ b) := by
  induction a generalizing last with
  | nil => exact hb
  | cons c a ih =>
    rw [List.getLast?_cons] at hb
    exact ⟨fun hc => absurd hc (ha c List.mem_cons_self), ih (fun d hd => ha d (List.mem_cons_of_mem c hd)) hb⟩

theorem Selects.placeholder (h : Selects args selector arg) (spec : Option Spec) :
    Placeholder (selector ++ specText spec) := by
  have hplain := h.plain
  obtain ⟨c, rest, rfl⟩ := List.exists_cons_of_ne_nil h.ne_nil
  have hlast : (c :: rest).getLast? ≠ some (chr '\\') := fun hl => (hplain _ (List.mem_of_mem_getLast? hl)).2.2 rfl
  constructor
  · rw [List.cons_append]
    exact h.head_ne
  · apply unclosed_append fun d hd => (hplain d hd).2.1
    cases spec with
    | none => trivial
    | some spec => exact ⟨fun hc => absurd hc (by decide), spec.inner⟩
  · cases spec with
    | none =>
      rw [specText, List.append_nil]
      exact hlast
    | some spec =>
      have hspec := spec.last
      rw [specText, List.getLast?_append_cons]
      cases htext : spec.text with
      | nil => decide
      | cons d text =>
        rw [htext] at hspec
        rwa [List.getLast?_cons_cons]

theorem insertFormat_spec (selector : List UInt8) (spec : Option Spec) :
    insertFormat (selector ++ specText spec) selector.length = specFormat spec := by
  unfold insertFormat
  cases spec with
  | none =>
    rw [specText, List.append_nil, List.getElem?_eq_none (Nat.le_refl _)]
    rfl
  | some spec =>
    have hcolon : (selector ++ specText (some spec))[selector.length]? = some (chr ':') := by
      rw [List.getElem?_append_right (Nat.le_refl _), Nat.sub_self]
      rfl
    have hdrop : (selector ++ specText (some spec)).drop (selector.length + 1) = spec.text := by
      rw [List.drop_append, List.drop_eq_nil_of_le (Nat.le_succ _), Nat.add_sub_cancel_left]
      rfl
    rw [if_pos hcolon, hdrop]
    rfl

theorem takeWhile_selector {p : UInt8 → Bool} (hp : ∀ c ∈ selector, p c = true) (hcolon : p (chr ':') = false)
    (spec : Option Spec) : (selector ++ specText spec).takeWhile p = selector := by
  rw [List.takeWhile_append_of_pos hp]
  cases spec with
  | none => rw [specText, List.takeWhile_nil, List.append_nil]
  | some spec => rw [specText, List.takeWhile_cons_of_neg (by rw [hcolon]; exact Bool.false_ne_true), List.append_nil]

theorem head?_body (hne : selector ≠ []) (spec : Option Spec) :
    (selector ++ specText spec).head? = selector.head? := by
  obtain ⟨c, rest, rfl⟩ := List.exists_cons_of_ne_nil hne
  rfl

theorem insertIndex_index (hne : selector ≠ []) (hnumber : ∀ c ∈ selector, strIsNumberChar c = true)
    (hlt : decimalValue selector < u32Max) (k : Nat) (spec : Option Spec) :
    insertIndex k (selector ++ specText spec) = some (decimalValue selector, selector.length) := by
  have hdigits := takeWhile_selector hnumber (by decide) spec
  have hparse : strParseU32N (selector ++ specText spec) = (decimalValue selector, selector.length) := by
    unfold strParseU32N
    rw [parseU32Loop_lt (by rw [hdigits]; exact hlt), hdigits, Nat.zero_add]
    rfl
  unfold insertIndex
  rw [head?_body hne]
  obtain ⟨c, rest, rfl⟩ := List.exists_cons_of_ne_nil hne
  have hc := hnumber c List.mem_cons_self
  rw [List.head?_cons]
  dsimp only
  rw [if_neg (number_plain hc).1, if_pos hc, hparse]
  rfl

theorem insertIndex_key {c : UInt8} (hhead : selector.head? = some c) (hc : c ≠ chr ':')
    (hdigit : strIsNumberChar c = false) (k : Nat) (spec : Option Spec) :
    insertIndex k (selector ++ specText spec) = none := by
  have hne : selector ≠ [] := by
    rintro rfl
    cases hhead
  unfold insertIndex
  rw [head?_body hne, hhead]
  dsimp only
  rw [if_neg hc, if_neg (by rw [hdigit]; exact Bool.false_ne_true)]

theorem find?_key {args : List RenderedArg} (hkeys : (args.map RenderedArg.key).Nodup) (harg : arg ∈ args) :
    (args.map RenderedArg.toStrKeyValue).find? (fun a => strIsEqual a.key arg.key) = some arg.toStrKeyValue := by
  induction args with
  | nil => cases harg
  | cons first args ih =>
    rw [List.map_cons, List.nodup_cons] at hkeys
    rw [List.map_cons]
    rcases List.mem_cons.mp harg with rfl | hmem
    · exact List.find?_cons_of_pos (strIsEqual_iff.mpr rfl)
    · have hne : strIsEqual first.toStrKeyValue.key arg.key = false := by
        rw [Bool.eq_false_iff, ne_eq, strIsEqual_iff]
        intro heq
        have hkey : first.key = arg.key := heq
        exact hkeys.1 (hkey ▸ List.mem_map_of_mem hmem)
      rw [List.find?_cons, hne]
      exact ih hkeys.2 hmem

theorem strInsertValue_selects {args : RenderedArgs} (h : Selects args.args selector arg) (k : Nat)
    (spec : Option Spec) :
    strInsertValue k (selector ++ specText spec) (args.args.map RenderedArg.toStrKeyValue) =
      some (.value arg.value (specFormat spec)) := by
  have hplain := h.plain
  unfold strInsertValue
  cases h with
  | index hne hnumber harg =>
    have hlt := Nat.lt_of_lt_of_le (List.getElem?_eq_some_iff.mp harg).1 args.count_le
    rw [insertIndex_index hne hnumber hlt]
    dsimp only
    rw [List.getElem?_map, harg, insertFormat_spec]
    rfl
  | key harg hlong hdigit =>
    have hkey : insertKey (arg.key ++ specText spec) = arg.key := by
      apply takeWhile_selector _ (by decide)
      intro c hc
      simp [(hplain c hc).1, (hplain c hc).2.1]
    obtain ⟨c, rest, hcons⟩ := List.exists_cons_of_ne_nil (List.ne_nil_of_length_pos (Nat.lt_of_succ_lt hlong))
    have hhead : arg.key.head? = some c := by rw [hcons]; rfl
    rw [insertIndex_key hhead (hplain c (List.mem_of_mem_head? hhead)).1 (hdigit c hhead)]
    dsimp only
    rw [hkey, if_pos hlong, find?_key args.keys harg, Option.map_some, insertFormat_spec]
    rfl

end

/-! ## The format -/

theorem ScansTo.escape {i : FmtInput} {rest t : List UInt8} {k peak : Nat} (h : ScansTo i rest k t peak)
    (text : List UInt8) : ScansTo i (escape text ++ rest) k (text ++ t) (text.length + peak) := by
  induction text with
  | nil =>
    rw [List.length_nil, Nat.zero_add]
    exact h
  | cons c text ih =>
    have hcons := ih.cons c
    rw [← List.append_assoc, ← Nat.add_assoc, Nat.add_comm 1] at hcons
    exact hcons

theorem scansTo_select {args : RenderedArgs} {i : FmtInput} (hargs : i.args = args.args.map RenderedArg.toStrKeyValue)
    (pieces : List (SelectPiece args.args)) (text : List UInt8) (k : Nat) :
    ScansTo i (selectTemplate text pieces) k (selectText text pieces) (selectPeak text pieces) := by
  induction pieces generalizing text k with
  | nil =>
    have hscan : ScansTo i (CWebServer.escape text ++ []) k (text ++ []) (text.length + 0) := ScansTo.nil.escape text
    rwa [List.append_nil, List.append_nil] at hscan
  | cons piece pieces ih =>
    apply ScansTo.escape
    apply (ih piece.text (k + 1)).insert (piece.selects.placeholder piece.spec)
    · rw [hargs]
      exact strInsertValue_selects piece.selects k piece.spec
    · exact .single (piece.arg.writes (specFormat piece.spec))

theorem fmt_select {args : RenderedArgs} (text : List UInt8) (pieces : List (SelectPiece args.args)) {arena : Arena}
    (h : HasRoom arena (selectPeak text pieces)) (hfmt : (selectTemplate text pieces).length + 1 < 2 ^ 31)
    (behind : Nat → Option UInt8) (ndebug : Bool) :
    ∃ str arena', strFmtVargsWords arena
        ⟨selectTemplate text pieces, behind, args.args.map RenderedArg.toStrKeyValue, ndebug⟩ =
        some (.str str arena') ∧
      Returns arena' str (selectText text pieces) := by
  have hscan : ScansTo ⟨selectTemplate text pieces, behind, args.args.map RenderedArg.toStrKeyValue, ndebug⟩
      (selectTemplate text pieces) 0 (selectText text pieces) (selectPeak text pieces) :=
    scansTo_select rfl pieces text 0
  refine fmtWords_of_scan hscan h hfmt ?_
  rw [List.length_map]
  exact Nat.lt_of_le_of_lt args.count_le (by decide)

def FmtArg.rendered (arg : FmtArg) : RenderedArg where
  key := arg.key
  value := arg.value.toStrValue
  render _ := arg.value.render
  peak _ := arg.value.peak
  writes format := by
    have h := writesAll_value arg.value format
    unfold WritesAll at h
    simp only [List.foldlM_cons, List.foldlM_nil, bind_pure] at h
    exact h

def userArgs : RenderedArgs where
  args := [(⟨s8 "name", .str (s8 "\x7bx")⟩ : FmtArg).rendered, (⟨s8 "x", .i64 (-3)⟩ : FmtArg).rendered]
  keys := by simp [FmtArg.rendered, s8]
  count_le := by decide

/-- `{name}` and `{1:d}` -/
def userPieces : List (SelectPiece userArgs.args) := [
  { selector := s8 "name"
    spec := none
    arg := (⟨s8 "name", .str (s8 "\x7bx")⟩ : FmtArg).rendered
    selects := @Selects.key userArgs.args (⟨s8 "name", .str (s8 "\x7bx")⟩ : FmtArg).rendered List.mem_cons_self
      (by decide) (by simp [FmtArg.rendered, s8]; decide) (by decide) (by simp [FmtArg.rendered, s8]; decide)
    text := s8 "\x7d" },
  { selector := s8 "1"
    spec := some ⟨s8 "d", by simp [s8, Unclosed]; decide, by decide⟩
    arg := (⟨s8 "x", .i64 (-3)⟩ : FmtArg).rendered
    selects := .index (by decide) (by simp [s8]; decide) rfl
    text := [] }]

theorem fmt_select_user :
    ∃ str arena', strFmtVargsWords (memMakeArenaPreAllocated (fun _ => 0) 1024)
        ⟨s8 "a\x7bname\x7d\x7d\x7d\x7b1:d\x7d", fun _ => none, userArgs.args.map RenderedArg.toStrKeyValue, false⟩ =
        some (.str str arena') ∧
      Returns arena' str (s8 "a\x7bx\x7d-3") :=
  @fmt_select userArgs (s8 "a") userPieces _ ⟨Int.le_refl _, Nat.le_refl _, by decide, by decide⟩ (by decide)
    (fun _ => none) false

/-- A template of one placeholder gives what the argument writes. -/
def Inserts (args : List RenderedArg) (selector : List UInt8) (arg : RenderedArg) : Prop :=
  ∀ arena behind ndebug, HasRoom arena (arg.peak []) →
    ∃ str arena', strFmtVargsWords arena
        ⟨chr '\x7b' :: (selector ++ [chr '\x7d']), behind, args.map RenderedArg.toStrKeyValue, ndebug⟩ =
        some (.str str arena') ∧
      Returns arena' str (arg.render [])

theorem not_inserts_of_loop {args : List RenderedArg} {selector : List UInt8} {arg : FmtArg}
    {behind : Nat → Option UInt8} (hselector : selector.length + 3 < 2 ^ 31) (hargs : args.length < 2 ^ 32)
    (hpeak : arg.value.peak ≤ 896)
    (h : FmtInput.loop ⟨chr '\x7b' :: (selector ++ [chr '\x7d']), behind, args.map RenderedArg.toStrKeyValue, false⟩ 0
      {} = none) : ¬ Inserts args selector arg.rendered := by
  intro hinserts
  have hroom : HasRoom (memMakeArenaPreAllocated (fun _ => 0) 1024) arg.value.peak :=
    ⟨Int.le_refl _, Nat.le_refl _, Nat.add_le_add_left hpeak 128, by decide⟩
  obtain ⟨str, arena', hfmt, -⟩ := hinserts _ behind false hroom
  have htemplate : (chr '\x7b' :: (selector ++ [chr '\x7d'])).length + 1 < 2 ^ 31 := by
    rw [List.length_cons, List.length_append, List.length_singleton]
    omega
  rw [strFmtVargsWords_eq _ htemplate (by rw [List.length_map]; exact hargs), strFmtVargs, h] at hfmt
  cases hfmt

/-- A key of one byte is invalid. -/
theorem loop_single : FmtInput.loop ⟨s8 "\x7bx\x7d", fun _ => none, userArgs.args.map RenderedArg.toStrKeyValue, false⟩
    0 {} = none := by
  let i : FmtInput := ⟨s8 "\x7bx\x7d", fun _ => none, userArgs.args.map RenderedArg.toStrKeyValue, false⟩
  have hkey : i.loop 1 ⟨chr '\x7b', 0, some 0, 1⟩ = (i.loop 2 ⟨chr 'x', 0, some 0, 1⟩).map fun trace =>
      ⟨[] ++ trace.writes, trace.error⟩ :=
    @FmtInput.loop_next i [chr '\x7b'] [chr '\x7d'] (chr 'x') (chr 'x') [] 0 ⟨chr '\x7b', 0, some 0, 1⟩
      ⟨chr '\x7b', 0, some 0, 1⟩ rfl rfl rfl
  have hclose : i.loop 2 ⟨chr 'x', 0, some 0, 1⟩ = none := by
    rw [FmtInput.loop_turn (by decide)]
    rfl
  have hopen : i.loop 0 {} = (i.loop 1 ⟨chr '\x7b', 0, some 0, 1⟩).map fun trace => ⟨[] ++ trace.writes, trace.error⟩ :=
    @FmtInput.loop_next i [] (s8 "x\x7d") (chr '\x7b') (chr '\x7b') [] 0 {} ⟨0, 0, some 0, 1⟩ rfl rfl rfl
  rw [hopen, hkey, hclose]
  rfl

def braceArg : FmtArg := ⟨s8 "\x7bx", .i64 (-3)⟩

/-- A brace before a key doubles the one that opens. -/
theorem loop_brace : FmtInput.loop ⟨s8 "\x7b\x7bx\x7d", fun _ => some 0, [braceArg.rendered.toStrKeyValue], false⟩
    0 {} = none := by
  let i : FmtInput := ⟨s8 "\x7b\x7bx\x7d", fun _ => some 0, [braceArg.rendered.toStrKeyValue], false⟩
  have hdouble : i.loop 0 {} = (i.loop 2 ⟨chr '\x7b', 0, none, 2⟩).map fun trace =>
      ⟨[.text (s8 "\x7b")] ++ trace.writes, trace.error⟩ :=
    @FmtInput.loop_next i [] (s8 "\x7bx\x7d") (chr '\x7b') (chr '\x7b') _ 1 {} ⟨0, 0, none, 2⟩ rfl rfl rfl
  have htext : i.loop 2 ⟨chr '\x7b', 0, none, 2⟩ = (i.loop 3 ⟨chr 'x', 0, none, 2⟩).map fun trace =>
      ⟨[] ++ trace.writes, trace.error⟩ :=
    @FmtInput.loop_next i (s8 "\x7b\x7b") [chr '\x7d'] (chr 'x') (chr 'x') [] 0 ⟨chr '\x7b', 0, none, 2⟩
      ⟨chr '\x7b', 0, none, 2⟩ rfl rfl rfl
  have hclose : i.loop 3 ⟨chr 'x', 0, none, 2⟩ = none := by
    rw [FmtInput.loop_turn (by decide)]
    rfl
  rw [hdouble, htext, hclose]
  rfl

theorem not_inserts : ¬ Inserts userArgs.args (s8 "x") (⟨s8 "x", .i64 (-3)⟩ : FmtArg).rendered ∧
    ¬ Inserts [braceArg.rendered] (s8 "\x7bx") braceArg.rendered :=
  ⟨not_inserts_of_loop (by decide) (by decide) (by decide) loop_single,
    not_inserts_of_loop (by decide) (by decide) (by decide) loop_brace⟩

end CWebServer
