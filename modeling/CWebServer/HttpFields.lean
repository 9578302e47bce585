import CWebServer.Lib.Records
import CWebServer.Lib.Words
import CWebServer.Http

/-!
# The parser reads records

On the bytes from `needle` on, `httpHeaderNext` reads the first record (key up
to a colon, value up to a line end), so the loop yields `fields` of them. The
request line scan leaves `needle` at `headerSection`, the bytes behind the
first line, unless that line has more than three texts.
-/

namespace CWebServer

open Records (records next HasRecord)

abbrev nextRecord (s : List UInt8) := next isColon strIsEndOfLineChar s

def trimPair (p : List UInt8 × List UInt8) : List UInt8 × List UInt8 :=
  (p.1.dropWhile isWhite, p.2.dropWhile isWhite)

def fields (s : List UInt8) : List (List UInt8 × List UInt8) :=
  (records isColon strIsEndOfLineChar s).map trimPair

theorem colon_not_eol (c : UInt8) (h : isColon c = true) : strIsEndOfLineChar c = false := by
  simp only [isColon, beq_iff_eq] at h
  subst h; decide

theorem eol_not_colon {c : UInt8} (h : strIsEndOfLineChar c = true) : isColon c = false := by
  by_contra hc
  rw [colon_not_eol c (by simpa using hc)] at h; cases h

/-! ## One header -/

def S8.EndsBy (n : Nat) : S8 → Prop
  | .slice start size => start + size ≤ n
  | _ => True

theorem skipLoop_endsBy {d : List UInt8} {n : Nat} : ∀ (start size : Nat), start + size ≤ n →
    (skipLoop d start size).EndsBy n
  | start, 0, h => h
  | start, size + 1, h => by
    unfold skipLoop
    split
    · split
      · exact skipLoop_endsBy (start + 1) size (by omega)
      · exact h
    · exact h

/-- A colon at `i` and the first line end behind it at `j`: where a header's key and value end. -/
structure LineAt (d : List UInt8) (i j : Nat) : Prop where
  lt : i < j
  lt_length : j < d.length
  colon : isColon (d.get ⟨i, Nat.lt_trans lt lt_length⟩) = true
  eol : strIsEndOfLineChar d[j] = true
  first : ∀ m (hm : m < d.length), i < m → m < j → strIsEndOfLineChar d[m] = false

/-- What a call that returns true has read: the record `(k, v)` at `needle`. -/
structure HeaderRead (h h' : HttpHeader) (k v : List UInt8) : Prop where
  data : h'.headerData = h.headerData
  next : nextRecord (h.headerData.drop h.needle) = some ((k, v), h.headerData.drop h'.needle)
  pair : pairBytes h.headerData (h'.currentHeaderKey, h'.currentHeaderValue) = trimPair (k, v)
  line : ∃ i j, LineAt h.headerData i j ∧ h'.currentHeaderKey.EndsBy i ∧ h'.currentHeaderValue.EndsBy j

section
variable (h : HttpHeader)

abbrev keyEnd : Nat := Scan.scanTo isColon h.headerData h.needle

abbrev valueEnd : Nat := Scan.scanTo strIsEndOfLineChar h.headerData (keyEnd h)

theorem drop_keyEnd (hk : keyEnd h < h.headerData.length) :
    (h.headerData.drop h.needle).dropWhile (! isColon ·) =
      h.headerData[keyEnd h] :: h.headerData.drop (keyEnd h + 1) := by
  rw [← Scan.drop_scanTo, List.drop_eq_getElem_cons hk]

theorem valueEnd_eq (hk : keyEnd h < h.headerData.length) :
    valueEnd h = Scan.scanTo strIsEndOfLineChar h.headerData (keyEnd h + 1) :=
  Scan.scanTo_succ _ hk (colon_not_eol _ (Scan.scanTo_get _ hk))

theorem needle_le_keyEnd : h.needle ≤ keyEnd h := Scan.le_scanTo ..

theorem keyEnd_lt_valueEnd (hk : keyEnd h < h.headerData.length) : keyEnd h < valueEnd h := by
  rw [valueEnd_eq h hk]
  exact Scan.le_scanTo ..

theorem headerNext_false (hf : (httpHeaderNext h).1 = false) :
    nextRecord (h.headerData.drop h.needle) = none := by
  unfold nextRecord next
  by_cases hk : keyEnd h < h.headerData.length
  · rw [drop_keyEnd h hk]
    by_cases hv : valueEnd h < h.headerData.length
    · simp [httpHeaderNext, hk, hv] at hf
    · simp only
      rw [← Scan.drop_scanTo, ← valueEnd_eq h hk, List.drop_eq_nil_of_le (Nat.le_of_not_lt hv)]
  · rw [← Scan.drop_scanTo, List.drop_eq_nil_of_le (Nat.le_of_not_lt hk)]

theorem headerNext_eq (hk : keyEnd h < h.headerData.length) (hv : valueEnd h < h.headerData.length) :
    httpHeaderNext h = (true, { h with
      needle := Scan.scanTo (! strIsEndOfLineChar ·) h.headerData (valueEnd h)
      currentHeaderKey := strSkipWhiteSpace h.headerData (.slice h.needle (keyEnd h - h.needle))
      currentHeaderValue := strSkipWhiteSpace h.headerData (.slice (keyEnd h + 1) (valueEnd h - (keyEnd h + 1))) }) := by
  unfold httpHeaderNext; simp only [hk, hv, if_true]

theorem headerNext_noKey (hk : ¬ keyEnd h < h.headerData.length) :
    httpHeaderNext h = (false, { h with needle := keyEnd h }) := by
  unfold httpHeaderNext; simp only [hk, if_false]

theorem headerNext_noValue (hk : keyEnd h < h.headerData.length) (hv : ¬ valueEnd h < h.headerData.length) :
    httpHeaderNext h = (false, { h with needle := valueEnd h }) := by
  unfold httpHeaderNext; simp only [hk, hv, if_true, if_false]

theorem headerNext_read (hk : keyEnd h < h.headerData.length) (hv : valueEnd h < h.headerData.length) :
    HeaderRead h (httpHeaderNext h).2 ((h.headerData.drop h.needle).takeWhile (! isColon ·))
      ((h.headerData.drop (keyEnd h + 1)).takeWhile (! strIsEndOfLineChar ·)) := by
  have hv' := hv
  rw [valueEnd_eq h hk] at hv'
  have hle := needle_le_keyEnd h
  have hle' := keyEnd_lt_valueEnd h hk
  rw [headerNext_eq h hk hv]
  refine ⟨rfl, ?_, ?_, ?_⟩
  · unfold nextRecord next
    rw [drop_keyEnd h hk]
    simp only [← Scan.drop_scanTo]
    rw [List.drop_eq_getElem_cons hv']
    simp only [← valueEnd_eq h hk, Scan.drop_scanTo (! strIsEndOfLineChar ·), Bool.not_not]
    rw [List.drop_eq_getElem_cons hv]
  · simp only [pairBytes, trimPair, bytes_strSkipWhiteSpace, bytes_slice, valueEnd_eq h hk, Scan.take_scanTo]
  · refine ⟨keyEnd h, valueEnd h, ⟨hle', hv, Scan.scanTo_get _ hk, Scan.scanTo_get _ hv, ?_⟩, ?_, ?_⟩
    · intro m hm hlt hlt'
      exact Scan.scanTo_first _ hm (Nat.le_of_lt hlt) hlt'
    · exact skipLoop_endsBy _ _ (by omega)
    · exact skipLoop_endsBy _ _ (by omega)

theorem headerNext_true (ht : (httpHeaderNext h).1 = true) :
    ∃ k v, HeaderRead h (httpHeaderNext h).2 k v := by
  by_cases hk : keyEnd h < h.headerData.length
  · by_cases hv : valueEnd h < h.headerData.length
    · exact ⟨_, _, headerNext_read h hk hv⟩
    · simp [httpHeaderNext, hk, hv] at ht
  · simp [httpHeaderNext, hk] at ht

end

/-! ## The loop -/

theorem drop_length_lt {h h' : HttpHeader} {k v : List UInt8} (hr : HeaderRead h h' k v) :
    (h.headerData.drop h'.needle).length < (h.headerData.drop h.needle).length :=
  Records.next_length hr.next

theorem fields_some {s r k v : List UInt8} (h : nextRecord s = some ((k, v), r)) :
    fields s = trimPair (k, v) :: fields r := by
  unfold fields; rw [Records.records_some h, List.map_cons]

theorem fields_none {s : List UInt8} (h : nextRecord s = none) : fields s = [] := by
  unfold fields; rw [Records.records_none h, List.map_nil]

theorem fields_no_colon {s : List UInt8} (h : ∀ c ∈ s, isColon c = false) : fields s = [] := by
  apply fields_none
  apply Records.next_none_iff.mpr
  intro hr
  obtain ⟨x, c, y, rfl, hc, _⟩ := hr
  rw [h c (by simp)] at hc; cases hc

/-- The loop ends and yields the fields of the bytes from `needle` on, each of them on a line of the data. -/
theorem headerLoop_spec : ∀ (fuel : Nat) (h : HttpHeader), (h.headerData.drop h.needle).length < fuel →
    ∃ ps h', headerLoop fuel h = some (ps, h') ∧
      ps.map (pairBytes h.headerData) = fields (h.headerData.drop h.needle) ∧
      ∀ p ∈ ps, ∃ i j, LineAt h.headerData i j ∧ p.1.EndsBy i ∧ p.2.EndsBy j
  | 0, _, hf => absurd hf (Nat.not_lt_zero _)
  | fuel + 1, h, hf => by
    unfold headerLoop
    split
    · rename_i h' hn
      have hnone := headerNext_false h (by rw [hn])
      exact ⟨[], h', rfl, by rw [fields_none hnone]; rfl, fun p hp => by cases hp⟩
    · rename_i h' hn
      obtain ⟨k, v, hr⟩ := headerNext_true h (by rw [hn])
      rw [hn] at hr
      simp only at hr
      have hlt := drop_length_lt hr
      obtain ⟨ps, h'', hl, hps, hin⟩ := headerLoop_spec fuel h' (by rw [hr.data]; omega)
      rw [hr.data] at hps hin
      refine ⟨(h'.currentHeaderKey, h'.currentHeaderValue) :: ps, h'', by rw [hl]; rfl, ?_, ?_⟩
      · rw [fields_some hr.next, List.map_cons, hr.pair, hps]
      · intro p hp
        cases hp with
        | head => exact hr.line
        | tail _ hp => exact hin p hp

/-! ## The request line -/

abbrev textsOf (line : List UInt8) : List (List UInt8) := Words.words strIsSpacingChar line

theorem textsOf_spacing {c : UInt8} (hc : strIsSpacingChar c = true) (l : List UInt8) :
    textsOf (c :: l) = textsOf l :=
  Words.words_sep_cons hc l

theorem textsOf_word {w : List UInt8} (hw : ∀ c ∈ w, strIsSpacingChar c = false) (hne : w ≠ []) : textsOf w = [w] :=
  Words.words_word hw hne

theorem textsOf_word_spacing {w : List UInt8} (hw : ∀ c ∈ w, strIsSpacingChar c = false) (hne : w ≠ []) {c : UInt8}
    (hc : strIsSpacingChar c = true) (l : List UInt8) : textsOf (w ++ c :: l) = w :: textsOf l :=
  Words.words_word_sep hw hne hc l

abbrev OneLine (u : List UInt8) : Prop := ∀ c ∈ u, strIsEndOfLineChar c = false

theorem spacing_not_eol (c : UInt8) (h : strIsSpacingChar c = true) : strIsEndOfLineChar c = false := by
  simp only [strIsSpacingChar, Bool.or_eq_true, beq_iff_eq] at h
  rcases h with ((rfl | rfl) | rfl) | rfl <;> decide

theorem scanText_char {c : UInt8} (hc : strIsSpacingChar c = false) (he : strIsEndOfLineChar c = false)
    (t : List UInt8) (idx : Nat) (s : RequestScan) : scanText (c :: t) idx s = scanText t (idx + 1) s := by
  rw [scanText]
  simp only [hc, he, Bool.or_false, Bool.false_eq_true, if_false, ite_self]

theorem scanText_word {w : List UInt8} (hw : ∀ c ∈ w, strIsSpacingChar c = false) (he : OneLine w)
    (t : List UInt8) (idx : Nat) (s : RequestScan) :
    scanText (w ++ t) idx s = scanText t (idx + w.length) s := by
  induction w generalizing idx with
  | nil => rfl
  | cons c w ih =>
    obtain ⟨hc, hw⟩ := List.forall_mem_cons.mp hw
    obtain ⟨hce, he⟩ := List.forall_mem_cons.mp he
    rw [List.cons_append, scanText_char hc hce, ih hw he, List.length_cons, Nat.add_assoc, Nat.add_comm 1]

theorem scanSpacing_word {w : List UInt8} (hne : w ≠ []) (hw : ∀ c ∈ w, strIsSpacingChar c = false)
    (he : OneLine w) (t : List UInt8) (idx : Nat) (s : RequestScan) :
    scanSpacing (w ++ t) idx s = scanText t (idx + w.length) s := by
  rw [← scanText_word hw he]
  obtain ⟨c, w, rfl⟩ := List.exists_cons_of_ne_nil hne
  have hc := hw c List.mem_cons_self
  have hce := he c List.mem_cons_self
  rw [List.cons_append, scanText_char hc hce, scanSpacing]
  simp only [hc, hce, Bool.false_eq_true, if_false]

/-- A fourth text hides everything behind it. -/
theorem scanText_full (t : List UInt8) (idx : Nat) (s : RequestScan) (hs : 3 ≤ s.headerText.length) :
    scanText t idx s = (idx + t.length + 1, s) := by
  induction t generalizing idx with
  | nil => rfl
  | cons c t ih =>
    rw [scanText, if_neg (by omega), ih]
    simp only [List.length_cons, Prod.mk.injEq, and_true]; omega

theorem scanText_end {e : UInt8} (he : strIsEndOfLineChar e = true) (rest : List UInt8) (idx : Nat)
    (s : RequestScan) (hs : s.headerText.length < 3) :
    scanText (e :: rest) idx s =
      (idx + 1, ⟨idx + 1, s.headerText ++ [.slice s.headerTextLastEnd (idx - s.headerTextLastEnd)]⟩) := by
  rw [scanText]; simp [hs, he]

theorem scanText_spacing {c : UInt8} (hc : strIsSpacingChar c = true) (rest : List UInt8) (idx : Nat)
    (s : RequestScan) (hs : s.headerText.length < 3) :
    scanText (c :: rest) idx s = scanSpacing rest (idx + 1)
      ⟨idx + 1, s.headerText ++ [.slice s.headerTextLastEnd (idx - s.headerTextLastEnd)]⟩ := by
  rw [scanText]; simp [hs, hc, spacing_not_eol c hc]

theorem bytes_word {d w t : List UInt8} {idx : Nat} (hd : d.drop idx = w ++ t) :
    (S8.slice idx w.length).bytes d = w := by
  rw [bytes_slice, hd, List.take_left' rfl]

theorem eol_not_spacing {c : UInt8} (h : strIsEndOfLineChar c = true) : strIsSpacingChar c = false := by
  by_contra hs
  rw [spacing_not_eol c (by simpa using hs)] at h; cases h

/-- Where three texts are recorded, words are passed over. -/
theorem scanText_passes {texts : List S8} (h3 : 3 ≤ texts.length) (t : List UInt8) (idx last size : Nat)
    (w : List UInt8) (words : List (List UInt8)) (Behind : List UInt8 → Prop) :
    ∃ stop found last', scanText t idx ⟨last, texts⟩ = (stop, ⟨last', texts ++ found⟩) ∧
      (texts.length + (w :: words).length ≤ 3 → stop = size) ∧
      ∀ d, Behind d → found.map (S8.bytes d) = (w :: words).take (3 - texts.length) := by
  refine ⟨idx + t.length + 1, [], last, ?_, fun hle => ?_, fun d _ => ?_⟩
  · rw [scanText_full _ _ _ h3, List.append_nil]
  · rw [List.length_cons] at hle
    omega
  · rw [Nat.sub_eq_zero_of_le h3]
    rfl

/-- The scan of a line keeps the texts that there is still place for. -/
theorem scan_texts {line : List UInt8} (hline : OneLine line) {e : UInt8} (he : strIsEndOfLineChar e = true)
    (rest : List UInt8) (idx : Nat) (texts : List S8) (ht : texts.length ≤ 3) :
    ∃ stop found last, scanSpacing (line ++ e :: rest) idx ⟨idx, texts⟩ = (stop, ⟨last, texts ++ found⟩) ∧
      (texts.length + (textsOf line).length ≤ 3 → stop = idx + line.length + 1) ∧
      ∀ d, d.drop idx = line ++ e :: rest → found.map (S8.bytes d) = (textsOf line).take (3 - texts.length) := by
  induction line using Words.words_induction strIsSpacingChar generalizing idx texts with
  | nil =>
    refine ⟨idx + 1, [], idx, ?_, fun _ => rfl, fun d _ => ?_⟩
    · simp [scanSpacing, he, eol_not_spacing he]
    · rw [show textsOf [] = [] from Words.words_nil, List.take_nil]
      rfl
  | sep c l hc ih =>
    obtain ⟨stop, found, last, hs, hstop, hb⟩ := ih (List.forall_mem_cons.mp hline).2 (idx + 1) texts ht
    refine ⟨stop, found, last, ?_, fun h3 => ?_, fun d hd => ?_⟩
    · rw [List.cons_append, scanSpacing, if_pos hc, hs]
    · rw [textsOf_spacing hc] at h3
      rw [hstop h3, List.length_cons]
      omega
    · rw [textsOf_spacing hc]
      apply hb
      rw [← List.drop_drop, hd]; rfl
  | last w hne hw =>
    rw [textsOf_word hw hne, scanSpacing_word hne hw hline]
    by_cases h3 : texts.length < 3
    · refine ⟨idx + w.length + 1, [.slice idx w.length], idx + w.length + 1, ?_, fun _ => rfl, fun d hd => ?_⟩
      · rw [scanText_end he _ _ _ h3, Nat.add_sub_cancel_left]
      · rw [List.map_singleton, bytes_word hd, List.take_of_length_le]
        exact Nat.sub_pos_of_lt h3
    · exact scanText_passes (Nat.le_of_not_lt h3) _ _ _ _ w [] _
  | word w c l hne hw hc ih =>
    obtain ⟨hwl, hcl⟩ := List.forall_mem_append.mp hline
    rw [textsOf_word_spacing hw hne hc, List.append_assoc, scanSpacing_word hne hw hwl, List.cons_append]
    by_cases h3 : texts.length < 3
    · have hlen : (texts ++ [S8.slice idx w.length]).length = texts.length + 1 := by simp
      obtain ⟨stop, found, last, hs, hstop, hb⟩ := ih (List.forall_mem_cons.mp hcl).2 (idx + w.length + 1)
        (texts ++ [S8.slice idx w.length]) (by omega)
      refine ⟨stop, .slice idx w.length :: found, last, ?_, fun hle => ?_, fun d hd => ?_⟩
      · rw [scanText_spacing hc _ _ _ h3, Nat.add_sub_cancel_left, hs, List.append_assoc]
        rfl
      · rw [List.length_cons] at hle
        rw [hstop (by omega), List.length_append, List.length_cons]
        omega
      · rw [List.map_cons, bytes_word hd, hb d, hlen, show 3 - texts.length = 3 - (texts.length + 1) + 1 by omega]
        · rfl
        · rw [Nat.add_assoc, ← List.drop_drop, hd, List.drop_length_add_append]
          rfl
    · exact scanText_passes (Nat.le_of_not_lt h3) _ _ _ _ w _ _

theorem scan_line {line : List UInt8} (hline : OneLine line) {e : UInt8} (he : strIsEndOfLineChar e = true)
    (rest : List UInt8) (idx : Nat) (texts : List S8) (ht : texts.length + (textsOf line).length ≤ 3) :
    ∃ found last, scanSpacing (line ++ e :: rest) idx ⟨idx, texts⟩ =
        (idx + line.length + 1, ⟨last, texts ++ found⟩) ∧
      ∀ d, d.drop idx = line ++ e :: rest → found.map (S8.bytes d) = textsOf line := by
  obtain ⟨stop, found, last, hs, hstop, hb⟩ := scan_texts hline he rest idx texts (by omega)
  refine ⟨found, last, ?_, fun d hd => ?_⟩
  · rw [hs, hstop ht]
  · rw [hb d hd, List.take_of_length_le (by omega)]

/-- A line with more than three texts swallows all that follows. -/
theorem scan_long_line {line : List UInt8} (hline : OneLine line) (t : List UInt8) (idx : Nat) (s : RequestScan)
    (hs : s.headerText.length ≤ 3) (h : 3 < s.headerText.length + (textsOf line).length) :
    (scanSpacing (line ++ t) idx s).1 = idx + (line ++ t).length + 1 := by
  induction line using Words.words_induction strIsSpacingChar generalizing idx s with
  | nil =>
    rw [show textsOf [] = [] from Words.words_nil, List.length_nil] at h
    omega
  | sep c l hc ih =>
    rw [textsOf_spacing hc] at h
    rw [List.cons_append, scanSpacing, if_pos hc,
      ih (List.forall_mem_cons.mp hline).2 (idx + 1) ⟨idx + 1, s.headerText⟩ hs h]
    simp only [List.length_cons]; omega
  | last w hne hw =>
    rw [textsOf_word hw hne, List.length_singleton] at h
    rw [scanSpacing_word hne hw hline, scanText_full _ _ _ (by omega)]
    simp only [List.length_append]; omega
  | word w c l hne hw hc ih =>
    obtain ⟨hwl, hcl⟩ := List.forall_mem_append.mp hline
    rw [textsOf_word_spacing hw hne hc, List.length_cons] at h
    rw [List.append_assoc, scanSpacing_word hne hw hwl]
    by_cases h3 : s.headerText.length < 3
    · rw [List.cons_append, scanText_spacing hc _ _ _ h3, ih (List.forall_mem_cons.mp hcl).2]
      · simp only [List.length_append, List.length_cons]; omega
      · simp only [List.length_append, List.length_cons, List.length_nil]; omega
      · simp only [List.length_append, List.length_cons, List.length_nil] at h ⊢; omega
    · rw [scanText_full _ _ _ (Nat.le_of_not_lt h3)]
      simp only [List.length_append]; omega

theorem scan_no_eol : ∀ (u : List UInt8), OneLine u → ∀ (idx : Nat) (s : RequestScan),
    idx + u.length ≤ (scanSpacing u idx s).1 ∧ idx + u.length ≤ (scanText u idx s).1
  | [], _, idx, s => by simp [scanSpacing, scanText]
  | c :: u, hu, idx, s => by
    have hc := hu c (by simp)
    have ih := fun s => scan_no_eol u (fun x hx => hu x (List.mem_cons_of_mem _ hx)) (idx + 1) s
    rw [scanSpacing, scanText]
    simp only [hc, Bool.false_or, Bool.false_eq_true, if_false, List.length_cons]
    refine ⟨?_, ?_⟩
    · split
      · have := (ih { s with headerTextLastEnd := idx + 1 }).1; omega
      · have := (ih s).2; omega
    · split
      · split
        · have := (ih ⟨idx + 1, s.headerText ++ [.slice s.headerTextLastEnd (idx - s.headerTextLastEnd)]⟩).1; omega
        · have := (ih s).2; omega
      · have := (ih s).2; omega

/-! ## The header section -/

/-- The bytes behind the first line of `d` and its two line end bytes; empty if the line has more than three texts. -/
def headerSection (d : List UInt8) : List UInt8 :=
  if (textsOf (d.takeWhile (! strIsEndOfLineChar ·))).length ≤ 3 then
    (d.dropWhile (! strIsEndOfLineChar ·)).drop 2
  else []

theorem headerStart_of_pos {d : List UInt8} (hd : 0 < d.length) :
    (httpHeaderInit d).headerStart = min ((scanSpacing d 0 ⟨0, []⟩).1 + 1) (d.length - 1) :=
  if_neg (Nat.ne_of_gt hd)

theorem headerStart_of_ge {d : List UInt8} (hd : d ≠ []) (h : d.length ≤ (scanSpacing d 0 ⟨0, []⟩).1 + 1) :
    (httpHeaderInit d).headerStart = d.length - 1 := by
  rw [headerStart_of_pos (List.length_pos_of_ne_nil hd)]
  omega

theorem fields_short {s : List UInt8} (h : s.length ≤ 1) : fields s = [] := by
  apply fields_none
  apply Records.next_none_iff.mpr
  intro hr
  obtain ⟨x, c, y, hs, _, e, he, _⟩ := hr
  have := List.length_pos_of_mem he
  rw [hs] at h
  simp only [List.length_append, List.length_cons] at h; omega

theorem fields_clamped {d : List UInt8} (h : d.length ≤ (scanSpacing d 0 ⟨0, []⟩).1 + 1) :
    fields (d.drop (httpHeaderInit d).headerStart) = [] := by
  apply fields_short
  by_cases hd : d = []
  · subst hd; simp
  · rw [headerStart_of_ge hd h, List.length_drop]; omega

theorem takeWhile_line {line t : List UInt8} (hl : OneLine line) (ht : ∀ x ∈ t.head?, strIsEndOfLineChar x = true) :
    (line ++ t).takeWhile (! strIsEndOfLineChar ·) = line ∧ (line ++ t).dropWhile (! strIsEndOfLineChar ·) = t := by
  have hl' : ∀ c ∈ line, (! strIsEndOfLineChar c) = true := fun c hc => by simp [hl c hc]
  rw [List.takeWhile_append_of_pos hl', List.dropWhile_append_of_pos hl']
  cases t with
  | nil => simp
  | cons e t => simp [ht e (by simp)]

theorem exists_line (d : List UInt8) :
    ∃ line t, d = line ++ t ∧ OneLine line ∧ ∀ x ∈ t.head?, strIsEndOfLineChar x = true := by
  refine ⟨d.takeWhile (! strIsEndOfLineChar ·), d.dropWhile (! strIsEndOfLineChar ·),
    List.takeWhile_append_dropWhile.symm, fun c hc => by simpa using List.mem_takeWhile_imp hc, ?_⟩
  intro x hx
  have := List.head?_dropWhile_not (! strIsEndOfLineChar ·) d
  rw [Option.mem_def.mp hx] at this
  simpa using this

theorem headerSection_line {line t : List UInt8} (hl : OneLine line)
    (ht : ∀ x ∈ t.head?, strIsEndOfLineChar x = true) :
    headerSection (line ++ t) = if (textsOf line).length ≤ 3 then t.drop 2 else [] := by
  unfold headerSection
  rw [(takeWhile_line hl ht).1, (takeWhile_line hl ht).2]

theorem fields_headerStart (d : List UInt8) :
    fields (d.drop (httpHeaderInit d).headerStart) = fields (headerSection d) := by
  obtain ⟨line, t, rfl, hl, ht⟩ := exists_line d
  rw [headerSection_line hl ht]
  by_cases h3 : (textsOf line).length ≤ 3
  · rw [if_pos h3]
    cases t with
    | nil =>
      rw [List.append_nil]
      rw [fields_clamped (by have := (scan_no_eol line hl 0 ⟨0, []⟩).1; omega)]
      exact (fields_short (by simp)).symm
    | cons e rest =>
      obtain ⟨found, last, hs, _⟩ := scan_line hl (ht e (by simp)) rest 0 [] (by simpa using h3)
      -- `headerStart` is clamped if less than two bytes follow the line end
      rcases Nat.lt_or_ge rest.length 2 with hr | hr
      · rw [fields_clamped (by rw [hs]; simp only [List.length_append, List.length_cons]; omega)]
        exact (fields_short (by simp only [List.drop_succ_cons, List.length_drop]; omega)).symm
      · have hst : (httpHeaderInit (line ++ e :: rest)).headerStart = line.length + 2 := by
          rw [headerStart_of_pos (List.length_pos_of_ne_nil (by simp)), hs]
          simp only [List.length_append, List.length_cons]
          omega
        rw [hst, List.drop_length_add_append]
  · rw [if_neg h3, fields_clamped (by
      rw [scan_long_line hl t 0 ⟨0, []⟩ (by simp) (by simp; omega)]; omega)]
    exact (fields_short (by simp)).symm

theorem httpPairs_eq (d : List UInt8) : httpPairs d = some (fields (headerSection d)) := by
  have hh : (httpHeaderInit d).headerData = d := rfl
  have hn : (httpHeaderInit d).needle = (httpHeaderInit d).headerStart := rfl
  obtain ⟨ps, h', hl, hps, _⟩ := headerLoop_spec (d.length + 1) (httpHeaderInit d) (by
    rw [hh, List.length_drop]; omega)
  rw [hh, hn, fields_headerStart] at hps
  unfold httpPairs
  rw [hl, Option.map_some, hps]

end CWebServer
