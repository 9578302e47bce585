import CWebServer.HttpFields

/-!
# Request heads

What the parser makes of a request head: it reads back what was written
(`request_roundtrip`), it sees no more of a truncated head than of the whole
one (`truncated_pairs`), and exactly when the body, a line without a colon or
the kind of line end change the headers.
-/

namespace CWebServer

open Records (encode Closed)

def crlf : List UInt8 := s8 "\r\n"

def lf : List UInt8 := s8 "\n"

def httpRequest (d : List UInt8) : HttpMethodType × List UInt8 × List UInt8 × List UInt8 :=
  let h := httpHeaderInit d
  (h.method, h.methodText.bytes d, h.path.bytes d, h.protocol.bytes d)

def methodOfText (t : List UInt8) : HttpMethodType :=
  if t = s8 "GET" then .get else if t = s8 "POST" then .post else .unknown

def requestOf (texts : List (List UInt8)) : HttpMethodType × List UInt8 × List UInt8 × List UInt8 :=
  ((texts[0]?.map methodOfText).getD .unknown, texts[0]?.getD [], texts[1]?.getD [], texts[2]?.getD [])

theorem methodOf_eq (d : List UInt8) (s : S8) : methodOf d s = methodOfText (s.bytes d) := by
  simp only [methodOf, methodOfText, strIsEqual_iff]

theorem bytes_getD (d : List UInt8) (found : List S8) (n : Nat) :
    (found[n]?.getD (.lit (s8 ""))).bytes d = (found.map (S8.bytes d))[n]?.getD [] := by
  rw [List.getElem?_map]
  cases found[n]? <;> rfl

theorem httpRequest_line {line : List UInt8} (hl : OneLine line) {e : UInt8} (he : strIsEndOfLineChar e = true)
    (rest : List UInt8) : httpRequest (line ++ e :: rest) = requestOf (textsOf line) := by
  obtain ⟨stop, found, last, hs, -, hb⟩ := scan_texts hl he rest 0 [] (Nat.zero_le _)
  have hb : found.map (S8.bytes (line ++ e :: rest)) = (textsOf line).take 3 := hb (line ++ e :: rest) rfl
  have hmethod : found[0]?.map (methodOf (line ++ e :: rest)) =
      (found.map (S8.bytes (line ++ e :: rest)))[0]?.map methodOfText := by
    rw [List.getElem?_map, Option.map_map]
    congr 1
    funext s
    exact methodOf_eq _ s
  simp only [httpRequest, httpHeaderInit, hs, List.nil_append, bytes_getD, hmethod, hb, requestOf, List.getElem?_take]
  rfl

theorem headerSection_eol {line : List UInt8} (hl : OneLine line) (h3 : (textsOf line).length ≤ 3) {e : UInt8}
    (he : strIsEndOfLineChar e = true) (t : List UInt8) : headerSection (line ++ e :: t) = t.drop 1 := by
  have ht : ∀ x ∈ (e :: t).head?, strIsEndOfLineChar x = true := fun x hx => by
    obtain rfl : e = x := by simpa using hx
    exact he
  rw [headerSection_line hl ht, if_pos h3, List.drop_succ_cons]

theorem headerSection_crlf {line : List UInt8} (hl : OneLine line) (h3 : (textsOf line).length ≤ 3)
    (t : List UInt8) : headerSection (line ++ (crlf ++ t)) = t :=
  headerSection_eol hl h3 (e := chr '\r') (by decide) (chr '\n' :: t)

theorem closed_crlf : Closed strIsEndOfLineChar crlf := by
  intro x hx
  have : x = chr '\n' := by simpa [crlf, s8] using hx.symm
  rw [this]; decide

/-! ## The body -/

structure RequestHead where
  line : List UInt8
  headerLines : List (List UInt8)
  line_oneLine : OneLine line
  line_texts : (textsOf line).length ≤ 3
  headerLines_oneLine : ∀ l ∈ headerLines, OneLine l

def RequestHead.bytes (h : RequestHead) : List UInt8 :=
  h.line ++ (crlf ++ (h.headerLines.flatMap (· ++ crlf) ++ crlf))

/-- The pairs of a head with a body are those of the head alone, and all of them lie in the head. -/
def BodyIsolated (h : RequestHead) (b : List UInt8) : Prop :=
  httpPairs (h.bytes ++ b) = httpPairs h.bytes ∧
    ∀ r ∈ headerLoop ((h.bytes ++ b).length + 1) (httpHeaderInit (h.bytes ++ b)), ∀ p ∈ r.1,
      p.1.EndsBy h.bytes.length ∧ p.2.EndsBy h.bytes.length

abbrev HasHeader (b : List UInt8) : Prop := Records.HasRecord isColon strIsEndOfLineChar b

theorem headerSection_bytes (h : RequestHead) (b : List UInt8) :
    headerSection (h.bytes ++ b) = h.headerLines.flatMap (· ++ crlf) ++ crlf ++ b := by
  have : h.bytes ++ b = h.line ++ (crlf ++ (h.headerLines.flatMap (· ++ crlf) ++ crlf ++ b)) := by
    simp [RequestHead.bytes]
  rw [this, headerSection_crlf h.line_oneLine h.line_texts]

theorem closed_lines (h : RequestHead) :
    Closed strIsEndOfLineChar (h.headerLines.flatMap (· ++ crlf) ++ crlf) :=
  (Records.closed_append (by decide)).mpr closed_crlf

theorem closed_bytes (h : RequestHead) : Closed strIsEndOfLineChar h.bytes := by
  unfold RequestHead.bytes
  rw [Records.closed_append (by simp [crlf, s8]), Records.closed_append (by simp [crlf, s8])]
  exact closed_lines h

theorem S8.EndsBy.mono {m n : Nat} (hmn : m ≤ n) {s : S8} (hs : s.EndsBy m) : s.EndsBy n := by
  cases s with
  | slice start size => exact Nat.le_trans hs hmn
  | _ => trivial

theorem lineAt_head {u b : List UInt8} (hu : Closed strIsEndOfLineChar u) (hb : ¬ HasHeader b) {i j : Nat}
    (h : LineAt (u ++ b) i j) : j < u.length := by
  by_contra hj
  have hj := Nat.le_of_not_lt hj
  have hlen := h.lt_length
  rw [List.length_append] at hlen
  have hlt := h.lt
  by_cases hi : u.length ≤ i
  · refine hb (Records.hasRecord_of_lt (i := i - u.length) (j := j - u.length) (by omega) (by omega) ?_ ?_)
    · have := h.colon
      rw [List.get_eq_getElem, List.getElem_append_right hi] at this
      exact this
    · have := h.eol
      rw [List.getElem_append_right hj] at this
      exact this
  · have hne : u ≠ [] := by intro h0; simp [h0] at hi
    have hlast := hu (u.getLast hne) (by simp [List.getLast?_eq_some_getLast hne])
    rw [List.getLast_eq_getElem] at hlast
    have hcolon := colon_not_eol _ h.colon
    rw [List.get_eq_getElem, List.getElem_append_left (Nat.lt_of_not_le hi)] at hcolon
    by_cases him : i = u.length - 1
    · subst him; rw [hcolon] at hlast; cases hlast
    · have := h.first (u.length - 1) (by rw [List.length_append]; omega) (by omega) (by omega)
      rw [List.getElem_append_left (by omega), hlast] at this
      cases this

theorem fields_append_iff {u : List UInt8} (hu : Closed strIsEndOfLineChar u) (b : List UInt8) :
    fields (u ++ b) = fields u ↔ ¬ HasHeader b := by
  rw [← hu.records_append_iff colon_not_eol b]
  refine ⟨fun h => ?_, fun h => by unfold fields; rw [h]⟩
  have hlen := congrArg List.length h
  rw [fields, fields, List.length_map, List.length_map] at hlen
  exact ((Records.records_mono (List.prefix_append u b)).eq_of_length hlen.symm).symm

theorem httpPairs_append_iff (h : RequestHead) (b : List UInt8) :
    httpPairs (h.bytes ++ b) = httpPairs h.bytes ↔ ¬ HasHeader b := by
  have hnil := headerSection_bytes h []
  rw [List.append_nil, List.append_nil] at hnil
  rw [httpPairs_eq, httpPairs_eq, headerSection_bytes, hnil, Option.some.injEq]
  exact fields_append_iff (closed_lines h) b

/-- The body leaves the headers alone exactly if no colon of it has a line end behind it. -/
theorem body_isolated_iff (h : RequestHead) (b : List UInt8) : BodyIsolated h b ↔ ¬ HasHeader b := by
  refine ⟨fun hi => (httpPairs_append_iff h b).mp hi.1, fun hb => ⟨(httpPairs_append_iff h b).mpr hb, ?_⟩⟩
  intro r hr p hp
  obtain ⟨ps, h', hl, _, hin⟩ := headerLoop_spec ((h.bytes ++ b).length + 1) (httpHeaderInit (h.bytes ++ b)) (by
    simp only [List.length_drop, httpHeaderInit]; omega)
  rw [hl, Option.mem_def, Option.some.injEq] at hr
  obtain ⟨i, j, hline, hk, hv⟩ := hin p (by rw [← hr] at hp; exact hp)
  have hj := lineAt_head (closed_bytes h) hb hline
  exact ⟨hk.mono (Nat.le_of_lt (Nat.lt_trans hline.lt hj)), hv.mono (Nat.le_of_lt hj)⟩

theorem oneLine_of_all {u : List UInt8} (h : u.all (! strIsEndOfLineChar ·) = true) : OneLine u := by
  simpa using h

def postHead : RequestHead where
  line := s8 "POST / HTTP/1.1"
  headerLines := [s8 "Host: a"]
  line_oneLine := oneLine_of_all rfl
  line_texts := by decide
  headerLines_oneLine := List.forall_mem_singleton.mpr (oneLine_of_all rfl)

theorem body_not_isolated : ¬ BodyIsolated postHead (s8 "admin: 1\r\n") := by
  intro h
  exact absurd h.1 (by decide)

/-! ## Truncated heads -/

theorem headerSection_mono (d r : List UInt8) : headerSection d <+: headerSection (d ++ r) := by
  obtain ⟨line, t, rfl, hl, ht⟩ := exists_line d
  cases t with
  | nil =>
    rw [headerSection_line hl ht]
    simp
  | cons e t =>
    rw [List.append_assoc, headerSection_line hl ht, headerSection_line hl (by simpa using ht)]
    split
    · rw [List.cons_append, List.drop_succ_cons, List.drop_succ_cons]
      rw [List.drop_append]
      exact List.prefix_append _ _
    · exact List.prefix_refl _

/-- A truncated head yields the first pairs of the whole, whatever the bytes are and wherever the cut falls. -/
theorem truncated_pairs (p r : List UInt8) :
    ∃ ps qs, httpPairs p = some ps ∧ httpPairs (p ++ r) = some qs ∧ ps <+: qs := by
  refine ⟨_, _, httpPairs_eq p, httpPairs_eq (p ++ r), ?_⟩
  exact (Records.records_mono (headerSection_mono p r)).map trimPair

/-! ## Header lines -/

def HeadersOneLine (d : List UInt8) : Prop :=
  ∀ ps ∈ httpPairs d, ∀ p ∈ ps, OneLine p.1 ∧ OneLine p.2

/-- The header section has a line without a colon, not only of spacing characters, and a header behind it. -/
abbrev HasStrayLine (d : List UInt8) : Prop :=
  Records.Stray isColon strIsEndOfLineChar strIsSpacingChar (headerSection d)

theorem oneLine_dropWhile {u : List UInt8} (h : OneLine u) : OneLine (u.dropWhile isWhite) :=
  fun c hc => h c ((List.dropWhile_suffix _).subset hc)

theorem headersOneLine_iff (d : List UInt8) : HeadersOneLine d ↔ ¬ HasStrayLine d := by
  rw [HasStrayLine, ← Records.trim_oneLine_iff colon_not_eol, HeadersOneLine, httpPairs_eq]
  simp only [Option.mem_def, Option.some.injEq, forall_eq', fields, List.forall_mem_map]
  refine ⟨fun h p hp => (h p hp).1, fun h p hp => ⟨h p hp, ?_⟩⟩
  exact oneLine_dropWhile (Records.value_oneLine _ p hp)

theorem stray_line_in_key : ¬ HeadersOneLine (s8 "GET / HTTP/1.1\r\nfoo\r\nHost: a\r\n\r\n") := by
  intro h
  have := (h [(s8 "foo\r\nHost", s8 "a")] (by decide) _ (List.mem_singleton_self _)).1
  exact absurd (this (chr '\r') (by decide)) (by decide)

/-! ## Kinds of line end -/

structure WellFormedHead where
  line : List UInt8
  headers : List (List UInt8 × List UInt8)
  line_oneLine : OneLine line
  line_texts : (textsOf line).length = 3
  name : ∀ p ∈ headers, ∀ c ∈ p.1, isColon c = false ∧ strIsEndOfLineChar c = false
  value : ∀ p ∈ headers, OneLine p.2

def WellFormedHead.bytes (h : WellFormedHead) : List UInt8 :=
  h.line ++ (crlf ++ (encode (chr ':') crlf h.headers ++ crlf))

def crlfToLf : List UInt8 → List UInt8
  | [] => []
  | [c] => [c]
  | c :: c' :: u => if c = chr '\r' ∧ c' = chr '\n' then c' :: crlfToLf u else c :: crlfToLf (c' :: u)

def LineEndIndependent (h : WellFormedHead) : Prop :=
  httpRequest (crlfToLf h.bytes) = httpRequest h.bytes ∧ httpPairs (crlfToLf h.bytes) = httpPairs h.bytes

theorem crlfToLf_crlf (u : List UInt8) : crlfToLf (crlf ++ u) = lf ++ crlfToLf u := by
  show crlfToLf (chr '\r' :: chr '\n' :: u) = _
  rw [crlfToLf, if_pos ⟨rfl, rfl⟩]; rfl

theorem crlfToLf_oneLine {l : List UInt8} (hl : OneLine l) (u : List UInt8) :
    crlfToLf (l ++ u) = l ++ crlfToLf u := by
  induction l with
  | nil => rfl
  | cons c l ih =>
    have hc : c ≠ chr '\r' := by
      intro h
      have := hl c (by simp)
      rw [h] at this; revert this; decide
    have ih := ih fun c hc => hl c (List.mem_cons_of_mem _ hc)
    rw [List.cons_append, List.cons_append, ← ih]
    cases l ++ u with
    | nil => rfl
    | cons c' u => rw [crlfToLf, if_neg (fun h => hc h.1)]

theorem crlfToLf_encode {ps : List (List UInt8 × List UInt8)} (hn : ∀ p ∈ ps, OneLine p.1)
    (hv : ∀ p ∈ ps, OneLine p.2) (u : List UInt8) :
    crlfToLf (encode (chr ':') crlf ps ++ u) = encode (chr ':') lf ps ++ crlfToLf u := by
  induction ps with
  | nil => rfl
  | cons p ps ih =>
    obtain ⟨k, v⟩ := p
    have ih := ih (fun p hp => hn p (List.mem_cons_of_mem _ hp)) (fun p hp => hv p (List.mem_cons_of_mem _ hp))
    have hkv : OneLine (k ++ chr ':' :: v) := by
      intro c hc
      rcases List.mem_append.mp hc with hc | hc
      · exact hn (k, v) (by simp) c hc
      · rcases List.mem_cons.mp hc with rfl | hc
        · decide
        · exact hv (k, v) (by simp) c hc
    rw [Records.encode_cons, Records.encode_cons]
    have : ∀ (eol r s : List UInt8),
        k ++ chr ':' :: (v ++ (eol ++ r)) ++ s = (k ++ chr ':' :: v) ++ (eol ++ (r ++ s)) := by
      intro eol r s; simp
    rw [this, this, crlfToLf_oneLine hkv, crlfToLf_crlf, ih]

theorem crlfToLf_bytes (h : WellFormedHead) :
    crlfToLf h.bytes = h.line ++ (lf ++ (encode (chr ':') lf h.headers ++ lf)) := by
  unfold WellFormedHead.bytes
  rw [crlfToLf_oneLine h.line_oneLine, crlfToLf_crlf,
    crlfToLf_encode (fun p hp c hc => (h.name p hp c hc).2) h.value]
  have := crlfToLf_crlf []
  rw [List.append_nil] at this
  rw [this]; rfl

section
variable {eol : List UInt8} (hne : eol ≠ []) (heol : ∀ c ∈ eol, strIsEndOfLineChar c = true)
include hne heol

theorem fields_encode {ps : List (List UInt8 × List UInt8)}
    (hk : ∀ p ∈ ps, ∀ c ∈ p.1, isColon c = false ∧ strIsEndOfLineChar c = false) (hv : ∀ p ∈ ps, OneLine p.2)
    {b : List UInt8} (hb : ∀ c ∈ b, strIsEndOfLineChar c = true) :
    fields (encode (chr ':') eol ps ++ b) = ps.map trimPair := by
  have hbs : ∀ c ∈ b, isColon c = false := fun c hc => eol_not_colon (hb c hc)
  rw [fields, Records.records_encode (by decide) (by decide) hne heol hk hv hb hbs]

theorem fields_encode_cons {k v : List UInt8} {ps : List (List UInt8 × List UInt8)}
    (hks : ∀ c ∈ k, isColon c = false) (hv' : OneLine v)
    (hk : ∀ p ∈ ps, ∀ c ∈ p.1, isColon c = false ∧ strIsEndOfLineChar c = false) (hv : ∀ p ∈ ps, OneLine p.2)
    {b : List UInt8} (hb : ∀ c ∈ b, strIsEndOfLineChar c = true) :
    fields (k ++ chr ':' :: (v ++ (eol ++ encode (chr ':') eol ps)) ++ b) = trimPair (k, v) :: ps.map trimPair := by
  rw [fields, Records.records_encode_cons (by decide) (by decide) hne heol
    (fun p hp c hc => (hk p hp c hc).2) hks hv' hb, List.map_cons]
  congr 1
  split
  · rename_i h; rw [h, Records.records_nil]
  · exact fields_encode hne heol hk hv hb

end

theorem crlf_eol : ∀ c ∈ crlf, strIsEndOfLineChar c = true := List.all_eq_true.mp rfl

theorem lf_eol : ∀ c ∈ lf, strIsEndOfLineChar c = true := List.all_eq_true.mp rfl

theorem trim_cons_eq_iff {c : UInt8} (hc : strIsEndOfLineChar c = false) (u : List UInt8) :
    u.dropWhile isWhite = (c :: u).dropWhile isWhite ↔ strIsSpacingChar c = true := by
  by_cases h : strIsSpacingChar c = true
  · rw [List.dropWhile_cons_of_pos (by simp [isWhite, h])]
    simp [h]
  · rw [List.dropWhile_cons_of_neg (by simp [isWhite, h, hc])]
    refine ⟨fun he => ?_, fun h' => absurd h' h⟩
    have := congrArg List.length he
    have := List.length_dropWhile_le isWhite u
    rw [List.length_cons] at *
    omega

/-- Without its first colon a line that begins with it yields no pair with an empty key and the same value. -/
theorem fields_lost_colon {v : List UInt8} (hv : OneLine v) {ps : List (List UInt8 × List UInt8)}
    (hk : ∀ p ∈ ps, ∀ c ∈ p.1, isColon c = false ∧ strIsEndOfLineChar c = false) (hvs : ∀ p ∈ ps, OneLine p.2) :
    fields (v ++ (lf ++ (encode (chr ':') lf ps ++ lf))) ≠ trimPair ([], v) :: ps.map trimPair := by
  intro h
  have hlf : ∀ c ∈ lf, isColon c = false := fun c hc => eol_not_colon (lf_eol c hc)
  by_cases hc : ∃ c ∈ v, isColon c = true
  · -- the value's own colon ends the key now
    obtain ⟨k, c, v', rfl, hks, hcc⟩ := Records.exists_cut hc
    obtain rfl : c = chr ':' := by simpa [isColon] using hcc
    have hv' : OneLine v' := (List.forall_mem_cons.mp (List.forall_mem_append.mp hv).2).2
    have hline : k ++ chr ':' :: v' ++ (lf ++ (encode (chr ':') lf ps ++ lf)) =
        k ++ chr ':' :: (v' ++ (lf ++ encode (chr ':') lf ps)) ++ lf := by simp
    rw [hline, fields_encode_cons (by decide) lf_eol hks hv' hk hvs lf_eol] at h
    simp only [List.cons.injEq, and_true, trimPair, Prod.mk.injEq, List.dropWhile_nil,
      List.dropWhile_eq_nil_iff] at h
    obtain ⟨hwhite, hvalue⟩ := h
    rw [List.dropWhile_append_of_pos hwhite, trim_cons_eq_iff (by decide)] at hvalue
    exact absurd hvalue (by decide)
  · have hvc : ∀ c ∈ v, isColon c = false := fun c hm => by
      by_contra hn; exact hc ⟨c, hm, by simpa using hn⟩
    cases ps with
    | nil =>
      have hnone : ∀ c ∈ v ++ (lf ++ (encode (chr ':') lf [] ++ lf)), isColon c = false :=
        List.forall_mem_append.mpr ⟨hvc, List.forall_mem_append.mpr ⟨hlf, hlf⟩⟩
      rw [fields_no_colon hnone] at h
      cases h
    | cons p ps =>
      -- the line becomes part of the next key
      obtain ⟨n, w⟩ := p
      obtain ⟨hn, hks⟩ := List.forall_mem_cons.mp hk
      obtain ⟨hw, hws⟩ := List.forall_mem_cons.mp hvs
      have hkey : ∀ c ∈ v ++ lf ++ n, isColon c = false :=
        List.forall_mem_append.mpr ⟨List.forall_mem_append.mpr ⟨hvc, hlf⟩, fun c hm => (hn c hm).1⟩
      have hline : v ++ (lf ++ (encode (chr ':') lf ((n, w) :: ps) ++ lf)) =
          v ++ lf ++ n ++ chr ':' :: (w ++ (lf ++ encode (chr ':') lf ps)) ++ lf := by
        rw [Records.encode_cons]; simp
      rw [hline, fields_encode_cons (by decide) lf_eol hkey hw hks hws lf_eol] at h
      have hlen := congrArg List.length h
      simp at hlen

theorem headerSection_lf (h : WellFormedHead) :
    headerSection (crlfToLf h.bytes) = (encode (chr ':') lf h.headers ++ lf).drop 1 := by
  rw [crlfToLf_bytes]
  exact headerSection_eol h.line_oneLine (by rw [h.line_texts]) (e := chr '\n') (by decide) _

theorem httpRequest_lf (h : WellFormedHead) : httpRequest (crlfToLf h.bytes) = httpRequest h.bytes := by
  have hlf := httpRequest_line h.line_oneLine (e := chr '\n') (by decide) (encode (chr ':') lf h.headers ++ lf)
  have hcr := httpRequest_line h.line_oneLine (e := chr '\r') (by decide)
    (chr '\n' :: (encode (chr ':') crlf h.headers ++ crlf))
  rw [crlfToLf_bytes]
  exact hlf.trans hcr.symm

/-- Without its first byte a list of headers is read back only if that byte would be trimmed. -/
theorem fields_drop_one_iff {ps : List (List UInt8 × List UInt8)}
    (hn : ∀ p ∈ ps, ∀ c ∈ p.1, isColon c = false ∧ strIsEndOfLineChar c = false) (hv : ∀ p ∈ ps, OneLine p.2) :
    fields ((encode (chr ':') lf ps ++ lf).drop 1) = ps.map trimPair ↔
      ∀ p ∈ ps.head?, ∃ c ∈ p.1.head?, strIsSpacingChar c = true := by
  cases ps with
  | nil =>
    have : fields ((encode (chr ':') lf [] ++ lf).drop 1) = [] := fields_short (by decide)
    rw [List.map_nil, this]
    simp
  | cons p ps =>
    obtain ⟨n, v⟩ := p
    obtain ⟨hn₁, hns⟩ := List.forall_mem_cons.mp hn
    obtain ⟨hv₁, hvs⟩ := List.forall_mem_cons.mp hv
    simp only [List.head?_cons, Option.mem_def, Option.some.injEq, forall_eq', Records.encode_cons]
    cases n with
    | nil =>
      simp only [List.head?_nil, reduceCtorEq, false_and, exists_false, iff_false]
      have := fields_lost_colon hv₁ hns hvs
      simpa using this
    | cons c n =>
      obtain ⟨hc, hn₁⟩ := List.forall_mem_cons.mp hn₁
      have hf := fields_encode_cons (by decide) lf_eol (fun x hx => (hn₁ x hx).1) hv₁ hns hvs lf_eol
      rw [List.cons_append, List.cons_append, List.drop_succ_cons, List.drop_zero, hf]
      simp only [List.map_cons, List.cons.injEq, and_true, trimPair, Prod.mk.injEq]
      rw [trim_cons_eq_iff hc.2]
      simp

/-- The kind of line end makes no difference exactly if there is no header, or the first name begins with a
spacing character. -/
theorem line_end_independent_iff (h : WellFormedHead) :
    LineEndIndependent h ↔ ∀ p ∈ h.headers.head?, ∃ c ∈ p.1.head?, strIsSpacingChar c = true := by
  have hcrlf : headerSection h.bytes = encode (chr ':') crlf h.headers ++ crlf :=
    headerSection_crlf h.line_oneLine (by rw [h.line_texts]) _
  rw [LineEndIndependent, httpPairs_eq, httpPairs_eq, hcrlf, headerSection_lf,
    fields_encode (by decide) crlf_eol h.name h.value crlf_eol, Option.some.injEq, fields_drop_one_iff h.name h.value]
  exact and_iff_right (httpRequest_lf h)

def getHead : WellFormedHead where
  line := s8 "GET / HTTP/1.1"
  headers := [(s8 "Host", s8 " a")]
  line_oneLine := oneLine_of_all rfl
  line_texts := by decide
  name := List.forall_mem_singleton.mpr fun c hc =>
    ⟨by simpa using List.all_eq_true.mp (show (s8 "Host").all (! isColon ·) = true from rfl) c hc,
      oneLine_of_all (u := s8 "Host") rfl c hc⟩
  value := List.forall_mem_singleton.mpr (oneLine_of_all rfl)

theorem line_feed_dependent : ¬ LineEndIndependent getHead := by
  intro h
  exact absurd h.2 (by decide)

/-! ## Reading back a request -/

def IsToken (t : List UInt8) : Prop := t ≠ [] ∧ ∀ c ∈ t, strIsSpacingChar c = false ∧ strIsEndOfLineChar c = false

def NotSpaced (u : List UInt8) : Prop := ∀ c ∈ u.head?, strIsSpacingChar c = false

structure Request where
  method : List UInt8
  path : List UInt8
  protocol : List UInt8
  headers : List (List UInt8 × List UInt8)
  method_token : IsToken method
  path_token : IsToken path
  protocol_token : IsToken protocol
  name : ∀ p ∈ headers, (∀ c ∈ p.1, isColon c = false ∧ strIsEndOfLineChar c = false) ∧ NotSpaced p.1
  value : ∀ p ∈ headers, OneLine p.2 ∧ NotSpaced p.2

/-- `name: value` as name and raw value. -/
def headerLine (p : List UInt8 × List UInt8) : List UInt8 × List UInt8 := (p.1, chr ' ' :: p.2)

def Request.line (r : Request) : List UInt8 := r.method ++ chr ' ' :: (r.path ++ chr ' ' :: r.protocol)

def Request.bytes (r : Request) : List UInt8 :=
  r.line ++ (crlf ++ (encode (chr ':') crlf (r.headers.map headerLine) ++ crlf))

theorem textsOf_line (r : Request) : textsOf r.line = [r.method, r.path, r.protocol] := by
  have hm := r.method_token; have hp := r.path_token; have hq := r.protocol_token
  have hsp : strIsSpacingChar (chr ' ') = true := by decide
  unfold Request.line
  rw [textsOf_word_spacing (fun c hc => (hm.2 c hc).1) hm.1 hsp,
    textsOf_word_spacing (fun c hc => (hp.2 c hc).1) hp.1 hsp, textsOf_word (fun c hc => (hq.2 c hc).1) hq.1]

theorem oneLine_line (r : Request) : OneLine r.line := by
  intro c hc
  simp only [Request.line, List.mem_append, List.mem_cons] at hc
  rcases hc with hc | rfl | hc | rfl | hc
  · exact (r.method_token.2 c hc).2
  · decide
  · exact (r.path_token.2 c hc).2
  · decide
  · exact (r.protocol_token.2 c hc).2

theorem dropWhile_notSpaced {u : List UInt8} (h1 : OneLine u) (h2 : NotSpaced u) : u.dropWhile isWhite = u := by
  cases u with
  | nil => rfl
  | cons c u => exact List.dropWhile_cons_of_neg (by simp [isWhite, h1 c (by simp), h2 c (by simp)])

theorem trimPair_headerLine (r : Request) : (r.headers.map headerLine).map trimPair = r.headers := by
  rw [List.map_map]
  refine (List.map_congr_left fun p hp => ?_).trans (List.map_id _)
  have hname := dropWhile_notSpaced (fun c hc => ((r.name p hp).1 c hc).2) (r.name p hp).2
  have hvalue := dropWhile_notSpaced (r.value p hp).1 (r.value p hp).2
  rw [Function.comp_apply, headerLine, trimPair, hname, List.dropWhile_cons_of_pos (by decide), hvalue]
  rfl

/-- Reading back a written request: the three texts, and each header once and in order. -/
theorem request_roundtrip (r : Request) :
    httpRequest r.bytes = (methodOfText r.method, r.method, r.path, r.protocol) ∧
      httpPairs r.bytes = some r.headers := by
  have h3 : (textsOf r.line).length ≤ 3 := by rw [textsOf_line]; exact Nat.le_refl _
  refine ⟨?_, ?_⟩
  · exact (httpRequest_line (oneLine_line r) (e := chr '\r') (by decide) _).trans (by rw [textsOf_line]; rfl)
  · have hs : headerSection r.bytes = _ := headerSection_crlf (oneLine_line r) h3 _
    have hname : ∀ p ∈ r.headers.map headerLine, ∀ c ∈ p.1, isColon c = false ∧ strIsEndOfLineChar c = false := by
      intro p hp
      obtain ⟨q, hq, rfl⟩ := List.mem_map.mp hp
      exact (r.name q hq).1
    have hvalue : ∀ p ∈ r.headers.map headerLine, OneLine p.2 := by
      intro p hp c hc
      obtain ⟨q, hq, rfl⟩ := List.mem_map.mp hp
      rcases List.mem_cons.mp hc with rfl | hc
      · decide
      · exact (r.value q hq).1 c hc
    rw [httpPairs_eq, hs, fields_encode (by decide) crlf_eol hname hvalue crlf_eol, trimPair_headerLine]

/-! ## Where the headers start -/

/-- `_headerStart` and `_needle` are the index behind the line's CRLF, or the last index if nothing follows. -/
def StartsBehindLine (line rest : List UInt8) : Prop :=
  let d := line ++ (crlf ++ rest)
  let start := if rest = [] then d.length - 1 else line.length + 2
  (httpHeaderInit d).headerStart = start ∧ (httpHeaderInit d).needle = start

theorem length_crlf (line rest : List UInt8) : (line ++ (crlf ++ rest)).length = line.length + 2 + rest.length := by
  have htwo : crlf.length = 2 := rfl
  rw [List.length_append, List.length_append, htwo, Nat.add_assoc]

theorem headerStart_crlf {line : List UInt8} (hl : OneLine line) (rest : List UInt8) :
    (httpHeaderInit (line ++ (crlf ++ rest))).headerStart =
      if (textsOf line).length ≤ 3 then min (line.length + 2) (line.length + 1 + rest.length)
      else line.length + 1 + rest.length := by
  have hlen := length_crlf line rest
  rw [headerStart_of_pos (by omega), hlen]
  by_cases h3 : (textsOf line).length ≤ 3
  · obtain ⟨found, last, hs, _⟩ := scan_line hl (e := chr '\r') (by decide) (chr '\n' :: rest) 0 [] (by simpa using h3)
    change scanSpacing (line ++ (crlf ++ rest)) 0 _ = _ at hs
    rw [hs, if_pos h3]
    dsimp only
    congr 1 <;> omega
  · rw [scan_long_line hl (crlf ++ rest) 0 ⟨0, []⟩ (Nat.zero_le _) (by simpa using h3), if_neg h3, hlen]
    omega

/-- A fourth text on the request line moves the start to the last byte. -/
theorem startsBehindLine_iff {line : List UInt8} (hl : OneLine line) (rest : List UInt8) :
    StartsBehindLine line rest ↔ (textsOf line).length ≤ 3 ∨ rest.length ≤ 1 := by
  have hstart := headerStart_crlf hl rest
  have hneedle : (httpHeaderInit (line ++ (crlf ++ rest))).needle =
      (httpHeaderInit (line ++ (crlf ++ rest))).headerStart := rfl
  unfold StartsBehindLine
  dsimp only
  rw [hneedle, and_self, hstart, length_crlf]
  cases rest with
  | nil => simp
  | cons c rest =>
    rw [if_neg (List.cons_ne_nil c rest), List.length_cons]
    by_cases h3 : (textsOf line).length ≤ 3
    · simp only [h3, if_true, true_or, iff_true]; omega
    · simp only [h3, if_false, false_or]; omega

theorem startsBehindLine_iff_short : StartsBehindLine (s8 "GET / HTTP/1.1") (s8 "Host: a\r\n") ↔
    (textsOf (s8 "GET / HTTP/1.1")).length ≤ 3 ∨ (s8 "Host: a\r\n").length ≤ 1 :=
  startsBehindLine_iff (oneLine_of_all (by decide)) _

theorem not_startsBehindLine_fourTexts : ¬ StartsBehindLine (s8 "GET / HTTP/1.1 x") (s8 "Host: a\r\n") := by
  unfold StartsBehindLine
  decide

end CWebServer
