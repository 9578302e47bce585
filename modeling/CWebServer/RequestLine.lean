import CWebServer.HeaderWords

/-!
# The tokens of the request line

The method, the path and the protocol are the first three texts of the first
line, however many there are and whatever stands between them.
-/

namespace CWebServer

/-- The runs of bytes that are no blanks, in front of the first line end. -/
def lineTokens (d : List UInt8) : List (List UInt8) := Words.words isWhite (d.takeWhile (! strIsEndOfLineChar ·))

structure ReadsTokens (d : List UInt8) (method : HttpMethodType) (methodText path protocol : S8) : Prop where
  methodText : methodText.bytes d = (lineTokens d).getD 0 []
  path : path.bytes d = (lineTokens d).getD 1 []
  protocol : protocol.bytes d = (lineTokens d).getD 2 []
  get : method = .get ↔ (lineTokens d)[0]? = some (s8 "GET")
  post : method = .post ↔ (lineTokens d)[0]? = some (s8 "POST")
  unknown : method = .unknown ↔ (lineTokens d)[0]? ≠ some (s8 "GET") ∧ (lineTokens d)[0]? ≠ some (s8 "POST")

theorem lineTokens_eq {line t : List UInt8} (hl : OneLine line)
    (ht : ∀ x ∈ t.head?, strIsEndOfLineChar x = true) : lineTokens (line ++ t) = textsOf line := by
  unfold lineTokens
  rw [(takeWhile_line hl ht).1]
  apply Words.words_congr
  intro c hc
  unfold isWhite
  rw [hl c hc, Bool.or_false]

theorem get_ne_post : s8 "GET" ≠ s8 "POST" := by decide

theorem methodOfText_cases (t : List UInt8) :
    (t = s8 "GET" ∧ methodOfText t = .get) ∨ (t ≠ s8 "GET" ∧ t = s8 "POST" ∧ methodOfText t = .post) ∨
      (t ≠ s8 "GET" ∧ t ≠ s8 "POST" ∧ methodOfText t = .unknown) := by
  unfold methodOfText
  by_cases hget : t = s8 "GET"
  · exact Or.inl ⟨hget, if_pos hget⟩
  · rw [if_neg hget]
    by_cases hpost : t = s8 "POST"
    · exact Or.inr (Or.inl ⟨hget, hpost, if_pos hpost⟩)
    · exact Or.inr (Or.inr ⟨hget, hpost, if_neg hpost⟩)

theorem reads_get {t : Option (List UInt8)} : (t.map methodOfText).getD .unknown = .get ↔ t = some (s8 "GET") := by
  cases t with
  | none => simp
  | some t =>
    rw [Option.map_some, Option.getD_some, Option.some.injEq]
    rcases methodOfText_cases t with ⟨hget, hm⟩ | ⟨hget, -, hm⟩ | ⟨hget, -, hm⟩ <;> rw [hm] <;> simp [hget]

theorem reads_post {t : Option (List UInt8)} : (t.map methodOfText).getD .unknown = .post ↔ t = some (s8 "POST") := by
  cases t with
  | none => simp
  | some t =>
    rw [Option.map_some, Option.getD_some, Option.some.injEq]
    rcases methodOfText_cases t with ⟨hget, hm⟩ | ⟨-, hpost, hm⟩ | ⟨-, hpost, hm⟩
    · rw [hm, hget]
      simp [get_ne_post]
    · rw [hm]
      simp [hpost]
    · rw [hm]
      simp [hpost]

theorem reads_unknown {t : Option (List UInt8)} :
    (t.map methodOfText).getD .unknown = .unknown ↔ t ≠ some (s8 "GET") ∧ t ≠ some (s8 "POST") := by
  have hget := reads_get (t := t)
  have hpost := reads_post (t := t)
  rw [Ne, ← hget, Ne, ← hpost]
  cases (t.map methodOfText).getD .unknown <;> simp

theorem exists_eol_split {d : List UInt8} (h : ∃ c ∈ d, strIsEndOfLineChar c = true) :
    ∃ line e rest, d = line ++ e :: rest ∧ OneLine line ∧ strIsEndOfLineChar e = true := by
  obtain ⟨line, t, rfl, hl, ht⟩ := exists_line d
  cases t with
  | nil =>
    obtain ⟨c, hc, heol⟩ := h
    rw [List.append_nil] at hc
    rw [hl c hc] at heol
    cases heol
  | cons e rest => exact ⟨line, e, rest, rfl, hl, ht e rfl⟩

theorem readsTokens_init {d : List UInt8} (h : ∃ c ∈ d, strIsEndOfLineChar c = true) :
    ReadsTokens d (httpHeaderInit d).method (httpHeaderInit d).methodText (httpHeaderInit d).path
      (httpHeaderInit d).protocol := by
  obtain ⟨line, e, rest, rfl, hl, he⟩ := exists_eol_split h
  have htokens : lineTokens (line ++ e :: rest) = textsOf line :=
    lineTokens_eq hl fun x hx => Option.some.inj hx ▸ he
  have hrequest := httpRequest_line hl he rest
  rw [← htokens] at hrequest
  simp only [httpRequest, requestOf, Prod.mk.injEq, ← List.getD_eq_getElem?_getD] at hrequest
  obtain ⟨hmethod, htext, hpath, hprotocol⟩ := hrequest
  refine ⟨htext, hpath, hprotocol, ?_, ?_, ?_⟩
  · rw [hmethod, reads_get]
  · rw [hmethod, reads_post]
  · rw [hmethod, reads_unknown]

/-- The parser in words does the same on data whose size is an `i32`. -/
theorem http_readsTokens (d : List UInt8) (h : ∃ c ∈ d, strIsEndOfLineChar c = true) :
    ReadsTokens d (httpHeaderInit d).method (httpHeaderInit d).methodText (httpHeaderInit d).path
        (httpHeaderInit d).protocol ∧
      (d.length < 2 ^ 31 → ∃ header, httpHeaderInitWords d = some header ∧
        ReadsTokens d header.method header.methodText header.path header.protocol) := by
  have hreads := readsTokens_init h
  refine ⟨hreads, fun hd => ⟨_, httpHeaderInitWords_eq ?_ hd, hreads⟩⟩
  obtain ⟨c, hc, -⟩ := h
  exact List.length_pos_of_mem hc

/-- More than three texts, with blanks in front of the first -/
theorem http_readsTokens_four : (∃ c ∈ s8 " GET /a  HTTP/1.1\tx\n", strIsEndOfLineChar c = true) ∧
    lineTokens (s8 " GET /a  HTTP/1.1\tx\n") = [s8 "GET", s8 "/a", s8 "HTTP/1.1", s8 "x"] ∧
    (httpHeaderInit (s8 " GET /a  HTTP/1.1\tx\n")).method = .get := by
  have heol : ∃ c ∈ s8 " GET /a  HTTP/1.1\tx\n", strIsEndOfLineChar c = true := ⟨chr '\n', by decide, rfl⟩
  have htokens : lineTokens (s8 " GET /a  HTTP/1.1\tx\n") = [s8 "GET", s8 "/a", s8 "HTTP/1.1", s8 "x"] := by decide
  refine ⟨heol, htokens, ?_⟩
  have hget := (http_readsTokens _ heol).1.get
  rw [htokens] at hget
  exact hget.mpr rfl

end CWebServer
