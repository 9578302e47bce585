import CWebServer.UrlSound

/-!
# Query and fragment of a URL

The search for `?#` is made in an empty slice, so that the path takes in all of
the rest and nothing is left for the query and the fragment.
-/

namespace CWebServer

/-- What stands behind the mark of an optional part. -/
def markedText (mark : Char) : Option (List UInt8) → List UInt8
  | some text => chr mark :: text
  | none => []

/-- The host may be followed by any number of digits, and the path may hold every byte but the two marks. -/
structure TailUrl where
  scheme : List UInt8
  host : List UInt8
  port : List UInt8
  path : List UInt8
  query : Option (List UInt8)
  fragment : Option (List UInt8)
  scheme_ne : scheme ≠ []
  scheme_colon : chr ':' ∉ scheme
  host_ne : host ≠ []
  host_plain : Avoids host (s8 "/@?#")
  port_number : port.all strIsNumberChar = true
  path_start : path.head? = some (chr '/')
  path_plain : Avoids path (s8 "?#")
  query_ne : query ≠ some []
  query_plain : ∀ text ∈ query, chr '#' ∉ text
  fragment_ne : fragment ≠ some []
  size : (urlText scheme
    (host ++ chr ':' :: port ++ (path ++ (markedText '?' query ++ markedText '#' fragment)))).length < 2 ^ 63

namespace TailUrl

def tail (u : TailUrl) : List UInt8 := u.path ++ (markedText '?' u.query ++ markedText '#' u.fragment)

def rest (u : TailUrl) : List UInt8 := u.host ++ chr ':' :: u.port ++ u.tail

def text (u : TailUrl) : List UInt8 := urlText u.scheme u.rest

end TailUrl

/-- An absent part is read as the empty text. -/
structure SplitOff (u : TailUrl) : Prop where
  error : (urlFromStr u.text).error = .ok
  path : (urlFromStr u.text).path = u.path
  query : (urlFromStr u.text).query = u.query.getD []
  fragment : (urlFromStr u.text).fragment = u.fragment.getD []
  plain : Avoids (urlFromStr u.text).path (s8 "?#")

/-! ## Behind the host -/

variable {url : List UInt8}

theorem urlParsePath_tail (url : List UInt8) (out : Url) :
    (urlParsePath url out).2.query = out.query ∧ (urlParsePath url out).2.fragment = out.fragment := by
  have hneg : ¬ (0 : Int) ≤ -1 := by decide
  unfold urlParsePath
  simp only [strFind_slice, hneg, if_false]
  split
  · split <;> exact ⟨rfl, rfl⟩
  · exact ⟨rfl, rfl⟩

theorem urlParseHostPort_tail (url : List UInt8) (out : Url) :
    (urlParseHostPort url out).2.query = out.query ∧ (urlParseHostPort url out).2.fragment = out.fragment := by
  unfold urlParseHostPort
  dsimp only
  split
  · split
    · exact ⟨rfl, rfl⟩
    · exact urlParsePath_tail _ _
  · exact urlParsePath_tail _ _

/-- With an `@` anywhere in the rest nothing is left for the host. -/
theorem urlParseUserPass_at (h : chr '@' ∈ url) (out : Url) :
    (urlParseUserPass url out).1 = [] ∧ (urlParseUserPass url out).2.path = out.path ∧
      (urlParseUserPass url out).2.query = out.query ∧ (urlParseUserPass url out).2.fragment = out.fragment := by
  have hslice : ∀ start, strSubStr url start 0 = [] := fun start => by
    rw [strSubStr_eq, List.take_zero]
  unfold urlParseUserPass
  simp only [strFindChar_nonneg h, if_true, hslice]
  split <;> split <;> exact ⟨rfl, rfl, rfl, rfl⟩

theorem urlParseHostPort_nil (out : Url) : (urlParseHostPort [] out).2.path = out.path := by
  unfold urlParseHostPort urlHostPort
  simp [strFindChar_of_notMem, strSubStr, wrap64]

/-- Where the path is the whole rest behind the first slash. -/
theorem urlParseHostPort_slash {p q : Nat} (hport : strFindChar url (chr ':') = p)
    (hpath : strFindChar url (chr '/') = q) (hpq : p < q) (hq : q < url.length) (hsize : url.length < 2 ^ 63) (out : Url) :
    (urlParseHostPort url out).2.error = out.error ∧ (urlParseHostPort url out).2.path = url.drop q := by
  have hslice := urlParsePath_slice hpath hq (by omega)
  unfold urlParseHostPort
  dsimp only
  rw [hostPort_slices hport hpath hpq (by omega)]
  dsimp only
  split
  · rename_i hp
    have hhost : ¬ (strSubStr url 0 p).length = 0 := by
      rw [strSubStr_eq, List.drop_zero, List.length_take]
      omega
    rw [if_neg hhost, hslice]
    exact ⟨rfl, rfl⟩
  · rw [hslice]
    exact ⟨rfl, rfl⟩

/-! ## The whole URL -/

theorem urlDefaults_tail {out : Url} (h : out.path ≠ []) :
    (urlDefaults out).error = out.error ∧ (urlDefaults out).path = out.path ∧
      (urlDefaults out).query = out.query ∧ (urlDefaults out).fragment = out.fragment := by
  have hpos : ¬ out.path.length = 0 := fun h0 => h (List.length_eq_zero_iff.mp h0)
  unfold urlDefaults
  simp only [hpos, if_false]
  split <;> exact ⟨rfl, rfl, rfl, rfl⟩

namespace TailUrl
variable {u : TailUrl}

theorem size_rest (u : TailUrl) : u.rest.length < 2 ^ 63 := by
  have h := u.size
  unfold urlText at h
  rw [List.length_append, List.length_append] at h
  unfold rest tail
  omega

theorem mem_rest_at (h : chr '@' ∈ u.path) : chr '@' ∈ u.rest := by
  unfold rest tail
  simp [h]

theorem notMem_port (u : TailUrl) {c : UInt8} (hc : strIsNumberChar c = false) : c ∉ u.port := by
  intro hmem
  rw [List.all_eq_true.mp u.port_number c hmem] at hc
  cases hc

theorem notMem_rest_at (h : chr '@' ∉ u.path) (hquery : u.query = none) (hfragment : u.fragment = none) :
    chr '@' ∉ u.rest := by
  have hhost : chr '@' ∉ u.host := u.host_plain _ (by decide)
  have hport : chr '@' ∉ u.port := u.notMem_port rfl
  have hcolon : chr '@' ≠ chr ':' := by decide
  unfold rest tail
  simp [h, hhost, hport, hcolon, hquery, hfragment, markedText]

theorem path_eq (u : TailUrl) : ∃ text, u.path = chr '/' :: text := List.head?_eq_some_iff.mp u.path_start

theorem find_slash (u : TailUrl) : strFindChar u.rest (chr '/') = (u.host ++ chr ':' :: u.port).length := by
  obtain ⟨text, htext⟩ := u.path_eq
  have hhost : chr '/' ∉ u.host := u.host_plain _ (by decide)
  have hcolon : chr '/' ≠ chr ':' := by decide
  have hport : chr '/' ∉ u.port := u.notMem_port rfl
  have hnot : chr '/' ∉ u.host ++ chr ':' :: u.port := by
    simp [hhost, hcolon, hport]
  unfold rest tail
  rw [htext, List.cons_append]
  exact strFindChar_append hnot

theorem find_colon (u : TailUrl) :
    ∃ p < (u.host ++ chr ':' :: u.port).length, strFindChar u.rest (chr ':') = p := by
  have hmem : chr ':' ∈ u.host ++ chr ':' :: u.port := List.mem_append_right _ List.mem_cons_self
  obtain ⟨a, b, hab, ha⟩ := List.eq_append_cons_of_mem hmem
  refine ⟨a.length, ?_, ?_⟩
  · rw [hab, List.length_append, List.length_cons]
    omega
  · unfold rest
    rw [hab, List.append_assoc, List.cons_append]
    exact strFindChar_append ha

theorem tail_ne (u : TailUrl) : u.tail ≠ [] := by
  obtain ⟨text, htext⟩ := u.path_eq
  unfold tail
  rw [htext]
  exact List.cons_ne_nil _ _

theorem urlFromStr_text (u : TailUrl) :
    urlFromStr u.text =
      if (urlParseUserPass u.rest { scheme := u.scheme, path := s8 "/" }).2.error = .ok then
        urlDefaults (urlParseHostPort (urlParseUserPass u.rest { scheme := u.scheme, path := s8 "/" }).1
          (urlParseUserPass u.rest { scheme := u.scheme, path := s8 "/" }).2).2
      else (urlParseUserPass u.rest { scheme := u.scheme, path := s8 "/" }).2 := by
  have hscheme : urlParseScheme (urlText u.scheme u.rest) { path := s8 "/" } = (u.rest, _) :=
    urlParseScheme_text u.scheme_ne u.scheme_colon u.size _
  split
  · rename_i hok
    exact urlFromStr_of_rest hscheme rfl rfl hok
  · rename_i hbad
    unfold text urlFromStr
    rw [hscheme]
    simp [hbad]

/-- The scan stops at the `@` and the path is the default. -/
theorem urlFromStr_at (hat : chr '@' ∈ u.rest) :
    (urlFromStr u.text).path = s8 "/" ∧ (urlFromStr u.text).query = [] ∧ (urlFromStr u.text).fragment = [] := by
  obtain ⟨hnil, hpath, hquery, hfragment⟩ := urlParseUserPass_at hat { scheme := u.scheme, path := s8 "/" }
  rw [urlFromStr_text]
  split
  · rw [hnil]
    have hpath' := (urlParseHostPort_nil (urlParseUserPass u.rest { scheme := u.scheme, path := s8 "/" }).2).trans hpath
    have htail := urlParseHostPort_tail [] (urlParseUserPass u.rest { scheme := u.scheme, path := s8 "/" }).2
    have hne : s8 "/" ≠ [] := by decide
    obtain ⟨-, hd, hdq, hdf⟩ := urlDefaults_tail (by rw [hpath']; exact hne)
    rw [hd, hdq, hdf, hpath', htail.1, htail.2]
    exact ⟨rfl, hquery, hfragment⟩
  · exact ⟨hpath, hquery, hfragment⟩

/-- The path is all that follows the port. -/
theorem urlFromStr_plain (hat : chr '@' ∉ u.rest) :
    (urlFromStr u.text).error = .ok ∧ (urlFromStr u.text).path = u.tail ∧
      (urlFromStr u.text).query = [] ∧ (urlFromStr u.text).fragment = [] := by
  obtain ⟨p, hp, hcolon⟩ := u.find_colon
  have hlen : (u.host ++ chr ':' :: u.port).length < u.rest.length := by
    unfold rest
    rw [@List.length_append _ (u.host ++ chr ':' :: u.port) u.tail]
    exact Nat.lt_add_of_pos_right (List.length_pos_iff.mpr u.tail_ne)
  have hslash := urlParseHostPort_slash hcolon u.find_slash hp hlen u.size_rest
  have hdrop : u.rest.drop (u.host ++ chr ':' :: u.port).length = u.tail := List.drop_left
  rw [urlFromStr_text, urlParseUserPass_none hat]
  simp only [if_true]
  obtain ⟨herror, hpath⟩ := hslash { scheme := u.scheme, path := s8 "/" }
  have htail := urlParseHostPort_tail u.rest { scheme := u.scheme, path := s8 "/" }
  rw [hdrop] at hpath
  obtain ⟨hd, hdp, hdq, hdf⟩ := urlDefaults_tail (by rw [hpath]; exact u.tail_ne)
  rw [hd, hdp, hdq, hdf, hpath, herror, htail.1, htail.2]
  exact ⟨rfl, rfl, rfl, rfl⟩

theorem urlFromStr_noTail (u : TailUrl) : (urlFromStr u.text).query = [] ∧ (urlFromStr u.text).fragment = [] := by
  by_cases hat : chr '@' ∈ u.rest
  · exact (urlFromStr_at hat).2
  · exact (urlFromStr_plain hat).2.2

end TailUrl

theorem eq_none_of_getD {part : Option (List UInt8)} (hne : part ≠ some []) (h : [] = part.getD []) : part = none := by
  cases part with
  | none => rfl
  | some text => exact absurd (congrArg some h.symm) hne

theorem splitOff_iff (u : TailUrl) :
    SplitOff u ↔ u.query = none ∧ u.fragment = none ∧ chr '@' ∉ u.path := by
  constructor
  · intro h
    obtain ⟨hq, hf⟩ := u.urlFromStr_noTail
    have hquery := eq_none_of_getD u.query_ne (hq.symm.trans h.query)
    have hfragment := eq_none_of_getD u.fragment_ne (hf.symm.trans h.fragment)
    refine ⟨hquery, hfragment, ?_⟩
    intro hat
    have hpath := (TailUrl.urlFromStr_at (TailUrl.mem_rest_at hat)).1
    rw [h.path] at hpath
    rw [hpath] at hat
    exact absurd hat (by decide)
  · rintro ⟨hquery, hfragment, hat⟩
    obtain ⟨herror, hpath, hq, hf⟩ := TailUrl.urlFromStr_plain (TailUrl.notMem_rest_at hat hquery hfragment)
    have htail : u.tail = u.path := by
      unfold TailUrl.tail
      rw [hquery, hfragment]
      exact List.append_nil _
    rw [htail] at hpath
    refine ⟨herror, hpath, ?_, ?_, ?_⟩
    · rw [hq, hquery]
      rfl
    · rw [hf, hfragment]
      rfl
    · rw [hpath]
      exact u.path_plain

/-- `https://a:8080/p?q` -/
def queryUrl : TailUrl where
  scheme := s8 "https"
  host := s8 "a"
  port := s8 "8080"
  path := s8 "/p"
  query := some (s8 "q")
  fragment := none
  scheme_ne := by decide
  scheme_colon := by decide
  host_ne := by decide
  host_plain := by decide
  port_number := by decide
  path_start := rfl
  path_plain := by decide
  query_ne h := List.cons_ne_nil _ _ (Option.some.inj h)
  query_plain text h := by
    cases h
    decide
  fragment_ne h := Option.some_ne_none [] h.symm
  size := by decide

theorem not_splitOff : ¬ SplitOff queryUrl := by
  intro h
  have hpath : (urlFromStr queryUrl.text).path = s8 "/p?q" := by decide
  rw [h.path] at hpath
  exact absurd hpath (by decide)

end CWebServer
