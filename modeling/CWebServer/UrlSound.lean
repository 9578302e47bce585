import CWebServer.ParseUnsigned
import CWebServer.Url

/-!
# What a URL gives back

A URL with a port and a path is taken apart where it was put together. Without
a port the default of its scheme is wrong, and with a port alone the host takes
in all of the rest; a user's password always does.
-/

namespace CWebServer

/-! ## The text of a URL -/

def Avoids (text chars : List UInt8) : Prop := ∀ c ∈ chars, c ∉ text

instance (text chars : List UInt8) : Decidable (Avoids text chars) := List.decidableBAll (· ∉ text) chars

structure PortText where
  digits : List UInt8
  digits_ne : digits ≠ []
  number : digits.all strIsNumberChar = true
  value_le : decimalValue digits ≤ 65535

structure PathText where
  text : List UInt8
  start : text.head? = some (chr '/')
  plain : Avoids text (s8 ":@?#")

def portText : Option PortText → List UInt8
  | some port => chr ':' :: port.digits
  | none => []

def pathText : Option PathText → List UInt8
  | some path => path.text
  | none => []

def urlText (scheme rest : List UInt8) : List UInt8 := scheme ++ (s8 "://" ++ rest)

/-- No object in C has `2 ^ 63` bytes. -/
structure UrlParts where
  scheme : List UInt8
  host : List UInt8
  port : Option PortText
  path : Option PathText
  scheme_ne : scheme ≠ []
  scheme_colon : chr ':' ∉ scheme
  host_ne : host ≠ []
  host_plain : Avoids host (s8 "/:@?#")
  size : (urlText scheme (host ++ (portText port ++ pathText path))).length < 2 ^ 63

def schemePort (scheme : List UInt8) : Nat :=
  if scheme = s8 "http" then 80
  else if scheme = s8 "https" then 443
  else if scheme = s8 "ftp" then 21
  else if scheme = s8 "ssh" then 22
  else if scheme = s8 "telnet" then 23
  else 0

namespace UrlParts

def rest (u : UrlParts) : List UInt8 := u.host ++ (portText u.port ++ pathText u.path)

def text (u : UrlParts) : List UInt8 := urlText u.scheme u.rest

def portValue (u : UrlParts) : Nat :=
  match u.port with
  | some port => decimalValue port.digits
  | none => schemePort u.scheme

def pathValue (u : UrlParts) : List UInt8 :=
  match u.path with
  | some path => path.text
  | none => s8 "/"

end UrlParts

structure UrlRoundTrip (u : UrlParts) : Prop where
  error : (urlFromStr u.text).error = .ok
  scheme : (urlFromStr u.text).scheme = u.scheme
  host : (urlFromStr u.text).host = u.host
  port : (urlFromStr u.text).port = u.portValue
  path : (urlFromStr u.text).path = u.pathValue

/-! ## Numbers -/

theorem PathText.text_ne (path : PathText) : path.text ≠ [] := by
  intro h
  have hstart := path.start
  rw [h] at hstart
  cases hstart

theorem strParseU32_digits (port : PortText) : strParseU32 port.digits = decimalValue port.digits := by
  have hlt : decimalValue port.digits < u32Max := Nat.lt_of_le_of_lt port.value_le (by decide)
  have hall : port.digits.takeWhile strIsNumberChar = port.digits :=
    List.takeWhile_eq_self_iff.mpr (List.all_eq_true.mp port.number)
  unfold strParseU32 strParseU32N
  rw [parseU32Loop_lt (by rwa [hall]), hall]
  rfl

/-! ## The parts of the scan -/

theorem strFindChar_nonneg {str : List UInt8} {c : UInt8} (h : c ∈ str) : 0 ≤ strFindChar str c := by
  obtain ⟨a, b, rfl, ha⟩ := List.eq_append_cons_of_mem h
  rw [strFindChar_append ha]
  exact Int.natCast_nonneg _

theorem urlParseScheme_text {scheme rest : List UInt8} (hne : scheme ≠ []) (hcolon : chr ':' ∉ scheme)
    (hsize : (urlText scheme rest).length < 2 ^ 63) (out : Url) :
    urlParseScheme (urlText scheme rest) out = (rest, { out with scheme }) := by
  have hfind : strFindChar (urlText scheme rest) (chr ':') = scheme.length := strFindChar_append hcolon
  have hlen : scheme.length + 1 ≤ (urlText scheme rest).length := by
    unfold urlText
    rw [List.length_append]
    exact Nat.add_le_add_left (Nat.le_add_left _ _) _
  have hsep : strFrom (urlText scheme rest) (scheme.length + 1) = s8 "//" ++ rest := by
    rw [strFrom_eq, urlText, ← List.drop_drop, List.drop_left]
    rfl
  have hscheme : strSubStr (urlText scheme rest) 0 scheme.length = scheme := strSubStr_append _ _
  have hwrap : wrap64 (scheme.length : Int) = scheme.length := wrap64_of_lt (by omega)
  have hwrap' : wrap64 ((scheme.length : Int) + 1) = scheme.length + 1 := wrap64_succ (by omega)
  have hneg : ¬ (scheme.length : Int) < 0 := by omega
  have hzero : ¬ scheme.length = 0 := fun h => hne (List.length_eq_zero_iff.mp h)
  unfold urlParseScheme
  simp only [hfind, hwrap, hwrap', hneg, if_false, hsep, hscheme, hzero, strHasPrefix_append, Bool.true_eq_false]
  rw [strFrom_eq]
  rfl

theorem urlParseUserPass_none {url : List UInt8} (h : chr '@' ∉ url) (out : Url) :
    urlParseUserPass url out = (url, { out with pass := [], user := [] }) := by
  have hneg : ¬ (0 : Int) ≤ -1 := by decide
  unfold urlParseUserPass
  simp only [strFindChar_of_notMem h, hneg, if_false]

theorem urlParseUserPass_some {user rest : List UInt8} (hne : user ≠ []) (hcolon : chr ':' ∉ user)
    (hat : chr '@' ∈ rest) (hsize : (user ++ chr ':' :: rest).length < 2 ^ 63) (out : Url) :
    urlParseUserPass (user ++ chr ':' :: rest) out = ([], { out with user, pass := rest }) := by
  have hstart : 0 ≤ strFindChar (user ++ chr ':' :: rest) (chr '@') :=
    strFindChar_nonneg (List.mem_append_right _ (List.mem_cons_of_mem _ hat))
  have hslice : ∀ start, strSubStr (user ++ chr ':' :: rest) start 0 = [] := fun start => by
    rw [strSubStr_eq, List.take_zero]
  have hall : strSubStr (user ++ chr ':' :: rest) 0 (wrap64 (-1)) = user ++ chr ':' :: rest := by
    apply strSubStr_drop
    exact Nat.le_of_lt (Nat.lt_trans hsize (by decide))
  have hlen : user.length + (rest.length + 1) < 2 ^ 63 := by
    rw [List.length_append, List.length_cons] at hsize
    exact hsize
  have hwrap : wrap64 (user.length : Int) = user.length := wrap64_of_lt (by omega)
  have hwrap' : wrap64 ((user.length : Int) + 1) = user.length + 1 := wrap64_succ (by omega)
  have huser : strSubStr (user ++ chr ':' :: rest) 0 user.length = user := strSubStr_append _ _
  have hpass : strSubStr (user ++ chr ':' :: rest) (user.length + 1) (wrap64 (-1 - user.length - 1)) = rest := by
    rw [strSubStr_drop, ← List.drop_drop, List.drop_left]
    · rfl
    · rw [List.length_append, List.length_cons]
      unfold wrap64
      omega
  have hneg : ¬ (user.length : Int) < 0 := by omega
  have hfilled : ¬ (user.length = 0 ∨ rest.length = 0) := by
    rw [not_or]
    constructor
    · exact fun h => hne (List.length_eq_zero_iff.mp h)
    · exact fun h => List.ne_nil_of_mem hat (List.length_eq_zero_iff.mp h)
  unfold urlParseUserPass
  simp only [hstart, if_true, hslice, strFindChar_of_notMem (List.not_mem_nil (a := chr '@')), hall,
    strFindChar_append hcolon, hneg, if_false, hwrap, hwrap', huser, hpass, hfilled]

/-! ## Host, port and path -/

variable {url : List UInt8} {p q : Nat}

theorem strFind_slice (str : List UInt8) (start : Nat) : strFind (strSubStr str start 0) (s8 "?#") = -1 := by
  rw [strSubStr_eq, List.take_zero]
  rfl

theorem strFrom_length (str : List UInt8) : strFrom str str.length = [] := by
  rw [strFrom_eq, List.drop_length]

/-- Nothing is left of the text, and host and port stay. -/
theorem urlParsePath_kept (url : List UInt8) (out : Url) :
    (urlParsePath url out).1 = [] ∧ (urlParsePath url out).2.host = out.host ∧
      (urlParsePath url out).2.port = out.port := by
  have hneg : ¬ (0 : Int) ≤ -1 := by decide
  unfold urlParsePath
  simp only [strFind_slice, hneg, if_false, strFrom_length]
  split
  · split <;> exact ⟨rfl, rfl, rfl⟩
  · exact ⟨rfl, rfl, rfl⟩

theorem urlParseHostPort_kept (url : List UInt8) (out : Url) :
    (urlParseHostPort url out).1 = [] ∧
      (urlParseHostPort url out).2.port = (urlHostPort url (urlDefaultPortForScheme out.scheme)).2 := by
  have hkept := fun out => (urlParsePath_kept url out)
  unfold urlParseHostPort
  dsimp only
  split
  · split
    · exact ⟨rfl, rfl⟩
    · exact ⟨(hkept _).1, (hkept _).2.2⟩
  · exact ⟨(hkept _).1, (hkept _).2.2⟩

theorem urlParseHostPort_host {hostlen : Nat} {port : Int} {out : Url}
    (h : urlHostPort url (urlDefaultPortForScheme out.scheme) = (hostlen, port)) (hpos : 0 < hostlen) :
    (urlParseHostPort url out).2.host = strSubStr url 0 hostlen := by
  unfold urlParseHostPort
  rw [h]
  dsimp only
  rw [if_pos hpos]
  split
  · rfl
  · exact (urlParsePath_kept _ _).2.1

theorem hostPort_default (h : chr ':' ∉ url) (port : Nat) : (urlHostPort url port).2 = port := by
  have hneg : (-1 : Int) < 0 := by decide
  unfold urlHostPort
  simp only [strFindChar_of_notMem h, hneg, if_true]

theorem hostPort_whole (hport : strFindChar url (chr ':') = p) (hp : 0 < p) (hpath : chr '/' ∉ url) (port : Nat) :
    urlHostPort url port = (wrap64 (-1), (port : Int)) := by
  have hpos : ¬ (p : Int) < 0 := by omega
  have hbefore : (-1 : Int) ≠ 0 ∧ (p : Int) ≠ 0 ∧ (-1 : Int) < p := by omega
  unfold urlHostPort
  simp only [hport, strFindChar_of_notMem hpath, hpos, if_false]
  rw [if_pos hbefore]

theorem hostPort_slices (hport : strFindChar url (chr ':') = p) (hpath : strFindChar url (chr '/') = q) (hpq : p < q)
    (hsize : q < 2 ^ 63) (port : Nat) :
    urlHostPort url port = (p, (strParseU32 ((url.drop (p + 1)).take (q - p - 1)) : Int)) := by
  have hpos : ¬ (p : Int) < 0 := by omega
  have hbefore : ¬ ((q : Int) ≠ 0 ∧ (p : Int) ≠ 0 ∧ (q : Int) < p) := by omega
  have hp64 : wrap64 (p : Int) = p := wrap64_of_lt (by omega)
  have hp64' : wrap64 ((p : Int) + 1) = p + 1 := wrap64_succ (by omega)
  have hlen64 : wrap64 ((q : Int) - p - 1) = q - p - 1 := by
    unfold wrap64
    omega
  unfold urlHostPort
  simp only [hport, hpath, hpos, if_false, hbefore, hp64, hp64', hlen64, strSubStr_eq]

theorem urlParsePath_slice (hpath : strFindChar url (chr '/') = q) (hq : q < url.length) (hsize : q < 2 ^ 63)
    (out : Url) : urlParsePath url out = ([], { out with path := url.drop q }) := by
  have hnonneg : 0 ≤ (q : Int) := Int.natCast_nonneg q
  have hneg : ¬ (0 : Int) ≤ -1 := by decide
  have hq64 : wrap64 (q : Int) = q := wrap64_of_lt (by omega)
  have hrest : strSubStr url q url.length = url.drop q := strSubStr_drop (Nat.le_add_left _ _)
  have hrest0 : ¬ (url.drop q).length = 0 := by
    rw [List.length_drop]
    omega
  unfold urlParsePath
  simp only [hpath, hnonneg, if_true, hq64, strFind_slice, hneg, if_false, hrest, hrest0, strFrom_length]

/-! ## The four shapes -/

namespace UrlParts
variable {u : UrlParts}

theorem size_text (u : UrlParts) : u.text.length < 2 ^ 63 := u.size

theorem size_rest (u : UrlParts) : u.rest.length < 2 ^ 63 := by
  have h := u.size_text
  unfold text urlText at h
  rw [List.length_append, List.length_append] at h
  omega

theorem notMem_host (u : UrlParts) {c : UInt8} (h : c ∈ s8 "/:@?#") : c ∉ u.host := u.host_plain c h

theorem host_pos (u : UrlParts) : 0 < u.host.length := List.length_pos_iff.mpr u.host_ne

theorem notMem_portText (port : Option PortText) {c : UInt8} (hc : strIsNumberChar c = false) (hne : c ≠ chr ':') :
    c ∉ portText port := by
  cases port with
  | none => exact List.not_mem_nil
  | some port =>
    intro h
    cases List.mem_cons.mp h with
    | inl h => exact hne h
    | inr h =>
      rw [List.all_eq_true.mp port.number c h] at hc
      cases hc

theorem notMem_pathText (path : Option PathText) {c : UInt8} (hc : c ∈ s8 ":@?#") : c ∉ pathText path := by
  cases path with
  | none => exact List.not_mem_nil
  | some path => exact path.plain c hc

theorem notMem_rest {c : UInt8} (hhost : c ∈ s8 "/:@?#") (hport : c ∉ portText u.port) (hpath : c ∉ pathText u.path) :
    c ∉ u.rest := by
  unfold rest
  rw [List.mem_append, List.mem_append, not_or, not_or]
  exact ⟨u.notMem_host hhost, hport, hpath⟩

theorem rest_at (u : UrlParts) : chr '@' ∉ u.rest := by
  apply notMem_rest (by decide)
  · exact notMem_portText u.port (by decide) (by decide)
  · exact notMem_pathText u.path (by decide)

theorem rest_colon (h : u.port = none) : chr ':' ∉ u.rest := by
  apply notMem_rest (by decide)
  · rw [h]
    exact List.not_mem_nil
  · exact notMem_pathText u.path (by decide)

theorem rest_slash (h : u.path = none) : chr '/' ∉ u.rest := by
  apply notMem_rest (by decide)
  · exact notMem_portText u.port (by decide) (by decide)
  · rw [h]
    exact List.not_mem_nil

theorem find_colon {port : PortText} (h : u.port = some port) : strFindChar u.rest (chr ':') = u.host.length := by
  unfold rest
  rw [h]
  exact strFindChar_append (u.notMem_host (by decide))

theorem find_slash {path : PathText} (h : u.path = some path) :
    strFindChar u.rest (chr '/') = (u.host ++ portText u.port).length := by
  obtain ⟨text, htext⟩ := List.head?_eq_some_iff.mp path.start
  have hnot : chr '/' ∉ u.host ++ portText u.port := by
    rw [List.mem_append, not_or]
    exact ⟨u.notMem_host (by decide), notMem_portText u.port (by decide) (by decide)⟩
  unfold rest
  rw [h, pathText, htext, ← List.append_assoc]
  exact strFindChar_append hnot

end UrlParts

/-! ## The whole URL -/

theorem urlFromStr_of_rest {text rest : List UInt8} {out out' : Url}
    (hscheme : urlParseScheme text { path := s8 "/" } = (rest, out)) (hok : out.error = .ok)
    (huser : urlParseUserPass rest out = (url, out')) (hok' : out'.error = .ok) :
    urlFromStr text = urlDefaults (urlParseHostPort url out').2 := by
  have hquery : ∀ out : Url, urlParseQuery [] out = ([], out) := fun _ => rfl
  have hfragment : ∀ out : Url, urlParseFragment [] out = out := fun _ => rfl
  cases hhost : urlParseHostPort url out' with
  | mk left out'' =>
    have hleft : left = [] := by
      rw [← (urlParseHostPort_kept url out').1, hhost]
    unfold urlFromStr
    simp only [hscheme, hok, huser, hok', hhost, hleft, hquery, hfragment, ne_eq, not_true_eq_false, if_false]
    by_cases h : out''.error = .ok
    · simp only [h, not_true_eq_false, if_false]
    · unfold urlDefaults
      simp only [h, not_false_eq_true, if_true, if_false]

theorem urlFromStr_text (u : UrlParts) :
    urlFromStr u.text = urlDefaults (urlParseHostPort u.rest { scheme := u.scheme, path := s8 "/" }).2 :=
  urlFromStr_of_rest (urlParseScheme_text u.scheme_ne u.scheme_colon u.size _) rfl
    (urlParseUserPass_none u.rest_at _) rfl

theorem urlDefaults_port (out : Url) : (urlDefaults out).port = out.port := by
  unfold urlDefaults
  split <;> rfl

theorem urlDefaults_host {out : Url} (h : out.host ≠ []) : (urlDefaults out).host = out.host := by
  have hpos : ¬ out.host.length = 0 := fun h0 => h (List.length_eq_zero_iff.mp h0)
  unfold urlDefaults
  simp only [hpos, if_false]
  split <;> rfl

theorem defaultPort_ne {scheme : List UInt8} (hne : scheme ≠ []) :
    urlDefaultPortForScheme scheme ≠ schemePort scheme := by
  have hpos : ¬ scheme.length = 0 := fun h0 => hne (List.length_eq_zero_iff.mp h0)
  by_cases hhttp : scheme = s8 "http"
  · rw [hhttp]
    decide
  · have hother : strIsEqual scheme (s8 "http") = false := by
      rw [← Bool.not_eq_true, strIsEqual_iff]
      exact hhttp
    unfold urlDefaultPortForScheme schemePort
    rw [if_neg hpos, if_pos hother, if_neg hhttp]
    split
    · decide
    · split
      · decide
      · split
        · decide
        · split <;> decide

namespace UrlParts
variable {u : UrlParts}

theorem not_roundTrip_port (hport : u.port = none) : ¬ UrlRoundTrip u := by
  intro h
  have heq := h.port
  rw [urlFromStr_text, urlDefaults_port, (urlParseHostPort_kept _ _).2, hostPort_default (rest_colon hport), portValue,
    hport] at heq
  exact defaultPort_ne u.scheme_ne (Int.ofNat_inj.mp heq)

/-- The host is the whole rest of the text. -/
theorem not_roundTrip_path {port : PortText} (hport : u.port = some port) (hpath : u.path = none) :
    ¬ UrlRoundTrip u := by
  have hlong : u.host.length < u.rest.length := by
    unfold rest
    rw [hport, portText, List.length_append, List.length_append, List.length_cons]
    omega
  have hall : strSubStr u.rest 0 (wrap64 (-1)) = u.rest := by
    apply strSubStr_drop
    exact Nat.le_of_lt (Nat.lt_trans u.size_rest (by decide))
  have hhost : (urlParseHostPort u.rest { scheme := u.scheme, path := s8 "/" }).2.host = u.rest := by
    have hlen := hostPort_whole (find_colon hport) u.host_pos (rest_slash hpath)
    rw [urlParseHostPort_host (hlen _) (by decide), hall]
  intro h
  have heq := h.host
  have hne : u.rest ≠ [] := by
    intro hnil
    rw [hnil] at hlong
    cases hlong
  rw [urlFromStr_text, urlDefaults_host (by rw [hhost]; exact hne), hhost] at heq
  rw [heq] at hlong
  exact Nat.lt_irrefl _ hlong

theorem drop_colon {port : PortText} {path : PathText} (hport : u.port = some port) (hpath : u.path = some path) :
    u.rest.drop (u.host.length + 1) = port.digits ++ path.text := by
  unfold rest
  rw [hport, hpath, ← List.drop_drop, List.drop_left]
  rfl

theorem urlFromStr_whole {port : PortText} {path : PathText} (hport : u.port = some port) (hpath : u.path = some path) :
    urlFromStr u.text =
      { scheme := u.scheme, host := u.host, port := decimalValue port.digits, path := path.text } := by
  have hsize := u.size_rest
  have hcolon := find_colon hport
  have hslash := find_slash hpath
  have hdrop := drop_colon hport hpath
  have hpathlen : 0 < path.text.length := List.length_pos_iff.mpr path.text_ne
  have hlen := congrArg List.length hdrop
  rw [List.length_drop, List.length_append] at hlen
  have hq : (u.host ++ portText u.port).length = u.host.length + 1 + port.digits.length := by
    rw [hport, portText, List.length_append, List.length_cons, Nat.add_assoc, Nat.add_comm 1]
  rw [hq] at hslash
  have hcount : u.host.length + 1 + port.digits.length - u.host.length - 1 = port.digits.length := by omega
  have hsplit := hostPort_slices hcolon hslash (by omega) (by omega)
  rw [hdrop, hcount, List.take_left, strParseU32_digits] at hsplit
  have hslice := urlParsePath_slice hslash (by omega) (by omega)
  rw [← List.drop_drop, hdrop, List.drop_left] at hslice
  have hhost : strSubStr u.rest 0 u.host.length = u.host := strSubStr_append _ _
  have hhost0 : ¬ u.host.length = 0 := Nat.ne_of_gt u.host_pos
  have hpath0 : ¬ path.text.length = 0 := Nat.ne_of_gt hpathlen
  rw [urlFromStr_text, urlParseHostPort]
  simp only [hsplit, u.host_pos, if_true, hhost, hhost0, if_false, hslice, urlDefaults, hpath0]

end UrlParts

theorem urlRoundTrip_iff (u : UrlParts) : UrlRoundTrip u ↔ u.port.isSome ∧ u.path.isSome := by
  cases hport : u.port with
  | none =>
    apply iff_of_false
    · exact UrlParts.not_roundTrip_port hport
    · exact fun h => Bool.false_ne_true h.1
  | some port =>
    cases hpath : u.path with
    | none =>
      apply iff_of_false
      · exact UrlParts.not_roundTrip_path hport hpath
      · exact fun h => Bool.false_ne_true h.2
    | some path =>
      have hwhole := UrlParts.urlFromStr_whole hport hpath
      apply iff_of_true
      · constructor <;> rw [hwhole]
        · rw [UrlParts.portValue, hport]
        · rw [UrlParts.pathValue, hpath]
      · exact ⟨rfl, rfl⟩

/-- `http://h/x` -/
def hostPathUrl : UrlParts where
  scheme := s8 "http"
  host := s8 "h"
  port := none
  path := some ⟨s8 "/x", rfl, by decide⟩
  scheme_ne := by decide
  scheme_colon := by decide
  host_ne := by decide
  host_plain := by decide
  size := by decide

theorem not_urlRoundTrip : ¬ UrlRoundTrip hostPathUrl := by
  intro h
  have hhost : (urlFromStr hostPathUrl.text).host = s8 "h/x" := by decide
  rw [h.host] at hhost
  exact absurd hhost (by decide)

/-! ## User and password -/

/-- The text is that of `UrlParts` with the user and the password before the host. -/
structure UserUrl extends UrlParts where
  user : List UInt8
  pass : List UInt8
  user_ne : user ≠ []
  user_plain : Avoids user (s8 ":@/")
  pass_ne : pass ≠ []
  pass_plain : Avoids pass (s8 ":@/")
  user_size : (urlText scheme (user ++ chr ':' :: (pass ++ chr '@' :: toUrlParts.rest))).length < 2 ^ 63

def UserUrl.userText (u : UserUrl) : List UInt8 :=
  urlText u.scheme (u.user ++ chr ':' :: (u.pass ++ chr '@' :: u.rest))

structure UserInfoKept (u : UserUrl) : Prop where
  error : (urlFromStr u.userText).error = .ok
  user : (urlFromStr u.userText).user = u.user
  pass : (urlFromStr u.userText).pass = u.pass
  host : (urlFromStr u.userText).host = u.host
  sameHost : (urlFromStr u.userText).host = (urlFromStr u.text).host
  samePort : (urlFromStr u.userText).port = (urlFromStr u.text).port
  samePath : (urlFromStr u.userText).path = (urlFromStr u.text).path

theorem urlFromStr_userText (u : UserUrl) :
    urlFromStr u.userText =
      { scheme := u.scheme
        user := u.user
        pass := u.pass ++ chr '@' :: u.rest
        host := s8 "localhost"
        port := urlDefaultPortForScheme u.scheme
        path := s8 "/" } := by
  have hsize : (u.user ++ chr ':' :: (u.pass ++ chr '@' :: u.rest)).length < 2 ^ 63 := by
    have h := u.user_size
    unfold urlText at h
    rw [List.length_append, List.length_append] at h
    omega
  have hat : chr '@' ∈ u.pass ++ chr '@' :: u.rest := List.mem_append_right _ List.mem_cons_self
  have huser := urlParseUserPass_some u.user_ne (u.user_plain _ (by decide)) hat hsize
  have hscheme := urlParseScheme_text u.scheme_ne u.scheme_colon u.user_size
  rw [UserUrl.userText, urlFromStr_of_rest (hscheme _) rfl (huser _) rfl]
  rfl

theorem userInfo_lost (u : UserUrl) : ¬ UserInfoKept u := by
  intro h
  have heq := h.pass
  rw [urlFromStr_userText] at heq
  have hlen := congrArg List.length heq
  rw [List.length_append, List.length_cons] at hlen
  omega

/-- `http://u:p@h:80/x` -/
def userPassUrl : UserUrl where
  scheme := s8 "http"
  host := s8 "h"
  port := some ⟨s8 "80", by decide, by decide, by decide⟩
  path := some ⟨s8 "/x", rfl, by decide⟩
  user := s8 "u"
  pass := s8 "p"
  scheme_ne := by decide
  scheme_colon := by decide
  host_ne := by decide
  host_plain := by decide
  size := by decide
  user_ne := by decide
  user_plain := by decide
  pass_ne := by decide
  pass_plain := by decide
  user_size := by decide

theorem not_userInfoKept : ¬ UserInfoKept userPassUrl := by
  intro h
  have hpass : (urlFromStr userPassUrl.userText).pass = s8 "p@h:80/x" := by decide
  rw [h.pass] at hpass
  exact absurd hpass (by decide)

end CWebServer
