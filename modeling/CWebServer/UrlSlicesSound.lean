import CWebServer.UrlSlices

/-!
# The URL parser stays inside its input

No read of the parser leaves the URL: each function on pointers returns, and
its parts have the bytes that the parser on texts gives them.
-/

namespace CWebServer

section
variable {d : List UInt8} {str left right : S8}

structure Readable (d : List UInt8) (str : S8) : Prop where
  length : (str.bytes d).length = str.size
  content : ∀ idx < str.size, str.content d idx = (str.bytes d)[idx]?

/-- A string that the parser goes on with is empty or a slice of the URL. -/
def Within (d : List UInt8) (str : S8) : Prop :=
  str.size = 0 ∨ ∃ start size, str = .slice start size ∧ start + size ≤ d.length

@[simp] theorem size_slice (start size : Nat) : (S8.slice start size).size = size := rfl

theorem readable_lit (d text : List UInt8) : Readable d (.lit text) := ⟨rfl, fun _ _ => rfl⟩

theorem within_nil : Within d (.lit []) := Or.inl rfl

theorem within_whole : Within d (.slice 0 d.length) := Or.inr ⟨0, d.length, rfl, Nat.le_of_eq (Nat.zero_add _)⟩

theorem Within.readable (h : Within d str) : Readable d str := by
  rcases h with hzero | ⟨start, size, rfl, hle⟩
  · constructor
    · cases str with
      | null => rfl
      | lit text => rfl
      | slice start size =>
        obtain rfl : size = 0 := hzero
        simp [S8.size]
    · intro idx hidx
      rw [hzero] at hidx
      cases hidx
  · constructor
    · simp [S8.size]
      omega
    · intro idx hidx
      have hidx : idx < size := hidx
      simp [S8.content, hidx]

theorem Readable.drop_zero_length (h : Readable d str) : ((str.bytes d).drop 0).length = str.size := by
  rw [List.drop_zero, h.length]

theorem Readable.drop_eq_nil (h : Readable d str) {start : Nat} (hstart : str.size ≤ start) :
    (str.bytes d).drop start = [] := by
  apply List.drop_eq_nil_of_le
  rwa [h.length]

/-- With bytes left the next one can be read. -/
theorem Readable.next (h : Readable d str) {idx count : Nat} (hcount : ((str.bytes d).drop idx).length = count + 1) :
    ∃ b, str.content d idx = some b ∧ (str.bytes d).drop idx = b :: (str.bytes d).drop (idx + 1) := by
  rw [List.length_drop] at hcount
  have hidx : idx < (str.bytes d).length := by omega
  refine ⟨(str.bytes d)[idx], ?_, List.drop_eq_getElem_cons hidx⟩
  rw [h.content idx (by rw [← h.length]; exact hidx), List.getElem?_eq_getElem hidx]

/-! ## Strings -/

theorem findCharLoop_eq (h : Readable d str) (c : UInt8) {count idx : Nat}
    (hcount : ((str.bytes d).drop idx).length = count) :
    findCharLoop d str c count idx =
      some (match ((str.bytes d).drop idx).findIdx? (· == c) with | some k => (idx + k : Nat) | none => -1) := by
  induction count generalizing idx with
  | zero =>
    rw [List.length_eq_zero_iff.mp hcount]
    rfl
  | succ count ih =>
    obtain ⟨b, hb, hdrop⟩ := h.next hcount
    rw [hdrop] at hcount ⊢
    rw [findCharLoop, hb, Option.bind_eq_bind, Option.bind_some, List.findIdx?_cons]
    by_cases hc : b = c
    · simp [hc]
    · rw [if_neg hc, ih (Nat.succ.inj hcount)]
      simp only [beq_eq_false_iff_ne.mpr hc, Bool.false_eq_true, if_false]
      cases ((str.bytes d).drop (idx + 1)).findIdx? (· == c) with
      | none => rfl
      | some k => simp [Nat.add_assoc, Nat.add_comm 1]

theorem strFindCharS8_eq (h : Readable d str) (c : UInt8) :
    strFindCharS8 d str c = some (strFindChar (str.bytes d) c) := by
  rw [strFindCharS8, findCharLoop_eq h c h.drop_zero_length, List.drop_zero, strFindChar]
  cases (str.bytes d).findIdx? (· == c) <;> simp

theorem sameLoop_eq (hl : Readable d left) (hr : Readable d right) {count idx : Nat}
    (hcount : ((right.bytes d).drop idx).length = count) (hle : count ≤ ((left.bytes d).drop idx).length) :
    sameLoop d left right count idx =
      some ((((left.bytes d).drop idx).zip ((right.bytes d).drop idx)).all fun p => p.1 == p.2) := by
  induction count generalizing idx with
  | zero =>
    rw [List.length_eq_zero_iff.mp hcount, List.zip_nil_right]
    rfl
  | succ count ih =>
    obtain ⟨rest, hrest⟩ := Nat.exists_eq_add_of_le' (Nat.lt_of_lt_of_le (Nat.succ_pos _) hle)
    obtain ⟨a, ha, hdropl⟩ := hl.next hrest
    obtain ⟨b, hb, hdropr⟩ := hr.next hcount
    rw [hdropl] at hle ⊢
    rw [hdropr] at hcount ⊢
    rw [sameLoop, ha, hb]
    simp only [Option.bind_eq_bind, Option.bind_some, List.zip_cons_cons, List.all_cons]
    by_cases hab : a = b
    · rw [if_neg (not_not.mpr hab), ih (Nat.succ.inj hcount) (Nat.le_of_succ_le_succ hle)]
      simp [hab]
    · simp [hab]

theorem strHasPrefixS8_eq (hl : Readable d left) (hr : Readable d right) :
    strHasPrefixS8 d left right = some (strHasPrefix (left.bytes d) (right.bytes d)) := by
  unfold strHasPrefixS8 strHasPrefix
  rw [hl.length, hr.length]
  split
  · rfl
  · rename_i hle
    rw [sameLoop_eq hl hr hr.drop_zero_length (by rw [hl.drop_zero_length]; omega)]
    simp

theorem strIsEqualS8_eq (hl : Readable d left) (hr : Readable d right) :
    strIsEqualS8 d left right = some (strIsEqual (left.bytes d) (right.bytes d)) := by
  unfold strIsEqualS8 strIsEqual
  rw [hl.length, hr.length]
  split
  · rfl
  · rename_i heq
    rw [not_not] at heq
    rw [heq, sameLoop_eq hl hr hr.drop_zero_length (by rw [hl.drop_zero_length, heq])]
    simp

theorem strStartsWithCharS8_eq (h : Readable d str) (c : UInt8) :
    strStartsWithCharS8 d str c = some (strStartsWithChar (str.bytes d) c) := by
  unfold strStartsWithCharS8
  have hlen := h.length
  cases hbytes : str.bytes d with
  | nil =>
    rw [hbytes] at hlen
    exact if_pos hlen.symm
  | cons b bytes =>
    rw [hbytes] at hlen
    have hpos : 0 < str.size := by
      rw [← hlen]
      exact Nat.succ_pos _
    rw [if_neg (Nat.ne_of_gt hpos), h.content 0 hpos, hbytes]
    rfl

/-- The string is compared with itself, so that the inner loop ends at once. -/
theorem strFindS8_eq (h : Readable d str) (hr : Readable d right) :
    strFindS8 d str right = some (strFind (str.bytes d) (right.bytes d)) := by
  unfold strFindS8 strFind
  simp only [h.length, hr.length, Nat.zero_add]
  split
  · rename_i hlt
    have hpos : 0 < str.size := Nat.lt_of_le_of_lt (Nat.zero_le _) hlt
    obtain ⟨c, hbyte⟩ : ∃ c, (str.bytes d)[0]? = some c :=
      ⟨_, List.getElem?_eq_getElem (by rw [h.length]; exact hpos)⟩
    simp [mismatchLoop, h.content 0 hpos, hbyte]
  · rfl

theorem parseU32LoopS8_eq (h : Readable d str) {count idx : Nat} (hcount : ((str.bytes d).drop idx).length = count)
    (out pos : Nat) :
    parseU32LoopS8 d str count out idx = some (parseU32Loop ((str.bytes d).drop idx) out pos).1 := by
  induction count generalizing idx out pos with
  | zero =>
    rw [List.length_eq_zero_iff.mp hcount]
    rfl
  | succ count ih =>
    obtain ⟨b, hb, hdrop⟩ := h.next hcount
    rw [hdrop] at hcount ⊢
    rw [parseU32LoopS8, hb, Option.bind_eq_bind, Option.bind_some, parseU32Loop]
    split
    · dsimp only
      split
      · rfl
      · exact ih (Nat.succ.inj hcount) _ _
    · rfl

theorem strParseU32S8_eq (h : Readable d str) : strParseU32S8 d str = some (strParseU32 (str.bytes d)) := by
  rw [strParseU32S8, parseU32LoopS8_eq h h.drop_zero_length 0 0, List.drop_zero]
  rfl

theorem strSubStrS8_within (h : Within d str) (start size : Nat) :
    Within d (strSubStrS8 str start size) ∧
      (strSubStrS8 str start size).bytes d = strSubStr (str.bytes d) start size := by
  rw [strSubStr_eq]
  unfold strSubStrS8
  have hlen := h.readable.length
  by_cases hzero : str.size = 0
  · rw [if_pos hzero]
    rw [hzero] at hlen
    rw [List.length_eq_zero_iff.mp hlen]
    exact ⟨h, by simp⟩
  · rw [if_neg hzero]
    obtain ⟨start₀, n, rfl, hle⟩ := h.resolve_left hzero
    by_cases hstart : (S8.slice start₀ n).size ≤ start
    · rw [if_pos hstart, h.readable.drop_eq_nil hstart]
      exact ⟨Or.inl rfl, by simp⟩
    · rw [if_neg hstart]
      refine ⟨Or.inr ⟨_, _, rfl, ?_⟩, ?_⟩
      · have hmin : min (n - start) size ≤ n - start := Nat.min_le_left _ _
        rw [size_slice] at hstart ⊢
        omega
      · show (d.drop (start₀ + start)).take (min (n - start) size) = (((d.drop start₀).take n).drop start).take size
        rw [List.drop_take, List.drop_drop, List.take_take, Nat.min_comm]

theorem strFromS8_within (h : Within d str) (start : Nat) :
    Within d (strFromS8 str start) ∧ (strFromS8 str start).bytes d = strFrom (str.bytes d) start := by
  rw [strFrom_eq]
  unfold strFromS8
  by_cases hstart : str.size ≤ start
  · rw [if_pos hstart, h.readable.drop_eq_nil hstart]
    exact ⟨Or.inl rfl, rfl⟩
  · rw [if_neg hstart]
    obtain ⟨start₀, n, rfl, hle⟩ := h.resolve_left (by omega)
    have hmin : min ((S8.slice start₀ n).size - 1) start = start := by
      apply Nat.min_eq_right
      omega
    dsimp only
    rw [hmin]
    refine ⟨Or.inr ⟨_, _, rfl, ?_⟩, ?_⟩
    · rw [size_slice] at hstart ⊢
      omega
    · show (d.drop (start₀ + start)).take (n - start) = ((d.drop start₀).take n).drop start
      rw [List.drop_take, List.drop_drop]

end

/-! ## Parts -/

/-- A part of the result is empty, a slice of the URL or one of the two fixed literals. -/
def Part (d : List UInt8) (str : S8) : Prop :=
  Within d str ∨ str = .lit (s8 "/") ∨ str = .lit (s8 "localhost")

structure InUrl (d : List UInt8) (out : UrlS8) : Prop where
  scheme : Part d out.scheme
  user : Part d out.user
  pass : Part d out.pass
  host : Part d out.host
  path : Part d out.path
  query : Part d out.query
  fragment : Part d out.fragment

def UrlS8.bytes (d : List UInt8) (out : UrlS8) : Url where
  error := out.error
  scheme := out.scheme.bytes d
  user := out.user.bytes d
  pass := out.pass.bytes d
  host := out.host.bytes d
  port := out.port
  path := out.path.bytes d
  query := out.query.bytes d
  fragment := out.fragment.bytes d

/-- The function on pointers returns, within the URL, what the function on texts returns. -/
def Follows (d : List UInt8) (result : Option (S8 × UrlS8)) (expected : List UInt8 × Url) : Prop :=
  ∃ url out, result = some (url, out) ∧ Within d url ∧ InUrl d out ∧ (url.bytes d, out.bytes d) = expected

section
variable {d : List UInt8} {str url : S8} {out : UrlS8}

theorem Part.readable (h : Part d str) : Readable d str := by
  rcases h with hwithin | rfl | rfl
  · exact hwithin.readable
  · exact readable_lit d _
  · exact readable_lit d _

theorem strSubStrS8_length (h : Within d str) (start size : Nat) :
    (strSubStrS8 str start size).size = (strSubStr (str.bytes d) start size).length := by
  rw [← (strSubStrS8_within h start size).2, (strSubStrS8_within h start size).1.readable.length]

theorem urlParseSchemeS8_follows (hurl : Within d url) (hout : InUrl d out) :
    Follows d (urlParseSchemeS8 d url out) (urlParseScheme (url.bytes d) (out.bytes d)) := by
  have hfrom := strFromS8_within hurl
  unfold urlParseSchemeS8 urlParseScheme
  rw [strFindCharS8_eq hurl.readable]
  simp only [Option.bind_eq_bind, Option.bind_some]
  split
  · exact ⟨url, out, rfl, hurl, hout, rfl⟩
  · rw [strHasPrefixS8_eq (hfrom _).1.readable (readable_lit d _), Option.bind_some, (hfrom _).2, bytes_lit]
    split
    · exact ⟨.lit [], { out with error := .scheme }, rfl, within_nil, { hout with }, rfl⟩
    · have hscheme := strSubStrS8_within hurl 0 (wrap64 (strFindChar (url.bytes d) (chr ':')))
      rw [strSubStrS8_length hurl]
      split
      · refine ⟨.lit [], _, rfl, within_nil, { hout with scheme := Or.inl hscheme.1 }, ?_⟩
        rw [← hscheme.2]
        rfl
      · have hrest := strFromS8_within (hfrom (wrap64 (strFindChar (url.bytes d) (chr ':') + 1))).1 2
        refine ⟨_, _, rfl, hrest.1, { hout with scheme := Or.inl hscheme.1 }, ?_⟩
        rw [← hscheme.2, hrest.2, (hfrom _).2]
        rfl

/-- The end of `url__parseUserPass`, with user and password found. -/
theorem follows_userPass (hout : InUrl d out) {user pass rest : S8} (huser : Within d user) (hpass : Within d pass)
    (hrest : Within d rest) :
    Follows d
      (if user.size = 0 ∨ pass.size = 0 then some (.lit [], { out with error := .userOrPass, user, pass })
        else some (rest, { out with user, pass }))
      (if (user.bytes d).length = 0 ∨ (pass.bytes d).length = 0 then
        ([], { out.bytes d with error := .userOrPass, user := user.bytes d, pass := pass.bytes d })
        else (rest.bytes d, { out.bytes d with user := user.bytes d, pass := pass.bytes d })) := by
  rw [huser.readable.length, hpass.readable.length]
  split
  · exact ⟨.lit [], _, rfl, within_nil, { hout with user := Or.inl huser, pass := Or.inl hpass }, rfl⟩
  · exact ⟨rest, _, rfl, hrest, { hout with user := Or.inl huser, pass := Or.inl hpass }, rfl⟩

theorem urlParseUserPassS8_follows (hurl : Within d url) (hout : InUrl d out) :
    Follows d (urlParseUserPassS8 d url out) (urlParseUserPass (url.bytes d) (out.bytes d)) := by
  have hsub := fun start size => (strSubStrS8_within hurl start size).1
  have hbytes := fun start size => (strSubStrS8_within hurl start size).2
  unfold urlParseUserPassS8 urlParseUserPass
  simp only [strFindCharS8_eq hurl.readable, strFindCharS8_eq (hsub _ _).readable, Option.bind_eq_bind,
    Option.bind_some, hbytes]
  split
  · generalize strFindChar (strSubStr (url.bytes d) _ 0) (chr '@') = atpos
    generalize strFindChar (strSubStr (url.bytes d) 0 (wrap64 atpos)) (chr ':') = passsep
    by_cases hsep : passsep < 0
    · have h := follows_userPass hout (hsub 0 (wrap64 atpos)) within_nil (hsub (wrap64 (atpos + 1)) 0)
      simp only [hbytes, bytes_lit] at h
      simp only [hsep, if_true]
      exact h
    · have h := follows_userPass hout (hsub 0 (wrap64 passsep))
        (hsub (wrap64 (passsep + 1)) (wrap64 (atpos - passsep - 1))) (hsub (wrap64 (atpos + 1)) 0)
      simp only [hbytes] at h
      simp only [hsep, if_false]
      exact h
  · exact ⟨url, _, rfl, hurl, { hout with pass := Or.inl within_nil, user := Or.inl within_nil }, rfl⟩

/-! ## Host, port and path -/

theorem urlDefaultPortForSchemeS8_eq (h : Readable d str) :
    urlDefaultPortForSchemeS8 d str = some (urlDefaultPortForScheme (str.bytes d)) := by
  unfold urlDefaultPortForSchemeS8 urlDefaultPortForScheme
  simp only [strIsEqualS8_eq h (readable_lit d _), bytes_lit, Option.bind_eq_bind, Option.bind_some, h.length]
  repeat' split
  all_goals rfl

theorem urlHostPortS8_eq (h : Within d url) (defaultPort : Nat) :
    urlHostPortS8 d url defaultPort = some (urlHostPort (url.bytes d) defaultPort) := by
  have hsub := fun start size => strSubStrS8_within h start size
  unfold urlHostPortS8 urlHostPort
  simp only [strFindCharS8_eq h.readable, strParseU32S8_eq (hsub _ _).1.readable, (hsub _ _).2, Option.bind_eq_bind,
    Option.bind_some, h.readable.length]
  repeat' split
  all_goals rfl

theorem urlParsePathS8_follows (hurl : Within d url) (hout : InUrl d out) :
    Follows d (urlParsePathS8 d url out) (urlParsePath (url.bytes d) (out.bytes d)) := by
  have hsub := fun start size => (strSubStrS8_within hurl start size).1
  have hbytes := fun start size => (strSubStrS8_within hurl start size).2
  have hfrom := strFromS8_within hurl
  unfold urlParsePathS8 urlParsePath
  simp only [strFindCharS8_eq hurl.readable, strFindS8_eq (hsub _ _).readable (readable_lit d _), Option.bind_eq_bind,
    Option.bind_some, hbytes, bytes_lit, hurl.readable.length, strSubStrS8_length hurl]
  split
  · generalize strFind (strSubStr (url.bytes d) _ 0) (s8 "?#") = pathEnd
    generalize (if 0 ≤ pathEnd then wrap64 pathEnd else url.size) = reslen
    split
    · refine ⟨.lit [], _, rfl, within_nil, { hout with path := Or.inl (hsub _ _) }, ?_⟩
      rw [← hbytes]
      rfl
    · refine ⟨_, _, rfl, (hfrom _).1, { hout with path := Or.inl (hsub _ _) }, ?_⟩
      rw [← hbytes, (hfrom _).2]
      rfl
  · exact ⟨.lit [], out, rfl, within_nil, hout, rfl⟩

theorem urlParseHostPortS8_follows (hurl : Within d url) (hout : InUrl d out) :
    Follows d (urlParseHostPortS8 d url out) (urlParseHostPort (url.bytes d) (out.bytes d)) := by
  have hsub := fun start size => (strSubStrS8_within hurl start size).1
  have hbytes := fun start size => (strSubStrS8_within hurl start size).2
  have hscheme : (out.bytes d).scheme = out.scheme.bytes d := rfl
  unfold urlParseHostPortS8 urlParseHostPort
  rw [hscheme, urlDefaultPortForSchemeS8_eq hout.scheme.readable]
  simp only [urlHostPortS8_eq hurl, Option.bind_eq_bind, Option.bind_some]
  generalize urlHostPort (url.bytes d) (urlDefaultPortForScheme (out.scheme.bytes d)) = hostPort
  have hport : InUrl d { out with port := hostPort.2 } := { hout with }
  split
  · have hhost : InUrl d { out with port := hostPort.2, host := strSubStrS8 url 0 hostPort.1 } :=
      { hout with host := Or.inl (hsub _ _) }
    have hpath := urlParsePathS8_follows hurl hhost
    simp only [strSubStrS8_length hurl]
    split
    · refine ⟨.lit [], _, rfl, within_nil, hhost, ?_⟩
      rw [← hbytes]
      rfl
    · rw [← hbytes]
      exact hpath
  · exact urlParsePathS8_follows hurl hport

/-! ## Query and fragment -/

theorem urlParseQueryS8_follows (hurl : Within d url) (hout : InUrl d out) :
    Follows d (urlParseQueryS8 d url out) (urlParseQuery (url.bytes d) (out.bytes d)) := by
  have hfrom := strFromS8_within hurl 1
  have hsub := fun start size => (strSubStrS8_within hfrom.1 start size).1
  have hbytes := fun start size => (strSubStrS8_within hfrom.1 start size).2
  have hfragment : (out.bytes d).fragment.length = out.fragment.size := hout.fragment.readable.length
  unfold urlParseQueryS8 urlParseQuery
  simp only [strStartsWithCharS8_eq hurl.readable, strStartsWithCharS8_eq hfrom.1.readable, Option.bind_eq_bind,
    Option.bind_some, hfragment]
  split
  · exact ⟨url, out, rfl, hurl, hout, rfl⟩
  · have hquery : InUrl d { out with query := strSubStrS8 (strFromS8 url 1) 0 0 } :=
      { hout with query := Or.inl (hsub _ _) }
    rw [← hfrom.2]
    simp only [← hbytes]
    split
    · exact ⟨.lit [], _, rfl, within_nil, { hquery with }, rfl⟩
    · exact ⟨_, _, rfl, hsub _ _, hquery, rfl⟩

theorem urlParseFragmentS8_follows (hurl : Within d url) (hout : InUrl d out) :
    ∃ out', urlParseFragmentS8 d url out = some out' ∧ InUrl d out' ∧
      out'.bytes d = urlParseFragment (url.bytes d) (out.bytes d) := by
  have hsub := strSubStrS8_within hurl 1 0
  unfold urlParseFragmentS8 urlParseFragment
  rw [strStartsWithCharS8_eq hurl.readable]
  simp only [Option.bind_eq_bind, Option.bind_some, strSubStrS8_length hurl]
  split
  · exact ⟨out, rfl, hout, rfl⟩
  · rw [← hsub.2]
    split
    · exact ⟨_, rfl, { hout with fragment := Or.inl hsub.1 }, rfl⟩
    · exact ⟨_, rfl, { hout with fragment := Or.inl hsub.1 }, rfl⟩

theorem urlDefaultsS8_follows (hout : InUrl d out) :
    InUrl d (urlDefaultsS8 out) ∧ (urlDefaultsS8 out).bytes d = urlDefaults (out.bytes d) := by
  have hhost : (out.bytes d).host.length = out.host.size := hout.host.readable.length
  have hpath : (out.bytes d).path.length = out.path.size := hout.path.readable.length
  have herror : (out.bytes d).error = out.error := rfl
  unfold urlDefaultsS8 urlDefaults
  rw [hhost, hpath, herror]
  split
  · refine ⟨{ hout with host := ?_, path := ?_ }, ?_⟩
    · dsimp only
      split
      · exact Or.inr (Or.inr rfl)
      · exact hout.host
    · dsimp only
      split
      · exact Or.inr (Or.inl rfl)
      · exact hout.path
    · split <;> split <;> rfl
  · exact ⟨hout, rfl⟩

/-! ## The whole parser -/

/-- `urlGoOnS8` on texts. -/
def urlGoOn (parsed : List UInt8 × Url) (next : List UInt8 → Url → Url) : Url :=
  if parsed.2.error ≠ .ok then parsed.2 else next parsed.1 parsed.2

theorem urlFromStr_goOn (text : List UInt8) :
    urlFromStr text =
      urlGoOn (urlParseScheme text { path := s8 "/" }) fun url out =>
      urlGoOn (urlParseUserPass url out) fun url out =>
      urlGoOn (urlParseHostPort url out) fun url out =>
      urlGoOn (urlParseQuery url out) fun url out =>
      urlDefaults (urlParseFragment url out) := by
  unfold urlFromStr urlGoOn
  dsimp only

theorem follows_goOn {parsed : Option (S8 × UrlS8)} {expected : List UInt8 × Url} (h : Follows d parsed expected)
    {next : S8 → UrlS8 → Option UrlS8} {nextText : List UInt8 → Url → Url}
    (hnext : ∀ url out, Within d url → InUrl d out →
      ∃ out', next url out = some out' ∧ InUrl d out' ∧ out'.bytes d = nextText (url.bytes d) (out.bytes d)) :
    ∃ out', urlGoOnS8 parsed next = some out' ∧ InUrl d out' ∧ out'.bytes d = urlGoOn expected nextText := by
  obtain ⟨url, out, rfl, hurl, hout, rfl⟩ := h
  have herror : (out.bytes d).error = out.error := rfl
  unfold urlGoOnS8 urlGoOn
  rw [Option.bind_eq_bind, Option.bind_some]
  dsimp only
  rw [herror]
  split
  · exact ⟨out, rfl, hout, rfl⟩
  · exact hnext url out hurl hout

theorem urlFromStrS8_follows (d : List UInt8) :
    ∃ out, urlFromStrS8 d = some out ∧ InUrl d out ∧ out.bytes d = urlFromStr d := by
  have hnull : Part d .null := Or.inl (Or.inl rfl)
  have hstart : InUrl d { path := .lit (s8 "/") } :=
    { scheme := hnull, user := hnull, pass := hnull, host := hnull, path := Or.inr (Or.inl rfl), query := hnull,
      fragment := hnull }
  have hscheme := urlParseSchemeS8_follows within_whole hstart
  have hwhole : (S8.slice 0 d.length).bytes d = d := by simp
  rw [hwhole] at hscheme
  rw [urlFromStr_goOn]
  refine follows_goOn hscheme fun url out hurl hout => ?_
  refine follows_goOn (urlParseUserPassS8_follows hurl hout) fun url out hurl hout => ?_
  refine follows_goOn (urlParseHostPortS8_follows hurl hout) fun url out hurl hout => ?_
  refine follows_goOn (urlParseQueryS8_follows hurl hout) fun url out hurl hout => ?_
  obtain ⟨out', hfragment, hout', hbytes⟩ := urlParseFragmentS8_follows hurl hout
  rw [hfragment, ← hbytes]
  exact ⟨_, rfl, urlDefaultsS8_follows hout'⟩

theorem urlDefaults_filled {out : Url} (h : (urlDefaults out).error = .ok) :
    (urlDefaults out).host ≠ [] ∧ (urlDefaults out).path ≠ [] := by
  unfold urlDefaults at h ⊢
  split
  · constructor
    · dsimp only
      split
      · decide
      · rename_i hhost
        exact fun hnil => hhost (List.length_eq_zero_iff.mpr hnil)
    · dsimp only
      split
      · decide
      · rename_i hpath
        exact fun hnil => hpath (List.length_eq_zero_iff.mpr hnil)
  · rename_i herror
    rw [if_neg herror] at h
    exact absurd h herror

theorem goOn_filled {parsed : List UInt8 × Url} {next : List UInt8 → Url → Url}
    (hnext : ∀ url out, (next url out).error = .ok → (next url out).host ≠ [] ∧ (next url out).path ≠ [])
    (h : (urlGoOn parsed next).error = .ok) : (urlGoOn parsed next).host ≠ [] ∧ (urlGoOn parsed next).path ≠ [] := by
  unfold urlGoOn at h ⊢
  split
  · rename_i herror
    rw [if_pos herror] at h
    exact absurd h herror
  · rename_i hok
    rw [if_neg hok] at h
    exact hnext _ _ h

theorem urlFromStr_filled {text : List UInt8} (h : (urlFromStr text).error = .ok) :
    (urlFromStr text).host ≠ [] ∧ (urlFromStr text).path ≠ [] := by
  rw [urlFromStr_goOn] at h ⊢
  refine goOn_filled (fun _ _ => ?_) h
  refine goOn_filled fun _ _ => ?_
  refine goOn_filled fun _ _ => ?_
  refine goOn_filled fun _ _ => ?_
  exact urlDefaults_filled

/-- The parser returns for every URL. What it returns is what the parser on texts returns, each part is one of the
fixed texts or lies in the URL, and without an error there are a host and a path. -/
theorem urlFromStrS8_inUrl (d : List UInt8) :
    ∃ out, urlFromStrS8 d = some out ∧ InUrl d out ∧ out.bytes d = urlFromStr d ∧
      (out.error = .ok → 0 < out.host.size ∧ 0 < out.path.size) := by
  obtain ⟨out, hurl, hout, hbytes⟩ := urlFromStrS8_follows d
  refine ⟨out, hurl, hout, hbytes, ?_⟩
  intro hok
  have herror : (urlFromStr d).error = .ok := by
    rw [← hbytes]
    exact hok
  obtain ⟨hhost, hpath⟩ := urlFromStr_filled herror
  rw [← hbytes] at hhost hpath
  rw [← hout.host.readable.length, ← hout.path.readable.length]
  exact ⟨List.length_pos_iff.mpr hhost, List.length_pos_iff.mpr hpath⟩

end

end CWebServer
