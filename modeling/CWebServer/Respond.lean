import CWebServer.FormatSound
import CWebServer.HtmlSound
import CWebServer.NumText
import CWebServer.RequestLine

/-!
# The response to a request

What `g_handleSocket` writes for the bytes that it has read. The path picks
the route; the page goes into one arena on the stack, the header with the
page's length into another. The default page is sent with one byte of the
stack behind it, and the length counts that byte.
-/

namespace CWebServer

structure HttpRoute where
  route : List UInt8
  shortRoute : Int
  deriving DecidableEq, Repr

def routeDefault : Int := 0

def routeAbout : Int := 1

def routes : List HttpRoute := [⟨s8 "/", routeDefault⟩, ⟨s8 "/about", routeAbout⟩]

/-- `routes[route_default]`, unless the loop finds the path among the routes. -/
def currentRoute (path : List UInt8) : HttpRoute :=
  (routes.find? fun r => strIsEqual path r.route).getD ⟨s8 "/", routeDefault⟩

/-- `stack` is what the bytes behind the `Arena` record hold when the macro is reached. -/
def memDefineMakeStackArena (stack : Nat → UInt8) (size : Nat) : Arena :=
  memMakeArenaPreAllocated stack (sizeOfArena + size)

/-- The bytes of `resposeText`. -/
def resposeText (stack : Nat → UInt8) (route : HttpRoute) : Option (List UInt8) :=
  if route.shortRoute = routeDefault then
    (htmlSession (memDefineMakeStackArena stack 2048) routeIndex).map fun r => r.1.inArena r.2
  else if route.shortRoute = routeAbout then some (s8 "About Me!")
  else some (s8 "")

def headerFmt : List UInt8 :=
  s8 "HTTP/1.1 200 OK\r\nContent-length: \x7b\x7d\r\nContent-type: text/html; charset=UTF-8\r\n\r\n"

/-- The bytes of `headerText`. The template is a literal: there is a zero byte behind it. -/
def headerText (ndebug : Bool) (stack : Nat → UInt8) (size : UInt64) : Option (List UInt8) :=
  let arg := strU64ToKeyVal size (s8 "resposeText.size")
  match strFmtVargs (memDefineMakeStackArena stack 2048)
      ⟨headerFmt, fun k => if k = 0 then some 0 else none, [⟨arg.1, arg.2.toStrValue⟩], ndebug⟩ with
  | some (.str strOut arena) => some (strOut.inArena arena)
  | some (.failed _) => some []
  | none => none

/-- The texts of the two `ws_writeData` calls. The arenas lie on `stack` and `stack'`. -/
def gResponse (ndebug : Bool) (stack stack' : Nat → UInt8) (message : List UInt8) : Option (List (List UInt8)) := do
  let header := httpHeaderInit message
  let text ← resposeText stack (currentRoute (header.path.bytes message))
  let head ← headerText ndebug stack' text.length.toUInt64
  some [head, text]

/-! ## The header -/

theorem sizeOf_key (size : UInt64) : strU64ToKeyVal size (s8 "resposeText.size") = ([], .u64 size) := by
  have hname : strReadNumExpression (s8 "resposeText.size") = none := by decide
  rw [strU64ToKeyVal, strU64ToVal, numToVal, hname, strValueToKeyVal]

def headStart : List UInt8 := s8 "HTTP/1.1 200 OK\r\nContent-length: "

def headEnd : List UInt8 := s8 "\r\nContent-type: text/html; charset=UTF-8\r\n\r\n"

/-- The header for a page of `n` bytes. -/
def okHead (n : Nat) : List UInt8 :=
  headStart ++ (s8 (toString n) ++ headEnd)

theorem headerFmt_template : fmtTemplate headStart [headEnd] = headerFmt := by decide

theorem headerText_eq (ndebug : Bool) (stack : Nat → UInt8) (size : UInt64) :
    headerText ndebug stack size = some (okHead size.toNat) := by
  have hdigits : (s8 (toString size.toNat)).length ≤ 20 :=
    decimal_length_le (by decide) (Nat.lt_trans size.toNat_lt (by decide))
  let args : List FmtArg := [⟨[], .u64 size⟩]
  let i : FmtInput := ⟨headerFmt, fun k => if k = 0 then some 0 else none, args.map FmtArg.toStrKeyValue, ndebug⟩
  have hscan : ScansTo i headerFmt 0 (okHead size.toNat) (fmtPeak headStart [headEnd] args) := by
    have h := scans_template (i := i) [headEnd] headStart 0 args rfl (Nat.le_refl _)
    rw [Scans, headerFmt_template] at h
    exact h
  have hroom : HasRoom (memDefineMakeStackArena stack 2048) (fmtPeak headStart [headEnd] args) := by
    have hpeak : fmtPeak headStart [headEnd] args =
        headStart.length + max (s8 (toString size.toNat)).length ((s8 (toString size.toNat)).length + headEnd.length) :=
      rfl
    have hstart : headStart.length = 33 := by decide
    have hend : headEnd.length = 44 := by decide
    refine ⟨Int.le_refl _, Nat.le_refl _, ?_, by show sizeOfArena + 2048 < 2 ^ 64; decide⟩
    show sizeOfArena + _ ≤ sizeOfArena + 2048
    omega
  obtain ⟨str, arena', hfmt, hreturns⟩ := fmt_of_scan hscan hroom
  have hfmt : strFmtVargs (memDefineMakeStackArena stack 2048) ⟨headerFmt, fun k => if k = 0 then some 0 else none,
      [⟨[], PlainValue.toStrValue (.u64 size)⟩], ndebug⟩ = some (.str str arena') := hfmt
  unfold headerText
  simp only [sizeOf_key, hfmt, hreturns.bytes]

/-! ## The page -/

def pageText : List UInt8 := emittedText routeIndex

/-- The page is returned with the byte of the stack behind it. -/
theorem page_session (stack : Nat → UInt8) :
    (htmlSession (memDefineMakeStackArena stack 2048) routeIndex).map (fun r => r.1.inArena r.2) =
      some (pageText ++ [stack pageText.length]) := by
  have hlength : pageText.length = 94 := by decide
  have hspace : EnoughSpace (memDefineMakeStackArena stack 2048) pageText.length := by
    refine ⟨rfl, Nat.le_refl _, ?_, by show sizeOfArena + 2048 < 2 ^ 64; decide⟩
    show sizeOfArena + _ ≤ sizeOfArena + 2048
    omega
  obtain ⟨c, hsession⟩ := session_result hspace rfl
  have hoff : (memDefineMakeStackArena stack 2048).pos - sizeOfArena = 0 := Nat.sub_self _
  rw [hsession, hoff, Option.map_some, S8.inArena, Memory.read_succ, memory_startUnsafeRecord, memory_append, hoff]
  show some (Memory.read (Memory.write stack 0 pageText) 0 pageText.length ++
    [Memory.write stack 0 pageText (0 + pageText.length)]) = _
  rw [Memory.read_write, Memory.write_apart stack (Or.inl (Nat.le_refl _)), Nat.zero_add]

/-! ## Responses -/

def aboutText : List UInt8 := s8 "About Me!"

theorem currentRoute_about : currentRoute (s8 "/about") = ⟨s8 "/about", routeAbout⟩ := by decide

/-- The default route for its own path and for every other. -/
theorem currentRoute_default {path : List UInt8} (h : path ≠ s8 "/about") :
    currentRoute path = ⟨s8 "/", routeDefault⟩ := by
  have habout : strIsEqual path (s8 "/about") = false := Bool.eq_false_iff.mpr fun he => h (strIsEqual_iff.mp he)
  unfold currentRoute routes
  cases hroot : strIsEqual path (s8 "/") <;> simp [hroot, habout]

/-- The body that is sent for a path. -/
def bodyText (stack : Nat → UInt8) (path : List UInt8) : List UInt8 :=
  if path = s8 "/about" then aboutText else pageText ++ [stack pageText.length]

theorem resposeText_eq (stack : Nat → UInt8) (path : List UInt8) :
    resposeText stack (currentRoute path) = some (bodyText stack path) := by
  unfold resposeText bodyText
  by_cases h : path = s8 "/about"
  · rw [h, currentRoute_about, if_neg (by decide), if_pos rfl, if_pos rfl]
    rfl
  · rw [currentRoute_default h, if_pos rfl, if_neg h, page_session]

theorem bodyText_length_lt (stack : Nat → UInt8) (path : List UInt8) : (bodyText stack path).length < 2 ^ 64 := by
  have hpage : pageText.length = 94 := by decide
  have habout : aboutText.length = 9 := by decide
  unfold bodyText
  split
  · rw [habout]; decide
  · rw [List.length_append, List.length_singleton, hpage]; decide

theorem gResponse_eq (ndebug : Bool) (stack stack' : Nat → UInt8) (message : List UInt8) :
    let body := bodyText stack ((httpHeaderInit message).path.bytes message)
    gResponse ndebug stack stack' message = some [okHead body.length, body] := by
  have hsize := UInt64.toNat_ofNat_of_lt' (bodyText_length_lt stack ((httpHeaderInit message).path.bytes message))
  simp only [gResponse]
  rw [resposeText_eq, Option.bind_eq_bind, Option.bind_some, headerText_eq, Option.bind_some]
  exact congrArg (fun n => some [okHead n, _]) hsize

/-- Every message that is not empty gets one header and one body, and the header has the length of the body. The message
decides by its path alone, which is the second text of its first line, but the page ends in a byte of the stack. -/
theorem response_eq (ndebug : Bool) (stack stack' : Nat → UInt8) (message : List UInt8) :
    gResponse ndebug stack stack' message =
        some [okHead (bodyText stack ((httpHeaderInit message).path.bytes message)).length,
          bodyText stack ((httpHeaderInit message).path.bytes message)] ∧
      ((∃ c ∈ message, strIsEndOfLineChar c = true) →
        (httpHeaderInit message).path.bytes message = (lineTokens message).getD 1 []) :=
  ⟨gResponse_eq ndebug stack stack' message, fun h => (readsTokens_init h).path⟩

end CWebServer
