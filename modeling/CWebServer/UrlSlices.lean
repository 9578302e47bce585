import CWebServer.Url

/-!
# Parsing a URL in place

The functions of the URL parser on pointers and sizes. `d` holds the bytes of
the URL; a read outside of them, or outside of a literal, gives `none`.
-/

namespace CWebServer

def S8.size : S8 → Nat
  | .null => 0
  | .lit text => text.length
  | .slice _ size => size

/-- `str.content[idx]` -/
def S8.content (d : List UInt8) : S8 → Nat → Option UInt8
  | .null, _ => none
  | .lit text, idx => text[idx]?
  | .slice start _, idx => d[start + idx]?

/-! ## Strings -/

def findCharLoop (d : List UInt8) (str : S8) (c : UInt8) : Nat → Nat → Option Int
  | 0, _ => some (-1)
  | left + 1, idx => do
    let b ← str.content d idx
    if b = c then some idx else findCharLoop d str c left (idx + 1)

def strFindCharS8 (d : List UInt8) (str : S8) (c : UInt8) : Option Int := findCharLoop d str c str.size 0

/-- The inner loop of `str_find`. Before the turns run out it has left the bytes. -/
def mismatchLoop (d : List UInt8) (str : S8) (idx : Nat) : Nat → Nat → Option Unit
  | 0, _ => none
  | turns + 1, fi => do
    let a ← str.content d (idx + fi)
    let b ← str.content d fi
    if a ≠ b then mismatchLoop d str idx turns (fi + 1) else some ()

/-- The outer loop returns in its first turn. -/
def strFindS8 (d : List UInt8) (str findExp : S8) : Option Int :=
  let idx := 0
  if idx + findExp.size < str.size then do
    mismatchLoop d str idx (d.length + 1) 0
    some idx
  else some (-1)

def strStartsWithCharS8 (d : List UInt8) (str : S8) (startChar : UInt8) : Option Bool :=
  if str.size = 0 then some false else (str.content d 0).map (· == startChar)

def sameLoop (d : List UInt8) (left right : S8) : Nat → Nat → Option Bool
  | 0, _ => some true
  | count + 1, idx => do
    let a ← left.content d idx
    let b ← right.content d idx
    if a ≠ b then some false else sameLoop d left right count (idx + 1)

def strHasPrefixS8 (d : List UInt8) (str start : S8) : Option Bool :=
  if str.size < start.size then some false else sameLoop d str start start.size 0

def strIsEqualS8 (d : List UInt8) (left right : S8) : Option Bool :=
  if left.size ≠ right.size then some false else sameLoop d left right left.size 0

def S8.shift : S8 → Nat → Nat → S8
  | .null, _, _ => .null
  | .lit text, start, size => .lit ((text.drop start).take size)
  | .slice start₀ _, start, size => .slice (start₀ + start) size

def strSubStrS8 (str : S8) (start size : Nat) : S8 :=
  if str.size = 0 then str
  else if str.size ≤ start then .null
  else str.shift start (min (str.size - start) size)

def strFromS8 (str : S8) (start : Nat) : S8 :=
  if str.size ≤ start then .null
  else
    let start := min (str.size - 1) start
    str.shift start (str.size - start)

def parseU32LoopS8 (d : List UInt8) (str : S8) : Nat → Nat → Nat → Option Nat
  | 0, out, _ => some out
  | left + 1, out, idx => do
    let numChar ← str.content d idx
    if strIsNumberChar numChar then
      let out := out * 10 + (numChar.toNat - 48)
      if u32Max ≤ out then some u32Max else parseU32LoopS8 d str left out (idx + 1)
    else some out

def strParseU32S8 (d : List UInt8) (str : S8) : Option Nat := parseU32LoopS8 d str str.size 0 0

/-! ## The parser -/

structure UrlS8 where
  error : UrlErrorCode := .ok
  scheme : S8 := .null
  user : S8 := .null
  pass : S8 := .null
  host : S8 := .null
  port : Int := 0
  path : S8 := .null
  query : S8 := .null
  fragment : S8 := .null
  deriving DecidableEq, Repr

def urlDefaultPortForSchemeS8 (d : List UInt8) (scheme : S8) : Option Nat := do
  if scheme.size = 0 then some 0
  else if (← strIsEqualS8 d scheme (.lit (s8 "http"))) = false then some 80
  else if (← strIsEqualS8 d scheme (.lit (s8 "https"))) = false then some 443
  else if (← strIsEqualS8 d scheme (.lit (s8 "ftp"))) = false then some 21
  else if (← strIsEqualS8 d scheme (.lit (s8 "ssh"))) = false then some 22
  else if (← strIsEqualS8 d scheme (.lit (s8 "telnet"))) = false then some 23
  else some 0

def urlParseSchemeS8 (d : List UInt8) (url : S8) (out : UrlS8) : Option (S8 × UrlS8) := do
  let start ← strFindCharS8 d url (chr ':')
  if start < 0 then some (url, out)
  else
    let schemesep := strFromS8 url (wrap64 (start + 1))
    if (← strHasPrefixS8 d schemesep (.lit (s8 "//"))) = false then some (.lit [], { out with error := .scheme })
    else
      let out := { out with scheme := strSubStrS8 url 0 (wrap64 start) }
      if out.scheme.size = 0 then some (.lit [], { out with error := .scheme })
      else some (strFromS8 schemesep 2, out)

def urlParseUserPassS8 (d : List UInt8) (url : S8) (out : UrlS8) : Option (S8 × UrlS8) := do
  let start ← strFindCharS8 d url (chr '@')
  let atpos ← strFindCharS8 d (strSubStrS8 url (wrap64 start) 0) (chr '@')
  if 0 ≤ start then
    let passsep ← strFindCharS8 d (strSubStrS8 url 0 (wrap64 atpos)) (chr ':')
    let out :=
      if passsep < 0 then { out with pass := .lit [], user := strSubStrS8 url 0 (wrap64 atpos) }
      else
        { out with
          user := strSubStrS8 url 0 (wrap64 passsep)
          pass := strSubStrS8 url (wrap64 (passsep + 1)) (wrap64 (atpos - passsep - 1)) }
    if out.user.size = 0 ∨ out.pass.size = 0 then some (.lit [], { out with error := .userOrPass })
    else some (strSubStrS8 url (wrap64 (atpos + 1)) 0, out)
  else some (url, { out with pass := .lit [], user := .lit [] })

/-- `hostlen` and the port. -/
def urlHostPortS8 (d : List UInt8) (url : S8) (defaultPort : Nat) : Option (Nat × Int) := do
  let portsep ← strFindCharS8 d url (chr ':')
  let pathsep ← strFindCharS8 d url (chr '/')
  if portsep < 0 then some (if pathsep = 0 then url.size else wrap64 (pathsep - url.size), defaultPort)
  else if pathsep ≠ 0 ∧ portsep ≠ 0 ∧ pathsep < portsep then some (wrap64 pathsep, defaultPort)
  else
    let port ← strParseU32S8 d (strSubStrS8 url (wrap64 (portsep + 1)) (wrap64 (pathsep - portsep - 1)))
    some (wrap64 portsep, port)

def urlParsePathS8 (d : List UInt8) (url : S8) (out : UrlS8) : Option (S8 × UrlS8) := do
  let pathsep ← strFindCharS8 d url (chr '/')
  if 0 ≤ pathsep then
    let pathEnd ← strFindS8 d (strSubStrS8 url (wrap64 pathsep) 0) (.lit (s8 "?#"))
    let reslen := if 0 ≤ pathEnd then wrap64 pathEnd else url.size
    let out := { out with path := strSubStrS8 url (wrap64 pathsep) reslen }
    if out.path.size = 0 then some (.lit [], { out with error := .hostOrPort }) else some (strFromS8 url reslen, out)
  else some (.lit [], out)

def urlParseHostPortS8 (d : List UInt8) (url : S8) (out : UrlS8) : Option (S8 × UrlS8) := do
  let defaultPort ← urlDefaultPortForSchemeS8 d out.scheme
  let hostPort ← urlHostPortS8 d url defaultPort
  let out := { out with port := hostPort.2 }
  if 0 < hostPort.1 then
    let out := { out with host := strSubStrS8 url 0 hostPort.1 }
    if out.host.size = 0 then some (.lit [], out) else urlParsePathS8 d url out
  else urlParsePathS8 d url out

def urlParseQueryS8 (d : List UInt8) (url : S8) (out : UrlS8) : Option (S8 × UrlS8) := do
  if (← strStartsWithCharS8 d url (chr '?')) = false then some (url, out)
  else
    let url := strFromS8 url 1
    -- whether a fragment follows is never negative
    let _ ← strStartsWithCharS8 d url (chr '#')
    let queryLen := 0
    let out := { out with query := strSubStrS8 url 0 queryLen }
    if out.fragment.size = 0 then some (.lit [], { out with error := .query })
    else some (strSubStrS8 url queryLen 0, out)

def urlParseFragmentS8 (d : List UInt8) (url : S8) (out : UrlS8) : Option UrlS8 := do
  if (← strStartsWithCharS8 d url (chr '#')) = false then some out
  else
    let out := { out with fragment := strSubStrS8 url 1 0 }
    some (if out.fragment.size = 0 then { out with error := .fragment } else out)

def urlDefaultsS8 (out : UrlS8) : UrlS8 :=
  if out.error = .ok then
    { out with
      host := if out.host.size = 0 then .lit (s8 "localhost") else out.host
      path := if out.path.size = 0 then .lit (s8 "/") else out.path }
  else out

/-- `url_fromStr` returns early after an error. -/
def urlGoOnS8 (parsed : Option (S8 × UrlS8)) (next : S8 → UrlS8 → Option UrlS8) : Option UrlS8 := do
  let (url, out) ← parsed
  if out.error ≠ .ok then some out else next url out

/-- `d` is the URL, and `url` points to all of it. -/
def urlFromStrS8 (d : List UInt8) : Option UrlS8 :=
  urlGoOnS8 (urlParseSchemeS8 d (.slice 0 d.length) { path := .lit (s8 "/") }) fun url out =>
  urlGoOnS8 (urlParseUserPassS8 d url out) fun url out =>
  urlGoOnS8 (urlParseHostPortS8 d url out) fun url out =>
  urlGoOnS8 (urlParseQueryS8 d url out) fun url out =>
  (urlParseFragmentS8 d url out).map urlDefaultsS8

end CWebServer
