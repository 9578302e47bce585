import CWebServer.Str

/-!
# Parsing a URL

The parts are taken off the text one behind the other: each function returns
what is left of it, together with the `Url` that it has filled in. An `i64` that
is handed on as a size is wrapped to 64 bits.
-/

namespace CWebServer

inductive UrlErrorCode
  | ok | scheme | userOrPass | hostOrPort | path | query | fragment
  deriving DecidableEq, Repr

structure Url where
  error : UrlErrorCode := .ok
  scheme : List UInt8 := []
  user : List UInt8 := []
  pass : List UInt8 := []
  host : List UInt8 := []
  port : Int := 0
  path : List UInt8 := []
  query : List UInt8 := []
  fragment : List UInt8 := []
  deriving DecidableEq, Repr

/-- Every comparison is with `0`, which is the answer for another string. -/
def urlDefaultPortForScheme (scheme : List UInt8) : Nat :=
  if scheme.length = 0 then 0
  else if strIsEqual scheme (s8 "http") = false then 80
  else if strIsEqual scheme (s8 "https") = false then 443
  else if strIsEqual scheme (s8 "ftp") = false then 21
  else if strIsEqual scheme (s8 "ssh") = false then 22
  else if strIsEqual scheme (s8 "telnet") = false then 23
  else 0

def urlParseScheme (url : List UInt8) (out : Url) : List UInt8 × Url :=
  let start := strFindChar url (chr ':')
  if start < 0 then (url, out)
  else
    let schemesep := strFrom url (wrap64 (start + 1))
    if strHasPrefix schemesep (s8 "//") = false then ([], { out with error := .scheme })
    else
      let out := { out with scheme := strSubStr url 0 (wrap64 start) }
      if out.scheme.length = 0 then ([], { out with error := .scheme })
      else (strFrom schemesep 2, out)

def urlParseUserPass (url : List UInt8) (out : Url) : List UInt8 × Url :=
  let start := strFindChar url (chr '@')
  -- the slice is empty
  let atpos := strFindChar (strSubStr url (wrap64 start) 0) (chr '@')
  if 0 ≤ start then
    let passsep := strFindChar (strSubStr url 0 (wrap64 atpos)) (chr ':')
    let out :=
      if passsep < 0 then { out with pass := [], user := strSubStr url 0 (wrap64 atpos) }
      else
        { out with
          user := strSubStr url 0 (wrap64 passsep)
          pass := strSubStr url (wrap64 (passsep + 1)) (wrap64 (atpos - passsep - 1)) }
    if out.user.length = 0 ∨ out.pass.length = 0 then ([], { out with error := .userOrPass })
    else (strSubStr url (wrap64 (atpos + 1)) 0, out)
  else (url, { out with pass := [], user := [] })

/-- `hostlen` and the port. -/
def urlHostPort (url : List UInt8) (defaultPort : Nat) : Nat × Int :=
  let portsep := strFindChar url (chr ':')
  let pathsep := strFindChar url (chr '/')
  if portsep < 0 then (if pathsep = 0 then url.length else wrap64 (pathsep - url.length), defaultPort)
  else if pathsep ≠ 0 ∧ portsep ≠ 0 ∧ pathsep < portsep then (wrap64 pathsep, defaultPort)
  else
    let strPort := strSubStr url (wrap64 (portsep + 1)) (wrap64 (pathsep - portsep - 1))
    (wrap64 portsep, strParseU32 strPort)

/-- The part of `url__parseHostPort` that is to become a function of its own. -/
def urlParsePath (url : List UInt8) (out : Url) : List UInt8 × Url :=
  let pathsep := strFindChar url (chr '/')
  if 0 ≤ pathsep then
    let pathEnd := strFind (strSubStr url (wrap64 pathsep) 0) (s8 "?#")
    let reslen := if 0 ≤ pathEnd then wrap64 pathEnd else url.length
    let out := { out with path := strSubStr url (wrap64 pathsep) reslen }
    if out.path.length = 0 then ([], { out with error := .hostOrPort }) else (strFrom url reslen, out)
  else ([], out)

def urlParseHostPort (url : List UInt8) (out : Url) : List UInt8 × Url :=
  let hostPort := urlHostPort url (urlDefaultPortForScheme out.scheme)
  let out := { out with port := hostPort.2 }
  if 0 < hostPort.1 then
    let out := { out with host := strSubStr url 0 hostPort.1 }
    if out.host.length = 0 then ([], out) else urlParsePath url out
  else urlParsePath url out

def urlParseQuery (url : List UInt8) (out : Url) : List UInt8 × Url :=
  if strStartsWithChar url (chr '?') = false then (url, out)
  else
    let url := strFrom url 1
    let queryLen := 0
    let out := { out with query := strSubStr url 0 queryLen }
    if out.fragment.length = 0 then ([], { out with error := .query })
    else (strSubStr url queryLen 0, out)

def urlParseFragment (url : List UInt8) (out : Url) : Url :=
  if strStartsWithChar url (chr '#') = false then out
  else
    let out := { out with fragment := strSubStr url 1 0 }
    if out.fragment.length = 0 then { out with error := .fragment } else out

/-- The last statement of `url_fromStr`. -/
def urlDefaults (out : Url) : Url :=
  if out.error = .ok then
    { out with
      host := if out.host.length = 0 then s8 "localhost" else out.host
      path := if out.path.length = 0 then s8 "/" else out.path }
  else out

def urlFromStr (url : List UInt8) : Url :=
  let (url, out) := urlParseScheme url { path := s8 "/" }
  if out.error ≠ .ok then out
  else
    let (url, out) := urlParseUserPass url out
    if out.error ≠ .ok then out
    else
      let (url, out) := urlParseHostPort url out
      if out.error ≠ .ok then out
      else
        let (url, out) := urlParseQuery url out
        if out.error ≠ .ok then out else urlDefaults (urlParseFragment url out)

end CWebServer
