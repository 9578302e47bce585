import CWebServer.Str

/-!
# The request head parser

`httpHeaderInit` scans the request line; each `httpHeaderNext` scans one more
header, from `needle` on. The indices are `i32` in the source and natural
numbers here: the data is a socket read of at most 65535 bytes, and below
`2 ^ 31` bytes no index leaves the range.
-/

namespace CWebServer

inductive HttpMethodType
  | unknown | get | post
  deriving DecidableEq, Repr

structure HttpHeader where
  headerData : List UInt8
  headerStart : Nat
  needle : Nat
  method : HttpMethodType
  methodText : S8
  path : S8
  protocol : S8
  currentHeaderKey : S8
  currentHeaderValue : S8
  deriving DecidableEq, Repr

/-- `headerTextLastEnd` and the filled entries of `headerText[3]`; their number is `headerTextIdx`. -/
structure RequestScan where
  headerTextLastEnd : Nat
  headerText : List S8
  deriving DecidableEq, Repr

mutual

/-- The outer loop of `http_headerInit`, at `idx` with the bytes from `idx` on. Returns `idx` at `endHeaderScan`. -/
def scanSpacing : List UInt8 → Nat → RequestScan → Nat × RequestScan
  | [], idx, s => (idx, s)
  | c :: rest, idx, s =>
    if strIsSpacingChar c then scanSpacing rest (idx + 1) { s with headerTextLastEnd := idx + 1 }
    else if strIsEndOfLineChar c then (idx + 1, s)
    -- the inner loop starts at the same byte, which ends no text
    else scanText rest (idx + 1) s

/-- The inner loop. At the end of the data the outer loop increments `idx` once more. -/
def scanText : List UInt8 → Nat → RequestScan → Nat × RequestScan
  | [], idx, s => (idx + 1, s)
  | c :: rest, idx, s =>
    if s.headerText.length < 3 then
      if strIsEndOfLineChar c || strIsSpacingChar c then
        let s' : RequestScan :=
          ⟨idx + 1, s.headerText ++ [.slice s.headerTextLastEnd (idx - s.headerTextLastEnd)]⟩
        if strIsEndOfLineChar c then (idx + 1, s') else scanSpacing rest (idx + 1) s'
      else scanText rest (idx + 1) s
    else scanText rest (idx + 1) s

end

def methodOf (d : List UInt8) (methodText : S8) : HttpMethodType :=
  if strIsEqual (methodText.bytes d) (s8 "GET") then .get
  else if strIsEqual (methodText.bytes d) (s8 "POST") then .post
  else .unknown

def httpHeaderInit (headerData : List UInt8) : HttpHeader :=
  let (idx, s) := scanSpacing headerData 0 ⟨0, []⟩
  -- `size - 1` is `2 ^ 64 - 1` for empty data
  let headerStart := if headerData.length = 0 then idx + 1 else min (idx + 1) (headerData.length - 1)
  { headerData
    headerStart
    needle := headerStart
    method := (s.headerText[0]?.map (methodOf headerData)).getD .unknown
    methodText := s.headerText[0]?.getD (.lit (s8 ""))
    path := s.headerText[1]?.getD (.lit (s8 ""))
    protocol := s.headerText[2]?.getD (.lit (s8 ""))
    currentHeaderKey := .lit (s8 "")
    currentHeaderValue := .lit (s8 "") }

def isColon (c : UInt8) : Bool := c == chr ':'

def httpHeaderNext (header : HttpHeader) : Bool × HttpHeader :=
  let d := header.headerData
  let keyStart := header.needle
  let keyEnd := Scan.scanTo isColon d keyStart
  if keyEnd < d.length then
    let valueStart := keyEnd + 1
    let valueEnd := Scan.scanTo strIsEndOfLineChar d keyEnd
    if valueEnd < d.length then
      (true, { header with
        needle := Scan.scanTo (! strIsEndOfLineChar ·) d valueEnd
        currentHeaderKey := strSkipWhiteSpace d (.slice keyStart (keyEnd - keyStart))
        currentHeaderValue := strSkipWhiteSpace d (.slice valueStart (valueEnd - valueStart)) })
    else (false, { header with needle := valueEnd })
  else (false, { header with needle := keyEnd })

def httpHeaderReset (header : HttpHeader) : HttpHeader := { header with needle := header.headerStart }

/-- `while (http_headerNext(&header))` for at most `fuel` calls: the pairs seen and the header after
the call that returned false. -/
def headerLoop : Nat → HttpHeader → Option (List (S8 × S8) × HttpHeader)
  | 0, _ => none
  | fuel + 1, header =>
    match httpHeaderNext header with
    | (false, h) => some ([], h)
    | (true, h) => (headerLoop fuel h).map fun r => ((h.currentHeaderKey, h.currentHeaderValue) :: r.1, r.2)

def pairBytes (d : List UInt8) (p : S8 × S8) : List UInt8 × List UInt8 := (p.1.bytes d, p.2.bytes d)

def httpPairs (d : List UInt8) : Option (List (List UInt8 × List UInt8)) :=
  (headerLoop (d.length + 1) (httpHeaderInit d)).map fun r => r.1.map (pairBytes d)

end CWebServer
