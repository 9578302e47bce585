import CWebServer.CertFiles
import CWebServer.Numerals
import CWebServer.StrCopy

/-!
# The certificates of the peer

The checks of a certificate chain: the dates, which are compared as text, the
signature of each certificate by the next, and the host name. `validate_certificate`
of the web client and `tls_default_verify` differ in the roots and in what they
return. Whether a signature is right is a parameter of the model.
-/

namespace CWebServer

open Scan (scanTo)

def toLower (c : UInt8) : UInt8 := if 65 ≤ c ∧ c ≤ 90 then c + 32 else c

/-- The difference of the first bytes that differ; a string ends with 0. -/
def strcasecmp : List UInt8 → List UInt8 → Int
  | [], [] => 0
  | c :: _, [] => (toLower c).toNat
  | [], d :: _ => -(toLower d).toNat
  | c :: s, d :: t =>
    if toLower c = toLower d then strcasecmp s t else (toLower c).toNat - (toLower d).toNat

def strstr (haystack needle : List UInt8) : Option Nat :=
  (List.range (haystack.length + 1)).find? fun i => needle.isPrefixOf (haystack.drop i)

def badCertificate : Int := 42
def certificateExpired : Int := 45
def certificateUnknown : Int := 46
def noError : Int := 255

/-! ## Dates -/

/-- The year gets its century, and as many bytes are kept as there were before. -/
def tlsCertificateSetCopyDate (val : List UInt8) : Option (List UInt8) :=
  if 4 < val.length then
    some (((if val.headD 0 = chr '9' then s8 "19" else s8 "20") ++ val).take val.length)
  else none

/-- `gmtime(time(NULL))`, with the year and the month as they are written. -/
structure UtcTime where
  year : Nat
  month : Nat
  day : Nat
  hour : Nat
  minute : Nat
  second : Nat

/-- `%0nhu`. -/
def padded (width n : Nat) : List UInt8 := List.replicate (width - (decimal n).length) (chr '0') ++ decimal n

/-- `current_time`, which holds 15 bytes. -/
def currentTime (t : UtcTime) : List UInt8 :=
  (padded 4 t.year ++ padded 2 t.month ++ padded 2 t.day ++ padded 2 t.hour ++ padded 2 t.minute ++
    padded 2 t.second ++ s8 "Z").take 15

/-- `now` is `none` where `gmtime` fails. -/
def tlsCertificateIsValid (now : Option UtcTime) (cert : TlsCertificate) : Int :=
  match cert.notBefore, cert.notAfter with
  | some notBefore, some notAfter =>
    match now with
    | none => 0
    | some t =>
      if 0 < strcasecmp (cString notBefore) (currentTime t) then certificateExpired
      else if strcasecmp (cString notAfter) (currentTime t) < 0 then certificateExpired
      else 0
  | _, _ => certificateUnknown

/-! ## Names -/

/-- `NULL` and an empty string are the same here. -/
def tlsCertificateValidSubjectName (certSubject subject : Option (List UInt8)) : Int :=
  let certSubject := cString (certSubject.getD [])
  let subject := cString (subject.getD [])
  if certSubject = [] ∧ subject = [] then 0
  else if subject = [] then badCertificate
  else if certSubject = [] then badCertificate
  else if certSubject = subject then 0
  else
    match certSubject.drop (scanTo (· == chr '*') certSubject 0) with
    | [] => badCertificate
    | [_] => badCertificate
    | _ :: w :: wildcard =>
      match strstr subject (w :: wildcard) with
      | none => if w = chr '.' ∧ strcasecmp subject wildcard = 0 then 0 else badCertificate
      | some offset =>
        if offset ≠ 0 ∧ chr '.' ∈ subject.take offset then badCertificate
        else if strcasecmp (subject.drop offset) (w :: wildcard) = 0 then 0 else badCertificate

def sanLoop (subject : List UInt8) (err : Int) : List (Option (List UInt8)) → Int
  | [] => err
  | san :: rest =>
    let err := tlsCertificateValidSubjectName san (some subject)
    if err = 0 then err else sanLoop subject err rest

def tlsCertificateValidSubject (cert : TlsCertificate) (subject : List UInt8) : Int :=
  let err := tlsCertificateValidSubjectName cert.subject (some subject)
  if err ≠ 0 then sanLoop subject err (cert.san.getD []) else err

/-! ## Chains -/

section
variable (now : Option UtcTime) (verifySignature : TlsCertificate → TlsCertificate → Bool)

/-- The turns behind `cert`. A certificate without a fingerprint ends the loop. -/
def chainLoop (cert : TlsCertificate) : List TlsCertificate → Int
  | [] => 0
  | next :: rest =>
    if tlsCertificateIsValid now next ≠ 0 then badCertificate
    else if next.fingerprint = none then 0
    else if verifySignature cert next = false then badCertificate
    else chainLoop next rest

def tlsCertificateChainIsValid : List TlsCertificate → Int
  | [] => badCertificate
  | cert :: rest => if tlsCertificateIsValid now cert ≠ 0 then badCertificate else chainLoop now verifySignature cert rest

def tlsCertificateChainIsValidRoot (rootCertificates certificates : List TlsCertificate) : Int :=
  if certificates.any fun cert =>
      rootCertificates.any fun root => tlsCertificateIsValid now root = 0 && verifySignature cert root
  then 0 else badCertificate

/-- The loop over the dates: the first error. -/
def datesLoop : List TlsCertificate → Int
  | [] => 0
  | cert :: rest =>
    let err := tlsCertificateIsValid now cert
    if err ≠ 0 then err else datesLoop rest

/-- The steps that `validate_certificate` and `tls_default_verify` share. -/
def checkChain (sni : Option (List UInt8)) (chain : List TlsCertificate) : Int :=
  let err := datesLoop now chain
  if err ≠ 0 then err
  else
    let err := tlsCertificateChainIsValid now verifySignature chain
    if err ≠ 0 then err
    else
      match sni, chain with
      | some sni, cert :: _ => tlsCertificateValidSubject cert sni
      | _, _ => 0

/-- The callback of the web client. -/
def validateCertificate (sni : Option (List UInt8)) (chain : List TlsCertificate) : Int :=
  checkChain now verifySignature sni chain

def tlsDefaultVerify (isServer : Bool) (sni : Option (List UInt8)) (rootCertificates chain : List TlsCertificate) : Int :=
  let err := checkChain now verifySignature (if isServer then none else sni) chain
  if err ≠ 0 then err
  else
    let err := tlsCertificateChainIsValidRoot now verifySignature rootCertificates chain
    if err ≠ 0 then err else noError

end

/-- `certificate_verify_alert` of `tls_parse_payload`. The connection breaks if it is not `no_error`. -/
def certificateVerifyAlert (certificateVerify : Option (List TlsCertificate → Int)) (chain : List TlsCertificate) : Int :=
  match certificateVerify with
  | some verify => if chain ≠ [] then verify chain else noError
  | none => noError

end CWebServer
