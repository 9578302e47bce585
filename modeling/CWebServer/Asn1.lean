import CWebServer.Certificates

/-!
# The parser of certificates and keys

`_private_asn1_parse` goes through the elements of a buffer and calls itself for
what is inside. Where an element stands is told by `fields`, the numbers of the
elements that lead to it; numbers of deeper elements stay from before. A byte
that is read behind the memory is a fault (`none`); a word that is read behind
`fields` is whatever stands there.
-/

namespace CWebServer

structure X509Name where
  country : Option (List UInt8) := none
  state : Option (List UInt8) := none
  location : Option (List UInt8) := none
  entity : Option (List UInt8) := none
  subject : Option (List UInt8) := none
  deriving DecidableEq, Repr

/-- `struct TLSCertificate` as the parser fills it. `NULL` and an empty string are both the empty list in the fields
that have a length of their own. -/
structure X509Certificate where
  version : Nat := 0
  algorithm : Nat := 0
  keyAlgorithm : Nat := 0
  ecAlgorithm : Nat := 0
  exponent : List UInt8 := []
  pk : List UInt8 := []
  priv : List UInt8 := []
  issuer : X509Name := {}
  notBefore : Option (List UInt8) := none
  notAfter : Option (List UInt8) := none
  owner : X509Name := {}
  san : List (Option (List UInt8)) := []
  ocsp : Option (List UInt8) := none
  serialNumber : List UInt8 := []
  signKey : List UInt8 := []
  fingerprint : Option (List UInt8) := none
  derBytes : List UInt8 := []
  deriving DecidableEq, Repr

def X509Certificate.toTlsCertificate (cert : X509Certificate) : TlsCertificate where
  version := cert.version
  ecAlgorithm := cert.ecAlgorithm
  priv := cert.priv
  derBytes := cert.derBytes
  notBefore := cert.notBefore
  notAfter := cert.notAfter
  subject := cert.owner.subject
  san := if cert.san = [] then none else some cert.san
  fingerprint := cert.fingerprint

/-! ## Fields and object identifiers -/

def versionId : List Nat := [1, 1, 1]
def pkId : List Nat := [1, 1, 7]
def serialId : List Nat := [1, 1, 2, 1]
def issurerId : List Nat := [1, 1, 4]
def ownerId : List Nat := [1, 1, 6]
def validityId : List Nat := [1, 1, 5]
def algorithmId : List Nat := [1, 1, 3]
def signId : List Nat := [1, 3, 2, 1]
def privId : List Nat := [1, 4]
def privDerId : List Nat := [1, 3, 1]
def eccPrivId : List Nat := [1, 2]

def isField (fields : Nat → Nat) (id : List Nat) : Bool := (List.range id.length).map fields = id

def countryOid : List UInt8 := [0x55, 0x04, 0x06]
def stateOid : List UInt8 := [0x55, 0x04, 0x08]
def locationOid : List UInt8 := [0x55, 0x04, 0x07]
def entityOid : List UInt8 := [0x55, 0x04, 0x0A]
def subjectOid : List UInt8 := [0x55, 0x04, 0x03]
def sanOid : List UInt8 := [0x55, 0x1D, 0x11]
def ocspOid : List UInt8 := [0x2B, 0x06, 0x01, 0x05, 0x05, 0x07, 0x30, 0x01]

/-- A zero byte of `oid` ends the comparison, and the byte behind the last one that is compared is read. -/
def isOid : List UInt8 → List UInt8 → Option Bool
  | [], _ => none
  | _ :: _, [] => some true
  | c :: oid, d :: compareTo => if c = 0 then some true else if c ≠ d then some false else isOid oid compareTo

def isOid2 (oid compareTo : List UInt8) : Bool := compareTo.isPrefixOf oid

def ecPublicKeyOid : List UInt8 := [0x2A, 0x86, 0x48, 0xCE, 0x3D, 0x02, 0x01]
def prime256v1Oid : List UInt8 := [0x2A, 0x86, 0x48, 0xCE, 0x3D, 0x03, 0x01, 0x07]
def secp224r1Oid : List UInt8 := [0x2B, 0x81, 0x04, 0x00, 0x21]
def secp384r1Oid : List UInt8 := [0x2B, 0x81, 0x04, 0x00, 0x22]
def secp521r1Oid : List UInt8 := [0x2B, 0x81, 0x04, 0x00, 0x23]

/-- The identifiers of eight bytes, in the order in which they are tried. -/
def oids8 : List (List UInt8 × Nat) :=
  [([0x2A, 0x86, 0x48, 0xCE, 0x3D, 0x04, 0x03, 0x01], 0x0F), ([0x2A, 0x86, 0x48, 0xCE, 0x3D, 0x04, 0x03, 0x02], 0x0E),
    ([0x2A, 0x86, 0x48, 0xCE, 0x3D, 0x04, 0x03, 0x03], 0x10), ([0x2A, 0x86, 0x48, 0xCE, 0x3D, 0x04, 0x03, 0x04], 0x1A),
    ([0x2A, 0x86, 0x48, 0xCE, 0x3D, 0x03, 0x01, 0x01], 0x12), ([0x2A, 0x86, 0x48, 0xCE, 0x3D, 0x03, 0x01, 0x02], 0x13),
    ([0x2A, 0x86, 0x48, 0xCE, 0x3D, 0x03, 0x01, 0x03], 0x14), ([0x2A, 0x86, 0x48, 0xCE, 0x3D, 0x03, 0x01, 0x04], 0x15),
    ([0x2A, 0x86, 0x48, 0xCE, 0x3D, 0x03, 0x01, 0x05], 0x16), ([0x2A, 0x86, 0x48, 0xCE, 0x3D, 0x03, 0x01, 0x06], 0x17),
    (prime256v1Oid, 0x18)]

/-- The RSA signatures, in the order in which they are tried. -/
def oids9 : List (List UInt8 × Nat) :=
  [([0x2A, 0x86, 0x48, 0x86, 0xF7, 0x0D, 0x01, 0x01, 0x0E], 0x0A),
    ([0x2A, 0x86, 0x48, 0x86, 0xF7, 0x0D, 0x01, 0x01, 0x0B], 0x0B),
    ([0x2A, 0x86, 0x48, 0x86, 0xF7, 0x0D, 0x01, 0x01, 0x01], 0x01),
    ([0x2A, 0x86, 0x48, 0x86, 0xF7, 0x0D, 0x01, 0x01, 0x05], 0x05),
    ([0x2A, 0x86, 0x48, 0x86, 0xF7, 0x0D, 0x01, 0x01, 0x0D], 0x0D),
    ([0x2A, 0x86, 0x48, 0x86, 0xF7, 0x0D, 0x01, 0x01, 0x0C], 0x0C),
    ([0x2A, 0x86, 0x48, 0x86, 0xF7, 0x0D, 0x01, 0x01, 0x04], 0x04)]

def firstOid (val : List UInt8) : List (List UInt8 × Nat) → Option (Option Nat)
  | [] => some none
  | (oid, algorithm) :: rest => do if ← isOid val oid then some (some algorithm) else firstOid val rest

/-- The algorithm, or `none` at `error`. `val` is the memory from the identifier on. -/
def tlsCertificateSetAlgorithm (val : List UInt8) (len : Nat) : Option (Option Nat) :=
  if len = 7 then firstOid val [(ecPublicKeyOid, 0x11)]
  else if len = 8 then firstOid val oids8
  else if len = 5 then
    some (if isOid2 val secp224r1Oid then some 21 else if isOid2 val secp384r1Oid then some 24
      else if isOid2 val secp521r1Oid then some 25 else none)
  else if len ≠ 9 then some none
  else firstOid val oids9

/-- Some of the texts of a name, by the object identifier in front of them. -/
inductive NameField
  | country
  | state
  | location
  | entity
  | subject
  deriving DecidableEq, Repr

/-- The first field whose identifier matches. -/
def nameField (oid : List UInt8) : List (List UInt8 × NameField) → Option (Option NameField)
  | [] => some none
  | (known, field) :: rest => do if ← isOid oid known then some (some field) else nameField oid rest

def nameOids : List (List UInt8 × NameField) :=
  [(countryOid, .country), (stateOid, .state), (locationOid, .location), (entityOid, .entity), (subjectOid, .subject)]

/-- `tls_certificate_set_copy` -/
def tlsCertificateSetCopy (val : List UInt8) : Option (List UInt8) := if val = [] then none else some val

def X509Name.set (name : X509Name) (val : List UInt8) : NameField → X509Name
  | .country => { name with country := tlsCertificateSetCopy val }
  | .state => { name with state := tlsCertificateSetCopy val }
  | .location => { name with location := tlsCertificateSetCopy val }
  | .entity => { name with entity := tlsCertificateSetCopy val }
  | .subject => { name with subject := tlsCertificateSetCopy val }

/-- What `tls_certificate_set_key` and `tls_certificate_set_sign_key` copy. The first byte is read before the length. -/
def withoutSign (val : List UInt8) (len : Nat) : Option (List UInt8) := do
  let first ← val[0]?
  some (if first = 0 ∧ len % 2 = 1 then (val.take len).drop 1 else val.take len)

/-! ## Lengths -/

/-- The bytes of a long length, from the last one on. -/
def lenLoop (buffer : List UInt8) : Nat → Nat → Nat → Option Nat
  | 0, _, longSize => some longSize
  | i + 1, coef, longSize => do
    let byte ← buffer[i + 1]?
    lenLoop buffer i (coef * 0x100) (longSize + byte.toNat * coef)

/-- The length and `octets`, the number of bytes that it takes. -/
def asn1GetLen (buffer : List UInt8) (bufLen : Nat) : Option (Nat × Nat) :=
  if bufLen < 1 then some (0, 0)
  else do
    let size ← buffer[0]?
    if size &&& 0x80 ≠ 0 then
      let octets := (size &&& 0x7F).toNat
      if bufLen - 1 < octets then some (0, octets)
      else do
        let longSize ← lenLoop buffer (min octets 4) 1 0
        some (longSize, octets + 1)
    else some (size.toNat, 1)

/-! ## Elements -/

/-- What the calls of the parser share. `topOid` is there for a private key alone. -/
structure Asn1State where
  cert : X509Certificate
  fields : Nat → Nat
  topOid : Option (List UInt8)
  criticalError : Bool

/-- The variables of one call: the number of the element, the identifier that was seen last, `*has_key`, and the bytes
that are signed. -/
structure Asn1Locals where
  idx : Nat := 0
  oid : List UInt8 := List.replicate 16 0
  hasKey : Bool := false
  certData : List UInt8 := []

/-- What does not change: `context->is_server`, `client_cert`, and `_private_tls_compute_hash`. -/
structure Asn1Env where
  isServer : Bool
  clientCert : Bool
  computeHash : Nat → List UInt8 → Option (List UInt8)

/-- A call for what is inside an element: the level, the identifiers of the calls around it, the memory and the size. -/
abbrev Asn1Child := Nat → List (List UInt8) → List UInt8 → Nat → Asn1State → Option (Asn1State × Bool)

def Asn1State.modify (st : Asn1State) (f : X509Certificate → X509Certificate) : Asn1State :=
  { st with cert := f st.cert }

def Asn1State.setField (st : Asn1State) (i v : Nat) : Asn1State :=
  { st with fields := fun j => if j = i then v else st.fields j }

/-- The number of an element is stored before its length is read. -/
def Asn1State.enter (st : Asn1State) (level v : Nat) : Asn1State :=
  if level ≤ 0xFF then st.setField (level - 1) v else st

section
variable (env : Asn1Env) (child : Asn1Child) (level : Nat) (chain : List (List UInt8))

/-- An element with elements inside; `whole` is the memory from its tag on, and `header` the size of tag and length. -/
def asn1Constructed (type : UInt8) (whole : List UInt8) (header length : Nat) (l : Asn1Locals) (st : Asn1State) :
    Option (Asn1State × Asn1Locals) := do
  let bytes := whole.take (header + length)
  let l := if type = 0x10 ∧ level = 2 ∧ l.idx = 1 then { l with certData := bytes } else l
  let st :=
    if type = 0x10 ∧ st.cert.version = 0 ∧ isField st.fields privDerId then
      st.modify fun cert => { cert with derBytes := bytes }
    else st
  let (st, localHasKey) ← child (level + 1) (l.oid :: chain) (whole.drop header) length st
  let st :=
    if localHasKey ∧ (¬ env.isServer ∨ env.clientCert) ∧ isField st.fields pkId then
      st.modify fun cert => { cert with derBytes := bytes }
    else st
  some (st, l)

/-- An integer under `pk_id` is the modulus or the exponent. -/
def integerKey (data : List UInt8) (length : Nat) (l : Asn1Locals) (st : Asn1State) : Option (Asn1State × Asn1Locals) :=
  let val := data.take length
  if isField st.fields pkId then
    if l.idx = 1 then do
      let key ← withoutSign data length
      some (st.modify fun cert => { cert with pk := key }, { l with hasKey := true })
    else if l.idx = 2 then some (st.modify fun cert => { cert with exponent := val }, { l with hasKey := true })
    else some (st, { l with hasKey := true })
  else if isField st.fields serialId then some (st.modify fun cert => { cert with serialNumber := val }, l)
  else some (st, l)

/-- The next element counts as one later, which lets a version 1 certificate begin with its serial number. -/
def integerVersion (data : List UInt8) (length : Nat) (l : Asn1Locals) (st : Asn1State) :
    Option (Asn1State × Asn1Locals) :=
  if isField st.fields versionId then
    if length = 1 then do
      let byte ← data[0]?
      some (st.modify fun cert => { cert with version := byte.toNat }, { l with idx := l.idx + 1 })
    else some (st.modify fun cert => { cert with version := 0 }, { l with idx := l.idx + 1 })
  else some (st, l)

/-- The fourth element of a first one, at any level. -/
def integerPriv (data : List UInt8) (length : Nat) (st : Asn1State) : Asn1State :=
  if 2 ≤ level ∧ [st.fields (level - 2), st.fields (level - 1)] = privId then
    st.modify fun cert => { cert with priv := data.take length }
  else st

/-- The tag of an alternative name is that of an integer in another class. -/
def integerSan (data : List UInt8) (length : Nat) (st : Asn1State) : Asn1State :=
  if 2 < length ∧ chain.any (isOid2 · sanOid) then
    st.modify fun cert => { cert with san := cert.san ++ [tlsCertificateSetCopy (data.take length)] }
  else st

def asn1Integer (data : List UInt8) (length : Nat) (l : Asn1Locals) (st : Asn1State) :
    Option (Asn1State × Asn1Locals) := do
  let (st, l) ← integerKey data length l st
  let (st, l) ← integerVersion data length l st
  some (integerSan chain data length (integerPriv level data length st), l)

/-- The first identifier is compared in three bytes: `sizeof` is that of a number. -/
def curveOf (topOid : List UInt8) : Option Nat :=
  if isOid2 topOid (prime256v1Oid.take 3) then some 23
  else if isOid2 topOid secp224r1Oid then some 21
  else if isOid2 topOid secp384r1Oid then some 24
  else if isOid2 topOid secp521r1Oid then some 25
  else none

/-- What the identifier in front of the bits says about them. -/
def bitStringCurve (data : List UInt8) (length : Nat) (st : Asn1State) : Option Asn1State :=
  match st.topOid with
  | none => some st
  | some topOid =>
    let st := st.modify fun cert => { cert with ecAlgorithm := (curveOf topOid).getD cert.ecAlgorithm }
    if st.cert.ecAlgorithm ≠ 0 ∧ st.cert.pk = [] then do
      let key ← withoutSign data length
      some (st.modify fun cert => { cert with pk := key })
    else some st

/-- The elements inside of the bits. The number of unused bits is skipped in a long string only. -/
def bitStringInside (data : List UInt8) (length : Nat) (l : Asn1Locals) (st : Asn1State) :
    Option (Asn1State × Bool) := do
  let first ← data[0]?
  if first = 0 ∧ 256 < length then child (level + 1) (l.oid :: chain) (data.drop 1) (length - 1) st
  else child (level + 1) (l.oid :: chain) data length st

def asn1BitString (data : List UInt8) (length : Nat) (l : Asn1Locals) (st : Asn1State) :
    Option (Asn1State × Asn1Locals) := do
  let l := if isField st.fields pkId then { l with hasKey := true } else l
  if isField st.fields signId then
    let key ← withoutSign data length
    some (st.modify fun cert => { cert with signKey := key }, l)
  else if st.cert.ecAlgorithm ≠ 0 ∧ isField st.fields pkId then
    let key ← withoutSign data length
    some (st.modify fun cert => { cert with pk := key }, l)
  else
    let (st, _) ← bitStringInside child level chain data length l st
    let st ← bitStringCurve data length st
    some (st, l)

def asn1OctetString (data : List UInt8) (length : Nat) (l : Asn1Locals) (st : Asn1State) :
    Option (Asn1State × Asn1Locals) := do
  if st.topOid.isSome ∧ isField st.fields eccPrivId ∧ st.cert.priv = [] then
    some (st.modify fun cert => { cert with priv := data.take length }, l)
  else
    let (st, _) ← child (level + 1) (l.oid :: chain) data length st
    some (st, l)

/-- A client fails on an algorithm that it does not know. -/
def setAlgorithm (data : List UInt8) (length : Nat) (set : Nat → X509Certificate → X509Certificate) (st : Asn1State) :
    Option Asn1State := do
  match ← tlsCertificateSetAlgorithm data length with
  | some algorithm => some (st.modify (set algorithm))
  | none => some { st with criticalError := st.criticalError || ! env.isServer }

/-- The algorithm of the public key, or its curve. -/
def objectIdKey (data : List UInt8) (length : Nat) (st : Asn1State) : Option Asn1State :=
  if isField st.fields pkId then
    if length = 8 ∨ length = 5 then
      setAlgorithm env data length (fun algorithm cert => { cert with ecAlgorithm := algorithm }) st
    else setAlgorithm env data length (fun algorithm cert => { cert with keyAlgorithm := algorithm }) st
  else some st

def objectIdAlgorithm (data : List UInt8) (length : Nat) (st : Asn1State) : Option Asn1State :=
  if isField st.fields algorithmId then
    setAlgorithm env data length (fun algorithm cert => { cert with algorithm := algorithm }) st
  else some st

/-- The bytes behind a shorter identifier stay from the one before. -/
def asn1ObjectId (data : List UInt8) (length : Nat) (l : Asn1Locals) (st : Asn1State) :
    Option (Asn1State × Asn1Locals) := do
  let st ← objectIdKey env data length st
  let st ← objectIdAlgorithm env data length st
  let st :=
    if isOid2 l.oid ocspOid then
      st.modify fun cert => { cert with ocsp := tlsCertificateSetCopy (data.take length) }
    else st
  let oid := data.take (min length 16) ++ l.oid.drop (min length 16)
  some ({ st with topOid := st.topOid.map fun _ => oid }, { l with oid })

def asn1UtcTime (data : List UInt8) (length : Nat) (l : Asn1Locals) (st : Asn1State) : Asn1State :=
  if isField st.fields validityId then
    let date := tlsCertificateSetCopyDate (data.take length)
    if l.idx = 1 then st.modify fun cert => { cert with notBefore := date }
    else st.modify fun cert => { cert with notAfter := date }
  else st

def asn1Text (data : List UInt8) (length : Nat) (l : Asn1Locals) (st : Asn1State) : Option Asn1State := do
  let set (name : X509Name) : Option X509Name := do
    some (((← nameField l.oid nameOids).map (name.set (data.take length))).getD name)
  if isField st.fields issurerId then
    let issuer ← set st.cert.issuer
    some (st.modify fun cert => { cert with issuer })
  else if isField st.fields ownerId then
    let owner ← set st.cert.owner
    some (st.modify fun cert => { cert with owner })
  else some st

/-- The types of texts. -/
def textTypes : List UInt8 := [0x13, 0x0C, 0x14, 0x15, 0x16, 0x19, 0x1A, 0x1B, 0x1C, 0x1D, 0x1E]

/-- An element without elements inside; `data` is the memory from its content on. The last result says whether the call
returns. The types that are left over are only printed. -/
def asn1Primitive (type : UInt8) (data : List UInt8) (length : Nat) (l : Asn1Locals) (st : Asn1State) :
    Option (Asn1State × Asn1Locals × Bool) := do
  if type = 0x00 then some (st, l, true)
  else if type = 0x01 then
    let _ ← data[0]?
    some (st, l, false)
  else if type = 0x02 then
    let (st, l) ← asn1Integer level chain data length l st
    some (st, l, false)
  else if type = 0x03 then
    let (st, l) ← asn1BitString child level chain data length l st
    some (st, l, false)
  else if type = 0x04 then
    let (st, l) ← asn1OctetString child level chain data length l st
    some (st, l, false)
  else if type = 0x06 then
    let (st, l) ← asn1ObjectId env data length l st
    some (st, l, false)
  else if type = 0x17 then some (asn1UtcTime data length l st, l, false)
  else if type ∈ textTypes then
    let st ← asn1Text data length l st
    some (st, l, false)
  else some (st, l, false)

/-- An element; `whole` is the memory from its tag on. -/
def asn1Element (first : UInt8) (whole : List UInt8) (header length : Nat) (l : Asn1Locals) (st : Asn1State) :
    Option (Asn1State × Asn1Locals × Bool) :=
  let type := first &&& 0x1F
  if length ≠ 0 ∧ first &&& 0x20 ≠ 0 then do
    let (st, l) ← asn1Constructed env child level chain type whole header length l st
    some (st, l, false)
  else asn1Primitive env child level chain type (whole.drop header) length l st

/-- The end of a call that went through its whole buffer. -/
def asn1Finish (l : Asn1Locals) (st : Asn1State) : Asn1State :=
  if level = 2 ∧ st.cert.signKey ≠ [] ∧ l.certData ≠ [] then
    st.modify fun cert => { cert with fingerprint := env.computeHash cert.algorithm l.certData }
  else st

end

/-! ## The parser -/

section
variable (env : Asn1Env)

/-- The loop of `_private_asn1_parse`, over the memory from `pos` on. The last result says whether it came to its end.
`none` is a fault, or too little fuel. -/
def asn1Loop : Nat → Nat → List (List UInt8) → List UInt8 → Nat → Asn1Locals → Asn1State →
    Option (Asn1State × Asn1Locals × Bool)
  | 0, _, _, _, _, _, _ => none
  | fuel + 1, level, chain, data, size, l, st =>
    if size = 0 then some (st, l, true)
    else if size < 2 then some (st, l, false)
    else do
      let first ← data[0]?
      let l := { l with idx := l.idx + 1 }
      let st := st.enter level l.idx
      let (length, octets) ← asn1GetLen (data.drop 1) (size - 1)
      if 4 < octets ∨ size - 1 < octets then some (st, l, false)
      else if size - 1 - octets < length then some (st, l, false)
      else do
        let child : Asn1Child := fun level chain data size st => do
          let (st, l, ended) ← asn1Loop fuel level chain data size {} st
          some (if ended then asn1Finish env level l st else st, l.hasKey)
        let (st, l, stop) ← asn1Element env child level chain first data (1 + octets) length l st
        if stop then some (st, l, false)
        else asn1Loop fuel level chain (data.drop (1 + octets + length)) (size - 1 - octets - length) l st

/-- A call of `_private_asn1_parse` and its `*has_key`. -/
def privateAsn1Parse (fuel : Nat) : Asn1Child := fun level chain data size st => do
  let (st, l, ended) ← asn1Loop env fuel level chain data size {} st
  some (if ended then asn1Finish env level l st else st, l.hasKey)

end

/-- `fields` has 255 words, and `stack` is what lies behind them; `behind` is the memory behind the buffer. -/
def asn1Parse (computeHash : Nat → List UInt8 → Option (List UInt8)) (stack : Nat → Nat) (behind : List UInt8)
    (isServer : Bool) (buffer : List UInt8) (clientCert : Int) : Option Asn1Result := do
  let env : Asn1Env := ⟨isServer, 0 < clientCert, computeHash⟩
  let topOid := if clientCert < 0 then some (List.replicate 16 0) else none
  let (st, _) ← privateAsn1Parse env (buffer.length + 1) 1 [] (buffer ++ behind) buffer.length
    ⟨{}, fun i => if i < 0xFF then 0 else stack i, topOid, false⟩
  some ⟨some st.cert.toTlsCertificate, st.criticalError⟩

end CWebServer
