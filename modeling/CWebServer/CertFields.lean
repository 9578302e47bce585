import CWebServer.Asn1Elements
import CWebServer.CertFiles
import CWebServer.CertSound

/-!
# What is read from a certificate

The fields of a certificate that is written as X.509 has it, whatever stands in
the parts that are not read. A certificate whose signature algorithm has no
parameters, as all those that are signed on a curve, has no fingerprint, and
nobody looks at a signature in front of it.
-/

namespace CWebServer

open Der (element)

/-! ## Fields -/

theorem isField_iff {fields : Nat → Nat} {id : List Nat} :
    isField fields id = true ↔ ∀ i v, id[i]? = some v → fields i = v := by
  rw [isField, decide_eq_true_eq]
  constructor
  · intro h i v hid
    obtain ⟨hi, -⟩ := List.getElem?_eq_some_iff.mp hid
    have hget := congrArg (·[i]?) h
    simp only [hid] at hget
    simpa [hi] using hget
  · intro h
    refine List.ext_getElem (by simp) fun i hi hi' => ?_
    simpa using h i id[i] (List.getElem?_eq_getElem hi')

theorem isField_congr {fields fields' : Nat → Nat} {id : List Nat} (h : isField fields id = true)
    (hsame : ∀ i, i < id.length → fields' i = fields i) : isField fields' id = true := by
  rw [isField_iff] at h ⊢
  intro i v hid
  obtain ⟨hi, -⟩ := List.getElem?_eq_some_iff.mp hid
  rw [hsame i hi, h i v hid]

theorem isField_three {fields : Nat → Nat} {a b c : Nat} (ha : fields 0 = a) (hb : fields 1 = b) (hc : fields 2 = c) :
    isField fields [a, b, c] = true := by
  rw [isField, decide_eq_true_eq]
  simp [List.range_succ, ha, hb, hc]

/-- The next number of a path. -/
theorem isField_enter {st : Asn1State} {path : List Nat} (h : isField st.fields path = true) (hlen : path.length < 0xFF)
    (v : Nat) : isField (st.enter (path.length + 1) v).fields (path ++ [v]) = true := by
  rw [isField_iff] at h ⊢
  intro i w hid
  rw [enter_fields (by omega), Nat.add_sub_cancel]
  by_cases hi : i < path.length
  · rw [if_neg (by omega)]
    exact h i w (by rwa [List.getElem?_append_left hi] at hid)
  · obtain ⟨hlt, rfl⟩ := List.getElem?_eq_some_iff.mp hid
    have heq : i = path.length := by
      rw [List.length_append, List.length_singleton] at hlt
      omega
    simp [heq]

/-- A call leaves the numbers above it as they are. -/
theorem isField_stays {st st' : Asn1State} {path : List Nat} (h : isField st.fields path = true) {level v : Nat}
    (hlen : path.length < level) (hlevel : level ≤ 0xFF)
    (hfields : ∀ i, i < level → st'.fields i = (st.enter level v).fields i) : isField st'.fields path = true :=
  isField_congr h fun i hi => by rw [hfields i (by omega), enter_fields hlevel, if_neg (by omega)]

/-- Two paths part. -/
def parts : List Nat → List Nat → Bool
  | a :: path, b :: id => a ≠ b || parts path id
  | _, _ => false

theorem parts_at {path id : List Nat} (h : parts path id = true) :
    ∃ i a b : Nat, path[i]? = some a ∧ id[i]? = some b ∧ a ≠ b := by
  induction path generalizing id with
  | nil => cases h
  | cons a path ih =>
    cases id with
    | nil => cases h
    | cons b id =>
      by_cases hab : a = b
      · have hrest : parts path id = true := by simpa [parts, hab] using h
        obtain ⟨i, a', b', ha, hb, hne⟩ := ih hrest
        exact ⟨i + 1, a', b', ha, hb, hne⟩
      · exact ⟨0, a, b, rfl, rfl, hab⟩

theorem apart_of_parts {fields : Nat → Nat} {path id : List Nat} (hpath : isField fields path = true) {level : Nat}
    (hlevel : path.length < level) (h : parts path id = true) : Apart fields level id := by
  obtain ⟨i, a, b, ha, hb, hne⟩ := parts_at h
  obtain ⟨hi, -⟩ := List.getElem?_eq_some_iff.mp ha
  exact ⟨i, b, by omega, hb, by rw [isField_iff.mp hpath i a ha]; exact hne⟩

theorem isField_parts {fields : Nat → Nat} {path id : List Nat} (hpath : isField fields path = true)
    (h : parts path id = true) : isField fields id = false :=
  isField_apart (apart_of_parts hpath (Nat.lt_succ_self _) h)

section
variable {env : Asn1Env} {st : Asn1State}

/-- The members that a certificate is read for. -/
structure CertView where
  version : Nat
  notBefore : Option (List UInt8)
  notAfter : Option (List UInt8)
  owner : X509Name

def Asn1State.view (st : Asn1State) : CertView := ⟨st.cert.version, st.cert.notBefore, st.cert.notAfter, st.cert.owner⟩

@[simp] theorem view_enter (st : Asn1State) (level v : Nat) : (st.enter level v).view = st.view := by
  rw [Asn1State.view, enter_cert]
  rfl

theorem KeepsMembers.view {left : List Nat → Prop} {st st' : Asn1State} (h : KeepsMembers left st st')
    (hleft : left versionId ∧ left validityId ∧ left ownerId) : st'.view = st.view := by
  rw [Asn1State.view, h.version hleft.1, h.notBefore hleft.2.1, h.notAfter hleft.2.1, h.owner hleft.2.2]
  rfl

/-! ## Names -/

/-- The identifier in front of a field. -/
def NameField.oid : NameField → List UInt8
  | .country => countryOid
  | .state => stateOid
  | .location => locationOid
  | .entity => entityOid
  | .subject => subjectOid

structure NameAttribute where
  field : NameField
  tag : UInt8
  text : List UInt8
  tag_text : tag ∈ textTypes

def NameAttribute.bytes (a : NameAttribute) : List UInt8 :=
  element 0x31 (element 0x30 (element 0x06 a.field.oid ++ element a.tag a.text))

/-- Later attributes replace earlier ones. -/
def X509Name.add (name : X509Name) (attributes : List NameAttribute) : X509Name :=
  attributes.foldl (fun name a => name.set a.text a.field) name

/-- The numbers of elements that are deeper do not matter. -/
theorem isField_deeper {path : List Nat} (h : isField st.fields path = true) {level : Nat} (hlen : path.length < level)
    (hlevel : level ≤ 0xFF) (v : Nat) : isField (st.enter level v).fields path = true :=
  isField_congr h fun i hi => by rw [enter_fields hlevel, if_neg (by omega)]

@[simp] theorem fields_finish (env : Asn1Env) (level : Nat) (l : Asn1Locals) (st : Asn1State) :
    (asn1Finish env level l st).fields = st.fields := by
  unfold asn1Finish
  split <;> rfl

section
variable {level n : Nat} {l : Asn1Locals} {tag : UInt8} {content rest : List UInt8} {w : CertView}
  {P : Asn1State → Asn1Locals → Bool → Prop} (hlen : content.length < 2 ^ 24)

include hlen

/-- An element that leads to nothing that is followed. -/
theorem Loops.passed (htag : tag &&& 0x1F ≠ 0) (hsize : n < rest.length) (hl : l.oid.length = 16) {path : List Nat}
    (hpath : isField (st.enter level (l.idx + 1)).fields path = true) (hlevel : path.length ≤ level)
    (hparts : parts path versionId = true ∧ parts path validityId = true ∧ parts path ownerId = true)
    (h : ∀ st₂ l₂, st₂.view = st.view → l₂.oid.length = 16 → l₂.idx = l.idx + 1 →
      (∀ i, i < level → st₂.fields i = (st.enter level (l.idx + 1)).fields i) → Loops env level rest n l₂ st₂ P) :
    Loops env level (element tag content ++ rest) ((element tag content).length + n) l st P := by
  refine Loops.skip hlen (Or.inl htag) hsize hl fun st₂ l₂ hst hoid hidx => ?_
  have happart {id : List Nat} (h : parts path id = true) : Apart (st.enter level (l.idx + 1)).fields (level + 1) id :=
    apart_of_parts hpath (Nat.lt_succ_of_le hlevel) h
  have hview := hst.keeps.view ⟨happart hparts.1, happart hparts.2.1, happart hparts.2.2⟩
  rw [view_enter] at hview
  exact h st₂ l₂ hview hoid (hidx (isField_parts hpath hparts.1)) fun i hi => hst.fields (Nat.succ_lt_succ hi)

end

/-- The version that an integer is read as. -/
def versionOf : List UInt8 → Nat
  | [version] => version.toNat
  | _ => 0

end

/-! ## Certificates -/

/-- The part of a certificate that is signed. A certificate of version 1 begins with its serial number. -/
structure SignedPart where
  version : Option UInt8
  serial : List UInt8
  algorithm : List UInt8
  issuer : List UInt8
  notBefore : List UInt8
  notAfter : List UInt8
  owner : List NameAttribute
  behind : List UInt8

def SignedPart.versionBytes (c : SignedPart) : List UInt8 := c.version.elim [] fun v => element 0xA0 (element 0x02 [v])

def SignedPart.bytes (c : SignedPart) : List UInt8 :=
  c.versionBytes ++ (element 0x02 c.serial ++ (element 0x30 c.algorithm ++ (element 0x30 c.issuer ++
    (element 0x30 (element 0x17 c.notBefore ++ element 0x17 c.notAfter) ++
      (element 0x30 (c.owner.flatMap NameAttribute.bytes) ++ c.behind)))))

/-- The serial number stands for a version that is missing. -/
def SignedPart.view (c : SignedPart) : CertView where
  version := c.version.elim (versionOf c.serial) UInt8.toNat
  notBefore := tlsCertificateSetCopyDate c.notBefore
  notAfter := tlsCertificateSetCopyDate c.notAfter
  owner := X509Name.add {} c.owner

section
variable {env : Asn1Env} {st : Asn1State}

/-- The elements behind those that are followed. -/
theorem Turns.view {level n : Nat} {st' : Asn1State} (h : Turns level n st st') (hlevel : 1 ≤ level ∧ level ≤ 0xFF)
    (hn : ∀ id ∈ [versionId, validityId, ownerId], ∃ v ∈ id[level - 1]?, v ≤ n) : st'.view = st.view :=
  (h.keeps hlevel.1 hlevel.2).view ⟨Or.inr (hn _ (by simp)), Or.inr (hn _ (by simp)), Or.inr (hn _ (by simp))⟩

end

section
variable (computeHash : Nat → List UInt8 → Option (List UInt8)) (stack : Nat → Nat) (behind : List UInt8)
  (isServer : Bool)
  (clientCert : Int)

/-- The state of the first call. -/
def asn1Start : Asn1State :=
  ⟨{}, fun i => if i < 0xFF then 0 else stack i, if clientCert < 0 then some (List.replicate 16 0) else none, false⟩

theorem asn1Parse_of_loops {buffer : List UInt8} {P : Asn1State → Asn1Locals → Bool → Prop}
    (h : Loops ⟨isServer, 0 < clientCert, computeHash⟩ 1 (buffer ++ behind) buffer.length {}
      (asn1Start stack clientCert) P) :
    ∃ st l ended, asn1Parse computeHash stack behind isServer buffer clientCert =
      some ⟨some st.cert.toTlsCertificate, st.criticalError⟩ ∧ P st l ended := by
  obtain ⟨st, l, ended, hrun, hP⟩ := privateAsn1Parse_of_loops h (Nat.lt_succ_self _) []
  refine ⟨st, l, ended, ?_, hP⟩
  have hfinish : (if ended then asn1Finish ⟨isServer, 0 < clientCert, computeHash⟩ 1 l st else st) = st := by
    split <;> rfl
  rw [hfinish] at hrun
  rw [asn1Parse]
  simp only [asn1Start] at hrun
  rw [hrun]
  rfl

end

/-- A certificate of version 3 for the year 2024, without a key. -/
def smallCertificate : SignedPart where
  version := some 2
  serial := [1]
  algorithm := []
  issuer := []
  notBefore := s8 "240101000000Z"
  notAfter := s8 "241231235959Z"
  owner := [⟨.subject, 0x0C, s8 "a.b", by decide⟩]
  behind := []

/-- No signature is kept, and nothing to compare it with. -/
def Asn1State.Unsigned (st : Asn1State) : Prop := st.cert.signKey = [] ∧ st.cert.fingerprint = none

section
variable {env : Asn1Env} {st : Asn1State}

theorem unsigned_enter (st : Asn1State) (level v : Nat) : (st.enter level v).Unsigned ↔ st.Unsigned := by
  rw [Asn1State.Unsigned, enter_cert]
  rfl

theorem Changes.unsigned {level : Nat} {st' : Asn1State} (h : Changes level st st') (hlevel : 2 < level)
    (hsign : Apart st.fields level signId) (hst : st.Unsigned) : st'.Unsigned :=
  ⟨(h.keeps.signKey hsign).trans hst.1, (h.fingerprint hlevel).trans hst.2⟩

/-- An element with the number zero ends a call. -/
theorem privateAsn1Parse_zero (env : Asn1Env) {fuel size : Nat} (hpos : 0 < size) (hfuel : size < fuel) (level : Nat)
    (chain : List (List UInt8)) {data : List UInt8} (hdata : size < data.length) (hzero : data[0]? = some 0)
    (st : Asn1State) :
    ∃ st' hasKey, privateAsn1Parse env fuel level chain data size st = some (st', hasKey) ∧ st'.cert = st.cert := by
  cases fuel with
  | zero => cases hfuel
  | succ fuel =>
    have hbuffer : size - 1 ≤ (data.drop 1).length := by
      rw [List.length_drop]
      omega
    obtain ⟨⟨length, octets⟩, hgetLen⟩ := asn1GetLen_isSome hbuffer
    rw [privateAsn1Parse, asn1Loop_succ, if_neg (by omega), hzero, hgetLen]
    simp only [Option.bind_some]
    split
    · exact ⟨_, _, rfl, rfl⟩
    · split
      · exact ⟨_, _, rfl, enter_cert _ _ _⟩
      · split
        · exact ⟨_, _, rfl, enter_cert _ _ _⟩
        · have hstop : ¬ (length ≠ 0 ∧ (0 : UInt8) &&& 0x20 ≠ 0) := fun h => h.2 rfl
          rw [asn1Element, if_neg hstop]
          exact ⟨_, _, rfl, enter_cert _ _ _⟩

/-- A short string of bits in a place that is not followed. -/
theorem bits_unsigned (env : Asn1Env) {fuel : Nat} (l : Asn1Locals) {bits : List UInt8} (hbits : bits.length < 0x100)
    (hfuel : bits.length + 1 < fuel) (chain : List (List UInt8)) (hpath : isField st.fields [1, 3, 1] = true)
    (hst : st.Unsigned) {rest : List UInt8} (hrest : rest ≠ []) :
    ∃ st', asn1BitString (privateAsn1Parse env fuel) 2 chain (0 :: bits ++ rest) (bits.length + 1) l st =
      some (st', l) ∧
      st'.Unsigned := by
  have hpos := List.length_pos_of_ne_nil hrest
  have hdata : bits.length + 1 < (0 :: bits ++ rest).length := by simp; omega
  have hpk : isField st.fields pkId = false := isField_parts hpath rfl
  have hsign : isField st.fields signId = false := isField_parts hpath rfl
  obtain ⟨st₁, hasKey, hinside, hcert⟩ := privateAsn1Parse_zero env (Nat.succ_pos bits.length) hfuel 3
    (l.oid :: chain) hdata
    rfl st
  obtain ⟨st₂, hcurve, hst₂, hkept⟩ := bitStringCurve_spec hdata st₁
  have hrun : bitStringInside (privateAsn1Parse env fuel) 2 chain (0 :: bits ++ rest) (bits.length + 1) l st =
      some (st₁, hasKey) := by
    rw [bitStringInside, List.cons_append, List.getElem?_cons_zero, Option.bind_eq_bind, Option.bind_some,
      if_neg (by omega)]
    exact hinside
  refine ⟨st₂, ?_, by rw [hkept, hcert]; exact hst.1, by rw [hst₂.fingerprint, hcert]; exact hst.2⟩
  rw [List.cons_append] at hrun hcurve
  simp only [asn1BitString, hpk, hsign, List.cons_append, Bool.false_eq_true, if_false, and_false, hrun, hcurve,
    Option.bind_eq_bind, Option.bind_some]

/-- The identifier of an algorithm, alone in its element. -/
theorem algorithm_inside {oid : List UInt8} (hlen : oid.length < 2 ^ 24) (hpath : isField st.fields [1, 2] = true)
    (hst : st.Unsigned) {rest : List UInt8} (hrest : rest ≠ []) :
    Loops env 3 (element 0x06 oid ++ rest) (element 0x06 oid).length {} st
      fun st' _ _ => st'.Unsigned ∧ isField st'.fields [1, 2, 1] = true := by
  have hinside : isField (st.enter 3 1).fields [1, 2, 1] = true := isField_enter hpath (by decide) 1
  refine Loops.skip (n := 0) hlen (Or.inl (by decide)) (List.length_pos_of_ne_nil hrest) rfl ?_
  intro st' l' hst' _ _
  refine Loops.done ⟨hst'.unsigned (by decide) (apart_of_parts hinside (by decide) rfl) ?_, ?_⟩
  · exact (unsigned_enter st 3 1).mpr hst
  · exact isField_congr hinside fun i (hi : i < 3) => hst'.fields (Nat.succ_lt_succ hi)

/-- The signature behind it: the number of the identifier is still there. -/
theorem signature_loops {bits : List UInt8} (hbits : bits.length < 0x100) {l : Asn1Locals} (hidx : l.idx = 2)
    (hpath : isField st.fields [1] = true) (hthird : st.fields 2 = 1) (hst : st.Unsigned) {rest : List UInt8}
    (hrest : rest ≠ []) :
    Loops env 2 (element 0x03 (0 :: bits) ++ rest) (element 0x03 (0 :: bits)).length l st
      fun st' _ _ => st'.Unsigned := by
  have hplace : isField (st.enter 2 (l.idx + 1)).fields [1, 3, 1] = true := by
    refine isField_three ?_ ?_ ?_
    · rw [enter_fields (by decide), if_neg (by decide), isField_iff.mp hpath 0 1 rfl]
    · rw [enter_fields (by decide), if_pos rfl, hidx]
    · rw [enter_fields (by decide), if_neg (by decide), hthird]
  refine Loops.head (n := 0) (by simp; omega) fun fuel chain hfuel => ?_
  obtain ⟨st', hrun, hunsigned⟩ := bits_unsigned env { l with idx := l.idx + 1 } hbits (by simpa using hfuel) chain
    hplace ((unsigned_enter st _ _).mpr hst) hrest
  refine ⟨st', { l with idx := l.idx + 1 }, false, ?_, Loops.done hunsigned⟩
  rw [asn1Element, if_neg (fun h => h.2 rfl), drop_header]
  exact congrArg (Option.bind · _) hrun

theorem unsigned_loops {tbs oid bits : List UInt8} (htbs : tbs.length < 2 ^ 24)
    (hoid : (element 0x06 oid).length < 2 ^ 24) (hbits : bits.length < 0x100) (hpath : isField st.fields [1] = true)
    (hfresh : st.fields 2 = 0) (hst : st.Unsigned) {rest : List UInt8} (hrest : rest ≠ []) :
    Loops env 2 (element 0x30 tbs ++ (element 0x30 (element 0x06 oid) ++ (element 0x03 (0 :: bits) ++ rest)))
      ((element 0x30 tbs).length + ((element 0x30 (element 0x06 oid)).length + (element 0x03 (0 :: bits)).length)) {} st
      fun st' _ _ => st'.Unsigned := by
  have hpos := List.length_pos_of_ne_nil hrest
  have hlen := Der.length_element 0x06 oid
  have hfirst : isField (st.enter 2 1).fields [1, 1] = true := isField_enter hpath (by decide) 1
  have hversion : isField (st.enter 2 1).fields versionId = false := by
    rw [Bool.eq_false_iff]
    intro h
    have hthird := isField_iff.mp h 2 1 rfl
    rw [enter_fields (by decide), if_neg (by decide), hfresh] at hthird
    cases hthird
  refine Loops.skip htbs (Or.inl (by decide)) (by simp; omega) rfl fun st₁ l₁ hst₁ hoid₁ hidx => ?_
  have hidx₁ := hidx hversion
  have hpath₁ : isField st₁.fields [1] = true :=
    isField_stays hpath (by decide) (by decide) fun i (hi : i < 2) => hst₁.fields (Nat.succ_lt_succ hi)
  have hunsigned₁ : st₁.Unsigned :=
    hst₁.unsigned (by decide) (apart_of_parts hfirst (by decide) rfl) ((unsigned_enter st _ _).mpr hst)
  refine Loops.constructed (Q := fun st' _ _ => st'.Unsigned ∧ isField st'.fields [1, 2, 1] = true) (by omega)
    (by simp [element]) (by decide) (fun bytes => ?_) fun st₂ l₂ ended bytes hQ => ?_
  · have hsecond : isField ((st₁.enter 2 (l₁.idx + 1)).withDer bytes).fields [1, 2] = true := by
      rw [hidx₁]
      exact isField_enter hpath₁ (by decide) 2
    exact algorithm_inside (by omega) hsecond ((unsigned_enter st₁ _ _).mpr hunsigned₁) (by simp [element])
  · have hfields (i : Nat) : ((if ended then asn1Finish env (2 + 1) l₂ st₂ else st₂).withDer bytes).fields i =
        st₂.fields i := by
      change (if ended then asn1Finish env (2 + 1) l₂ st₂ else st₂).fields i = st₂.fields i
      split
      · rw [fields_finish]
      · rfl
    have hunsigned₂ : ((if ended then asn1Finish env (2 + 1) l₂ st₂ else st₂).withDer bytes).Unsigned := by
      split <;> exact hQ.1
    have hpath₂ : isField st₂.fields [1] = true := isField_iff.mpr fun i v hid => by
      cases i with
      | zero => rw [isField_iff.mp hQ.2 0 1 rfl, Option.some.inj hid]
      | succ i => cases hid
    refine signature_loops hbits (by rw [hidx₁]) (isField_congr hpath₂ fun i _ => hfields i) ?_ hunsigned₂ hrest
    rw [hfields, isField_iff.mp hQ.2 2 1 rfl]

end

section
variable (computeHash : Nat → List UInt8 → Option (List UInt8)) (stack : Nat → Nat) (behind : List UInt8)
  (isServer : Bool)
  (clientCert : Int)

/-- A certificate whose signature algorithm stands without parameters has no fingerprint. Behind it in a chain nobody
compares a signature any more, whatever its own is: the dates of the certificate and of the one in front are all that
counts. -/
theorem curve_signature_unread {tbs oid bits : List UInt8} (hbits : bits.length < 0x100)
    (hlen : (element 0x30 tbs ++ (element 0x30 (element 0x06 oid) ++ element 0x03 (0 :: bits))).length < 2 ^ 24)
    (b : UInt8) :
    ∃ cert criticalError,
      asn1Parse computeHash stack (b :: behind) isServer
        (element 0x30 (element 0x30 tbs ++ (element 0x30 (element 0x06 oid) ++ element 0x03 (0 :: bits)))) clientCert =
          some ⟨some cert, criticalError⟩ ∧
      cert.fingerprint = none ∧
      ∀ now verifySignature leaf rest, tlsCertificateChainIsValid now verifySignature (leaf :: cert :: rest) = 0 ↔
        tlsCertificateIsValid now leaf = 0 ∧ tlsCertificateIsValid now cert = 0 := by
  have htbs := Der.length_element 0x30 tbs
  have halgorithm := Der.length_element 0x30 (element 0x06 oid)
  have hstart : isField (asn1Start stack clientCert).fields [] = true := rfl
  have hloops : Loops ⟨isServer, 0 < clientCert, computeHash⟩ 1
      (element 0x30 (element 0x30 tbs ++ (element 0x30 (element 0x06 oid) ++ element 0x03 (0 :: bits))) ++ b :: behind)
      (element 0x30 (element 0x30 tbs ++ (element 0x30 (element 0x06 oid) ++ element 0x03 (0 :: bits)))).length {}
      (asn1Start stack clientCert) fun st' _ _ => st'.Unsigned := by
    refine Loops.constructed (n := 0) (Q := fun st' _ _ => st'.Unsigned) hlen (by simp [element]) (by decide)
      (fun bytes => ?_) fun st' l' ended bytes hQ => Loops.done ?_
    · have hpath : isField (((asn1Start stack clientCert).enter 1 1).withDer bytes).fields [1] = true :=
        isField_enter hstart (by decide) 1
      simp only [List.length_append, List.append_assoc] at hlen ⊢
      exact unsigned_loops (by omega) (by omega) hbits hpath rfl ⟨rfl, rfl⟩ (List.cons_ne_nil b behind)
    · change (if ended then asn1Finish _ 2 l' st' else st').Unsigned
      split
      · rw [asn1Finish, if_neg (fun h => h.2.1 hQ.1)]
        exact hQ
      · exact hQ
  obtain ⟨st, l, ended, hparse, hunsigned⟩ := asn1Parse_of_loops computeHash stack (b :: behind) isServer clientCert
    hloops
  refine ⟨_, _, hparse, hunsigned.2, fun now verifySignature leaf rest => ?_⟩
  have hfinger : st.cert.toTlsCertificate.fingerprint = none := hunsigned.2
  by_cases hleaf : tlsCertificateIsValid now leaf = 0
  · by_cases hcert : tlsCertificateIsValid now st.cert.toTlsCertificate = 0
    · simp [tlsCertificateChainIsValid, chainLoop, hleaf, hcert, hfinger]
    · simp [tlsCertificateChainIsValid, chainLoop, hleaf, hcert, badCertificate_ne]
  · simp [tlsCertificateChainIsValid, hleaf, badCertificate_ne]

end

/-- The identifier of ECDSA with SHA-256. -/
def ecdsaSha256Oid : List UInt8 := [0x2A, 0x86, 0x48, 0xCE, 0x3D, 0x04, 0x03, 0x02]

theorem curve_signature_unread_small :
    ∃ cert criticalError,
      asn1Parse (fun _ _ => none) (fun _ => 0) [0] true
        (element 0x30 (element 0x30 smallCertificate.bytes ++
          (element 0x30 (element 0x06 ecdsaSha256Oid) ++ element 0x03 (0 :: [1, 2])))) 0 =
            some ⟨some cert, criticalError⟩ ∧
      cert.fingerprint = none ∧
      ∀ now verifySignature leaf rest, tlsCertificateChainIsValid now verifySignature (leaf :: cert :: rest) = 0 ↔
        tlsCertificateIsValid now leaf = 0 ∧ tlsCertificateIsValid now cert = 0 :=
  curve_signature_unread (fun _ _ => none) (fun _ => 0) [] true 0 (by decide) (by decide) 0

end CWebServer
