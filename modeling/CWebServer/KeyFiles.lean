import CWebServer.CertFields

/-!
# What is read from a key

A private key as PKCS#1 has it is a sequence of integers, and the fourth of them
is the private exponent. The server starts with a file that has such a key.
-/

namespace CWebServer

open Der (element)

section
variable {env : Asn1Env} {st : Asn1State}

theorem isField_third {fields : Nat → Nat} (h : fields 2 = 0) {a b c : Nat} (hc : c ≠ 0) (id : List Nat) :
    isField fields (a :: b :: c :: id) = false := by
  rw [Bool.eq_false_iff]
  intro hfield
  have hthird := isField_iff.mp hfield 2 c rfl
  exact hc (hthird.symm.trans h)

/-- An integer in the sequence of a key is kept if it is the fourth. -/
theorem asn1Integer_key (chain : List (List UInt8)) (val rest : List UInt8) (l : Asn1Locals)
    (hfresh : st.fields 2 = 0) :
    ∃ st', asn1Integer 2 chain (val ++ rest) val.length l st = some (st', l) ∧ st'.fields = st.fields ∧
      st'.cert.priv = if [st.fields 0, st.fields 1] = privId then val else st.cert.priv := by
  have hversion : isField st.fields versionId = false := isField_third hfresh (by decide) []
  have hpk : isField st.fields pkId = false := isField_third hfresh (by decide) []
  have hserial : isField st.fields serialId = false := isField_third hfresh (by decide) [1]
  have hsan (st : Asn1State) : (integerSan chain (val ++ rest) val.length st).fields = st.fields ∧
      (integerSan chain (val ++ rest) val.length st).cert.priv = st.cert.priv := by
    unfold integerSan
    split <;> exact ⟨rfl, rfl⟩
  have hpriv : (integerPriv 2 (val ++ rest) val.length st).fields = st.fields ∧
      (integerPriv 2 (val ++ rest) val.length st).cert.priv =
        if [st.fields 0, st.fields 1] = privId then val else st.cert.priv := by
    unfold integerPriv
    by_cases h : [st.fields 0, st.fields 1] = privId
    · rw [if_pos ⟨Nat.le_refl 2, h⟩, if_pos h]
      exact ⟨rfl, List.take_left⟩
    · rw [if_neg (fun hand => h hand.2), if_neg h]
      exact ⟨rfl, rfl⟩
  refine ⟨integerSan chain (val ++ rest) val.length (integerPriv 2 (val ++ rest) val.length st), ?_, ?_, ?_⟩
  · simp [asn1Integer, integerKey, integerVersion, hpk, hserial, hversion]
  · rw [(hsan _).1, hpriv.1]
  · rw [(hsan _).2, hpriv.2]

theorem integers_loops {ints : List (List UInt8)} (hlen : (ints.flatMap (element 0x02)).length < 2 ^ 24)
    {l : Asn1Locals}
    (hpath : isField st.fields [1] = true) (hfresh : st.fields 2 = 0) (rest : List UInt8) :
    Loops env 2 (ints.flatMap (element 0x02) ++ rest) (ints.flatMap (element 0x02)).length l st fun st' _ _ =>
      st'.cert.priv = if l.idx < 4 then (ints[3 - l.idx]?).getD st.cert.priv else st.cert.priv := by
  induction ints generalizing l st with
  | nil => exact Loops.done (by simp)
  | cons val ints ih =>
    have hval := Der.length_element 0x02 val
    rw [List.flatMap_cons, List.length_append] at hlen ⊢
    rw [List.append_assoc]
    refine Loops.primitive (by omega) (Or.inr rfl) fun child chain => ?_
    have hzero : (st.enter 2 (l.idx + 1)).fields 0 = 1 := by
      rw [enter_fields (by decide), if_neg (by decide)]
      exact isField_iff.mp hpath 0 1 rfl
    have hone : (st.enter 2 (l.idx + 1)).fields 1 = l.idx + 1 := by
      rw [enter_fields (by decide), if_pos rfl]
    have htwo : (st.enter 2 (l.idx + 1)).fields 2 = 0 := by
      rw [enter_fields (by decide), if_neg (by decide), hfresh]
    obtain ⟨st₁, hrun, hfields, hpriv⟩ := asn1Integer_key chain val (ints.flatMap (element 0x02) ++ rest)
      { l with idx := l.idx + 1 } htwo
    refine ⟨st₁, _, false, congrArg (Option.bind · _) hrun, ?_⟩
    have hpath₁ : isField st₁.fields [1] = true := by
      rw [hfields]
      exact isField_deeper hpath (by decide) (by decide) _
    refine (ih (by omega) hpath₁ (by rw [hfields, htwo])).imp fun st' _ _ h => ?_
    rw [h, hpriv, hzero, hone, enter_cert]
    -- the fourth integer is at hand, still to come, or past
    by_cases hfourth : l.idx = 3
    · simp [hfourth, privId]
    · have hne : ¬ [1, l.idx + 1] = privId := by
        simp [privId]
        omega
      rw [if_neg hne]
      dsimp only
      by_cases hlt : l.idx < 3
      · rw [if_pos (by omega), if_pos (by omega), show 3 - l.idx = 3 - (l.idx + 1) + 1 by omega,
          List.getElem?_cons_succ]
      · rw [if_neg (by omega), if_neg (by omega)]

theorem rsaKey_loops (env : Asn1Env) {ints : List (List UInt8)} (hlen : (ints.flatMap (element 0x02)).length < 2 ^ 24)
    (hcontent : ints ≠ []) (hfresh : st.fields 2 = 0) (hpriv : st.cert.priv = []) (rest : List UInt8) :
    Loops env 1 (element 0x30 (ints.flatMap (element 0x02)) ++ rest)
      (element 0x30 (ints.flatMap (element 0x02))).length {} st fun st' _ _ => st'.cert.priv = (ints[3]?).getD [] := by
  obtain ⟨val, more, hcons⟩ := List.exists_cons_of_ne_nil hcontent
  have hnil : isField st.fields [] = true := rfl
  have hpath : isField (st.enter 1 1).fields [1] = true := isField_enter hnil (by decide) 1
  refine Loops.constructed (n := 0) (Q := fun st' _ _ => st'.cert.priv = (ints[3]?).getD []) hlen
    (by simp [hcons, element]) (by decide) (fun bytes => ?_) fun st' l' ended bytes hQ => Loops.done ?_
  · have hfresh₁ : ((st.enter 1 1).withDer bytes).fields 2 = 0 := by
      change (st.enter 1 1).fields 2 = 0
      rw [enter_fields (by decide), if_neg (by decide), hfresh]
    have hpriv₁ : ((st.enter 1 1).withDer bytes).cert.priv = [] := by
      change (st.enter 1 1).cert.priv = []
      rw [enter_cert, hpriv]
    have hpath₁ : isField ((st.enter 1 1).withDer bytes).fields [1] = true := hpath
    refine (integers_loops hlen hpath₁ hfresh₁ rest).imp fun st' _ _ h => ?_
    rw [h, if_pos (by decide), hpriv₁]
    rfl
  · change (if ended then asn1Finish env 2 l' st' else st').cert.priv = _
    rw [← hQ]
    unfold asn1Finish
    split
    · split <;> rfl
    · rfl

end

section
variable (computeHash : Nat → List UInt8 → Option (List UInt8)) (stack : Nat → Nat) (b : UInt8) (behind : List UInt8)

/-- The parser with the memory behind its buffers, which has at least one byte. -/
def parserOf : Asn1Parse := fun isServer buffer clientCert =>
  (asn1Parse computeHash stack (b :: behind) isServer buffer clientCert).getD ⟨none, false⟩

theorem hasKey_rsa {ints : List (List UInt8)} (hlen : (ints.flatMap (element 0x02)).length < 2 ^ 24) {d : List UInt8}
    (hints : ints[3]? = some d) (hd : d ≠ []) :
    HasKey (parserOf computeHash stack b behind) (element 0x30 (ints.flatMap (element 0x02))) := by
  have hcontent : ints ≠ [] := by
    rintro rfl
    cases hints
  have hfresh : (asn1Start stack (-1)).fields 2 = 0 := rfl
  have hloops := rsaKey_loops ⟨true, (0 : Int) < -1, computeHash⟩ hlen hcontent hfresh rfl (b :: behind)
  obtain ⟨st, l, ended, hparse, hpriv⟩ := asn1Parse_of_loops computeHash stack (b :: behind) true (-1) hloops
  refine ⟨st.cert.toTlsCertificate, by rw [parserOf, hparse]; rfl, ?_⟩
  change st.cert.priv ≠ []
  rw [hpriv, hints]
  exact hd

/-- With a private key of PKCS#1 in its key file the server starts, and what it presents are the certificates of the
other file. -/
theorem rsa_key_starts (pemStack : Nat → Nat → UInt8) {cert privKey : Option PemFile} (hc : ReadableFile cert)
    (hk : ReadableFile privKey) {ints : List (List UInt8)} (hlen : (ints.flatMap (element 0x02)).length < 2 ^ 24)
    {d : List UInt8} (hints : ints[3]? = some d) (hd : d ≠ [])
    (hkey : element 0x30 (ints.flatMap (element 0x02)) ∈ datasOf privKey) :
    ∃ serverCtx, wsLoadFiles (parserOf computeHash stack b behind) pemStack (cert.map PemFile.text)
        (privKey.map PemFile.text) = some (serverCtx, true) ∧
      serverCtx.certificates = (datasOf cert).filterMap (acceptedCert (parserOf computeHash stack b behind) true) := by
  have hs : (sslCtxNew sslv3ServerMethod).isServer = true := by decide
  obtain ⟨r, hcert⟩ := useCertificateFile_eq (parserOf computeHash stack b behind) pemStack hs hc
  obtain ⟨r', context', hrun, hkeys, hiff⟩ := usePrivateKeyFile_spec (parserOf computeHash stack b behind) pemStack
    ((sslCtxNew sslv3ServerMethod).loaded (parserOf computeHash stack b behind) (datasOf cert)) hs hk
  have hcheck : sslCtxCheckPrivateKey context' = true :=
    hiff.mpr (Or.inr ⟨_, hkey, hasKey_rsa computeHash stack b behind hlen hints hd⟩)
  refine ⟨context', ?_, by rw [hkeys.certificates, CertContext.loaded, sslCtxNew]; rfl⟩
  rw [wsLoadFiles, hcert, Option.bind_eq_bind, Option.bind_some]
  simp only [hrun, Option.bind_some, hcheck]

end

theorem rsa_key_starts_small :
    ∃ serverCtx, wsLoadFiles (parserOf (fun _ _ => none) (fun _ => 0) 0 []) (fun _ _ => 0)
        ((none : Option PemFile).map PemFile.text) ((some smallFile).map PemFile.text) = some (serverCtx, true) ∧
      serverCtx.certificates =
        (datasOf none).filterMap (acceptedCert (parserOf (fun _ _ => none) (fun _ => 0) 0 []) true) := by
  have hreadable : ReadableFile (some smallFile) := by
    intro f hf
    obtain rfl := Option.some.inj hf
    decide
  have hkey : element 0x30 ([[0], [33], [3], [7]].flatMap (element 0x02)) ∈ datasOf (some smallFile) := by decide
  have hfourth : ([[0], [33], [3], [7]] : List (List UInt8))[3]? = some [7] := rfl
  exact rsa_key_starts _ _ _ _ _ (fun _ hf => nomatch hf) hreadable (by decide) hfourth (by decide) hkey

end CWebServer
