import CWebServer.PemSound

/-!
# Loading certificates and keys

The files of `ws_init`: every block of the certificate file is parsed once and
in order, and the key file is read up to the first block with a key. What
`asn1_parse` finds in a block is a parameter of the model (`Asn1Parse`).
-/

namespace CWebServer

/-- What `asn1_parse` fills of a certificate. `NULL` and an empty string are both the empty list in `priv` and
`derBytes`, whose lengths are fields of their own in the source. -/
structure TlsCertificate where
  version : Nat
  ecAlgorithm : Nat
  priv : List UInt8
  derBytes : List UInt8
  notBefore : Option (List UInt8)
  notAfter : Option (List UInt8)
  subject : Option (List UInt8)
  san : Option (List (Option (List UInt8)))
  fingerprint : Option (List UInt8)
  deriving DecidableEq, Repr

/-- The certificate that is returned, and whether `critical_error` is set in the context. -/
structure Asn1Result where
  cert : Option TlsCertificate
  criticalError : Bool := false

/-- `asn1_parse`, with `is_server` of its context and `client_cert`. -/
abbrev Asn1Parse := Bool → List UInt8 → Int → Asn1Result

structure CertContext where
  isServer : Bool
  criticalError : Bool
  certificates : List TlsCertificate
  clientCertificates : List TlsCertificate
  privateKey : Option TlsCertificate
  ecPrivateKey : Option TlsCertificate
  deriving DecidableEq, Repr

/-- The loop over the blocks of a file. A turn says whether the loop is left; `none` is a fault or too little fuel. -/
def loadBlocks {σ : Type} (stack : Nat → Nat → UInt8) (pemBuffer : List UInt8) (turn : σ → List UInt8 → σ × Bool) :
    Nat → Nat → σ → Option σ
  | 0, _, _ => none
  | fuel + 1, idx, s => do
    let data ← tlsPemDecode (stack idx) pemBuffer idx
    if data = [] then some s
    else if (turn s data).2 then some (turn s data).1
    else loadBlocks stack pemBuffer turn fuel (idx + 1) (turn s data).1

section
variable (parse : Asn1Parse) (stack : Nat → Nat → UInt8)

/-- A version 1 certificate is accepted too, and a private key in a certificate is dropped. -/
def certificateTurn (context : CertContext) (data : List UInt8) : CertContext × Bool :=
  let result := parse context.isServer data 0
  let context := { context with criticalError := context.criticalError || result.criticalError }
  match result.cert with
  | none => (context, false)
  | some cert =>
    if cert.version = 2 ∨ cert.version = 0 then
      let cert := { cert with derBytes := data, priv := [] }
      if context.isServer then ({ context with certificates := context.certificates ++ [cert] }, false)
      else ({ context with clientCertificates := context.clientCertificates ++ [cert] }, false)
    else (context, false)

def tlsLoadCertificates (context : CertContext) (pemBuffer : List UInt8) : Option (Int × CertContext) := do
  let context ← loadBlocks stack pemBuffer (certificateTurn parse) (pemBuffer.length + 1) 0 context
  some (if context.isServer then context.certificates.length else context.clientCertificates.length, context)

/-- The block is kept if the certificate has no bytes of its own. -/
def TlsCertificate.keep (cert : TlsCertificate) (data : List UInt8) : TlsCertificate :=
  if cert.derBytes = [] then { cert with derBytes := data } else cert

/-- The loop is left with the first key, and the key before it is freed. -/
def privateKeyTurn (s : Int × CertContext) (data : List UInt8) : (Int × CertContext) × Bool :=
  let context := s.2
  let result := parse context.isServer data (-1)
  let context := { context with criticalError := context.criticalError || result.criticalError }
  match result.cert with
  | none => ((0, context), false)
  | some cert =>
    let cert := cert.keep data
    if cert.priv ≠ [] then
      if cert.ecAlgorithm ≠ 0 then ((1, { context with ecPrivateKey := some cert }), true)
      else ((1, { context with privateKey := some cert }), true)
    else ((0, context), false)

def tlsLoadPrivateKey (context : CertContext) (pemBuffer : List UInt8) : Option (Int × CertContext) :=
  loadBlocks stack pemBuffer (privateKeyTurn parse) (pemBuffer.length + 1) 0 (0, context)

/-- A file that cannot be opened is `none`. -/
def privateTlsReadFromFile (file : Option (List UInt8)) (maxLen : Nat) : List UInt8 := (file.getD []).take maxLen

/-- `load` for a file of at most 65535 bytes; the rest of a longer one is not read. -/
def useFile (load : CertContext → List UInt8 → Option (Int × CertContext)) (context : CertContext)
    (file : Option (List UInt8)) : Option (Int × CertContext) :=
  let buf := privateTlsReadFromFile file 0xFFFF
  if 0 < buf.length then load context buf else some (buf.length, context)

def sslCtxUseCertificateFile (context : CertContext) (file : Option (List UInt8)) : Option (Int × CertContext) :=
  useFile (tlsLoadCertificates parse stack) context file

def sslCtxUsePrivateKeyFile (context : CertContext) (file : Option (List UInt8)) : Option (Int × CertContext) :=
  useFile (tlsLoadPrivateKey parse stack) context file

end

def sslv3ServerMethod : Int := 1

def sslCtxNew (method : Int) : CertContext where
  isServer := method ≠ 0
  criticalError := false
  certificates := []
  clientCertificates := []
  privateKey := none
  ecPrivateKey := none

def holdsKey (key : Option TlsCertificate) : Bool := key.any fun cert => cert.derBytes ≠ []

def sslCtxCheckPrivateKey (context : CertContext) : Bool := holdsKey context.privateKey || holdsKey context.ecPrivateKey

/-- What `ws_init` does with its two files: the context, and whether `SSL_CTX_check_private_key` holds. -/
def wsLoadFiles (parse : Asn1Parse) (stack : Nat → Nat → UInt8) (cert privKey : Option (List UInt8)) :
    Option (CertContext × Bool) := do
  let (_, serverCtx) ← sslCtxUseCertificateFile parse stack (sslCtxNew sslv3ServerMethod) cert
  let (_, serverCtx) ← sslCtxUsePrivateKeyFile parse stack serverCtx privKey
  some (serverCtx, sslCtxCheckPrivateKey serverCtx)

/-! ## The blocks of a file -/

/-- The turns over blocks that are not empty, up to the one that leaves the loop. -/
def turnsOver {σ : Type} (turn : σ → List UInt8 → σ × Bool) : σ → List (List UInt8) → σ
  | s, [] => s
  | s, data :: rest => if (turn s data).2 then (turn s data).1 else turnsOver turn (turn s data).1 rest

/-- The bytes of the blocks up to the first that is empty. -/
def PemFile.datas (file : PemFile) : List (List UInt8) := (file.blocks.map PemBlock.data).takeWhile (· ≠ [])

section
variable {σ : Type} (stack : Nat → Nat → UInt8) (turn : σ → List UInt8 → σ × Bool)

theorem loadBlocks_from (file : PemFile) {fuel idx : Nat} (hfuel : file.blocks.length - idx < fuel) (s : σ) :
    loadBlocks stack file.text turn fuel idx s =
      some (turnsOver turn s (((file.blocks.drop idx).map PemBlock.data).takeWhile (· ≠ []))) := by
  induction fuel generalizing idx s with
  | zero => omega
  | succ fuel ih =>
    rw [loadBlocks, tlsPemDecode_blocks, Option.bind_eq_bind, Option.bind_some]
    by_cases hidx : idx < file.blocks.length
    · rw [List.getElem?_eq_getElem hidx, List.drop_eq_getElem_cons hidx, List.map_cons, Option.elim_some]
      by_cases hdata : file.blocks[idx].data = []
      · simp only [hdata, if_true, List.takeWhile_cons, ne_eq, not_true_eq_false, decide_false, Bool.false_eq_true,
          if_false, turnsOver]
      · simp only [hdata, if_false, List.takeWhile_cons, ne_eq, not_false_eq_true, decide_true, if_true, turnsOver]
        split
        · rfl
        · exact ih (by omega) _
    · rw [List.getElem?_eq_none (by omega), List.drop_eq_nil_of_le (by omega)]
      rfl

theorem length_blocks (file : PemFile) : file.blocks.length ≤ file.text.length := by
  have hflat : file.blocks.length ≤ (file.blocks.flatMap PemBlock.text).length := by
    induction file.blocks with
    | nil => exact Nat.le_refl 0
    | cons b blocks ih =>
      rw [List.flatMap_cons, List.length_append, List.length_cons, PemBlock.text, List.length_cons]
      omega
  rw [PemFile.text, List.length_append]
  omega

/-- Every block of a file is handed over once and in order, until the loop is left. -/
theorem loadBlocks_file (file : PemFile) (s : σ) :
    loadBlocks stack file.text turn (file.text.length + 1) 0 s = some (turnsOver turn s file.datas) :=
  loadBlocks_from stack turn file (by have := length_blocks file; omega) s

end

/-! ## Certificates -/

/-- The certificate of a block, if there is one that is accepted. -/
def acceptedCert (parse : Asn1Parse) (isServer : Bool) (data : List UInt8) : Option TlsCertificate :=
  ((parse isServer data 0).cert.filter fun cert => cert.version = 2 ∨ cert.version = 0).map fun cert =>
    { cert with derBytes := data, priv := [] }

/-- A server context with the certificates of the blocks behind those it has. -/
def CertContext.loaded (parse : Asn1Parse) (context : CertContext) (datas : List (List UInt8)) : CertContext :=
  { context with
    criticalError := context.criticalError || datas.any fun data => (parse true data 0).criticalError
    certificates := context.certificates ++ datas.filterMap (acceptedCert parse true) }

theorem certificateTurn_eq (parse : Asn1Parse) {context : CertContext} (h : context.isServer = true)
    (data : List UInt8) : certificateTurn parse context data = (context.loaded parse [data], false) := by
  unfold certificateTurn CertContext.loaded acceptedCert
  rw [h]
  cases hcert : (parse true data 0).cert with
  | none => simp [hcert]
  | some cert =>
    by_cases hversion : cert.version = 2 ∨ cert.version = 0
    · simp [hcert, hversion]
    · have hnot := not_or.mp hversion
      simp [hcert, hnot]

theorem loaded_append (parse : Asn1Parse) (context : CertContext) (xs ys : List (List UInt8)) :
    (context.loaded parse xs).loaded parse ys = context.loaded parse (xs ++ ys) := by
  simp [CertContext.loaded, Bool.or_assoc]

theorem turnsOver_certificates (parse : Asn1Parse) {context : CertContext} (h : context.isServer = true)
    (datas : List (List UInt8)) : turnsOver (certificateTurn parse) context datas = context.loaded parse datas := by
  induction datas generalizing context with
  | nil => simp [turnsOver, CertContext.loaded]
  | cons data datas ih =>
    have hrest : turnsOver (certificateTurn parse) (context.loaded parse [data]) datas = _ := ih h
    rw [turnsOver, certificateTurn_eq parse h]
    simp only [Bool.false_eq_true, if_false]
    rw [hrest, loaded_append]
    rfl

/-! ## Keys -/

/-- A block has a key. -/
def HasKey (parse : Asn1Parse) (data : List UInt8) : Prop := ∃ cert, (parse true data (-1)).cert = some cert ∧ cert.priv ≠ []

/-- Only the keys of a context and its `critical_error` are changed. -/
structure KeysOnly (context context' : CertContext) : Prop where
  isServer : context'.isServer = context.isServer
  certificates : context'.certificates = context.certificates
  clientCertificates : context'.clientCertificates = context.clientCertificates

theorem keep_priv (cert : TlsCertificate) (data : List UInt8) : (cert.keep data).priv = cert.priv := by
  unfold TlsCertificate.keep
  split <;> rfl

theorem holdsKey_keep (cert : TlsCertificate) {data : List UInt8} (h : data ≠ []) :
    holdsKey (some (cert.keep data)) = true := by
  unfold TlsCertificate.keep
  split
  · simp [holdsKey, h]
  · rename_i hder
    simp [holdsKey, hder]

theorem privateKeyTurn_some {parse : Asn1Parse} (r : Int) {context : CertContext} (hs : context.isServer = true)
    {data : List UInt8} (hdata : data ≠ []) (h : HasKey parse data) :
    ∃ context', privateKeyTurn parse (r, context) data = ((1, context'), true) ∧ KeysOnly context context' ∧
      sslCtxCheckPrivateKey context' = true := by
  obtain ⟨cert, hcert, hpriv⟩ := h
  have hholds := holdsKey_keep cert hdata
  unfold privateKeyTurn
  simp only [hs, hcert, keep_priv, ne_eq, hpriv, not_false_eq_true, if_true]
  split
  · exact ⟨_, rfl, ⟨hs.symm, rfl, rfl⟩, by simp [sslCtxCheckPrivateKey, hholds]⟩
  · exact ⟨_, rfl, ⟨hs.symm, rfl, rfl⟩, by simp [sslCtxCheckPrivateKey, hholds]⟩

theorem privateKeyTurn_none {parse : Asn1Parse} (r : Int) {context : CertContext} (hs : context.isServer = true)
    {data : List UInt8} (h : ¬ HasKey parse data) :
    ∃ context', privateKeyTurn parse (r, context) data = ((0, context'), false) ∧ KeysOnly context context' ∧
      sslCtxCheckPrivateKey context' = sslCtxCheckPrivateKey context := by
  unfold privateKeyTurn
  simp only [hs]
  cases hcert : (parse true data (-1)).cert with
  | none => exact ⟨_, rfl, ⟨hs.symm, rfl, rfl⟩, rfl⟩
  | some cert =>
    have hpriv : cert.priv = [] := by
      by_contra hne
      exact h ⟨cert, hcert, hne⟩
    simp only [keep_priv, ne_eq, hpriv, not_true_eq_false, if_false]
    exact ⟨_, rfl, ⟨hs.symm, rfl, rfl⟩, rfl⟩

theorem KeysOnly.trans {context₁ context₂ context₃ : CertContext} (h : KeysOnly context₁ context₂)
    (h' : KeysOnly context₂ context₃) : KeysOnly context₁ context₃ :=
  ⟨h'.isServer.trans h.isServer, h'.certificates.trans h.certificates,
    h'.clientCertificates.trans h.clientCertificates⟩

theorem turnsOver_keys {parse : Asn1Parse} {datas : List (List UInt8)} (hdatas : ∀ data ∈ datas, data ≠ []) (r : Int)
    {context : CertContext} (hs : context.isServer = true) :
    KeysOnly context (turnsOver (privateKeyTurn parse) (r, context) datas).2 ∧
      (sslCtxCheckPrivateKey (turnsOver (privateKeyTurn parse) (r, context) datas).2 = true ↔
        sslCtxCheckPrivateKey context = true ∨ ∃ data ∈ datas, HasKey parse data) := by
  induction datas generalizing r context with
  | nil => simpa [turnsOver] using (⟨rfl, rfl, rfl⟩ : KeysOnly context context)
  | cons data datas ih =>
    rw [turnsOver]
    by_cases hkey : HasKey parse data
    · obtain ⟨context', hturn, hkeys, hcheck⟩ := privateKeyTurn_some r hs (hdatas data List.mem_cons_self) hkey
      rw [hturn, if_pos rfl]
      exact ⟨hkeys, iff_of_true hcheck (Or.inr ⟨data, List.mem_cons_self, hkey⟩)⟩
    · obtain ⟨context', hturn, hkeys, hcheck⟩ := privateKeyTurn_none r hs hkey
      rw [hturn, if_neg Bool.false_ne_true]
      obtain ⟨hkeys', hiff⟩ := ih (fun d hd => hdatas d (List.mem_cons_of_mem _ hd)) 0 (hkeys.isServer.trans hs)
      refine ⟨hkeys.trans hkeys', ?_⟩
      rw [hiff, hcheck]
      simp [hkey]

/-! ## The files of the server -/

/-- A file that is opened and read whole. -/
def ReadableFile (file : Option PemFile) : Prop := ∀ f ∈ file, f.text.length ≤ 0xFFFF

def datasOf (file : Option PemFile) : List (List UInt8) := file.elim [] PemFile.datas

theorem datas_of_empty {file : PemFile} (h : file.text.length = 0) : file.datas = [] := by
  have hblocks : file.blocks = [] := List.eq_nil_of_length_eq_zero (Nat.le_zero.mp (h ▸ length_blocks file))
  rw [PemFile.datas, hblocks]
  rfl

theorem useFile_text {load : CertContext → List UInt8 → Option (Int × CertContext)} {context context' : CertContext}
    {file : PemFile} (hle : file.text.length ≤ 0xFFFF) {r : Int} (hload : load context file.text = some (r, context'))
    (hempty : file.text.length = 0 → context' = context) :
    ∃ r', useFile load context (some file.text) = some (r', context') := by
  have hread : privateTlsReadFromFile (some file.text) 0xFFFF = file.text := by
    rw [privateTlsReadFromFile, Option.getD_some, List.take_of_length_le hle]
  unfold useFile
  rw [hread]
  simp only
  split
  · exact ⟨r, hload⟩
  · rename_i hpos
    exact ⟨_, by rw [hempty (by omega)]⟩

section
variable (parse : Asn1Parse) (stack : Nat → Nat → UInt8)

theorem useCertificateFile_eq {context : CertContext} (hs : context.isServer = true) {file : Option PemFile}
    (h : ReadableFile file) : ∃ r, sslCtxUseCertificateFile parse stack context (file.map PemFile.text) =
      some (r, context.loaded parse (datasOf file)) := by
  have hnone : context.loaded parse [] = context := by simp [CertContext.loaded]
  cases file with
  | none => exact ⟨0, by rw [datasOf, Option.elim_none, hnone]; rfl⟩
  | some file =>
    refine useFile_text (r := (context.loaded parse file.datas).certificates.length) (h file rfl) ?_ fun hempty => ?_
    · rw [tlsLoadCertificates, loadBlocks_file, turnsOver_certificates parse hs, Option.bind_eq_bind, Option.bind_some,
        if_pos (show (context.loaded parse file.datas).isServer = true from hs)]
      rfl
    · rw [datasOf, Option.elim_some, datas_of_empty hempty, hnone]

theorem usePrivateKeyFile_spec (context : CertContext) (hs : context.isServer = true) {file : Option PemFile}
    (h : ReadableFile file) : ∃ r context', sslCtxUsePrivateKeyFile parse stack context (file.map PemFile.text) =
      some (r, context') ∧ KeysOnly context context' ∧
      (sslCtxCheckPrivateKey context' = true ↔
        sslCtxCheckPrivateKey context = true ∨ ∃ data ∈ datasOf file, HasKey parse data) := by
  cases file with
  | none => exact ⟨0, context, rfl, ⟨rfl, rfl, rfl⟩, by simp [datasOf]⟩
  | some file =>
    have hdatas : ∀ data ∈ file.datas, data ≠ [] := fun data hdata => by simpa using List.mem_takeWhile_imp hdata
    obtain ⟨hkeys, hiff⟩ := turnsOver_keys hdatas 0 hs
    have hload : tlsLoadPrivateKey parse stack context file.text =
        some (turnsOver (privateKeyTurn parse) (0, context) file.datas) :=
      loadBlocks_file stack (privateKeyTurn parse) file (0, context)
    obtain ⟨r, hr⟩ := useFile_text (h file rfl) hload fun hempty => by rw [datas_of_empty hempty]; rfl
    exact ⟨r, _, hr, hkeys, hiff⟩

end

/-- The server presents the certificates of the blocks of its certificate file, in their order, and starts if and only
if some block of its key file has a key. -/
theorem server_files (parse : Asn1Parse) (stack : Nat → Nat → UInt8) {cert privKey : Option PemFile} (hc : ReadableFile cert)
    (hk : ReadableFile privKey) :
    ∃ serverCtx started,
      wsLoadFiles parse stack (cert.map PemFile.text) (privKey.map PemFile.text) = some (serverCtx, started) ∧
        serverCtx.certificates = (datasOf cert).filterMap (acceptedCert parse true) ∧
        (started = true ↔ ∃ data ∈ datasOf privKey, HasKey parse data) := by
  have hs : (sslCtxNew sslv3ServerMethod).isServer = true := by decide
  obtain ⟨r, hcert⟩ := useCertificateFile_eq parse stack hs hc
  obtain ⟨r', context', hkey, hkeys, hiff⟩ :=
    usePrivateKeyFile_spec parse stack ((sslCtxNew sslv3ServerMethod).loaded parse (datasOf cert)) hs hk
  refine ⟨context', sslCtxCheckPrivateKey context', ?_, ?_, ?_⟩
  · rw [wsLoadFiles, hcert, Option.bind_eq_bind, Option.bind_some]
    simp only [hkey, Option.bind_some]
  · rw [hkeys.certificates, CertContext.loaded, sslCtxNew]
    rfl
  · rw [hiff]
    simp [CertContext.loaded, sslCtxNew, sslCtxCheckPrivateKey, holdsKey]

/-- An RSA key with the private exponent 7. -/
def smallKey : PemBlock where
  label := s8 "----BEGIN RSA PRIVATE KEY-----"
  lines := [s8 "MAwCAQACASEC", s8 "AQMCAQc="]
  endLabel := s8 "----END RSA PRIVATE KEY-----"
  behind := []
  data := [0x30, 12, 2, 1, 0, 2, 1, 33, 2, 1, 3, 2, 1, 7]
  label_line := by decide
  lines_plain := by decide
  endLabel_line := by decide
  behind_plain := by decide
  spells := by decide

def smallParse : Asn1Parse := fun _ data _ =>
  { cert := some
      { version := 0, ecAlgorithm := 0, priv := if data = smallKey.data then [7] else [], derBytes := [], notBefore := none
        notAfter := none, subject := none, san := none, fingerprint := none } }

def smallFile : PemFile := ⟨[], [smallKey], by decide⟩

theorem server_files_small :
    ∃ serverCtx started,
      wsLoadFiles smallParse (fun _ _ => 0) ((some smallFile).map PemFile.text)
          ((some smallFile).map PemFile.text) = some (serverCtx, started) ∧
        serverCtx.certificates = (datasOf (some smallFile)).filterMap (acceptedCert smallParse true) ∧
        (started = true ↔ ∃ data ∈ datasOf (some smallFile), HasKey smallParse data) := by
  have hreadable : ReadableFile (some smallFile) := by
    intro f hf
    obtain rfl := Option.some.inj hf
    decide
  exact server_files smallParse _ hreadable hreadable

end CWebServer
