import CWebServer.Asn1
import CWebServer.Lib.Der
import Mathlib.Logic.Relation

/-!
# What the parser reads and what it changes

The parser returns for every input and reads at most one byte behind it. What
stands inside an element changes only the members whose field the element leads
to.
-/

namespace CWebServer

/-! ## Reads -/

theorem isOid_isSome {oid compareTo : List UInt8} (h : compareTo.length < oid.length) :
    ∃ b, isOid oid compareTo = some b := by
  induction compareTo generalizing oid with
  | nil =>
    cases oid with
    | nil => cases h
    | cons c oid => exact ⟨true, rfl⟩
  | cons d compareTo ih =>
    cases oid with
    | nil => cases h
    | cons c oid =>
      rw [isOid]
      split
      · exact ⟨true, rfl⟩
      · split
        · exact ⟨false, rfl⟩
        · exact ih (Nat.lt_of_succ_lt_succ h)

theorem firstOid_isSome {val : List UInt8} {oids : List (List UInt8 × Nat)} (h : ∀ o ∈ oids, o.1.length < val.length) :
    ∃ r, firstOid val oids = some r := by
  induction oids with
  | nil => exact ⟨none, rfl⟩
  | cons o oids ih =>
    rw [List.forall_mem_cons] at h
    obtain ⟨b, hb⟩ := isOid_isSome h.1
    rw [firstOid, hb, Option.bind_eq_bind, Option.bind_some]
    split
    · exact ⟨_, rfl⟩
    · exact ih h.2

theorem setAlgorithm_isSome {val : List UInt8} {len : Nat} (h : len < val.length) :
    ∃ r, tlsCertificateSetAlgorithm val len = some r := by
  have hseven : ∀ o ∈ [(ecPublicKeyOid, 0x11)], o.1.length = 7 := by decide
  have height : ∀ o ∈ oids8, o.1.length = 8 := by decide
  have hnine : ∀ o ∈ oids9, o.1.length = 9 := by decide
  unfold tlsCertificateSetAlgorithm
  split
  · exact firstOid_isSome fun o ho => by rw [hseven o ho]; omega
  · split
    · exact firstOid_isSome fun o ho => by rw [height o ho]; omega
    · split
      · exact ⟨_, rfl⟩
      · split
        · exact ⟨_, rfl⟩
        · exact firstOid_isSome fun o ho => by rw [hnine o ho]; omega

theorem nameField_isSome {oid : List UInt8} {known : List (List UInt8 × NameField)}
    (h : ∀ o ∈ known, o.1.length < oid.length) : ∃ r, nameField oid known = some r := by
  induction known with
  | nil => exact ⟨none, rfl⟩
  | cons o known ih =>
    rw [List.forall_mem_cons] at h
    obtain ⟨b, hb⟩ := isOid_isSome h.1
    rw [nameField, hb, Option.bind_eq_bind, Option.bind_some]
    split
    · exact ⟨_, rfl⟩
    · exact ih h.2

theorem lenLoop_isSome {buffer : List UInt8} {n : Nat} (h : n < buffer.length) (coef longSize : Nat) :
    ∃ r, lenLoop buffer n coef longSize = some r := by
  induction n generalizing coef longSize with
  | zero => exact ⟨longSize, rfl⟩
  | succ n ih =>
    rw [lenLoop, List.getElem?_eq_getElem h, Option.bind_eq_bind, Option.bind_some]
    exact ih (by omega) _ _

theorem asn1GetLen_isSome {buffer : List UInt8} {bufLen : Nat} (h : bufLen ≤ buffer.length) :
    ∃ r, asn1GetLen buffer bufLen = some r := by
  unfold asn1GetLen
  split
  · exact ⟨_, rfl⟩
  · rename_i hpos
    rw [List.getElem?_eq_getElem (by omega), Option.bind_eq_bind, Option.bind_some]
    split
    · dsimp only
      split
      · exact ⟨_, rfl⟩
      · have hmin : min (buffer[0] &&& 0x7F).toNat 4 < buffer.length := by omega
        obtain ⟨r, hr⟩ := lenLoop_isSome hmin 1 0
        exact ⟨_, by rw [hr]; rfl⟩
    · exact ⟨_, rfl⟩

theorem withoutSign_isSome {val : List UInt8} (h : 0 < val.length) (len : Nat) :
    ∃ key, withoutSign val len = some key := by
  rw [withoutSign, List.getElem?_eq_getElem h]
  exact ⟨_, rfl⟩

/-! ## Changes -/

/-- A member changes only where its field is reached. -/
def KeptUnless {α : Type} (reached : Bool) (a b : α) : Prop := reached = true ∨ b = a

theorem KeptUnless.refl {α : Type} (reached : Bool) (a : α) : KeptUnless reached a a := Or.inr rfl

theorem KeptUnless.trans {α : Type} {reached : Bool} {a b c : α} (h : KeptUnless reached a b)
    (h' : KeptUnless reached b c) : KeptUnless reached a c := by
  rcases h with h | rfl
  · exact Or.inl h
  · exact h'

/-- What a turn may change by itself. The members that are not here may always change. -/
structure Handles (st st' : Asn1State) : Prop where
  fields : st'.fields = st.fields
  version : KeptUnless (isField st.fields versionId) st.cert.version st'.cert.version
  notBefore : KeptUnless (isField st.fields validityId) st.cert.notBefore st'.cert.notBefore
  notAfter : KeptUnless (isField st.fields validityId) st.cert.notAfter st'.cert.notAfter
  owner : KeptUnless (isField st.fields ownerId) st.cert.owner st'.cert.owner
  signKey : KeptUnless (isField st.fields signId) st.cert.signKey st'.cert.signKey
  fingerprint : st'.cert.fingerprint = st.cert.fingerprint

theorem Handles.refl (st : Asn1State) : Handles st st :=
  ⟨rfl, .refl _ _, .refl _ _, .refl _ _, .refl _ _, .refl _ _, rfl⟩

theorem Handles.trans {st₁ st₂ st₃ : Asn1State} (h : Handles st₁ st₂) (h' : Handles st₂ st₃) : Handles st₁ st₃ := by
  obtain ⟨hfields, hversion, hbefore, hafter, howner, hsign, hfinger⟩ := h'
  rw [h.fields] at hfields hversion hbefore hafter howner hsign
  exact ⟨hfields, h.version.trans hversion, h.notBefore.trans hbefore, h.notAfter.trans hafter, h.owner.trans howner,
    h.signKey.trans hsign, hfinger.trans h.fingerprint⟩

/-- A change of the other members. -/
theorem handles_others {st : Asn1State} {f : X509Certificate → X509Certificate}
    (h : (f st.cert).version = st.cert.version ∧ (f st.cert).notBefore = st.cert.notBefore ∧
      (f st.cert).notAfter = st.cert.notAfter ∧ (f st.cert).owner = st.cert.owner ∧
      (f st.cert).signKey = st.cert.signKey ∧ (f st.cert).fingerprint = st.cert.fingerprint) :
    Handles st (st.modify f) := by
  obtain ⟨hversion, hbefore, hafter, howner, hsign, hfinger⟩ := h
  exact ⟨rfl, Or.inr hversion, Or.inr hbefore, Or.inr hafter, Or.inr howner, Or.inr hsign, hfinger⟩

theorem setAlgorithm_spec (env : Asn1Env) {data : List UInt8} {length : Nat} (hdata : length < data.length)
    {set : Nat → X509Certificate → X509Certificate} (hset : ∀ a st, Handles st (st.modify (set a))) (st : Asn1State) :
    ∃ st', setAlgorithm env data length set st = some st' ∧ Handles st st' := by
  obtain ⟨r, hr⟩ := setAlgorithm_isSome hdata
  rw [setAlgorithm, hr, Option.bind_eq_bind, Option.bind_some]
  cases r with
  | none => exact ⟨_, rfl, rfl, .refl _ _, .refl _ _, .refl _ _, .refl _ _, .refl _ _, rfl⟩
  | some a => exact ⟨_, rfl, hset a st⟩

section
variable {data : List UInt8} {length : Nat} (hdata : length < data.length)

include hdata

theorem head_some : data[0]? = some (data.getD 0 0) := by
  cases data with
  | nil => cases hdata
  | cons c data => rfl

theorem integerKey_spec (l : Asn1Locals) (st : Asn1State) : ∃ st' l', integerKey data length l st = some (st', l') ∧
    Handles st st' ∧ l'.oid = l.oid ∧ l'.idx = l.idx := by
  obtain ⟨key, hkey⟩ := withoutSign_isSome (by omega : 0 < data.length) length
  unfold integerKey
  simp only [hkey, Option.bind_eq_bind, Option.bind_some]
  split
  · split
    · exact ⟨_, _, rfl, handles_others (by simp), rfl, rfl⟩
    · split
      · exact ⟨_, _, rfl, handles_others (by simp), rfl, rfl⟩
      · exact ⟨_, _, rfl, .refl st, rfl, rfl⟩
  · split
    · exact ⟨_, _, rfl, handles_others (by simp), rfl, rfl⟩
    · exact ⟨_, _, rfl, .refl st, rfl, rfl⟩

theorem integerVersion_spec (l : Asn1Locals) (st : Asn1State) :
    ∃ st' l', integerVersion data length l st = some (st', l') ∧ Handles st st' ∧ l'.oid = l.oid ∧ l.idx ≤ l'.idx ∧
      KeptUnless (isField st.fields versionId) l.idx l'.idx := by
  have hversion (h : isField st.fields versionId = true) (v : Nat) :
      Handles st (st.modify fun cert => { cert with version := v }) :=
    ⟨rfl, Or.inl h, .refl _ _, .refl _ _, .refl _ _, .refl _ _, rfl⟩
  unfold integerVersion
  simp only [head_some hdata, Option.bind_eq_bind, Option.bind_some]
  split
  · rename_i hfield
    split
    · exact ⟨_, _, rfl, hversion hfield _, rfl, Nat.le_succ _, Or.inl hfield⟩
    · exact ⟨_, _, rfl, hversion hfield _, rfl, Nat.le_succ _, Or.inl hfield⟩
  · exact ⟨_, _, rfl, .refl st, rfl, Nat.le_refl _, .refl _ _⟩

theorem asn1Integer_spec (level : Nat) (chain : List (List UInt8)) (l : Asn1Locals) (st : Asn1State) :
    ∃ st' l', asn1Integer level chain data length l st = some (st', l') ∧ Handles st st' ∧ l'.oid = l.oid ∧
      l.idx ≤ l'.idx ∧ KeptUnless (isField st.fields versionId) l.idx l'.idx := by
  obtain ⟨st₁, l₁, h₁, hst₁, hoid₁, hidx₁⟩ := integerKey_spec hdata l st
  obtain ⟨st₂, l₂, h₂, hst₂, hoid₂, hidx₂, hversion⟩ := integerVersion_spec hdata l₁ st₁
  rw [hst₁.fields, hidx₁] at hversion
  have hpriv : Handles st₂ (integerPriv level data length st₂) := by
    unfold integerPriv
    split
    · exact handles_others (by simp)
    · exact .refl st₂
  have hsan (st : Asn1State) : Handles st (integerSan chain data length st) := by
    unfold integerSan
    split
    · exact handles_others (by simp)
    · exact .refl st
  rw [asn1Integer, h₁, Option.bind_eq_bind, Option.bind_some]
  dsimp only
  rw [h₂, Option.bind_some]
  exact ⟨_, _, rfl, hst₁.trans (hst₂.trans (hpriv.trans (hsan _))), hoid₂.trans hoid₁, hidx₁ ▸ hidx₂, hversion⟩

theorem asn1ObjectId_spec (env : Asn1Env) {l : Asn1Locals} (hl : l.oid.length = 16) (st : Asn1State) :
    ∃ st' l', asn1ObjectId env data length l st = some (st', l') ∧ Handles st st' ∧ l'.oid.length = 16 ∧
      l'.idx = l.idx := by
  have hkey : ∃ st', objectIdKey env data length st = some st' ∧ Handles st st' := by
    unfold objectIdKey
    split
    · split
      · exact setAlgorithm_spec env hdata (fun a st => handles_others (by simp)) st
      · exact setAlgorithm_spec env hdata (fun a st => handles_others (by simp)) st
    · exact ⟨st, rfl, .refl st⟩
  have halgorithm (st : Asn1State) : ∃ st', objectIdAlgorithm env data length st = some st' ∧ Handles st st' := by
    unfold objectIdAlgorithm
    split
    · exact setAlgorithm_spec env hdata (fun a st => handles_others (by simp)) st
    · exact ⟨st, rfl, .refl st⟩
  obtain ⟨st₁, h₁, hst₁⟩ := hkey
  obtain ⟨st₂, h₂, hst₂⟩ := halgorithm st₁
  have hoid : (data.take (min length 16) ++ l.oid.drop (min length 16)).length = 16 := by
    rw [List.length_append, List.length_take, List.length_drop]
    omega
  have htop (st : Asn1State) (oid : Option (List UInt8)) : Handles st { st with topOid := oid } :=
    ⟨rfl, .refl _ _, .refl _ _, .refl _ _, .refl _ _, .refl _ _, rfl⟩
  rw [asn1ObjectId, h₁, Option.bind_eq_bind, Option.bind_some, h₂, Option.bind_some]
  dsimp only
  split
  · exact ⟨_, _, rfl, hst₁.trans (hst₂.trans ((handles_others (by simp)).trans (htop _ _))), hoid, rfl⟩
  · exact ⟨_, _, rfl, hst₁.trans (hst₂.trans (htop _ _)), hoid, rfl⟩

theorem bitStringCurve_spec (st : Asn1State) :
    ∃ st', bitStringCurve data length st = some st' ∧ Handles st st' ∧ st'.cert.signKey = st.cert.signKey := by
  obtain ⟨key, hkey⟩ := withoutSign_isSome (by omega : 0 < data.length) length
  unfold bitStringCurve
  simp only [hkey, Option.bind_eq_bind, Option.bind_some]
  split
  · exact ⟨st, rfl, .refl st, rfl⟩
  · split
    · exact ⟨_, rfl, (handles_others (by simp)).trans (handles_others (by simp)), rfl⟩
    · exact ⟨_, rfl, handles_others (by simp), rfl⟩

omit hdata in
theorem asn1UtcTime_handles (data : List UInt8) (length : Nat) (l : Asn1Locals) (st : Asn1State) :
    Handles st (asn1UtcTime data length l st) := by
  unfold asn1UtcTime
  split
  · rename_i hfield
    dsimp only
    split
    · exact ⟨rfl, .refl _ _, Or.inl hfield, .refl _ _, .refl _ _, .refl _ _, rfl⟩
    · exact ⟨rfl, .refl _ _, .refl _ _, Or.inl hfield, .refl _ _, .refl _ _, rfl⟩
  · exact .refl st

omit hdata in
theorem asn1Text_spec (data : List UInt8) (length : Nat) {l : Asn1Locals} (hl : l.oid.length = 16) (st : Asn1State) :
    ∃ st', asn1Text data length l st = some st' ∧ Handles st st' := by
  have hknown : ∀ o ∈ nameOids, o.1.length = 3 := by decide
  have hlt : ∀ o ∈ nameOids, o.1.length < l.oid.length := fun o ho => by rw [hknown o ho]; omega
  obtain ⟨field, hfield⟩ := nameField_isSome hlt
  unfold asn1Text
  simp only [hfield, Option.bind_eq_bind, Option.bind_some]
  split
  · exact ⟨_, rfl, handles_others (by simp)⟩
  · split
    · rename_i howner
      exact ⟨_, rfl, rfl, .refl _ _, .refl _ _, .refl _ _, Or.inl howner, .refl _ _, rfl⟩
    · exact ⟨st, rfl, .refl st⟩

end

/-- A change by a call at `level`: fields from its level on, and the fingerprint at the end of level 2. -/
inductive Change (level : Nat) (st : Asn1State) : Asn1State → Prop
  | handle {st' : Asn1State} (h : Handles st st') : Change level st st'
  | field {i : Nat} (h : level ≤ i + 1) (v : Nat) : Change level st (st.setField i v)
  | finish (h : level ≤ 2) (fingerprint : Option (List UInt8)) :
    Change level st (st.modify fun cert => { cert with fingerprint })

abbrev Changes (level : Nat) : Asn1State → Asn1State → Prop := Relation.ReflTransGen (Change level)

theorem Changes.mono {level level' : Nat} (h : level ≤ level') {st st' : Asn1State} (hst : Changes level' st st') :
    Changes level st st' := by
  refine Relation.ReflTransGen.mono (fun a b hab => ?_) _ _ hst
  cases hab with
  | handle hab => exact .handle hab
  | field hi v => exact .field (Nat.le_trans h hi) v
  | finish hle fingerprint => exact .finish (Nat.le_trans h hle) fingerprint

theorem Changes.handles {level : Nat} {st st' : Asn1State} (h : Handles st st') : Changes level st st' :=
  .single (.handle h)

/-- One element of a call at `level`, behind the first `n`. -/
def Turn (level n : Nat) (st st' : Asn1State) : Prop := ∃ v, n < v ∧ Changes (level + 1) (st.enter level v) st'

abbrev Turns (level n : Nat) : Asn1State → Asn1State → Prop := Relation.ReflTransGen (Turn level n)

theorem changes_enter (st : Asn1State) (level v : Nat) : Changes level st (st.enter level v) := by
  unfold Asn1State.enter
  split
  · exact .single (.field (by omega) v)
  · exact .refl

theorem Turns.changes {level n : Nat} {st st' : Asn1State} (h : Turns level n st st') : Changes level st st' := by
  induction h with
  | refl => exact .refl
  | tail _ hturn ih =>
    obtain ⟨v, -, hchanges⟩ := hturn
    exact ih.trans ((changes_enter _ level v).trans (hchanges.mono (Nat.le_succ level)))

theorem Turns.later {level n m : Nat} (hle : n ≤ m) {st st' : Asn1State} (h : Turns level m st st') :
    Turns level n st st' :=
  Relation.ReflTransGen.mono (fun _ _ ⟨v, hv, hst⟩ => ⟨v, Nat.lt_of_le_of_lt hle hv, hst⟩) _ _ h

/-- What a call does with a buffer of at most `size` bytes and at least one byte behind it. -/
def ChildReads (child : Asn1Child) (level size : Nat) : Prop :=
  ∀ chain data n st, n ≤ size → n < data.length →
    ∃ st' hasKey, child level chain data n st = some (st', hasKey) ∧ Changes level st st'

section
variable {child : Asn1Child} {level length : Nat} (hchild : ChildReads child (level + 1) length) {data : List UInt8}

include hchild

theorem asn1Constructed_spec (env : Asn1Env) (chain : List (List UInt8)) (type : UInt8) {whole : List UInt8}
    {header : Nat}
    (hwhole : header + length < whole.length) (l : Asn1Locals) (st : Asn1State) :
    ∃ st' l', asn1Constructed env child level chain type whole header length l st = some (st', l') ∧
      Changes (level + 1) st st' ∧ l'.oid = l.oid ∧ l'.idx = l.idx := by
  have hder (st : Asn1State) (bytes : List UInt8) :
      Changes (level + 1) st (st.modify fun cert => { cert with derBytes := bytes }) :=
    Changes.handles (handles_others (by simp))
  have hbefore (bytes : List UInt8) : Changes (level + 1) st
      (if type = 0x10 ∧ st.cert.version = 0 ∧ isField st.fields privDerId then
        st.modify fun cert => { cert with derBytes := bytes }
      else st) := by
    split
    · exact hder _ _
    · exact .refl
  have hlocals (bytes : List UInt8) :
      (if type = 0x10 ∧ level = 2 ∧ l.idx = 1 then { l with certData := bytes } else l).oid = l.oid ∧
        (if type = 0x10 ∧ level = 2 ∧ l.idx = 1 then { l with certData := bytes } else l).idx = l.idx := by
    split <;> exact ⟨rfl, rfl⟩
  unfold asn1Constructed
  dsimp only
  have hsize : length < (whole.drop header).length := by
    rw [List.length_drop]
    omega
  obtain ⟨st₁, hasKey, h₁, hst₁⟩ := hchild _ _ length _ (Nat.le_refl _) hsize
  rw [h₁, Option.bind_eq_bind, Option.bind_some]
  refine ⟨_, _, rfl, ((hbefore _).trans hst₁).trans ?_, (hlocals _).1, (hlocals _).2⟩
  split
  · exact hder _ _
  · exact .refl

theorem asn1BitString_spec (chain : List (List UInt8)) (hdata : length < data.length) (l : Asn1Locals)
    (st : Asn1State) :
    ∃ st' l', asn1BitString child level chain data length l st = some (st', l') ∧ Changes (level + 1) st st' ∧
      l'.oid = l.oid ∧ l'.idx = l.idx := by
  obtain ⟨key, hkey⟩ := withoutSign_isSome (by omega : 0 < data.length) length
  have hinside (l : Asn1Locals) :
      ∃ st' hasKey, bitStringInside child level chain data length l st = some (st', hasKey) ∧
        Changes (level + 1) st st' := by
    rw [bitStringInside, head_some hdata, Option.bind_eq_bind, Option.bind_some]
    split
    · refine hchild _ _ _ _ (Nat.sub_le _ _) ?_
      rw [List.length_drop]
      omega
    · exact hchild _ _ _ _ (Nat.le_refl _) hdata
  have hlocals : (if isField st.fields pkId = true then { l with hasKey := true } else l).oid = l.oid ∧
      (if isField st.fields pkId = true then { l with hasKey := true } else l).idx = l.idx := by
    split <;> exact ⟨rfl, rfl⟩
  unfold asn1BitString
  simp only [hkey, Option.bind_eq_bind, Option.bind_some]
  split
  · rename_i hsign
    exact ⟨_, _, rfl, Changes.handles ⟨rfl, .refl _ _, .refl _ _, .refl _ _, .refl _ _, Or.inl hsign, rfl⟩, hlocals⟩
  · split
    · exact ⟨_, _, rfl, Changes.handles (handles_others (by simp)), hlocals⟩
    · obtain ⟨st₁, hasKey, h₁, hst₁⟩ := hinside (if isField st.fields pkId = true then { l with hasKey := true } else l)
      obtain ⟨st₂, h₂, hst₂, -⟩ := bitStringCurve_spec hdata st₁
      rw [h₁, Option.bind_some]
      dsimp only
      rw [h₂, Option.bind_some]
      exact ⟨_, _, rfl, hst₁.trans (Changes.handles hst₂), hlocals⟩

theorem asn1OctetString_spec (chain : List (List UInt8)) (hdata : length < data.length) (l : Asn1Locals)
    (st : Asn1State) :
    ∃ st', asn1OctetString child level chain data length l st = some (st', l) ∧ Changes (level + 1) st st' := by
  unfold asn1OctetString
  split
  · exact ⟨_, rfl, Changes.handles (handles_others (by simp))⟩
  · obtain ⟨st₁, hasKey, h₁, hst₁⟩ := hchild (l.oid :: chain) data length st (Nat.le_refl _) hdata
    rw [h₁, Option.bind_eq_bind, Option.bind_some]
    exact ⟨_, rfl, hst₁⟩

theorem asn1Primitive_spec (env : Asn1Env) (chain : List (List UInt8)) (type : UInt8) (hdata : length < data.length)
    {l : Asn1Locals} (hl : l.oid.length = 16) (st : Asn1State) :
    ∃ st' l' stop, asn1Primitive env child level chain type data length l st = some (st', l', stop) ∧
      Changes (level + 1) st st' ∧ l'.oid.length = 16 ∧ l.idx ≤ l'.idx ∧
      KeptUnless (isField st.fields versionId) l.idx l'.idx ∧ (stop = true → type = 0x00) := by
  obtain ⟨stInt, lInt, hint, hstInt, hoidInt, hidxInt, hversionInt⟩ := asn1Integer_spec hdata level chain l st
  obtain ⟨stBit, lBit, hbit, hstBit, hoidBit, hidxBit⟩ := asn1BitString_spec hchild chain hdata l st
  obtain ⟨stOct, hoct, hstOct⟩ := asn1OctetString_spec hchild chain hdata l st
  obtain ⟨stOid, lOid, hoid, hstOid, hoidOid, hidxOid⟩ := asn1ObjectId_spec hdata env hl st
  obtain ⟨stText, htext, hstText⟩ := asn1Text_spec data length hl st
  unfold asn1Primitive
  simp only [head_some hdata, hint, hbit, hoct, hoid, htext, Option.bind_eq_bind, Option.bind_some]
  split
  · rename_i htype
    exact ⟨st, l, true, rfl, .refl, hl, Nat.le_refl _, .refl _ _, fun _ => htype⟩
  · split
    · exact ⟨st, l, false, rfl, .refl, hl, Nat.le_refl _, .refl _ _, nofun⟩
    · split
      · exact ⟨stInt, lInt, false, rfl, Changes.handles hstInt, hoidInt ▸ hl, hidxInt, hversionInt, nofun⟩
      · split
        · exact ⟨stBit, lBit, false, rfl, hstBit, hoidBit ▸ hl, Nat.le_of_eq hidxBit.symm, Or.inr hidxBit, nofun⟩
        · split
          · exact ⟨stOct, l, false, rfl, hstOct, hl, Nat.le_refl _, .refl _ _, nofun⟩
          · split
            · exact ⟨stOid, lOid, false, rfl, Changes.handles hstOid, hoidOid, Nat.le_of_eq hidxOid.symm,
                Or.inr hidxOid, nofun⟩
            · split
              · exact ⟨_, l, false, rfl, Changes.handles (asn1UtcTime_handles data length l st), hl, Nat.le_refl _,
                  .refl _ _, nofun⟩
              · split
                · exact ⟨stText, l, false, rfl, Changes.handles hstText, hl, Nat.le_refl _, .refl _ _, nofun⟩
                · exact ⟨st, l, false, rfl, .refl, hl, Nat.le_refl _, .refl _ _, nofun⟩

theorem asn1Element_spec (env : Asn1Env) (chain : List (List UInt8)) (first : UInt8) {whole : List UInt8} {header : Nat}
    (hwhole : header + length < whole.length) {l : Asn1Locals} (hl : l.oid.length = 16) (st : Asn1State) :
    ∃ st' l' stop, asn1Element env child level chain first whole header length l st = some (st', l', stop) ∧
      Changes (level + 1) st st' ∧ l'.oid.length = 16 ∧ l.idx ≤ l'.idx ∧
      KeptUnless (isField st.fields versionId) l.idx l'.idx ∧
      (stop = true → first &&& 0x1F = 0x00 ∧ (length = 0 ∨ first &&& 0x20 = 0)) := by
  unfold asn1Element
  dsimp only
  split
  · obtain ⟨st', l', h, hst, hoid, hidx⟩ := asn1Constructed_spec hchild env chain (first &&& 0x1F) hwhole l st
    rw [h, Option.bind_eq_bind, Option.bind_some]
    exact ⟨_, _, _, rfl, hst, hoid ▸ hl, Nat.le_of_eq hidx.symm, Or.inr hidx, nofun⟩
  · rename_i hprimitive
    have hdata : length < (whole.drop header).length := by
      rw [List.length_drop]
      omega
    obtain ⟨st', l', stop, h, hst, hoid, hidx, hversion, hstop⟩ :=
      asn1Primitive_spec hchild env chain (first &&& 0x1F) hdata hl st
    refine ⟨st', l', stop, h, hst, hoid, hidx, hversion, fun htrue => ⟨hstop htrue, ?_⟩⟩
    simpa [imp_iff_not_or] using hprimitive

end

/-! ## The loop -/

/-- What the loop does with a buffer and at least one byte behind it. -/
def LoopReads (env : Asn1Env) (fuel size : Nat) : Prop :=
  ∀ level chain data l st, size < data.length → l.oid.length = 16 →
    ∃ st' l' ended, asn1Loop env fuel level chain data size l st = some (st', l', ended) ∧ Turns level l.idx st st'

theorem asn1Finish_changes (env : Asn1Env) (level : Nat) (l : Asn1Locals) (st : Asn1State) :
    Changes level st (asn1Finish env level l st) := by
  unfold asn1Finish
  split
  · rename_i h
    exact .single (.finish (Nat.le_of_eq h.1) _)
  · exact .refl

theorem privateAsn1Parse_reads {env : Asn1Env} {fuel size : Nat} (h : ∀ n, n ≤ size → LoopReads env fuel n)
    (level : Nat) :
    ChildReads (privateAsn1Parse env fuel) level size := by
  intro chain data n st hn hdata
  obtain ⟨st', l', ended, hloop, hturns⟩ := h n hn level chain data {} st hdata rfl
  rw [privateAsn1Parse, hloop, Option.bind_eq_bind, Option.bind_some]
  refine ⟨_, _, rfl, ?_⟩
  cases ended with
  | false => exact hturns.changes
  | true => exact hturns.changes.trans (asn1Finish_changes env level l' st')

/-- A turn with its call. -/
theorem asn1Loop_succ (env : Asn1Env) (fuel level : Nat) (chain : List (List UInt8)) (data : List UInt8) (size : Nat)
    (l : Asn1Locals) (st : Asn1State) :
    asn1Loop env (fuel + 1) level chain data size l st =
      if size = 0 then some (st, l, true)
      else if size < 2 then some (st, l, false)
      else data[0]?.bind fun first =>
        (asn1GetLen (data.drop 1) (size - 1)).bind fun (length, octets) =>
          if 4 < octets ∨ size - 1 < octets then
            some (st.enter level (l.idx + 1), { l with idx := l.idx + 1 }, false)
          else if size - 1 - octets < length then some (st.enter level (l.idx + 1), { l with idx := l.idx + 1 }, false)
          else
            (asn1Element env (privateAsn1Parse env fuel) level chain first data (1 + octets) length
              { l with idx := l.idx + 1 } (st.enter level (l.idx + 1))).bind fun (st, l, stop) =>
                if stop then some (st, l, false)
                else
                  asn1Loop env fuel level chain (data.drop (1 + octets + length)) (size - 1 - octets - length) l st :=
  rfl

theorem asn1Loop_reads (env : Asn1Env) {fuel size : Nat} (h : size < fuel) : LoopReads env fuel size := by
  induction fuel generalizing size with
  | zero => cases h
  | succ fuel ih =>
    intro level chain data l st hdata hl
    have hbuffer : size - 1 ≤ (data.drop 1).length := by
      rw [List.length_drop]
      omega
    obtain ⟨⟨length, octets⟩, hlen⟩ := asn1GetLen_isSome hbuffer
    have hturn {st' : Asn1State} (hst : Changes (level + 1) (st.enter level (l.idx + 1)) st') :
      Turn level l.idx st st' :=
      ⟨l.idx + 1, Nat.lt_succ_self _, hst⟩
    rw [asn1Loop_succ, head_some hdata, hlen]
    split
    · exact ⟨st, l, true, rfl, .refl⟩
    · split
      · exact ⟨st, l, false, rfl, .refl⟩
      · simp only [Option.bind_some]
        split
        · exact ⟨_, _, _, rfl, .single (hturn .refl)⟩
        · split
          · exact ⟨_, _, _, rfl, .single (hturn .refl)⟩
          · have hchild : ChildReads (privateAsn1Parse env fuel) (level + 1) length :=
              privateAsn1Parse_reads (fun n hn => ih (by omega)) (level + 1)
            have hwhole : 1 + octets + length < data.length := by omega
            have hl' : ({ l with idx := l.idx + 1 } : Asn1Locals).oid.length = 16 := hl
            obtain ⟨st₁, l₁, stop, h₁, hst₁, hoid₁, hidx₁, -⟩ := asn1Element_spec hchild env chain (data.getD 0 0)
              hwhole hl'
              (st.enter level (l.idx + 1))
            rw [h₁, Option.bind_some]
            dsimp only
            split
            · exact ⟨_, _, _, rfl, .single (hturn hst₁)⟩
            · have hfuel : size - 1 - octets - length < fuel := by omega
              have hbehind : size - 1 - octets - length < (data.drop (1 + octets + length)).length := by
                rw [List.length_drop]
                omega
              obtain ⟨st₂, l₂, ended, h₂, hst₂⟩ := ih hfuel level chain _ l₁ st₁ hbehind hoid₁
              exact ⟨st₂, l₂, ended, h₂, .head (hturn hst₁) (hst₂.later (Nat.le_of_succ_le hidx₁))⟩

/-- The element is not under `id`: a number that the calls from `level` on do not change is another one. -/
def Apart (fields : Nat → Nat) (level : Nat) (id : List Nat) : Prop :=
  ∃ i v, i + 1 < level ∧ id[i]? = some v ∧ fields i ≠ v

theorem isField_apart {fields : Nat → Nat} {level : Nat} {id : List Nat} (h : Apart fields level id) :
    isField fields id = false := by
  obtain ⟨i, v, -, hid, hne⟩ := h
  rw [isField, decide_eq_false_iff_not]
  intro heq
  obtain ⟨hi, rfl⟩ := List.getElem?_eq_some_iff.mp hid
  have hget := congrArg (·[i]?) heq
  simp [hi] at hget
  exact hne hget

theorem Apart.congr {fields fields' : Nat → Nat} {level : Nat} {id : List Nat}
    (h : ∀ i, i + 1 < level → fields' i = fields i) (hapart : Apart fields level id) : Apart fields' level id := by
  obtain ⟨i, v, hi, hid, hne⟩ := hapart
  exact ⟨i, v, hi, hid, h i hi ▸ hne⟩

theorem Apart.mono {fields : Nat → Nat} {level level' : Nat} (h : level ≤ level') {id : List Nat}
    (hapart : Apart fields level id) : Apart fields level' id := by
  obtain ⟨i, v, hi, hid, hne⟩ := hapart
  exact ⟨i, v, Nat.lt_of_lt_of_le hi h, hid, hne⟩

/-- The members that stay. -/
structure KeepsMembers (left : List Nat → Prop) (st st' : Asn1State) : Prop where
  version : left versionId → st'.cert.version = st.cert.version
  notBefore : left validityId → st'.cert.notBefore = st.cert.notBefore
  notAfter : left validityId → st'.cert.notAfter = st.cert.notAfter
  owner : left ownerId → st'.cert.owner = st.cert.owner
  signKey : left signId → st'.cert.signKey = st.cert.signKey

section
variable {left left' : List Nat → Prop} {st st₁ st₂ st₃ : Asn1State}

theorem KeepsMembers.of_cert (h : st₂.cert = st₁.cert) : KeepsMembers left st₁ st₂ :=
  ⟨fun _ => by rw [h], fun _ => by rw [h], fun _ => by rw [h], fun _ => by rw [h], fun _ => by rw [h]⟩

theorem KeepsMembers.trans (h : KeepsMembers left st₁ st₂) (h' : KeepsMembers left st₂ st₃) :
    KeepsMembers left st₁ st₃ where
  version hleft := (h'.version hleft).trans (h.version hleft)
  notBefore hleft := (h'.notBefore hleft).trans (h.notBefore hleft)
  notAfter hleft := (h'.notAfter hleft).trans (h.notAfter hleft)
  owner hleft := (h'.owner hleft).trans (h.owner hleft)
  signKey hleft := (h'.signKey hleft).trans (h.signKey hleft)

theorem KeepsMembers.mono (hle : ∀ id, left' id → left id) (h : KeepsMembers left st₁ st₂) :
    KeepsMembers left' st₁ st₂ where
  version hleft := h.version (hle _ hleft)
  notBefore hleft := h.notBefore (hle _ hleft)
  notAfter hleft := h.notAfter (hle _ hleft)
  owner hleft := h.owner (hle _ hleft)
  signKey hleft := h.signKey (hle _ hleft)

theorem KeptUnless.eq {α : Type} {reached : Bool} {a b : α} (h : KeptUnless reached a b) (hreached : reached = false) :
    b = a := by
  rcases h with h | h
  · rw [hreached] at h
    cases h
  · exact h

theorem Handles.keeps {level : Nat} (h : Handles st₁ st₂) : KeepsMembers (Apart st₁.fields level) st₁ st₂ where
  version hapart := h.version.eq (isField_apart hapart)
  notBefore hapart := h.notBefore.eq (isField_apart hapart)
  notAfter hapart := h.notAfter.eq (isField_apart hapart)
  owner hapart := h.owner.eq (isField_apart hapart)
  signKey hapart := h.signKey.eq (isField_apart hapart)

theorem Change.fields {level : Nat} (h : Change level st₁ st₂) {i : Nat} (hi : i + 1 < level) :
    st₂.fields i = st₁.fields i := by
  cases h with
  | handle h => rw [h.fields]
  | field hj v => exact if_neg (by omega)
  | finish => rfl

theorem Changes.fields {level : Nat} (h : Changes level st₁ st₂) {i : Nat} (hi : i + 1 < level) :
    st₂.fields i = st₁.fields i := by
  induction h with
  | refl => rfl
  | tail _ hchange ih => exact (hchange.fields hi).trans ih

theorem Change.keeps {level : Nat} (h : Change level st₁ st₂) : KeepsMembers (Apart st₁.fields level) st₁ st₂ := by
  cases h with
  | handle h => exact h.keeps
  | field hj v => exact .of_cert rfl
  | finish hle fingerprint => exact ⟨fun _ => rfl, fun _ => rfl, fun _ => rfl, fun _ => rfl, fun _ => rfl⟩

theorem Changes.keeps {level : Nat} (h : Changes level st₁ st₂) : KeepsMembers (Apart st₁.fields level) st₁ st₂ := by
  induction h with
  | refl => exact .of_cert rfl
  | tail hchanges hchange ih => 
    exact ih.trans (hchange.keeps.mono fun _ => Apart.congr fun _ hi => Changes.fields hchanges hi)

theorem Changes.fingerprint {level : Nat} (hlevel : 2 < level) (h : Changes level st₁ st₂) :
    st₂.cert.fingerprint = st₁.cert.fingerprint := by
  induction h with
  | refl => rfl
  | tail _ hchange ih =>
    rw [← ih]
    cases hchange with
    | handle h => exact h.fingerprint
    | field hj v => rfl
    | finish hle fingerprint => omega

theorem enter_fields {level : Nat} (h : level ≤ 0xFF) (st : Asn1State) (v i : Nat) :
    (st.enter level v).fields i = if i = level - 1 then v else st.fields i := by
  rw [Asn1State.enter, if_pos h]
  rfl

@[simp] theorem enter_cert (st : Asn1State) (level v : Nat) : (st.enter level v).cert = st.cert := by
  unfold Asn1State.enter
  split <;> rfl

/-- The elements behind the first `n` of a call are not under `id`. -/
def Left (fields : Nat → Nat) (level n : Nat) (id : List Nat) : Prop :=
  Apart fields level id ∨ ∃ v, id[level - 1]? = some v ∧ v ≤ n

theorem Turn.keeps {level n : Nat} (hpos : 1 ≤ level) (hlevel : level ≤ 0xFF) (h : Turn level n st₁ st₂) :
    KeepsMembers (Left st₁.fields level n) st₁ st₂ := by
  obtain ⟨v, hv, hchanges⟩ := h
  have henter : KeepsMembers (Left st₁.fields level n) st₁ (st₁.enter level v) := .of_cert (enter_cert _ _ _)
  refine henter.trans (hchanges.keeps.mono fun id hleft => ?_)
  rcases hleft with hapart | ⟨w, hid, hw⟩
  · refine (hapart.congr fun i hi => ?_).mono (Nat.le_succ level)
    rw [enter_fields hlevel, if_neg (by omega)]
  · refine ⟨level - 1, w, by omega, hid, ?_⟩
    rw [enter_fields hlevel, if_pos rfl]
    omega

theorem Turns.keeps {level n : Nat} (hpos : 1 ≤ level) (hlevel : level ≤ 0xFF) (h : Turns level n st₁ st₂) :
    KeepsMembers (Left st₁.fields level n) st₁ st₂ := by
  induction h with
  | refl => exact .of_cert rfl
  | tail hturns hturn ih =>
    refine ih.trans ((hturn.keeps hpos hlevel).mono fun id hleft => ?_)
    exact hleft.imp_left (Apart.congr fun _ hi => (Turns.changes hturns).fields hi)

theorem Turns.fingerprint {level n : Nat} (hlevel : 2 ≤ level) (h : Turns level n st₁ st₂) :
    st₂.cert.fingerprint = st₁.cert.fingerprint := by
  induction h with
  | refl => rfl
  | tail _ hturn ih =>
    obtain ⟨v, -, hchanges⟩ := hturn
    rw [Changes.fingerprint (by omega) hchanges, enter_cert, ih]

end

end CWebServer
