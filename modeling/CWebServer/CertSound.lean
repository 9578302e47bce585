import CWebServer.Certificates
import CWebServer.Lib.Occurrences

/-!
# What the certificate checks accept

The names that match, the times at which a certificate is valid, and the chains
that pass. The callback of the web client returns 0 where `no_error` is
expected, so no chain gets past it.
-/

namespace CWebServer

open Occurrences (OccursAt)
open Scan (scanTo)

/-! ## Strings -/

theorem zero_notMem_cString (bytes : List UInt8) : 0 ∉ cString bytes := by
  intro h
  have := List.mem_takeWhile_imp h
  simp at this

theorem toLower_ne_zero {c : UInt8} (h : c ≠ 0) : (toLower c).toNat ≠ 0 := by
  have hall : ∀ n : Fin 256, UInt8.ofNat n ≠ 0 → (toLower (UInt8.ofNat n)).toNat ≠ 0 := by decide +kernel
  have := hall ⟨c.toNat, c.toNat_lt⟩
  simp only [UInt8.ofNat_toNat] at this
  exact this h

theorem strcasecmp_eq_zero {s t : List UInt8} (hs : 0 ∉ s) (ht : 0 ∉ t) :
    strcasecmp s t = 0 ↔ s.map toLower = t.map toLower := by
  induction s generalizing t with
  | nil =>
    cases t with
    | nil => simp [strcasecmp]
    | cons d t =>
      have := toLower_ne_zero fun h => ht (h ▸ List.mem_cons_self)
      simp [strcasecmp, this]
  | cons c s ih =>
    cases t with
    | nil =>
      have := toLower_ne_zero fun h => hs (h ▸ List.mem_cons_self)
      simp [strcasecmp, this]
    | cons d t =>
      rw [strcasecmp]
      rw [List.mem_cons, not_or] at hs ht
      split
      · rename_i heq
        rw [ih hs.2 ht.2]
        simp [heq]
      · rename_i hne
        have hnat : (toLower c).toNat ≠ (toLower d).toNat := fun h => hne (UInt8.toNat_inj.mp h)
        simp only [List.map_cons, List.cons.injEq, hne, false_and, iff_false]
        omega

theorem strstr_some {haystack needle : List UInt8} {i : Nat} (h : strstr haystack needle = some i) :
    OccursAt needle haystack i ∧ ∀ j, j < i → ¬ OccursAt needle haystack j := by
  obtain ⟨hi, _, hfirst⟩ := List.find?_range_eq_some.mp h
  refine ⟨List.isPrefixOf_iff_prefix.mp hi, fun j hj hoccurs => ?_⟩
  have := hfirst j hj
  rw [List.isPrefixOf_iff_prefix.mpr hoccurs] at this
  cases this

theorem strstr_none {haystack needle : List UInt8} (hneedle : needle ≠ []) (h : strstr haystack needle = none) (i : Nat) :
    ¬ OccursAt needle haystack i := by
  intro hi
  have hle := hi.le hneedle
  rw [strstr, List.find?_eq_none] at h
  exact h i (List.mem_range.mpr (by omega)) (List.isPrefixOf_iff_prefix.mpr hi)

/-! ## Names -/

/-- The subject has one label in front of what follows the asterisk, and what follows does not stand in it before. -/
def LabelMatches (rest subject : List UInt8) : Prop :=
  ∃ label, subject = label ++ rest ∧ chr '.' ∉ label ∧ ∀ i, i < label.length → ¬ OccursAt rest subject i

/-- The subject is the domain itself, in any case, and what follows the asterisk does not stand in it. -/
def DomainMatches (rest subject : List UInt8) : Prop :=
  (∀ i, ¬ OccursAt rest subject i) ∧ ∃ domain, rest = chr '.' :: domain ∧ subject.map toLower = domain.map toLower

/-- What stands in front of the asterisk is not looked at. -/
def WildcardMatches (certSubject subject : List UInt8) : Prop :=
  ∃ front rest, certSubject = front ++ chr '*' :: rest ∧ chr '*' ∉ front ∧ rest ≠ [] ∧
    (LabelMatches rest subject ∨ DomainMatches rest subject)

def NameMatches (certSubject subject : List UInt8) : Prop :=
  certSubject = subject ∨ subject ≠ [] ∧ WildcardMatches certSubject subject

/-- The check behind the asterisk. -/
def wildcardCheck (subject : List UInt8) (w : UInt8) (wildcard : List UInt8) : Int :=
  match strstr subject (w :: wildcard) with
  | none => if w = chr '.' ∧ strcasecmp subject wildcard = 0 then 0 else badCertificate
  | some offset =>
    if offset ≠ 0 ∧ chr '.' ∈ subject.take offset then badCertificate
    else if strcasecmp (subject.drop offset) (w :: wildcard) = 0 then 0 else badCertificate

theorem badCertificate_ne : badCertificate ≠ 0 := by decide

theorem eq_of_prefix_toLower {s t : List UInt8} (h : t <+: s) (hlower : s.map toLower = t.map toLower) : s = t := by
  have hlen := congrArg List.length hlower
  rw [List.length_map, List.length_map] at hlen
  exact (h.eq_of_length hlen.symm).symm

theorem wildcardCheck_iff {subject : List UInt8} {w : UInt8} {wildcard : List UInt8} (hs : 0 ∉ subject)
    (hw : 0 ∉ w :: wildcard) :
    wildcardCheck subject w wildcard = 0 ↔ LabelMatches (w :: wildcard) subject ∨ DomainMatches (w :: wildcard) subject := by
  have hwild : 0 ∉ wildcard := fun h => hw (List.mem_cons_of_mem _ h)
  unfold wildcardCheck
  cases hstr : strstr subject (w :: wildcard) with
  | none =>
    have hnone := strstr_none (List.cons_ne_nil w wildcard) hstr
    have hlabel : ¬ LabelMatches (w :: wildcard) subject := by
      rintro ⟨label, rfl, -⟩
      exact hnone label.length (by simp [OccursAt])
    have hdomain : DomainMatches (w :: wildcard) subject ↔ w = chr '.' ∧ strcasecmp subject wildcard = 0 := by
      rw [strcasecmp_eq_zero hs hwild]
      constructor
      · rintro ⟨-, domain, hrest, hlower⟩
        obtain ⟨rfl, rfl⟩ := List.cons.inj hrest
        exact ⟨rfl, hlower⟩
      · rintro ⟨rfl, hlower⟩
        exact ⟨hnone, wildcard, rfl, hlower⟩
    simp [hlabel, hdomain, badCertificate_ne]
  | some offset =>
    obtain ⟨hoccurs, hfirst⟩ := strstr_some hstr
    have hdomain : ¬ DomainMatches (w :: wildcard) subject := fun h => h.1 offset hoccurs
    have hdrop : 0 ∉ subject.drop offset := fun h => hs (List.mem_of_mem_drop h)
    have hle : offset ≤ subject.length := by
      have := hoccurs.le (List.cons_ne_nil w wildcard)
      omega
    simp only [hdomain, or_false]
    constructor
    · intro h
      split at h
      · exact absurd h badCertificate_ne
      · rename_i hdot
        split at h
        · rename_i hcase
          rw [strcasecmp_eq_zero hdrop hw] at hcase
          have hrest := eq_of_prefix_toLower hoccurs hcase
          refine ⟨subject.take offset, ?_, fun hmem => ?_, fun i hi => hfirst i ?_⟩
          · rw [← hrest, List.take_append_drop]
          · refine hdot ⟨?_, hmem⟩
            rintro rfl
            simp at hmem
          · rw [List.length_take] at hi
            omega
        · exact absurd h badCertificate_ne
    · rintro ⟨label, rfl, hdot, hnone⟩
      have hlabel : OccursAt (w :: wildcard) (label ++ w :: wildcard) label.length := by simp [OccursAt]
      obtain rfl : offset = label.length := by
        rcases Nat.lt_trichotomy offset label.length with hlt | heq | hgt
        · exact absurd hoccurs (hnone offset hlt)
        · exact heq
        · exact absurd hlabel (hfirst _ hgt)
      rw [List.take_left, List.drop_left, if_neg fun h => hdot h.2, if_pos]
      rw [strcasecmp_eq_zero hw hw]

theorem drop_star {front : List UInt8} (h : chr '*' ∉ front) (rest : List UInt8) :
    (front ++ chr '*' :: rest).drop (scanTo (· == chr '*') (front ++ chr '*' :: rest) 0) = chr '*' :: rest := by
  rw [Scan.drop_scanTo, List.drop_zero, List.dropWhile_append_of_pos, List.dropWhile_cons_of_neg]
  · simp
  · intro c hc
    simp only [Bool.not_eq_true', beq_eq_false_iff_ne]
    exact fun heq => h (heq ▸ hc)

theorem drop_no_star {s : List UInt8} (h : chr '*' ∉ s) : s.drop (scanTo (· == chr '*') s 0) = [] := by
  rw [Scan.drop_scanTo, List.drop_zero, List.dropWhile_eq_nil_iff]
  intro c hc
  simp only [Bool.not_eq_true', beq_eq_false_iff_ne]
  exact fun heq => h (heq ▸ hc)

theorem wildcardMatches_iff {front : List UInt8} (h : chr '*' ∉ front) (rest subject : List UInt8) :
    WildcardMatches (front ++ chr '*' :: rest) subject ↔
      rest ≠ [] ∧ (LabelMatches rest subject ∨ DomainMatches rest subject) := by
  constructor
  · rintro ⟨front', rest', heq, hfront, hrest⟩
    have hdrop := drop_star h rest
    rw [heq, drop_star hfront, List.cons.injEq] at hdrop
    exact hdrop.2 ▸ hrest
  · intro hrest
    exact ⟨front, rest, rfl, h, hrest⟩

theorem not_wildcardMatches {s : List UInt8} (h : chr '*' ∉ s) (subject : List UInt8) : ¬ WildcardMatches s subject := by
  rintro ⟨front, rest, rfl, -⟩
  simp at h

theorem validSubjectName_iff (certSubject subject : Option (List UInt8)) :
    tlsCertificateValidSubjectName certSubject subject = 0 ↔
      NameMatches (cString (certSubject.getD [])) (cString (subject.getD [])) := by
  have hcert := zero_notMem_cString (certSubject.getD [])
  have hsubject := zero_notMem_cString (subject.getD [])
  unfold tlsCertificateValidSubjectName
  generalize cString (certSubject.getD []) = s at hcert
  generalize cString (subject.getD []) = t at hsubject
  by_cases heq : s = t
  · subst heq
    by_cases hs : s = [] <;> simp [NameMatches, hs]
  have hname : NameMatches s t ↔ t ≠ [] ∧ WildcardMatches s t := by simp [NameMatches, heq]
  rw [hname]
  by_cases ht : t = []
  · have hs : s ≠ [] := fun h => heq (h.trans ht.symm)
    simp [ht, hs, badCertificate_ne]
  simp only [ht, heq, and_false, if_false, not_false_eq_true, ne_eq, true_and]
  by_cases hstar : chr '*' ∈ s
  · obtain ⟨front, rest, rfl, hfront⟩ := List.eq_append_cons_of_mem hstar
    rw [drop_star hfront, wildcardMatches_iff hfront, if_neg (by simp)]
    cases rest with
    | nil => simp [badCertificate_ne]
    | cons w wildcard =>
      have hrest : 0 ∉ w :: wildcard := fun h => hcert (by simp [h])
      rw [← wildcardCheck_iff hsubject hrest]
      simp only [ne_eq, reduceCtorEq, not_false_eq_true, true_and]
      rfl
  · rw [drop_no_star hstar]
    simp [not_wildcardMatches hstar, badCertificate_ne]

theorem sanLoop_iff (subject : List UInt8) {err : Int} (herr : err ≠ 0) (sans : List (Option (List UInt8))) :
    sanLoop subject err sans = 0 ↔ ∃ san ∈ sans, NameMatches (cString (san.getD [])) (cString subject) := by
  induction sans generalizing err with
  | nil => simp [sanLoop, herr]
  | cons san rest ih =>
    have hsan := validSubjectName_iff san (some subject)
    rw [sanLoop, List.exists_mem_cons_iff]
    by_cases h : tlsCertificateValidSubjectName san (some subject) = 0
    · simp only [h, if_true, true_iff]
      exact Or.inl (hsan.mp h)
    · rw [if_neg h, ih h]
      have hno : ¬ NameMatches (cString (san.getD [])) (cString subject) := fun hm => h (hsan.mpr hm)
      simp [hno]

theorem valid_subject_iff (cert : TlsCertificate) (subject : List UInt8) :
    tlsCertificateValidSubject cert subject = 0 ↔
      ∃ name ∈ cert.subject :: cert.san.getD [], NameMatches (cString (name.getD [])) (cString subject) := by
  have hname := validSubjectName_iff cert.subject (some subject)
  rw [tlsCertificateValidSubject, List.exists_mem_cons_iff]
  by_cases h : tlsCertificateValidSubjectName cert.subject (some subject) = 0
  · simp only [h, ne_eq, not_true_eq_false, if_false, true_iff]
    exact Or.inl (hname.mp h)
  · rw [if_pos h, sanLoop_iff subject h]
    have hno : ¬ NameMatches (cString (cert.subject.getD [])) (cString subject) := fun hm => h (hname.mpr hm)
    simp [hno]

/-! ## Chains -/

section
variable (now : Option UtcTime) (verifySignature : TlsCertificate → TlsCertificate → Bool)

/-- Each certificate is signed by the next, up to the first one without a fingerprint. -/
def Linked : List TlsCertificate → Prop
  | [] => True
  | cert :: rest =>
    (cert :: rest.takeWhile (·.fingerprint.isSome)).IsChain fun c d => verifySignature c d = true

theorem chainLoop_iff (cert : TlsCertificate) {rest : List TlsCertificate}
    (hvalid : ∀ c ∈ rest, tlsCertificateIsValid now c = 0) :
    chainLoop now verifySignature cert rest = 0 ↔ Linked verifySignature (cert :: rest) := by
  induction rest generalizing cert with
  | nil => simp [chainLoop, Linked]
  | cons next rest ih =>
    rw [List.forall_mem_cons] at hvalid
    rw [chainLoop, if_neg (not_not_intro hvalid.1), Linked]
    cases hf : next.fingerprint with
    | none => simp [hf]
    | some fingerprint =>
      have ih := ih next hvalid.2
      rw [Linked] at ih
      rw [if_neg (by simp), List.takeWhile_cons_of_pos (by simp [hf]), List.isChain_cons_cons]
      by_cases hsig : verifySignature cert next = true
      · simp [hsig, ih]
      · simp [hsig, badCertificate_ne]

theorem datesLoop_iff (chain : List TlsCertificate) :
    datesLoop now chain = 0 ↔ ∀ cert ∈ chain, tlsCertificateIsValid now cert = 0 := by
  induction chain with
  | nil => simp [datesLoop]
  | cons cert rest ih =>
    rw [datesLoop, List.forall_mem_cons, ← ih]
    by_cases h : tlsCertificateIsValid now cert = 0 <;> simp [h]

theorem chainIsValid_iff {chain : List TlsCertificate} (hvalid : ∀ cert ∈ chain, tlsCertificateIsValid now cert = 0) :
    tlsCertificateChainIsValid now verifySignature chain = 0 ↔ chain ≠ [] ∧ Linked verifySignature chain := by
  cases chain with
  | nil => simp [tlsCertificateChainIsValid, badCertificate_ne]
  | cons cert rest =>
    rw [List.forall_mem_cons] at hvalid
    rw [tlsCertificateChainIsValid, if_neg (not_not_intro hvalid.1), chainLoop_iff now verifySignature cert hvalid.2]
    simp

/-- The chain passes: it is dated and linked, and its first certificate has the name. -/
structure Trusted (sni : Option (List UInt8)) (chain : List TlsCertificate) : Prop where
  nonempty : chain ≠ []
  dated : ∀ cert ∈ chain, tlsCertificateIsValid now cert = 0
  linked : Linked verifySignature chain
  named : ∀ name ∈ sni, ∀ cert ∈ chain.head?, tlsCertificateValidSubject cert name = 0

theorem checkChain_iff (sni : Option (List UInt8)) (chain : List TlsCertificate) :
    checkChain now verifySignature sni chain = 0 ↔ Trusted now verifySignature sni chain := by
  unfold checkChain
  dsimp only
  by_cases hdates : datesLoop now chain = 0
  · have hvalid := (datesLoop_iff now chain).mp hdates
    have hchain := chainIsValid_iff now verifySignature hvalid
    rw [if_neg (not_not_intro hdates)]
    by_cases h : tlsCertificateChainIsValid now verifySignature chain = 0
    · obtain ⟨hne, hlinked⟩ := hchain.mp h
      obtain ⟨cert, rest, rfl⟩ := List.exists_cons_of_ne_nil hne
      rw [if_neg (not_not_intro h)]
      have htrusted : Trusted now verifySignature sni (cert :: rest) ↔
          ∀ name ∈ sni, tlsCertificateValidSubject cert name = 0 := by
        constructor
        · intro ht name hname
          exact ht.named name hname cert rfl
        · intro hnames
          refine ⟨hne, hvalid, hlinked, fun name hname c hc => ?_⟩
          obtain rfl := Option.some.inj hc
          exact hnames name hname
      rw [htrusted]
      cases sni with
      | none => simp
      | some name => simp
    · rw [if_pos h]
      exact iff_of_false h fun ht => h (hchain.mpr ⟨ht.nonempty, ht.linked⟩)
  · rw [if_pos hdates]
    exact iff_of_false hdates fun ht => hdates ((datesLoop_iff now chain).mpr ht.dated)

theorem chainIsValidRoot_iff (roots chain : List TlsCertificate) :
    tlsCertificateChainIsValidRoot now verifySignature roots chain = 0 ↔
      ∃ cert ∈ chain, ∃ root ∈ roots, tlsCertificateIsValid now root = 0 ∧ verifySignature cert root = true := by
  simp [tlsCertificateChainIsValidRoot, badCertificate_ne]

/-! ## What is returned -/

/-- The errors that the checks return. -/
def certErrors : List Int := [0, badCertificate, certificateExpired, certificateUnknown]

theorem noError_notMem : noError ∉ certErrors := by decide

theorem isValid_mem (cert : TlsCertificate) : tlsCertificateIsValid now cert ∈ certErrors := by
  unfold tlsCertificateIsValid
  repeat' split
  all_goals simp [certErrors]

theorem datesLoop_mem (chain : List TlsCertificate) : datesLoop now chain ∈ certErrors := by
  induction chain with
  | nil => simp [datesLoop, certErrors]
  | cons cert rest ih =>
    rw [datesLoop]
    split
    · exact isValid_mem now cert
    · exact ih

theorem chainLoop_mem (cert : TlsCertificate) (rest : List TlsCertificate) :
    chainLoop now verifySignature cert rest ∈ certErrors := by
  induction rest generalizing cert with
  | nil => simp [chainLoop, certErrors]
  | cons next rest ih =>
    rw [chainLoop]
    repeat' split
    · simp [certErrors]
    · simp [certErrors]
    · simp [certErrors]
    · exact ih next

theorem validSubjectName_mem (certSubject subject : Option (List UInt8)) :
    tlsCertificateValidSubjectName certSubject subject ∈ certErrors := by
  unfold tlsCertificateValidSubjectName
  dsimp only
  repeat' split
  all_goals simp [certErrors]

theorem sanLoop_mem (subject : List UInt8) {err : Int} (herr : err ∈ certErrors) (sans : List (Option (List UInt8))) :
    sanLoop subject err sans ∈ certErrors := by
  induction sans generalizing err with
  | nil => exact herr
  | cons san rest ih =>
    rw [sanLoop]
    split
    · exact validSubjectName_mem san _
    · exact ih (validSubjectName_mem san _)

theorem checkChain_mem (sni : Option (List UInt8)) (chain : List TlsCertificate) :
    checkChain now verifySignature sni chain ∈ certErrors := by
  unfold checkChain
  dsimp only
  split
  · exact datesLoop_mem now chain
  · split
    · unfold tlsCertificateChainIsValid
      split
      · simp [certErrors]
      · split
        · simp [certErrors]
        · exact chainLoop_mem now verifySignature _ _
    · split
      · rw [tlsCertificateValidSubject]
        split
        · exact sanLoop_mem _ (validSubjectName_mem _ _) _
        · exact validSubjectName_mem _ _
      · simp [certErrors]

/-- The two callbacks check the same. Only `tls_default_verify` looks for a root, and only it ends with `no_error`. -/
theorem certificate_chain_iff (isServer : Bool) (sni : Option (List UInt8)) (roots chain : List TlsCertificate) :
    (validateCertificate now verifySignature sni chain = 0 ↔ Trusted now verifySignature sni chain) ∧
      (tlsDefaultVerify now verifySignature isServer sni roots chain = noError ↔
        Trusted now verifySignature (if isServer then none else sni) chain ∧
          ∃ cert ∈ chain, ∃ root ∈ roots, tlsCertificateIsValid now root = 0 ∧ verifySignature cert root = true) := by
  refine ⟨checkChain_iff now verifySignature sni chain, ?_⟩
  rw [← chainIsValidRoot_iff, ← checkChain_iff, tlsDefaultVerify]
  have hmem := checkChain_mem now verifySignature (if isServer then none else sni) chain
  by_cases h : checkChain now verifySignature (if isServer then none else sni) chain = 0
  · by_cases hroot : tlsCertificateChainIsValidRoot now verifySignature roots chain = 0
    · simp [h, hroot]
    · have hbad : tlsCertificateChainIsValidRoot now verifySignature roots chain = badCertificate := by
        unfold tlsCertificateChainIsValidRoot at hroot ⊢
        split
        · rename_i hany
          exact absurd (if_pos hany) hroot
        · rfl
      have hne : badCertificate ≠ noError := by decide
      simp [h, hbad, badCertificate_ne, hne]
  · rw [if_pos h]
    exact iff_of_false (fun heq => noError_notMem (heq ▸ hmem)) fun hand => h hand.1

/-- The web client ends with 0, which is no `no_error`. -/
theorem client_accepts_nothing (sni : Option (List UInt8)) (chain : List TlsCertificate) :
    certificateVerifyAlert (some (validateCertificate now verifySignature sni)) chain = noError ↔ chain = [] := by
  have hmem := checkChain_mem now verifySignature sni chain
  rw [certificateVerifyAlert]
  split
  · rename_i hne
    exact iff_of_false (fun heq => noError_notMem (heq ▸ hmem)) hne
  · rename_i hnil
    simpa using hnil

end

end CWebServer
