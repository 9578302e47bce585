import CWebServer.Certificates
import CWebServer.Lib.MixedRadix

/-!
# The dates of a certificate

Dates are compared as text. The copy of a date keeps as many bytes as it had
before its century was put in front of it, so the last digit of the seconds and
the `Z` are gone: a certificate runs out up to ten seconds early.
-/

namespace CWebServer

/-! ## Digits -/

theorem digit_cases : ∀ d < 10, toLower (digit d) = digit d ∧ (digit d).toNat = 48 + d ∧ digit d ≠ 0 := by decide

theorem digit_ne_nine : ∀ d < 9, digit d ≠ chr '9' := by decide

theorem padded_one {n : Nat} (h : n < 10) : padded 1 n = [digit n] := by
  rw [padded, decimal_of_lt h]
  rfl

theorem padded_succ {w : Nat} (hw : 0 < w) (n : Nat) : padded (w + 1) n = padded w (n / 10) ++ [digit (n % 10)] := by
  by_cases h : n < 10
  · have hq : n / 10 = 0 := Nat.div_eq_of_lt h
    obtain ⟨k, rfl⟩ := Nat.exists_eq_add_of_lt hw
    rw [padded, padded, decimal_of_lt h, hq, decimal_zero, Nat.mod_eq_of_lt h]
    simp [s8, List.replicate_succ']
  · rw [padded, padded, decimal_of_ge (Nat.le_of_not_lt h), List.length_append, List.length_singleton,
      Nat.add_sub_add_right, List.append_assoc]

theorem padded_two {n : Nat} (h : n < 100) : padded 2 n = [digit (n / 10), digit (n % 10)] := by
  rw [padded_succ Nat.one_pos, padded_one (Nat.div_lt_of_lt_mul h), List.singleton_append]

theorem padded_four {n : Nat} (h : n < 10000) :
    padded 4 n = [digit (n / 1000), digit (n / 100 % 10), digit (n / 10 % 10), digit (n % 10)] := by
  rw [padded_succ (by decide), padded_succ (by decide), padded_two (by omega)]
  simp [Nat.div_div_eq_div_mul]

/-! ## The order of the texts -/

theorem strcasecmp_ne_zero {ds es : List Nat} (hlen : ds.length = es.length) (hds : ∀ d ∈ ds, d < 10)
    (hes : ∀ e ∈ es, e < 10) {c : UInt8} (hc : (toLower c).toNat ≠ 0) (rest : List UInt8) :
    strcasecmp (ds.map digit) (es.map digit ++ c :: rest) ≠ 0 ∧
      (0 < strcasecmp (ds.map digit) (es.map digit ++ c :: rest) ↔ es < ds) := by
  induction ds generalizing es with
  | nil =>
    obtain rfl : es = [] := List.length_eq_zero_iff.mp hlen.symm
    simp only [List.map_nil, List.nil_append, strcasecmp, List.lt_irrefl, iff_false]
    omega
  | cons d ds ih =>
    cases es with
    | nil => cases hlen
    | cons e es =>
      rw [List.forall_mem_cons] at hds hes
      obtain ⟨hd, hdval, -⟩ := digit_cases d hds.1
      obtain ⟨he, heval, -⟩ := digit_cases e hes.1
      rw [List.map_cons, List.map_cons, List.cons_append, strcasecmp, hd, he, List.cons_lt_cons_iff]
      by_cases heq : d = e
      · rw [if_pos (congrArg digit heq)]
        have := ih (Nat.succ.inj hlen) hds.2 hes.2
        simpa [heq] using this
      · have hne : digit d ≠ digit e := fun h => heq (by rw [← UInt8.toNat_inj] at h; omega)
        rw [if_neg hne, hdval, heval]
        omega

/-! ## Times -/

/-- Two digits for each field, and four for the year. -/
def UtcTime.Fits (t : UtcTime) : Prop :=
  t.year < 10000 ∧ t.month < 100 ∧ t.day < 100 ∧ t.hour < 100 ∧ t.minute < 100 ∧ t.second < 100

instance (t : UtcTime) : Decidable t.Fits := inferInstanceAs (Decidable (_ ∧ _))

/-- Without the last digit of the seconds. -/
def UtcTime.digits (t : UtcTime) : List Nat :=
  [t.year / 1000, t.year / 100 % 10, t.year / 10 % 10, t.year % 10, t.month / 10, t.month % 10, t.day / 10, t.day % 10,
    t.hour / 10, t.hour % 10, t.minute / 10, t.minute % 10, t.second / 10]

/-- The time in tens of seconds. It orders times as they follow each other, and counts too many days. -/
def UtcTime.stamp (t : UtcTime) : Nat :=
  ((((t.year * 100 + t.month) * 100 + t.day) * 100 + t.hour) * 100 + t.minute) * 10 + t.second / 10

/-- The time as it stands in a certificate. -/
def UtcTime.text (t : UtcTime) : List UInt8 :=
  padded 2 (t.year % 100) ++ padded 2 t.month ++ padded 2 t.day ++ padded 2 t.hour ++ padded 2 t.minute ++
    padded 2 t.second ++ s8 "Z"

section
variable {t u : UtcTime}

theorem UtcTime.digits_lt (h : t.Fits) : ∀ d ∈ t.digits, d < 10 := by
  obtain ⟨hy, hmo, hd, hh, hmi, hs⟩ := h
  simp only [digits, List.forall_mem_cons, List.not_mem_nil, false_imp_iff, implies_true, and_true]
  omega

theorem UtcTime.value_digits (t : UtcTime) : MixedRadix.value (List.replicate 13 10) 0 t.digits = t.stamp := by
  simp only [digits, stamp, List.replicate, MixedRadix.value]
  omega

theorem UtcTime.digits_radices (h : t.Fits) : MixedRadix.Digits t.digits (List.replicate 13 10) := by
  have := digits_lt h
  simp only [digits, List.forall_mem_cons, List.not_mem_nil, false_imp_iff, implies_true, and_true] at this
  simpa [MixedRadix.Digits, digits, List.replicate] using this

theorem UtcTime.digits_lt_iff (ht : t.Fits) (hu : u.Fits) : t.digits < u.digits ↔ t.stamp < u.stamp := by
  have := MixedRadix.value_lt_iff (digits_radices ht) (digits_radices hu) 0 0
  rw [value_digits, value_digits] at this
  simpa using this.symm

theorem currentTime_eq (h : t.Fits) :
    currentTime t = t.digits.map digit ++ digit (t.second % 10) :: s8 "Z" := by
  obtain ⟨hy, hmo, hd, hh, hmi, hs⟩ := h
  rw [currentTime, padded_four hy, padded_two hmo, padded_two hd, padded_two hh, padded_two hmi, padded_two hs]
  simp [UtcTime.digits, s8]

theorem setCopyDate_text (h : t.Fits) (hlo : 1990 ≤ t.year) (hhi : t.year < 2090) :
    tlsCertificateSetCopyDate t.text = some (t.digits.map digit) := by
  obtain ⟨-, hmo, hd, hh, hmi, hs⟩ := h
  rw [UtcTime.text, padded_two (Nat.mod_lt _ (by decide)), padded_two hmo, padded_two hd, padded_two hh, padded_two hmi,
    padded_two hs]
  have hyear : t.year % 100 / 10 = t.year / 10 % 10 := by omega
  have hcentury : (if digit (t.year / 10 % 10) = chr '9' then s8 "19" else s8 "20") =
      [digit (t.year / 1000), digit (t.year / 100 % 10)] := by
    by_cases h : t.year < 2000
    · rw [(by omega : t.year / 10 % 10 = 9), (by omega : t.year / 1000 = 1), (by omega : t.year / 100 % 10 = 9)]
      rfl
    · have hne : digit (t.year / 10 % 10) ≠ chr '9' := digit_ne_nine _ (by omega)
      rw [if_neg hne, (by omega : t.year / 1000 = 2), (by omega : t.year / 100 % 10 = 0)]
      rfl
  simp only [tlsCertificateSetCopyDate, List.cons_append, List.headD_cons, hyear, hcentury]
  simp [UtcTime.digits, s8, (by omega : t.year % 100 % 10 = t.year % 10)]

/-- The dates of a certificate, as they are read from it. -/
def TlsCertificate.dated (cert : TlsCertificate) (notBefore notAfter : UtcTime) : TlsCertificate :=
  { cert with
    notBefore := tlsCertificateSetCopyDate notBefore.text, notAfter := tlsCertificateSetCopyDate notAfter.text }

theorem strcasecmp_currentTime {date now : UtcTime} (hdate : date.Fits) (hnow : now.Fits) :
    strcasecmp (cString (date.digits.map digit)) (currentTime now) ≠ 0 ∧
      (0 < strcasecmp (cString (date.digits.map digit)) (currentTime now) ↔ now.stamp < date.stamp) := by
  have hzero : cString (date.digits.map digit) = date.digits.map digit := by
    rw [cString, List.takeWhile_eq_self_iff]
    intro c hc
    obtain ⟨d, hd, rfl⟩ := List.mem_map.mp hc
    simpa using (digit_cases d (UtcTime.digits_lt hdate d hd)).2.2
  obtain ⟨hlower, hval, -⟩ := digit_cases (now.second % 10) (Nat.mod_lt _ (by decide))
  have hlen : date.digits.length = now.digits.length := rfl
  rw [hzero, currentTime_eq hnow, ← UtcTime.digits_lt_iff hnow hdate]
  exact strcasecmp_ne_zero hlen (UtcTime.digits_lt hdate) (UtcTime.digits_lt hnow) (by rw [hlower, hval]; omega) _

end

theorem certificate_dates_iff (cert : TlsCertificate) {notBefore notAfter now : UtcTime} (hnow : now.Fits)
    (hbefore : notBefore.Fits ∧ 1990 ≤ notBefore.year ∧ notBefore.year < 2090)
    (hafter : notAfter.Fits ∧ 1990 ≤ notAfter.year ∧ notAfter.year < 2090) :
    tlsCertificateIsValid (some now) (cert.dated notBefore notAfter) = 0 ↔
      notBefore.stamp ≤ now.stamp ∧ now.stamp < notAfter.stamp := by
  obtain ⟨-, hstart⟩ := strcasecmp_currentTime hbefore.1 hnow
  obtain ⟨hne, hend⟩ := strcasecmp_currentTime hafter.1 hnow
  have hexpired : certificateExpired ≠ 0 := by decide
  rw [tlsCertificateIsValid, TlsCertificate.dated, setCopyDate_text hbefore.1 hbefore.2.1 hbefore.2.2,
    setCopyDate_text hafter.1 hafter.2.1 hafter.2.2]
  simp only [hstart]
  split
  · rename_i hlt
    simp only [hexpired, false_iff]
    omega
  · split
    · simp only [hexpired, false_iff]
      omega
    · simp only [true_iff]
      omega

/-- The last ten seconds of the certificate are already behind its end. -/
theorem certificate_dates_iff_early :
    tlsCertificateIsValid (some ⟨2026, 5, 1, 12, 0, 50⟩)
        (TlsCertificate.dated ⟨2, 0, [], [], none, none, none, none, none⟩ ⟨2025, 5, 1, 12, 1, 0⟩
          ⟨2026, 5, 1, 12, 0, 59⟩) = 0 ↔
      UtcTime.stamp ⟨2025, 5, 1, 12, 1, 0⟩ ≤ UtcTime.stamp ⟨2026, 5, 1, 12, 0, 50⟩ ∧
        UtcTime.stamp ⟨2026, 5, 1, 12, 0, 50⟩ < UtcTime.stamp ⟨2026, 5, 1, 12, 0, 59⟩ :=
  certificate_dates_iff _ (by decide) (by decide) (by decide)

end CWebServer
