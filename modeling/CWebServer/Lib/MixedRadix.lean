import Mathlib.Data.List.Forall2
import Mathlib.Order.Basic

/-!
# Mixed radices

`value rs v ds` appends the digits `ds` behind `v`, the next one in the radix
that heads `rs`. `decode` takes them off again, and the values are ordered as
the digits are.
-/

namespace MixedRadix

def value : List Nat → Nat → List Nat → Nat
  | r :: rs, v, d :: ds => value rs (v * r + d) ds
  | _, v, _ => v

/-- The products and the sums on the way to `value`. -/
def steps : List Nat → Nat → List Nat → List Nat
  | r :: rs, v, d :: ds => v * r :: (v * r + d) :: steps rs (v * r + d) ds
  | _, _, _ => []

def decode : List Nat → Nat → List Nat × Nat
  | [], n => ([], n)
  | r :: rs, n => ((decode rs n).2 % r :: (decode rs n).1, (decode rs n).2 / r)

/-- One digit for each radix, below it. -/
def Digits (ds rs : List Nat) : Prop := List.Forall₂ (· < ·) ds rs

theorem decode_value {ds rs : List Nat} (h : Digits ds rs) (v : Nat) : decode rs (value rs v ds) = (ds, v) := by
  induction h generalizing v with
  | nil => rfl
  | @cons d r ds rs hd _ ih =>
    have hr : 0 < r := Nat.lt_of_le_of_lt (Nat.zero_le d) hd
    have hmod : (v * r + d) % r = d := by rw [Nat.mul_comm, Nat.mul_add_mod, Nat.mod_eq_of_lt hd]
    have hdiv : (v * r + d) / r = v := by
      rw [Nat.mul_comm, Nat.mul_add_div hr, Nat.div_eq_of_lt hd, Nat.add_zero]
    simp only [value, decode, ih, hmod, hdiv]

theorem digits_decode {rs : List Nat} (hr : ∀ r ∈ rs, 0 < r) (n : Nat) : Digits (decode rs n).1 rs := by
  induction rs with
  | nil => exact List.Forall₂.nil
  | cons r rs ih =>
    apply List.Forall₂.cons
    · exact Nat.mod_lt _ (hr r List.mem_cons_self)
    · exact ih fun s hs => hr s (List.mem_cons_of_mem _ hs)

/-- A digit below its radix carries nothing into the place before it. -/
theorem place_lt_iff {r d e : Nat} (hd : d < r) (he : e < r) (v w : Nat) :
    v * r + d < w * r + e ↔ v < w ∨ v = w ∧ d < e := by
  rcases Nat.lt_trichotomy v w with hlt | rfl | hgt
  · have hmul : (v + 1) * r ≤ w * r := Nat.mul_le_mul_right r hlt
    rw [Nat.add_mul, Nat.one_mul] at hmul
    exact iff_of_true (by omega) (Or.inl hlt)
  · simp
  · have hmul : (w + 1) * r ≤ v * r := Nat.mul_le_mul_right r hgt
    rw [Nat.add_mul, Nat.one_mul] at hmul
    apply iff_of_false
    · omega
    · rintro (h | ⟨h, -⟩) <;> omega

theorem place_inj {r d e : Nat} (hd : d < r) (he : e < r) {v w : Nat} : v * r + d = w * r + e ↔ v = w ∧ d = e := by
  have h₁ := place_lt_iff hd he v w
  have h₂ := place_lt_iff he hd w v
  omega

theorem value_lt_iff {ds es rs : List Nat} (hds : Digits ds rs) (hes : Digits es rs) (v w : Nat) :
    value rs v ds < value rs w es ↔ v < w ∨ v = w ∧ ds < es := by
  induction hds generalizing es v w with
  | nil => cases hes; simp [value]
  | cons hd _ ih =>
    cases hes with
    | cons he hes =>
      rw [value, value, ih hes, place_lt_iff hd he, place_inj hd he, List.cons_lt_cons_iff]
      simp only [or_assoc, and_or_left, and_assoc]

theorem le_value {rs : List Nat} (hr : ∀ r ∈ rs, 0 < r) (v : Nat) (ds : List Nat) : v ≤ value rs v ds := by
  induction rs generalizing v ds with
  | nil => exact Nat.le_refl v
  | cons r rs ih =>
    cases ds with
    | nil => exact Nat.le_refl v
    | cons d ds =>
      have hv : v * 1 ≤ v * r := Nat.mul_le_mul_left v (hr r List.mem_cons_self)
      have := ih (fun s hs => hr s (List.mem_cons_of_mem _ hs)) (v * r + d) ds
      rw [value]
      omega

theorem getLast?_steps (rs : List Nat) (v : Nat) (ds : List Nat) :
    (v :: steps rs v ds).getLast? = some (value rs v ds) := by
  induction rs generalizing v ds with
  | nil => rfl
  | cons r rs ih =>
    cases ds with
    | nil => rfl
    | cons d ds => rw [steps, value, List.getLast?_cons_cons, List.getLast?_cons_cons, ih]

theorem steps_le_value {rs : List Nat} (hr : ∀ r ∈ rs, 0 < r) {v : Nat} {ds : List Nat} :
    ∀ n ∈ steps rs v ds, n ≤ value rs v ds := by
  induction rs generalizing v ds with
  | nil => intro n hn; simp [steps] at hn
  | cons r rs ih =>
    cases ds with
    | nil => intro n hn; simp [steps] at hn
    | cons d ds =>
      have hrs : ∀ s ∈ rs, 0 < s := fun s hs => hr s (List.mem_cons_of_mem _ hs)
      have hle := le_value hrs (v * r + d) ds
      intro n hn
      simp only [steps, List.mem_cons] at hn
      rw [value]
      rcases hn with rfl | rfl | hn
      · omega
      · exact hle
      · exact ih hrs n hn

end MixedRadix
