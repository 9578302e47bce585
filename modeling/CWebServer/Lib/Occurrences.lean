import Mathlib.Data.List.Basic
import Mathlib.Data.List.Infix

/-!
# Occurrences of a list in a list

Where `f` stands in `s`, how often, and what replaces it from left to right.
The matches of a replacement do not overlap, so they are as many as the
occurrences exactly if no two of these overlap.
-/

namespace Occurrences

section
variable {α : Type*}

def OccursAt (f s : List α) (i : Nat) : Prop := f <+: s.drop i

instance [DecidableEq α] (f s : List α) (i : Nat) : Decidable (OccursAt f s i) :=
  inferInstanceAs (Decidable (f <+: s.drop i))

/-- `i` is the first occurrence from `offset` on, or the length of `s` if there is none. -/
def FirstFrom (f s : List α) (offset i : Nat) : Prop :=
  (OccursAt f s i ∧ offset ≤ i ∧ ∀ j, offset ≤ j → j < i → ¬ OccursAt f s j) ∨
    (i = s.length ∧ ∀ j, offset ≤ j → ¬ OccursAt f s j)

/-- `i` is the last occurrence from `offset` on, or the length of `s` if there is none. -/
def LastFrom (f s : List α) (offset i : Nat) : Prop :=
  (OccursAt f s i ∧ offset ≤ i ∧ ∀ j, i < j → ¬ OccursAt f s j) ∨
    (i = s.length ∧ ∀ j, offset ≤ j → ¬ OccursAt f s j)

def Overlap (f s : List α) : Prop := ∃ i j, OccursAt f s i ∧ OccursAt f s j ∧ i < j ∧ j < i + f.length

variable {f r s : List α} {i j k : Nat}

theorem OccursAt.le (hf : f ≠ []) (h : OccursAt f s i) : i + f.length ≤ s.length := by
  have hlen := h.length_le
  have hpos := List.length_pos_of_ne_nil hf
  rw [List.length_drop] at hlen
  omega

theorem infix_iff : f <:+: s ↔ ∃ i, OccursAt f s i := by
  constructor
  · rintro ⟨front, rest, rfl⟩
    refine ⟨front.length, rest, ?_⟩
    rw [List.append_assoc, List.drop_left]
  · rintro ⟨i, hi⟩
    exact hi.isInfix.trans (List.drop_suffix i s).isInfix

theorem occursAt_iff_take : OccursAt f s i ↔ (s.drop i).take f.length = f :=
  List.prefix_iff_eq_take.trans eq_comm

theorem occursAt_drop : OccursAt f (s.drop k) i ↔ OccursAt f s (k + i) := by
  unfold OccursAt
  rw [List.drop_drop]

theorem not_occursAt_nil (hf : f ≠ []) : ¬ OccursAt f [] i := by
  intro h
  have hle := h.le hf
  have hpos := List.length_pos_of_ne_nil hf
  rw [List.length_nil] at hle
  omega

/-! ## Overlaps -/

theorem overlap_match (h : f <+: s) :
    Overlap f s ↔ (∃ j, 0 < j ∧ j < f.length ∧ OccursAt f s j) ∨ Overlap f (s.drop f.length) := by
  constructor
  · rintro ⟨i, j, hi, hj, hlt, hover⟩
    by_cases hin : ∃ j, 0 < j ∧ j < f.length ∧ OccursAt f s j
    · exact Or.inl hin
    · have hout : ∀ m, OccursAt f s m → m = 0 ∨ f.length ≤ m := by
        intro m hm
        by_contra hnot
        exact hin ⟨m, by omega, by omega, hm⟩
      have hi' := hout i hi
      have hj' := hout j hj
      refine Or.inr ⟨i - f.length, j - f.length, ?_, ?_, by omega, by omega⟩
      · rw [occursAt_drop, show f.length + (i - f.length) = i by omega]
        exact hi
      · rw [occursAt_drop, show f.length + (j - f.length) = j by omega]
        exact hj
  · rintro (⟨j, hpos, hlt, hj⟩ | ⟨i, j, hi, hj, hlt, hover⟩)
    · exact ⟨0, j, h, hj, hpos, by omega⟩
    · exact ⟨f.length + i, f.length + j, occursAt_drop.mp hi, occursAt_drop.mp hj, by omega, by omega⟩

theorem overlap_skip {a : α} (h : ¬ f <+: a :: s) : Overlap f (a :: s) ↔ Overlap f s := by
  constructor
  · rintro ⟨i, j, hi, hj, hlt, hover⟩
    cases i with
    | zero => exact absurd hi h
    | succ i =>
      obtain ⟨j, rfl⟩ : ∃ m, j = m + 1 := ⟨j - 1, by omega⟩
      exact ⟨i, j, hi, hj, by omega, by omega⟩
  · rintro ⟨i, j, hi, hj, hlt, hover⟩
    exact ⟨i + 1, j + 1, hi, hj, by omega, by omega⟩

theorem not_overlap_nil (hf : f ≠ []) : ¬ Overlap f [] := by
  rintro ⟨i, j, hi, -⟩
  exact not_occursAt_nil hf hi

/-! ## Counting -/

section
variable [DecidableEq α]

def count (f s : List α) : Nat := (List.range s.length).countP fun i => OccursAt f s i

theorem count_drop (f : List α) (hk : k ≤ s.length) :
    count f s = (List.range k).countP (fun i => OccursAt f s i) + count f (s.drop k) := by
  have hlen : s.length = k + (s.length - k) := by omega
  unfold count
  rw [List.length_drop, hlen, List.range_add, List.countP_append, List.countP_map, Nat.add_sub_cancel_left]
  congr 1
  apply List.countP_congr
  intro i _
  simp only [Function.comp_apply, decide_eq_true_eq, occursAt_drop]

theorem count_eq_zero_iff (hf : f ≠ []) : count f s = 0 ↔ ∀ i, ¬ OccursAt f s i := by
  unfold count
  rw [List.countP_eq_zero]
  constructor
  · intro h i hi
    have hle := hi.le hf
    have hpos := List.length_pos_of_ne_nil hf
    exact absurd (decide_eq_true hi) (h i (List.mem_range.mpr (by omega)))
  · intro h i _
    simpa using h i

/-! ## Replacing -/

/-- Each match is replaced by `r`, and the search goes on behind it. -/
def replace (f r : List α) : List α → List α
  | [] => []
  | a :: s =>
    if 0 < f.length ∧ f <+: a :: s then r ++ replace f r ((a :: s).drop f.length) else a :: replace f r s
termination_by s => s.length
decreasing_by
  · simp only [List.length_drop, List.length_cons]
    omega
  · simp

/-- The number of matches that `replace` replaces. -/
def replaced (f : List α) : List α → Nat
  | [] => 0
  | a :: s => if 0 < f.length ∧ f <+: a :: s then replaced f ((a :: s).drop f.length) + 1 else replaced f s
termination_by s => s.length
decreasing_by
  · simp only [List.length_drop, List.length_cons]
    omega
  · simp

theorem replace_match (hf : f ≠ []) (h : f <+: s) : replace f r s = r ++ replace f r (s.drop f.length) := by
  have hpos := List.length_pos_of_ne_nil hf
  cases s with
  | nil => exact absurd (List.prefix_nil.mp h) hf
  | cons a s => rw [replace, if_pos ⟨hpos, h⟩]

theorem replace_skip {a : α} (h : ¬ f <+: a :: s) : replace f r (a :: s) = a :: replace f r s := by
  rw [replace, if_neg fun hand => h hand.2]

theorem replaced_match (hf : f ≠ []) (h : f <+: s) : replaced f s = replaced f (s.drop f.length) + 1 := by
  have hpos := List.length_pos_of_ne_nil hf
  cases s with
  | nil => exact absurd (List.prefix_nil.mp h) hf
  | cons a s => rw [replaced, if_pos ⟨hpos, h⟩]

theorem replaced_skip {a : α} (h : ¬ f <+: a :: s) : replaced f (a :: s) = replaced f s := by
  rw [replaced, if_neg fun hand => h hand.2]

/-- From left to right, each match taken at once. -/
theorem match_induction (hf : f ≠ []) {motive : List α → Prop} (nil : motive [])
    (hit : ∀ s, f <+: s → motive (s.drop f.length) → motive s)
    (skip : ∀ a s, ¬ f <+: a :: s → motive s → motive (a :: s)) (s : List α) : motive s := by
  have hpos := List.length_pos_of_ne_nil hf
  induction hn : s.length using Nat.strong_induction_on generalizing s with
  | _ n ih =>
    cases s with
    | nil => exact nil
    | cons a s =>
      rw [List.length_cons] at hn
      by_cases h : f <+: a :: s
      · apply hit _ h
        apply ih _ _ _ rfl
        rw [List.length_drop, List.length_cons]
        omega
      · exact skip a s h (ih s.length (by omega) s rfl)

theorem length_replace (hf : f ≠ []) (r s : List α) :
    (replace f r s).length + replaced f s * f.length = s.length + replaced f s * r.length := by
  induction s using match_induction hf with
  | nil => simp [replace, replaced]
  | hit s h ih =>
    have hle := h.length_le
    rw [List.length_drop] at ih
    rw [replace_match hf h, replaced_match hf h, List.length_append, Nat.add_mul, Nat.add_mul]
    omega
  | skip a s h ih =>
    rw [replace_skip h, replaced_skip h, List.length_cons, List.length_cons]
    omega

theorem replaced_mul_le (hf : f ≠ []) (s : List α) : replaced f s * f.length ≤ s.length := by
  have h := length_replace hf [] s
  rw [List.length_nil, Nat.mul_zero, Nat.add_zero] at h
  omega

theorem replace_self (hf : f ≠ []) (s : List α) : replace f f s = s := by
  induction s using match_induction hf with
  | nil => rw [replace]
  | hit s h ih => rw [replace_match hf h, ih, List.prefix_iff_eq_append.mp h]
  | skip a s h ih => rw [replace_skip h, ih]

/-! ## Matches and occurrences -/

theorem countP_range_zero {p : Nat → Bool} (hp : p 0 = true) {n : Nat} (hn : 0 < n) :
    (List.range n).countP p = (List.range (n - 1)).countP (fun i => p (i + 1)) + 1 := by
  obtain ⟨m, rfl⟩ : ∃ m, n = m + 1 := ⟨n - 1, by omega⟩
  rw [List.range_succ_eq_map, List.countP_cons_of_pos hp, List.countP_map, Nat.add_sub_cancel]
  rfl

theorem count_match (hf : f ≠ []) (h : f <+: s) :
    count f s = (List.range (f.length - 1)).countP (fun i => OccursAt f s (i + 1)) + 1 + count f (s.drop f.length) := by
  have hzero : decide (OccursAt f s 0) = true := decide_eq_true h
  rw [count_drop f h.length_le, countP_range_zero hzero (List.length_pos_of_ne_nil hf)]

theorem count_skip {a : α} (h : ¬ f <+: a :: s) : count f (a :: s) = count f s := by
  have hzero : ¬ decide (OccursAt f (a :: s) 0) = true := fun hd => h (of_decide_eq_true hd)
  have hdrop := count_drop (s := a :: s) f (Nat.succ_le_succ (Nat.zero_le s.length))
  rw [hdrop, List.range_one, List.countP_singleton, if_neg hzero, Nat.zero_add]
  rfl

theorem replaced_le_count (hf : f ≠ []) (s : List α) : replaced f s ≤ count f s := by
  induction s using match_induction hf with
  | nil => simp [replaced]
  | hit s h ih =>
    rw [count_match hf h, replaced_match hf h]
    omega
  | skip a s h ih => rwa [count_skip h, replaced_skip h]

theorem count_eq_replaced_iff (hf : f ≠ []) (s : List α) : count f s = replaced f s ↔ ¬ Overlap f s := by
  induction s using match_induction hf with
  | nil => simp [replaced, count, not_overlap_nil hf]
  | hit s h ih =>
    have hle := replaced_le_count hf (s.drop f.length)
    rw [count_match hf h, replaced_match hf h, overlap_match h, not_or, ← ih]
    have hinner : (List.range (f.length - 1)).countP (fun i => OccursAt f s (i + 1)) = 0 ↔
        ¬ ∃ j, 0 < j ∧ j < f.length ∧ OccursAt f s j := by
      rw [List.countP_eq_zero]
      constructor
      · rintro hz ⟨j, hpos, hlt, hj⟩
        have hnot := hz (j - 1) (List.mem_range.mpr (by omega))
        rw [Nat.sub_add_cancel hpos] at hnot
        exact hnot (decide_eq_true hj)
      · intro hnot i hi hd
        have hlt := List.mem_range.mp hi
        exact hnot ⟨i + 1, Nat.succ_pos i, by omega, of_decide_eq_true hd⟩
    rw [← hinner]
    omega
  | skip a s h ih => rwa [count_skip h, replaced_skip h, overlap_skip h]

theorem replaced_eq_zero_iff (hf : f ≠ []) (s : List α) : replaced f s = 0 ↔ count f s = 0 := by
  induction s using match_induction hf with
  | nil => simp [replaced, count]
  | hit s h ih =>
    rw [count_match hf h, replaced_match hf h]
    omega
  | skip a s h ih => rwa [count_skip h, replaced_skip h]

theorem replace_of_count_zero (hf : f ≠ []) {s : List α} (h : count f s = 0) : replace f r s = s := by
  induction s using match_induction hf with
  | nil => rw [replace]
  | hit s hit ih =>
    rw [count_match hf hit] at h
    omega
  | skip a s hskip ih =>
    rw [count_skip hskip] at h
    rw [replace_skip hskip, ih h]

/-- A replacement changes something unless there is nothing to replace or each match is replaced by itself. -/
theorem replace_eq_self_iff (hf : f ≠ []) : replace f r s = s ↔ count f s = 0 ∨ r = f := by
  constructor
  · intro heq
    have hlen := length_replace hf r s
    rw [heq] at hlen
    induction s using match_induction hf with
    | nil => exact Or.inl rfl
    | hit s h ih =>
      have hsize : f.length = r.length := by
        have hmul : replaced f s * f.length = replaced f s * r.length := by omega
        exact Nat.eq_of_mul_eq_mul_left (by rw [replaced_match hf h]; exact Nat.succ_pos _) hmul
      rw [replace_match hf h] at heq
      obtain ⟨t, rfl⟩ := h
      exact Or.inr (List.append_inj heq hsize.symm).1
    | skip a s h ih =>
      rw [replace_skip h] at heq
      rw [count_skip h]
      rw [replaced_skip h, List.length_cons] at hlen
      exact ih (List.cons.inj heq).2 (by omega)
  · rintro (h | rfl)
    · exact replace_of_count_zero hf h
    · exact replace_self hf s

end

end

end Occurrences
