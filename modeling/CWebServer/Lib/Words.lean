import Mathlib.Data.List.TakeWhile

/-!
# Words of a list

The words of a list are its maximal runs of elements that are no separators.
-/

namespace Words

section
variable {α : Type*} (p : α → Bool)

def words (l : List α) : List (List α) := (l.splitOnP p).filter (! ·.isEmpty)

variable {p}

theorem words_nil : words p [] = [] := rfl

theorem words_sep_cons {c : α} (hc : p c = true) (l : List α) : words p (c :: l) = words p l := by
  have := List.splitOnP_append_cons ([] : List α) l hc
  simp only [List.nil_append, List.splitOnP_nil] at this
  simp [words, this]

theorem words_word {w : List α} (hw : ∀ x ∈ w, p x = false) (hne : w ≠ []) : words p w = [w] := by
  rw [words, List.splitOnP_eq_singleton hw]
  simp [hne]

theorem words_word_sep {w : List α} (hw : ∀ x ∈ w, p x = false) (hne : w ≠ []) {c : α} (hc : p c = true)
    (l : List α) : words p (w ++ c :: l) = w :: words p l := by
  rw [words, List.splitOnP_append_cons w l hc, List.filter_append]
  have := words_word hw hne
  unfold words at this ⊢
  rw [this]; rfl

theorem words_cases (l : List α) : l = [] ∨ (∃ c l', l = c :: l' ∧ p c = true) ∨
    ∃ w l', l = w ++ l' ∧ w ≠ [] ∧ (∀ x ∈ w, p x = false) ∧ ∀ x ∈ l'.head?, p x = true := by
  cases l with
  | nil => exact Or.inl rfl
  | cons c l =>
    right
    by_cases hc : p c = true
    · exact Or.inl ⟨c, l, rfl, hc⟩
    · right
      refine ⟨(c :: l).takeWhile (! p ·), (c :: l).dropWhile (! p ·), List.takeWhile_append_dropWhile.symm, ?_, ?_, ?_⟩
      · simp [hc]
      · intro x hx; simpa using List.mem_takeWhile_imp hx
      · intro x hx
        have hne : (c :: l).dropWhile (! p ·) ≠ [] := by intro h; simp [h] at hx
        have := List.head_dropWhile_not (! p ·) hne
        rw [List.head?_eq_some_head hne, Option.mem_def, Option.some.injEq] at hx
        simpa [hx] using this

/-- Induction along the words of a list. -/
theorem words_induction (p : α → Bool) {motive : List α → Prop} (nil : motive [])
    (sep : ∀ c l, p c = true → motive l → motive (c :: l))
    (last : ∀ w, w ≠ [] → (∀ x ∈ w, p x = false) → motive w)
    (word : ∀ w c l, w ≠ [] → (∀ x ∈ w, p x = false) → p c = true → motive l → motive (w ++ c :: l))
    (l : List α) : motive l := by
  induction hn : l.length using Nat.strong_induction_on generalizing l with
  | _ n ih =>
    rcases words_cases (p := p) l with rfl | ⟨c, l, rfl, hc⟩ | ⟨w, l, rfl, hne, hw, hl⟩
    · exact nil
    · apply sep c l hc
      exact ih l.length (by rw [← hn]; exact Nat.lt_succ_self _) l rfl
    · cases l with
      | nil => rw [List.append_nil]; exact last w hne hw
      | cons c l =>
        apply word w c l hne hw (hl c (by simp))
        have := List.length_pos_iff.mpr hne
        simp only [List.length_append, List.length_cons] at hn
        exact ih l.length (by omega) l rfl

theorem words_congr {q : α → Bool} {l : List α} (h : ∀ x ∈ l, p x = q x) : words p l = words q l := by
  induction l using words_induction p with
  | nil => rfl
  | sep c l hc ih =>
    have hcq : q c = true := (h c List.mem_cons_self).symm.trans hc
    rw [words_sep_cons hc, words_sep_cons hcq, ih (List.forall_mem_cons.mp h).2]
  | last w hne hw =>
    rw [words_word hw hne, words_word (fun x hx => (h x hx).symm.trans (hw x hx)) hne]
  | word w c l hne hw hc ih =>
    obtain ⟨hwl, hcl⟩ := List.forall_mem_append.mp h
    have hcq : q c = true := (hcl c List.mem_cons_self).symm.trans hc
    rw [words_word_sep hw hne hc, words_word_sep (fun x hx => (hwl x hx).symm.trans (hw x hx)) hne hcq,
      ih (List.forall_mem_cons.mp hcl).2]

end

end Words
