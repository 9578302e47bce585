import Mathlib.Data.List.Basic

/-!
# Terminated texts

Texts that lie one behind the other, each with a terminator at its end, and
the text that starts at an offset.
-/

namespace Terminated

section
variable {α : Type*} (z : α)

def join (texts : List (List α)) : List α := texts.flatMap (· ++ [z])

variable {z}

theorem join_cons (text : List α) (texts : List (List α)) : join z (text :: texts) = text ++ z :: join z texts := by
  rw [join, List.flatMap_cons, List.append_assoc]
  rfl

theorem join_append (texts texts' : List (List α)) : join z (texts ++ texts') = join z texts ++ join z texts' :=
  List.flatMap_append

/-- The terminator that is met first is the end of the text. -/
theorem prefix_terminated_iff {a t rest : List α} (ha : z ∉ a) (ht : z ∉ t) :
    a ++ [z] <+: t ++ z :: rest ↔ a = t := by
  constructor
  · rintro ⟨more, h⟩
    induction a generalizing t with
    | nil =>
      cases t with
      | nil => rfl
      | cons c t =>
        have hc : z = c := (List.cons.inj h).1
        exact absurd (hc ▸ List.mem_cons_self) ht
    | cons b a ih =>
      cases t with
      | nil =>
        have hb : b = z := (List.cons.inj h).1
        exact absurd (hb ▸ List.mem_cons_self) ha
      | cons c t =>
        obtain ⟨rfl, htail⟩ := List.cons.inj h
        rw [ih (fun hz => ha (List.mem_cons_of_mem _ hz)) (fun hz => ht (List.mem_cons_of_mem _ hz)) htail]
  · rintro rfl
    exact ⟨rest, by rw [List.append_assoc]; rfl⟩

/-- A text that starts at an offset is the end of one of the texts. -/
theorem prefix_drop_join_iff {texts : List (List α)} (htexts : ∀ t ∈ texts, z ∉ t) {a : List α} (ha : z ∉ a) (o : Nat) :
    a ++ [z] <+: (join z texts).drop o ↔
      ∃ done t rest, texts = done ++ t :: rest ∧ a <:+ t ∧ o + a.length = (join z done).length + t.length := by
  constructor
  · intro h
    induction texts generalizing o with
    | nil =>
      rw [join, List.flatMap_nil, List.drop_nil] at h
      exact absurd (List.prefix_nil.mp h) (by simp)
    | cons t texts ih =>
      rw [join_cons] at h
      rcases Nat.lt_or_ge t.length o with hlt | hle
      · obtain ⟨k, rfl⟩ := Nat.exists_eq_add_of_lt hlt
        rw [Nat.add_assoc, List.drop_append, List.drop_eq_nil_of_le (Nat.le_add_right _ _), List.nil_append,
          Nat.add_sub_cancel_left, List.drop_succ_cons] at h
        obtain ⟨done, t', rest, rfl, hsuffix, hlen⟩ := ih (fun t' ht' => htexts t' (List.mem_cons_of_mem _ ht')) k h
        refine ⟨t :: done, t', rest, rfl, hsuffix, ?_⟩
        rw [join_cons, List.length_append, List.length_cons]
        omega
      · rw [List.drop_append_of_le_length hle] at h
        have heq := (prefix_terminated_iff ha fun hz => htexts t List.mem_cons_self (List.mem_of_mem_drop hz)).mp h
        refine ⟨[], t, texts, rfl, heq ▸ List.drop_suffix o t, ?_⟩
        rw [heq, List.length_drop]
        exact (Nat.add_sub_cancel' hle).trans (Nat.zero_add _).symm
  · rintro ⟨done, t, rest, rfl, ⟨front, rfl⟩, hlen⟩
    have ho : o = (join z done).length + front.length := by
      rw [List.length_append] at hlen
      omega
    rw [join_append, join_cons, ho, List.drop_append, List.drop_eq_nil_of_le (Nat.le_add_right _ _),
      Nat.add_sub_cancel_left, List.nil_append, List.append_assoc, List.drop_left]
    exact ⟨join z rest, by rw [List.append_assoc]; rfl⟩

end

end Terminated
