import Mathlib.Data.List.Basic

/-!
# Frames in a stream

A frame begins with a header of fixed length, which says how long its body is.
A reader keeps what is left behind the last whole frame and appends the next
chunk to it. However the stream is cut into chunks, the reader finds the frames
of the stream (`absorb_chunks`).
-/

namespace Framing

structure Header (α : Type*) where
  length : Nat
  length_pos : 0 < length
  body : List α → Nat

variable {α : Type*} (H : Header α)

/-- How long the frame is that begins the list, if its header is there. -/
def Header.size (xs : List α) : Option Nat :=
  if H.length ≤ xs.length then some (H.length + H.body (xs.take H.length)) else none

def Header.next (xs : List α) : Option (List α × List α) :=
  match H.size xs with
  | none => none
  | some n => if n ≤ xs.length then some (xs.take n, xs.drop n) else none

def Header.IsFrame (x : List α) : Prop := H.size x = some x.length

variable {H}

theorem size_some {xs : List α} {n : Nat} (h : H.size xs = some n) :
    H.length ≤ xs.length ∧ n = H.length + H.body (xs.take H.length) := by
  unfold Header.size at h
  split at h
  · rename_i hle
    cases h
    exact ⟨hle, rfl⟩
  · cases h

theorem size_append {xs : List α} {n : Nat} (h : H.size xs = some n) (ys : List α) : H.size (xs ++ ys) = some n := by
  obtain ⟨hle, rfl⟩ := size_some h
  rw [Header.size, if_pos (by rw [List.length_append]; omega), List.take_append_of_le_length hle]

theorem size_take {xs : List α} {n : Nat} (h : H.size xs = some n) (hn : n ≤ xs.length) :
    H.size (xs.take n) = some n := by
  obtain ⟨hle, rfl⟩ := size_some h
  rw [Header.size, if_pos (by rw [List.length_take]; omega), List.take_take, Nat.min_eq_left (Nat.le_add_right _ _)]

theorem next_some {xs x rest : List α} (h : H.next xs = some (x, rest)) : xs = x ++ rest ∧ H.IsFrame x := by
  unfold Header.next at h
  split at h
  · cases h
  · rename_i n hn
    split at h
    · rename_i hle
      cases h
      refine ⟨(List.take_append_drop n xs).symm, ?_⟩
      rw [Header.IsFrame, size_take hn hle, List.length_take, Nat.min_eq_left hle]
    · cases h

theorem next_frame {x : List α} (h : H.IsFrame x) (rest : List α) : H.next (x ++ rest) = some (x, rest) := by
  rw [Header.next, size_append h rest]
  simp

theorem isFrame_pos {x : List α} (h : H.IsFrame x) : 0 < x.length := by
  have := (size_some h).1
  have := H.length_pos
  omega

theorem next_length {xs x rest : List α} (h : H.next xs = some (x, rest)) : rest.length < xs.length := by
  obtain ⟨rfl, hx⟩ := next_some h
  have := isFrame_pos hx
  rw [List.length_append]
  omega

theorem next_append {xs x rest : List α} (h : H.next xs = some (x, rest)) (ys : List α) :
    H.next (xs ++ ys) = some (x, rest ++ ys) := by
  obtain ⟨rfl, hx⟩ := next_some h
  rw [List.append_assoc]
  exact next_frame hx _

/-! ## All frames -/

/-- The whole frames of the list, and what is left behind them. -/
def Header.split (H : Header α) (xs : List α) : List (List α) × List α :=
  match _h : H.next xs with
  | none => ([], xs)
  | some (x, rest) => (x :: (split H rest).1, (split H rest).2)
termination_by xs.length
decreasing_by all_goals exact next_length _h

theorem split_none {xs : List α} (h : H.next xs = none) : H.split xs = ([], xs) := by
  rw [Header.split]
  split
  · rfl
  · rename_i heq
    rw [h] at heq
    cases heq

theorem split_some {xs x rest : List α} (h : H.next xs = some (x, rest)) :
    H.split xs = (x :: (H.split rest).1, (H.split rest).2) := by
  rw [Header.split]
  split
  · rename_i heq
    rw [h] at heq
    cases heq
  · rename_i heq
    rw [h] at heq
    cases heq
    rfl

/-- What holds where no frame is whole, and passes from behind a frame to before it, holds of every list. -/
theorem split_induction {P : List α → Prop} (none : ∀ xs, H.next xs = none → P xs)
    (some : ∀ xs x rest, H.next xs = some (x, rest) → P rest → P xs) (xs : List α) : P xs := by
  induction hn : xs.length using Nat.strongRecOn generalizing xs with
  | ind n ih =>
    cases h : H.next xs with
    | none => exact none xs h
    | some p => exact some xs p.1 p.2 h (ih p.2.length (hn ▸ next_length h) p.2 rfl)

theorem next_split (xs : List α) : H.next (H.split xs).2 = none := by
  induction xs using split_induction (H := H) with
  | none xs h => rwa [split_none h]
  | some xs x rest h ih => rwa [split_some h]

theorem split_append (xs ys : List α) :
    H.split (xs ++ ys) = ((H.split xs).1 ++ (H.split ((H.split xs).2 ++ ys)).1, (H.split ((H.split xs).2 ++ ys)).2) := by
  induction xs using split_induction (H := H) with
  | none xs h => simp [split_none h]
  | some xs x rest h ih => simp [split_some h, split_some (next_append h ys), ih]

/-- Frames that are sent one behind the other are found again. -/
theorem split_flatten {frames : List (List α)} (hf : ∀ x ∈ frames, H.IsFrame x) {rest : List α}
    (hr : H.next rest = none) : H.split (frames.flatten ++ rest) = (frames, rest) := by
  induction frames with
  | nil => exact split_none hr
  | cons x frames ih =>
    rw [List.flatten_cons, List.append_assoc, split_some (next_frame (hf x (by simp)) _),
      ih fun y hy => hf y (by simp [hy])]

theorem lt_of_next_none {xs : List α} (h : H.next xs = none) {bound : Nat} (hb : ∀ ys, H.body ys < bound) :
    xs.length < H.length + bound := by
  by_contra hle
  have := hb (xs.take H.length)
  rw [Header.next, Header.size, if_pos (by omega)] at h
  simp only [if_pos (show H.length + H.body (xs.take H.length) ≤ xs.length by omega)] at h
  cases h

/-! ## A reader of chunks -/

section
variable {σ : Type*} (handle : σ → List α → Except σ σ)

/-- A reader hands each frame to `handle` until that fails. -/
def absorb (H : Header α) (s : σ × List α) (chunk : List α) : Except σ (σ × List α) :=
  ((H.split (s.2 ++ chunk)).1.foldlM handle s.1).map fun s' => (s', (H.split (s.2 ++ chunk)).2)

theorem absorb_append (s : σ × List α) (xs ys : List α) :
    absorb handle H s (xs ++ ys) = (absorb handle H s xs).bind fun s' => absorb handle H s' ys := by
  rw [absorb, ← List.append_assoc, split_append, List.foldlM_append, absorb]
  cases (H.split (s.2 ++ xs)).1.foldlM handle s.1 <;> rfl

theorem absorb_nil {s : σ × List α} (h : H.next s.2 = none) : absorb handle H s [] = .ok s := by
  rw [absorb, List.append_nil, split_none h]
  rfl

/-- What a reader keeps is less than a frame. -/
theorem next_absorb {s s' : σ × List α} {chunk : List α} (h : absorb handle H s chunk = .ok s') : H.next s'.2 = none := by
  rw [absorb] at h
  cases hs : (H.split (s.2 ++ chunk)).1.foldlM handle s.1 with
  | error t => simp [hs, Except.map] at h
  | ok t =>
    simp only [hs, Except.map, Except.ok.injEq] at h
    exact h ▸ next_split _

theorem absorb_chunks {s : σ × List α} (h : H.next s.2 = none) (chunks : List (List α)) :
    chunks.foldlM (absorb handle H) s = absorb handle H s chunks.flatten := by
  induction chunks generalizing s with
  | nil => exact (absorb_nil handle h).symm
  | cons chunk chunks ih =>
    rw [List.foldlM_cons, List.flatten_cons, absorb_append]
    cases hs : absorb handle H s chunk with
    | error s' => rfl
    | ok s' => exact ih (next_absorb handle hs)

end

end Framing
