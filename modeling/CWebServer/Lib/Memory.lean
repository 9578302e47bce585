import Mathlib.Data.List.Basic

/-!
# Memory as a function

A list written at an offset, and read back.
-/

namespace Memory

section
variable {α : Type*}

def write (m : Nat → α) (off : Nat) (t : List α) : Nat → α :=
  fun i => if off ≤ i then t[i - off]?.getD (m i) else m i

def read (m : Nat → α) (off n : Nat) : List α := (List.range n).map fun i => m (off + i)

@[simp] theorem length_read (m : Nat → α) (off n : Nat) : (read m off n).length = n := by simp [read]

@[simp] theorem write_nil (m : Nat → α) (off : Nat) : write m off [] = m := by
  funext i
  simp [write]

theorem write_append (m : Nat → α) (off : Nat) (t u : List α) :
    write (write m off t) (off + t.length) u = write m off (t ++ u) := by
  funext i
  unfold write
  by_cases hi : off ≤ i
  · by_cases hj : off + t.length ≤ i
    · rw [if_pos hj, if_pos hi, if_pos hi, List.getElem?_append_right (by omega),
        List.getElem?_eq_none (by omega : t.length ≤ i - off), Option.getD_none]
      congr 2; omega
    · rw [if_neg hj, if_pos hi, if_pos hi, List.getElem?_append_left (by omega)]
  · rw [if_neg (by omega), if_neg hi, if_neg hi]

/-- A longer list is written over the end of another. -/
theorem write_over (m : Nat → α) (off : Nat) (t : List α) {u v : List α} (h : u.length ≤ v.length) :
    write (write m off (t ++ u)) (off + t.length) v = write m off (t ++ v) := by
  rw [← write_append, ← write_append]
  funext i
  unfold write
  by_cases hi : off + t.length ≤ i
  · rw [if_pos hi, if_pos hi, if_pos hi]
    by_cases hv : i - (off + t.length) < v.length
    · rw [List.getElem?_eq_getElem hv, Option.getD_some, Option.getD_some]
    · rw [List.getElem?_eq_none (by omega : v.length ≤ i - (off + t.length)),
        List.getElem?_eq_none (by omega : u.length ≤ i - (off + t.length))]
      rfl
  · rw [if_neg hi, if_neg hi, if_neg hi]

/-- What stands behind a list can be written with it. -/
theorem write_read (m : Nat → α) (off : Nat) (t : List α) (n : Nat) :
    write m off (t ++ read m (off + t.length) n) = write m off t := by
  rw [← write_append]
  funext i
  unfold write read
  by_cases hi : off + t.length ≤ i
  · rw [if_pos hi, List.getElem?_map]
    by_cases hn : i - (off + t.length) < n
    · rw [List.getElem?_range hn, Option.map_some, Option.getD_some, if_pos (by omega),
        List.getElem?_eq_none (by omega : t.length ≤ i - off), Option.getD_none]
      congr 1
      omega
    · rw [List.getElem?_eq_none (by rw [List.length_range]; omega), Option.map_none, Option.getD_none]
  · rw [if_neg hi]

theorem read_write (m : Nat → α) (off : Nat) (t : List α) : read (write m off t) off t.length = t := by
  apply List.ext_getElem (length_read ..)
  intro i _ hi
  simp [read, write, hi]

theorem read_add (m : Nat → α) (off a b : Nat) : read m off (a + b) = read m off a ++ read m (off + a) b := by
  simp only [read, List.range_add, List.map_append, List.map_map, Function.comp_def, Nat.add_assoc]

theorem take_drop_read (m : Nat → α) (off : Nat) {o n len : Nat} (h : o + n ≤ len) :
    ((read m off len).drop o).take n = read m (off + o) n := by
  obtain ⟨k, rfl⟩ := Nat.exists_eq_add_of_le h
  rw [Nat.add_assoc, read_add, read_add, List.drop_left' (length_read ..), List.take_left' (length_read ..)]

theorem read_append_iff {m : Nat → α} {off : Nat} {t u : List α} :
    read m off (t ++ u).length = t ++ u ↔ read m off t.length = t ∧ read m (off + t.length) u.length = u := by
  rw [List.length_append, read_add]
  constructor
  · intro h
    exact List.append_inj h (length_read ..)
  · intro h
    rw [h.1, h.2]

theorem read_succ (m : Nat → α) (off n : Nat) : read m off (n + 1) = read m off n ++ [m (off + n)] := by
  simp only [read, List.range_succ, List.map_append, List.map_singleton]

theorem write_apart (m : Nat → α) {off i : Nat} {t : List α} (h : off + t.length ≤ i ∨ i < off) :
    write m off t i = m i := by
  unfold write
  by_cases hi : off ≤ i
  · rw [if_pos hi, List.getElem?_eq_none (by omega), Option.getD_none]
  · rw [if_neg hi]

theorem write_get (m : Nat → α) (off : Nat) {t : List α} {j : Nat} (h : j < t.length) :
    write m off t (off + j) = t[j] := by
  unfold write
  rw [if_pos (Nat.le_add_right off j), Nat.add_sub_cancel_left, List.getElem?_eq_getElem h, Option.getD_some]

theorem read_write_apart (m : Nat → α) {off off' n : Nat} {t : List α} (h : off + t.length ≤ off' ∨ off' + n ≤ off) :
    read (write m off t) off' n = read m off' n := by
  apply List.map_congr_left
  intro i hi
  rw [List.mem_range] at hi
  exact write_apart m (by omega)

end

end Memory
