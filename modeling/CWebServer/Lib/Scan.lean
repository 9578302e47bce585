import Mathlib.Data.List.TakeWhile

/-!
# Scanning with an index

`scanTo p d i` is where the loop `for (; i < size; i++) if (p(d[i])) break;`
leaves its index. What stands before and behind that index is `takeWhile` and
`dropWhile` of what stood behind `i`.
-/

namespace Scan

section
variable {α : Type*}

def scanTo (p : α → Bool) (d : List α) (i : Nat) : Nat := i + (d.drop i).findIdx p

variable (p : α → Bool) (d : List α) (i : Nat)

theorem le_scanTo : i ≤ scanTo p d i := Nat.le_add_right _ _

theorem drop_scanTo : d.drop (scanTo p d i) = (d.drop i).dropWhile (! p ·) := by
  rw [scanTo, List.dropWhile_eq_drop_findIdx_not, List.drop_drop]
  simp

theorem take_scanTo : (d.drop i).take (scanTo p d i - i) = (d.drop i).takeWhile (! p ·) := by
  rw [scanTo, List.takeWhile_eq_take_findIdx_not, Nat.add_sub_cancel_left]
  simp

theorem scanTo_le {d : List α} {i : Nat} (h : i ≤ d.length) : scanTo p d i ≤ d.length := by
  have hle : (d.drop i).findIdx p ≤ (d.drop i).length := List.findIdx_le_length
  rw [List.length_drop] at hle
  unfold scanTo; omega

theorem scanTo_get {d : List α} {i : Nat} (h : scanTo p d i < d.length) :
    p d[scanTo p d i] = true := by
  have hlt : (d.drop i).findIdx p < (d.drop i).length := by
    rw [List.length_drop]; unfold scanTo at h; omega
  have := List.findIdx_getElem (w := hlt)
  simpa [scanTo] using this

theorem scanTo_first {d : List α} {i m : Nat} (hm : m < d.length) (him : i ≤ m) (hlt : m < scanTo p d i) :
    p d[m] = false := by
  have hlt : m - i < (d.drop i).findIdx p := by unfold scanTo at hlt; omega
  have := List.not_of_lt_findIdx hlt
  simpa [show i + (m - i) = m by omega] using this

theorem scanTo_succ {d : List α} {i : Nat} (h : i < d.length) (hp : p d[i] = false) :
    scanTo p d i = scanTo p d (i + 1) := by
  unfold scanTo
  rw [List.drop_eq_getElem_cons h, List.findIdx_cons, hp]
  simp only [cond_false]; omega

theorem scanTo_self {d : List α} {i : Nat} (h : i < d.length) (hp : p d[i] = true) : scanTo p d i = i := by
  unfold scanTo
  rw [List.drop_eq_getElem_cons h, List.findIdx_cons, hp]
  rfl

end

end Scan
