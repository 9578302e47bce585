import Mathlib.Data.List.Basic
import Mathlib.Data.Nat.ModEq
import Mathlib.Logic.Function.Basic

/-!
# Ring buffers

Indices modulo the capacity `c`, the items that `len` slots from `head` on
hold, and the bounded queue that they implement.
-/

namespace Ring

theorem mod_inj {c a b : Nat} (hab : a ≤ b) (hbc : b < a + c) (h : a % c = b % c) : a = b := by
  obtain ⟨k, rfl⟩ := Nat.exists_eq_add_of_le hab
  have hk : 0 ≡ k [MOD c] := Nat.ModEq.add_left_cancel' a h
  rw [Nat.ModEq, Nat.zero_mod, Nat.mod_eq_of_lt (by omega)] at hk
  rw [← hk, Nat.add_zero]

theorem succ_mod_eq_iff {c d e : Nat} (hde : d ≤ e) (hec : e < d + c) :
    (e % c + 1) % c = d % c ↔ e + 1 = d + c := by
  rw [Nat.mod_add_mod]
  refine ⟨fun h => ?_, fun h => by rw [h, Nat.add_mod_right]⟩
  by_cases hlt : e + 1 < d + c
  · have := mod_inj (by omega) hlt h.symm; omega
  · omega

/-- How far `t` is ahead of `h`. -/
def dist (c h t : Nat) : Nat := (t + c - h) % c

theorem dist_mod {c d e : Nat} (hde : d ≤ e) (hec : e < d + c) : dist c (d % c) (e % c) = e - d := by
  have hc : 0 < c := by omega
  have hd := Nat.mod_lt d hc
  have : (e % c + c - d % c) % c = (e - d) % c := by
    apply Nat.ModEq.add_right_cancel' (d % c)
    have h1 : e % c + c - d % c + d % c = e % c + c := by omega
    have h2 : (e - d + d % c) % c = e % c := by
      rw [Nat.add_mod_mod]; congr 1; omega
    show (_ + _) % c = (_ + _) % c
    rw [h1, h2, Nat.add_mod_right, Nat.mod_mod]
  unfold dist
  rw [this, Nat.mod_eq_of_lt (by omega)]

theorem dist_lt {c h : Nat} (t : Nat) (hh : h < c) : dist c h t < c := Nat.mod_lt _ (by omega)

theorem add_dist {c h t : Nat} (hh : h < c) (ht : t < c) : (h + dist c h t) % c = t := by
  unfold dist
  rw [Nat.add_mod_mod, show h + (t + c - h) = t + c by omega, Nat.add_mod_right, Nat.mod_eq_of_lt ht]

theorem dist_eq_zero_iff {c h t : Nat} (hh : h < c) (ht : t < c) : dist c h t = 0 ↔ h = t := by
  refine ⟨fun h0 => ?_, fun he => ?_⟩
  · have := add_dist hh ht
    rwa [h0, Nat.add_zero, Nat.mod_eq_of_lt hh] at this
  · unfold dist; rw [he, Nat.add_sub_cancel_left, Nat.mod_self]

section
variable {α : Type*}

/-- A queue of at most `n` items refuses the next one. -/
def push (n : Nat) (l : List α) (x : α) : Bool × List α := if l.length < n then (true, l ++ [x]) else (false, l)

def pop : List α → Option α × List α
  | [] => (none, [])
  | x :: l => (some x, l)

def window (items : Nat → α) (c head len : Nat) : List α := (List.range len).map fun i => items ((head + i) % c)

@[simp] theorem length_window (items : Nat → α) (c head len : Nat) : (window items c head len).length = len := by
  simp [window]

theorem window_succ (items : Nat → α) (c head len : Nat) :
    window items c head (len + 1) = items (head % c) :: window items c ((head + 1) % c) len := by
  simp only [window, List.range_succ_eq_map, List.map_cons, List.map_map, Nat.add_zero]
  congr 2
  funext i
  rw [Function.comp_apply, Nat.mod_add_mod, Nat.add_right_comm, Nat.add_assoc]

theorem window_update (items : Nat → α) {c len : Nat} (head : Nat) (hlen : len < c) (x : α) :
    window (Function.update items ((head + len) % c) x) c head (len + 1) = window items c head len ++ [x] := by
  simp only [window, List.range_succ, List.map_append, List.map_singleton, Function.update_self]
  congr 1
  apply List.map_congr_left; intro i hi
  rw [List.mem_range] at hi
  apply Function.update_of_ne
  intro h
  have := mod_inj (by omega) (by omega) h
  omega

end

end Ring
