import Mathlib.Data.List.Nodup
import Mathlib.Logic.Function.Basic

/-!
# Doubly linked nodes

The nodes of a list, linked by two functions in both directions. `Seg` is a
segment with what stands before and behind it, `Linked` a whole list with its
two ends. An operation at one place changes the segments on both its sides.
-/

namespace Links

section
variable {α : Type*} {next prev : α → Option α}

/-- The nodes are linked in their order, between `before` and `behind`. -/
def Seg (next prev : α → Option α) : Option α → List α → Option α → Prop
  | _, [], _ => True
  | before, x :: xs, behind => prev x = before ∧ next x = xs.head?.or behind ∧ Seg next prev (some x) xs behind

variable {xs ys : List α} {before behind : Option α}

theorem seg_append : Seg next prev before (xs ++ ys) behind ↔
    Seg next prev before xs (ys.head?.or behind) ∧ Seg next prev (xs.getLast?.or before) ys behind := by
  induction xs generalizing before with
  | nil => exact (and_iff_right trivial).symm
  | cons x xs ih =>
    have hlast : (x :: xs).getLast?.or before = xs.getLast?.or (some x) := by
      rw [List.getLast?_cons]
      cases xs.getLast? <;> rfl
    have hhead : (xs ++ ys).head?.or behind = xs.head?.or (ys.head?.or behind) := by
      rw [List.head?_append, Option.or_assoc]
    rw [List.cons_append, Seg, ih, hhead, hlast, Seg, and_assoc, and_assoc]

theorem seg_split {x : α} : Seg next prev before (xs ++ x :: ys) behind ↔
    Seg next prev before xs (some x) ∧ prev x = xs.getLast?.or before ∧ next x = ys.head?.or behind ∧
      Seg next prev (some x) ys behind := seg_append

theorem Seg.congr {next' prev' : α → Option α} (h : Seg next prev before xs behind)
    (hnext : ∀ x ∈ xs, next' x = next x) (hprev : ∀ x ∈ xs, prev' x = prev x) : Seg next' prev' before xs behind := by
  induction xs generalizing before with
  | nil => exact trivial
  | cons x xs ih =>
    obtain ⟨hp, hn, hrest⟩ := h
    refine ⟨?_, ?_, ih hrest (fun y hy => hnext y (List.mem_cons_of_mem x hy))
      (fun y hy => hprev y (List.mem_cons_of_mem x hy))⟩
    · rw [hprev x List.mem_cons_self, hp]
    · rw [hnext x List.mem_cons_self, hn]

/-- The nodes from a pointer on, for at most as many steps. -/
def walk (next : α → Option α) : Nat → Option α → Option (List α)
  | _, none => some []
  | 0, some _ => none
  | steps + 1, some x => (walk next steps (next x)).map (x :: ·)

theorem Seg.walk (h : Seg next prev before xs none) : walk next xs.length xs.head? = some xs := by
  induction xs generalizing before with
  | nil => rfl
  | cons x xs ih =>
    obtain ⟨-, hn, hrest⟩ := h
    rw [Option.or_none] at hn
    show (Links.walk next xs.length (next x)).map (x :: ·) = some (x :: xs)
    rw [hn, ih hrest]
    rfl

theorem Seg.inverse {x y : α} (h : Seg next prev none xs none) (hx : x ∈ xs) (hy : y ∈ xs) :
    next x = some y ↔ prev y = some x := by
  constructor
  · intro hxy
    obtain ⟨done, rest, rfl⟩ := List.append_of_mem hx
    obtain ⟨-, -, hn, hrest⟩ := seg_split.mp h
    rw [hxy, Option.or_none] at hn
    cases rest with
    | nil => cases hn
    | cons z rest =>
      cases hn
      exact hrest.1
  · intro hyx
    obtain ⟨done, rest, rfl⟩ := List.append_of_mem hy
    obtain ⟨hdone, hp, -⟩ := seg_split.mp h
    rw [hyx, Option.or_none] at hp
    obtain ⟨done', rfl⟩ := List.getLast?_eq_some_iff.mp hp.symm
    exact (seg_split.mp hdone).2.2.1

theorem walk_cons {x : α} {steps : Nat} {node : Option α} (h : Links.walk next (steps + 1) node = some (x :: xs)) :
    node = some x ∧ Links.walk next steps (next x) = some xs := by
  cases node with
  | none => cases h
  | some y =>
    obtain ⟨rest, hrest, heq⟩ := Option.map_eq_some_iff.mp h
    cases heq
    exact ⟨rfl, hrest⟩

theorem walk_head {node : Option α} (h : Links.walk next xs.length node = some xs) : node = xs.head? := by
  cases xs with
  | nil =>
    cases node with
    | none => rfl
    | some x => cases h
  | cons x xs => exact (walk_cons h).1

/-- A walk over all nodes whose links are inverse makes a segment. -/
theorem seg_of_walk {node : Option α} (hwalk : Links.walk next xs.length node = some xs)
    (hfirst : ∀ x ∈ xs.head?, prev x = before)
    (hinverse : ∀ x ∈ xs, ∀ y ∈ xs, next x = some y → prev y = some x) : Seg next prev before xs none := by
  induction xs generalizing before node with
  | nil => exact trivial
  | cons x xs ih =>
    obtain ⟨-, hrest⟩ := walk_cons hwalk
    have hnext := walk_head hrest
    refine ⟨hfirst x rfl, ?_, ih hrest ?_ ?_⟩
    · rw [hnext, Option.or_none]
    · intro y hy
      apply hinverse x List.mem_cons_self y (List.mem_cons_of_mem x (List.mem_of_mem_head? hy))
      rw [hnext]
      exact hy
    · intro y hy z hz
      exact hinverse y (List.mem_cons_of_mem x hy) z (List.mem_cons_of_mem x hz)

/-- A list with its two ends. -/
structure Linked (next prev : α → Option α) (f l : Option α) (xs : List α) : Prop where
  first : f = xs.head?
  last : l = xs.getLast?
  seg : Seg next prev none xs none
  nodup : xs.Nodup

end

section
variable {α : Type*} [DecidableEq α] {next prev : α → Option α} {xs ys : List α} {before behind : Option α}

theorem Seg.set_behind (h : Seg next prev before xs behind) (hnodup : xs.Nodup) {x : α}
    (hlast : xs.getLast? = some x) (node : Option α) : Seg (Function.update next x node) prev before xs node := by
  obtain ⟨done, rfl⟩ := List.getLast?_eq_some_iff.mp hlast
  obtain ⟨hdone, hp, -⟩ := seg_split.mp h
  have hne : ∀ y ∈ done, y ≠ x := by
    intro y hy heq
    exact (List.nodup_append.mp hnodup).2.2 y hy x List.mem_cons_self heq
  refine seg_split.mpr ⟨hdone.congr (fun y hy => Function.update_of_ne (hne y hy) _ _) fun _ _ => rfl, hp, ?_, trivial⟩
  exact Function.update_self x node next

theorem Seg.set_before (h : Seg next prev before xs behind) (hnodup : xs.Nodup) {x : α} (hhead : xs.head? = some x)
    (node : Option α) : Seg next (Function.update prev x node) node xs behind := by
  obtain ⟨rest, rfl⟩ := List.head?_eq_some_iff.mp hhead
  obtain ⟨-, hn, hrest⟩ := h
  have hne : ∀ y ∈ rest, y ≠ x := fun y hy heq => (List.nodup_cons.mp hnodup).1 (heq ▸ hy)
  exact ⟨Function.update_self x node prev, hn, hrest.congr (fun _ _ => rfl)
    fun y hy => Function.update_of_ne (hne y hy) _ _⟩

variable {f l : Option α}

theorem Linked.single (next prev : α → Option α) (n : α) :
    Linked (Function.update next n none) (Function.update prev n none) (some n) (some n) [n] where
  first := rfl
  last := rfl
  seg := ⟨Function.update_self n none prev, Function.update_self n none next, trivial⟩
  nodup := List.nodup_singleton n

theorem Linked.push (h : Linked next prev f l xs) {n z : α} (hn : n ∉ xs) (hz : l = some z) :
    Linked (Function.update (Function.update next z (some n)) n none) (Function.update prev n (some z)) f (some n)
      (xs ++ [n]) := by
  have hlast : xs.getLast? = some z := h.last.symm.trans hz
  have hne : ∀ y ∈ xs, y ≠ n := fun y hy heq => hn (heq ▸ hy)
  have hnext : ∀ y ∈ xs, Function.update (Function.update next z (some n)) n none y =
      Function.update next z (some n) y := fun y hy => Function.update_of_ne (hne y hy) _ _
  have hprev : ∀ y ∈ xs, Function.update prev n (some z) y = prev y := fun y hy =>
    Function.update_of_ne (hne y hy) _ _
  have hseg := (h.seg.set_behind h.nodup hlast (some n)).congr hnext hprev
  refine ⟨?_, ?_, seg_split.mpr ⟨hseg, ?_, ?_, trivial⟩, ?_⟩
  · rw [h.first]
    cases xs with
    | nil => cases hlast
    | cons x xs => rfl
  · rw [List.getLast?_concat]
  · rw [hlast]
    exact Function.update_self n (some z) prev
  · rw [Function.update_self]
    rfl
  · exact h.nodup.append (List.nodup_singleton n) (List.disjoint_singleton.mpr hn)

theorem Linked.remove_first {n y : α} {ys : List α} (h : Linked next prev f l (n :: y :: ys)) :
    Linked next (Function.update prev y none) (some y) l (y :: ys) where
  first := rfl
  last := h.last.trans List.getLast?_cons_cons
  seg := h.seg.2.2.set_before (List.nodup_cons.mp h.nodup).2 rfl none
  nodup := (List.nodup_cons.mp h.nodup).2

theorem Linked.remove_last {n z : α} (h : Linked next prev f l (xs ++ [n])) (hz : xs.getLast? = some z) :
    Linked (Function.update next z none) prev f (some z) xs := by
  have hnodup := (List.nodup_append.mp h.nodup).1
  refine ⟨?_, hz.symm, (seg_split.mp h.seg).1.set_behind hnodup hz none, hnodup⟩
  rw [h.first]
  cases xs with
  | nil => cases hz
  | cons x xs => rfl

theorem Linked.remove_middle {n a b : α} (h : Linked next prev f l (xs ++ n :: ys)) (ha : xs.getLast? = some a)
    (hb : ys.head? = some b) :
    Linked (Function.update next a (some b)) (Function.update prev b (some a)) f l (xs ++ ys) := by
  obtain ⟨hxs, -, -, hys⟩ := seg_split.mp h.seg
  have hnodup := List.nodup_middle.mp h.nodup
  have hrest := (List.nodup_cons.mp hnodup).2
  obtain ⟨hnodupx, hnodupy, hdisj⟩ := List.nodup_append.mp hrest
  have hamem : a ∈ xs := List.mem_of_getLast? ha
  have hbmem : b ∈ ys := List.mem_of_mem_head? hb
  have hprev : ∀ x ∈ xs, Function.update prev b (some a) x = prev x := fun x hx =>
    Function.update_of_ne (hdisj x hx b hbmem) _ _
  have hnext : ∀ y ∈ ys, Function.update next a (some b) y = next y := fun y hy =>
    Function.update_of_ne (hdisj a hamem y hy).symm _ _
  have hleft := (hxs.set_behind hnodupx ha (some b)).congr (fun _ _ => rfl) hprev
  have hright := (hys.set_before hnodupy hb (some a)).congr hnext fun _ _ => rfl
  refine ⟨?_, ?_, seg_append.mpr ⟨?_, ?_⟩, hrest⟩
  · rw [h.first]
    cases xs with
    | nil => cases ha
    | cons x xs => rfl
  · rw [h.last, List.getLast?_append, List.getLast?_append]
    cases ys with
    | nil => cases hb
    | cons y ys => rw [List.getLast?_cons_cons]
  · rw [hb]
    exact hleft
  · rw [ha]
    exact hright

end

section
variable {α : Type*} {next prev : α → Option α} {xs : List α} {f l : Option α}

/-- The nodes from `f` on are those of the list, and the links are inverse up to the ends. -/
structure Chain (next prev : α → Option α) (f l : Option α) (xs : List α) : Prop where
  first : f = xs.head?
  last : l = xs.getLast?
  nodes : walk next xs.length f = some xs
  inverse : ∀ a ∈ xs, ∀ b ∈ xs, next a = some b ↔ prev b = some a
  first_prev : ∀ a ∈ f, prev a = none
  last_next : ∀ a ∈ l, next a = none
  nodup : xs.Nodup

theorem chain_iff : Chain next prev f l xs ↔ Linked next prev f l xs := by
  constructor
  · intro h
    have hfirst : ∀ x ∈ xs.head?, prev x = none := by
      rw [← h.first]
      exact h.first_prev
    exact ⟨h.first, h.last, seg_of_walk h.nodes hfirst fun a ha b hb => (h.inverse a ha b hb).mp, h.nodup⟩
  · intro h
    refine ⟨h.first, h.last, ?_, fun a ha b hb => h.seg.inverse ha hb, ?_, ?_, h.nodup⟩
    · rw [h.first]
      exact h.seg.walk
    · intro a ha
      rw [h.first] at ha
      obtain ⟨rest, rfl⟩ := List.head?_eq_some_iff.mp ha
      exact h.seg.1
    · intro a ha
      rw [h.last] at ha
      obtain ⟨done, rfl⟩ := List.getLast?_eq_some_iff.mp ha
      exact (seg_split.mp h.seg).2.2.1

theorem seg_iff {before behind : Option α} : Seg next prev before xs behind ↔
    ∀ done x rest, xs = done ++ x :: rest → prev x = done.getLast?.or before ∧ next x = rest.head?.or behind := by
  constructor
  · rintro h done x rest rfl
    exact ⟨(seg_split.mp h).2.1, (seg_split.mp h).2.2.1⟩
  · intro h
    induction xs generalizing before with
    | nil => exact trivial
    | cons x xs ih =>
      obtain ⟨hp, hn⟩ := h [] x xs rfl
      refine ⟨hp, hn, ih fun done y rest heq => ?_⟩
      obtain ⟨hp', hn'⟩ := h (x :: done) y rest (congrArg (x :: ·) heq)
      refine ⟨?_, hn'⟩
      rw [hp', List.getLast?_cons]
      cases done.getLast? <;> rfl

end

end Links
