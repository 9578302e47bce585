import Mathlib.Data.List.TakeWhile
import Mathlib.Data.List.DropRight

/-!
# Records of a list

A record is a key, which ends at the first separator, and a value, which ends
at the next terminator; the run of terminators behind it is skipped. `records`
reads one record after the other until none is left. `next_append` says what a
reader of a longer list sees of a shorter one, `records_encode` that a written
list of records is read back.
-/

namespace Records

section
variable {α : Type*} (sep term : α → Bool)

/-- The first record of `s` and what is left behind it. -/
def next (s : List α) : Option ((List α × List α) × List α) :=
  match s.dropWhile (! sep ·) with
  | [] => none
  | _ :: t =>
    match t.dropWhile (! term ·) with
    | [] => none
    | e => some ((s.takeWhile (! sep ·), t.takeWhile (! term ·)), e.dropWhile term)

/-- A separator with a terminator somewhere behind it. -/
def HasRecord (s : List α) : Prop :=
  ∃ x c y, s = x ++ c :: y ∧ sep c = true ∧ ∃ e ∈ y, term e = true

/-- The list is empty or ends with a terminator. -/
def Closed (s : List α) : Prop := ∀ x ∈ s.getLast?, term x = true

end

theorem dropWhile_cut {α : Type*} {p : α → Bool} {u w : List α} {c : α} (hu : ∀ x ∈ u, p x = false)
    (hc : p c = true) :
    (u ++ c :: w).dropWhile (! p ·) = c :: w ∧ (u ++ c :: w).takeWhile (! p ·) = u := by
  have hu' : ∀ x ∈ u, (! p x) = true := fun x hx => by simp [hu x hx]
  rw [List.dropWhile_append_of_pos hu', List.takeWhile_append_of_pos hu']
  simp [hc]

theorem exists_cut {α : Type*} {p : α → Bool} {s : List α} (h : ∃ x ∈ s, p x = true) :
    ∃ u c w, s = u ++ c :: w ∧ (∀ x ∈ u, p x = false) ∧ p c = true := by
  obtain ⟨c, hc⟩ := Option.isSome_iff_exists.mp (List.find?_isSome.mpr h)
  obtain ⟨hpc, u, w, hs, hu⟩ := List.find?_eq_some_iff_append.mp hc
  exact ⟨u, c, w, hs, fun x hx => by simpa using hu x hx, hpc⟩

section
variable {α : Type*} {sep term : α → Bool}

theorem next_cut {k v w : List α} {c e : α} (hk : ∀ x ∈ k, sep x = false) (hc : sep c = true)
    (hv : ∀ x ∈ v, term x = false) (he : term e = true) :
    next sep term (k ++ c :: (v ++ e :: w)) = some ((k, v), w.dropWhile term) := by
  unfold next
  rw [(dropWhile_cut hk hc).1, (dropWhile_cut hk hc).2]
  simp only [(dropWhile_cut hv he).1, (dropWhile_cut hv he).2]
  rw [List.dropWhile_cons_of_pos he]

theorem suffix_of_cut {k x w y : List α} {c c' : α} (hk : c ∉ k) (h : x ++ c :: y = k ++ c' :: w) : y <:+ w := by
  rcases List.append_eq_append_iff.mp h with ⟨a, rfl, ha⟩ | ⟨a, rfl, ha⟩
  · cases a with
    | nil =>
      obtain ⟨_, rfl⟩ := List.cons_eq_cons.mp ha
      exact List.suffix_refl _
    | cons b a =>
      obtain ⟨rfl, _⟩ := List.cons_eq_cons.mp ha
      exact absurd (by simp) hk
  · cases a with
    | nil =>
      obtain ⟨_, rfl⟩ := List.cons_eq_cons.mp ha
      exact List.suffix_refl _
    | cons b a =>
      obtain ⟨_, rfl⟩ := List.cons_eq_cons.mp ha
      exact ⟨a ++ [c], by simp⟩

theorem HasRecord.cut {s : List α} (h : HasRecord sep term s) :
    ∃ k c v e w, s = k ++ c :: (v ++ e :: w) ∧ (∀ x ∈ k, sep x = false) ∧ sep c = true ∧
      (∀ x ∈ v, term x = false) ∧ term e = true := by
  obtain ⟨x, c, y, rfl, hc, e, he, hte⟩ := h
  obtain ⟨k, c', w, hs, hk, hc'⟩ := exists_cut (p := sep) (s := x ++ c :: y) ⟨c, by simp, hc⟩
  have hck : c ∉ k := fun hm => by simp [hk c hm] at hc
  have hy := suffix_of_cut hck hs
  obtain ⟨v, e', w', rfl, hv, he'⟩ := exists_cut ⟨e, hy.subset he, hte⟩
  exact ⟨k, c', v, e', w', hs, hk, hc', hv, he'⟩

theorem next_some {s k v r : List α} (h : next sep term s = some ((k, v), r)) :
    ∃ c e w, s = k ++ c :: (v ++ e :: w) ∧ (∀ x ∈ k, sep x = false) ∧ sep c = true ∧
      (∀ x ∈ v, term x = false) ∧ term e = true ∧ r = w.dropWhile term := by
  have hr : HasRecord sep term s := by
    unfold next at h
    split at h
    · cases h
    · rename_i c t ht
      split at h
      · cases h
      · rename_i hd
        have hc := List.head_dropWhile_not (! sep ·) (l := s) (by rw [ht]; simp)
        simp only [ht, List.head_cons, Bool.not_eq_false'] at hc
        refine ⟨s.takeWhile (! sep ·), c, t, ?_, hc, ?_⟩
        · rw [← ht, List.takeWhile_append_dropWhile]
        · by_contra hn
          push Not at hn
          exact hd (List.dropWhile_eq_nil_iff.mpr fun x hx => by simp [hn x hx])
  obtain ⟨k', c, v', e, w, rfl, hk, hc, hv, he⟩ := hr.cut
  rw [next_cut hk hc hv he] at h
  simp only [Option.some.injEq, Prod.mk.injEq] at h
  obtain ⟨⟨rfl, rfl⟩, rfl⟩ := h
  exact ⟨c, e, w, rfl, hk, hc, hv, he, rfl⟩

theorem next_none_iff {s : List α} : next sep term s = none ↔ ¬ HasRecord sep term s := by
  refine ⟨fun h hr => ?_, fun h => ?_⟩
  · obtain ⟨k, c, v, e, w, rfl, hk, hc, hv, he⟩ := hr.cut
    rw [next_cut hk hc hv he] at h
    cases h
  · cases hn : next sep term s with
    | none => rfl
    | some p =>
      obtain ⟨⟨k, v⟩, r⟩ := p
      obtain ⟨c, e, w, rfl, _, hc, _, he, _⟩ := next_some hn
      exact absurd ⟨k, c, v ++ e :: w, rfl, hc, e, by simp, he⟩ h

theorem next_length {s r : List α} {p : List α × List α} (h : next sep term s = some (p, r)) :
    r.length < s.length := by
  obtain ⟨k, v⟩ := p
  obtain ⟨c, e, w, rfl, _, _, _, _, rfl⟩ := next_some h
  have := List.length_dropWhile_le term w
  simp only [List.length_append, List.length_cons]
  omega

end

section
variable {α : Type*} (sep term : α → Bool)

def records (s : List α) : List (List α × List α) :=
  match _h : next sep term s with
  | none => []
  | some (p, r) => p :: records r
termination_by s.length
decreasing_by exact next_length _h

end

section
variable {α : Type*} {sep term : α → Bool}

theorem records_none {s : List α} (h : next sep term s = none) : records sep term s = [] := by
  rw [records]; split
  · rfl
  · rename_i h'; rw [h] at h'; cases h'

theorem records_some {s r : List α} {p : List α × List α} (h : next sep term s = some (p, r)) :
    records sep term s = p :: records sep term r := by
  rw [records]; split
  · rename_i h'; rw [h] at h'; cases h'
  · rename_i h'; rw [h] at h'; cases h'; rfl

theorem not_hasRecord_nil : ¬ HasRecord sep term [] := by
  intro h
  obtain ⟨u, c, y, hu, _⟩ := h
  simp at hu

theorem records_nil : records sep term [] = [] := records_none (next_none_iff.mpr not_hasRecord_nil)

theorem records_eq_nil_iff {s : List α} : records sep term s = [] ↔ ¬ HasRecord sep term s := by
  rw [← next_none_iff]
  refine ⟨fun h => ?_, records_none⟩
  cases hn : next sep term s with
  | none => rfl
  | some p => rw [records_some hn] at h; cases h

theorem HasRecord.append_left {s : List α} (x : List α) (h : HasRecord sep term s) :
    HasRecord sep term (x ++ s) := by
  obtain ⟨u, c, y, rfl, hc, he⟩ := h
  exact ⟨x ++ u, c, y, by simp, hc, he⟩

theorem hasRecord_of_lt {s : List α} {i j : Nat} (hij : i < j) (hj : j < s.length)
    (hi : sep (s.get ⟨i, Nat.lt_trans hij hj⟩) = true) (he : term s[j] = true) : HasRecord sep term s := by
  refine ⟨s.take i, s.get ⟨i, Nat.lt_trans hij hj⟩, s.drop (i + 1), ?_, hi, s[j], ?_, he⟩
  · rw [List.get_eq_getElem, ← List.drop_eq_getElem_cons, List.take_append_drop]
  · rw [List.mem_drop_iff_getElem]
    exact ⟨j - (i + 1), by omega, by simp [show i + 1 + (j - (i + 1)) = j by omega]⟩

/-! ## A longer list -/

theorem next_append {s r : List α} {p : List α × List α} (h : next sep term s = some (p, r)) (b : List α) :
    next sep term (s ++ b) = some (p, if r.isEmpty then b.dropWhile term else r ++ b) := by
  obtain ⟨k, v⟩ := p
  obtain ⟨c, e, w, rfl, hk, hc, hv, he, rfl⟩ := next_some h
  have : (k ++ c :: (v ++ e :: w)) ++ b = k ++ c :: (v ++ e :: (w ++ b)) := by simp
  rw [this, next_cut hk hc hv he, List.dropWhile_append]

theorem records_mono {s t : List α} (h : s <+: t) : records sep term s <+: records sep term t := by
  obtain ⟨b, rfl⟩ := h
  induction s using records.induct sep term with
  | case1 s hs => rw [records_none hs]; exact List.nil_prefix
  | case2 s p r hs ih =>
    rw [records_some hs, records_some (next_append hs b)]
    apply (List.prefix_cons_inj p).mpr
    split
    · rename_i hr
      rw [List.isEmpty_iff.mp hr, records_nil]
      exact List.nil_prefix
    · exact ih

theorem closed_append {u s : List α} (hs : s ≠ []) : Closed term (u ++ s) ↔ Closed term s := by
  unfold Closed
  rw [List.getLast?_append_of_ne_nil _ hs]

theorem Closed.append {u s : List α} (hu : Closed term u) (hs : Closed term s) : Closed term (u ++ s) := by
  by_cases h : s = []
  · rw [h, List.append_nil]; exact hu
  · exact (closed_append h).mpr hs

theorem closed_of_all {s : List α} (hs : ∀ x ∈ s, term x = true) : Closed term s :=
  fun x hx => hs x (List.mem_of_getLast? hx)

theorem closed_cons_append {u w : List α} {e : α} (h : Closed term (u ++ e :: w)) :
    Closed term w := by
  cases w with
  | nil => intro x hx; simp at hx
  | cons a w =>
    have : u ++ e :: a :: w = (u ++ [e]) ++ (a :: w) := by simp
    rw [this] at h
    exact (closed_append (by simp)).mp h

theorem closed_dropWhile {w : List α} (h : Closed term w) : Closed term (w.dropWhile term) := by
  by_cases hd : w.dropWhile term = []
  · rw [hd]; intro x hx; simp at hx
  · rw [← List.takeWhile_append_dropWhile (p := term) (l := w)] at h
    exact (closed_append hd).mp h

end

section
variable {α : Type*} {sep term : α → Bool} (hst : ∀ x, sep x = true → term x = false)
include hst

theorem hasRecord_dropWhile {s : List α} :
    HasRecord sep term (s.dropWhile term) ↔ HasRecord sep term s := by
  refine ⟨fun h => ?_, fun h => ?_⟩
  · rw [← List.takeWhile_append_dropWhile (p := term) (l := s)]
    exact h.append_left _
  · obtain ⟨u, c, y, rfl, hc, he⟩ := h
    have hcc : term c = false := hst c hc
    rw [List.dropWhile_append]
    split
    · rw [List.dropWhile_cons_of_neg (by simp [hcc])]
      exact ⟨[], c, y, rfl, hc, he⟩
    · exact ⟨u.dropWhile term, c, y, rfl, hc, he⟩

theorem Closed.hasRecord_append {s b : List α} (hs : Closed term s) (hn : ¬ HasRecord sep term s)
    (h : HasRecord sep term (s ++ b)) : HasRecord sep term b := by
  obtain ⟨u, c, y, hu, hc, he⟩ := h
  rcases List.append_eq_append_iff.mp hu with ⟨a, rfl, rfl⟩ | ⟨a, rfl, ha⟩
  · exact ⟨a, c, y, rfl, hc, he⟩
  cases a with
  | nil => exact ⟨[], c, y, by simpa using ha.symm, hc, he⟩
  | cons c' a =>
    simp only [List.cons_append, List.cons.injEq] at ha
    obtain ⟨rfl, rfl⟩ := ha
    -- the separator stands in `s`, whose last element would end its record
    exfalso
    cases a with
    | nil =>
      have := hs c (by simp)
      rw [hst c hc] at this; cases this
    | cons a' a =>
      have hl := (closed_append (u := u ++ [c]) (s := a' :: a) (by simp)).mp (by simpa using hs)
      exact hn ⟨u, c, a' :: a, rfl, hc, (a' :: a).getLast (by simp), List.getLast_mem _,
        hl _ (by simp [List.getLast?_eq_some_getLast])⟩

/-- What follows a closed list adds no record exactly if it has none of its own. -/
theorem Closed.records_append_iff {s : List α} (hs : Closed term s) (b : List α) :
    records sep term (s ++ b) = records sep term s ↔ ¬ HasRecord sep term b := by
  induction s using records.induct sep term with
  | case1 s hn =>
    have hno := next_none_iff.mp hn
    rw [records_none hn, records_eq_nil_iff]
    exact not_congr ⟨hs.hasRecord_append hst hno, fun h => h.append_left s⟩
  | case2 s p r hn ih =>
    obtain ⟨k, v⟩ := p
    rw [records_some hn, records_some (next_append hn b), List.cons_inj_right]
    obtain ⟨c, e, w, rfl, _, _, _, _, rfl⟩ := next_some hn
    have hw : Closed term (w.dropWhile term) := by
      apply closed_dropWhile
      apply closed_cons_append (u := k ++ c :: v) (e := e)
      simpa using hs
    split
    · rename_i hr
      rw [List.isEmpty_iff.mp hr, records_nil, records_eq_nil_iff, hasRecord_dropWhile hst]
    · exact ih hw

/-! ## Records on one line -/

/-- A line without a separator that is not blank and has a record behind it. -/
def Stray (sep term blank : α → Bool) (s : List α) : Prop :=
  ∃ pre line e post, s = pre ++ (line ++ e :: post) ∧ Closed term pre ∧
    (∀ x ∈ line, sep x = false ∧ term x = false) ∧ term e = true ∧ (∃ x ∈ line, blank x = false) ∧
    HasRecord sep term post

omit hst in
theorem mem_dropWhile_append {q : α → Bool} {u a : List α} {x e : α} (hx : x ∈ u) (hq : q x = false) :
    e ∈ (u ++ e :: a).dropWhile q := by
  rw [List.dropWhile_append]
  split
  · rename_i h
    have := List.dropWhile_eq_nil_iff.mp (List.isEmpty_iff.mp h) x hx
    rw [hq] at this; cases this
  · simp

omit hst in
theorem exists_last_line (u : List α) :
    ∃ pre line, u = pre ++ line ∧ Closed term pre ∧ ∀ x ∈ line, term x = false := by
  refine ⟨u.rdropWhile (! term ·), u.rtakeWhile (! term ·), List.rdropWhile_append_rtakeWhile.symm, ?_, ?_⟩
  · intro x hx
    have hne : u.rdropWhile (! term ·) ≠ [] := by intro h; simp [h] at hx
    have := List.rdropWhile_last_not (! term ·) u hne
    rw [List.getLast?_eq_some_getLast hne, Option.mem_def, Option.some.injEq] at hx
    simpa [hx] using this
  · intro x hx; simpa using List.mem_rtakeWhile_imp hx

omit hst in
theorem stray_head {k v w : List α} {c e₀ : α} {blank : α → Bool} (hk : ∀ x ∈ k, sep x = false)
    (hc : sep c = true) (he₀ : term e₀ = true)
    (h : ∃ x ∈ k.dropWhile (fun x => blank x || term x), term x = true) :
    Stray sep term blank (k ++ c :: (v ++ e₀ :: w)) := by
  obtain ⟨t₁, e, t₂, ht, ht₁, he⟩ := exists_cut h
  obtain ⟨pre, line, hws, (hpre : Closed term pre), hline⟩ :=
    exists_last_line (k.takeWhile fun x => blank x || term x)
  have hkk : k = pre ++ (line ++ t₁) ++ e :: t₂ := by
    rw [← List.takeWhile_append_dropWhile (p := fun x => blank x || term x) (l := k), ht, hws]
    simp
  -- the first element that the trimming keeps is neither blank nor a terminator
  have hhd := List.head_dropWhile_not (fun x => blank x || term x) (l := k) (by rw [ht]; simp)
  obtain ⟨y, t₁', rfl⟩ : ∃ y t₁', t₁ = y :: t₁' := by
    cases t₁ with
    | nil => simp [ht, he] at hhd
    | cons y t₁' => exact ⟨y, t₁', rfl⟩
  simp only [ht, List.cons_append, List.head_cons, Bool.or_eq_false_iff] at hhd
  refine ⟨pre, line ++ y :: t₁', e, t₂ ++ c :: (v ++ e₀ :: w), by simp [hkk], hpre, ?_, he, ⟨y, by simp, hhd.1⟩, ?_⟩
  · intro x hx
    refine ⟨hk x (by rw [hkk]; simp only [List.mem_append] at hx ⊢; tauto), ?_⟩
    rcases List.mem_append.mp hx with hx | hx
    · exact hline x hx
    · exact ht₁ x hx
  · exact ⟨t₂, c, _, rfl, hc, e₀, by simp, he₀⟩

omit hst in
theorem closed_split {v w b rest : List α} {e₀ : α} (hv : ∀ x ∈ v, term x = false) (hb : Closed term b)
    (hne : b ≠ []) (h : v ++ e₀ :: w = b ++ rest) : ∃ b', b = v ++ e₀ :: b' ∧ w = b' ++ rest := by
  have hlast := hb (b.getLast hne) (by simp [List.getLast?_eq_some_getLast hne])
  have hmem : b.getLast hne ∉ v := fun h => by rw [hv _ h] at hlast; cases hlast
  rcases List.append_eq_append_iff.mp h with ⟨a, rfl, ha⟩ | ⟨a, rfl, _⟩
  · cases a with
    | nil => exact absurd (by simp) hmem
    | cons e a =>
      simp only [List.cons_append, List.cons.injEq] at ha
      obtain ⟨rfl, rfl⟩ := ha
      exact ⟨a, rfl, rfl⟩
  · exact absurd (List.mem_append_left _ (List.getLast_mem hne)) hmem

theorem line_behind {k t pre line post : List α} {c e : α} (hc : sep c = true)
    (hpre : Closed term pre) (hline : ∀ x ∈ line, sep x = false) (he : term e = true) {a : List α}
    (ha : pre ++ line = k ++ a) (ht : c :: t = a ++ e :: post) :
    ∃ b, b ≠ [] ∧ Closed term b ∧ t = b ++ (line ++ e :: post) := by
  have hcl : c ∉ line := fun h => by simp [hline c h] at hc
  have hct := hst c hc
  cases a with
  | nil =>
    simp only [List.nil_append, List.cons.injEq] at ht
    rw [ht.1, he] at hct; cases hct
  | cons c' a =>
    simp only [List.cons_append, List.cons.injEq] at ht
    obtain ⟨rfl, rfl⟩ := ht
    rcases List.append_eq_append_iff.mp ha with ⟨b, rfl, hb⟩ | ⟨b, rfl, hb⟩
    · exact absurd (by simp [hb]) hcl
    · cases b with
      | nil => exact absurd (by rw [List.nil_append] at hb; simp [← hb]) hcl
      | cons c' b =>
        simp only [List.cons_append, List.cons.injEq] at hb
        obtain ⟨rfl, rfl⟩ := hb
        refine ⟨b, fun hb => ?_, closed_cons_append hpre, by simp⟩
        rw [hb] at hpre
        rw [hpre c (by simp)] at hct; cases hct

omit hst in
theorem Stray.hasRecord {blank : α → Bool} {s : List α} (h : Stray sep term blank s) : HasRecord sep term s := by
  obtain ⟨pre, line, e, post, rfl, _, _, _, _, hpost⟩ := h
  have := hpost.append_left (pre ++ line ++ [e])
  simpa using this

omit hst in
theorem Stray.append_left {blank : α → Bool} {u s : List α} (hu : Closed term u) (h : Stray sep term blank s) :
    Stray sep term blank (u ++ s) := by
  obtain ⟨pre, line, e, post, rfl, hpre, hline⟩ := h
  exact ⟨u ++ pre, line, e, post, by simp, hu.append hpre, hline⟩

omit hst in
theorem Stray.dropWhile {blank : α → Bool} {s : List α} (h : Stray sep term blank s) :
    Stray sep term blank (s.dropWhile term) := by
  obtain ⟨pre, line, e, post, rfl, hpre, hline, he, hx, hpost⟩ := h
  refine ⟨pre.dropWhile term, line, e, post, ?_, closed_dropWhile hpre, hline, he, hx, hpost⟩
  rw [List.dropWhile_append]
  split
  · rename_i hp
    rw [List.isEmpty_iff.mp hp]
    -- a blank line is skipped, but `line` is not blank
    cases line with
    | nil => obtain ⟨x, hx, _⟩ := hx; cases hx
    | cons y line => exact List.dropWhile_cons_of_neg (by simp [(hline y (by simp)).2])
  · rfl

theorem stray_cut {k v w : List α} {c e₀ : α} {blank : α → Bool} (hk : ∀ x ∈ k, sep x = false)
    (hc : sep c = true) (hv : ∀ x ∈ v, term x = false) (he₀ : term e₀ = true) :
    Stray sep term blank (k ++ c :: (v ++ e₀ :: w)) ↔
      (∃ x ∈ k.dropWhile (fun x => blank x || term x), term x = true) ∨
        Stray sep term blank (w.dropWhile term) := by
  refine ⟨fun h => ?_, fun h => ?_⟩
  · obtain ⟨pre, line, e, post, hs, hpre, hline, he, hx, hpost⟩ := h
    have hs' : k ++ c :: (v ++ e₀ :: w) = (pre ++ line) ++ e :: post := by rw [hs]; simp
    rcases List.append_eq_append_iff.mp hs' with ⟨a, ha, ha'⟩ | ⟨a, rfl, ha⟩
    · right
      obtain ⟨b, hbne, hb, hvb⟩ := line_behind hst hc hpre (fun x hx => (hline x hx).1) he ha ha'
      obtain ⟨b', rfl, rfl⟩ := closed_split hv hb hbne hvb
      exact Stray.dropWhile ⟨b', line, e, post, rfl, closed_cons_append hb, hline, he, hx, hpost⟩
    · left
      cases a with
      | nil =>
        obtain ⟨h, _⟩ := List.cons_eq_cons.mp ha
        rw [h, hst c hc] at he; cases he
      | cons e' a =>
        obtain ⟨rfl, _⟩ := List.cons_eq_cons.mp ha
        obtain ⟨x, hx, hbx⟩ := hx
        refine ⟨e, mem_dropWhile_append (List.mem_append_right pre hx) ?_, he⟩
        simp [hbx, (hline x hx).2]
  · rcases h with h | h
    · exact stray_head hk hc he₀ h
    · have hw : k ++ c :: (v ++ e₀ :: w) = (k ++ c :: v) ++ e₀ :: w.takeWhile term ++ w.dropWhile term := by
        simp [List.takeWhile_append_dropWhile]
      rw [hw]
      apply h.append_left
      rw [closed_append (by simp)]
      apply closed_of_all
      exact List.forall_mem_cons.mpr ⟨he₀, fun x hx => List.mem_takeWhile_imp hx⟩

/-- Each trimmed key lies on one line exactly if no line is stray. -/
theorem trim_oneLine_iff (blank : α → Bool) (s : List α) :
    (∀ p ∈ records sep term s, ∀ x ∈ p.1.dropWhile (fun x => blank x || term x), term x = false) ↔
      ¬ Stray sep term blank s := by
  induction s using records.induct sep term with
  | case1 s hs =>
    rw [records_none hs]
    exact ⟨fun _ h => next_none_iff.mp hs h.hasRecord, fun _ p hp => by cases hp⟩
  | case2 s p r hs ih =>
    obtain ⟨k, v⟩ := p
    rw [records_some hs]
    obtain ⟨c, e, w, rfl, hk, hc, hv, he, rfl⟩ := next_some hs
    rw [stray_cut hst hk hc hv he, List.forall_mem_cons, ih]
    simp only [not_or, not_exists, not_and, Bool.not_eq_true]

end

section
variable {α : Type*} {sep term : α → Bool}

theorem value_oneLine (s : List α) : ∀ p ∈ records sep term s, ∀ x ∈ p.2, term x = false := by
  induction s using records.induct sep term with
  | case1 s hs => rw [records_none hs]; intro p hp; cases hp
  | case2 s p r hs ih =>
    obtain ⟨k, v⟩ := p
    rw [records_some hs, List.forall_mem_cons]
    obtain ⟨_, _, _, _, _, _, hv, _⟩ := next_some hs
    exact ⟨hv, ih⟩

/-! ## Writing records -/

def encode (c : α) (eol : List α) (ps : List (List α × List α)) : List α :=
  ps.flatMap fun p => p.1 ++ c :: (p.2 ++ eol)

theorem encode_cons (c : α) (eol k v : List α) (ps : List (List α × List α)) :
    encode c eol ((k, v) :: ps) = k ++ c :: (v ++ (eol ++ encode c eol ps)) := by
  simp [encode]

section
variable {c : α} {eol : List α} (hc : sep c = true) (hct : term c = false) (hne : eol ≠ [])
  (heol : ∀ x ∈ eol, term x = true)
include hc hct hne heol

omit hc hne heol in
theorem dropWhile_eol_encode {ps : List (List α × List α)} (hk : ∀ p ∈ ps, ∀ x ∈ p.1, term x = false)
    {b : List α} (hb : ∀ x ∈ b, term x = true) :
    (encode c eol ps ++ b).dropWhile term = if ps = [] then [] else encode c eol ps ++ b := by
  cases ps with
  | nil => simpa [encode] using hb
  | cons p ps =>
    obtain ⟨k, v⟩ := p
    rw [encode_cons]
    cases k with
    | nil => simp [hct]
    | cons x k => simp [hk (x :: k, v) (by simp) x (by simp)]

theorem records_encode_cons {k v : List α} {ps : List (List α × List α)}
    (hk : ∀ p ∈ ps, ∀ x ∈ p.1, term x = false) (hks : ∀ x ∈ k, sep x = false)
    (hv : ∀ x ∈ v, term x = false) {b : List α} (hb : ∀ x ∈ b, term x = true) :
    records sep term (k ++ c :: (v ++ (eol ++ encode c eol ps)) ++ b) =
      (k, v) :: records sep term (if ps = [] then [] else encode c eol ps ++ b) := by
  obtain ⟨e, eol', rfl⟩ := List.exists_cons_of_ne_nil hne
  have hs : k ++ c :: (v ++ (e :: eol' ++ encode c (e :: eol') ps)) ++ b =
      k ++ c :: (v ++ e :: (eol' ++ (encode c (e :: eol') ps ++ b))) := by simp
  rw [hs, records_some (next_cut hks hc hv (heol e (by simp)))]
  rw [List.dropWhile_append_of_pos fun x hx => heol x (List.mem_cons_of_mem _ hx)]
  rw [dropWhile_eol_encode hct hk hb]

theorem records_encode {ps : List (List α × List α)}
    (hk : ∀ p ∈ ps, ∀ x ∈ p.1, sep x = false ∧ term x = false) (hv : ∀ p ∈ ps, ∀ x ∈ p.2, term x = false)
    {b : List α} (hb : ∀ x ∈ b, term x = true) (hbs : ∀ x ∈ b, sep x = false) :
    records sep term (encode c eol ps ++ b) = ps := by
  induction ps with
  | nil =>
    apply records_eq_nil_iff.mpr
    intro h
    obtain ⟨u, c', y, hu, hc', _⟩ := h
    have := hbs c' (by simp only [encode, List.flatMap_nil, List.nil_append] at hu; simp [hu])
    rw [hc'] at this; cases this
  | cons p ps ih =>
    obtain ⟨k, v⟩ := p
    rw [encode_cons, records_encode_cons hc hct hne heol
      (fun p hp x hx => (hk p (List.mem_cons_of_mem _ hp) x hx).2) (fun x hx => (hk (k, v) (by simp) x hx).1)
      (hv (k, v) (by simp)) hb]
    congr 1
    split
    · rename_i h; rw [h, records_nil]
    · exact ih (fun p hp => hk p (List.mem_cons_of_mem _ hp)) (fun p hp => hv p (List.mem_cons_of_mem _ hp))

end

end

end Records
