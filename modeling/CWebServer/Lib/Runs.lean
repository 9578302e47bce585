import Mathlib.Data.List.Basic

/-!
# Runs of a step function

`run step s as` is the state behind the actions `as`. `run_invariant` is the
induction over a run, `prefixes_iff` its form for an invariant that a step may
break, `Reaches.rounds` builds a run of many alike rounds.
-/

namespace Runs

section
variable {σ α : Type*} (step : σ → α → σ)

def run (s : σ) (as : List α) : σ := as.foldl step s

@[simp] theorem run_nil (s : σ) : run step s [] = s := rfl

@[simp] theorem run_cons (s : σ) (a : α) (as : List α) : run step s (a :: as) = run step (step s a) as := rfl

theorem run_append (s : σ) (as bs : List α) : run step s (as ++ bs) = run step (run step s as) bs :=
  List.foldl_append

def Reaches (s t : σ) : Prop := ∃ as, run step s as = t

/-- Each action is taken in a state that allows it. -/
def Along (G : σ → α → Prop) : σ → List α → Prop
  | _, [] => True
  | s, a :: as => G s a ∧ Along G (step s a) as

variable {step} {I : σ → Prop}

theorem run_invariant (hstep : ∀ s a, I s → I (step s a)) {s : σ} (h : I s) (as : List α) :
    I (run step s as) := by
  induction as generalizing s with
  | nil => exact h
  | cons a as ih => exact ih (hstep s a h)

theorem run_invariant_along {W : σ → α → Prop} (hstep : ∀ s a, I s → W s a → I (step s a)) {s : σ} (h : I s)
    {as : List α} (hw : Along step W s as) : I (run step s as) := by
  induction as generalizing s with
  | nil => exact h
  | cons a as ih => exact ih (hstep s a h hw.1) hw.2

theorem Along.and_forall {G : σ → α → Prop} {P : α → Prop} {s : σ} {as : List α} (h : Along step G s as)
    (hp : ∀ a ∈ as, P a) : Along step (fun s a => P a ∧ G s a) s as := by
  induction as generalizing s with
  | nil => exact trivial
  | cons a as ih =>
    exact ⟨⟨hp a List.mem_cons_self, h.1⟩, ih h.2 fun b hb => hp b (List.mem_cons_of_mem _ hb)⟩

theorem Along.and {G W : σ → α → Prop} {s : σ} {as : List α} (hg : Along step G s as) (hw : Along step W s as) :
    Along step (fun s a => G s a ∧ W s a) s as := by
  induction as generalizing s with
  | nil => exact trivial
  | cons a as ih => exact ⟨⟨hg.1, hw.1⟩, ih hg.2 hw.2⟩

/-- What an invariant allows holds at each action. -/
theorem Along.of_invariant {G W : σ → α → Prop} (hstep : ∀ s a, I s → W s a → I (step s a))
    (himp : ∀ s a, I s → W s a → G s a) {s : σ} (h : I s) {as : List α} (hw : Along step W s as) :
    Along step G s as := by
  induction as generalizing s with
  | nil => exact trivial
  | cons a as ih => exact ⟨himp s a h hw.1, ih (hstep s a h hw.1) hw.2⟩

theorem along_true (s : σ) (as : List α) : Along step (fun _ _ => True) s as := by
  induction as generalizing s with
  | nil => exact trivial
  | cons a as ih => exact ⟨trivial, ih _⟩

theorem prefixes_iff_along {W G : σ → α → Prop} (hstep : ∀ s a, I s → W s a → (I (step s a) ↔ G s a)) {s : σ}
    (h : I s) {as : List α} (hw : Along step W s as) :
    (∀ bs, bs <+: as → I (run step s bs)) ↔ Along step G s as := by
  induction as generalizing s with
  | nil =>
    refine ⟨fun _ => trivial, fun _ bs hbs => ?_⟩
    rw [List.prefix_nil.mp hbs]; exact h
  | cons a as ih =>
    refine ⟨fun hp => ?_, fun ha bs hbs => ?_⟩
    · have ha : I (step s a) := hp [a] ((List.prefix_cons_inj a).mpr List.nil_prefix)
      refine ⟨(hstep s a h hw.1).mp ha, (ih ha hw.2).mp fun bs hbs => ?_⟩
      exact hp (a :: bs) ((List.prefix_cons_inj a).mpr hbs)
    · rcases List.prefix_cons_iff.mp hbs with rfl | ⟨cs, rfl, hcs⟩
      · exact h
      · exact (ih ((hstep s a h hw.1).mpr ha.1) hw.2).mpr ha.2 cs hcs

theorem prefixes_iff {G : σ → α → Prop} (hstep : ∀ s a, I s → (I (step s a) ↔ G s a)) {s : σ} (h : I s)
    (as : List α) : (∀ bs, bs <+: as → I (run step s bs)) ↔ Along step G s as :=
  prefixes_iff_along (fun s a h _ => hstep s a h) h (along_true s as)

theorem Reaches.run (s : σ) (as : List α) : Reaches step s (run step s as) := ⟨as, rfl⟩

theorem Reaches.refl (s : σ) : Reaches step s s := ⟨[], rfl⟩

theorem Reaches.trans {s t u : σ} (hst : Reaches step s t) (htu : Reaches step t u) : Reaches step s u := by
  obtain ⟨as, rfl⟩ := hst
  obtain ⟨bs, rfl⟩ := htu
  exact ⟨as ++ bs, run_append step s as bs⟩

theorem Reaches.invariant (hstep : ∀ s a, I s → I (step s a)) {s t : σ} (h : Reaches step s t) (hs : I s) : I t := by
  obtain ⟨as, rfl⟩ := h
  exact run_invariant hstep hs as

theorem Reaches.rounds {P : Nat → σ → Prop} (hround : ∀ k s, P k s → ∃ t, Reaches step s t ∧ P (k + 1) t)
    {k : Nat} {s : σ} (h : P k s) (m : Nat) : ∃ t, Reaches step s t ∧ P (k + m) t := by
  induction m with
  | zero => exact ⟨s, Reaches.refl s, h⟩
  | succ m ih =>
    obtain ⟨t, hst, ht⟩ := ih
    obtain ⟨u, htu, hu⟩ := hround (k + m) t ht
    exact ⟨u, hst.trans htu, hu⟩

end

end Runs
