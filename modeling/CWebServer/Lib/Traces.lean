import Mathlib.Data.Option.Basic

/-!
# Traces of calls

A call returns a result and the next state, or faults (`none`). `trace` makes
the calls of a list one after the other. `trace_simulates` carries a simulation
of one call over to a list of calls.
-/

namespace Traces

section
variable {σ τ α β : Type*}

def trace (f : σ → α → Option (β × σ)) : σ → List α → Option (List β × σ)
  | s, [] => some ([], s)
  | s, a :: as => (f s a).bind fun r => (trace f r.2 as).map fun rs => (r.1 :: rs.1, rs.2)

/-- The trace of calls that never fault. -/
def outputs (g : τ → α → β × τ) : τ → List α → List β × τ
  | t, [] => ([], t)
  | t, a :: as => ((g t a).1 :: (outputs g (g t a).2 as).1, (outputs g (g t a).2 as).2)

theorem trace_cons {f : σ → α → Option (β × σ)} {s s' : σ} {a : α} {b : β} (h : f s a = some (b, s')) (as : List α) :
    trace f s (a :: as) = (trace f s' as).map fun rs => (b :: rs.1, rs.2) := by
  rw [trace, h, Option.bind_some]

theorem trace_cons_cases {f : σ → α → Option (β × σ)} {s t : σ} {a : α} {as : List α} {bs : List β}
    (h : trace f s (a :: as) = some (bs, t)) :
    ∃ b s' bs', f s a = some (b, s') ∧ trace f s' as = some (bs', t) ∧ bs = b :: bs' := by
  rw [trace] at h
  obtain ⟨⟨b, s'⟩, hf, h⟩ := Option.bind_eq_some_iff.mp h
  obtain ⟨⟨bs', t'⟩, ht, h⟩ := Option.map_eq_some_iff.mp h
  cases h
  exact ⟨b, s', bs', hf, ht, rfl⟩

theorem outputs_invariant {g : τ → α → β × τ} {I : τ → Prop} (hstep : ∀ t a, I t → I (g t a).2) {t : τ} (h : I t)
    (as : List α) : I (outputs g t as).2 := by
  induction as generalizing t with
  | nil => exact h
  | cons a as ih => exact ih (hstep t a h)

theorem trace_simulates {f : σ → α → Option (β × σ)} {g : τ → α → β × τ} {R : σ → τ → Prop}
    (hstep : ∀ s t a, R s t → ∃ s', f s a = some ((g t a).1, s') ∧ R s' (g t a).2) {s : σ} {t : τ} (h : R s t)
    (as : List α) : ∃ s', trace f s as = some ((outputs g t as).1, s') ∧ R s' (outputs g t as).2 := by
  induction as generalizing s t with
  | nil => exact ⟨s, rfl, h⟩
  | cons a as ih =>
    obtain ⟨s', hf, hs'⟩ := hstep s t a h
    obtain ⟨s'', htrace, hs''⟩ := ih hs'
    refine ⟨s'', ?_, hs''⟩
    rw [trace_cons hf, htrace]
    rfl

end

end Traces
