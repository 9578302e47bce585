import CWebServer.Lib.Runs

/-!
# Simulation of runs

A step of the concrete system shows an event or none. If every step keeps a
relation to the abstract system, the events of a run are a run of the abstract
system (`run_simulates`). The guard `W` says which steps are looked at.
-/

namespace Simulation

open Runs (run Along)

section
variable {σ α τ β : Type*} (step : σ → α → σ) (event : σ → α → Option β) (abs : τ → β → Option τ)

/-- The events that a run shows, in their order. -/
def events : σ → List α → List β
  | _, [] => []
  | s, a :: as => (event s a).toList ++ events (step s a) as

variable {step event abs}

theorem run_simulates {R : σ → τ → Prop} {W : σ → α → Prop}
    (hstep : ∀ s t a, R s t → W s a → ∃ t', (event s a).toList.foldlM abs t = some t' ∧ R (step s a) t') {s : σ} {t : τ}
    (h : R s t) {as : List α} (hw : Along step W s as) :
    ∃ t', (events step event s as).foldlM abs t = some t' ∧ R (run step s as) t' := by
  induction as generalizing s t with
  | nil => exact ⟨t, rfl, h⟩
  | cons a as ih =>
    obtain ⟨t', hone, hrel⟩ := hstep s t a h hw.1
    obtain ⟨t'', hrest, hrel'⟩ := ih hrel hw.2
    refine ⟨t'', ?_, hrel'⟩
    rw [events, List.foldlM_append, hone]
    exact hrest

end

end Simulation
