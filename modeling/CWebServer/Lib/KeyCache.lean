import Mathlib.Data.List.Chain

/-!
# A cache of one entry, found by a key

The cache holds the last value of `f` with its argument, and compares arguments
by their keys only. What it serves is right in a whole run if and only if no
argument follows another one with a value and the same key.
-/

namespace KeyCache

section
variable {α β κ : Type*} [DecidableEq κ] (key : α → κ) (f : α → Option β)

/-- What is held after a request for `a`. -/
def lookup (held : Option (α × β)) (a : α) : Option (α × β) :=
  match held with
  | some (a₀, b) => if key a₀ = key a then some (a₀, b) else (f a).map (a, ·)
  | none => (f a).map (a, ·)

def served : Option (α × β) → List α → List (α × Option (α × β))
  | _, [] => []
  | held, a :: as => (a, lookup key f held a) :: served (lookup key f held a) as

/-- What is held is the value of `a`, found for `a`. -/
def Own (a : α) (held : Option (α × β)) : Prop := ∀ e ∈ held, e.1 = a ∧ f a = some e.2

def Clear (a₀ a : α) : Prop := (f a₀).isSome → key a₀ = key a → a₀ = a

/-- What is held after a request for `prev` that was answered right. -/
def fresh (prev : Option α) : Option (α × β) := prev.bind fun a => (f a).map (a, ·)

variable {key f} {prev : Option α} {a : α}

theorem own_map (a : α) : Own f a ((f a).map (a, ·)) := by
  intro e he
  obtain ⟨b, hb, rfl⟩ := Option.map_eq_some_iff.mp he
  exact ⟨rfl, hb⟩

theorem lookup_fresh (h : ∀ a₀ ∈ prev, Clear key f a₀ a) : lookup key f (fresh f prev) a = (f a).map (a, ·) := by
  cases prev with
  | none => rfl
  | some a₀ =>
    have hclear := h a₀ rfl
    unfold fresh lookup
    cases hf : f a₀ with
    | none => simp [hf]
    | some b =>
      by_cases hk : key a₀ = key a
      · obtain rfl := hclear (by rw [hf]; rfl) hk
        simp [hf]
      · simp [hf, hk]

theorem own_lookup_iff : Own f a (lookup key f (fresh f prev) a) ↔ ∀ a₀ ∈ prev, Clear key f a₀ a := by
  constructor
  · intro h a₀ hprev hsome hk
    obtain ⟨b, hb⟩ := Option.isSome_iff_exists.mp hsome
    have hheld : lookup key f (fresh f prev) a = some (a₀, b) := by
      rw [Option.mem_def.mp hprev]
      simp [fresh, lookup, hb, hk]
    exact (h (a₀, b) hheld).1
  · intro h
    rw [lookup_fresh h]
    exact own_map a

theorem isChain_toList {R : α → α → Prop} (as : List α) :
    List.IsChain R (prev.toList ++ a :: as) ↔ (∀ a₀ ∈ prev, R a₀ a) ∧ List.IsChain R (a :: as) := by
  cases prev with
  | none => simp
  | some a₀ => simp [List.isChain_cons_cons]

theorem served_own_iff (as : List α) :
    (∀ p ∈ served key f (fresh f prev) as, Own f p.1 p.2) ↔ List.IsChain (Clear key f) (prev.toList ++ as) := by
  induction as generalizing prev with
  | nil =>
    cases prev <;> simp [served]
  | cons a as ih =>
    rw [served, List.forall_mem_cons, own_lookup_iff, isChain_toList]
    apply and_congr_right
    intro h
    have hheld : lookup key f (fresh f prev) a = fresh f (some a) := lookup_fresh h
    rw [hheld]
    exact ih

end

end KeyCache
