import Mathlib.Data.List.Basic

/-!
# Stacked blocks

Blocks of a bump allocator, the newest first. Each new one lies behind the
ones before it, and a release keeps those that end at or below a position.
-/

namespace Blocks

structure Block where
  start : Nat
  stop : Nat
  deriving DecidableEq, Repr

def Apart (b c : Block) : Prop := b.stop ≤ c.start ∨ c.stop ≤ b.start

structure Packed (lo top : Nat) (bs : List Block) : Prop where
  stacked : bs.Pairwise fun b c => c.stop ≤ b.start
  within : ∀ b ∈ bs, lo ≤ b.start ∧ b.stop ≤ top

def release (p : Nat) (bs : List Block) : List Block := bs.filter fun b => b.stop ≤ p

variable {lo top top' : Nat} {bs : List Block}

theorem packed_nil : Packed lo top [] where
  stacked := List.Pairwise.nil
  within := fun _ hb => absurd hb List.not_mem_nil

theorem Packed.apart (h : Packed lo top bs) : bs.Pairwise Apart := h.stacked.imp Or.inr

theorem Packed.grow (h : Packed lo top bs) (htop : top ≤ top') : Packed lo top' bs :=
  { h with within := fun b hb => ⟨(h.within b hb).1, Nat.le_trans (h.within b hb).2 htop⟩ }

theorem Packed.push {b : Block} (h : Packed lo top bs) (hlo : lo ≤ b.start) (hb : top ≤ b.start)
    (htop : top ≤ top') (hstop : b.stop ≤ top') : Packed lo top' (b :: bs) where
  stacked := by
    apply List.Pairwise.cons
    · intro c hc
      exact Nat.le_trans (h.within c hc).2 hb
    · exact h.stacked
  within := by
    intro c hc
    cases List.mem_cons.mp hc with
    | inl he => subst he; exact ⟨hlo, hstop⟩
    | inr hc => exact (h.grow htop).within c hc

/-- The newest block ends somewhere else. -/
theorem Packed.extend {start stop stop' : Nat} (h : Packed lo top (⟨start, stop⟩ :: bs)) (htop : top ≤ top')
    (hstop : stop' ≤ top') : Packed lo top' (⟨start, stop'⟩ :: bs) where
  stacked := by
    obtain ⟨hhead, htail⟩ := List.pairwise_cons.mp h.stacked
    exact List.Pairwise.cons hhead htail
  within := by
    intro c hc
    rcases List.mem_cons.mp hc with rfl | hc
    · exact ⟨(h.within _ List.mem_cons_self).1, hstop⟩
    · exact (h.grow htop).within c (List.mem_cons_of_mem _ hc)

theorem Packed.release (h : Packed lo top bs) {p : Nat} (hp : min top p ≤ top') :
    Packed lo top' (release p bs) where
  stacked := h.stacked.filter _
  within := by
    intro b hb
    obtain ⟨hb, hstop⟩ := List.mem_filter.mp hb
    obtain ⟨hlo, htop⟩ := h.within b hb
    exact ⟨hlo, Nat.le_trans (Nat.le_min.mpr ⟨htop, of_decide_eq_true hstop⟩) hp⟩

end Blocks
