import RenderMq.Lib.Run
import Mathlib.Order.Lattice.Nat

/-!
# Runs that go on for ever

A run that goes on for ever is a sequence of states, each a step after the one before. It keeps what
every step keeps (`Endless.invariant`). A quantity that no step makes smaller, and that has a bound, is
the same from some time on (`eventually_constant`).
-/

namespace Run

variable {σ ε : Type*} {step : σ → ε → Option σ} {s : σ} {states : Nat → σ}

structure Endless (step : σ → ε → Option σ) (s : σ) (states : Nat → σ) : Prop where
  start : states 0 = s
  steps : ∀ k, ∃ e, step (states k) e = some (states (k + 1))

theorem Endless.invariant {Inv : σ → Prop} (h : Endless step s states) (hstart : Inv s)
    (preserved : ∀ s e t, Inv s → step s e = some t → Inv t) : ∀ k, Inv (states k) := by
  intro k
  induction k with
  | zero => rwa [h.start]
  | succ k ih =>
    obtain ⟨e, he⟩ := h.steps k
    exact preserved _ e _ ih he

/-- Where an invariant lets a step be chosen that keeps it, the run of these steps goes on for ever. -/
theorem endless_iterate {Inv : σ → Prop} {next : σ → σ} (hstart : Inv s)
    (hnext : ∀ s, Inv s → Inv (next s) ∧ ∃ e, step s e = some (next s)) :
    Endless step s (fun k => next^[k] s) ∧ ∀ k, Inv (next^[k] s) := by
  have hinv : ∀ k, Inv (next^[k] s) := by
    intro k
    induction k with
    | zero => exact hstart
    | succ k ih =>
      rw [Function.iterate_succ_apply']
      exact (hnext _ ih).1
  refine ⟨⟨rfl, fun k => ?_⟩, hinv⟩
  obtain ⟨e, he⟩ := (hnext _ (hinv k)).2
  refine ⟨e, ?_⟩
  show step _ e = some (next^[k + 1] s)
  rw [Function.iterate_succ_apply', he]

theorem eventually_constant {f : Nat → Nat} {bound : Nat} (hstep : ∀ k, f k ≤ f (k + 1))
    (hbound : ∀ k, f k ≤ bound) : ∃ k, ∀ j ≥ k, f j = f k := by
  have hbdd : BddAbove (Set.range f) := ⟨bound, by rintro _ ⟨k, rfl⟩; exact hbound k⟩
  obtain ⟨k, hk⟩ := Nat.sSup_mem (Set.range_nonempty f) hbdd
  refine ⟨k, fun j hj => ?_⟩
  have hle : f j ≤ f k := hk ▸ le_csSup hbdd (Set.mem_range_self j)
  exact hle.antisymm (monotone_nat_of_le_succ hstep hj)

end Run
