/-!
# Iterate — `while` loops that return when their step does

A C loop `while (step (s)) ;` is modelled by a partial step `σ → Option σ` and run with a bound
on the number of rounds.  `iterate_final` is the termination half: when every step decreases a
measure, that measure is a sufficient bound.
-/

namespace CamAlias
namespace Lib

variable {σ : Type _}

/-- Run `step` until it returns `none`, for at most `fuel` rounds. -/
def iterate (step : σ → Option σ) : Nat → σ → σ
  | 0, s => s
  | fuel + 1, s =>
      match step s with
      | some s' => iterate step fuel s'
      | none => s

/-- What one step preserves, the loop preserves. -/
theorem iterate_induction {step : σ → Option σ} (P : σ → Prop)
    (hstep : ∀ s s', step s = some s' → P s → P s') :
    ∀ (fuel : Nat) (s : σ), P s → P (iterate step fuel s) := by
  intro fuel
  induction fuel with
  | zero =>
      intro s hs
      exact hs
  | succ fuel ih =>
      intro s hs
      cases h : step s with
      | none => simpa [iterate, h] using hs
      | some s' => simpa [iterate, h] using ih s' (hstep s s' h hs)

/-- With as many rounds as the measure of the start, the loop really ends: its result is stuck. -/
theorem iterate_final {step : σ → Option σ} (μ : σ → Nat)
    (hμ : ∀ s s', step s = some s' → μ s' < μ s) :
    ∀ (fuel : Nat) (s : σ), μ s ≤ fuel → step (iterate step fuel s) = none := by
  intro fuel
  induction fuel with
  | zero =>
      intro s hs
      cases h : step s with
      | none => simpa [iterate] using h
      | some s' =>
          have := hμ s s' h
          omega
  | succ fuel ih =>
      intro s hs
      cases h : step s with
      | none => simp [iterate, h]
      | some s' =>
          have hlt := hμ s s' h
          simpa [iterate, h] using ih s' (by omega)

/-- Two loops whose steps agree on every state of the run agree. -/
theorem map_iterate {τ : Type _} {step : σ → Option σ} {step' : τ → Option τ} (f : σ → τ)
    (P : τ → Prop) (hstep : ∀ s s', step' s = some s' → P s → P s')
    (hagree : ∀ s, P (f s) → (step s).map f = step' (f s)) :
    ∀ (fuel : Nat) (s : σ), P (f s) → f (iterate step fuel s) = iterate step' fuel (f s) := by
  intro fuel
  induction fuel with
  | zero =>
      intro s _
      rfl
  | succ fuel ih =>
      intro s hs
      have hmap := hagree s hs
      cases h : step s with
      | none =>
          rw [h, Option.map_none] at hmap
          simp [iterate, h, ← hmap]
      | some s' =>
          rw [h, Option.map_some] at hmap
          simpa [iterate, h, ← hmap] using ih s' (hstep _ _ hmap.symm hs)

end Lib
end CamAlias
