import Mathlib.Order.Basic

/-! Loops that repeat a pass until it breaks, run with fuel. -/

namespace FuelLoop

variable {σ : Type*} (step : σ → σ × Bool) (loop : ℕ → σ → σ)
  (loop_succ : ∀ fuel s, loop (fuel + 1) s = if (step s).2 then (step s).1 else loop fuel (step s).1)
  (Inv Done : σ → Prop) (measure : σ → ℕ)
  (passes : ∀ s, Inv s → 0 < measure s →
    ((step s).2 = false ∧ Inv (step s).1 ∧ 0 < measure (step s).1 ∧ measure (step s).1 < measure s) ∨
      ((step s).2 = true ∧ Done (step s).1))

include loop_succ passes in
theorem run_done (fuel : ℕ) : ∀ s, Inv s → 0 < measure s → measure s ≤ fuel → Done (loop fuel s) := by
  induction fuel with
  | zero =>
    intro s _ positive bounded
    omega
  | succ fuel ih =>
    intro s valid positive bounded
    rw [loop_succ]
    rcases passes s valid positive with ⟨going, valid', positive', fewer⟩ | ⟨stopped, done⟩
    · rw [if_neg (by rw [going]; decide)]
      exact ih _ valid' positive' (by omega)
    · rw [if_pos stopped]
      exact done

end FuelLoop
