import Mathlib.Logic.Basic

/-! Forward simulation of a machine whose steps can fail by a total abstract machine. -/

namespace Simulation

variable {σ α ι : Type*}

/-- Run the inputs in order, stopping at the first failure. -/
def execute (step : σ → ι → Option σ) : σ → List ι → Option σ
  | state, [] => some state
  | state, input :: rest => (step state input).bind fun state' => execute step state' rest

/-- Every input is admitted by `pre` in the abstract state the earlier inputs lead to. -/
def Admissible (pre : α → ι → Prop) (spec : α → ι → α) : α → List ι → Prop
  | _, [] => True
  | model, input :: rest => pre model input ∧ Admissible pre spec (spec model input) rest

/-- One concrete step simulates one abstract step, from every state keeping `inv`. -/
def StepRefines (step : σ → ι → Option σ) (spec : α → ι → α) (pre : α → ι → Prop)
    (inv : σ → Prop) (abs : σ → α) : Prop :=
  ∀ state input, inv state → pre (abs state) input →
    ∃ state', step state input = some state' ∧ inv state' ∧ abs state' = spec (abs state) input

@[simp] theorem execute_nil (step : σ → ι → Option σ) (state : σ) :
    execute step state [] = some state := rfl

theorem execute_cons (step : σ → ι → Option σ) (state : σ) (input : ι) (rest : List ι) :
    execute step state (input :: rest) =
      (step state input).bind fun state' => execute step state' rest := rfl

variable {step : σ → ι → Option σ} {spec : α → ι → α} {pre : α → ι → Prop}
  {inv : σ → Prop} {abs : σ → α}

theorem execute_refines (refines : StepRefines step spec pre inv abs) :
    ∀ (inputs : List ι) (state : σ), inv state → Admissible pre spec (abs state) inputs →
      ∃ state', execute step state inputs = some state' ∧ inv state' ∧
        abs state' = inputs.foldl spec (abs state)
  | [], state, holds, _ => ⟨state, rfl, holds, rfl⟩
  | input :: rest, state, holds, ⟨admitted, later⟩ => by
      obtain ⟨state', stepped, holds', commutes⟩ := refines state input holds admitted
      rw [← commutes] at later
      obtain ⟨final, ran, holdsFinal, commutesFinal⟩ :=
        execute_refines refines rest state' holds' later
      refine ⟨final, ?_, holdsFinal, ?_⟩
      · rw [execute_cons, stepped, Option.bind_some, ran]
      · rw [commutesFinal, commutes, List.foldl_cons]

end Simulation
