import Mathlib.Logic.Relation

namespace SpSync.Foundation

variable {State Input : Type}

/-- The machine goes from one state to another in steps that all meet the condition. -/
def Runs (step : State → Input → State) (allowed : State → Input → Prop) : State → State → Prop :=
  Relation.ReflTransGen fun state next => ∃ input, allowed state input ∧ next = step state input

namespace Runs

variable {step : State → Input → State} {allowed : State → Input → Prop} {start state : State}

theorem refl (state : State) : Runs step allowed state state :=
  Relation.ReflTransGen.refl

theorem tail {input : Input} (run : Runs step allowed start state) (meets : allowed state input) :
    Runs step allowed start (step state input) :=
  Relation.ReflTransGen.tail run ⟨input, meets, rfl⟩

/-- What every allowed step keeps holds at the end of a run. -/
theorem keeps {invariant : State → Prop} (run : Runs step allowed start state) (initial : invariant start)
    (preserved : ∀ state input, invariant state → allowed state input → invariant (step state input)) :
    invariant state := by
  induction run with
  | refl => exact initial
  | tail _ next ih =>
    obtain ⟨input, meets, rfl⟩ := next
    exact preserved _ input ih meets

end Runs

end SpSync.Foundation
