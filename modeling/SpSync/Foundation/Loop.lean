import SpSync.Foundation.Effect

namespace SpSync.Foundation.Effect

variable {Err State Handle : Type}

/-- The turns of a loop, which ends when a turn leaves no handle, and after the number of turns. -/
def loop (turn : Handle → Effect Err State (Option Handle)) : Nat → Option Handle → Effect Err State Unit
  | 0, _ => pure ()
  | _ + 1, none => pure ()
  | turns + 1, some handle => do loop turn turns (← turn handle)

/-- The loop ends by itself with the result. -/
inductive LoopEnds (turn : Handle → Effect Err State (Option Handle)) :
    Option Handle → State → EStateM.Result Err State Unit → Prop
  | done (state : State) : LoopEnds turn none state (.ok () state)
  | fails {handle : Handle} {state reached : State} {err : Err} (failed : (turn handle).run state = .error err reached) :
      LoopEnds turn (some handle) state (.error err reached)
  | turns {handle : Handle} {next : Option Handle} {state reached : State} {result : EStateM.Result Err State Unit}
      (turned : (turn handle).run state = .ok next reached) (rest : LoopEnds turn next reached result) :
      LoopEnds turn (some handle) state result

variable {turn : Handle → Effect Err State (Option Handle)}

theorem loop_none (turns : Nat) : loop turn turns none = pure () := by
  cases turns <;> rfl

/-- A loop whose turns lose weight ends by itself, before it is cut off. -/
theorem loopEnds_of_weight (ready : Option Handle → State → Prop) (weight : Handle → State → Nat)
    (each : ∀ handle state next reached, ready (some handle) state → (turn handle).run state = .ok next reached →
      ready next reached ∧ ∀ following, next = some following → weight following reached < weight handle state)
    (turns : Nat) (first : Option Handle) (state : State) (start : ready first state)
    (enough : ∀ handle, first = some handle → weight handle state < turns) :
    LoopEnds turn first state ((loop turn turns first).run state) := by
  induction turns generalizing first state with
  | zero =>
    cases first with
    | none => exact .done state
    | some handle => exact absurd (enough handle rfl) (Nat.not_lt_zero _)
  | succ turns ih =>
    cases first with
    | none => exact .done state
    | some handle =>
      rw [loop, run_bind]
      cases turned : (turn handle).run state with
      | error err reached => exact .fails turned
      | ok next reached =>
        obtain ⟨kept, lighter⟩ := each handle state next reached start turned
        refine .turns turned (ih next reached kept ?_)
        intro following same
        have before := enough handle rfl
        have after := lighter following same
        omega

/-- What every turn keeps is true of the end of a loop, or of the turn that failed. -/
theorem LoopEnds.keeps {first : Option Handle} {state : State} {result : EStateM.Result Err State Unit}
    (ends : LoopEnds turn first state result) (ready : Option Handle → State → Prop)
    (each : ∀ handle state next reached, ready (some handle) state → (turn handle).run state = .ok next reached →
      ready next reached)
    (start : ready first state) :
    (∃ reached, result = .ok () reached ∧ ready none reached) ∨
      ∃ handle before err reached, ready (some handle) before ∧ (turn handle).run before = .error err reached ∧
        result = .error err reached := by
  induction ends with
  | done state => exact .inl ⟨state, rfl, start⟩
  | fails failed => exact .inr ⟨_, _, _, _, start, failed, rfl⟩
  | turns turned rest ih => exact ih (each _ _ _ _ start turned)

end SpSync.Foundation.Effect
