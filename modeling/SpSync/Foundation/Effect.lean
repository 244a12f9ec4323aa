import Mathlib.Logic.Relation

namespace SpSync.Foundation

/-- A computation that reads and changes a state and may fail with an error. -/
abbrev Effect (Err State : Type) := EStateM Err State

namespace Effect

variable {Err State A B : Type} {state reached : State} {effect : Effect Err State A} {next : A → Effect Err State B}
  {value : PUnit} {err : Err}

/-- The state in which the effect ends, also when it fails. -/
def final (effect : Effect Err State A) (state : State) : State :=
  match effect.run state with
  | .ok _ next => next
  | .error _ next => next

theorem run_pure (value : A) (state : State) : (pure value : Effect Err State A).run state = .ok value state := rfl

theorem run_get (state : State) : (get : Effect Err State State).run state = .ok state state := rfl

theorem run_set (next state : State) : (set next : Effect Err State PUnit).run state = .ok ⟨⟩ next := rfl

theorem set_ok {next : State} (done : (set next : Effect Err State PUnit).run state = .ok value reached) :
    reached = next := by
  cases done
  rfl

theorem modify_ok {change : State → State}
    (done : (modify change : Effect Err State PUnit).run state = .ok value reached) : reached = change state := by
  cases done
  rfl

theorem run_bind (effect : Effect Err State A) (next : A → Effect Err State B) (state : State) :
    (effect >>= next).run state = match effect.run state with
      | .ok value reached => (next value).run reached
      | .error err reached => .error err reached := by
  simp only [bind, EStateM.bind, EStateM.run]
  cases effect state <;> rfl

theorem run_ite {condition : Prop} [Decidable condition] (left right : Effect Err State A) (state : State) :
    (if condition then left else right).run state = if condition then left.run state else right.run state := by
  split <;> rfl

theorem run_tryCatch (effect : Effect Err State A) (handler : Err → Effect Err State A) (state : State) :
    (tryCatch effect handler : Effect Err State A).run state = match effect.run state with
      | .ok value reached => .ok value reached
      | .error err reached => (handler err).run reached := by
  change EStateM.tryCatch effect handler state = _
  delta EStateM.tryCatch EStateM.run
  cases effect state <;> rfl

/-- A sequence of effects succeeds when both do. -/
theorem run_bind_ok {last : State} {value : B} (done : (effect >>= next).run state = .ok value last) :
    ∃ middle reached, effect.run state = .ok middle reached ∧ (next middle).run reached = .ok value last := by
  rw [run_bind] at done
  cases first : effect.run state with
  | ok middle reached =>
    rw [first] at done
    exact ⟨middle, reached, rfl, done⟩
  | error err reached =>
    rw [first] at done
    cases done

/-- The effect does not fail. -/
def succeeds (effect : Effect Err State A) (state : State) : Bool :=
  match effect.run state with
  | .ok _ _ => true
  | .error _ _ => false

theorem exists_run_of_succeeds (done : effect.succeeds state = true) :
    ∃ value, effect.run state = .ok value (effect.final state) := by
  unfold succeeds at done
  unfold final
  cases result : effect.run state with
  | ok value reached => exact ⟨value, rfl⟩
  | error err reached =>
    rw [result] at done
    cases done

theorem final_of_ok {value : A} (done : effect.run state = .ok value reached) : effect.final state = reached := by
  simp [final, done]

theorem final_of_error (failed : effect.run state = .error err reached) : effect.final state = reached := by
  simp [final, failed]

theorem final_bind_ok {value : A} (done : effect.run state = .ok value reached) :
    (effect >>= next).final state = (next value).final reached := by
  unfold final
  rw [run_bind, done]

theorem final_bind_error (failed : effect.run state = .error err reached) :
    (effect >>= next).final state = reached := by
  unfold final
  rw [run_bind, failed]

/-- The effect goes through the state in steps of the relation. -/
def Steps (relation : State → State → Prop) (effect : Effect Err State A) (state : State) : Prop :=
  Relation.ReflTransGen relation state (effect.final state)

namespace Steps

variable {relation : State → State → Prop} {state : State} {effect : Effect Err State A}
  {wider : State → State → Prop}

theorem pure (value : A) : Steps relation (Pure.pure value : Effect Err State A) state :=
  .refl

theorem throw (err : Err) : Steps relation (MonadExcept.throw err : Effect Err State A) state :=
  .refl

theorem modify {change : State → State} (step : relation state (change state)) :
    Steps relation (modify change : Effect Err State PUnit) state :=
  .single step

theorem set {next : State} (step : relation state next) :
    Steps relation (MonadStateOf.set next : Effect Err State PUnit) state :=
  .single step

/-- What every step keeps, the effect keeps. -/
theorem keeps (steps : Steps relation effect state) (keep : State → Prop)
    (each : ∀ before after, relation before after → keep before → keep after) (start : keep state) :
    keep (effect.final state) := by
  unfold Steps at steps
  generalize effect.final state = reached at steps ⊢
  induction steps with
  | refl => exact start
  | tail _ step ih => exact each _ _ step ih

theorem mono (steps : Steps relation effect state)
    (widen : ∀ before after, relation before after → wider before after) : Steps wider effect state :=
  Relation.ReflTransGen.mono widen _ _ steps

/-- What every step keeps may be used to widen the steps. -/
theorem widen (steps : Steps relation effect state) (keep : State → Prop)
    (each : ∀ before after, relation before after → keep before → keep after ∧ wider before after)
    (start : keep state) : Steps wider effect state := by
  unfold Steps at steps ⊢
  generalize effect.final state = reached at steps ⊢
  suffices both : keep reached ∧ Relation.ReflTransGen wider state reached from both.2
  induction steps with
  | refl => exact ⟨start, .refl⟩
  | tail _ step ih =>
    obtain ⟨kept, wide⟩ := each _ _ step ih.1
    exact ⟨kept, ih.2.tail wide⟩

/-- One effect after the other goes through the steps of both. -/
theorem bind (first : Steps relation effect state)
    (second : ∀ value reached, effect.run state = .ok value reached → Steps relation (next value) reached) :
    Steps relation (effect >>= next) state := by
  unfold Steps final at first ⊢
  rw [run_bind]
  cases done : effect.run state with
  | ok value reached =>
    simp only [done] at first ⊢
    exact first.trans (second value reached done)
  | error err reached =>
    simp only [done] at first ⊢
    exact first

theorem get_bind {next : State → Effect Err State B} (second : Steps relation (next state) state) :
    Steps relation (get >>= next) state :=
  second

/-- A handled failure goes on from the state in which it happened. -/
theorem tryCatch {handler : Err → Effect Err State A} (first : Steps relation effect state)
    (second : ∀ err reached, effect.run state = .error err reached → Steps relation (handler err) reached) :
    Steps relation (MonadExcept.tryCatch effect handler : Effect Err State A) state := by
  unfold Steps final at first ⊢
  rw [run_tryCatch]
  cases done : effect.run state with
  | ok value reached =>
    simp only [done] at first ⊢
    exact first
  | error err reached =>
    simp only [done] at first ⊢
    exact first.trans (second err reached done)

/-- A loop over a list goes through the steps of each item, as long as the rest stays ready. -/
theorem forM {action : A → Effect Err State PUnit} (ready : List A → State → Prop)
    (each : ∀ item rest reached, ready (item :: rest) reached → Steps relation (action item) reached ∧
      ∀ next, (action item).run reached = .ok ⟨⟩ next → ready rest next) (items : List A) (state : State)
    (start : ready items state) : Steps relation (items.forM action) state := by
  induction items generalizing state with
  | nil => exact .pure _
  | cons item rest ih =>
    obtain ⟨steps, keep⟩ := each item rest state start
    refine .bind steps ?_
    intro _ reached done
    exact ih reached (keep reached done)

end Steps

/-- The effect goes through steps of the relation, from whatever state it starts. -/
def Always (relation : State → State → Prop) (effect : Effect Err State A) : Prop :=
  ∀ state, Steps relation effect state

namespace Always

variable {relation : State → State → Prop} {effect : Effect Err State A} {change : State → State}

theorem pure (value : A) : Always relation (Pure.pure value : Effect Err State A) :=
  fun _ => .pure value

theorem throw (err : Err) : Always relation (MonadExcept.throw err : Effect Err State A) :=
  fun _ => .throw err

theorem modify (step : ∀ state, relation state (change state)) :
    Always relation (modify change : Effect Err State PUnit) :=
  fun state => .modify (step state)

theorem mono {wider : State → State → Prop} (steps : Always relation effect)
    (widen : ∀ before after, relation before after → wider before after) : Always wider effect :=
  fun state => (steps state).mono widen

theorem bind (first : Always relation effect) (second : ∀ value, Always relation (next value)) :
    Always relation (effect >>= next) :=
  fun state => .bind (first state) fun value reached _ => second value reached

theorem get_bind {next : State → Effect Err State B} (second : ∀ state, Always relation (next state)) :
    Always relation (get >>= next) :=
  fun state => .get_bind (second state state)

/-- An effect may replace the state that it read. -/
theorem get_set {next : State → PUnit → Effect Err State B} (step : ∀ state, relation state (change state))
    (second : ∀ state, Always relation (next state ⟨⟩)) :
    Always relation (get >>= fun state => set (change state) >>= next state) :=
  fun state => .get_bind (.bind (.set (step state)) fun _ reached _ => second state reached)

theorem tryCatch {handler : Err → Effect Err State A} (first : Always relation effect)
    (second : ∀ err, Always relation (handler err)) :
    Always relation (MonadExcept.tryCatch effect handler : Effect Err State A) :=
  fun state => .tryCatch (first state) fun err reached _ => second err reached

theorem forM {action : A → Effect Err State PUnit} (each : ∀ item, Always relation (action item)) (items : List A) :
    Always relation (items.forM action) :=
  fun state => .forM (fun _ _ => True) (fun item _ reached _ => ⟨each item reached, fun _ _ => trivial⟩) items state
    trivial

theorem ite {condition : Prop} [Decidable condition] {left right : Effect Err State A} (first : Always relation left)
    (second : Always relation right) : Always relation (if condition then left else right) := by
  split
  · exact first
  · exact second

end Always

end Effect

end SpSync.Foundation
