import Mathlib.Data.List.Chain
import Mathlib.Data.List.Duplicate
import Mathlib.Data.List.Perm.Subperm
import Mathlib.Logic.Relation

namespace SpSync.Foundation.Looping

open Relation

variable {State : Type} {Moves : State → State → Prop} {start : State}

/-- That many steps can be made from the state. -/
def HasPath (Moves : State → State → Prop) : Nat → State → Prop
  | 0, _ => True
  | steps + 1, state => ∃ next, Moves state next ∧ HasPath Moves steps next

/-- The states along the steps, which can all be reached from each earlier one. -/
theorem HasPath.states {steps : Nat} (path : HasPath Moves steps start) :
    ∃ states : List State, states.length = steps ∧ (start :: states).IsChain Moves := by
  induction steps generalizing start with
  | zero => exact ⟨[], rfl, .singleton start⟩
  | succ steps ih =>
    obtain ⟨next, moves, rest⟩ := path
    obtain ⟨states, length, chain⟩ := ih rest
    exact ⟨next :: states, by rw [List.length_cons, length], .cons_cons moves chain⟩

/-- A state leads back to itself. -/
def Loops (Moves : State → State → Prop) (start : State) : Prop :=
  ∃ state, ReflTransGen Moves start state ∧ TransGen Moves state state

/-- More steps than there are states come back to one of them. -/
theorem loops_of_hasPath {states : List State} (initial : start ∈ states)
    (closed : ∀ state ∈ states, ∀ next, Moves state next → next ∈ states)
    (path : HasPath Moves (states.length + 1) start) : Loops Moves start := by
  obtain ⟨visited, length, chain⟩ := path.states
  have reaches : (start :: visited).Pairwise (TransGen Moves) :=
    List.isChain_iff_pairwise.mp (chain.imp fun _ _ => TransGen.single)
  obtain ⟨first, later⟩ := List.pairwise_cons.mp reaches
  have inside : visited ⊆ states := by
    intro state member
    have reached := first state member
    clear member
    induction reached with
    | single moves => exact closed start initial _ moves
    | tail _ moves ih => exact closed _ ih _ moves
  have repeated : ¬ visited.Nodup := by
    intro nodup
    have bound := (nodup.subperm inside).length_le
    omega
  obtain ⟨state, twice⟩ := List.exists_duplicate_iff_not_nodup.mpr repeated
  refine ⟨state, (first state twice.mem).to_reflTransGen, ?_⟩
  have pair := later.sublist (List.duplicate_iff_sublist.mp twice)
  simpa using pair

/-- A machine that comes back to a state goes on without end. -/
theorem Loops.hasPath (loops : Loops Moves start) (steps : Nat) : HasPath Moves steps start := by
  induction steps generalizing start with
  | zero => trivial
  | succ steps ih =>
    obtain ⟨state, reached, back⟩ := loops
    obtain ⟨next, moves, rest⟩ : ∃ next, Moves start next ∧ ReflTransGen Moves next state := by
      obtain same | ⟨next, moves, rest⟩ := ReflTransGen.cases_head reached
      · rw [same]
        exact TransGen.head'_iff.mp back
      · exact ⟨next, moves, rest⟩
    exact ⟨next, moves, ih ⟨state, rest, back⟩⟩

theorem hasPath_iff_loops {states : List State} (initial : start ∈ states)
    (closed : ∀ state ∈ states, ∀ next, Moves state next → next ∈ states) :
    (∀ steps, HasPath Moves steps start) ↔ Loops Moves start :=
  ⟨fun paths => loops_of_hasPath initial closed (paths _), Loops.hasPath⟩

end SpSync.Foundation.Looping
