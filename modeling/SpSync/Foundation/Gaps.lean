import Mathlib.Order.Bounds.Basic
import Mathlib.Order.Nat

namespace SpSync.Foundation.Gaps

variable (present : Nat → Prop) (start top : Nat)

/-- The numbers from the start to the top that are not present. -/
def missing : Set Nat :=
  { number | start ≤ number ∧ number ≤ top ∧ ¬ present number }

/-- The present numbers from the start on and below the top whose successors are not present. -/
def ends : Set Nat :=
  { number | start ≤ number ∧ number < top ∧ present number ∧ ¬ present (number + 1) }

variable {present start top}

/-- A run of present numbers ends before a missing one. -/
theorem exists_end (begins : present start) {number : Nat} (absent : number ∈ missing present start top) :
    ∃ last ∈ ends present start top, last < number := by
  obtain ⟨above, below, gone⟩ := absent
  induction number, above using Nat.le_induction with
  | base => exact absurd begins gone
  | succ number above ih =>
    by_cases there : present number
    · exact ⟨number, ⟨above, below, there, gone⟩, Nat.lt_succ_self number⟩
    · obtain ⟨last, isEnd, before⟩ := ih (Nat.le_of_succ_le below) there
      exact ⟨last, isEnd, Nat.lt_succ_of_lt before⟩

/-- The first gap follows the first end of a run. -/
theorem isLeast_missing (begins : present start) {last : Nat} (first : IsLeast (ends present start top) last) :
    IsLeast (missing present start top) (last + 1) := by
  obtain ⟨⟨above, below, there, gone⟩, least⟩ := first
  refine ⟨⟨Nat.le_succ_of_le above, below, gone⟩, fun number absent => ?_⟩
  obtain ⟨other, isEnd, before⟩ := exists_end begins absent
  exact Nat.lt_of_le_of_lt (least isEnd) before

/-- Without an end there is no gap. -/
theorem missing_empty (begins : present start) (endless : ends present start top = ∅) :
    missing present start top = ∅ := by
  apply Set.eq_empty_of_forall_notMem
  intro number absent
  obtain ⟨last, isEnd, -⟩ := exists_end begins absent
  rw [endless] at isEnd
  exact isEnd

end SpSync.Foundation.Gaps
