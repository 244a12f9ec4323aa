import Mathlib.Data.List.Nodup
import Mathlib.Data.List.Range

namespace SpSync.Foundation

/-- Every number is one or comes after another number of the list. -/
def Rooted (values : List Nat) : Prop :=
  ∀ value ∈ values, value = 1 ∨ ∃ before ∈ values, before + 1 = value

namespace Rooted

variable {values : List Nat} {value : Nat}

theorem positive (rooted : Rooted values) (inside : value ∈ values) : 1 ≤ value := by
  obtain rfl | ⟨before, _, rfl⟩ := rooted value inside
  · exact Nat.le_refl 1
  · exact Nat.le_add_left 1 before

/-- With a number, every smaller positive number is in the list. -/
theorem downward (rooted : Rooted values) {lower : Nat} (inside : value ∈ values) (positive : 1 ≤ lower)
    (below : lower ≤ value) : lower ∈ values := by
  induction value with
  | zero => omega
  | succ value ih =>
    rcases Nat.lt_or_eq_of_le below with less | rfl
    · obtain one | ⟨before, beforeIn, same⟩ := rooted _ inside
      · omega
      · have equal : before = value := by omega
        exact ih (equal ▸ beforeIn) (by omega)
    · exact inside

/-- Distinct numbers that grow from one are the numbers up to their count. -/
theorem perm_range (rooted : Rooted values) (nodup : values.Nodup) : ∃ count, values.Perm (List.range' 1 count) := by
  cases highest : values.max? with
  | none =>
    rw [List.max?_eq_none_iff.mp highest]
    exact ⟨0, List.Perm.refl _⟩
  | some top =>
    obtain ⟨topIn, above⟩ := List.max?_eq_some_iff.mp highest
    refine ⟨top, (List.perm_ext_iff_of_nodup nodup List.nodup_range').mpr ?_⟩
    intro value
    rw [List.mem_range'_1]
    constructor
    · intro inside
      have := above value inside
      have := rooted.positive inside
      omega
    · intro bounds
      exact rooted.downward topIn bounds.1 (by omega)

end Rooted

end SpSync.Foundation
