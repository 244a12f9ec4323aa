import Mathlib.Algebra.GroupWithZero.Nat
import Mathlib.Algebra.Order.BigOperators.Group.List
import Mathlib.Algebra.Order.Group.Nat
import Mathlib.Data.List.Basic

namespace SpSync.Foundation.Incidence

variable {Item Set : Type} {items : List Item} {amount : Item → Nat}

/-- The items in each set add up to the sets around each item. -/
theorem sum_countP_comm (holds : Set → Item → Bool) (sets : List Set) (items : List Item) :
    (sets.map fun set => items.countP (holds set)).sum =
      (items.map fun item => sets.countP fun set => holds set item).sum := by
  induction sets with
  | nil => simp
  | cons set rest ih =>
    have split : (items.map fun item => (set :: rest).countP fun other => holds other item).sum =
        items.countP (holds set) + (items.map fun item => rest.countP fun other => holds other item).sum := by
      clear ih
      induction items with
      | nil => rfl
      | cons item items ih =>
        rw [List.map_cons, List.sum_cons, ih, List.map_cons, List.sum_cons, List.countP_cons, List.countP_cons]
        omega
    rw [List.map_cons, List.sum_cons, ih, split]

theorem length_le_sum (least : ∀ item ∈ items, 1 ≤ amount item) : items.length ≤ (items.map amount).sum := by
  rw [← List.length_map amount]
  exact List.length_le_sum_of_one_le _ (List.forall_mem_map.mpr least)

theorem sum_le_length (most : ∀ item ∈ items, amount item ≤ 1) : (items.map amount).sum ≤ items.length := by
  simpa using List.sum_le_card_nsmul (items.map amount) 1 (List.forall_mem_map.mpr most)

/-- Amounts that are all at least one, or all at most one, add up to the number of items only as ones. -/
theorem sum_eq_length_iff (sided : (∀ item ∈ items, 1 ≤ amount item) ∨ ∀ item ∈ items, amount item ≤ 1) :
    (items.map amount).sum = items.length ↔ ∀ item ∈ items, amount item = 1 := by
  induction items with
  | nil => simp
  | cons item rest ih =>
    rw [List.map_cons, List.sum_cons, List.length_cons, List.forall_mem_cons]
    have others := ih (sided.imp List.forall_mem_of_forall_mem_cons List.forall_mem_of_forall_mem_cons)
    have bounds : (1 ≤ amount item ∧ rest.length ≤ (rest.map amount).sum) ∨
        (amount item ≤ 1 ∧ (rest.map amount).sum ≤ rest.length) := by
      simp only [List.forall_mem_cons] at sided
      exact sided.imp (And.imp_right length_le_sum) (And.imp_right sum_le_length)
    constructor
    · intro total
      exact ⟨by omega, others.mp (by omega)⟩
    · rintro ⟨one, ones⟩
      have equal := others.mpr ones
      omega

end SpSync.Foundation.Incidence
