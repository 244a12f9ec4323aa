import Mathlib.Data.Finset.Card
import Mathlib.Data.Finset.Image
import Mathlib.Order.Interval.Finset.Nat

namespace SpSync.Foundation.Rounding

/-- The least multiple of the step that is not below the value. -/
def roundUp (step value : Nat) : Nat :=
  (value + (step - 1)) / step * step

variable {step value : Nat} {bound : Nat}

theorem dvd_roundUp : step ∣ roundUp step value :=
  Nat.dvd_mul_left _ _

theorem roundUp_eq_sub : roundUp step value = value + (step - 1) - (value + (step - 1)) % step := by
  have whole := Nat.div_add_mod' (value + (step - 1)) step
  unfold roundUp
  omega

theorem le_roundUp (positive : 0 < step) : value ≤ roundUp step value := by
  have rest := Nat.mod_lt (value + (step - 1)) positive
  rw [roundUp_eq_sub]
  omega

theorem roundUp_lt (positive : 0 < step) : roundUp step value < value + step := by
  rw [roundUp_eq_sub]
  omega

theorem roundUp_le (aligned : step ∣ bound) (below : value ≤ bound) (positive : 0 < step) :
    roundUp step value ≤ bound := by
  obtain ⟨count, rfl⟩ := aligned
  have few : (value + (step - 1)) / step < count + 1 := by
    rw [Nat.div_lt_iff_lt_mul positive, Nat.add_mul, Nat.mul_comm count]
    omega
  rw [roundUp, Nat.mul_comm step]
  exact Nat.mul_le_mul_right step (Nat.le_of_lt_succ few)

/-- A multiple of the step that the sum reaches is not passed. -/
theorem le_roundUp_of_dvd (aligned : step ∣ bound) (reaches : bound ≤ value + (step - 1)) (positive : 0 < step) :
    bound ≤ roundUp step value := by
  obtain ⟨count, rfl⟩ := aligned
  rw [roundUp, Nat.mul_comm step]
  rw [Nat.mul_comm step] at reaches
  exact Nat.mul_le_mul_right step ((Nat.le_div_iff_mul_le positive).mpr reaches)

theorem roundUp_mono {other : Nat} (positive : 0 < step) (below : value ≤ other) :
    roundUp step value ≤ roundUp step other :=
  roundUp_le dvd_roundUp (Nat.le_trans below (le_roundUp positive)) positive

theorem roundUp_of_dvd (aligned : step ∣ value) (positive : 0 < step) : roundUp step value = value :=
  Nat.le_antisymm (roundUp_le aligned (Nat.le_refl value) positive) (le_roundUp positive)

/-- Values between two multiples of the step are rounded to the multiples between them. -/
theorem card_image_roundUp_le {values : Finset Nat} {first last : Nat} (positive : 0 < step)
    (inside : ∀ value ∈ values, first * step ≤ value ∧ value ≤ last * step) :
    (values.image (roundUp step)).card ≤ last + 1 - first := by
  have multiples : values.image (roundUp step) ⊆ (Finset.Icc first last).image (· * step) := by
    intro rounded among
    obtain ⟨value, present, rfl⟩ := Finset.mem_image.mp among
    obtain ⟨above, below⟩ := inside value present
    refine Finset.mem_image.mpr ⟨(value + (step - 1)) / step, Finset.mem_Icc.mpr ⟨?_, ?_⟩, rfl⟩
    · rw [Nat.le_div_iff_mul_le positive]
      omega
    · exact Nat.le_of_mul_le_mul_right (roundUp_le (Nat.dvd_mul_left step last) below positive) positive
  calc (values.image (roundUp step)).card ≤ ((Finset.Icc first last).image (· * step)).card :=
        Finset.card_le_card multiples
    _ ≤ (Finset.Icc first last).card := Finset.card_image_le
    _ = last + 1 - first := Nat.card_Icc first last

end SpSync.Foundation.Rounding
