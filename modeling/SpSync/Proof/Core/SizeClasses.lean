import Mathlib.Data.Nat.Log
import SpSync.Foundation.Rounding
import SpSync.Proof.Core.HeaderPadding

namespace SpSync

open Foundation Rounding

variable {exponent : Nat} {small large : Nat}

/-- The step between the classes of the sizes from one power of two to the next. -/
def classStep (exponent : Nat) : Nat :=
  2 ^ (exponent - bitWidth exponent)

theorem classStep_pos (exponent : Nat) : 0 < classStep exponent :=
  Nat.two_pow_pos _

theorem bitWidth_le (exponent : Nat) : bitWidth exponent ≤ exponent := by
  unfold bitWidth
  split
  · exact Nat.zero_le exponent
  · rename_i positive
    exact (Nat.log2_lt positive).mpr Nat.lt_two_pow_self

/-- A power of two is as many steps as the width of its exponent says. -/
theorem two_pow_bitWidth_mul (exponent : Nat) : 2 ^ bitWidth exponent * classStep exponent = 2 ^ exponent := by
  rw [classStep, ← Nat.pow_add, Nat.add_sub_cancel' (bitWidth_le exponent)]

theorem two_pow_bitWidth_le (positive : 1 ≤ exponent) : 2 ^ bitWidth exponent ≤ 2 * exponent := by
  have nonzero : exponent ≠ 0 := by omega
  rw [bitWidth, if_neg nonzero, Nat.pow_succ, Nat.mul_comm]
  exact Nat.mul_le_mul_left 2 (Nat.log2_self_le nonzero)

/-- Rounding up adds less than an eighth. -/
theorem classStep_sub_le (exponent : Nat) : 8 * (classStep exponent - 1) ≤ 2 ^ exponent := by
  by_cases small : exponent < 4
  · have all : ∀ exponent < 4, 8 * (classStep exponent - 1) ≤ 2 ^ exponent := by decide
    exact all exponent small
  have wide : 3 ≤ bitWidth exponent := by
    have log : 2 ≤ exponent.log2 := (Nat.le_log2 (by omega)).mpr (by omega)
    rw [bitWidth, if_neg (by omega)]
    omega
  have eight : 2 ^ 3 ≤ 2 ^ bitWidth exponent := Nat.pow_le_pow_right (by decide) wide
  calc 8 * (classStep exponent - 1) ≤ 8 * classStep exponent := Nat.mul_le_mul_left 8 (Nat.sub_le _ _)
    _ ≤ 2 ^ bitWidth exponent * classStep exponent := Nat.mul_le_mul_right _ eight
    _ = 2 ^ exponent := two_pow_bitWidth_mul exponent

/-- The class of a size when numbers have no end. -/
def sizeClass (size : Nat) : Nat :=
  roundUp (classStep size.log2) size

theorem shift_lastBits (size : Nat) : 1 <<< lastBits size = classStep size.log2 := by
  rw [Nat.shiftLeft_eq, Nat.one_mul, lastBits, classStep]
  by_cases empty : size = 0
  · rw [empty]
    rfl
  have width : bitWidth size - 1 = size.log2 := by
    rw [bitWidth, if_neg empty]
    rfl
  rw [width]

theorem le_sizeClass (size : Nat) : size ≤ sizeClass size :=
  le_roundUp (classStep_pos _)

/-- The powers of two around a size are multiples of its step. -/
theorem classStep_dvd_two_pow {power : Nat} (above : exponent ≤ power) : classStep exponent ∣ 2 ^ power :=
  Nat.pow_dvd_pow 2 (Nat.le_trans (Nat.sub_le _ _) above)

/-- The padded size of the source, as long as the class fits into 64 bits. -/
theorem paddedSize_eq {size floor : Nat} (fits : floor < size → sizeClass size < uint64Limit) :
    paddedSize size floor = if floor < size then sizeClass size else floor := by
  unfold paddedSize
  split
  · rename_i above
    have positive := classStep_pos size.log2
    -- A sum that reaches the end of the numbers has its class there too.
    have whole : size + (classStep size.log2 - 1) < uint64Limit := by
      by_contra reaches
      have below : size < 2 ^ 64 := Nat.lt_of_le_of_lt (le_sizeClass size) (fits above)
      have log : size.log2 < 64 := (Nat.log2_lt (by omega)).mpr below
      have aligned : classStep size.log2 ∣ uint64Limit := classStep_dvd_two_pow (Nat.le_of_lt log)
      have past := le_roundUp_of_dvd aligned (Nat.le_of_not_lt reaches) positive
      exact absurd (fits above) (Nat.not_lt_of_le past)
    dsimp only
    rw [shift_lastBits, Nat.sub_add_cancel positive]
    rw [Nat.mod_eq_of_lt whole, sizeClass, roundUp_eq_sub]
  · rfl

/-- A class does not pass the next power of two. -/
theorem sizeClass_le (size : Nat) : sizeClass size ≤ 2 ^ (size.log2 + 1) :=
  roundUp_le (classStep_dvd_two_pow (Nat.le_succ _)) (Nat.le_of_lt Nat.lt_log2_self) (classStep_pos _)

theorem sizeClass_mono (below : small ≤ large) : sizeClass small ≤ sizeClass large := by
  have powers : small.log2 ≤ large.log2 := by
    rw [Nat.log2_eq_log_two, Nat.log2_eq_log_two]
    exact Nat.log_mono_right below
  obtain less | same := Nat.lt_or_eq_of_le powers
  · have positive : large ≠ 0 := by
      rintro rfl
      exact absurd less (Nat.not_lt_zero _)
    calc sizeClass small ≤ 2 ^ (small.log2 + 1) := sizeClass_le small
      _ ≤ 2 ^ large.log2 := Nat.pow_le_pow_right (by decide) less
      _ ≤ large := Nat.log2_self_le positive
      _ ≤ sizeClass large := le_sizeClass large
  · rw [sizeClass, sizeClass, same]
    exact roundUp_mono (classStep_pos _) below

/-- A class is a size of its own class. -/
theorem sizeClass_sizeClass (size : Nat) : sizeClass (sizeClass size) = sizeClass size := by
  refine roundUp_of_dvd ?_ (classStep_pos _)
  obtain below | top := Nat.lt_or_eq_of_le (sizeClass_le size)
  · have same : (sizeClass size).log2 = size.log2 := by
      by_cases empty : size = 0
      · rw [empty]
        decide
      have positive : sizeClass size ≠ 0 := by
        have above := le_sizeClass size
        omega
      exact (Nat.log2_eq_iff positive).mpr ⟨Nat.le_trans (Nat.log2_self_le empty) (le_sizeClass size), below⟩
    rw [same]
    exact dvd_roundUp
  · rw [top, Nat.log2_two_pow]
    exact classStep_dvd_two_pow (Nat.le_refl _)

theorem sizeClass_sub_le (size : Nat) : sizeClass size - size ≤ size / 8 := by
  by_cases empty : size = 0
  · rw [empty]
    decide
  have step := classStep_sub_le size.log2
  have power := Nat.log2_self_le empty
  have rounded : sizeClass size < size + classStep size.log2 := roundUp_lt (classStep_pos _)
  omega

/-- The sizes from one power of two to the next have few classes. -/
theorem card_image_sizeClass_le (positive : 1 ≤ exponent) {sizes : Finset Nat}
    (inside : ∀ size ∈ sizes, 2 ^ exponent ≤ size ∧ size < 2 ^ (exponent + 1)) :
    (sizes.image sizeClass).card ≤ 2 * exponent + 1 := by
  have same : sizes.image sizeClass = sizes.image (roundUp (classStep exponent)) := by
    apply Finset.image_congr
    intro size present
    obtain ⟨above, below⟩ := inside size present
    have nonzero : size ≠ 0 := by
      have power := Nat.two_pow_pos exponent
      omega
    show roundUp (classStep size.log2) size = _
    rw [(Nat.log2_eq_iff nonzero).mpr ⟨above, below⟩]
  have steps := two_pow_bitWidth_mul exponent
  have count := two_pow_bitWidth_le positive
  have between : ∀ size ∈ sizes, 2 ^ bitWidth exponent * classStep exponent ≤ size ∧
      size ≤ 2 * 2 ^ bitWidth exponent * classStep exponent := by
    intro size present
    obtain ⟨above, below⟩ := inside size present
    rw [Nat.mul_assoc, steps]
    omega
  have few := card_image_roundUp_le (classStep_pos exponent) between
  rw [same]
  omega

/-- The rounded value of a size above the floor fits into 64 bits. -/
def ClassFits (floor size : Nat) : Prop :=
  floor < size → sizeClass size < uint64Limit

/-- A padded size is not below the size nor the floor, is the padded size of itself, grows with the size, adds at most
an eighth above the floor, and takes few values from one power of two to the next. -/
theorem paddedSize_classes (floor : Nat) :
    (∀ size, ClassFits floor size →
      size ≤ paddedSize size floor ∧ floor ≤ paddedSize size floor ∧
      paddedSize (paddedSize size floor) floor = paddedSize size floor ∧
      (floor < size → paddedSize size floor - size ≤ size / 8)) ∧
    (∀ small large, small ≤ large → ClassFits floor large → paddedSize small floor ≤ paddedSize large floor) ∧
    ∀ exponent ≥ 1, ∀ sizes : Finset Nat,
      (∀ size ∈ sizes, floor < size ∧ ClassFits floor size ∧ 2 ^ exponent ≤ size ∧ size < 2 ^ (exponent + 1)) →
      (sizes.image fun size => paddedSize size floor).card ≤ 2 * exponent + 1 := by
  refine ⟨fun size fits => ?_, fun small large below fits => ?_, fun exponent positive sizes inside => ?_⟩
  · rw [paddedSize_eq fits]
    have above := le_sizeClass size
    split
    · rename_i large
      have again : ClassFits floor (sizeClass size) := fun _ => by
        rw [sizeClass_sizeClass]
        exact fits large
      rw [paddedSize_eq again, if_pos (by omega), sizeClass_sizeClass]
      exact ⟨above, by omega, rfl, fun _ => sizeClass_sub_le size⟩
    · rename_i small
      have again : ClassFits floor floor := fun less => absurd less (Nat.lt_irrefl floor)
      rw [paddedSize_eq again, if_neg (Nat.lt_irrefl floor)]
      exact ⟨by omega, Nat.le_refl floor, rfl, fun large => absurd large small⟩
  · have grows := sizeClass_mono below
    have smallFits : ClassFits floor small := fun above => Nat.lt_of_le_of_lt grows (fits (by omega))
    have above := le_sizeClass large
    rw [paddedSize_eq fits, paddedSize_eq smallFits]
    split
    · rw [if_pos (by omega)]
      exact grows
    · split
      · omega
      · exact Nat.le_refl floor
  · have same : (sizes.image fun size => paddedSize size floor) = sizes.image sizeClass := by
      apply Finset.image_congr
      intro size present
      obtain ⟨above, fits, -⟩ := inside size present
      show paddedSize size floor = sizeClass size
      rw [paddedSize_eq fits, if_pos above]
    rw [same]
    exact card_image_sizeClass_le positive fun size present => (inside size present).2.2

end SpSync
