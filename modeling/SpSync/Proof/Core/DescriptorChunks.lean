import Mathlib.Algebra.BigOperators.Intervals
import SpSync.Construction.Core.WireDescriptor

namespace SpSync

namespace DataDescriptor

variable {lib : Securepath} {descriptor : DataDescriptor} {chunk : Nat}

/-- The octets of a whole chunk. -/
def perChunk (lib : Securepath) (descriptor : DataDescriptor) : Nat :=
  descriptor.chunkSize + lib.aesGcmTagSize

theorem perChunk_pos (sized : descriptor.chunkSize ≠ 0) : 0 < descriptor.perChunk lib := by
  unfold perChunk
  omega

theorem sized_of_lt (inside : chunk < descriptor.chunkCount lib) : descriptor.chunkSize ≠ 0 := by
  intro unsized
  rw [chunkCount, if_pos unsized] at inside
  exact absurd inside (Nat.not_lt_zero chunk)

/-- A chunk is there exactly when octets are left for it. -/
theorem lt_chunkCount_iff (sized : descriptor.chunkSize ≠ 0) :
    chunk < descriptor.chunkCount lib ↔ chunk * descriptor.perChunk lib < descriptor.encSize := by
  have positive : 0 < descriptor.perChunk lib := perChunk_pos sized
  have whole := Nat.div_add_mod descriptor.encSize (descriptor.perChunk lib)
  have rest := Nat.mod_lt descriptor.encSize positive
  rw [chunkCount, if_neg sized]
  show chunk < descriptor.encSize / descriptor.perChunk lib +
    (if descriptor.encSize % descriptor.perChunk lib ≠ 0 then 1 else 0) ↔ _
  rw [Nat.mul_comm]
  generalize descriptor.encSize / descriptor.perChunk lib = full at whole ⊢
  generalize descriptor.encSize % descriptor.perChunk lib = short at whole rest ⊢
  rw [← whole]
  obtain less | same | more := Nat.lt_trichotomy chunk full
  · have before := Nat.mul_le_mul_left (descriptor.perChunk lib) less
    rw [Nat.mul_succ] at before
    exact iff_of_true (by omega) (by omega)
  · rw [same]
    split <;> omega
  · have after := Nat.mul_le_mul_left (descriptor.perChunk lib) more
    rw [Nat.mul_succ] at after
    refine iff_of_false ?_ (by omega)
    split <;> omega

theorem chunkEncSize_eq (inside : chunk < descriptor.chunkCount lib) :
    descriptor.chunkEncSize lib chunk =
      min (descriptor.perChunk lib) (descriptor.encSize - chunk * descriptor.perChunk lib) := by
  rw [chunkEncSize, if_pos inside]
  rfl

/-- The first chunks hold as many octets as they can. -/
theorem sum_chunkEncSize {count : Nat} (within : count ≤ descriptor.chunkCount lib) :
    ∑ chunk ∈ Finset.range count, descriptor.chunkEncSize lib chunk =
      min (count * descriptor.perChunk lib) descriptor.encSize := by
  induction count with
  | zero => simp
  | succ count ih =>
    have inside : count < descriptor.chunkCount lib := within
    have left := (lt_chunkCount_iff (sized_of_lt inside)).mp inside
    rw [Finset.sum_range_succ, ih (Nat.le_of_lt inside), chunkEncSize_eq inside, Nat.succ_mul]
    omega

/-- The chunks tile the data. -/
theorem sum_chunks (sized : descriptor.chunkSize ≠ 0) :
    ∑ chunk ∈ Finset.range (descriptor.chunkCount lib), descriptor.chunkEncSize lib chunk = descriptor.encSize := by
  have all : ¬ descriptor.chunkCount lib * descriptor.perChunk lib < descriptor.encSize :=
    mt (lt_chunkCount_iff sized).mpr (Nat.lt_irrefl _)
  rw [sum_chunkEncSize (Nat.le_refl _)]
  omega

/-- Every chunk but the last is whole. -/
theorem chunkEncSize_of_succ_lt (inside : chunk + 1 < descriptor.chunkCount lib) :
    descriptor.chunkEncSize lib chunk = descriptor.perChunk lib := by
  have next := (lt_chunkCount_iff (sized_of_lt inside)).mp inside
  rw [Nat.succ_mul] at next
  rw [chunkEncSize_eq (Nat.lt_of_succ_lt inside)]
  omega

theorem chunkEncSize_pos (inside : chunk < descriptor.chunkCount lib) : 0 < descriptor.chunkEncSize lib chunk := by
  have sized := sized_of_lt inside
  have left := (lt_chunkCount_iff sized).mp inside
  have positive : 0 < descriptor.perChunk lib := perChunk_pos sized
  rw [chunkEncSize_eq inside]
  omega

theorem chunkCount_le (descriptor : DataDescriptor) : descriptor.chunkCount lib ≤ descriptor.encSize := by
  by_contra more
  have inside := Nat.lt_of_not_le more
  have sized := sized_of_lt inside
  have left := (lt_chunkCount_iff sized).mp inside
  have positive : 0 < descriptor.perChunk lib := perChunk_pos sized
  have many := Nat.le_mul_of_pos_right descriptor.encSize positive
  omega

end DataDescriptor

namespace WireDescriptor

variable {lib : Securepath} (descriptor : WireDescriptor)

/-- A range is held exactly when its end, added up without wrapping around, is inside the chunk. -/
theorem chunkHoldsRange_iff (chunkNo offset size : UInt64) : descriptor.chunkHoldsRange lib chunkNo offset size = true ↔
    offset.toNat + size.toNat ≤ (descriptor.chunkEncSize lib chunkNo).toNat := by
  unfold chunkHoldsRange
  rw [Bool.and_eq_true, decide_eq_true_iff, decide_eq_true_iff, UInt64.le_iff_toNat_le]
  constructor
  · rintro ⟨below, short⟩
    rw [UInt64.le_iff_toNat_le, UInt64.toNat_sub_of_le _ _ (UInt64.le_iff_toNat_le.mpr below)] at short
    omega
  · intro fits
    have below : offset.toNat ≤ (descriptor.chunkEncSize lib chunkNo).toNat := by omega
    refine ⟨below, ?_⟩
    rw [UInt64.le_iff_toNat_le, UInt64.toNat_sub_of_le _ _ (UInt64.le_iff_toNat_le.mpr below)]
    omega

/-- The tag of the library is so short that no chunk with it passes 64 bits. -/
def TagFits (lib : Securepath) : Prop :=
  lib.aesGcmTagSize + 2 ^ 32 ≤ 2 ^ 64

variable (tagFits : TagFits lib)

include tagFits

theorem toNat_chunkTagSize : (chunkTagSize lib).toNat = lib.aesGcmTagSize := by
  unfold TagFits at tagFits
  exact UInt64.toNat_ofNat_of_lt' (by show lib.aesGcmTagSize < 2 ^ 64; omega)

theorem toNat_perChunk : (descriptor.perChunk lib).toNat = descriptor.toDataDescriptor.perChunk lib := by
  have small := descriptor.chunkSize.toNat_lt
  unfold TagFits at tagFits
  rw [perChunk, UInt64.toNat_add, UInt32.toNat_toUInt64, toNat_chunkTagSize tagFits]
  exact Nat.mod_eq_of_lt (by omega)

theorem toNat_chunkCount : (descriptor.chunkCount lib).toNat = descriptor.toDataDescriptor.chunkCount lib := by
  have few : descriptor.toDataDescriptor.chunkCount lib ≤ _ := descriptor.toDataDescriptor.chunkCount_le
  have within := descriptor.encSize.toNat_lt
  have perChunk := descriptor.toNat_perChunk tagFits
  unfold chunkCount
  by_cases unsized : descriptor.chunkSize = 0
  · have unsizedNat : descriptor.toDataDescriptor.chunkSize = 0 := UInt32.toNat_inj.mpr unsized
    rw [if_neg (not_not.mpr unsized), DataDescriptor.chunkCount, if_pos unsizedNat]
    rfl
  · have sizedNat : descriptor.toDataDescriptor.chunkSize ≠ 0 := fun zero => unsized (UInt32.toNat_inj.mp zero)
    have rounded : ((if descriptor.encSize % descriptor.perChunk lib ≠ 0 then 1 else 0 : UInt64)).toNat =
        if descriptor.toDataDescriptor.encSize % descriptor.toDataDescriptor.perChunk lib ≠ 0 then 1 else 0 := by
      have zero : descriptor.encSize % descriptor.perChunk lib = 0 ↔
          descriptor.toDataDescriptor.encSize % descriptor.toDataDescriptor.perChunk lib = 0 := by
        rw [← UInt64.toNat_inj, UInt64.toNat_mod, perChunk]
        rfl
      by_cases exactly : descriptor.encSize % descriptor.perChunk lib = 0
      · rw [if_neg (not_not.mpr exactly), if_neg (not_not.mpr (zero.mp exactly))]
        rfl
      · rw [if_pos exactly, if_pos (mt zero.mpr exactly)]
        rfl
    have count : descriptor.toDataDescriptor.chunkCount lib =
        descriptor.toDataDescriptor.encSize / descriptor.toDataDescriptor.perChunk lib +
          if descriptor.toDataDescriptor.encSize % descriptor.toDataDescriptor.perChunk lib ≠ 0 then 1 else 0 := by
      rw [DataDescriptor.chunkCount, if_neg sizedNat]
      rfl
    rw [if_pos unsized, UInt64.toNat_add, UInt64.toNat_div, perChunk, rounded]
    rw [count] at few ⊢
    exact Nat.mod_eq_of_lt (Nat.lt_of_le_of_lt few within)

theorem lt_chunkCount {chunkNo : UInt64} :
    chunkNo < descriptor.chunkCount lib ↔ chunkNo.toNat < descriptor.toDataDescriptor.chunkCount lib := by
  rw [UInt64.lt_iff_toNat_lt, toNat_chunkCount descriptor tagFits]

/-- The size of a chunk is computed from the octets that are left for it. -/
theorem toNat_chunkEncSize (chunkNo : UInt64) :
    (descriptor.chunkEncSize lib chunkNo).toNat = descriptor.toDataDescriptor.chunkEncSize lib chunkNo.toNat := by
  have perChunk := descriptor.toNat_perChunk tagFits
  unfold chunkEncSize
  by_cases inside : chunkNo < descriptor.chunkCount lib
  · have insideNat := (descriptor.lt_chunkCount tagFits).mp inside
    have left := (DataDescriptor.lt_chunkCount_iff (DataDescriptor.sized_of_lt insideNat)).mp insideNat
    have within := descriptor.encSize.toNat_lt
    have product : (chunkNo * descriptor.perChunk lib).toNat =
        chunkNo.toNat * descriptor.toDataDescriptor.perChunk lib := by
      rw [UInt64.toNat_mul, perChunk]
      exact Nat.mod_eq_of_lt (Nat.lt_trans left within)
    have below : chunkNo * descriptor.perChunk lib ≤ descriptor.encSize := by
      rw [UInt64.le_iff_toNat_le, product]
      exact Nat.le_of_lt left
    rw [if_pos inside, DataDescriptor.chunkEncSize_eq insideNat]
    rw [UInt64.toNat_min, perChunk, UInt64.toNat_sub_of_le _ _ below, product]
    rfl
  · rw [if_neg inside, DataDescriptor.chunkEncSize, if_neg (mt (descriptor.lt_chunkCount tagFits).mpr inside)]
    rfl

/-- The descriptor of the source is usable exactly when the model's is. -/
theorem usable_eq : descriptor.usable lib = descriptor.toDataDescriptor.usable lib := by
  have count := descriptor.toNat_chunkCount tagFits
  have atLeastOne : 1 ≤ descriptor.chunkCount lib ↔ 1 ≤ descriptor.toDataDescriptor.chunkCount lib := by
    rw [UInt64.le_iff_toNat_le, count]
    rfl
  have few : descriptor.chunkCount lib ≤ UInt64.ofNat maxDataChunks ↔
      descriptor.toDataDescriptor.chunkCount lib ≤ maxDataChunks := by
    rw [UInt64.le_iff_toNat_le, count]
    rfl
  have filled (positive : 1 ≤ descriptor.chunkCount lib) :
      chunkTagSize lib < descriptor.chunkEncSize lib (descriptor.chunkCount lib - 1) ↔
        lib.aesGcmTagSize <
          descriptor.toDataDescriptor.chunkEncSize lib (descriptor.toDataDescriptor.chunkCount lib - 1) := by
    rw [UInt64.lt_iff_toNat_lt, toNat_chunkTagSize tagFits, toNat_chunkEncSize descriptor tagFits,
      UInt64.toNat_sub_of_le _ _ positive, count]
    rfl
  unfold usable DataDescriptor.usable
  by_cases positive : 1 ≤ descriptor.chunkCount lib
  · simp only [atLeastOne, few, filled positive]
    rfl
  · simp only [mt atLeastOne.mpr positive, positive, decide_false, Bool.and_false, Bool.false_and]

end WireDescriptor

end SpSync
