import Mathlib.Data.List.GetD
import Mathlib.Data.Nat.Count

namespace SpSync.Foundation.PackedBits

variable {width : Nat}

/-- The bit at a place; past the words there are only zeros. -/
def bitAt (words : List (BitVec width)) (place : Nat) : Bool :=
  (words.getD (place / width) 0).getLsbD (place % width)

/-- The number of ones, word by word. -/
def ones : List (BitVec width) → Nat
  | [] => 0
  | word :: words => word.cpop.toNat + ones words

/-- The words cut off, or filled up with zeros, at a length. -/
def resize (size : Nat) (words : List (BitVec width)) : List (BitVec width) :=
  (words ++ List.replicate size 0).take size

variable {word : BitVec width} {words : List (BitVec width)} {place chosen index bit : Nat}

theorem length_resize (size : Nat) (words : List (BitVec width)) : (resize size words).length = size := by
  simp [resize]

/-- The bits below the new length are kept. -/
theorem bitAt_resize {size : Nat} (inside : place / width < size) :
    bitAt (resize size words) place = bitAt words place := by
  grind [bitAt, resize]

/-- A word that changes changes its own bits only. -/
theorem bitAt_modify (inside : index < words.length) (change : BitVec width → BitVec width) :
    bitAt (words.modify index change) place =
      if place / width = index then (change (words.getD index 0)).getLsbD (place % width) else bitAt words place := by
  grind [bitAt]

/-- The ones of a word below a bound are those the recursion of the library has met. -/
theorem cpopNatRec_eq_count (word : BitVec width) (bound : Nat) :
    word.cpopNatRec bound 0 = Nat.count (fun place => word.getLsbD place = true) bound := by
  induction bound with
  | zero => rfl
  | succ bound ih =>
    rw [BitVec.cpopNatRec_succ, BitVec.cpopNatRec_add, ih, Nat.count_succ]
    cases word.getLsbD bound <;> rfl

/-- The mask of one bit asks for that bit. -/
theorem and_shiftLeft_ne_zero_iff (inside : bit < width) :
    word &&& (BitVec.ofNat width 1 <<< bit) ≠ 0 ↔ word.getLsbD bit = true := by
  rw [← BitVec.twoPow_eq, BitVec.and_twoPow]
  cases word.getLsbD bit with
  | false => simp
  | true =>
    refine ⟨fun _ => rfl, fun _ zero => ?_⟩
    have read := congrArg (BitVec.getLsbD · bit) zero
    simp [inside] at read

/-- The low ones as a mask keep the bits below their number. -/
theorem getLsbD_and_lowOnes (used bit : Nat) :
    (word &&& BitVec.ofNat width (2 ^ used - 1)).getLsbD bit = (word.getLsbD bit && decide (bit < used)) := by
  rw [BitVec.getLsbD_and, BitVec.getLsbD_ofNat, Nat.testBit_two_pow_sub_one]
  by_cases inside : bit < width
  · simp [inside]
  · simp [BitVec.getLsbD_of_ge _ _ (Nat.not_lt.mp inside)]

section

variable (positive : 0 < width)
include positive

theorem bitAt_of_le (past : width * words.length ≤ place) : bitAt words place = false := by
  have beyond : words.length ≤ place / width := (Nat.le_div_iff_mul_le positive).mpr (by rwa [Nat.mul_comm])
  simp [bitAt, beyond]

/-- The ones of the words are the places whose bit is set. -/
theorem count_bitAt (words : List (BitVec width)) :
    Nat.count (fun place => bitAt words place = true) (width * words.length) = ones words := by
  induction words with
  | nil => rfl
  | cons word words ih =>
    have first : Nat.count (fun place => bitAt (word :: words) place = true) width = word.cpop.toNat := by
      rw [BitVec.toNat_cpop, cpopNatRec_eq_count, Nat.count_eq_card_filter_range, Nat.count_eq_card_filter_range]
      congr 1
      apply Finset.filter_congr
      intro place inside
      rw [Finset.mem_range] at inside
      simp [bitAt, Nat.div_eq_of_lt inside, Nat.mod_eq_of_lt inside]
    have rest (place : Nat) : bitAt (word :: words) (width + place) = bitAt words place := by
      simp [bitAt, Nat.add_div_left _ positive]
    rw [List.length_cons, Nat.mul_succ, Nat.add_comm, Nat.count_add, first]
    simp only [rest]
    rw [ih]
    rfl

/-- Words of one length are determined by their bits. -/
theorem ext_bitAt {left right : List (BitVec width)} (sized : left.length = right.length)
    (same : ∀ place, bitAt left place = bitAt right place) : left = right := by
  apply List.ext_getElem sized
  intro index inLeft inRight
  apply BitVec.eq_of_getLsbD_eq
  intro bit inside
  have equal := same (width * index + bit)
  simpa [bitAt, Nat.mul_add_div positive, Nat.div_eq_of_lt inside, Nat.mod_eq_of_lt inside, inLeft, inRight] using equal

/-- One bit of the words is written. -/
theorem bitAt_writeBit (inside : chosen / width < words.length) (value : Bool) :
    bitAt (words.modify (chosen / width) fun word =>
        if value then word ||| (BitVec.ofNat width 1 <<< (chosen % width))
        else word &&& ~~~(BitVec.ofNat width 1 <<< (chosen % width))) place =
      if place = chosen then value else bitAt words place := by
  have bits := Nat.mod_lt place positive
  have same : place / width = chosen / width → (place = chosen ↔ chosen % width = place % width) := by
    intro sameWord
    rw [← Nat.div_add_mod place width, ← Nat.div_add_mod chosen width, sameWord]
    simp [eq_comm]
  rw [bitAt_modify inside, ← BitVec.twoPow_eq]
  cases value <;> grind [bitAt]

end

end SpSync.Foundation.PackedBits
