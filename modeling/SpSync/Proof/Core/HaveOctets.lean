import Mathlib.Order.Bounds.Basic
import SpSync.Construction.Core.DataTable
import SpSync.Construction.Core.HaveOctets
import SpSync.Foundation.PackedBits

namespace SpSync.HaveOctets

open Foundation.PackedBits

variable {bitmap : HaveOctets} {chunkCount : Nat} {members others : Finset Nat}

/-- The octets have the length of the bitmap, and their bits are those of the members. -/
structure Packs (bitmap : HaveOctets) (members : Finset Nat) : Prop where
  fits : bitmap.chunkCount < 2 ^ 64 - 7
  inside : members ⊆ Finset.range bitmap.chunkCount
  sized : bitmap.bits.length = (bitmap.chunkCount + 7) / 8
  bit : ∀ place, bitAt bitmap.bits place = decide (place ∈ members)

/-- The chunks that stored octets hold, whatever else is in them. -/
def storedHeld (chunkCount : Nat) (octets : List (BitVec 8)) : Finset Nat :=
  (Finset.range chunkCount).filter fun chunkNo => bitAt octets chunkNo = true

/-- What a call does to a set of chunk numbers. -/
def changeHeld (chunkCount : Nat) (held : Finset Nat) : Change → Finset Nat
  | .set chunkNo true => if chunkNo < chunkCount then insert chunkNo held else held
  | .set chunkNo false => held.erase chunkNo
  | .setAll => Finset.range chunkCount
  | .clear => ∅

/-- A normalised bitmap holds the chunks of its octets. -/
theorem packs_normalise (fits : bitmap.chunkCount < 2 ^ 64 - 7) :
    bitmap.normalise.Packs (storedHeld bitmap.chunkCount bitmap.bits) := by
  have size : octetCount bitmap.chunkCount = (bitmap.chunkCount + 7) / 8 := by
    rw [octetCount, uint64Limit, Nat.mod_eq_of_lt (by omega)]
  have long : (resize ((bitmap.chunkCount + 7) / 8) bitmap.bits).length = (bitmap.chunkCount + 7) / 8 :=
    length_resize _ _
  have bits : bitmap.normalise.bits = if bitmap.chunkCount % 8 ≠ 0 then
      (resize ((bitmap.chunkCount + 7) / 8) bitmap.bits).modify ((bitmap.chunkCount + 7) / 8 - 1)
        fun octet => octet &&& BitVec.ofNat 8 (2 ^ (bitmap.chunkCount % 8) - 1)
      else resize ((bitmap.chunkCount + 7) / 8) bitmap.bits := by
    rw [normalise, size]
    rfl
  refine ⟨fits, Finset.filter_subset _ _, ?_, fun place => ?_⟩
  · rw [bits]
    split
    · rw [List.length_modify, long]
      rfl
    · exact long
  · have kept : place / 8 < (bitmap.chunkCount + 7) / 8 →
        bitAt (resize ((bitmap.chunkCount + 7) / 8) bitmap.bits) place = bitAt bitmap.bits place := bitAt_resize
    have gone : (bitmap.chunkCount + 7) / 8 ≤ place / 8 →
        bitAt (resize ((bitmap.chunkCount + 7) / 8) bitmap.bits) place = false :=
      fun past => bitAt_of_le (by decide) (by omega)
    have member : decide (place ∈ storedHeld bitmap.chunkCount bitmap.bits) =
        (decide (place < bitmap.chunkCount) && bitAt bitmap.bits place) := by
      simp [storedHeld]
    rw [bits, member]
    split
    · rw [bitAt_modify (by omega), getLsbD_and_lowOnes]
      grind [bitAt]
    · grind

/-- A call on a bitmap is the call on the set. -/
theorem Packs.apply (packs : bitmap.Packs members) (change : Change) :
    (bitmap.apply change).Packs (changeHeld bitmap.chunkCount members change) ∧
      (bitmap.apply change).chunkCount = bitmap.chunkCount := by
  obtain ⟨fits, inside, sized, bit⟩ := packs
  cases change with
  | set chunkNo value =>
    by_cases early : chunkNo < bitmap.chunkCount
    · rw [HaveOctets.apply, set, if_pos early]
      refine ⟨⟨fits, ?_, ?_, fun place => ?_⟩, rfl⟩
      · cases value <;> grind [changeHeld]
      · rwa [List.length_modify]
      · rw [bitAt_writeBit (by decide) (by omega), bit]
        cases value <;> grind [changeHeld]
    · have same : changeHeld bitmap.chunkCount members (.set chunkNo value) = members := by
        cases value <;> grind [changeHeld]
      rw [HaveOctets.apply, set, if_neg early, same]
      exact ⟨⟨fits, inside, sized, bit⟩, rfl⟩
  | setAll =>
    refine ⟨?_, rfl⟩
    have all : storedHeld bitmap.chunkCount (bitmap.bits.map fun _ => 255#8) = Finset.range bitmap.chunkCount := by
      apply Finset.filter_true_of_mem
      intro place early
      rw [Finset.mem_range] at early
      have octet : place / 8 < bitmap.bits.length := by omega
      rw [bitAt, List.getD_eq_getElem _ _ (by rwa [List.length_map]), List.getElem_map]
      exact BitVec.getLsbD_allOnes.trans (decide_eq_true (Nat.mod_lt _ (by decide)))
    rw [changeHeld, ← all]
    exact packs_normalise fits
  | clear =>
    refine ⟨⟨fits, Finset.empty_subset _, (List.length_map _).trans sized, fun place => ?_⟩, rfl⟩
    grind [bitAt, HaveOctets.apply, HaveOctets.clear, changeHeld]

/-- What the calls make of the stored octets. -/
def heldAfter (chunkCount : Nat) (octets : List (BitVec 8)) (changes : List Change) : Finset Nat :=
  changes.foldl (changeHeld chunkCount) (storedHeld chunkCount octets)

/-- The bitmap that the calls make of the stored octets. -/
def after (chunkCount : Nat) (octets : List (BitVec 8)) (changes : List Change) : HaveOctets :=
  changes.foldl apply (ofOctets chunkCount octets)

/-- So is a run of calls. -/
theorem Packs.run (packs : bitmap.Packs members) (changes : List Change) :
    (changes.foldl HaveOctets.apply bitmap).Packs (changes.foldl (changeHeld bitmap.chunkCount) members) ∧
      (changes.foldl HaveOctets.apply bitmap).chunkCount = bitmap.chunkCount := by
  induction changes generalizing bitmap members with
  | nil => exact ⟨packs, rfl⟩
  | cons change changes ih =>
    obtain ⟨next, sized⟩ := packs.apply change
    have last := ih next
    rwa [sized] at last

theorem packs_after (fits : chunkCount < 2 ^ 64 - 7) (octets : List (BitVec 8)) (changes : List Change) :
    (after chunkCount octets changes).Packs (heldAfter chunkCount octets changes) ∧
      (after chunkCount octets changes).chunkCount = chunkCount := by
  have start : (ofOctets chunkCount octets).Packs (storedHeld chunkCount octets) :=
    packs_normalise fits
  exact start.run changes

/-- Where a search for a missing chunk may end. -/
def Stops (chunkCount : Nat) (members : Finset Nat) (start place : Nat) : Prop :=
  place = chunkCount ∨ start ≤ place ∧ place < chunkCount ∧ place ∉ members

/-- The bitmap is the set of the members. -/
structure Represents (bitmap : HaveOctets) (chunkCount : Nat) (members : Finset Nat) : Prop where
  inside : members ⊆ Finset.range chunkCount
  test_iff : ∀ chunkNo, bitmap.test chunkNo = true ↔ chunkNo ∈ members
  count_eq : bitmap.count = members.card
  complete_iff : bitmap.complete = true ↔ members = Finset.range chunkCount
  firstMissing_least : ∀ start, IsLeast {place | Stops chunkCount members start place} (bitmap.firstMissing start)
  sized : bitmap.bits.length = (chunkCount + 7) / 8
  clean : ∀ place, chunkCount ≤ place → bitAt bitmap.bits place = false

/-- The counter sums up the ones modulo its range. -/
theorem foldl_count (octets : List (BitVec 8)) {sum : Nat} (below : sum < uint64Limit) :
    octets.foldl (fun sum octet => (sum + octet.cpop.toNat) % uint64Limit) sum = (sum + ones octets) % uint64Limit := by
  induction octets generalizing sum with
  | nil => exact (Nat.mod_eq_of_lt below).symm
  | cons octet octets ih =>
    rw [List.foldl_cons, ih (Nat.mod_lt _ (by decide)), ones, Nat.mod_add_mod, Nat.add_assoc]

namespace Packs

variable (packs : bitmap.Packs members)
include packs

theorem lt_of_mem {place : Nat} (member : place ∈ members) : place < bitmap.chunkCount :=
  Finset.mem_range.mp (packs.inside member)

theorem test_iff (chunkNo : Nat) : bitmap.test chunkNo = true ↔ chunkNo ∈ members := by
  have set := packs.bit chunkNo
  rw [test, Bool.and_eq_true, decide_eq_true_iff, decide_eq_true_iff,
    and_shiftLeft_ne_zero_iff (Nat.mod_lt _ (by decide))]
  grind [bitAt, packs.lt_of_mem]

/-- The ones of the octets are the members. -/
theorem count_eq : bitmap.count = members.card := by
  have few := Finset.card_le_card packs.inside
  rw [Finset.card_range] at few
  have total : ones bitmap.bits = members.card := by
    rw [← count_bitAt (by decide), Nat.count_eq_card_filter_range]
    congr 1
    ext place
    have early : place ∈ members → place < bitmap.chunkCount := packs.lt_of_mem
    rw [Finset.mem_filter, Finset.mem_range, packs.bit, packs.sized, decide_eq_true_iff]
    exact and_iff_right_of_imp fun member => by have := early member; omega
  have fits := packs.fits
  rw [count, foldl_count _ (by decide), total, Nat.zero_add, uint64Limit, Nat.mod_eq_of_lt (by omega)]

theorem complete_iff : bitmap.complete = true ↔ members = Finset.range bitmap.chunkCount := by
  rw [complete, decide_eq_true_iff, packs.count_eq]
  constructor
  · intro full
    apply Finset.eq_of_subset_of_card_le packs.inside
    rw [Finset.card_range, full]
  · intro all
    rw [all, Finset.card_range]

/-- The loop stops at the first chunk that is not held. -/
theorem skipHeld_least {chunkNo left : Nat} (turns : chunkNo + left = bitmap.chunkCount) :
    IsLeast {place | Stops bitmap.chunkCount members chunkNo place} (bitmap.skipHeld left chunkNo) := by
  induction left generalizing chunkNo with
  | zero =>
    refine ⟨.inl turns, ?_⟩
    rintro place (rfl | ⟨late, -⟩)
    · exact turns.le
    · exact late
  | succ left ih =>
    have held := packs.test_iff chunkNo
    have early : chunkNo < bitmap.chunkCount := by omega
    rw [skipHeld, decide_eq_true early, Bool.true_and]
    split
    · obtain ⟨stops, least⟩ := ih (show (chunkNo + 1) + left = bitmap.chunkCount by omega)
      refine ⟨by grind [Stops], fun place stopsAt => least ?_⟩
      grind [Stops]
    · refine ⟨.inr (by grind), ?_⟩
      rintro place (rfl | ⟨late, -⟩)
      · exact early.le
      · exact late

theorem firstMissing_least (start : Nat) :
    IsLeast {place | Stops bitmap.chunkCount members start place} (bitmap.firstMissing start) := by
  rw [firstMissing]
  by_cases early : start ≤ bitmap.chunkCount
  · rw [Nat.min_eq_left early]
    exact packs.skipHeld_least (by omega)
  -- A search that starts past the end finds the end.
  rw [Nat.min_eq_right (by omega), Nat.sub_self]
  refine ⟨.inl rfl, ?_⟩
  rintro place (rfl | ⟨late, before, -⟩)
  · exact Nat.le_refl _
  · omega

theorem represents : bitmap.Represents bitmap.chunkCount members where
  inside := packs.inside
  test_iff := packs.test_iff
  count_eq := packs.count_eq
  complete_iff := packs.complete_iff
  firstMissing_least := packs.firstMissing_least
  sized := packs.sized
  clean place past := by
    rw [packs.bit, decide_eq_false_iff_not]
    exact fun member => Nat.not_lt.mpr past (packs.lt_of_mem member)

/-- Octets of one size are equal exactly when they hold the same chunks. -/
theorem bits_eq_iff {other : HaveOctets} (otherPacks : other.Packs others)
    (sized : bitmap.chunkCount = other.chunkCount) : bitmap.bits = other.bits ↔ members = others := by
  constructor
  · intro same
    ext place
    have bit := packs.bit place
    rw [same, otherPacks.bit] at bit
    exact (decide_eq_decide.mp bit).symm
  · intro same
    apply ext_bitAt (by decide) (by rw [packs.sized, otherPacks.sized, sized])
    intro place
    rw [packs.bit, otherPacks.bit, same]

end Packs

/-- A bitmap without octets is one in which nothing is held. -/
theorem ofCount_eq (fits : chunkCount < 2 ^ 64 - 7) : ofCount chunkCount = ofOctets chunkCount [] := by
  have stored : (ofOctets chunkCount []).Packs (storedHeld chunkCount []) := packs_normalise fits
  have nothing : (ofCount chunkCount).Packs ∅ := by
    refine ⟨fits, Finset.empty_subset _, ?_, by grind [bitAt, ofCount]⟩
    rw [ofCount, List.length_replicate, octetCount, uint64Limit, Nat.mod_eq_of_lt (by omega)]
  have same := (nothing.bits_eq_iff stored rfl).mpr (by simp [storedHeld, bitAt])
  exact congrArg (fun bits => HaveOctets.mk bits chunkCount) same

/-- The chunk bitmap is a set of chunk numbers, and its octets are determined by that set. -/
theorem represents_after (fits : chunkCount < 2 ^ 64 - 7) (octets : List (BitVec 8)) (changes : List Change) :
    (after chunkCount octets changes).Represents chunkCount (heldAfter chunkCount octets changes) ∧
      (∀ others otherChanges,
        (after chunkCount octets changes).bits = (after chunkCount others otherChanges).bits ↔
          heldAfter chunkCount octets changes = heldAfter chunkCount others otherChanges) ∧
      ofCount chunkCount = ofOctets chunkCount [] := by
  obtain ⟨packs, sized⟩ := packs_after fits octets changes
  refine ⟨?_, ?_, ofCount_eq fits⟩
  · have represents := packs.represents
    rwa [sized] at represents
  · intro others otherChanges
    obtain ⟨otherPacks, otherSized⟩ := packs_after fits others otherChanges
    exact packs.bits_eq_iff otherPacks (sized.trans otherSized.symm)

/-- A stray bit and a longer blob do not count. -/
theorem represents_after_stray :
    9 < 2 ^ 64 - 7 ∧ (after 9 [1#8, 255#8, 7#8] [.set 12 true, .set 3 true]).Represents 9
      (heldAfter 9 [1#8, 255#8, 7#8] [.set 12 true, .set 3 true]) :=
  ⟨by decide, (represents_after (by decide) _ _).1⟩

/-- The octets as the bits with which the data table is modelled. -/
def unpack (bitmap : HaveOctets) : HaveBitmap :=
  (List.range bitmap.chunkCount).map bitmap.test

theorem Packs.unpack_eq (packs : bitmap.Packs members) :
    bitmap.unpack = (List.range bitmap.chunkCount).map fun place => decide (place ∈ members) := by
  apply List.map_congr_left
  intro place _
  rw [Bool.eq_iff_iff, decide_eq_true_iff]
  exact packs.test_iff place

/-- A call on the bits of the data table. -/
def applyBits (bits : HaveBitmap) : Change → HaveBitmap
  | .set chunkNo held => List.set bits chunkNo held
  | .setAll => bits.setAll
  | .clear => bits.clear

theorem Packs.unpack_apply (packs : bitmap.Packs members) (change : Change) :
    (bitmap.apply change).unpack = applyBits bitmap.unpack change := by
  rw [(packs.apply change).1.unpack_eq, (packs.apply change).2, packs.unpack_eq]
  obtain ⟨chunkNo, _ | _⟩ | _ | _ := change <;> apply List.ext_getElem <;>
    grind [changeHeld, applyBits, HaveBitmap.setAll, HaveBitmap.clear]

theorem Packs.complete_unpack (packs : bitmap.Packs members) : bitmap.unpack.complete = bitmap.complete := by
  rw [Bool.eq_iff_iff, packs.complete_iff, HaveBitmap.complete, decide_eq_true_iff, List.count_eq_length,
    packs.unpack_eq]
  simp only [List.forall_mem_map, List.mem_range, eq_comm (a := true), decide_eq_true_iff]
  constructor
  · exact fun all => packs.inside.antisymm fun place early => all place (Finset.mem_range.mp early)
  · exact fun all place early => all ▸ Finset.mem_range.mpr early

/-- Every run of calls on the octets is the run on the bits of the data table, and both tell when a data is complete. -/
theorem unpack_after (fits : chunkCount < 2 ^ 64 - 7) (octets : List (BitVec 8)) (changes : List Change) :
    (after chunkCount octets changes).unpack = changes.foldl applyBits (ofOctets chunkCount octets).unpack ∧
      (after chunkCount octets changes).complete =
        HaveBitmap.complete (changes.foldl applyBits (ofOctets chunkCount octets).unpack) := by
  suffices same : (after chunkCount octets changes).unpack = changes.foldl applyBits (ofOctets chunkCount octets).unpack
    from ⟨same, same ▸ (packs_after fits octets changes).1.complete_unpack.symm⟩
  have start : (ofOctets chunkCount octets).Packs (storedHeld chunkCount octets) := packs_normalise fits
  unfold after
  generalize ofOctets chunkCount octets = bitmap at start ⊢
  generalize storedHeld chunkCount octets = members at start
  induction changes generalizing bitmap members with
  | nil => rfl
  | cons change rest ih => exact (ih _ _ (start.apply change).1).trans (by rw [start.unpack_apply, List.foldl_cons])

theorem unpack_after_stray :
    (after 9 [1#8, 255#8] [.set 12 true, .set 3 true]).unpack =
      [.set 12 true, .set 3 true].foldl applyBits (ofOctets 9 [1#8, 255#8]).unpack :=
  (unpack_after (by decide) _ _).1

end SpSync.HaveOctets
