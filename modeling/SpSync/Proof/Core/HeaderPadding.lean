import SpSync.Construction.Core.HeaderPadding

namespace SpSync

open Foundation Encoding

variable {size : Nat} {header : Octets}

theorem shift_lastBits_le (positive : 0 < size) : 1 <<< lastBits size ≤ size := by
  have few : lastBits size ≤ size.log2 := by
    simp only [lastBits, bitWidth, if_neg (Nat.ne_of_gt positive)]
    omega
  calc 1 <<< lastBits size = 2 ^ lastBits size := by rw [Nat.shiftLeft_eq, Nat.one_mul]
    _ ≤ 2 ^ size.log2 := Nat.pow_le_pow_right (by decide) few
    _ ≤ size := Nat.log2_self_le (Nat.ne_of_gt positive)

/-- A size is not above its padded size, unless the sum has wrapped around. -/
theorem le_paddedSize (fits : size < uint64Limit) (floor : Nat) :
    size ≤ paddedSize size floor ∨ floor < size ∧ paddedSize size floor = 0 := by
  unfold paddedSize
  split
  · rename_i above
    have small := shift_lastBits_le (Nat.lt_of_le_of_lt (Nat.zero_le floor) above)
    have positive : 0 < 1 <<< lastBits size := by
      rw [Nat.shiftLeft_eq, Nat.one_mul]
      exact Nat.two_pow_pos _
    dsimp only
    generalize 1 <<< lastBits size = step at small positive ⊢
    rw [Nat.sub_add_cancel positive]
    by_cases whole : size + (step - 1) < uint64Limit
    · left
      rw [Nat.mod_eq_of_lt whole]
      have low := Nat.mod_lt (size + (step - 1)) positive
      omega
    · right
      refine ⟨above, ?_⟩
      -- What is left of the sum lies below the step of the class, which clears it.
      have sum : (size + (step - 1)) % uint64Limit = size + (step - 1) - uint64Limit := by
        rw [Nat.mod_eq_sub_mod (by omega), Nat.mod_eq_of_lt (by omega)]
      rw [sum, Nat.mod_eq_of_lt (by omega), Nat.sub_self]
  · left
    omega

theorem paddedSize_lt (size : Nat) : paddedSize size minPaddedHeaderSize < uint64Limit := by
  unfold paddedSize
  split
  · have whole := Nat.mod_lt (size + ((1 <<< lastBits size) - 1)) (show 0 < uint64Limit by decide)
    dsimp only
    omega
  · decide

/-- The size that a header and its padding have together. -/
def paddedTotal (padded : Nat) : Nat :=
  if padded = 0 then uint64Limit else padded

/-- A header is filled up to its class, or up to the end of the numbers. -/
theorem add_headerPadding (fits : size < uint64Limit) :
    size + headerPadding size = paddedTotal (paddedSize size minPaddedHeaderSize) := by
  unfold headerPadding paddedTotal
  obtain above | ⟨large, wrapped⟩ := le_paddedSize fits minPaddedHeaderSize
  · have filled : paddedSize size minPaddedHeaderSize ≠ 0 := by
      intro zero
      obtain rfl : size = 0 := by omega
      cases zero
    have within := paddedSize_lt size
    rw [if_neg filled, Nat.mod_eq_sub_mod (by omega), Nat.mod_eq_of_lt (by omega)]
    omega
  · rw [wrapped, if_pos rfl, Nat.zero_add, Nat.mod_eq_of_lt (by omega)]
    omega

/-- The octets of the two length fields around a header and its padding. -/
def fieldOctets (size : Nat) : Nat :=
  lengthSize size + lengthSize (headerPadding size)

/-- The octets inside the sequence. -/
def innerOctets (size : Nat) : Nat :=
  paddedTotal (paddedSize size minPaddedHeaderSize) + fieldOctets size + 2

theorem length_padRecordHeader (fits : header.length < uint64Limit) :
    (padRecordHeader header).length = 1 + lengthSize (innerOctets header.length) + innerOctets header.length := by
  have inner : (encode PaddedRecordHeader.octetStringTag header ++ (encode PaddedRecordHeader.octetStringTag
      (List.replicate (headerPadding header.length) (octet 0)) ++ [])).length = innerOctets header.length := by
    have filled := add_headerPadding fits
    simp only [List.length_append, length_encode, List.length_replicate, List.length_nil, innerOctets, fieldOctets]
    omega
  unfold padRecordHeader PaddedRecordHeader.serialise
  rw [length_encode, inner]

/-- The length field of the sequence does not make up for different lengths inside. -/
theorem total_inj {left right : Nat} (same : 1 + lengthSize left + left = 1 + lengthSize right + right) :
    left = right := by
  obtain less | equal | more := Nat.lt_trichotomy left right
  · have shorter := lengthSize_mono (Nat.le_of_lt less)
    omega
  · exact equal
  · have longer := lengthSize_mono (Nat.le_of_lt more)
    omega

theorem lengthSize_le {length : Nat} (small : length < 2 ^ 200) : lengthSize length ≤ 128 := by
  have width := lengthWidth_lt small
  rw [lengthSize_eq]
  split
  · omega
  · omega

theorem readOctetString_encode {content : Octets} (small : content.length < 2 ^ 200) (rest : Octets) :
    PaddedRecordHeader.readOctetString (encode PaddedRecordHeader.octetStringTag content ++ rest) =
      some (content, rest) := by
  unfold PaddedRecordHeader.readOctetString
  rw [readValue_encode (by decide) (lengthWidth_lt small)]
  rfl

/-- A serialised padded header is read back. -/
theorem deserialise_serialise {padded : PaddedRecordHeader} (header : padded.header.length < 2 ^ 100)
    (padding : padded.padding.length < 2 ^ 100) (trailing : padded.trailingData.length < 2 ^ 100) :
    PaddedRecordHeader.deserialise padded.serialise = some padded := by
  have headerField := lengthSize_le (show padded.header.length < 2 ^ 200 by omega)
  have paddingField := lengthSize_le (show padded.padding.length < 2 ^ 200 by omega)
  have fields : (encode PaddedRecordHeader.octetStringTag padded.header ++
      (encode PaddedRecordHeader.octetStringTag padded.padding ++ padded.trailingData)).length < 2 ^ 200 := by
    simp only [List.length_append, length_encode]
    omega
  have whole := readValue_encode (show PaddedRecordHeader.sequenceTag.val % 32 ≠ 31 by decide)
    (lengthWidth_lt fields) []
  rw [List.append_nil] at whole
  unfold PaddedRecordHeader.deserialise PaddedRecordHeader.serialise
  rw [whole]
  dsimp only
  rw [if_pos rfl, readOctetString_encode (by omega)]
  simp only [bind, Option.bind]
  rw [readOctetString_encode (by omega)]
  rfl

theorem unpad_padRecordHeader (fits : header.length < uint64Limit) :
    unpadRecordHeader (padRecordHeader header) = some header := by
  have bound : uint64Limit < 2 ^ 100 := by decide
  have filled : headerPadding header.length < uint64Limit := Nat.mod_lt _ (by decide)
  unfold unpadRecordHeader padRecordHeader
  rw [deserialise_serialise]
  · rfl
  · show header.length < 2 ^ 100
    omega
  · rw [List.length_replicate]
    omega
  · exact Nat.two_pow_pos 100

/-- In the smallest class, the fields take a fourth octet for the sizes 0, 128 and 256. -/
theorem fieldOctets_of_le (small : size ≤ minPaddedHeaderSize) :
    fieldOctets size = if size % 128 = 0 then 4 else 3 := by
  have all : ∀ size : Fin 257, fieldOctets size.val = if size.val % 128 = 0 then 4 else 3 := by decide +kernel
  exact all ⟨size, Nat.lt_succ_of_le small⟩

/-- Two headers of one size class take equally many octets exactly when the length fields around the headers and
their paddings do, which in the smallest class sets the sizes 0, 128 and 256 apart; and every header is read back. -/
theorem length_padRecordHeader_eq_iff (left right : Octets) (leftFits : left.length < uint64Limit)
    (rightFits : right.length < uint64Limit)
    (sameClass : paddedSize left.length minPaddedHeaderSize = paddedSize right.length minPaddedHeaderSize) :
    ((padRecordHeader left).length = (padRecordHeader right).length ↔
      fieldOctets left.length = fieldOctets right.length) ∧
    (left.length ≤ minPaddedHeaderSize → right.length ≤ minPaddedHeaderSize →
      ((padRecordHeader left).length = (padRecordHeader right).length ↔
        (left.length % 128 = 0 ↔ right.length % 128 = 0))) ∧
    unpadRecordHeader (padRecordHeader left) = some left := by
  have lengths : (padRecordHeader left).length = (padRecordHeader right).length ↔
      fieldOctets left.length = fieldOctets right.length := by
    rw [length_padRecordHeader leftFits, length_padRecordHeader rightFits]
    constructor
    · intro same
      have inner := total_inj same
      unfold innerOctets at inner
      rw [sameClass] at inner
      omega
    · intro same
      unfold innerOctets
      rw [sameClass, same]
  refine ⟨lengths, fun leftSmall rightSmall => ?_, unpad_padRecordHeader leftFits⟩
  rw [lengths, fieldOctets_of_le leftSmall, fieldOctets_of_le rightSmall]
  by_cases leftEven : left.length % 128 = 0 <;> by_cases rightEven : right.length % 128 = 0 <;>
    simp [leftEven, rightEven]

/-- Headers of ten and of two hundred octets look alike. -/
theorem length_padRecordHeader_eq_short :
    (padRecordHeader (List.replicate 10 (octet 1))).length = (padRecordHeader (List.replicate 200 (octet 1))).length ∧
      unpadRecordHeader (padRecordHeader (List.replicate 10 (octet 1))) = some (List.replicate 10 (octet 1)) := by
  obtain ⟨lengths, _, read⟩ := length_padRecordHeader_eq_iff (List.replicate 10 (octet 1)) (List.replicate 200 (octet 1))
    (by decide +kernel) (by decide +kernel) (by decide +kernel)
  exact ⟨lengths.mpr (by decide +kernel), read⟩

/-- A header of 128 octets takes one octet more than one of ten octets, though both are padded to 256. -/
theorem length_padRecordHeader_ne :
    paddedSize 10 minPaddedHeaderSize = paddedSize 128 minPaddedHeaderSize ∧
      (padRecordHeader (List.replicate 10 (octet 1))).length = 265 ∧
      (padRecordHeader (List.replicate 128 (octet 1))).length = 266 := by
  decide +kernel

end SpSync
