import SpSync.Construction.Core.SignedOctets

namespace SpSync

open Foundation Encoding

variable {left right : DataTicket}

section Fields

variable {left right leftRest rightRest : Octets}

/-- The octets of a field with its length before it. -/
def sizedField (octets : Octets) : Octets :=
  bigEndian 4 (octets.length % uint32Limit) ++ octets

theorem bigEndian_append_inj {width one two : Nat} (oneFits : one < 256 ^ width) (twoFits : two < 256 ^ width)
    (same : bigEndian width one ++ leftRest = bigEndian width two ++ rightRest) : one = two ∧ leftRest = rightRest := by
  have lengths : (bigEndian width one).length = (bigEndian width two).length := by
    rw [length_bigEndian, length_bigEndian]
  obtain ⟨numbers, rests⟩ := List.append_inj same lengths
  exact ⟨bigEndian_inj oneFits twoFits numbers, rests⟩

/-- A field and what follows it are told apart by its length. -/
theorem sizedField_append_inj (leftFits : left.length < uint32Limit) (rightFits : right.length < uint32Limit)
    (same : sizedField left ++ leftRest = sizedField right ++ rightRest) : left = right ∧ leftRest = rightRest := by
  unfold sizedField at same
  rw [List.append_assoc, List.append_assoc, Nat.mod_eq_of_lt leftFits, Nat.mod_eq_of_lt rightFits] at same
  obtain ⟨lengths, rests⟩ := bigEndian_append_inj leftFits rightFits same
  exact List.append_inj rests lengths

end Fields

/-- The values of an assignment are of the widths that the source gives them. -/
structure SequenceAssignment.Fits (assignment : SequenceAssignment) : Prop where
  storageId : assignment.storageId.length < uint32Limit
  origin : assignment.origin.length < uint32Limit
  term : assignment.term < uint64Limit
  sequence : assignment.sequence < uint64Limit
  blockHash : assignment.blockHash.length < uint32Limit

structure DataTicket.Fits (ticket : DataTicket) : Prop where
  storageId : ticket.storageId.length < uint32Limit
  manifestDigest : ticket.descriptor.manifestDigest.length < uint32Limit
  encSize : ticket.descriptor.encSize < uint64Limit
  chunkSize : ticket.descriptor.chunkSize < uint32Limit
  member : ticket.member.length < uint32Limit
  right : ticket.right < uint32Limit
  expiry : -9223372036854775808 ≤ ticket.expiry ∧ ticket.expiry < 9223372036854775808

theorem SequenceAssignment.digestOctets_eq (assignment : SequenceAssignment) :
    assignment.digestOctets = contextOctets "spsync-assign" ++ (sizedField assignment.storageId ++
      (sizedField assignment.origin ++ (bigEndian 8 assignment.term ++ (bigEndian 8 assignment.sequence ++
        (sizedField assignment.blockHash ++ []))))) := by
  simp only [digestOctets, DigestBuffer.sized, DigestBuffer.u64, DigestBuffer.u32, DigestBuffer.appendBigEndian,
    DigestBuffer.ofContext, sizedField, List.append_assoc, List.append_nil]

theorem DataTicket.digestOctets_eq (ticket : DataTicket) :
    ticket.digestOctets = contextOctets "spsync-data-ticket" ++ (sizedField ticket.storageId ++
      (sizedField ticket.descriptor.manifestDigest ++ (bigEndian 8 ticket.descriptor.encSize ++
        (bigEndian 4 ticket.descriptor.chunkSize ++ (sizedField ticket.member ++ (bigEndian 4 ticket.right ++
          (bigEndian 8 (ticket.expiry % Int.ofNat uint64Limit).toNat ++ []))))))) := by
  simp only [digestOctets, DigestBuffer.sized, DigestBuffer.u64, DigestBuffer.u32, DigestBuffer.appendBigEndian,
    DigestBuffer.ofContext, sizedField, List.append_assoc, List.append_nil]

theorem SequenceAssignment.digestOctets_inj {left right : SequenceAssignment} (leftFits : left.Fits)
    (rightFits : right.Fits) (same : left.digestOctets = right.digestOctets) : left = right := by
  rw [left.digestOctets_eq, right.digestOctets_eq] at same
  have fields := List.append_cancel_left same
  obtain ⟨storageId, fields⟩ := sizedField_append_inj leftFits.storageId rightFits.storageId fields
  obtain ⟨origin, fields⟩ := sizedField_append_inj leftFits.origin rightFits.origin fields
  obtain ⟨term, fields⟩ := bigEndian_append_inj leftFits.term rightFits.term fields
  obtain ⟨sequence, fields⟩ := bigEndian_append_inj leftFits.sequence rightFits.sequence fields
  obtain ⟨blockHash, -⟩ := sizedField_append_inj leftFits.blockHash rightFits.blockHash fields
  cases left
  cases right
  simp only [SequenceAssignment.mk.injEq]
  exact ⟨storageId, origin, term, sequence, blockHash⟩

/-- A signed number of 64 bits is told by its unsigned form. -/
theorem expiry_inj (leftFits : left.Fits) (rightFits : right.Fits)
    (same : (left.expiry % Int.ofNat uint64Limit).toNat = (right.expiry % Int.ofNat uint64Limit).toNat) :
    left.expiry = right.expiry := by
  have limit : Int.ofNat uint64Limit = 18446744073709551616 := rfl
  rw [limit] at same
  obtain ⟨leftLow, leftHigh⟩ := leftFits.expiry
  obtain ⟨rightLow, rightHigh⟩ := rightFits.expiry
  omega

theorem unsigned_lt (value : Int) : (value % Int.ofNat uint64Limit).toNat < 256 ^ 8 := by
  have limit : Int.ofNat uint64Limit = 18446744073709551616 := rfl
  rw [limit]
  omega

theorem DataTicket.digestOctets_inj (leftFits : left.Fits) (rightFits : right.Fits)
    (same : left.digestOctets = right.digestOctets) : left = right := by
  rw [left.digestOctets_eq, right.digestOctets_eq] at same
  have fields := List.append_cancel_left same
  obtain ⟨storageId, fields⟩ := sizedField_append_inj leftFits.storageId rightFits.storageId fields
  obtain ⟨digest, fields⟩ := sizedField_append_inj leftFits.manifestDigest rightFits.manifestDigest fields
  obtain ⟨encSize, fields⟩ := bigEndian_append_inj leftFits.encSize rightFits.encSize fields
  obtain ⟨chunkSize, fields⟩ := bigEndian_append_inj leftFits.chunkSize rightFits.chunkSize fields
  obtain ⟨member, fields⟩ := sizedField_append_inj leftFits.member rightFits.member fields
  obtain ⟨granted, fields⟩ := bigEndian_append_inj leftFits.right rightFits.right fields
  obtain ⟨expiry, -⟩ := bigEndian_append_inj (unsigned_lt left.expiry) (unsigned_lt right.expiry) fields
  have seconds := expiry_inj leftFits rightFits expiry
  obtain ⟨_, ⟨_, _, _⟩, _, _, _⟩ := left
  obtain ⟨_, ⟨_, _, _⟩, _, _, _⟩ := right
  simp only [DataTicket.mk.injEq, DataDescriptor.mk.injEq]
  exact ⟨storageId, ⟨encSize, chunkSize, digest⟩, member, granted, seconds⟩

/-- What a key of the system signs. -/
inductive SignedContent
  | assignment (assignment : SequenceAssignment)
  | ticket (ticket : DataTicket)
  | record (recordBytes tag : Octets)
deriving DecidableEq, Repr

namespace SignedContent

/-- The octets whose hash is signed. -/
def octets : SignedContent → Octets
  | .assignment fields => fields.digestOctets
  | .ticket fields => fields.digestOctets
  | .record recordBytes tag => signingOctets recordBytes tag

/-- The values are of their widths, and the octets of a record are one complete value. -/
def Fits : SignedContent → Prop
  | .assignment fields => fields.Fits
  | .ticket fields => fields.Fits
  | .record recordBytes _ => IsValue recordBytes

/-- The first octets tell the context. -/
def context : SignedContent → Octets
  | .assignment _ => contextOctets "spsync-assign"
  | .ticket _ => contextOctets "spsync-data-t"
  | .record _ _ => contextOctets "spsync-record"

theorem take_octets (content : SignedContent) : content.octets.take 13 = content.context := by
  cases content with
  | assignment fields =>
    rw [octets, fields.digestOctets_eq]
    rfl
  | ticket fields =>
    rw [octets, fields.digestOctets_eq]
    rfl
  | record recordBytes tag => rfl

/-- The signed octets tell the kind and all its fields. -/
theorem octets_eq_iff (left right : SignedContent) (leftFits : left.Fits) (rightFits : right.Fits) :
    left.octets = right.octets ↔ left = right := by
  refine ⟨fun same => ?_, congrArg octets⟩
  have contexts : left.context = right.context := by
    rw [← take_octets, ← take_octets, same]
  have assignmentOrTicket : contextOctets "spsync-assign" ≠ contextOctets "spsync-data-t" := by decide
  have assignmentOrRecord : contextOctets "spsync-assign" ≠ contextOctets "spsync-record" := by decide
  have ticketOrRecord : contextOctets "spsync-data-t" ≠ contextOctets "spsync-record" := by decide
  cases left with
  | assignment left =>
    cases right with
    | assignment right => exact congrArg _ (SequenceAssignment.digestOctets_inj leftFits rightFits same)
    | ticket right => exact absurd contexts assignmentOrTicket
    | record recordBytes tag => exact absurd contexts assignmentOrRecord
  | ticket left =>
    cases right with
    | assignment right => exact absurd contexts assignmentOrTicket.symm
    | ticket right => exact congrArg _ (DataTicket.digestOctets_inj leftFits rightFits same)
    | record recordBytes tag => exact absurd contexts ticketOrRecord
  | record leftBytes leftTag =>
    cases right with
    | assignment right => exact absurd contexts assignmentOrRecord.symm
    | ticket right => exact absurd contexts ticketOrRecord.symm
    | record rightBytes rightTag =>
      have joined : contextOctets "spsync-record" ++ (leftBytes ++ leftTag) =
          contextOctets "spsync-record" ++ (rightBytes ++ rightTag) := by
        rw [← List.append_assoc, ← List.append_assoc]
        exact same
      obtain ⟨bytes, tags⟩ := IsValue.append_inj leftFits rightFits (List.append_cancel_left joined)
      rw [bytes, tags]

/-- An empty sequence as a record, signed with a tag. -/
def emptyRecord : SignedContent :=
  .record [48, 0] [7]

/-- A permission to upload. -/
def uploadTicket : SignedContent :=
  .ticket ⟨[1], ⟨32, 16, [5]⟩, [2], 1, 100⟩

theorem octets_eq_iff_kinds : (emptyRecord.octets = uploadTicket.octets ↔ emptyRecord = uploadTicket) ∧
    emptyRecord ≠ uploadTicket := by
  have recordFits : emptyRecord.Fits := ⟨[48], [], by decide⟩
  have ticketFits : uploadTicket.Fits := by
    constructor <;> decide
  exact ⟨octets_eq_iff emptyRecord uploadTicket recordFits ticketFits, by decide⟩

end SignedContent

end SpSync
