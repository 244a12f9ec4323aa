/-
This file holds the octets that a signature digest is taken over.
-/

import SpSync.Construction.Core.HeaderPadding
import SpSync.Construction.Core.Securepath

namespace SpSync

open Foundation Encoding

def uint32Limit : Nat := 4294967296

def contextOctets (context : String) : Octets :=
  context.toList.map fun character => octet character.toNat

structure DigestBuffer where
  octets : Octets
deriving DecidableEq, Repr

namespace DigestBuffer

def ofContext (context : String) : DigestBuffer :=
  ⟨contextOctets context⟩

def appendBigEndian (buffer : DigestBuffer) (value octets : Nat) : DigestBuffer :=
  ⟨buffer.octets ++ bigEndian octets value⟩

def u32 (buffer : DigestBuffer) (value : Nat) : DigestBuffer :=
  buffer.appendBigEndian value 4

def u64 (buffer : DigestBuffer) (value : Nat) : DigestBuffer :=
  buffer.appendBigEndian value 8

/-- The length, cut to 32 bits, goes before the octets. -/
def sized (buffer : DigestBuffer) (octets : Octets) : DigestBuffer :=
  ⟨(buffer.u32 (octets.length % uint32Limit)).octets ++ octets⟩

end DigestBuffer

structure SequenceAssignment where
  storageId : Octets
  origin : PublicKeyId
  term : Nat
  sequence : SequenceNumber
  blockHash : Octets
deriving DecidableEq, Repr

def SequenceAssignment.digestOctets (assignment : SequenceAssignment) : Octets :=
  ((((((DigestBuffer.ofContext "spsync-assign").sized assignment.storageId).sized assignment.origin).u64
    assignment.term).u64 assignment.sequence).sized assignment.blockHash).octets

/-- The permission to move one data; the expiry in seconds since the epoch. -/
structure DataTicket where
  storageId : Octets
  descriptor : DataDescriptor
  member : PublicKeyId
  right : Nat
  expiry : Int
deriving DecidableEq, Repr

def DataTicket.digestOctets (ticket : DataTicket) : Octets :=
  ((((((((DigestBuffer.ofContext "spsync-data-ticket").sized ticket.storageId).sized
    ticket.descriptor.manifestDigest).u64 ticket.descriptor.encSize).u32 ticket.descriptor.chunkSize).sized
      ticket.member).u32 ticket.right).u64 (ticket.expiry % Int.ofNat uint64Limit).toNat).octets

def signingOctets (recordBytes tag : Octets) : Octets :=
  contextOctets "spsync-record" ++ recordBytes ++ tag

end SpSync
