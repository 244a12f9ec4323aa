/-
This file names what the securepath library provides: serialisation, hashes and cryptography.
-/

import SpSync.Construction.Core.Records

namespace SpSync

/-- The functions of the securepath library that the repository calls. -/
structure Securepath where
  /-- The octets of a serialised record. -/
  Blob : Type
  decidableEqBlob : DecidableEq Blob
  size : Blob → Nat
  serialise : Record → Blob
  /-- Octets that are not a record do not parse. -/
  deserialise : Blob → Option Record
  /-- The number of octets of a hash and of a chunk's tag. -/
  hashDigestSize : Nat
  aesGcmTagSize : Nat
  /-- The hash of a serialised chain block. -/
  hash : ChainBlock Blob → Octets
  /-- The encrypted headers of a record and the tag that authenticates it. -/
  encrypt : EncryptionKey → RecordBase → RecordBody → List Octets → List Octets × RecordTag
  /-- The plain headers of a record and the tag they should have; a header may fail to parse. -/
  decrypt : EncryptionKey → RecordBase → RecordBody → List Octets → Option (List Octets × RecordTag)
  /-- The keys of an envelope that this client can open. -/
  openEnvelope : Octets → Option (List EncryptionKey)
  /-- The signature of a client over a record and its tag. -/
  signContent : PublicKeyId → Blob → RecordTag → Signature
  verifyContent : Signature → Blob → RecordTag → Bool
  /-- The signature of a server over the assignment in an envelope. -/
  signAssignment : PublicKeyId → Octets → ChainBlock Blob → Nat → Signature
  verifyAssignment : Octets → BlockEnvelope Blob → Signature → Bool

namespace Securepath

instance (lib : Securepath) : DecidableEq lib.Blob := lib.decidableEqBlob

abbrev Block (lib : Securepath) := ChainBlock lib.Blob

abbrev Envelope (lib : Securepath) := BlockEnvelope lib.Blob

def blockId (lib : Securepath) (block : lib.Block) : ChainBlockId :=
  ⟨block.sequence, lib.hash block⟩

/-- A block of a new record predicts the sequence that follows the last seen block. -/
def newBlock (lib : Securepath) (record : Record) (auth : ContentAuth) : lib.Block :=
  ⟨lib.serialise record, auth, record.base.lastSeenBlock.sequence + 1, []⟩

/-- A library small enough to evaluate: a serialised record is the record with a length, the hash
lists position and tag, and the tag of a record names the key and the operation. -/
def sample : Securepath where
  Blob := Nat × Record
  decidableEqBlob := inferInstance
  size := Prod.fst
  serialise record := (1, record)
  deserialise blob := some blob.2
  hashDigestSize := 64
  aesGcmTagSize := 16
  hash block := Fin.ofNat 256 block.sequence :: (block.tag ++ block.parentHash)
  encrypt key base _ headers := (headers, key.key ++ base.opId ++ base.iv)
  decrypt key base _ headers := some (headers, key.key ++ base.opId ++ base.iv)
  openEnvelope content := some [⟨1, content⟩]
  signContent issuer _ tag := ⟨issuer, tag⟩
  verifyContent signature _ tag := signature.value = tag
  signAssignment origin storageId block _ := ⟨origin, storageId ++ block.tag⟩
  verifyAssignment storageId envelope signature := signature.value = storageId ++ envelope.block.tag

end Securepath

end SpSync
