/-
This file holds the records, the chain blocks around them and the envelopes servers exchange.
-/

import SpSync.Construction.Core.Types

namespace SpSync

inductive Errc
  | invalidState
  | invalidData
  | databaseConstraint
  | exceptionOccurred
  | noSuchKey
  | signatureNotAuthentic
  | noEncryptionKeySet
  | noEncryptionKeyFound
  | constraintViolation
  | invalidRecordState
  | invalidRecordChainState
  | notAuthentic
  | syncRecordTooBig
  | invalidRecord
  | recordOutOfSync
  | recordAlreadyCommitted
  | conflictingRecord
  | recordTooBig
  | unknownSigner
  | originDiverged
  | originCondemned
  | noSuchStorage
  | invalidStorageModes
  | invalidConfiguration
  | dataTooBig
  | dataQuotaExceeded
  | invalidDataManifest
  | invalidDataChunk
  | noSuchUpload
deriving DecidableEq, Repr

structure Error where
  code : Errc
  message : String := ""
deriving DecidableEq, Repr

structure ChainBlockId where
  sequence : SequenceNumber := 0
  hash : Octets := []
deriving DecidableEq, Repr

def ChainBlockId.isValid (id : ChainBlockId) : Bool :=
  id.sequence ≠ 0 && id.hash ≠ []

def currentStructureVersion : Int := 2

structure RecordBase where
  structureVersion : Int := currentStructureVersion
  lastSeenBlock : ChainBlockId := {}
  iv : Octets := []
  encryptionKey : SequenceNumber := 0
  opId : Octets := []
  lastSeenSpecialTag : RecordTag := []
deriving DecidableEq, Repr

structure DataDescriptor where
  encSize : Nat
  chunkSize : Nat
  manifestDigest : Octets
deriving DecidableEq, Repr

structure PlainSingleChangeData where
  id : ObjectId
  previousOidRecordTag : RecordTag
  data : Option DataDescriptor := none
deriving DecidableEq, Repr

structure PlainUserChangeData where
  access : Users
  envelopedContent : Octets
deriving DecidableEq, Repr

structure PlainSegmentData where
  segmentStart : SequenceNumber
  segmentEnd : SequenceNumber
  tags : List RecordTag
  previousSegmentTag : RecordTag := []
deriving DecidableEq, Repr

inductive RecordType
  | userChange
  | dataChange
  | segment
deriving DecidableEq, Repr

inductive RecordBody
  | userChange (data : PlainUserChangeData)
  | dataChange (changes : List PlainSingleChangeData)
  | segment (data : PlainSegmentData)
deriving DecidableEq, Repr

def RecordBody.type : RecordBody → RecordType
  | .userChange _ => .userChange
  | .dataChange _ => .dataChange
  | .segment _ => .segment

structure Record where
  base : RecordBase
  body : RecordBody
  headers : List Octets
deriving DecidableEq, Repr

structure Signature where
  issuer : PublicKeyId
  value : Octets
deriving DecidableEq, Repr

structure ContentAuth where
  tag : RecordTag
  signature : Option Signature := none
deriving DecidableEq, Repr

/-- The serialised record, its authentication, and the position that the server sets. -/
structure ChainBlock (Blob : Type) where
  record : Blob
  auth : ContentAuth
  sequence : SequenceNumber
  parentHash : Octets
deriving DecidableEq

namespace ChainBlock

variable {Blob : Type}

def tag (block : ChainBlock Blob) : RecordTag :=
  block.auth.tag

def setSequenceAndParentHash (block : ChainBlock Blob) (sequence : SequenceNumber) (parentHash : Octets) :
    ChainBlock Blob :=
  { block with sequence, parentHash }

def checkMatchesWithoutServerData [DecidableEq Blob] (block other : ChainBlock Blob) : Bool :=
  block.record = other.record && block.auth = other.auth

@[simp]
theorem tag_setSequenceAndParentHash (block : ChainBlock Blob) (sequence : SequenceNumber) (parentHash : Octets) :
    (block.setSequenceAndParentHash sequence parentHash).tag = block.tag := rfl

@[simp]
theorem record_setSequenceAndParentHash (block : ChainBlock Blob) (sequence : SequenceNumber)
    (parentHash : Octets) : (block.setSequenceAndParentHash sequence parentHash).record = block.record := rfl

end ChainBlock

/-- A block with the server that assigned its sequence and the signature over the assignment. -/
structure BlockEnvelope (Blob : Type) where
  block : ChainBlock Blob
  origin : PublicKeyId
  term : Nat := 0
  signature : Option Signature := none
deriving DecidableEq

structure EncryptionKey where
  keySeq : SequenceNumber
  key : Octets
deriving DecidableEq, Repr

end SpSync
