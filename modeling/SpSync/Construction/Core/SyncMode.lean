/-
This file holds the modes and limits of a storage and the bounds of a data descriptor.
-/

import SpSync.Construction.Core.Securepath

namespace SpSync

inductive SyncMode
  | allowAll
  | requireSpecialSeen
  | requireDataAddRemoveSeen
  | requireAllSeen
deriving DecidableEq, Repr

def SyncMode.requiresSpecialSeen (mode : SyncMode) : Bool :=
  mode ≠ .allowAll

inductive AuthMode
  | onlyTag
  | signRecords
deriving DecidableEq, Repr

inductive ReplicationMode
  | none
  | weak
  | strict
deriving DecidableEq, Repr

/-- The limits of a storage; zero stands for a limit that is not known. -/
structure StorageLimits where
  maxRecordSize : Nat := 0
  chunkSize : Nat := 0
  keptDataVersions : Nat := 0
deriving DecidableEq, Repr

def StorageLimits.limitsOr (stated others : StorageLimits) : StorageLimits where
  maxRecordSize := if stated.maxRecordSize ≠ 0 then stated.maxRecordSize else others.maxRecordSize
  chunkSize := if stated.chunkSize ≠ 0 then stated.chunkSize else others.chunkSize
  keptDataVersions := if stated.keptDataVersions ≠ 0 then stated.keptDataVersions else others.keptDataVersions

def maxDataChunks : Nat := 200000

def chunkSizeLowest : Nat := 256 * 1024

def chunkSizeHighest : Nat := 8 * 1024 * 1024

def maxRecordSizeLowest : Nat := 4 * 1024

def maxRecordSizeHighest : Nat := 2 * 1024 * 1024

def keepAllDataVersions : Nat := 0xFFFFFFFF

def defaultStorageLimits : StorageLimits :=
  ⟨1024 * 1024, 1024 * 1024, 1⟩

def validStorageLimits (limits : StorageLimits) : Bool :=
  (limits.maxRecordSize = 0 || maxRecordSizeLowest ≤ limits.maxRecordSize && limits.maxRecordSize ≤ maxRecordSizeHighest) &&
    (limits.chunkSize = 0 || chunkSizeLowest ≤ limits.chunkSize && limits.chunkSize ≤ chunkSizeHighest) &&
    (limits.keptDataVersions = 0 || 1 ≤ limits.keptDataVersions && limits.keptDataVersions ≤ keepAllDataVersions)

structure StorageModes where
  mode : SyncMode := .requireAllSeen
  auth : AuthMode := .onlyTag
  replication : ReplicationMode := .none
  limits : StorageLimits := {}
deriving DecidableEq, Repr

/-- A replicated storage has signed records, and stated limits are in range. -/
def validStorageModes (modes : StorageModes) : Bool :=
  (modes.replication = .none || modes.auth = .signRecords) && validStorageLimits modes.limits

namespace DataDescriptor

def chunkCount (lib : Securepath) (descriptor : DataDescriptor) : Nat :=
  if descriptor.chunkSize = 0 then 0
  else
    let perChunk := descriptor.chunkSize + lib.aesGcmTagSize
    descriptor.encSize / perChunk + if descriptor.encSize % perChunk ≠ 0 then 1 else 0

def chunkEncSize (lib : Securepath) (descriptor : DataDescriptor) (chunk : Nat) : Nat :=
  if chunk < descriptor.chunkCount lib then
    let perChunk := descriptor.chunkSize + lib.aesGcmTagSize
    min perChunk (descriptor.encSize - chunk * perChunk)
  else 0

def usable (lib : Securepath) (descriptor : DataDescriptor) : Bool :=
  let chunks := descriptor.chunkCount lib
  descriptor.manifestDigest ≠ [] && 1 ≤ chunks && chunks ≤ maxDataChunks &&
    lib.aesGcmTagSize < descriptor.chunkEncSize lib (chunks - 1)

/-- The bounds by which every replica judges a descriptor. -/
def valid (lib : Securepath) (descriptor : DataDescriptor) : Bool :=
  chunkSizeLowest ≤ descriptor.chunkSize && descriptor.chunkSize ≤ chunkSizeHighest &&
    descriptor.manifestDigest.length = lib.hashDigestSize && descriptor.usable lib

end DataDescriptor

def objectIdSize : Nat := 16

def validObjectId (id : ObjectId) : Bool :=
  id.length = objectIdSize

end SpSync
