/-
This file holds one replicated storage of a server: its log, the heads of the origins and the
evidence against them.
-/

import SpSync.Construction.Server.ChainSync

namespace SpSync

/-- The newest known block of each origin, in the order of the origins. -/
structure StorageHeads where
  entries : List OriginHead := []
deriving DecidableEq, Repr

namespace StorageHeads

def find (heads : StorageHeads) (origin : PublicKeyId) : Option OriginHead :=
  heads.entries.find? fun head => head.origin = origin

def newer (heads : StorageHeads) (head : OriginHead) : Bool :=
  match heads.find head.origin with
  | none => true
  | some existing =>
      existing.term < head.term || (existing.term = head.term && existing.block.sequence < head.block.sequence)

/-- The head of the origin is replaced in its place, or takes its place among the others. -/
def put (head : OriginHead) : List OriginHead → List OriginHead
  | [] => [head]
  | first :: rest =>
      if first.origin = head.origin then head :: rest
      else if head.origin < first.origin then head :: first :: rest
      else first :: put head rest

def advance (heads : StorageHeads) (head : OriginHead) : Except Error StorageHeads :=
  if head.origin = [] ∨ !head.block.isValid then
    .error ⟨.constraintViolation, "advancing an invalid origin head"⟩
  else if heads.newer head then .ok ⟨put head heads.entries⟩
  else .ok heads

end StorageHeads

/-- Two envelopes of one origin that assign one sequence to different blocks. -/
structure EquivocationProof (lib : Securepath) where
  first : lib.Envelope
  second : lib.Envelope
deriving DecidableEq

structure Storage (lib : Securepath) where
  id : Octets
  ownId : PublicKeyId
  replication : ReplicationMode
  sync : ChainSync lib
  heads : StorageHeads := {}
  evidence : List (EquivocationProof lib) := []

namespace Storage

variable {lib : Securepath}

/-- The storage with these modes before its first record. -/
def ofModes (id : Octets) (ownId : PublicKeyId) (keys : Option (List PublicKeyId)) (modes : StorageModes) :
    Storage lib :=
  let config : ChainSyncConfig :=
    { mode := modes.mode
      authMode := modes.auth
      replication := modes.replication
      maxRecordSize := modes.limits.maxRecordSize }
  { id, ownId, replication := modes.replication, sync := .load config keys (.empty lib) }

/-- Limits that are not stated come from the defaults of the server, then from the compiled ones. -/
def create (id : Octets) (ownId : PublicKeyId) (keys : Option (List PublicKeyId)) (modes : StorageModes)
    (defaults : StorageLimits) : Except Error (Storage lib) :=
  let limits := (modes.limits.limitsOr defaults).limitsOr defaultStorageLimits
  if !validStorageModes modes then .error ⟨.invalidStorageModes, "invalid storage modes"⟩
  else if !validStorageLimits limits then .error ⟨.invalidStorageModes, "invalid storage limits"⟩
  else .ok (ofModes id ownId keys { modes with limits })

def verifyEnvelope (storage : Storage lib) (keys : List PublicKeyId) (envelope : lib.Envelope) : Option Error :=
  match envelope.signature with
  | none => some ⟨.invalidState, "block envelope is not signed"⟩
  | some signature =>
      if signature.issuer ≠ envelope.origin then
        some ⟨.signatureNotAuthentic, "envelope signer differs from origin"⟩
      else if envelope.origin ∉ keys then some ⟨.noSuchKey, ""⟩
      else if lib.verifyAssignment storage.id envelope signature then none
      else some ⟨.signatureNotAuthentic, ""⟩

/-- The own head is derived from the log, the others are kept. -/
def announcedHeads (storage : Storage lib) : List OriginHead :=
  let own := storage.sync.log.originHead storage.ownId
  (if storage.ownId ≠ [] ∧ own.isValid then [⟨storage.ownId, 0, own⟩] else []) ++
    storage.heads.entries.filter fun head => head.origin ≠ storage.ownId

def historySamples (storage : Storage lib) : List OriginSamples :=
  storage.announcedHeads.map fun head => storage.sync.log.samplesOf head.origin

def knownOriginSeq (storage : Storage lib) (origin : PublicKeyId) : SequenceNumber :=
  if origin = storage.ownId then (storage.sync.log.originHead storage.ownId).sequence
  else (storage.heads.find origin).elim 0 fun head => head.block.sequence

def makeEnvelope (storage : Storage lib) (block : lib.Block) : Option lib.Envelope :=
  if storage.ownId = [] then none
  else some ⟨block, storage.ownId, 0, some (lib.signAssignment storage.ownId storage.id block 0)⟩

/-- A committed block is kept with its signed assignment, which is also the push to the peers. -/
def commitBlock (storage : Storage lib) (block : lib.Block) :
    Storage lib × Except Error (lib.Block × Option lib.Envelope) :=
  match storage.sync.commitBlock block with
  | (sync, .error err) => ({ storage with sync }, .error err)
  | (sync, .ok placed) =>
      match storage.makeEnvelope placed with
      | none => ({ storage with sync }, .ok (placed, none))
      | some envelope =>
          match sync.log.storeAssignment placed.tag envelope with
          | .error err => ({ storage with sync }, .error err)
          | .ok log => ({ storage with sync := { sync with log } }, .ok (placed, some envelope))

def condemned (storage : Storage lib) (origin : PublicKeyId) : Bool :=
  storage.evidence.any fun proof => proof.first.origin = origin

def verifyProof (storage : Storage lib) (keys : List PublicKeyId) (proof : EquivocationProof lib) : Bool :=
  (storage.verifyEnvelope keys proof.first).isNone && (storage.verifyEnvelope keys proof.second).isNone &&
    proof.first.origin = proof.second.origin && proof.first.term = proof.second.term &&
    proof.first.block.sequence = proof.second.block.sequence &&
    lib.hash proof.first.block ≠ lib.hash proof.second.block

def holdsProof (storage : Storage lib) (proof : EquivocationProof lib) : Bool :=
  storage.evidence.any fun held => held.first.origin = proof.first.origin &&
    held.first.term = proof.first.term && held.first.block.sequence = proof.first.block.sequence

def noteEvidence (storage : Storage lib) (keys : List PublicKeyId) (proof : EquivocationProof lib) : Storage lib :=
  if storage.verifyProof keys proof && !storage.holdsProof proof then
    { storage with evidence := storage.evidence ++ [proof] }
  else storage

/-- A bad signature, a condemned origin or an assignment that parts from the held history keep a
record out. -/
def admitForeign (storage : Storage lib) (envelope : lib.Envelope) : Storage lib × Option Error :=
  if storage.replication ≠ .weak then
    (storage, some ⟨.invalidState, "storage does not replicate in weak mode"⟩)
  else match storage.sync.keys with
    | none => (storage, some ⟨.invalidState, "no key access to verify the origin"⟩)
    | some keys =>
        match storage.verifyEnvelope keys envelope with
        | some err => (storage, some err)
        | none =>
            if storage.condemned envelope.origin then (storage, some ⟨.originCondemned, ""⟩)
            else
              let held := storage.sync.log.records.originBlockHash envelope.origin envelope.block.sequence
              if held ≠ [] ∧ held ≠ lib.hash envelope.block then
                let ours := storage.sync.log.getByOrigin envelope.origin envelope.block.sequence
                  envelope.block.sequence 1 (1 <<< 64 - 1)
                (match ours with
                  | first :: _ => storage.noteEvidence keys ⟨first, envelope⟩
                  | [] => storage, some ⟨.originDiverged, ""⟩)
              else (storage, none)

def permanentRejection (err : Error) : Bool :=
  err.code = .invalidRecord || err.code = .recordTooBig || err.code = .conflictingRecord

/-- The origin head moves past a foreign record that was not committed. -/
def foreignRecordSkipped (err : Error) : Bool :=
  err.code = .recordAlreadyCommitted || permanentRejection err

def advanceHead (storage : Storage lib) (head : OriginHead) : Storage lib × Option Error :=
  match storage.heads.advance head with
  | .error err => (storage, some err)
  | .ok heads => ({ storage with heads }, none)

def applyAdmitted (storage : Storage lib) (envelope : lib.Envelope) : Storage lib × Option Error :=
  let block := envelope.block
  let head : OriginHead := ⟨envelope.origin, envelope.term, lib.blockId block⟩
  if envelope.origin = storage.ownId then (storage, none)
  else if (storage.sync.log.records.findTag block.tag).isSome then storage.advanceHead head
  else
    match storage.sync.commitForeign block with
    | (sync, .error err) =>
        if foreignRecordSkipped err then { storage with sync }.advanceHead head
        else ({ storage with sync }, some err)
    | (sync, .ok _) =>
        match { storage with sync }.advanceHead head with
        | (advanced, some err) => (advanced, some err)
        | (advanced, none) =>
            match advanced.sync.log.storeAssignment block.tag envelope with
            | .error err => (advanced, some err)
            | .ok log => ({ advanced with sync := { advanced.sync with log } }, none)

def applyForeign (storage : Storage lib) (envelope : lib.Envelope) : Storage lib × Option Error :=
  match storage.admitForeign envelope with
  | (admitted, some err) => (admitted, some err)
  | (admitted, none) => admitted.applyAdmitted envelope

def getEnvelopesByOrigin (storage : Storage lib) (origin : PublicKeyId) (first last : SequenceNumber) :
    List lib.Envelope :=
  storage.sync.getEnvelopesByOrigin origin first last

def findDivergence (storage : Storage lib) (samples : OriginSamples) : Divergence :=
  storage.sync.log.findDivergence samples

end Storage

end SpSync
