/-
This file holds what removes records from the log of a storage, and the restart of its server.
-/

import SpSync.Construction.Core.History
import SpSync.Construction.Server.Storage

namespace SpSync

variable {lib : Securepath}

namespace ChainLog

def truncateFrom (log : ChainLog lib) (firstRemoved : SequenceNumber) :
    Except Error (ChainLog lib × List lib.Block) :=
  if firstRemoved = 0 then .error ⟨.constraintViolation, "truncate_from requires a valid sequence number"⟩
  else
    let records := log.records.truncateFrom firstRemoved
    let removed := log.records.rows.filter fun row => RecordStorage.isReceived row && firstRemoved ≤ row.sequence
    .ok (⟨records, records.lastBlock⟩, (RecordStorage.bySequence removed).map Row.block)

/-- The history before a committed segment is removed, apart from the chains of the objects. -/
def cutBefore (log : ChainLog lib) (segmentTag : RecordTag) : Except Error (ChainLog lib × List lib.Block) :=
  let refusal : Error := ⟨.constraintViolation, "history cut requires a committed segment as the anchor"⟩
  match log.records.findTag segmentTag with
  | none => .error refusal
  | some segment =>
      if segment.type = .segment ∧ segment.state = .inSync then do
        let (records, removed) ← log.records.truncatePrefix segment.sequence
          (log.records.objectChainTagsBelow segment.sequence)
        return ({ log with records }, removed)
      else .error refusal

end ChainLog

def ChainSync.truncateFrom (sync : ChainSync lib) (firstRemoved : SequenceNumber) :
    Except Error (ChainSync lib × List lib.Block) := do
  let (log, removed) ← sync.log.truncateFrom firstRemoved
  return ({ sync with log, lastDataAddRemove := log.records.lastDataAddSequence,
                      lastUserChangeOrSegment := log.records.lastSpecialSequence }, removed)

namespace Storage

def truncateFrom (storage : Storage lib) (firstRemoved : SequenceNumber) :
    Except Error (Storage lib × List lib.Block) := do
  let (sync, removed) ← storage.sync.truncateFrom firstRemoved
  return ({ storage with sync }, removed)

def cutHistory (storage : Storage lib) (segmentTag : RecordTag) : Except Error (Storage lib × List lib.Block) := do
  let (log, removed) ← storage.sync.log.cutBefore segmentTag
  return ({ storage with sync := { storage.sync with log } }, removed)

/-- The storage as a restarted server opens it: the records, heads and evidence are in the database,
the head of the log and the cursors are read from the records. -/
def reopen (storage : Storage lib) (keys : Option (List PublicKeyId)) : Storage lib :=
  { storage with sync := .load storage.sync.config keys storage.sync.log.records }

def noticeEnvelope (storage : Storage lib) (envelope : lib.Envelope) : Option lib.Envelope :=
  match storage.admitForeign envelope with
  | (_, some _) => none
  | (admitted, none) =>
      if envelope.origin = admitted.ownId ∨ (admitted.sync.log.records.findTag envelope.block.tag).isSome then none
      else
        match admitted.sync.commitForeign envelope.block with
        | (_, .error _) => none
        | (_, .ok placed) =>
            if (admitted.applyAdmitted envelope).2.isSome then none
            else (admitted.applyAdmitted envelope).1.makeEnvelope placed

def commitEnvelope (storage : Storage lib) (block : lib.Block) : Option lib.Envelope :=
  match storage.sync.commitBlock block with
  | (_, .error _) => none
  | (_, .ok placed) => storage.makeEnvelope placed

end Storage

end SpSync
