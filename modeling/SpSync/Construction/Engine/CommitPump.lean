/-
This file creates the records of a client, rebuilds the pending ones and commits them.
-/

import SpSync.Construction.Engine.EngineState
import SpSync.Foundation.Effect

namespace SpSync

open Foundation

/-- What an event does to the engine; an exception ends the event and keeps the state reached. -/
abbrev EngineEffect (lib : Securepath) := Effect Error (Engine lib)

namespace Engine

variable {lib : Securepath}

def writeRecords (write : RecordStorage lib → Except Error (RecordStorage lib)) : EngineEffect lib Unit := do
  match write (← get).records with
  | .ok records => modify fun engine => { engine with records }
  | .error err => throw err

def ofExcept {A : Type} : Except Error A → EngineEffect lib A
  | .ok value => pure value
  | .error err => throw err

def deserialiseRecord (block : lib.Block) : EngineEffect lib Record :=
  match lib.deserialise block.record with
  | some record => pure record
  | none => throw ⟨.invalidData, ""⟩

def randomOctets : EngineEffect lib Octets := do
  let engine ← get
  set { engine with drawn := engine.drawn + 1 }
  return engine.random engine.drawn

def request (asked : Request lib) : EngineEffect lib Nat := do
  let engine ← get
  set { engine with callId := engine.callId + 1, requests := engine.requests ++ [(engine.callId + 1, asked)] }
  return engine.callId + 1

def updateServerSeq (sequence : SequenceNumber) : EngineEffect lib Unit :=
  modify fun engine => { engine with serverSeq := max engine.serverSeq sequence }

def commitRecord (row : Row lib) : EngineEffect lib Unit := do
  if (← get).forkSuspected then return
  let handle ← request (.commit row.block)
  modify fun engine => { engine with
    pushingPendingCommit := handle, inFlightCommits := engine.inFlightCommits ++ [(handle, row.tag)] }

def operationId (opId : Octets) : EngineEffect lib Octets :=
  if opId = [] then randomOctets else pure opId

def makeRecord (key : EncryptionKey) (lastSeen : ChainBlockId) (opId : Octets) (body : RecordBody)
    (headers : List Octets) : EngineEffect lib lib.Block := do
  let iv ← randomOctets
  let opId ← operationId opId
  let engine ← get
  let signer := if engine.config.authMode = .signRecords then some engine.privateKey else none
  let block := createRecord lib ⟨key, lastSeen, signer, iv, opId, engine.lastSpecialTag⟩ body headers
  set { engine with created := engine.created ++ [block] }
  return block

def updatePendingCommit (block : lib.Block) (hasConflicts : Bool) : EngineEffect lib (Option lib.Block) := do
  let record ← deserialiseRecord block
  let engine ← get
  if record.base.lastSeenBlock = engine.records.lastBlock &&
      record.base.lastSeenSpecialTag = engine.lastSpecialTag && !hasConflicts then
    return none
  match findRecordKey lib engine.keys record block.auth with
  | none => throw ⟨.noEncryptionKeyFound, "could not find encryption key for pending commit"⟩
  | some key =>
      match verifyRecord lib key record block.auth with
      | none => throw ⟨.notAuthentic, "failed to authenticate record"⟩
      | some headers =>
          let body ← ofExcept (engine.rebasedBody record.body)
          return some (← makeRecord key engine.records.lastBlock record.base.opId body headers)

def rebuild (row : Row lib) (hasConflicts : Bool) : EngineEffect lib Bool := do
  match ← updatePendingCommit row.block hasConflicts with
  | some block => writeRecords fun records => records.setRecord row.key block
  | none => pure ()
  return true

def dropRow (row : Row lib) : EngineEffect lib Unit :=
  writeRecords fun records => records.setState row.key .invalid

def rebaseIfNeeded (row : Row lib) (record : Record) (hasConflicts : Bool) : EngineEffect lib Bool := do
  if hasConflicts || (← get).pendingNeedsRebase record then
    tryCatch (rebuild row hasConflicts) fun _ => do
      dropRow row
      return false
  else return true

/-- The pump goes over the pending records until it sends one. -/
def commitPendingFrom : Nat → Option (Row lib) → EngineEffect lib Unit
  | 0, _ => pure ()
  | _ + 1, none => pure ()
  | fuel + 1, some row => do
      let record ← deserialiseRecord row.block
      let hasConflicts := !((← get).findOidConflicts record).isEmpty
      if hasConflicts && (← get).config.conflicts = .ask then
        dropRow row
        commitPendingFrom fuel (← get).records.findFirstPendingCommit
      else if !(← rebaseIfNeeded row record hasConflicts) then
        commitPendingFrom fuel (← get).records.findFirstPendingCommit
      else
        let engine ← get
        let current := (engine.records.findKey row.key).getD row
        if engine.isRejectedUnchanged current then
          commitPendingFrom fuel (engine.records.findNextPendingCommit current.key)
        else commitRecord current

/-- Every drop starts the pump again, so it takes at most the square of the number of records. -/
def pumpFuel (records : RecordStorage lib) : Nat :=
  (records.rows.length + 1) * (records.rows.length + 1)

def tryCommitPending : EngineEffect lib Unit := do
  let engine ← get
  if engine.pushingPendingCommit = 0 && !engine.forkSuspected then
    commitPendingFrom (pumpFuel engine.records) engine.records.findFirstPendingCommit

def checkRecordSize (block : lib.Block) : EngineEffect lib Unit := do
  let engine ← get
  if engine.limits.maxRecordSize ≠ 0 && engine.limits.maxRecordSize < lib.size block.record then
    throw ⟨.syncRecordTooBig, "record exceeds the storage's max_record_size"⟩

def createAndCommit (lastSeen : ChainBlockId) (body : RecordBody) (headers : List Octets) :
    EngineEffect lib Unit := do
  let key ← ofExcept (← get).keys.currentKey
  let block ← makeRecord key lastSeen [] body headers
  checkRecordSize block
  writeRecords fun records => records.create block .pendingCommit
  match (← get).records.findTag block.tag with
  | some row => commitRecord row
  | none => pure ()

end Engine

end SpSync
