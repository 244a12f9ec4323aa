/-
This file takes the records that the server delivers: it verifies, stores, confirms and promotes them.
-/

import SpSync.Construction.Engine.CommitPump

namespace SpSync.Engine

variable {lib : Securepath}

/-- The chain rules judge the block; a block that contradicts the anchor stops the commits for good. -/
def checkChainBlock (block : lib.Block) : EngineEffect lib RecordState := do
  let engine ← get
  if !engine.anchorContradicted && engine.anchorGate block = some .invalid then
    set { engine with forkSuspected := true, anchorContradicted := true }
  return engine.chainState block

def clearRejections : EngineEffect lib Unit :=
  modify fun engine => { engine with rejectedPending := [] }

def eraseRejection (tag : RecordTag) : EngineEffect lib Unit :=
  modify fun engine => { engine with rejectedPending := engine.rejectedPending.filter fun entry => entry.1 ≠ tag }

def updateRecordCommitState (row : Row lib) (block : lib.Block) (id : ChainBlockId) : EngineEffect lib Unit := do
  if row.state.isServerConfirmed then return
  let state ← checkChainBlock block
  if block.checkMatchesWithoutServerData row.block && state.isValid then
    writeRecords fun records => records.setState row.key state id block.parentHash
  else dropRow row

def promotePending : Nat → ChainBlockId → EngineEffect lib Unit
  | 0, _ => pure ()
  | fuel + 1, id => do
      match (← get).records.find (id.sequence + 1) .pendingSync with
      | none => pure ()
      | some next =>
          if next.parentHash = id.hash then
            writeRecords fun records => records.setState next.key .inSync
            promotePending fuel next.blockId

def checkPendingRecords (id : ChainBlockId) : EngineEffect lib Unit := do
  promotePending (← get).records.rows.length id

/-- Once the anchor is in sync the retained records below it stand on their own. -/
def promotePreAnchorRecords (id : ChainBlockId) : EngineEffect lib Unit := do
  let engine ← get
  if engine.config.trustedAnchor.isValid && id.hash = engine.config.trustedAnchor.hash then
    (engine.records.findAllInRange 1 (some (id.sequence - 1)) .pendingSync).forM fun row =>
      writeRecords fun records => records.setState row.key .inSync

def checkFork (record : Record) : EngineEffect lib Unit := do
  let engine ← get
  let seen := record.base.lastSeenBlock
  if engine.config.mode = .requireAllSeen && !engine.forkSuspected && seen.isValid then
    match engine.records.find seen.sequence .inSync with
    | some ours => if ours.hash ≠ seen.hash then set { engine with forkSuspected := true }
    | none => pure ()

def handleBlockChain (block : lib.Block) : EngineEffect lib Bool := do
  let state ← checkChainBlock block
  writeRecords fun records => records.create block state
  return state = .inSync

def verifyBlock (key : EncryptionKey) (block : lib.Block) (id : ChainBlockId) (record : Record) :
    EngineEffect lib Unit := do
  if (verifyRecord lib key record block.auth).isSome then
    checkFork record
    updateServerSeq block.sequence
    if ← handleBlockChain block then
      promotePreAnchorRecords id
      checkPendingRecords id
      let engine ← get
      if engine.records.lastBlock.sequence = engine.serverSeq then tryCommitPending

def retryReadable (row : Row lib) (record : Record) : EngineEffect lib Bool := do
  modify fun engine => { engine with keys := (extractKeysOf lib engine.keys record).1 }
  if (← checkChainBlock row.block) = .inSync then
    writeRecords fun records => records.setState row.key .inSync
    return true
  return false

def retryRow (row : Row lib) : EngineEffect lib Bool := do
  let record ← deserialiseRecord row.block
  match findRecordKey lib (← get).keys record row.block.auth with
  | none => return false
  | some key =>
      if (verifyRecord lib key record row.block.auth).isNone then return false
      retryReadable row record

def retryRows : List (Row lib) → EngineEffect lib Bool
  | [] => return false
  | row :: rest => do
      let progress ← retryRow row
      return progress || (← retryRows rest)

/-- The waiting records are tried again as long as one enters in sync. -/
def retryPending : Nat → EngineEffect lib Unit
  | 0 => pure ()
  | fuel + 1 => do
      if ← retryRows ((← get).records.findAllInRange 1 none .pendingSync) then retryPending fuel

def retryUndecryptedPending : EngineEffect lib Unit := do
  retryPending ((← get).records.rows.length + 1)

def storeBlock (key : Option EncryptionKey) (block : lib.Block) (id : ChainBlockId) (record : Record) :
    EngineEffect lib Unit :=
  match key with
  | some key => verifyBlock key block id record
  | none => writeRecords fun records => records.create block .pendingSync

def handleBlock (block : lib.Block) (id : ChainBlockId) (record : Record) : EngineEffect lib Unit := do
  let engine ← get
  let learned := learnRecordKey lib engine.keys record block.auth
  set { engine with keys := learned.1 }
  storeBlock (findRecordKey lib learned.1 record block.auth) block id record
  if learned.2 then retryUndecryptedPending

def adoptCommitted (own : Row lib) (block : lib.Block) (id : ChainBlockId) : EngineEffect lib Unit := do
  let state ← checkChainBlock block
  if state.isValid then
    writeRecords fun records => records.setRecord own.key block
    writeRecords fun records => records.setState own.key state id block.parentHash

def storeAssignment (tag : RecordTag) (envelope : Option lib.Envelope) : EngineEffect lib Unit := do
  match envelope, (← get).records.findTag tag with
  | some envelope, some row => writeRecords fun records => records.setAssignment row.key (some ⟨envelope, false⟩)
  | _, _ => pure ()

/-- A record that is not known yet may be the committed form of a pending one. -/
def handleUnknownRecord (block : lib.Block) (id : ChainBlockId) : EngineEffect lib Unit := do
  clearRejections
  let record ← deserialiseRecord block
  match (← get).findPendingByOp record.base.opId with
  | some own => adoptCommitted own block id
  | none => handleBlock block id record

def handleKnownRecord (row : Row lib) (block : lib.Block) (id : ChainBlockId) : EngineEffect lib Unit := do
  if row.state = .pendingCommit then
    updateRecordCommitState row block id
    eraseRejection block.tag

def takeRecord (block : lib.Block) (id : ChainBlockId) : EngineEffect lib Unit := do
  match (← get).records.findTag block.tag with
  | none => handleUnknownRecord block id
  | some row => handleKnownRecord row block id

def handleIncomingRecord (block : lib.Block) (envelope : Option lib.Envelope) : EngineEffect lib Unit := do
  let id := lib.blockId block
  if id.isValid && (← get).isStructurallyValid block then
    takeRecord block id
    storeAssignment block.tag envelope

end SpSync.Engine
