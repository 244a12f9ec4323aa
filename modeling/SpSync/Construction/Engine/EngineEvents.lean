/-
This file holds the events of a client engine: what the server answers and what the application asks.
-/

import SpSync.Construction.Core.History
import SpSync.Construction.Engine.Incoming

namespace SpSync

structure SequenceInfo where
  sequence : SequenceNumber
  serverId : PublicKeyId := []
  limits : StorageLimits := {}
deriving DecidableEq, Repr

structure RecordResponse (lib : Securepath) where
  data : Except Error (List lib.Block)
  requestedMax : SequenceNumber := 0
  serverMaxSequence : SequenceNumber := 0

def RecordResponse.more {lib : Securepath} (response : RecordResponse lib) (lastSeq : SequenceNumber) : Bool :=
  lastSeq < response.requestedMax || (response.requestedMax = 0 && lastSeq < response.serverMaxSequence)

structure CommitResponse (lib : Securepath) where
  data : Except Error lib.Block
  envelope : Option lib.Envelope := none
  serverMaxSequence : SequenceNumber := 0

namespace Engine

variable {lib : Securepath}

def learnLimits (reported : StorageLimits) : EngineEffect lib Unit :=
  modify fun engine =>
    if reported.maxRecordSize ≠ 0 &&
        (engine.limits.maxRecordSize = 0 || engine.limits.limitsOr reported = reported) then
      { engine with limits := reported }
    else engine

def fetchFrom (first last : SequenceNumber) : EngineEffect lib Unit := do
  let handle ← request (.fetch first last)
  modify fun engine => { engine with fetchStarts := engine.fetchStarts ++ [(handle, first)] }

def fetchMissing : EngineEffect lib Bool := do
  let engine ← get
  let behind : Bool := engine.fetchCursor < engine.serverSeq
  if behind then fetchFrom engine.fetchCursor 0
  return behind

def fetchProgressed (handle : Nat) (lastReceived : SequenceNumber) : EngineEffect lib Bool := do
  let engine ← get
  set { engine with fetchStarts := engine.fetchStarts.filter fun entry => entry.1 ≠ handle }
  let start := (engine.fetchStarts.lookup handle).getD 0
  return start = 0 || start < lastReceived

def markRejected (tag : RecordTag) (duplicate : Bool) : EngineEffect lib Unit :=
  modify fun engine =>
    if tag = [] then engine
    else match engine.records.findTag tag with
      | none => engine
      | some row => { engine with rejectedPending :=
          (tag, ⟨lib.hash row.block, duplicate⟩) :: engine.rejectedPending.filter fun entry => entry.1 ≠ tag }

/-- A rejected record is resolved when it is no longer pending, or when its operation is committed
under another tag. -/
def resolveRejected (entry : RecordTag × Rejection) : EngineEffect lib Bool := do
  match (← get).records.findTag entry.1 with
  | none => return true
  | some row =>
      if row.state ≠ .pendingCommit then return true
      if !entry.2.duplicate then return false
      let record ← deserialiseRecord row.block
      match (← get).records.findOpId record.base.opId with
      | none => return false
      | some twin =>
          if twin.key ≠ row.key && twin.state.isServerConfirmed then
            dropRow row
            return true
          return false

def resolveRejectedDuplicates : EngineEffect lib Unit := do
  (← get).rejectedPending.forM fun entry => do
    if ← resolveRejected entry then eraseRejection entry.1

def onDuplicateRejected (tag : RecordTag) : EngineEffect lib Unit := do
  markRejected tag true
  if !(← fetchMissing) then
    resolveRejectedDuplicates
    tryCommitPending

def permanentCommitRejection (err : Error) : Bool :=
  err.code = .recordTooBig || err.code = .invalidRecord || err.code = .conflictingRecord

def dropPending (tag : RecordTag) : EngineEffect lib Unit := do
  match (← get).records.findTag tag with
  | some row => if row.state = .pendingCommit then dropRow row
  | none => pure ()

def dropRejected (tag : RecordTag) : EngineEffect lib Unit := do
  dropPending tag
  tryCommitPending

def holdRejected (tag : RecordTag) : EngineEffect lib Unit := do
  markRejected tag false
  tryCommitPending

def onOutOfSyncRejected (tag : RecordTag) : EngineEffect lib Unit := do
  if !(← fetchMissing) then
    markRejected tag false
    tryCommitPending

def onCommitRejected (tag : RecordTag) (err : Error) (serverMaxSequence : SequenceNumber) :
    EngineEffect lib Unit := do
  updateServerSeq serverMaxSequence
  if err.code = .recordOutOfSync then onOutOfSyncRejected tag
  else if err.code = .recordAlreadyCommitted then onDuplicateRejected tag
  else if permanentCommitRejection err then dropRejected tag
  else holdRejected tag

def onFetchComplete : EngineEffect lib Unit := do
  if !(← get).rejectedPending.isEmpty then
    clearRejections
    tryCommitPending

/-- The confirmed records of the old replica become pending, and its waiting records go. -/
def beginReplicaResync (owner : PublicKeyId) : EngineEffect lib Unit := do
  ((← get).records.findAllInRange 1 none .inSync).forM fun row =>
    writeRecords fun records => records.setState row.key .pendingCommit
  ((← get).records.findAllInRange 1 none .acked).forM fun row =>
    writeRecords fun records => records.setState row.key .pendingCommit
  modify fun engine => { engine with
    records := engine.records.truncateFrom 1, cursorOwner := owner, serverSeq := 0 }

/-- A server without an identity and a strict client do not switch. -/
def checkCursorOwner (serverId : PublicKeyId) : EngineEffect lib Unit := do
  let engine ← get
  if serverId = [] then return
  if engine.cursorOwner = [] then set { engine with cursorOwner := serverId }
  else if engine.cursorOwner ≠ serverId && engine.config.mode ≠ .requireAllSeen then beginReplicaResync serverId

def onConnected : EngineEffect lib Unit := do
  modify fun engine => { engine with pushingPendingCommit := 0 }
  clearRejections
  let _ ← request .sequenceNumber

def onDisconnected : EngineEffect lib Unit :=
  modify fun engine => { engine with pushingPendingCommit := 0, inFlightCommits := [], fetchStarts := [] }

def onSequenceNumberResponse (result : Except Error SequenceInfo) : EngineEffect lib Unit := do
  match result with
  | .error _ => pure ()
  | .ok info =>
      checkCursorOwner info.serverId
      updateServerSeq info.sequence
      learnLimits info.limits
      if !(← fetchMissing) then tryCommitPending

def onRecordResponse (handle : Nat) (response : RecordResponse lib) : EngineEffect lib Unit := do
  match response.data with
  | .error _ => pure ()
  | .ok blocks =>
      match blocks.getLast? with
      | none => onFetchComplete
      | some last =>
          blocks.forM fun block => handleIncomingRecord block none
          if response.more last.sequence then
            if ← fetchProgressed handle last.sequence then fetchFrom last.sequence response.requestedMax
            else onFetchComplete
          else onFetchComplete

def takeInFlight (handle : Nat) : EngineEffect lib RecordTag := do
  let engine ← get
  set { engine with inFlightCommits := engine.inFlightCommits.filter fun entry => entry.1 ≠ handle }
  return (engine.inFlightCommits.lookup handle).getD []

def clearPushing (handle : Nat) : EngineEffect lib Unit :=
  modify fun engine =>
    if handle = engine.pushingPendingCommit then { engine with pushingPendingCommit := 0 } else engine

def onCommitResponse (handle : Nat) (response : CommitResponse lib) : EngineEffect lib Unit := do
  clearPushing handle
  let committedTag ← takeInFlight handle
  match response.data with
  | .error err => onCommitRejected committedTag err response.serverMaxSequence
  | .ok block =>
      let id := lib.blockId block
      if id.isValid then
        match (← get).records.findTag block.tag with
        | none => pure ()
        | some row =>
            updateRecordCommitState row block id
            storeAssignment block.tag response.envelope
            tryCommitPending

def onEquivocation (verifies : Bool) : EngineEffect lib Unit :=
  modify fun engine =>
    if verifies && engine.config.mode = .requireAllSeen then { engine with forkSuspected := true } else engine

def syncObjectChange (oid : ObjectId) (header : Octets) (data : Option DataDescriptor) : EngineEffect lib Unit := do
  let engine ← get
  let base := engine.baseBlock
  if !base.isValid then
    throw ⟨.invalidRecordChainState, "Can't find last record, data change cannot be first record"⟩
  let previous := (engine.records.findLastObject oid).elim [] Row.tag
  createAndCommit base (.dataChange [⟨oid, previous, data⟩]) [header]

def syncUserChange (data : PlainUserChangeData) (header : Octets) : EngineEffect lib Unit := do
  createAndCommit (← get).baseBlock (.userChange data) [header]

def syncSegmentEnd (header : Octets) : EngineEffect lib Unit := do
  let engine ← get
  let base := engine.baseBlock
  if !base.isValid then
    throw ⟨.invalidRecordChainState, "Can't find last record, segment cannot be first record"⟩
  if engine.records.findFirstPendingCommit.isSome then
    throw ⟨.invalidRecordChainState, "segment requires all local changes to be committed"⟩
  createAndCommit base (.segment (← ofExcept (engine.makeSegmentData base))) [header]

/-- The records before a committed segment are removed, apart from the chains of the objects; without a
tag it is the newest segment, which becomes the trusted anchor. -/
def pruneHistory (segmentTag : RecordTag) : EngineEffect lib ChainBlockId := do
  let engine ← get
  let found := if segmentTag = [] then engine.records.findLastOfType .segment else engine.records.findTag segmentTag
  match found with
  | none => throw ⟨.constraintViolation, "local prune requires a committed segment as the anchor"⟩
  | some segment =>
      if segment.type = .segment ∧ segment.state = .inSync then
        writeRecords fun records => (records.truncatePrefix segment.sequence
          (records.objectChainTagsBelow segment.sequence)).map Prod.fst
        modify fun engine => { engine with config := { engine.config with trustedAnchor := segment.blockId } }
        return segment.blockId
      else throw ⟨.constraintViolation, "local prune requires a committed segment as the anchor"⟩

end Engine

inductive EngineEvent (lib : Securepath)
  | connected
  | disconnected
  | sequenceNumberResponse (result : Except Error SequenceInfo)
  | recordResponse (handle : Nat) (response : RecordResponse lib)
  | commitResponse (handle : Nat) (response : CommitResponse lib)
  | recordReceived (block : lib.Block) (envelope : Option lib.Envelope)
  | equivocation (verifies : Bool)
  | syncObjectChange (oid : ObjectId) (header : Octets) (data : Option DataDescriptor)
  | syncUserChange (data : PlainUserChangeData) (header : Octets)
  | syncSegmentEnd (header : Octets)
  /-- An invitation or a new channel brings a key along. -/
  | insertKey (key : EncryptionKey)
  /-- The connection asks for something else, with the next number of the one counter. -/
  | called

namespace Engine

variable {lib : Securepath}

def handle : EngineEvent lib → EngineEffect lib Unit
  | .connected => onConnected
  | .disconnected => onDisconnected
  | .sequenceNumberResponse result => onSequenceNumberResponse result
  | .recordResponse handle response => onRecordResponse handle response
  | .commitResponse handle response => onCommitResponse handle response
  | .recordReceived block envelope => handleIncomingRecord block envelope
  | .equivocation verifies => onEquivocation verifies
  | .syncObjectChange oid header data => syncObjectChange oid header data
  | .syncUserChange data header => syncUserChange data header
  | .syncSegmentEnd header => syncSegmentEnd header
  | .insertKey key => modify fun engine => { engine with keys := engine.keys.insert key }
  | .called => modify fun engine => { engine with callId := engine.callId + 1 }

/-- The event loop swallows the exceptions of a handler. -/
def step (engine : Engine lib) (event : EngineEvent lib) : Engine lib :=
  (handle event).final engine

end Engine

end SpSync
