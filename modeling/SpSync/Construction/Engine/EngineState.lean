/-
This file holds the state of a client engine and what the engine reads from it.
-/

import SpSync.Construction.Core.RecordStorage
import SpSync.Construction.Engine.RebasePolicy
import SpSync.Construction.Engine.RecordCrypto

namespace SpSync

inductive ConflictPolicy
  | rebaseOnTop
  | ask
deriving DecidableEq, Repr

structure EngineConfig where
  mode : SyncMode := .requireAllSeen
  authMode : AuthMode := .onlyTag
  conflicts : ConflictPolicy := .rebaseOnTop
  trustedAnchor : ChainBlockId := {}
deriving DecidableEq, Repr

structure Rejection where
  hash : Octets
  duplicate : Bool := false
deriving DecidableEq, Repr

inductive Request (lib : Securepath)
  | sequenceNumber
  | fetch (first last : SequenceNumber)
  | commit (block : lib.Block)
deriving DecidableEq

/-- The engine of one storage, with the random octets it draws, the blocks it made and the requests it
sent. -/
structure Engine (lib : Securepath) where
  config : EngineConfig
  privateKey : PublicKeyId := []
  records : RecordStorage lib := .empty lib
  cursorOwner : PublicKeyId := []
  limits : StorageLimits := {}
  keys : KeyStorage := {}
  serverSeq : SequenceNumber := 0
  /-- The handle of the commit that runs, or zero. -/
  pushingPendingCommit : Nat := 0
  /-- The last request of the connection, transfers included; the code knows only its low 32 bits. -/
  callId : Nat := 0
  inFlightCommits : List (Nat × RecordTag) := []
  fetchStarts : List (Nat × SequenceNumber) := []
  rejectedPending : List (RecordTag × Rejection) := []
  forkSuspected : Bool := false
  anchorContradicted : Bool := false
  random : Nat → Octets
  drawn : Nat := 0
  created : List lib.Block := []
  requests : List (Nat × Request lib) := []

namespace Engine

variable {lib : Securepath}

def findAnchor (engine : Engine lib) : Option (Row lib) :=
  engine.records.findHash engine.config.trustedAnchor.hash .inSync

/-- A fetch continues before the first gap, else after the highest received record. -/
def fetchCursor (engine : Engine lib) : SequenceNumber :=
  let start := if engine.config.trustedAnchor.isValid then engine.findAnchor.elim 1 Row.sequence else 1
  let gap := engine.records.firstMissingSequence start
  if gap ≠ 0 then gap - 1 else engine.records.highestSequenceNumber

def lastSpecialTag (engine : Engine lib) : RecordTag :=
  let sequence := engine.records.lastSpecialSequence
  if sequence ≠ 0 then (engine.records.find sequence .inSync).elim [] Row.tag else []

/-- The block on which new records are based: strict mode stacks pending commits. -/
def baseBlock (engine : Engine lib) : ChainBlockId :=
  let base := engine.records.lastBlock (engine.config.mode = .requireAllSeen)
  if base.isValid then base else engine.records.lastBlock true

def isStructurallyValid (engine : Engine lib) (block : lib.Block) : Bool :=
  engine.config.authMode ≠ .signRecords || block.auth.signature.isSome

def isRejectedUnchanged (engine : Engine lib) (row : Row lib) : Bool :=
  match engine.rejectedPending.lookup row.tag with
  | some rejection => rejection.hash = lib.hash row.block
  | none => false

def contradictsAnchor (engine : Engine lib) (block : lib.Block) : Bool :=
  engine.config.trustedAnchor.isValid && block.sequence = engine.config.trustedAnchor.sequence &&
    lib.hash block ≠ engine.config.trustedAnchor.hash

/-- Until the trusted anchor is held only the anchor itself enters in sync. -/
def anchorGate (engine : Engine lib) (block : lib.Block) : Option RecordState :=
  if engine.config.trustedAnchor.isValid && engine.findAnchor.isNone then
    if lib.hash block = engine.config.trustedAnchor.hash then some .inSync
    else if engine.contradictsAnchor block then some .invalid
    else some .pendingSync
  else none

def checkChainBlockWeak (engine : Engine lib) (block : lib.Block) : RecordState :=
  if (engine.records.find block.sequence .inSync).isNone then .inSync else .invalid

/-- The records below a held anchor have an advisory position. -/
def checkAnchorChainBlock (engine : Engine lib) (block : lib.Block) : Option RecordState :=
  if engine.config.trustedAnchor.isValid && (engine.records.find block.sequence .inSync).isNone then
    match engine.findAnchor with
    | some anchor => if block.sequence < anchor.sequence then some .inSync else none
    | none => none
  else none

def checkChainBlockStrict (engine : Engine lib) (block : lib.Block) : RecordState :=
  match engine.checkAnchorChainBlock block with
  | some state => state
  | none =>
      let last := engine.records.lastBlock
      if last.sequence < block.sequence then
        if block.sequence = 1 && block.parentHash = [] then .inSync
        else match engine.records.findHash block.parentHash .inSync with
          | some parent => if parent.sequence + 1 = block.sequence then .inSync else .invalid
          | none => if last.sequence + 1 < block.sequence then .pendingSync else .invalid
      else .invalid

def chainState (engine : Engine lib) (block : lib.Block) : RecordState :=
  if engine.anchorContradicted then .invalid
  else match engine.anchorGate block with
    | some state => state
    | none =>
        if engine.config.mode = .requireAllSeen then engine.checkChainBlockStrict block
        else engine.checkChainBlockWeak block

def findPendingByOp (engine : Engine lib) (opId : Octets) : Option (Row lib) :=
  match engine.records.findOpId opId with
  | some row => if row.state = .pendingCommit then some row else none
  | none => none

def conflictOf (engine : Engine lib) (change : PlainSingleChangeData) : Option (Row lib) :=
  if change.previousOidRecordTag = [] then none
  else match engine.records.findLastObject change.id with
    | some current => if current.tag ≠ change.previousOidRecordTag then some current else none
    | none => none

def findOidConflicts (engine : Engine lib) (record : Record) : List (Row lib) :=
  match record.body with
  | .dataChange changes => changes.filterMap engine.conflictOf
  | _ => []

def pendingNeedsRebase (engine : Engine lib) (record : Record) : Bool :=
  needsRebase {
    mode := engine.config.mode
    type := record.body.type
    hasAdds := match record.body with
      | .dataChange changes => changes.any fun change => change.previousOidRecordTag = []
      | _ => false
    lastSeen := record.base.lastSeenBlock
    head := engine.records.lastBlock
    specialRef := record.base.lastSeenSpecialTag
    newestSpecial := engine.lastSpecialTag
    lastDataAdd := engine.records.lastDataAddSequence }

def makeSegmentData (engine : Engine lib) (base : ChainBlockId) : Except Error PlainSegmentData :=
  match engine.records.findLastOfType .segment with
  | none => .ok ⟨1, base.sequence + 1, engine.records.tagsInRange 1 base.sequence, []⟩
  | some previous =>
      match (lib.deserialise previous.block.record).map Record.body with
      | some (.segment data) =>
          .ok ⟨data.segmentEnd, base.sequence + 1, engine.records.tagsInRange data.segmentEnd base.sequence,
            previous.tag⟩
      | _ => .error ⟨.invalidData, ""⟩

def rebaseChange (engine : Engine lib) (change : PlainSingleChangeData) : PlainSingleChangeData :=
  match engine.conflictOf change with
  | some current => { change with previousOidRecordTag := current.tag }
  | none => change

def rebasedBody (engine : Engine lib) (body : RecordBody) : Except Error RecordBody :=
  match body with
  | .dataChange changes => .ok (.dataChange (changes.map engine.rebaseChange))
  | .userChange data => .ok (.userChange data)
  | .segment _ => (engine.makeSegmentData engine.records.lastBlock).map .segment

end Engine

end SpSync
