/-
This file holds the rules by which a server accepts records into the log of a storage.
-/

import SpSync.Construction.Core.SyncMode
import SpSync.Construction.Server.ChainLog

namespace SpSync

structure ChainSyncConfig where
  mode : SyncMode := .requireAllSeen
  authMode : AuthMode := .onlyTag
  maxReturnedRecords : Nat := 30
  maxResponseBytes : Nat := 1024 * 1024
  maxRecordSize : Nat := 0
  replication : ReplicationMode := .none
deriving DecidableEq, Repr

inductive RecType
  | none
  | dataAddRemove
  | special
deriving DecidableEq, Repr

structure RuleResult where
  err : Option Error := none
  type : RecType := .none
deriving DecidableEq, Repr

/-- The log with the known public keys and the cursors of the rules. -/
structure ChainSync (lib : Securepath) where
  config : ChainSyncConfig
  keys : Option (List PublicKeyId)
  log : ChainLog lib
  lastDataAddRemove : SequenceNumber
  lastUserChangeOrSegment : SequenceNumber

namespace ChainSync

variable {lib : Securepath}

def load (config : ChainSyncConfig) (keys : Option (List PublicKeyId)) (records : RecordStorage lib) :
    ChainSync lib :=
  ⟨config, keys, .load records, records.lastDataAddSequence, records.lastSpecialSequence⟩

def getEnvelopesByOrigin (sync : ChainSync lib) (origin : PublicKeyId) (first last : SequenceNumber) :
    List lib.Envelope :=
  sync.log.getByOrigin origin first last sync.config.maxReturnedRecords sync.config.maxResponseBytes

/-- The block gets the next position of the log and moves the cursor of its kind. -/
def setAndSaveBlock (sync : ChainSync lib) (block : lib.Block) (type : RecType) :
    Except Error (ChainSync lib × lib.Block) := do
  let placed := block.setSequenceAndParentHash (sync.log.head.sequence + 1) sync.log.head.hash
  let log ← sync.log.append ⟨placed, [], 0, none⟩
  let moved := match type with
    | .dataAddRemove => { sync with log, lastDataAddRemove := placed.sequence }
    | .special => { sync with log, lastUserChangeOrSegment := placed.sequence }
    | .none => { sync with log }
  return (moved, placed)

def verifySignature (sync : ChainSync lib) (block : lib.Block) : Option Error :=
  match block.auth.signature with
  | none => some ⟨.invalidRecord, "record is not signed"⟩
  | some signature =>
      match sync.keys with
      | none => none
      | some keys =>
          if signature.issuer ∉ keys then some ⟨.unknownSigner, ""⟩
          else if lib.verifyContent signature block.record block.auth.tag then none
          else some ⟨.invalidRecord, "record signature is not authentic"⟩

def tooBig (sync : ChainSync lib) (block : lib.Block) : Bool :=
  sync.config.maxRecordSize ≠ 0 && sync.config.maxRecordSize < lib.size block.record

def checkRulesSpecialSeen (sync : ChainSync lib) (lastSeenSpecial : RecordTag) : Option Error :=
  if sync.config.mode.requiresSpecialSeen && sync.lastUserChangeOrSegment ≠ 0 then
    match sync.log.records.findTag lastSeenSpecial with
    | none => some ⟨.recordOutOfSync, ""⟩
    | some row =>
        if !row.isSpecial then some ⟨.invalidRecord, "special reference is not a special record"⟩
        else if row.sequence < sync.lastUserChangeOrSegment then some ⟨.recordOutOfSync, ""⟩
        else none
  else none

def checkHeadSeen (sync : ChainSync lib) (base : RecordBase) : Option Error :=
  if base.lastSeenBlock ≠ sync.log.head then some ⟨.recordOutOfSync, ""⟩ else none

def checkRulesAdd (sync : ChainSync lib) (base : RecordBase) : Option Error :=
  if sync.config.mode = .requireAllSeen then sync.checkHeadSeen base
  else
    match sync.checkRulesSpecialSeen base.lastSeenSpecialTag with
    | some err => some err
    | none =>
        if sync.config.mode = .requireDataAddRemoveSeen && sync.lastDataAddRemove ≠ 0 &&
            base.lastSeenBlock.sequence < sync.lastDataAddRemove then some ⟨.recordOutOfSync, ""⟩
        else none

def checkRulesExisting (sync : ChainSync lib) (base : RecordBase) : Option Error :=
  if sync.config.mode = .requireAllSeen then sync.checkHeadSeen base
  else sync.checkRulesSpecialSeen base.lastSeenSpecialTag

/-- One change of a data record adds a new object or follows the newest record of its object. -/
def checkChange (sync : ChainSync lib) (base : RecordBase) (result : RuleResult)
    (change : PlainSingleChangeData) : RuleResult :=
  if result.err.isSome then result
  else if !validObjectId change.id then { result with err := some ⟨.invalidRecord, ""⟩ }
  else if change.data.any fun descriptor => !descriptor.valid lib then
    { result with err := some ⟨.invalidRecord, ""⟩ }
  else
    match sync.log.records.findLastObject change.id with
    | none =>
        if change.previousOidRecordTag = [] then ⟨sync.checkRulesAdd base, .dataAddRemove⟩
        else { result with err := some ⟨.recordOutOfSync, ""⟩ }
    | some row =>
        if row.tag = change.previousOidRecordTag then { result with err := sync.checkRulesExisting base }
        else { result with err := some ⟨.recordOutOfSync, ""⟩ }

def checkRulesDataChange (sync : ChainSync lib) (base : RecordBase) (changes : List PlainSingleChangeData) :
    RuleResult :=
  changes.foldl (sync.checkChange base) {}

def checkRulesUserChange (sync : ChainSync lib) (base : RecordBase) (data : PlainUserChangeData) : RuleResult :=
  if sync.config.replication ≠ .none && data.access.mode ≠ .delta && sync.log.head.sequence ≠ 0 then
    ⟨some ⟨.invalidRecord, "replicated storage requires delta mode user changes"⟩, .special⟩
  else if sync.config.mode = .requireAllSeen then ⟨sync.checkHeadSeen base, .special⟩
  else ⟨sync.checkRulesSpecialSeen base.lastSeenSpecialTag, .special⟩

def checkSegmentBackbone (sync : ChainSync lib) (data : PlainSegmentData) : Except Error (Option Error) := do
  let (expectedStart, expectedTag) ← match sync.log.records.findLastOfType .segment with
    | none => .ok (1, [])
    | some previous =>
        match (lib.deserialise previous.block.record).map Record.body with
        | some (.segment earlier) => .ok (earlier.segmentEnd, previous.tag)
        | _ => .error ⟨.invalidData, ""⟩
  if data.segmentStart ≠ expectedStart ∨ data.previousSegmentTag ≠ expectedTag then
    return some ⟨.recordOutOfSync, ""⟩
  else return none

def checkRulesSegmentCoverage (sync : ChainSync lib) (base : RecordBase) (data : PlainSegmentData) :
    Except Error (Option Error) := do
  if data.segmentEnd ≠ SequenceNumber.next base.lastSeenBlock.sequence then
    return some ⟨.invalidRecord, "segment end does not match the record sequence"⟩
  match ← sync.checkSegmentBackbone data with
  | some err => return some err
  | none =>
      if data.tags ≠ sync.log.records.tagsInRange data.segmentStart (SequenceNumber.previous data.segmentEnd) then
        return some ⟨.invalidRecord, "segment tag list does not match the chain"⟩
      else return none

def checkRulesSegment (sync : ChainSync lib) (base : RecordBase) (data : PlainSegmentData) :
    Except Error RuleResult := do
  if sync.config.mode.requiresSpecialSeen && base.lastSeenBlock ≠ sync.log.head then
    return ⟨some ⟨.recordOutOfSync, ""⟩, .special⟩
  else return ⟨← sync.checkRulesSegmentCoverage base data, .special⟩

def checkRules (sync : ChainSync lib) (record : Record) : Except Error RuleResult :=
  match record.body with
  | .dataChange changes => .ok (sync.checkRulesDataChange record.base changes)
  | .userChange data => .ok (sync.checkRulesUserChange record.base data)
  | .segment data => sync.checkRulesSegment record.base data

/-- The kind of a foreign record; only the bounds of its descriptors are judged again. -/
def classifyForeign (lib : Securepath) (record : Record) : RuleResult :=
  match record.body with
  | .dataChange changes =>
      { err := if changes.any fun change => change.data.any fun descriptor => !descriptor.valid lib then
          some ⟨.invalidRecord, ""⟩ else none
        type := if changes.any fun change => change.previousOidRecordTag = [] then .dataAddRemove else .none }
  | _ => ⟨none, .special⟩

def evaluateWith (sync : ChainSync lib) (rules : Record → Except Error RuleResult) (block : lib.Block) :
    Except Error RuleResult :=
  if sync.tooBig block then .ok ⟨some ⟨.recordTooBig, ""⟩, .none⟩
  else match sync.log.records.findTag block.tag with
    | some _ => .ok ⟨some ⟨.recordAlreadyCommitted, ""⟩, .none⟩
    | none =>
        match (if sync.config.authMode = .signRecords then sync.verifySignature block else none) with
        | some err => .ok ⟨some err, .none⟩
        | none =>
            match lib.deserialise block.record with
            | none => .error ⟨.invalidData, ""⟩
            | some record =>
                if record.base.opId ≠ [] && (sync.log.records.findOpId record.base.opId).isSome then
                  .ok ⟨some ⟨.recordAlreadyCommitted, ""⟩, .none⟩
                else rules record

def evaluate (sync : ChainSync lib) (block : lib.Block) : Except Error RuleResult :=
  sync.evaluateWith sync.checkRules block

def evaluateForeign (sync : ChainSync lib) (block : lib.Block) : Except Error RuleResult :=
  sync.evaluateWith (fun record => .ok (classifyForeign lib record)) block

def validate (sync : ChainSync lib) (block : lib.Block) : Option Error :=
  match sync.evaluate block with
  | .error err => some err
  | .ok result => result.err

/-- An accepted block is saved; every error leaves the storage as it was. -/
def commitWith (sync : ChainSync lib) (verdict : Except Error RuleResult) (block : lib.Block) :
    ChainSync lib × Except Error lib.Block :=
  match verdict with
  | .error err => (sync, .error err)
  | .ok result =>
      match result.err with
      | some err => (sync, .error err)
      | none =>
          match sync.setAndSaveBlock block result.type with
          | .error err => (sync, .error err)
          | .ok (saved, placed) => (saved, .ok placed)

def commitBlock (sync : ChainSync lib) (block : lib.Block) : ChainSync lib × Except Error lib.Block :=
  sync.commitWith (sync.evaluate block) block

def commitForeign (sync : ChainSync lib) (block : lib.Block) : ChainSync lib × Except Error lib.Block :=
  sync.commitWith (sync.evaluateForeign block) block

end ChainSync

end SpSync
