/-
This file verifies the stored history of a client: record by record, or the newest records and the segments
that list the others.
-/

import SpSync.Construction.Core.RecordStorage
import SpSync.Construction.Engine.RecordCrypto

namespace SpSync

def SequenceNumber.before (sequence : SequenceNumber) : SequenceNumber :=
  if sequence = 0 then limit - 1 else sequence - 1

inductive HistoryVerification
  | full
  | fast
deriving DecidableEq, Repr

structure HistoryVerifyReport where
  verifiedRecords : Nat := 0
  verifiedSegments : Nat := 0
  coveredRecords : Nat := 0
deriving DecidableEq, Repr

def HistoryVerifyReport.count (report : HistoryVerifyReport) (type : RecordType) : HistoryVerifyReport :=
  if type = .segment then { report with verifiedSegments := report.verifiedSegments + 1 }
  else { report with verifiedRecords := report.verifiedRecords + 1 }

namespace HistoryVerifier

variable {lib : Securepath}

/-- The stored block of an own record keeps its position before the commit, so the position is taken from the
columns. -/
def committedBlock (row : Row lib) : lib.Block :=
  row.block.setSequenceAndParentHash row.sequence row.parentHash

def checkStoredHash (row : Row lib) (block : lib.Block) : Except Error Unit :=
  if lib.hash block ≠ row.hash then .error ⟨.notAuthentic, "stored record hash does not match the content"⟩
  else .ok ()

/-- One record is authenticated with the first key of its sequence; a header that does not parse throws. -/
def verifyRecord (keys : KeyStorage) (block : lib.Block) (report : HistoryVerifyReport) :
    Except Error HistoryVerifyReport :=
  match lib.deserialise block.record with
  | none => .error ⟨.invalidData, ""⟩
  | some record =>
      match keys.find record.base.encryptionKey with
      | none => .error ⟨.noEncryptionKeyFound, "no encryption key for record"⟩
      | some key =>
          if record.base.structureVersion = currentStructureVersion ∧
              (lib.decrypt key record.base record.body record.headers).isNone then .error ⟨.invalidData, ""⟩
          else if (SpSync.verifyRecord lib key record block.auth).isNone then
            .error ⟨.notAuthentic, "record is not authentic"⟩
          else .ok (report.count record.body.type)

def verifyStored (keys : KeyStorage) (row : Row lib) (report : HistoryVerifyReport) :
    Except Error HistoryVerifyReport :=
  match checkStoredHash row (committedBlock row) with
  | .error err => .error err
  | .ok _ => verifyRecord keys (committedBlock row) report

def verifyChain (records : RecordStorage lib) (keys : KeyStorage) :
    List SequenceNumber → Octets → HistoryVerifyReport → Except Error HistoryVerifyReport
  | [], _, report => .ok report
  | sequence :: rest, parent, report =>
      match records.find sequence .inSync with
      | none => .error ⟨.invalidRecordChainState, "missing record in the chain"⟩
      | some row =>
          match checkStoredHash row (committedBlock row) with
          | .error err => .error err
          | .ok _ =>
              if (committedBlock row).parentHash ≠ parent then
                .error ⟨.invalidRecordChainState, "record does not link to the previous block"⟩
              else
                match verifyRecord keys (committedBlock row) report with
                | .error err => .error err
                | .ok report => verifyChain records keys rest (lib.hash (committedBlock row)) report

def verifyRange (records : RecordStorage lib) (keys : KeyStorage) (first last : SequenceNumber) (parent : Octets)
    (report : HistoryVerifyReport) : Except Error HistoryVerifyReport :=
  verifyChain records keys (List.range' first (last + 1 - first)) parent report

def verifyEach (keys : KeyStorage) : List (Row lib) → HistoryVerifyReport → Except Error HistoryVerifyReport
  | [], report => .ok report
  | row :: rest, report =>
      match verifyStored keys row report with
      | .error err => .error err
      | .ok report => verifyEach keys rest report

def verifyDetached (records : RecordStorage lib) (keys : KeyStorage) (first last : SequenceNumber)
    (report : HistoryVerifyReport) : Except Error HistoryVerifyReport :=
  verifyEach keys (records.findAllInRange first (some last) .inSync) report

def anchorMissing : Error :=
  ⟨.invalidRecordChainState, "trusted anchor is not in the storage"⟩

def verifyAnchor (records : RecordStorage lib) (keys : KeyStorage) (anchor : Octets) (report : HistoryVerifyReport) :
    Except Error (Row lib × HistoryVerifyReport) :=
  match records.findHash anchor .inSync with
  | none => .error anchorMissing
  | some row =>
      match verifyDetached records keys 1 (SequenceNumber.before row.sequence) report with
      | .error err => .error err
      | .ok report =>
          match verifyStored keys row report with
          | .error err => .error err
          | .ok report => .ok (row, report)

def fullVerify (records : RecordStorage lib) (keys : KeyStorage) (anchor : Octets) :
    Except Error HistoryVerifyReport :=
  if anchor = [] then verifyRange records keys 1 records.lastBlock.sequence [] {}
  else
    match verifyAnchor records keys anchor {} with
    | .error err => .error err
    | .ok (row, report) =>
        verifyRange records keys (row.sequence + 1) records.lastBlock.sequence row.hash report

def checkSegmentCoverage (records : RecordStorage lib) (data : PlainSegmentData) (expectedEnd : SequenceNumber)
    (report : HistoryVerifyReport) : Except Error HistoryVerifyReport :=
  if data.segmentEnd ≤ data.segmentStart then .error ⟨.invalidRecordChainState, "segment covers an empty range"⟩
  else if expectedEnd ≠ 0 ∧ data.segmentEnd ≠ expectedEnd then
    .error ⟨.invalidRecordChainState, "segment backbone is not continuous"⟩
  else if data.tags ≠ records.tagsInRange data.segmentStart (data.segmentEnd - 1) then
    .error ⟨.notAuthentic, "stored records do not match the segment coverage"⟩
  else .ok { report with coveredRecords := report.coveredRecords + data.tags.length }

def nextBackboneSegment (records : RecordStorage lib) (data : PlainSegmentData) : Except Error (Option (Row lib)) :=
  if data.previousSegmentTag ≠ [] then
    match records.findTag data.previousSegmentTag with
    | some row =>
        if row.type = .segment ∧ row.state = .inSync then .ok (some row)
        else .error ⟨.invalidRecordChainState, "segment backbone is broken"⟩
    | none => .error ⟨.invalidRecordChainState, "segment backbone is broken"⟩
  else if data.segmentStart ≠ 1 then
    .error ⟨.invalidRecordChainState, "backbone does not cover the chain start"⟩
  else .ok none

def verifyTail (records : RecordStorage lib) (keys : KeyStorage) (boundary : SequenceNumber)
    (report : HistoryVerifyReport) : Except Error HistoryVerifyReport :=
  match records.find (SequenceNumber.before boundary) .inSync with
  | none => .error ⟨.invalidRecordChainState, "missing record in the chain"⟩
  | some row => verifyRange records keys boundary records.lastBlock.sequence row.hash report

def segmentData (block : lib.Block) : Except Error PlainSegmentData :=
  match (lib.deserialise block.record).map Record.body with
  | some (.segment data) => .ok data
  | _ => .error ⟨.invalidData, ""⟩

/-- Where a walk along the segments is: the segment, the end it should have, the segments verified on the way
and the report. -/
structure BackboneWalk (lib : Securepath) where
  row : Option (Row lib)
  expectedEnd : SequenceNumber := 0
  walked : Nat := 0
  report : HistoryVerifyReport

def isAnchor (anchor : Octets) (row : Row lib) : Bool :=
  anchor ≠ [] && row.hash = anchor

def verifyBelow (keys : KeyStorage) (boundary : SequenceNumber) (row : Row lib) (walk : BackboneWalk lib) :
    Except Error (BackboneWalk lib) :=
  if row.sequence < boundary then
    match verifyStored keys row walk.report with
    | .error err => .error err
    | .ok report => .ok { walk with walked := walk.walked + 1, report }
  else .ok walk

def visitSegment (records : RecordStorage lib) (keys : KeyStorage) (boundary : SequenceNumber) (anchor : Octets)
    (row : Row lib) (walk : BackboneWalk lib) : Except Error (BackboneWalk lib) :=
  match segmentData (committedBlock row) with
  | .error err => .error err
  | .ok data =>
      match verifyBelow keys boundary row walk with
      | .error err => .error err
      | .ok walk =>
          if isAnchor anchor row then .ok { walk with row := none }
          else
            match checkSegmentCoverage records data walk.expectedEnd walk.report with
            | .error err => .error err
            | .ok report =>
                match nextBackboneSegment records data with
                | .error err => .error err
                | .ok next => .ok { walk with row := next, expectedEnd := data.segmentStart, report }

def walkBackbone (records : RecordStorage lib) (keys : KeyStorage) (boundary : SequenceNumber) (anchor : Octets) :
    Nat → BackboneWalk lib → Option (Except Error (BackboneWalk lib))
  | fuel, walk =>
      match walk.row with
      | none => some (.ok walk)
      | some row =>
          match fuel with
          | 0 => none
          | fuel + 1 =>
              match visitSegment records keys boundary anchor row walk with
              | .error err => some (.error err)
              | .ok walk => walkBackbone records keys boundary anchor fuel walk

/-- The difference of two counters, which wraps around below zero. -/
def takeAway (counter amount : Nat) : Nat :=
  if amount ≤ counter then counter - amount else counter + SequenceNumber.limit - amount

/-- The verified segments are in the list of a later one, so they are taken from the covered records. -/
def verifyBackbone (records : RecordStorage lib) (keys : KeyStorage) (newest : Row lib) (boundary : SequenceNumber)
    (anchor : Octets) (report : HistoryVerifyReport) (fuel : Nat) : Option (Except Error HistoryVerifyReport) :=
  (walkBackbone records keys boundary anchor fuel { row := some newest, report }).map fun result =>
    result.map fun walk =>
      { walk.report with coveredRecords := takeAway walk.report.coveredRecords walk.walked }

def verifyRetained (records : RecordStorage lib) (keys : KeyStorage) (anchor : Octets) :
    Except Error HistoryVerifyReport :=
  if anchor = [] then .ok {}
  else
    match records.findHash anchor .inSync with
    | none => .error anchorMissing
    | some row => verifyDetached records keys 1 (SequenceNumber.before row.sequence) {}

def fastVerify (records : RecordStorage lib) (keys : KeyStorage) (anchor : Octets) (fuel : Nat) :
    Option (Except Error HistoryVerifyReport) :=
  match records.findLastOfType .segment with
  | none => some (fullVerify records keys anchor)
  | some newest =>
      if isAnchor anchor newest then
        -- No segment was committed since the cut.
        match verifyAnchor records keys anchor {} with
        | .error err => some (.error err)
        | .ok (_, report) =>
            some (verifyRange records keys (newest.sequence + 1) records.lastBlock.sequence newest.hash report)
      else
        match verifyRetained records keys anchor with
        | .error err => some (.error err)
        | .ok report =>
            match segmentData newest.block with
            | .error err => some (.error err)
            | .ok data =>
                match verifyTail records keys data.segmentEnd report with
                | .error err => some (.error err)
                | .ok report => verifyBackbone records keys newest data.segmentEnd anchor report fuel

def verifyHistory (records : RecordStorage lib) (keys : KeyStorage) (mode : HistoryVerification) (anchor : Octets)
    (fuel : Nat) : Option (Except Error HistoryVerifyReport) :=
  if mode = .full then some (fullVerify records keys anchor) else fastVerify records keys anchor fuel

end HistoryVerifier

end SpSync
