/-
This file holds the log of one storage: the record table, its head and the batches it serves.
-/

import SpSync.Construction.Core.RecordStorage
import SpSync.Construction.Core.Divergence

namespace SpSync

def recordWireAllowance : Nat := 8 * 1024

structure ChainLog (lib : Securepath) where
  records : RecordStorage lib
  head : ChainBlockId

namespace ChainLog

variable {lib : Securepath}

def load (records : RecordStorage lib) : ChainLog lib :=
  ⟨records, records.lastBlock⟩

def envelopeCost (envelope : lib.Envelope) : Nat :=
  lib.size envelope.block.record + recordWireAllowance

/-- An envelope joins the batch while the budget allows it, but never fewer than two records. -/
def appendWithinBudget (maxBytes : Nat) (out : List lib.Envelope × Nat) (envelope : lib.Envelope) :
    List lib.Envelope × Nat :=
  let cost := envelopeCost envelope
  if out.1.length < 2 ∨ out.2 + cost ≤ maxBytes then (out.1 ++ [envelope], out.2 + cost) else out

/-- The stored assignment of a record, or the bare block when it has none. -/
def envelopeOf (row : Row lib) : lib.Envelope :=
  row.assignment.elim ⟨row.block, [], 0, none⟩ Assignment.envelope

def get (log : ChainLog lib) (start stop : SequenceNumber) (max maxBytes : Nat) : List lib.Envelope :=
  let first := if start = 0 then 1 else start
  let last := if stop = 0 then log.head.sequence else stop
  (((log.records.findRange first last .inSync max).map envelopeOf).foldl (appendWithinBudget maxBytes) ([], 0)).1

def getByOrigin (log : ChainLog lib) (origin : PublicKeyId) (first last : SequenceNumber)
    (max maxBytes : Nat) : List lib.Envelope :=
  ((log.records.findOriginAssignments origin first last max).foldl (appendWithinBudget maxBytes) ([], 0)).1

def append (log : ChainLog lib) (envelope : lib.Envelope) : Except Error (ChainLog lib) :=
  let block := envelope.block
  if block.sequence ≠ log.head.sequence + 1 ∨ block.parentHash ≠ log.head.hash then
    .error ⟨.constraintViolation, "appended block does not extend the log head"⟩
  else do
    let records ← log.records.create block .inSync
    let records ← match envelope.signature, records.findTag block.tag with
      | some _, some row => records.setAssignment row.key (some { envelope })
      | _, _ => .ok records
    return ⟨records, lib.blockId block⟩

def storeAssignment (log : ChainLog lib) (tag : RecordTag) (envelope : lib.Envelope) :
    Except Error (ChainLog lib) :=
  match log.records.findTag tag with
  | none => .error ⟨.constraintViolation, "storing assignment for unknown record"⟩
  | some row => do
      let records ← log.records.setAssignment row.key (some { envelope })
      return { log with records }

def originHead (log : ChainLog lib) (origin : PublicKeyId) : ChainBlockId :=
  log.records.lastOfOrigin origin

def samplesOf (log : ChainLog lib) (origin : PublicKeyId) : OriginSamples where
  origin := origin
  blocks := (sampleSequences (log.records.lastOriginSeq origin)).filterMap fun sequence =>
    let hash := log.records.originBlockHash origin sequence
    if hash = [] then none else some ⟨sequence, hash⟩

def findDivergence (log : ChainLog lib) (samples : OriginSamples) : Divergence :=
  SpSync.findDivergence samples.blocks (log.records.originBlockHash samples.origin)

end ChainLog

end SpSync
