/-
This file holds the record table of a storage and the queries on it.
-/

import Mathlib.Data.List.Sort
import Mathlib.Tactic.MkIffOfInductiveProp
import SpSync.Construction.Core.Securepath

namespace SpSync

inductive RecordState
  | unknown
  | invalid
  | pendingCommit
  | pendingSync
  | inSync
  | acked
deriving DecidableEq, Repr

def RecordState.isValid (state : RecordState) : Bool :=
  state ≠ .unknown && state ≠ .invalid

def RecordState.isServerConfirmed (state : RecordState) : Bool :=
  state = .inSync || state = .acked

/-- The stored assignment of a record; a server also indexes it by its origin. -/
structure Assignment (lib : Securepath) where
  envelope : lib.Envelope
  indexed : Bool := true
deriving DecidableEq

/-- One row of the record table; the empty operation stands for the null value. -/
structure Row (lib : Securepath) where
  key : Nat
  tag : RecordTag
  sequence : SequenceNumber
  hash : Octets
  parentHash : Octets
  state : RecordState
  block : lib.Block
  type : RecordType
  opId : Octets
  assignment : Option (Assignment lib) := none
deriving DecidableEq

namespace Row

variable {lib : Securepath}

def blockId (row : Row lib) : ChainBlockId :=
  ⟨row.sequence, row.hash⟩

def indexed (row : Row lib) : Option lib.Envelope :=
  match row.assignment with
  | some assignment => if assignment.indexed then some assignment.envelope else none
  | none => none

def origin (row : Row lib) : PublicKeyId :=
  row.indexed.elim [] BlockEnvelope.origin

def originSeq (row : Row lib) : SequenceNumber :=
  row.indexed.elim 0 fun envelope => envelope.block.sequence

def objects (row : Row lib) : List PlainSingleChangeData :=
  match (lib.deserialise row.block.record).map Record.body with
  | some (.dataChange changes) => changes
  | _ => []

def changesObject (row : Row lib) (oid : ObjectId) : Bool :=
  row.objects.any fun change => change.id = oid

def isSpecial (row : Row lib) : Bool :=
  row.type = .userChange || row.type = .segment

end Row

@[mk_iff]
structure Unique {lib : Securepath} (rows : List (Row lib)) : Prop where
  keys : rows.Pairwise fun left right => left.key < right.key
  tags : rows.Pairwise fun left right => left.tag ≠ right.tag
  hashes : rows.Pairwise fun left right => left.hash ≠ right.hash
  opIds : rows.Pairwise fun left right => left.opId = [] ∨ left.opId ≠ right.opId
  sequences : rows.Pairwise fun left right => left.state.isServerConfirmed = true →
    right.state.isServerConfirmed = true → left.sequence ≠ right.sequence

theorem Unique.sublist {lib : Securepath} {kept rows : List (Row lib)} (unique : Unique rows)
    (sub : kept.Sublist rows) : Unique kept :=
  ⟨unique.keys.sublist sub, unique.tags.sublist sub, unique.hashes.sublist sub, unique.opIds.sublist sub,
    unique.sequences.sublist sub⟩

instance {lib : Securepath} (rows : List (Row lib)) : Decidable (Unique rows) :=
  decidable_of_iff _ (unique_iff rows).symm

/-- The record table with its constraints. -/
structure RecordStorage (lib : Securepath) where
  rows : List (Row lib)
  unique : Unique rows

namespace RecordStorage

variable {lib : Securepath}

def empty (lib : Securepath) : RecordStorage lib :=
  ⟨[], ⟨.nil, .nil, .nil, .nil, .nil⟩⟩

def write (rows : List (Row lib)) : Except Error (RecordStorage lib) :=
  if unique : Unique rows then .ok ⟨rows, unique⟩ else .error ⟨.databaseConstraint, ""⟩

def updateRow (storage : RecordStorage lib) (key : Nat) (change : Row lib → Row lib) :
    Except Error (RecordStorage lib) :=
  write (storage.rows.map fun row => if row.key = key then change row else row)

def nextKey (storage : RecordStorage lib) : Nat :=
  storage.rows.foldl (fun highest row => max highest row.key) 0 + 1

def newRow (storage : RecordStorage lib) (block : lib.Block) (state : RecordState) (record : Record) : Row lib where
  key := storage.nextKey
  tag := block.tag
  sequence := block.sequence
  hash := lib.hash block
  parentHash := block.parentHash
  state := state
  block := block
  type := record.body.type
  opId := record.base.opId

def create (storage : RecordStorage lib) (block : lib.Block) (state : RecordState) :
    Except Error (RecordStorage lib) :=
  match lib.deserialise block.record with
  | none => .error ⟨.invalidData, ""⟩
  | some record => write (storage.rows ++ [storage.newRow block state record])

def setState (storage : RecordStorage lib) (key : Nat) (state : RecordState) (id : ChainBlockId := {})
    (parentHash : Octets := []) : Except Error (RecordStorage lib) :=
  storage.updateRow key fun row =>
    if id.isValid then { row with state, sequence := id.sequence, hash := id.hash, parentHash }
    else { row with state }

def setRecord (storage : RecordStorage lib) (key : Nat) (block : lib.Block) : Except Error (RecordStorage lib) :=
  if storage.rows.any fun row => row.key = key && row.state.isServerConfirmed then
    .error ⟨.constraintViolation, "trying to set record data for in sync record"⟩
  else match lib.deserialise block.record with
    | none => .error ⟨.invalidData, ""⟩
    | some _ => storage.updateRow key fun row =>
        { row with tag := block.tag, sequence := block.sequence, hash := lib.hash block,
                   parentHash := block.parentHash, block }

def setAssignment (storage : RecordStorage lib) (key : Nat) (assignment : Option (Assignment lib)) :
    Except Error (RecordStorage lib) :=
  storage.updateRow key fun row => { row with assignment }

def findTag (storage : RecordStorage lib) (tag : RecordTag) : Option (Row lib) :=
  storage.rows.find? fun row => row.tag = tag

def findKey (storage : RecordStorage lib) (key : Nat) : Option (Row lib) :=
  storage.rows.find? fun row => row.key = key

def findOpId (storage : RecordStorage lib) (opId : Octets) : Option (Row lib) :=
  storage.rows.find? fun row => row.opId = opId && opId ≠ []

def find (storage : RecordStorage lib) (sequence : SequenceNumber) (state : RecordState) : Option (Row lib) :=
  storage.rows.find? fun row => row.sequence = sequence && row.state = state

def findHash (storage : RecordStorage lib) (hash : Octets) (state : RecordState) : Option (Row lib) :=
  storage.rows.find? fun row => row.hash = hash && row.state = state

def maxSequence (rows : List (Row lib)) (condition : Row lib → Bool) : SequenceNumber :=
  (rows.filter condition).foldl (fun highest row => max highest row.sequence) 0

def bySequence (rows : List (Row lib)) : List (Row lib) :=
  rows.insertionSort fun left right => left.sequence ≤ right.sequence

def byOriginSeq (rows : List (Row lib)) : List (Row lib) :=
  rows.insertionSort fun left right => left.originSeq ≤ right.originSeq

/-- The last block counts confirmed records, and with local blocks also pending commits. -/
def isHeadCandidate (allowLocal : Bool) (row : Row lib) : Bool :=
  row.state = .inSync || (allowLocal && row.state = .pendingCommit)

def findLast (storage : RecordStorage lib) (allowLocal : Bool := false) : Option (Row lib) :=
  (storage.rows.filter fun row => isHeadCandidate allowLocal row &&
    row.sequence = maxSequence storage.rows (isHeadCandidate allowLocal)).getLast?

def lastBlock (storage : RecordStorage lib) (allowLocal : Bool := false) : ChainBlockId :=
  (storage.findLast allowLocal).elim {} Row.blockId

def findLastObject (storage : RecordStorage lib) (oid : ObjectId) : Option (Row lib) :=
  (bySequence (storage.rows.filter fun row => row.state = .inSync && row.changesObject oid)).getLast?

def findFirstPendingCommit (storage : RecordStorage lib) : Option (Row lib) :=
  storage.rows.find? fun row => row.state = .pendingCommit

def findNextPendingCommit (storage : RecordStorage lib) (after : Nat) : Option (Row lib) :=
  storage.rows.find? fun row => row.state = .pendingCommit && after < row.key

def highestSequenceNumber (storage : RecordStorage lib) : SequenceNumber :=
  maxSequence storage.rows fun row => row.state = .inSync || row.state = .pendingSync

def isReceived (row : Row lib) : Bool :=
  row.state = .inSync || row.state = .acked || row.state = .pendingSync

def receives (storage : RecordStorage lib) (sequence : SequenceNumber) : Bool :=
  storage.rows.any fun row => isReceived row && row.sequence = sequence

/-- The first sequence from the start on that was not received although a higher one was, or zero. -/
def firstMissingSequence (storage : RecordStorage lib) (start : SequenceNumber) : SequenceNumber :=
  let top := maxSequence storage.rows isReceived
  if start ≠ 0 && start ≤ top then
    if storage.receives start then
      (bySequence (storage.rows.filter fun row => isReceived row && start ≤ row.sequence && row.sequence < top &&
        !storage.receives (row.sequence + 1))).head?.elim 0 fun row => row.sequence + 1
    else start
  else 0

def lastSpecialSequence (storage : RecordStorage lib) : SequenceNumber :=
  maxSequence storage.rows fun row => row.state = .inSync && row.isSpecial

def lastDataAddSequence (storage : RecordStorage lib) : SequenceNumber :=
  maxSequence storage.rows fun row => row.state = .inSync &&
    row.objects.any fun change => change.previousOidRecordTag = []

def findLastOfType (storage : RecordStorage lib) (type : RecordType) : Option (Row lib) :=
  (bySequence (storage.rows.filter fun row => row.state = .inSync && row.type = type)).getLast?

def tagsInRange (storage : RecordStorage lib) (first last : SequenceNumber) : List RecordTag :=
  (bySequence (storage.rows.filter fun row => row.state = .inSync && first ≤ row.sequence && row.sequence ≤ last)).map
    Row.tag

def findRange (storage : RecordStorage lib) (first last : SequenceNumber) (state : RecordState) (max : Nat) :
    List (Row lib) :=
  (bySequence (storage.rows.filter fun row => row.state = state && first ≤ row.sequence && row.sequence ≤ last)).take max

def findAllInRange (storage : RecordStorage lib) (first : SequenceNumber) (last : Option SequenceNumber)
    (state : RecordState) : List (Row lib) :=
  bySequence (storage.rows.filter fun row => row.state = state && first ≤ row.sequence &&
    last.all fun last => row.sequence ≤ last)

def truncateFrom (storage : RecordStorage lib) (firstRemoved : SequenceNumber) : RecordStorage lib where
  rows := storage.rows.filter fun row => !(isReceived row && firstRemoved ≤ row.sequence)
  unique := storage.unique.sublist List.filter_sublist

/-- The rows in sync that carry an assignment of the origin. -/
def ofOrigin (storage : RecordStorage lib) (origin : PublicKeyId) : List (Row lib) :=
  storage.rows.filter fun row => row.state = .inSync && row.origin = origin && origin ≠ []

def findOriginAssignments (storage : RecordStorage lib) (origin : PublicKeyId) (first last : SequenceNumber)
    (max : Nat) : List lib.Envelope :=
  ((byOriginSeq ((storage.ofOrigin origin).filter fun row => first ≤ row.originSeq && row.originSeq ≤ last)).take
    max).filterMap Row.indexed

def lastOfOrigin (storage : RecordStorage lib) (origin : PublicKeyId) : ChainBlockId :=
  ((byOriginSeq (storage.ofOrigin origin)).getLast?).elim {} Row.blockId

def lastOriginSeq (storage : RecordStorage lib) (origin : PublicKeyId) : SequenceNumber :=
  ((byOriginSeq (storage.ofOrigin origin)).getLast?).elim 0 Row.originSeq

def originBlockHash (storage : RecordStorage lib) (origin : PublicKeyId) (originSeq : SequenceNumber) : Octets :=
  match (storage.ofOrigin origin).find? fun row => row.originSeq = originSeq with
  | some row => row.indexed.elim [] fun envelope => lib.hash envelope.block
  | none => []

end RecordStorage

end SpSync
