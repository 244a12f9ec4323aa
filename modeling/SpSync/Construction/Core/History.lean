/-
This file holds the cut of a record table: the object chains that stay and the prefix that goes.
-/

import SpSync.Construction.Core.RecordStorage

namespace SpSync

variable {lib : Securepath}

def Row.previousOf (row : Row lib) (oid : ObjectId) : RecordTag :=
  (row.objects.find? fun change => change.id = oid).elim [] PlainSingleChangeData.previousOidRecordTag

namespace RecordStorage

def findObjectVersion (storage : RecordStorage lib) (oid : ObjectId) (tag : RecordTag) : Option (Row lib) :=
  storage.rows.find? fun row => row.tag = tag && row.state = .inSync && row.changesObject oid

/-- The walk along the links to the previous records ends at a tag that it has visited. -/
def objectVersionsFrom (storage : RecordStorage lib) (oid : ObjectId) :
    Nat → List RecordTag → Option (Row lib) → List (Row lib)
  | 0, _, _ => []
  | _ + 1, _, none => []
  | fuel + 1, visited, some row =>
      if row.tag ∈ visited then []
      else
        let previous := row.previousOf oid
        row :: storage.objectVersionsFrom oid fuel (row.tag :: visited)
          (if previous = [] then none else storage.findObjectVersion oid previous)

def objectVersions (storage : RecordStorage lib) (oid : ObjectId) : List (Row lib) :=
  storage.objectVersionsFrom oid (storage.rows.length + 1) [] (storage.findLastObject oid)

def objectIds (storage : RecordStorage lib) : List ObjectId :=
  ((storage.rows.filter fun row => row.state = .inSync).flatMap fun row =>
    row.objects.map PlainSingleChangeData.id).eraseDups

def objectChainTagsBelow (storage : RecordStorage lib) (below : SequenceNumber) : List RecordTag :=
  (storage.objectIds.flatMap fun oid =>
    ((storage.objectVersions oid).filter fun row => row.sequence < below).map Row.tag).eraseDups

/-- The row goes with a cut that keeps the records from the sequence on and the retained ones. -/
def isCut (firstKept : SequenceNumber) (retained : List RecordTag) (row : Row lib) : Bool :=
  isReceived row && row.sequence < firstKept && row.block.tag ∉ retained

def truncatePrefix (storage : RecordStorage lib) (firstKept : SequenceNumber) (retained : List RecordTag) :
    Except Error (RecordStorage lib × List lib.Block) :=
  if firstKept = 0 then .error ⟨.constraintViolation, "truncate_prefix requires a valid sequence number"⟩
  else
    .ok (⟨storage.rows.filter fun row => !isCut firstKept retained row, storage.unique.sublist List.filter_sublist⟩,
      (bySequence (storage.rows.filter (isCut firstKept retained))).map Row.block)

end RecordStorage

end SpSync
