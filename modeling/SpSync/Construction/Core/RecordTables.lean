/-
This file holds the tables of a record storage with the handles that it gave out: the records, their object rows and
the data that these name.
-/

import SpSync.Construction.Core.DataTable

namespace SpSync

structure RecordObject where
  tag : RecordTag
  prevTag : RecordTag
  oid : ObjectId
  dataRef : Option DataRef
deriving DecidableEq, Repr

structure SelectedRow (lib : Securepath) extends Row lib where
  selector : Bool
deriving DecidableEq

def SelectedRow.restated {lib : Securepath} (state : RecordState) (id : ChainBlockId) (parentHash : Octets)
    (row : SelectedRow lib) : SelectedRow lib :=
  if id.isValid then
    { row with state, sequence := id.sequence, hash := id.hash, parentHash, selector := state.isServerConfirmed }
  else { row with state, selector := state.isServerConfirmed }

def SelectedRow.replaced {lib : Securepath} (block : lib.Block) (row : SelectedRow lib) : SelectedRow lib :=
  { row with
    tag := block.tag, sequence := block.sequence, hash := lib.hash block, parentHash := block.parentHash, block,
    selector := false }

@[mk_iff]
structure Constrained {lib : Securepath} (rows : List (SelectedRow lib)) : Prop where
  keys : rows.Pairwise fun left right => left.key < right.key
  tags : rows.Pairwise fun left right => left.tag ≠ right.tag
  hashes : rows.Pairwise fun left right => left.hash ≠ right.hash
  opIds : rows.Pairwise fun left right => left.opId = [] ∨ left.opId ≠ right.opId
  sequences : rows.Pairwise fun left right => left.selector = true → right.selector = true →
    left.sequence ≠ right.sequence

instance {lib : Securepath} (rows : List (SelectedRow lib)) : Decidable (Constrained rows) :=
  decidable_of_iff _ (constrained_iff rows).symm

theorem Constrained.sublist {lib : Securepath} {kept rows : List (SelectedRow lib)} (constrained : Constrained rows)
    (sub : kept.Sublist rows) : Constrained kept :=
  ⟨constrained.keys.sublist sub, constrained.tags.sublist sub, constrained.hashes.sublist sub,
    constrained.opIds.sublist sub, constrained.sequences.sublist sub⟩

/-- A handle of a record with the values that it keeps in memory. -/
structure RecordHandle where
  key : Nat
  tag : RecordTag
  state : RecordState
  /-- The storage gives this handle out for the key. -/
  cached : Bool := true
deriving DecidableEq, Repr

def Record.changes (record : Record) : List PlainSingleChangeData :=
  match record.body with
  | .dataChange changes => changes
  | _ => []

/-- The row of the data that a stored record names; a data that was let go is wanted again. -/
def DataTable.reference {lib : Securepath} (datas : DataTable lib) (descriptor : DataDescriptor) :
    Except Error (DataTable lib × DataRef) := do
  let (datas, localId) ← datas.ensure descriptor
  match datas.findKey localId with
  | some row => return (if row.state = .pruned then datas.setState localId .deferred else datas, localId)
  | none => return (datas, localId)

structure RecordTables (lib : Securepath) where
  rows : List (SelectedRow lib) := []
  constrained : Constrained rows := by exact ⟨.nil, .nil, .nil, .nil, .nil⟩
  objects : List RecordObject := []
  datas : DataTable lib := {}
  handles : List RecordHandle := []

namespace RecordTables

variable {lib : Securepath}

def createObjectRecord (tag : RecordTag) (index : List RecordObject × DataTable lib) (change : PlainSingleChangeData) :
    Except Error (List RecordObject × DataTable lib) := do
  match change.data.filter (DataDescriptor.usable lib) with
  | some descriptor =>
      let (datas, localId) ← index.2.reference descriptor
      return (index.1 ++ [⟨tag, change.previousOidRecordTag, change.id, some localId⟩], datas)
  | none => return (index.1 ++ [⟨tag, change.previousOidRecordTag, change.id, none⟩], index.2)

def createObjectRecords (tag : RecordTag) (changes : List PlainSingleChangeData)
    (index : List RecordObject × DataTable lib) : Except Error (List RecordObject × DataTable lib) :=
  changes.foldlM (createObjectRecord tag) index

def writeRows (tables : RecordTables lib) (rows : List (SelectedRow lib)) : Except Error (RecordTables lib) :=
  if constrained : Constrained rows then .ok { tables with rows, constrained } else .error ⟨.databaseConstraint, ""⟩

/-- The storage gives out one handle for each record as long as somebody holds it. -/
def loadRecord (tables : RecordTables lib) (row : SelectedRow lib) : RecordTables lib :=
  if tables.handles.any fun handle => handle.cached && handle.key = row.key then tables
  else { tables with handles := tables.handles ++ [{ key := row.key, tag := row.tag, state := row.state }] }

def nextKey (tables : RecordTables lib) : Nat :=
  tables.rows.foldl (fun highest row => max highest row.key) 0 + 1

def newRow (tables : RecordTables lib) (block : lib.Block) (state : RecordState) (record : Record) :
    SelectedRow lib where
  key := tables.nextKey
  tag := block.tag
  sequence := block.sequence
  hash := lib.hash block
  parentHash := block.parentHash
  state := state
  block := block
  type := record.body.type
  opId := record.base.opId
  selector := state.isServerConfirmed

def create (tables : RecordTables lib) (block : lib.Block) (state : RecordState) : Except Error (RecordTables lib) :=
  match lib.deserialise block.record with
  | none => .error ⟨.invalidData, ""⟩
  | some record => do
      let row := tables.newRow block state record
      let inserted ← tables.writeRows (tables.rows ++ [row])
      let (objects, datas) ← createObjectRecords block.tag record.changes (tables.objects, tables.datas)
      return { inserted.loadRecord row with objects, datas }

def setState (tables : RecordTables lib) (place : Nat) (state : RecordState) (id : ChainBlockId)
    (parentHash : Octets) : Except Error (RecordTables lib) :=
  match tables.handles[place]? with
  | none => .ok tables
  | some handle => do
      let updated ← tables.writeRows (tables.rows.map fun row =>
        if row.key = handle.key then row.restated state id parentHash else row)
      return { updated with handles := tables.handles.set place { handle with state } }

def updateRecord (tables : RecordTables lib) (handle : RecordHandle) (block : lib.Block) :
    Except Error (RecordTables lib) :=
  tables.writeRows (tables.rows.map fun row => if row.key = handle.key then row.replaced block else row)

/-- The stored block of an unconfirmed record is replaced; the answer is what the call leaves, also when it throws.
The handle keeps the new tag from the update on, also when the block does not parse and the tables roll back. -/
def setRecord (tables : RecordTables lib) (place : Nat) (block : lib.Block) : RecordTables lib :=
  match tables.handles[place]? with
  | none => tables
  | some handle =>
      if handle.state.isServerConfirmed then tables
      else match tables.updateRecord handle block with
        | .error _ => tables
        | .ok updated =>
            let handles := tables.handles.set place { handle with tag := block.tag }
            match lib.deserialise block.record with
            | none => { tables with handles }
            | some record =>
                let kept := tables.objects.filter fun object => object.tag ≠ handle.tag
                match createObjectRecords block.tag record.changes (kept, tables.datas) with
                | .error _ => { tables with handles }
                | .ok (objects, datas) => { updated with objects, datas, handles }

def bySequence (rows : List (SelectedRow lib)) : List (SelectedRow lib) :=
  rows.insertionSort fun left right => left.sequence ≤ right.sequence

def removeRow (tables : RecordTables lib) (row : SelectedRow lib) : RecordTables lib :=
  { tables with
    rows := tables.rows.filter fun other => other.key ≠ row.key
    constrained := tables.constrained.sublist List.filter_sublist
    objects := tables.objects.filter fun object => object.tag ≠ row.block.tag }

def invalidateHandle (tables : RecordTables lib) (key : Nat) : RecordTables lib :=
  { tables with handles := tables.handles.map fun handle =>
      if handle.cached && handle.key = key then { handle with state := .invalid, cached := false } else handle }

def demoted (row : SelectedRow lib) : SelectedRow lib :=
  { row with state := .pendingCommit, selector := false, assignment := none }

theorem Constrained.demote {rows : List (SelectedRow lib)} (constrained : Constrained rows) (key : Nat) :
    Constrained (rows.map fun row => if row.key = key then demoted row else row) := by
  constructor
  · exact constrained.keys.map _ fun left right less => by split <;> split <;> exact less
  · exact constrained.tags.map _ fun left right differ => by split <;> split <;> exact differ
  · exact constrained.hashes.map _ fun left right differ => by split <;> split <;> exact differ
  · exact constrained.opIds.map _ fun left right either => by split <;> split <;> exact either
  · refine constrained.sequences.map _ fun left right differ => ?_
    split
    · exact nofun
    · split
      · exact fun _ => nofun
      · exact differ

def demote (tables : RecordTables lib) (row : SelectedRow lib) : RecordTables lib :=
  let loaded := tables.loadRecord row
  { loaded with
    rows := tables.rows.map fun other => if other.key = row.key then demoted other else other
    constrained := Constrained.demote tables.constrained row.key
    handles := loaded.handles.map fun handle =>
      if handle.cached && handle.key = row.key then { handle with state := .pendingCommit } else handle }

def truncateRow (demoteAcked : Bool) (tables : RecordTables lib) (row : SelectedRow lib) : RecordTables lib :=
  if demoteAcked && row.state = .acked then tables.demote row
  else (tables.removeRow row).invalidateHandle row.key

def truncateFrom (tables : RecordTables lib) (firstRemoved : SequenceNumber) (demoteAcked : Bool) :
    Except Error (RecordTables lib × List lib.Block) :=
  if firstRemoved = 0 then .error ⟨.constraintViolation, "truncate_from requires a valid sequence number"⟩
  else
    let rows := bySequence (tables.rows.filter fun row =>
      RecordStorage.isReceived row.toRow && firstRemoved ≤ row.sequence)
    .ok (rows.foldl (truncateRow demoteAcked) tables,
      (rows.filter fun row => !(demoteAcked && row.state = .acked)).map fun row => row.block)

def truncatePrefix (tables : RecordTables lib) (firstKept : SequenceNumber) (retained : List RecordTag) :
    Except Error (RecordTables lib × List lib.Block) :=
  if firstKept = 0 then .error ⟨.constraintViolation, "truncate_prefix requires a valid sequence number"⟩
  else
    let rows := bySequence (tables.rows.filter fun row =>
      RecordStorage.isReceived row.toRow && row.sequence < firstKept && row.block.tag ∉ retained)
    .ok (rows.foldl (truncateRow false) tables, rows.map fun row => row.block)

def dataReferenceCount (tables : RecordTables lib) (dataRef : DataRef) : Nat :=
  tables.objects.countP fun object => object.dataRef = some dataRef

end RecordTables

inductive RecordCall (lib : Securepath)
  | create (block : lib.Block) (state : RecordState)
  | find (key : Nat)
  /-- The last holder of a handle lets it go. -/
  | release (place : Nat)
  | setState (place : Nat) (state : RecordState) (id : ChainBlockId) (parentHash : Octets)
  | setRecord (place : Nat) (block : lib.Block)
  | truncateFrom (firstRemoved : SequenceNumber) (demoteAcked : Bool)
  | truncatePrefix (firstKept : SequenceNumber) (retained : List RecordTag)

namespace RecordTables

variable {lib : Securepath}

/-- What a call leaves; a call that throws rolls its transaction back. -/
def step (tables : RecordTables lib) : RecordCall lib → RecordTables lib
  | .create block state => (tables.create block state).toOption.getD tables
  | .find key => (tables.rows.find? fun row => row.key = key).elim tables tables.loadRecord
  | .release place => { tables with handles := tables.handles.eraseIdx place }
  | .setState place state id parentHash => (tables.setState place state id parentHash).toOption.getD tables
  | .setRecord place block => tables.setRecord place block
  | .truncateFrom firstRemoved demoteAcked =>
      ((tables.truncateFrom firstRemoved demoteAcked).toOption.map Prod.fst).getD tables
  | .truncatePrefix firstKept retained =>
      ((tables.truncatePrefix firstKept retained).toOption.map Prod.fst).getD tables

end RecordTables

end SpSync
