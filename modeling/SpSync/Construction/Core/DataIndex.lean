/-
This file holds the table of the data that records name and the retention of their old versions at a cut.
-/

import SpSync.Construction.Core.History
import SpSync.Construction.Core.SyncMode
import SpSync.Foundation.Tally

namespace SpSync

open Foundation

variable {lib : Securepath}

inductive RecordDataState
  | unknown
  | deferred
  | remoteNotComplete
  | uploadPending
  | downloadPending
  | inSync
  | removed
  | invalid
  | pruned
deriving DecidableEq, Repr

abbrev DataRef := Nat

structure DataStateRow where
  localId : DataRef
  descriptor : DataDescriptor
  state : RecordDataState
deriving DecidableEq, Repr

/-- The records, the data column of their object rows and the data table. -/
structure DataIndex (lib : Securepath) where
  records : RecordStorage lib
  dataRef : RecordTag → ObjectId → Option DataRef
  datas : List DataStateRow
  distinctIds : (datas.map DataStateRow.localId).Nodup

namespace DataIndex

def find (index : DataIndex lib) (ref : DataRef) : Option DataStateRow :=
  index.datas.find? fun data => data.localId = ref

def referenceCount (index : DataIndex lib) (ref : DataRef) : Nat :=
  (index.records.rows.flatMap fun row =>
    row.objects.filter fun change => index.dataRef row.tag change.id = some ref).length

/-- A version below the cut that carries a data is counted; beyond the kept ones its data is superseded. -/
def noteVersion (index : DataIndex lib) (below : SequenceNumber) (keptVersions : Nat) (oid : ObjectId)
    (state : Nat × Tally DataRef) (row : Row lib) : Nat × Tally DataRef :=
  match index.dataRef row.tag oid with
  | none => state
  | some ref =>
      if row.sequence < below then
        let carrying := state.1 + 1
        (carrying, if keptVersions < carrying then state.2.increment ref else state.2)
      else state

def supersededReferences (index : DataIndex lib) (below : SequenceNumber) (keptVersions : Nat) : Tally DataRef :=
  index.records.objectIds.foldl (fun superseded oid =>
    ((index.records.objectVersions oid).foldl (index.noteVersion below keptVersions oid) (0, superseded)).2) ∅

def onlyReferencedBy (index : DataIndex lib) (references : Tally DataRef) : List DataStateRow :=
  (references.entries.insertionSort fun left right => left.1 ≤ right.1).filterMap fun entry =>
    (index.find entry.1).filter fun data => data.state ≠ .pruned && index.referenceCount entry.1 = entry.2

def supersededRows (index : DataIndex lib) (below : SequenceNumber) (keptVersions : Nat) : List DataStateRow :=
  if keptVersions ≠ 0 && keptVersions ≠ keepAllDataVersions then
    index.onlyReferencedBy (index.supersededReferences below keptVersions)
  else []

def supersededDataBelow (index : DataIndex lib) (below : SequenceNumber) (keptVersions : Nat) : List Octets :=
  (index.supersededRows below keptVersions).map fun data => data.descriptor.manifestDigest

def prune (index : DataIndex lib) (rows : List DataStateRow) : DataIndex lib × List Octets :=
  let mark (data : DataStateRow) : DataStateRow :=
    if data.localId ∈ rows.map DataStateRow.localId then { data with state := .pruned } else data
  ({ index with
      datas := index.datas.map mark
      distinctIds := by
        have same : DataStateRow.localId ∘ mark = DataStateRow.localId := by
          funext data
          simp only [Function.comp, mark]
          split <;> rfl
        rw [List.map_map, same]
        exact index.distinctIds },
    rows.map fun data => data.descriptor.manifestDigest)

def pruneSupersededData (index : DataIndex lib) (below : SequenceNumber) (keptVersions : Nat) :
    DataIndex lib × List Octets :=
  index.prune (index.supersededRows below keptVersions)

end DataIndex

end SpSync
