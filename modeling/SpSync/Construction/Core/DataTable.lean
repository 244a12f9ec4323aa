/-
This file holds the table of record data: what is known of each data and which of its chunks are held.
-/

import Mathlib.Data.List.Pairwise
import SpSync.Construction.Core.DataIndex
import SpSync.Construction.Core.SyncMode

namespace SpSync

abbrev HaveBitmap := List Bool

namespace HaveBitmap

def ofCount (chunkCount : Nat) : HaveBitmap :=
  List.replicate chunkCount false

def normalise (chunkCount : Nat) (bits : HaveBitmap) : HaveBitmap :=
  (bits ++ List.replicate chunkCount false).take chunkCount

def test (bits : HaveBitmap) (chunk : Nat) : Bool :=
  bits.getD chunk false

def mark (bits : HaveBitmap) (chunk : Nat) : HaveBitmap :=
  bits.set chunk true

def setAll (bits : HaveBitmap) : HaveBitmap :=
  bits.map fun _ => true

def clear (bits : HaveBitmap) : HaveBitmap :=
  bits.map fun _ => false

def complete (bits : HaveBitmap) : Bool :=
  bits.count true = bits.length

theorem length_normalise (chunkCount : Nat) (bits : HaveBitmap) : (normalise chunkCount bits).length = chunkCount := by
  simp [normalise]

end HaveBitmap

structure DataHeader where
  plainSize : Nat
  contentDigest : Octets
  nonce : Octets
  keySeq : SequenceNumber
  flags : Nat := 0
deriving DecidableEq, Repr

/-- One row of the data table; the digests of the manifest are one blob. -/
structure DataRow (lib : Securepath) where
  localId : DataRef
  descriptor : DataDescriptor
  state : RecordDataState := .deferred
  haveBits : HaveBitmap := .ofCount (descriptor.chunkCount lib)
  digests : Option Octets := none
  header : Option DataHeader := none
  sized : haveBits.length = descriptor.chunkCount lib := by exact List.length_replicate
deriving DecidableEq

def DataRow.dataId {lib : Securepath} (row : DataRow lib) : Octets :=
  row.descriptor.manifestDigest

/-- The data table; a key is never given twice, also not after its row went. -/
structure DataTable (lib : Securepath) where
  rows : List (DataRow lib) := []
  lastKey : Nat := 0
  distinct : rows.Pairwise fun left right => left.dataId ≠ right.dataId := by exact List.Pairwise.nil
  ordered : rows.Pairwise fun left right => left.localId < right.localId := by exact List.Pairwise.nil
  issued : ∀ row ∈ rows, row.localId ≤ lastKey := by exact List.forall_mem_nil _
deriving DecidableEq

namespace DataTable

def empty (lib : Securepath) : DataTable lib := {}

variable {lib : Securepath}

def find (table : DataTable lib) (id : Octets) : Option (DataRow lib) :=
  table.rows.find? fun row => row.dataId = id

def findKey (table : DataTable lib) (localId : DataRef) : Option (DataRow lib) :=
  table.rows.find? fun row => row.localId = localId

def insert (table : DataTable lib) (descriptor : DataDescriptor)
    (unknown : ∀ row ∈ table.rows, row.dataId ≠ descriptor.manifestDigest) : DataTable lib where
  rows := table.rows ++ [{ localId := table.lastKey + 1, descriptor }]
  lastKey := table.lastKey + 1
  distinct := by
    refine List.pairwise_append.mpr ⟨table.distinct, List.pairwise_singleton _ _, fun row inside new only => ?_⟩
    rw [List.mem_singleton.mp only]
    exact unknown row inside
  ordered := by
    refine List.pairwise_append.mpr ⟨table.ordered, List.pairwise_singleton _ _, fun row inside new only => ?_⟩
    rw [List.mem_singleton.mp only]
    exact Nat.lt_succ_of_le (table.issued row inside)
  issued row inside := by
    obtain old | new := List.mem_append.mp inside
    · exact Nat.le_succ_of_le (table.issued row old)
    · rw [List.mem_singleton.mp new]

def withRow (table : DataTable lib) (descriptor : DataDescriptor) : DataTable lib :=
  if unknown : ∀ row ∈ table.rows, row.dataId ≠ descriptor.manifestDigest then table.insert descriptor unknown
  else table

def ensure (table : DataTable lib) (descriptor : DataDescriptor) : Except Error (DataTable lib × DataRef) :=
  if descriptor.usable lib then
    let table := table.withRow descriptor
    match table.find descriptor.manifestDigest with
    | some row => .ok (table, row.localId)
    | none => .error ⟨.invalidState, "failed to create record data row"⟩
  else .error ⟨.invalidData, "record data descriptor out of bounds"⟩

def update (table : DataTable lib) (localId : DataRef) (change : DataRow lib → DataRow lib)
    (keeps : ∀ row, (change row).localId = row.localId ∧ (change row).descriptor = row.descriptor) : DataTable lib :=
  let write (row : DataRow lib) : DataRow lib := if row.localId = localId then change row else row
  have kept (row : DataRow lib) : (write row).localId = row.localId ∧ (write row).dataId = row.dataId := by
    dsimp only [write]
    split
    · exact ⟨(keeps row).1, congrArg DataDescriptor.manifestDigest (keeps row).2⟩
    · exact ⟨rfl, rfl⟩
  { rows := table.rows.map write
    lastKey := table.lastKey
    distinct := List.pairwise_map.mpr (table.distinct.imp fun differ => by rwa [(kept _).2, (kept _).2])
    ordered := List.pairwise_map.mpr (table.ordered.imp fun less => by rwa [(kept _).1, (kept _).1])
    issued := fun row inside => by
      obtain ⟨old, before, rfl⟩ := List.mem_map.mp inside
      rw [(kept old).1]
      exact table.issued old before }

def setState (table : DataTable lib) (localId : DataRef) (state : RecordDataState) : DataTable lib :=
  table.update localId (fun row => { row with state }) fun _ => ⟨rfl, rfl⟩

def setHave (table : DataTable lib) (localId : DataRef) (bits : HaveBitmap) : DataTable lib :=
  table.update localId
    (fun row => { row with
      haveBits := bits.normalise (row.descriptor.chunkCount lib)
      sized := HaveBitmap.length_normalise _ _ })
    fun _ => ⟨rfl, rfl⟩

def setDigests (table : DataTable lib) (localId : DataRef) (digests : Octets) : DataTable lib :=
  table.update localId (fun row => { row with digests := some digests }) fun _ => ⟨rfl, rfl⟩

def setHeader (table : DataTable lib) (localId : DataRef) (header : DataHeader) : DataTable lib :=
  table.update localId (fun row => { row with header := some header }) fun _ => ⟨rfl, rfl⟩

def remove (table : DataTable lib) (localId : DataRef) : DataTable lib where
  rows := table.rows.filter fun row => row.localId ≠ localId
  lastKey := table.lastKey
  distinct := table.distinct.sublist List.filter_sublist
  ordered := table.ordered.sublist List.filter_sublist
  issued row inside := table.issued row (List.mem_of_mem_filter inside)

end DataTable

end SpSync
