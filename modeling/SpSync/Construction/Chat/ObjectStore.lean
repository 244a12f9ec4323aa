/-
This file holds the two tables of a channel, for the objects the server confirmed and for the pending ones, and the
searches on them.
-/

import Mathlib.Data.List.Nodup
import Mathlib.Data.List.Sort
import SpSync.Construction.Core.Records

namespace SpSync

structure ObjectRow (Payload : Type) where
  id : ObjectId
  data : Payload
  stime : Int
  seq : Option SequenceNumber := none
  iid : Option Nat := none
deriving DecidableEq

structure StoredObject (Payload : Type) where
  id : ObjectId
  payload : Payload
  senderTime : Int
  index : Int
  pending : Bool
deriving DecidableEq

structure ObjectChange where
  newIndex : Int := 0
  oldIndex : Int := 0
deriving DecidableEq, Repr

inductive MsgOrder
  | indexAscending
  | indexDescending
  | timeAscending
  | timeDescending
deriving DecidableEq, Repr

def MsgOrder.isTimeOrder (order : MsgOrder) : Bool :=
  order = .timeAscending || order = .timeDescending

/-- The start index zero is the beginning, or the end of a descending search; the count zero is no limit. -/
structure MessageSearch where
  startIndex : Int := 0
  maxCount : Nat := 0
  order : MsgOrder := .indexDescending
deriving DecidableEq, Repr

/-- The rows of the two tables in the order of their keys, which count from one; the identifiers of each table are
unique. The highest confirmed key is read when the store opens and counted along. -/
structure ObjectStore (Payload : Type) where
  confirmed : List (ObjectRow Payload)
  pending : List (ObjectRow Payload)
  syncMaxIndex : Int
  confirmedUnique : (confirmed.map ObjectRow.id).Nodup
  pendingUnique : (pending.map ObjectRow.id).Nodup

namespace ObjectStore

variable {Payload : Type}

def empty : ObjectStore Payload :=
  ⟨[], [], 0, .nil, .nil⟩

def reopen (store : ObjectStore Payload) : ObjectStore Payload :=
  { store with syncMaxIndex := store.confirmed.length }

def pendingKey (store : ObjectStore Payload) (id : ObjectId) : Int :=
  if id ∈ store.pending.map ObjectRow.id then store.pending.findIdx (fun row => row.id = id) + 1 else 0

def updatePending (store : ObjectStore Payload) (id : ObjectId) : ObjectStore Payload × Int :=
  if store.pendingKey id = 0 then (store, 0)
  else
    ({ store with
        pending := store.pending.filter fun row => row.id ≠ id
        pendingUnique := store.pendingUnique.sublist (List.filter_sublist.map ObjectRow.id) },
      store.syncMaxIndex + store.pendingKey id)

def removePending (store : ObjectStore Payload) (id : ObjectId) : ObjectStore Payload × Bool :=
  ((store.updatePending id).1, (store.updatePending id).2 ≠ 0)

def microseconds (time : Int) : Int :=
  time.tdiv 1000

/-- A confirmed object goes to the end of the confirmed table and leaves the pending one; the table refuses an
identifier that it has, which undoes the insert. -/
def insertConfirmed (store : ObjectStore Payload) (id : ObjectId) (payload : Payload) (senderTime : Int)
    (seq : SequenceNumber) : Except Error (ObjectStore Payload × ObjectChange) :=
  let (kept, oldIndex) := store.updatePending id
  if new : id ∉ kept.confirmed.map ObjectRow.id then
    .ok ({ kept with
        confirmed := kept.confirmed ++ [{ id, data := payload, stime := microseconds senderTime, seq := some seq }]
        syncMaxIndex := kept.syncMaxIndex + 1
        confirmedUnique := by
          rw [List.map_append]
          exact kept.confirmedUnique.append (List.nodup_singleton _) (by simpa using new) },
      ⟨kept.confirmed.length + 1, oldIndex⟩)
  else .error ⟨.databaseConstraint, ""⟩

def insertPending (store : ObjectStore Payload) (id : ObjectId) (payload : Payload) (senderTime : Int) (iid : Nat) :
    ObjectStore Payload × ObjectChange :=
  if new : id ∉ store.pending.map ObjectRow.id then
    ({ store with
        pending := store.pending ++ [{ id, data := payload, stime := microseconds senderTime, iid := some iid }]
        pendingUnique := by
          rw [List.map_append]
          exact store.pendingUnique.append (List.nodup_singleton _) (by simpa using new) },
      ⟨store.syncMaxIndex + (store.pending.length + 1), 0⟩)
  else (store, ⟨store.syncMaxIndex + store.pendingKey id, 0⟩)

def insert (store : ObjectStore Payload) (id : ObjectId) (payload : Payload) (senderTime : Int)
    (seq : SequenceNumber) (iid : Nat) (pending : Bool) : Except Error (ObjectStore Payload × ObjectChange) :=
  if pending then .ok (store.insertPending id payload senderTime iid)
  else store.insertConfirmed id payload senderTime seq

def latestSequence (store : ObjectStore Payload) : SequenceNumber :=
  store.confirmed.foldl (fun highest row => max highest (row.seq.getD 0)) 0

def keyed (rows : List (ObjectRow Payload)) : List (ObjectRow Payload × Int) :=
  rows.zipIdx.map fun (row, position) => (row, position + 1)

def limit {Item : Type} (maxCount : Nat) (items : List Item) : List Item :=
  if maxCount = 0 then items else items.take maxCount

def byTime (rows : List (ObjectRow Payload × Int)) : List (ObjectRow Payload × Int) :=
  rows.insertionSort fun left right =>
    left.1.stime < right.1.stime ∨ (left.1.stime = right.1.stime ∧ left.2 ≤ right.2)

def select (search : MessageSearch) (rows : List (ObjectRow Payload)) : List (ObjectRow Payload × Int) :=
  limit search.maxCount
    (match search.order with
    | .timeAscending => byTime (keyed rows)
    | .timeDescending => (byTime (keyed rows)).reverse
    | .indexAscending => (keyed rows).filter fun row => search.startIndex = 0 || search.startIndex ≤ row.2
    | .indexDescending =>
        ((keyed rows).filter fun row => search.startIndex = 0 || row.2 ≤ search.startIndex).reverse)

def rowOf (row : ObjectRow Payload) (index : Int) (pending : Bool) : StoredObject Payload :=
  ⟨row.id, row.data, row.stime, index, pending⟩

def getConfirmed (store : ObjectStore Payload) (search : MessageSearch) : List (StoredObject Payload) :=
  (select search store.confirmed).map fun (row, key) => rowOf row key false

def getPending (store : ObjectStore Payload) (search : MessageSearch) : List (StoredObject Payload) :=
  let start := if search.startIndex ≠ 0 ∧ !search.order.isTimeOrder then search.startIndex - store.syncMaxIndex
    else search.startIndex
  (select { search with startIndex := start } store.pending).map fun (row, key) =>
    rowOf row (store.syncMaxIndex + key) true

def precedes (left right : StoredObject Payload) : Bool :=
  left.senderTime < right.senderTime || (left.senderTime = right.senderTime && left.index ≤ right.index)

def mergeByTime (confirmed pending : List (StoredObject Payload)) (search : MessageSearch) :
    List (StoredObject Payload) :=
  limit search.maxCount
    (if search.order = .timeAscending then (confirmed ++ pending).insertionSort fun left right => precedes left right
    else (confirmed ++ pending).insertionSort fun left right => precedes right left)

def getByTime (store : ObjectStore Payload) (search : MessageSearch) : List (StoredObject Payload) :=
  let search := { search with startIndex := 0 }
  mergeByTime (store.getConfirmed search) (store.getPending search) search

def get (store : ObjectStore Payload) (search : MessageSearch) : List (StoredObject Payload) :=
  if search.order.isTimeOrder then store.getByTime search
  else if search.order = .indexAscending then
    let inside := search.startIndex = 0 || search.startIndex ≤ store.syncMaxIndex
    let first := if inside then store.getConfirmed search else []
    let rest := if inside then { search with startIndex := 0 } else search
    if search.maxCount = 0 || first.length < search.maxCount then
      first ++ store.getPending { rest with maxCount := search.maxCount - first.length }
    else first
  else
    let inside := search.startIndex = 0 || store.syncMaxIndex < search.startIndex
    let first := if inside then store.getPending search else []
    let rest := if inside then { search with startIndex := 0 } else search
    if search.maxCount = 0 || first.length < search.maxCount then
      first ++ store.getConfirmed { rest with maxCount := search.maxCount - first.length }
    else first

end ObjectStore

end SpSync
