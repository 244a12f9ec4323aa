/-
This file holds the data of one storage on a data server: its quota, its uploads in progress and their expiry.
-/

import SpSync.Construction.Core.RecordDataStore

namespace SpSync

structure DataQuota where
  maxDataSize : Nat := 0
  maxStorageBytes : Nat := 0
deriving DecidableEq, Repr

def int64Limit : Nat := 9223372036854775808

def DataTable.totalEncSize {lib : Securepath} (table : DataTable lib) : Nat :=
  (table.rows.map fun row => row.descriptor.encSize).sum

/-- The uploads that have not completed, with the seconds at which they were touched last. -/
structure DataActivity where
  rows : List (Octets × Int) := []
  distinct : (rows.map Prod.fst).Nodup := by exact List.nodup_nil
deriving DecidableEq

namespace DataActivity

def has (activity : DataActivity) (id : Octets) : Bool :=
  activity.rows.any fun row => row.1 = id

def upsert (activity : DataActivity) (id : Octets) (now : Int) : DataActivity :=
  if known : activity.has id then
    { rows := activity.rows.map fun row => if row.1 = id then (id, now) else row
      distinct := by
        have same : (activity.rows.map fun row => if row.1 = id then (id, now) else row).map Prod.fst =
            activity.rows.map Prod.fst := by
          rw [List.map_map]
          refine List.map_congr_left fun row _ => ?_
          show (if row.1 = id then (id, now) else row).1 = row.1
          split
          · rename_i named
            exact named.symm
          · rfl
        rw [same]
        exact activity.distinct }
  else
    { rows := activity.rows ++ [(id, now)]
      distinct := by
        rw [List.map_append, List.nodup_append]
        refine ⟨activity.distinct, List.nodup_singleton _, fun first inside second only same => ?_⟩
        obtain ⟨row, there, rfl⟩ := List.mem_map.mp inside
        rw [List.mem_singleton.mp only] at same
        exact known (List.any_eq_true.mpr ⟨row, there, decide_eq_true same⟩) }

def delete (activity : DataActivity) (id : Octets) : DataActivity where
  rows := activity.rows.filter fun row => row.1 ≠ id
  distinct := activity.distinct.sublist (List.filter_sublist.map _)

def untouched (activity : DataActivity) (since : Int) : List Octets :=
  (activity.rows.filter fun row => row.2 < since).map Prod.fst

end DataActivity

/-- The data of a storage and the counters beside the tables; the counters have 64 bits. -/
structure ServerDataStore (lib : Securepath) where
  store : RecordDataStore lib
  activity : DataActivity
  quota : DataQuota
  usedBytes : Nat
  uploadsInProgress : Nat

namespace ServerDataStore

variable {lib : Securepath}

/-- The counters start from the tables; a sum that overflows fails. What an interrupted creation staged is cleared. -/
def create (store : RecordDataStore lib) (activity : DataActivity) (quota : DataQuota) :
    Except Error (ServerDataStore lib) :=
  if store.table.totalEncSize < int64Limit then
    .ok { store := { store with files := { store.files with stages := fun _ => none }, drops := 0 }
          activity, quota
          usedBytes := store.table.totalEncSize
          uploadsInProgress := activity.rows.length % uint64Limit }
  else .error ⟨.exceptionOccurred, "integer overflow"⟩

def touch (server : ServerDataStore lib) (id : Octets) (now : Int) : ServerDataStore lib :=
  { server with
    uploadsInProgress :=
      if server.activity.has id then server.uploadsInProgress else (server.uploadsInProgress + 1) % uint64Limit
    activity := server.activity.upsert id now }

def forgetActivity (server : ServerDataStore lib) (id : Octets) : ServerDataStore lib :=
  if server.activity.has id then
    { server with
      uploadsInProgress := (server.uploadsInProgress + (uint64Limit - 1)) % uint64Limit
      activity := server.activity.delete id }
  else server

def register (crypto : DataCrypto) (store : RecordDataStore lib) (stated : StatedDescriptor) :
    Option DataManifest → RecordDataStore lib × Option (DataRow lib)
  | some manifest => store.registerData crypto stated manifest
  | none => store.registerDescriptor stated

/-- The quota and the registration shared by an upload and a copy; a known data holds its reservation already. -/
def openShared (crypto : DataCrypto) (server : ServerDataStore lib) (stated : StatedDescriptor)
    (manifest : Option DataManifest) (now : Int) : ServerDataStore lib × Except Error HaveBitmap :=
  let known := (server.store.table.find stated.manifestDigest).isSome
  if server.quota.maxDataSize ≠ 0 && server.quota.maxDataSize < stated.encSize then (server, .error ⟨.dataTooBig, ""⟩)
  else if !known && server.quota.maxStorageBytes ≠ 0 &&
      server.quota.maxStorageBytes < (server.usedBytes + stated.encSize) % uint64Limit then
    (server, .error ⟨.dataQuotaExceeded, ""⟩)
  else
    match register crypto server.store stated manifest with
    | (store, some row) =>
        let usedBytes := if known then server.usedBytes else (server.usedBytes + stated.encSize) % uint64Limit
        let server := { server with store, usedBytes }
        (if row.state ≠ .inSync then server.touch stated.manifestDigest now else server, .ok row.haveBits)
    | (store, none) => ({ server with store }, .error ⟨.invalidDataManifest, ""⟩)

def openUpload (crypto : DataCrypto) (server : ServerDataStore lib) (stated : StatedDescriptor)
    (manifest : DataManifest) (now : Int) : ServerDataStore lib × Except Error HaveBitmap :=
  server.openShared crypto stated (some manifest) now

def openReplica (crypto : DataCrypto) (server : ServerDataStore lib) (stated : StatedDescriptor) (now : Int) :
    ServerDataStore lib × Except Error HaveBitmap :=
  server.openShared crypto stated none now

def chunkKept (server : ServerDataStore lib) (id : Octets) (now : Int) : ServerDataStore lib × Bool :=
  let complete := (server.store.table.find id).any fun row => row.state = .inSync
  (if complete then server.forgetActivity id else server.touch id now, complete)

def replicaPulled (server : ServerDataStore lib) (id : Octets) (now : Int) : ServerDataStore lib × Bool :=
  server.chunkKept id now

def beginChunk (server : ServerDataStore lib) (id : Octets) (chunkNo : Nat) (now : Int) :
    ServerDataStore lib × Except Error IncomingChunk :=
  if !server.store.hasManifest id then (server, .error ⟨.noSuchUpload, ""⟩)
  else if (server.store.table.find id).any fun row => row.haveBits.test chunkNo then
    (server, .error ⟨.invalidDataChunk, ""⟩)
  else
    match server.store.beginChunk id chunkNo with
    | (store, some incoming) => ({ server with store }.touch id now, .ok incoming)
    | (store, none) => ({ server with store }, .error ⟨.invalidDataChunk, ""⟩)

def finishChunk (crypto : DataCrypto) (server : ServerDataStore lib) (id : Octets) (incoming : IncomingChunk)
    (now : Int) : ServerDataStore lib × IncomingChunk × Except Error Bool :=
  match incoming.finish crypto server.store with
  | (store, incoming, true) =>
      let (server, complete) := { server with store }.chunkKept id now
      (server, incoming, .ok complete)
  | (store, incoming, false) => ({ server with store }, incoming, .error ⟨.invalidDataChunk, ""⟩)

def freed (table : DataTable lib) (ids : List Octets) : Nat :=
  ids.foldl
    (fun freed id => (freed + ((table.find id).map fun row => row.descriptor.encSize).getD 0) % uint64Limit) 0

def drop (server : ServerDataStore lib) (ids : List Octets) : ServerDataStore lib × Nat :=
  let (store, removed) := server.store.remove ids
  ({ server with
      store
      usedBytes := server.usedBytes - min (freed server.store.table ids) server.usedBytes }, removed)

def release (server : ServerDataStore lib) (ids : List Octets) : ServerDataStore lib × Nat :=
  (ids.foldl forgetActivity server).drop ids

/-- The untouched data that are not complete go; the complete ones only lose their activity. -/
def expireIncomplete (server : ServerDataStore lib) (since : Int) : ServerDataStore lib × Nat :=
  let untouched := server.activity.untouched since
  let expired := untouched.filter fun id =>
    (server.store.table.find id).any fun row => row.state ≠ .inSync
  (untouched.foldl forgetActivity server).drop expired

end ServerDataStore

end SpSync
