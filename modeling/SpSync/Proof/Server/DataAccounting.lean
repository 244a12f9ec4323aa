import SpSync.Construction.Server.ServerDataStore
import SpSync.Foundation.Run
import SpSync.Proof.Core.RecordDataStore

namespace SpSync

open Foundation

variable {lib : Securepath}

namespace DataTable

variable {table : DataTable lib} {row : DataRow lib} {id : Octets}

section

variable (table : DataTable lib) (localId : DataRef)

theorem totalEncSize_update (change : DataRow lib → DataRow lib)
    (keeps : ∀ row, (change row).localId = row.localId ∧ (change row).descriptor = row.descriptor) :
    (table.update localId change keeps).totalEncSize = table.totalEncSize := by
  unfold totalEncSize update
  rw [List.map_map]
  congr 1
  refine List.map_congr_left fun row _ => ?_
  show (if row.localId = localId then change row else row).descriptor.encSize = row.descriptor.encSize
  split
  · rw [(keeps row).2]
  · rfl

theorem totalEncSize_setState (state : RecordDataState) :
    (table.setState localId state).totalEncSize = table.totalEncSize := by
  rw [setState, totalEncSize_update]

theorem totalEncSize_setHave (bits : HaveBitmap) :
    (table.setHave localId bits).totalEncSize = table.totalEncSize := by
  rw [setHave, totalEncSize_update]

theorem totalEncSize_setDigests (digests : Octets) :
    (table.setDigests localId digests).totalEncSize = table.totalEncSize := by
  rw [setDigests, totalEncSize_update]

end

/-- Only a data that was not known adds to the sum. -/
theorem totalEncSize_withRow (table : DataTable lib) (descriptor : DataDescriptor) :
    (table.withRow descriptor).totalEncSize =
      table.totalEncSize + if (table.find descriptor.manifestDigest).isSome then 0 else descriptor.encSize := by
  unfold totalEncSize
  rw [rows_withRow, List.map_append, List.sum_append]
  split
  · rfl
  · rw [List.map_singleton, List.sum_singleton]
    rfl

/-- The size of a data that goes leaves the sum. -/
theorem totalEncSize_remove (found : table.find id = some row) :
    table.totalEncSize = row.descriptor.encSize + (table.remove row.localId).totalEncSize := by
  obtain ⟨inside, -⟩ := find_eq_some_iff.mp found
  obtain ⟨front, back, whole, left⟩ := Table.split_filter (table.ordered.imp Nat.ne_of_lt) inside
  show (table.rows.map _).sum = _ + ((table.rows.filter fun other => other.localId ≠ row.localId).map _).sum
  rw [left, whole, List.map_append, List.map_cons, List.sum_append, List.sum_cons, List.map_append, List.sum_append]
  omega

end DataTable

namespace DataActivity

theorem length_upsert (activity : DataActivity) (id : Octets) (now : Int) :
    (activity.upsert id now).rows.length = activity.rows.length + if activity.has id then 0 else 1 := by
  unfold upsert
  by_cases known : activity.has id = true
  · rw [dif_pos known, if_pos known, List.length_map]
    rfl
  · rw [dif_neg known, if_neg known, List.length_append, List.length_singleton]

theorem length_delete {activity : DataActivity} {id : Octets} (known : activity.has id = true) :
    (activity.delete id).rows.length + 1 = activity.rows.length := by
  obtain ⟨row, inside, named⟩ := List.any_eq_true.mp known
  obtain ⟨front, back, whole, left⟩ := Table.split_filter (List.pairwise_map.mp activity.distinct) inside
  rw [of_decide_eq_true named] at left
  show (activity.rows.filter fun other => other.1 ≠ id).length + 1 = _
  rw [left, whole, List.length_append, List.length_append, List.length_cons]
  omega

end DataActivity

namespace RecordDataStore

variable {store : RecordDataStore lib}

variable (store)

theorem totalEncSize_markHeld (row : DataRow lib) (chunkNo : Nat) :
    (store.markHeld row chunkNo).table.totalEncSize = store.table.totalEncSize := by
  unfold markHeld
  dsimp only
  split
  · exact (DataTable.totalEncSize_setState _ _ _).trans (DataTable.totalEncSize_setHave _ _ _)
  · exact DataTable.totalEncSize_setHave _ _ _

theorem totalEncSize_adoptChunk (id : Octets) (chunkNo stage : Nat) :
    (store.adoptChunk id chunkNo stage).1.table.totalEncSize = store.table.totalEncSize := by
  unfold adoptChunk
  split
  · split
    · rfl
    · exact totalEncSize_markHeld _ _ _
  · rfl

theorem table_discard (chunk : IncomingChunk) : (chunk.discard store).1.table = store.table := by
  unfold IncomingChunk.discard
  split <;> rfl

theorem table_append (chunk : IncomingChunk) (offset : Nat) (piece : Octets) :
    (chunk.append store offset piece).1.table = store.table := by
  unfold IncomingChunk.append
  split
  · rfl
  · exact table_discard store chunk

variable {store} {later : RecordDataStore lib} {stated : StatedDescriptor}

theorem totalEncSize_finish (crypto : DataCrypto) (store : RecordDataStore lib) (chunk : IncomingChunk) :
    (chunk.finish crypto store).1.table.totalEncSize = store.table.totalEncSize := by
  unfold IncomingChunk.finish
  split
  · exact totalEncSize_adoptChunk store _ _ _
  · exact congrArg DataTable.totalEncSize (table_discard store chunk)

theorem table_beginChunk (store : RecordDataStore lib) (id : Octets) (chunkNo : Nat) :
    (store.beginChunk id chunkNo).1.table = store.table := by
  unfold beginChunk
  split
  · split
    · split <;> rfl
    · rfl
  · rfl

theorem totalEncSize_setManifest (crypto : DataCrypto) (store : RecordDataStore lib) (id : Octets)
    (manifest : DataManifest) :
    (store.setManifest crypto id manifest).1.table.totalEncSize = store.table.totalEncSize := by
  unfold setManifest
  split
  · split
    · exact DataTable.totalEncSize_setDigests _ _ _
    · rfl
  · rfl

/-- A row comes back only for a usable descriptor, whose size is added when the data was not known. -/
theorem totalEncSize_registerDescriptor {row : DataRow lib}
    (returned : store.registerDescriptor stated = (later, some row)) :
    stated.usable lib = true ∧ later.table.totalEncSize = store.table.totalEncSize +
      if (store.table.find stated.manifestDigest).isSome then 0 else stated.encSize := by
  by_cases usable : stated.usable lib = true
  · rw [registerDescriptor_eq store usable] at returned
    rw [← (Prod.mk.inj returned).1]
    exact ⟨usable, store.table.totalEncSize_withRow stated.toDataDescriptor⟩
  · rw [registerDescriptor, DataTable.ensure_unusable _ usable] at returned
    exact absurd (Prod.mk.inj returned).2.symm (Option.some_ne_none row)

/-- A descriptor that is refused adds nothing, unless trailing data made it contradict its own new row. -/
theorem totalEncSize_registerDescriptor_none (returned : store.registerDescriptor stated = (later, none))
    (clean : stated.usable lib = true → store.table.find stated.manifestDigest = none → stated.trailingData = []) :
    later.table.totalEncSize = store.table.totalEncSize := by
  by_cases usable : stated.usable lib = true
  · rw [registerDescriptor_eq store usable] at returned
    obtain ⟨rfl, refused⟩ := Prod.mk.inj returned
    rw [DataTable.totalEncSize_withRow]
    cases found : store.table.find stated.manifestDigest with
    | some row => rw [if_pos Option.isSome_some, Nat.add_zero]
    | none =>
      rw [rowFor, found, Option.getD_none, Option.filter_some, if_pos] at refused
      · exact absurd refused (Option.some_ne_none _)
      · rw [StatedDescriptor.states, Bool.and_eq_true, decide_eq_true_iff, decide_eq_true_iff]
        exact ⟨rfl, clean usable found⟩
  · rw [registerDescriptor, DataTable.ensure_unusable _ usable] at returned
    rw [← (Prod.mk.inj returned).1]

/-- The size of a data in the table, and zero for an unknown one. -/
def sizeOf (store : RecordDataStore lib) (id : Octets) : Nat :=
  ((store.table.find id).map fun row => row.descriptor.encSize).getD 0

def isKnown (store : RecordDataStore lib) (id : Octets) : Bool :=
  (store.table.find id).isSome

theorem removeOne_eq (store : RecordDataStore lib) (id : Octets) :
    (store.removeOne id).1.table.find = Function.update store.table.find id none ∧
      store.table.totalEncSize = store.sizeOf id + (store.removeOne id).1.table.totalEncSize := by
  unfold removeOne sizeOf
  cases found : store.table.find id with
  | none =>
    have same : Function.update store.table.find id none = store.table.find := by
      rw [← found, Function.update_eq_self]
    exact ⟨same.symm, (Nat.zero_add _).symm⟩
  | some row => exact ⟨DataTable.find_remove found, DataTable.totalEncSize_remove found⟩

/-- What the known data among the identifiers take leaves the sum when no known one is named twice. -/
theorem totalEncSize_remove {ids : List Octets} (distinct : (ids.filter store.isKnown).Nodup) :
    store.table.totalEncSize = (ids.map store.sizeOf).sum + (store.remove ids).1.table.totalEncSize := by
  induction ids generalizing store with
  | nil => exact (Nat.zero_add _).symm
  | cons id others ih =>
    obtain ⟨found, total⟩ := store.removeOne_eq id
    -- A data that is gone is not named again, so the others are what they were.
    have apart (other : Octets) (there : other ∈ others) :
        (store.removeOne id).1.table.find other = store.table.find other := by
      rw [found]
      by_cases same : other = id
      · rw [same, Function.update_self]
        cases known : store.table.find id with
        | none => rfl
        | some row =>
          have isKnown : store.isKnown id = true := by rw [isKnown, known, Option.isSome_some]
          rw [List.filter_cons_of_pos isKnown] at distinct
          rw [same] at there
          exact absurd (List.mem_filter.mpr ⟨there, isKnown⟩) (List.nodup_cons.mp distinct).1
      · rw [Function.update_of_ne same]
    have sizes : others.map (store.removeOne id).1.sizeOf = others.map store.sizeOf :=
      List.map_congr_left fun other there => by rw [sizeOf, sizeOf, apart other there]
    have still : others.filter (store.removeOne id).1.isKnown = others.filter store.isKnown :=
      List.filter_congr fun other there => by rw [isKnown, isKnown, apart other there]
    have remaining : (others.filter (store.removeOne id).1.isKnown).Nodup := by
      rw [still]
      exact distinct.sublist ((List.sublist_cons_self id others).filter _)
    have rest := ih remaining
    rw [sizes] at rest
    rw [total, rest, List.map_cons, List.sum_cons, Nat.add_assoc]
    rfl

end RecordDataStore

namespace ServerDataStore

variable {server : ServerDataStore lib} {quota : DataQuota} {within : Prop}

/-- The counters are what the tables say, and the sum that started within the quota still is. -/
structure Booked (quota : DataQuota) (within : Prop) (server : ServerDataStore lib) : Prop where
  sameQuota : server.quota = quota
  used : server.usedBytes = server.store.table.totalEncSize
  uploads : server.uploadsInProgress = server.activity.rows.length % uint64Limit
  small : server.store.table.totalEncSize < int64Limit
  bounded : quota.maxStorageBytes ≠ 0 → within → server.store.table.totalEncSize ≤ quota.maxStorageBytes

/-- A server that starts counts what it stores. -/
theorem booked_create {store : RecordDataStore lib} {activity : DataActivity}
    (created : create store activity quota = .ok server) :
    server.Booked quota (store.table.totalEncSize ≤ quota.maxStorageBytes) := by
  unfold create at created
  split at created
  · rename_i small
    rw [← Except.ok.inj created]
    exact ⟨rfl, rfl, rfl, small, fun _ within => within⟩
  · cases created

/-- The sizes that a drop adds up in 64 bits. -/
theorem freed_eq (store : RecordDataStore lib) (ids : List Octets) :
    freed store.table ids = (ids.map store.sizeOf).sum % uint64Limit := by
  have added (start : Nat) : ids.foldl (fun freed id => (freed + store.sizeOf id) % uint64Limit) (start % uint64Limit) =
      (start + (ids.map store.sizeOf).sum) % uint64Limit := by
    induction ids generalizing start with
    | nil => rfl
    | cons id others ih =>
      rw [List.foldl_cons, Nat.mod_add_mod, ih, List.map_cons, List.sum_cons, Nat.add_assoc]
  have whole := added 0
  rw [Nat.zero_add] at whole
  exact whole

/-- What an opened descriptor must meet: an unknown data that the quota admits has no trailing data and does not overflow
the sum. -/
def Countable (server : ServerDataStore lib) (stated : StatedDescriptor) : Prop :=
  stated.usable lib = true → server.store.table.find stated.manifestDigest = none →
    (server.quota.maxDataSize ≠ 0 → stated.encSize ≤ server.quota.maxDataSize) →
    (server.quota.maxStorageBytes ≠ 0 →
      (server.usedBytes + stated.encSize) % uint64Limit ≤ server.quota.maxStorageBytes) →
    stated.trailingData = [] ∧ server.store.table.totalEncSize + stated.encSize < int64Limit

/-- A registration adds the size of the data when it was not known, and a refused one adds nothing. -/
theorem register_cases (crypto : DataCrypto) (store : RecordDataStore lib) (stated : StatedDescriptor)
    (manifest : Option DataManifest)
    (clean : stated.usable lib = true → store.table.find stated.manifestDigest = none → stated.trailingData = []) :
    (∃ later row, register crypto store stated manifest = (later, some row) ∧ stated.usable lib = true ∧
      later.table.totalEncSize = store.table.totalEncSize +
        if (store.table.find stated.manifestDigest).isSome then 0 else stated.encSize) ∨
    ∃ later, register crypto store stated manifest = (later, none) ∧
      later.table.totalEncSize = store.table.totalEncSize := by
  cases manifest with
  | none =>
    show (∃ later row, store.registerDescriptor stated = (later, some row) ∧ _) ∨
      ∃ later, store.registerDescriptor stated = (later, none) ∧ _
    cases returned : store.registerDescriptor stated with
    | mk later row =>
      cases row with
      | some row => exact .inl ⟨later, row, rfl, RecordDataStore.totalEncSize_registerDescriptor returned⟩
      | none => exact .inr ⟨later, rfl, RecordDataStore.totalEncSize_registerDescriptor_none returned clean⟩
  | some manifest =>
    show (∃ later row, store.registerData crypto stated manifest = (later, some row) ∧ _) ∨
      ∃ later, store.registerData crypto stated manifest = (later, none) ∧ _
    unfold RecordDataStore.registerData
    split
    · cases returned : store.registerDescriptor stated with
      | mk later row =>
        cases row with
        | some row =>
          obtain ⟨usable, total⟩ := RecordDataStore.totalEncSize_registerDescriptor returned
          exact .inl ⟨_, row, rfl, usable, (DataTable.totalEncSize_setDigests _ _ _).trans total⟩
        | none => exact .inr ⟨later, rfl, RecordDataStore.totalEncSize_registerDescriptor_none returned clean⟩
    · exact .inr ⟨store, rfl, rfl⟩

section

variable (booked : server.Booked quota within) {ids : List Octets} {stated : StatedDescriptor}

include booked

/-- The store may change as long as the sum of the sizes stays. -/
theorem Booked.withStore {store : RecordDataStore lib}
    (same : store.table.totalEncSize = server.store.table.totalEncSize) :
    ({ server with store } : ServerDataStore lib).Booked quota within where
  sameQuota := booked.sameQuota
  used := booked.used.trans same.symm
  uploads := booked.uploads
  small := same ▸ booked.small
  bounded limited start := same ▸ booked.bounded limited start

theorem Booked.touch (id : Octets) (now : Int) : (server.touch id now).Booked quota within := by
  refine ⟨booked.sameQuota, booked.used, ?_, booked.small, booked.bounded⟩
  show (if server.activity.has id then server.uploadsInProgress else (server.uploadsInProgress + 1) % uint64Limit) =
    (server.activity.upsert id now).rows.length % uint64Limit
  rw [DataActivity.length_upsert, booked.uploads]
  split
  · rfl
  · rw [Nat.mod_add_mod]

theorem Booked.forgetActivity (id : Octets) : (server.forgetActivity id).Booked quota within := by
  unfold ServerDataStore.forgetActivity
  split
  · rename_i known
    refine ⟨booked.sameQuota, booked.used, ?_, booked.small, booked.bounded⟩
    rw [booked.uploads, ← DataActivity.length_delete known, Nat.mod_add_mod, Nat.add_assoc,
      Nat.add_sub_cancel' (by decide), Nat.add_mod_right]
  · exact booked

theorem Booked.forgetAll (ids : List Octets) :
    (ids.foldl ServerDataStore.forgetActivity server).Booked quota within ∧
      (ids.foldl ServerDataStore.forgetActivity server).store = server.store := by
  induction ids generalizing server with
  | nil => exact ⟨booked, rfl⟩
  | cons id others ih =>
    obtain ⟨rest, same⟩ := ih (booked.forgetActivity id)
    refine ⟨rest, same.trans ?_⟩
    unfold ServerDataStore.forgetActivity
    split <;> rfl

theorem Booked.chunkKept (id : Octets) (now : Int) : (server.chunkKept id now).1.Booked quota within := by
  unfold ServerDataStore.chunkKept
  dsimp only
  split
  · exact booked.forgetActivity id
  · exact booked.touch id now

/-- A drop that names no known data twice takes off what the dropped data took. -/
theorem Booked.drop (distinct : (ids.filter server.store.isKnown).Nodup) :
    (server.drop ids).1.Booked quota within := by
  have total := RecordDataStore.totalEncSize_remove distinct
  have small := booked.small
  have freed : freed server.store.table ids = (ids.map server.store.sizeOf).sum := by
    rw [freed_eq, Nat.mod_eq_of_lt]
    refine Nat.lt_of_lt_of_le (Nat.lt_of_le_of_lt ?_ small) (by decide)
    omega
  refine ⟨booked.sameQuota, ?_, booked.uploads, ?_, fun limited start => ?_⟩
  · show server.usedBytes - min (ServerDataStore.freed server.store.table ids) server.usedBytes =
      (server.store.remove ids).1.table.totalEncSize
    rw [freed, booked.used]
    omega
  · show (server.store.remove ids).1.table.totalEncSize < int64Limit
    omega
  · have bounded := booked.bounded limited start
    show (server.store.remove ids).1.table.totalEncSize ≤ quota.maxStorageBytes
    omega

/-- A registered data that was not known takes its size off the quota. -/
theorem Booked.registered {later : RecordDataStore lib}
    (fits : server.store.table.find stated.manifestDigest = none →
      server.store.table.totalEncSize + stated.encSize < int64Limit)
    (total : later.table.totalEncSize = server.store.table.totalEncSize +
      if (server.store.table.find stated.manifestDigest).isSome then 0 else stated.encSize)
    (room : server.store.table.find stated.manifestDigest = none → server.quota.maxStorageBytes ≠ 0 →
      (server.usedBytes + stated.encSize) % uint64Limit ≤ server.quota.maxStorageBytes) :
    ({ server with
        store := later
        usedBytes := if (server.store.table.find stated.manifestDigest).isSome then server.usedBytes
          else (server.usedBytes + stated.encSize) % uint64Limit } : ServerDataStore lib).Booked quota within := by
  cases found : server.store.table.find stated.manifestDigest with
  | some row =>
    rw [found, if_pos Option.isSome_some, Nat.add_zero] at total
    exact booked.withStore total
  | none =>
    rw [found, if_neg (by exact Bool.false_ne_true)] at total
    have fits := fits found
    have whole : (server.usedBytes + stated.encSize) % uint64Limit = later.table.totalEncSize := by
      rw [booked.used, total]
      exact Nat.mod_eq_of_lt (Nat.lt_of_lt_of_le fits (by decide))
    refine ⟨booked.sameQuota, whole, booked.uploads, total ▸ fits, fun limited _ => ?_⟩
    rw [← booked.sameQuota] at limited ⊢
    rw [← whole]
    exact room found limited

theorem Booked.openShared (crypto : DataCrypto) (countable : server.Countable stated) (manifest : Option DataManifest)
    (now : Int) : (server.openShared crypto stated manifest now).1.Booked quota within := by
  unfold ServerDataStore.openShared
  dsimp only
  split
  · exact booked
  rename_i small
  split
  · exact booked
  rename_i accepted
  have room : server.store.table.find stated.manifestDigest = none → server.quota.maxStorageBytes ≠ 0 →
      (server.usedBytes + stated.encSize) % uint64Limit ≤ server.quota.maxStorageBytes := by
    intro unknown limited
    rw [unknown] at accepted
    simpa [limited] using accepted
  have counts := fun usable unknown => countable usable unknown (by simpa using small) (room unknown)
  obtain ⟨later, row, registered, usable, total⟩ | ⟨later, registered, total⟩ :=
    register_cases crypto server.store stated manifest fun usable unknown => (counts usable unknown).1
  · have opened := booked.registered (fun unknown => (counts usable unknown).2) total room
    rw [registered]
    dsimp only
    split
    · exact opened.touch stated.manifestDigest now
    · exact opened
  · rw [registered]
    exact booked.withStore total

theorem Booked.beginChunk (id : Octets) (chunkNo : Nat) (now : Int) :
    (server.beginChunk id chunkNo now).1.Booked quota within := by
  unfold ServerDataStore.beginChunk
  split
  · exact booked
  split
  · exact booked
  have table := server.store.table_beginChunk id chunkNo
  split
  · rename_i store incoming begun
    rw [begun] at table
    exact (booked.withStore (congrArg DataTable.totalEncSize table)).touch id now
  · rename_i store begun
    rw [begun] at table
    exact booked.withStore (congrArg DataTable.totalEncSize table)

/-- A finished chunk changes no stated size. -/
theorem Booked.finishChunk (crypto : DataCrypto) (id : Octets) (incoming : IncomingChunk) (now : Int) :
    (server.finishChunk crypto id incoming now).1.Booked quota within := by
  unfold ServerDataStore.finishChunk
  have total := RecordDataStore.totalEncSize_finish crypto server.store incoming
  split
  · rename_i store finished kept
    rw [kept] at total
    exact (booked.withStore total).chunkKept id now
  · rename_i store finished kept
    rw [kept] at total
    exact booked.withStore total

/-- Each released data is taken off once. -/
theorem Booked.release (distinct : (ids.filter server.store.isKnown).Nodup) :
    (server.release ids).1.Booked quota within := by
  obtain ⟨forgotten, same⟩ := booked.forgetAll ids
  exact forgotten.drop (by rw [same]; exact distinct)

/-- The data that expire have a row each in the table of activity, so none is named twice. -/
theorem Booked.expireIncomplete (since : Int) : (server.expireIncomplete since).1.Booked quota within := by
  have untouched : (server.activity.untouched since).Nodup :=
    server.activity.distinct.sublist (List.filter_sublist.map _)
  exact (booked.forgetAll _).1.drop ((untouched.filter _).filter _)

end

end ServerDataStore

/-- A data server with the chunks that are on their way in. -/
structure DataService (lib : Securepath) where
  server : ServerDataStore lib
  incoming : List IncomingChunk := []

/-- The calls on a data server; a pull works on the chunk store itself, and a chunk on its way in may be dropped. -/
inductive DataCall
  | openUpload (stated : StatedDescriptor) (manifest : DataManifest) (now : Int)
  | openReplica (stated : StatedDescriptor) (now : Int)
  | beginChunk (id : Octets) (chunkNo : Nat) (now : Int)
  | appendPiece (place offset : Nat) (piece : Octets)
  | finishChunk (id : Octets) (place : Nat) (now : Int)
  | dropIncoming (place : Nat)
  | pullManifest (id : Octets) (manifest : DataManifest)
  | beginPull (id : Octets) (chunkNo : Nat)
  | finishPull (place : Nat)
  | replicaPulled (id : Octets) (now : Int)
  | release (ids : List Octets)
  | expireIncomplete (since : Int)
  | reconstruct
deriving DecidableEq, Repr

namespace DataService

/-- A chunk on its way in changes, and the store with it. -/
def withIncoming (service : DataService lib) (place : Nat)
    (use : IncomingChunk → RecordDataStore lib × IncomingChunk) : DataService lib :=
  match service.incoming[place]? with
  | some chunk =>
      let (store, chunk) := use chunk
      { server := { service.server with store }, incoming := service.incoming.set place chunk }
  | none => service

def step (crypto : DataCrypto) (service : DataService lib) : DataCall → DataService lib
  | .openUpload stated manifest now =>
      { service with server := (service.server.openUpload crypto stated manifest now).1 }
  | .openReplica stated now => { service with server := (service.server.openReplica crypto stated now).1 }
  | .beginChunk id chunkNo now =>
      match service.server.beginChunk id chunkNo now with
      | (server, .ok chunk) => { server, incoming := service.incoming ++ [chunk] }
      | (server, .error _) => { service with server }
  | .appendPiece place offset piece =>
      service.withIncoming place fun chunk =>
        let (store, chunk, _) := chunk.append service.server.store offset piece
        (store, chunk)
  | .finishChunk id place now =>
      match service.incoming[place]? with
      | some chunk =>
          let (server, chunk, _) := service.server.finishChunk crypto id chunk now
          { server, incoming := service.incoming.set place chunk }
      | none => service
  | .dropIncoming place => service.withIncoming place fun chunk => chunk.discard service.server.store
  | .pullManifest id manifest =>
      { service with
        server := { service.server with store := (service.server.store.setManifest crypto id manifest).1 } }
  | .beginPull id chunkNo =>
      match service.server.store.beginChunk id chunkNo with
      | (store, some chunk) =>
          { server := { service.server with store }, incoming := service.incoming ++ [chunk] }
      | (store, none) => { service with server := { service.server with store } }
  | .finishPull place =>
      service.withIncoming place fun chunk =>
        let (store, chunk, _) := chunk.finish crypto service.server.store
        (store, chunk)
  | .replicaPulled id now => { service with server := (service.server.replicaPulled id now).1 }
  | .release ids => { service with server := (service.server.release ids).1 }
  | .expireIncomplete since => { service with server := (service.server.expireIncomplete since).1 }
  | .reconstruct =>
      match ServerDataStore.create service.server.store service.server.activity service.server.quota with
      | .ok server => { service with server }
      | .error _ => service

/-- An opened data can be counted, and a release names no known data twice. -/
def Accountable (service : DataService lib) : DataCall → Prop
  | .openUpload stated _ _ => service.server.Countable stated
  | .openReplica stated _ => service.server.Countable stated
  | .release ids => (ids.filter service.server.store.isKnown).Nodup
  | _ => True

variable {service : DataService lib} {quota : DataQuota} {within : Prop}

theorem booked_withIncoming (booked : service.server.Booked quota within) (place : Nat)
    {use : IncomingChunk → RecordDataStore lib × IncomingChunk}
    (same : ∀ chunk, (use chunk).1.table.totalEncSize = service.server.store.table.totalEncSize) :
    (service.withIncoming place use).server.Booked quota within := by
  unfold withIncoming
  split
  · rename_i chunk _
    exact booked.withStore (same chunk)
  · exact booked

/-- Every call that meets the condition keeps the books. -/
theorem booked_step (crypto : DataCrypto) (call : DataCall) (booked : service.server.Booked quota within)
    (meets : service.Accountable call) : (service.step crypto call).server.Booked quota within := by
  cases call with
  | openUpload stated manifest now => exact booked.openShared crypto meets (some manifest) now
  | openReplica stated now => exact booked.openShared crypto meets none now
  | beginChunk id chunkNo now =>
    have begun := booked.beginChunk id chunkNo now
    dsimp only [step]
    split
    · rename_i server chunk opened
      rw [opened] at begun
      exact begun
    · rename_i server error refused
      rw [refused] at begun
      exact begun
  | appendPiece place offset piece =>
    exact booked_withIncoming booked place fun chunk =>
      congrArg DataTable.totalEncSize (RecordDataStore.table_append _ chunk offset piece)
  | finishChunk id place now =>
    dsimp only [step]
    split
    · exact booked.finishChunk crypto id _ now
    · exact booked
  | dropIncoming place =>
    exact booked_withIncoming booked place fun chunk =>
      congrArg DataTable.totalEncSize (RecordDataStore.table_discard _ chunk)
  | pullManifest id manifest => exact booked.withStore (RecordDataStore.totalEncSize_setManifest crypto _ id manifest)
  | beginPull id chunkNo =>
    have table := congrArg DataTable.totalEncSize (service.server.store.table_beginChunk id chunkNo)
    dsimp only [step]
    split
    · rename_i store chunk begun
      rw [begun] at table
      exact booked.withStore table
    · rename_i store begun
      rw [begun] at table
      exact booked.withStore table
  | finishPull place =>
    exact booked_withIncoming booked place fun chunk => RecordDataStore.totalEncSize_finish crypto _ chunk
  | replicaPulled id now => exact booked.chunkKept id now
  | release ids => exact booked.release meets
  | expireIncomplete since => exact booked.expireIncomplete since
  | reconstruct =>
    dsimp only [step]
    split
    · rename_i server created
      have fresh := ServerDataStore.booked_create created
      have same : server.store.table = service.server.store.table := by
        unfold ServerDataStore.create at created
        rw [if_pos booked.small] at created
        rw [← Except.ok.inj created]
      refine ⟨fresh.sameQuota.trans booked.sameQuota, fresh.used, fresh.uploads, fresh.small, ?_⟩
      rw [same]
      exact booked.bounded
    · exact booked

/-- In every run from an opened store in which no known data is released twice in one call, no opened data is unknown
and has trailing data, and the sum never overflows, the counters are what the tables say and the quota holds. -/
theorem counters_of_run {crypto : DataCrypto} {store : RecordDataStore lib} {activity : DataActivity}
    {server : ServerDataStore lib} {incoming : List IncomingChunk}
    (created : ServerDataStore.create store activity quota = .ok server)
    (run : Runs (step crypto) Accountable ⟨server, incoming⟩ service) :
    service.server.usedBytes = service.server.store.table.totalEncSize ∧
      service.server.uploadsInProgress = service.server.activity.rows.length % uint64Limit ∧
      (quota.maxStorageBytes ≠ 0 → store.table.totalEncSize ≤ quota.maxStorageBytes →
        service.server.store.table.totalEncSize ≤ quota.maxStorageBytes) := by
  have booked : service.server.Booked quota (store.table.totalEncSize ≤ quota.maxStorageBytes) :=
    run.keeps (ServerDataStore.booked_create created) fun _ call booked meets => booked_step crypto call booked meets
  exact ⟨booked.used, booked.uploads, booked.bounded⟩

section Samples

open Encoding

def sampleQuota : DataQuota := { maxStorageBytes := 64 }

def noActivity : DataActivity := {}

/-- A server on an empty database. -/
def sampleServer : ServerDataStore .sample where
  store := .new .sample
  activity := noActivity
  quota := sampleQuota
  usedBytes := 0
  uploadsInProgress := 0

def sampleDescriptor (name : Nat) : StatedDescriptor where
  encSize := 32
  chunkSize := 16
  manifestDigest := [octet name]

/-- A data is opened as a copy, and then another one. -/
def oneCopy : DataService .sample :=
  step .sample ⟨sampleServer, []⟩ (.openReplica (sampleDescriptor 1) 10)

def twoCopies : DataService .sample :=
  oneCopy.step .sample (.openReplica (sampleDescriptor 2) 20)

/-- One of the two data is released, and an unknown one with it. -/
def oneReleased : DataService .sample :=
  twoCopies.step .sample (.release [[octet 1], [octet 3]])

theorem counters_of_run_released :
    oneReleased.server.usedBytes = 32 ∧ oneReleased.server.uploadsInProgress = 1 := by
  have created : ServerDataStore.create (.new .sample) noActivity sampleQuota = .ok sampleServer := rfl
  have first : Runs (step .sample) Accountable ⟨sampleServer, []⟩ oneCopy :=
    (Runs.refl _).tail fun _ _ _ _ => by decide
  have second : Runs (step .sample) Accountable ⟨sampleServer, []⟩ twoCopies :=
    first.tail fun _ _ _ _ => by decide
  have distinct : ([[octet 1], [octet 3]].filter twoCopies.server.store.isKnown).Nodup := by decide
  have third : Runs (step .sample) Accountable ⟨sampleServer, []⟩ oneReleased := second.tail distinct
  obtain ⟨used, uploads, -⟩ := counters_of_run created third
  exact ⟨used.trans (by decide), uploads.trans (by decide)⟩

/-- The released data is named twice. -/
def releasedTwice : DataService .sample :=
  twoCopies.step .sample (.release [[octet 1], [octet 1]])

/-- The size of a data that is named twice goes twice, and the other known data is not counted any more. -/
theorem counters_not_of_release :
    ServerDataStore.create (.new .sample) noActivity sampleQuota = .ok sampleServer ∧
      releasedTwice.server.usedBytes = 0 ∧ releasedTwice.server.store.table.totalEncSize = 32 :=
  ⟨rfl, by decide, by decide⟩

end Samples

end DataService

end SpSync
