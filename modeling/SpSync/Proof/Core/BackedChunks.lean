import SpSync.Proof.Core.RecordDataStore

namespace SpSync

open Foundation

variable {lib : Securepath} {crypto : DataCrypto} {manifests : Octets → Prop} {chunkNo : Nat} {digest : Octets}

namespace HaveBitmap

variable {bits : HaveBitmap} {chunkNo other : Nat}

theorem test_eq_true_iff : bits.test chunkNo = true ↔ bits[chunkNo]? = some true := by
  rw [test, List.getD_eq_getElem?_getD]
  cases bits[chunkNo]? with
  | none => exact ⟨fun held => absurd held Bool.false_ne_true, fun held => absurd held.symm (Option.some_ne_none true)⟩
  | some bit => exact ⟨fun held => congrArg some held, fun held => Option.some.inj held⟩

/-- A held chunk is one of the data. -/
theorem lt_of_test (held : bits.test chunkNo = true) : chunkNo < bits.length :=
  (List.getElem?_eq_some_iff.mp (test_eq_true_iff.mp held)).1

/-- A marked chunk is the only one that becomes held. -/
theorem test_mark (held : (bits.mark chunkNo).test other = true) : other = chunkNo ∨ bits.test other = true := by
  by_cases same : other = chunkNo
  · exact .inl same
  · rw [test_eq_true_iff, mark, List.getElem?_set_ne (Ne.symm same)] at held
    exact .inr (test_eq_true_iff.mpr held)

theorem length_mark : (bits.mark chunkNo).length = bits.length :=
  List.length_set

theorem length_clear : bits.clear.length = bits.length :=
  List.length_map _

theorem test_clear : bits.clear.test chunkNo ≠ true := by
  intro held
  rw [test_eq_true_iff, clear, List.getElem?_map] at held
  obtain ⟨_, _, impossible⟩ := Option.map_eq_some_iff.mp held
  exact Bool.false_ne_true impossible

/-- Every chunk of a complete data is held. -/
theorem test_of_complete (complete : bits.complete = true) (inside : chunkNo < bits.length) :
    bits.test chunkNo = true := by
  have all := List.count_eq_length.mp (of_decide_eq_true complete)
  rw [test_eq_true_iff, List.getElem?_eq_getElem inside, ← all _ (List.getElem_mem inside)]

theorem complete_replicate (chunkCount : Nat) : complete (List.replicate chunkCount true) = true :=
  decide_eq_true (by rw [List.count_replicate_self, List.length_replicate])

theorem complete_mark (complete : bits.complete = true) : (bits.mark chunkNo).complete = true := by
  have all := List.count_eq_length.mp (of_decide_eq_true complete)
  refine decide_eq_true (List.count_eq_length.mpr fun bit inside => ?_)
  obtain old | new := List.mem_or_eq_of_mem_set inside
  · exact all bit old
  · exact new.symm

theorem test_ofCount {chunkCount : Nat} : (ofCount chunkCount).test chunkNo ≠ true := by
  intro held
  obtain ⟨inside, impossible⟩ := List.getElem?_eq_some_iff.mp (test_eq_true_iff.mp held)
  exact Bool.false_ne_true ((List.getElem_replicate _).symm.trans impossible)

end HaveBitmap

/-- No two manifests of the run have one hash. -/
def CollisionFree (crypto : DataCrypto) (manifests : Octets → Prop) : Prop :=
  ∀ left right, manifests left → manifests right → crypto.hash left = crypto.hash right → left = right

/-- The digest that a manifest blob has for a chunk. -/
def digestAt (lib : Securepath) (digests : Octets) (chunkNo : Nat) : Option Octets :=
  let digest := (digests.drop (chunkNo * lib.hashDigestSize)).take lib.hashDigestSize
  if digest.length = lib.hashDigestSize then some digest else none

/-- The digests of a manifest stand one after the other. -/
theorem digestAt_flatten {digests : List Octets} (sized : ∀ digest ∈ digests, digest.length = lib.hashDigestSize)
    (there : digests[chunkNo]? = some digest) : digestAt lib digests.flatten chunkNo = some digest := by
  obtain ⟨inside, -⟩ := List.getElem?_eq_some_iff.mp there
  have placed := Blocks.Cut.getElem?_blocks sized [] inside
  rw [List.append_nil, there] at placed
  unfold digestAt
  rw [← Option.some.inj placed, if_pos (sized digest (List.mem_of_getElem? there))]

theorem chunkDigest_eq_some_iff {row : DataRow lib} :
    row.chunkDigest chunkNo = some digest ↔
      ∃ digests, row.digests = some digests ∧ digestAt lib digests chunkNo = some digest :=
  Option.bind_eq_some_iff

/-- What the row of a data says about its manifest and its files is so. -/
structure Backed (crypto : DataCrypto) (manifests : Octets → Prop) (id : Octets) (dir : Option ChunkDir)
    (row : DataRow lib) : Prop where
  named : ∀ digests, row.digests = some digests → crypto.hash digests = id ∧ manifests digests
  held : ∀ chunkNo, row.haveBits.test chunkNo = true → ∃ chunk, dir.bind (fun files => files chunkNo) = some chunk ∧
    chunk.length = row.descriptor.chunkEncSize lib chunkNo ∧ row.chunkDigest chunkNo = some (crypto.hash chunk)
  complete : row.state = .inSync → row.haveBits.complete = true

namespace Backed

variable {id : Octets} {dir : Option ChunkDir} {row next : DataRow lib}

/-- The header of a row is of no account. -/
theorem withHeader (backed : Backed crypto manifests id dir row) (header : Option DataHeader) :
    Backed crypto manifests id dir { row with header } :=
  ⟨backed.named, backed.held, backed.complete⟩

/-- A manifest that is kept again is the one that was kept. -/
theorem withDigests (backed : Backed crypto manifests id dir row) (free : CollisionFree crypto manifests)
    {digests : Octets} (among : manifests digests) (hashed : crypto.hash digests = id) :
    Backed crypto manifests id dir { row with digests := some digests } := by
  refine ⟨fun other same => ?_, fun chunkNo held => ?_, backed.complete⟩
  · rw [← Option.some.inj same]
    exact ⟨hashed, among⟩
  obtain ⟨chunk, filed, size, digest⟩ := backed.held chunkNo held
  obtain ⟨old, kept, place⟩ := chunkDigest_eq_some_iff.mp digest
  obtain ⟨oldHashed, oldAmong⟩ := backed.named old kept
  rw [free old digests oldAmong among (oldHashed.trans hashed.symm)] at place
  exact ⟨chunk, filed, size, chunkDigest_eq_some_iff.mpr ⟨digests, rfl, place⟩⟩

/-- A new row holds nothing. -/
theorem ofNew (table : DataTable lib) (descriptor : DataDescriptor) (id : Octets) (dir : Option ChunkDir) :
    Backed crypto manifests id dir (table.newRow descriptor) :=
  ⟨fun _ none => absurd none.symm (Option.some_ne_none _), fun _ held => absurd held HaveBitmap.test_ofCount,
    fun deferred => RecordDataState.noConfusion deferred⟩

end Backed

/-- The result describes the chunks. -/
structure Described (lib : Securepath) (crypto : DataCrypto) (result : EncryptedDataResult) (chunks : List Octets) :
    Prop where
  count : result.descriptor.chunkCount lib = chunks.length
  size : ∀ chunkNo chunk, chunks[chunkNo]? = some chunk → chunk.length = result.descriptor.chunkEncSize lib chunkNo
  digests : result.manifest.chunkDigests = chunks.map crypto.hash
  committed : crypto.hash result.manifest.octets = result.descriptor.manifestDigest

theorem described_dataResult (lawful : crypto.Lawful lib) (groupKey : EncryptionKey) {chunkSize : Nat}
    (positive : chunkSize ≠ 0) (nonce plain : Octets) :
    Described lib crypto (dataResult crypto groupKey chunkSize nonce plain)
      (dataChunks crypto groupKey chunkSize nonce plain) where
  count := chunkCount_dataResult lawful groupKey positive nonce plain
  size _ _ there := (chunkEncSize_dataResult lawful positive there).symm
  digests := rfl
  committed := rfl

/-- Every known data is backed by its files, and only known data have files. -/
structure Sound (crypto : DataCrypto) (manifests : Octets → Prop) (store : RecordDataStore lib) : Prop where
  rows : ∀ id row, store.table.find id = some row → Backed crypto manifests id (store.files.dirs id) row
  dirs : ∀ id, store.table.find id = none → store.files.dirs id = none

namespace Sound

variable {store later : RecordDataStore lib} {id : Octets} {row : DataRow lib} {manifest : DataManifest}
  {stated : StatedDescriptor}

section

variable (sound : Sound crypto manifests store)
include sound

/-- What happens to one data says all when nothing happens to the others. -/
theorem change {next : Option (DataRow lib)} {dir : Option ChunkDir}
    (table : later.table.find = Function.update store.table.find id next)
    (files : later.files.dirs = Function.update store.files.dirs id dir)
    (backed : ∀ row, next = some row → Backed crypto manifests id dir row) (gone : next = none → dir = none) :
    Sound crypto manifests later := by
  constructor
  · intro other row found
    rw [table] at found
    rw [files]
    by_cases same : other = id
    · rw [same, Function.update_self] at found ⊢
      exact backed row found
    · rw [Function.update_of_ne same] at found ⊢
      exact sound.rows other row found
  · intro other missing
    rw [table] at missing
    rw [files]
    by_cases same : other = id
    · rw [same, Function.update_self] at missing ⊢
      exact gone missing
    · rw [Function.update_of_ne same] at missing ⊢
      exact sound.dirs other missing

/-- The row of one data changes, its files do not. -/
theorem changeRow {next : DataRow lib} (table : later.table.find = Function.update store.table.find id (some next))
    (files : later.files.dirs = store.files.dirs) (backed : Backed crypto manifests id (store.files.dirs id) next) :
    Sound crypto manifests later := by
  have still : later.files.dirs = Function.update store.files.dirs id (store.files.dirs id) := by
    rw [files, Function.update_eq_self]
  refine sound.change table still (fun row same => ?_) fun none => absurd none (Option.some_ne_none _)
  rw [← Option.some.inj same]
  exact backed

/-- The files and the rows are what they were. -/
theorem same (table : later.table.find = store.table.find) (files : later.files.dirs = store.files.dirs) :
    Sound crypto manifests later := by
  constructor
  · rw [table, files]
    exact sound.rows
  · rw [table, files]
    exact sound.dirs

theorem rowFor (descriptor : DataDescriptor) :
    Backed crypto manifests descriptor.manifestDigest (store.files.dirs descriptor.manifestDigest)
      (store.rowFor descriptor) := by
  unfold RecordDataStore.rowFor
  cases found : store.table.find descriptor.manifestDigest with
  | none => exact .ofNew store.table descriptor _ _
  | some row => exact sound.rows _ row found

/-- A new row holds no chunk. -/
theorem registerDescriptor (stated : StatedDescriptor) :
    Sound crypto manifests (store.registerDescriptor stated).1 := by
  by_cases usable : stated.usable lib = true
  · rw [store.registerDescriptor_eq usable]
    exact sound.changeRow (store.table.find_withRow stated.toDataDescriptor) rfl (sound.rowFor stated.toDataDescriptor)
  · rw [RecordDataStore.registerDescriptor, DataTable.ensure_unusable _ usable]
    exact sound

end

/-- The row that comes back from a registration is the known one of its data. -/
theorem registered_row (returned : store.registerDescriptor stated = (later, some row)) :
    later.table.find stated.manifestDigest = some row ∧ row.descriptor = stated.toDataDescriptor := by
  by_cases usable : stated.usable lib = true
  · rw [store.registerDescriptor_eq usable] at returned
    obtain ⟨rfl, same⟩ := Prod.mk.inj returned
    obtain ⟨found, states⟩ := Option.filter_eq_some_iff.mp same
    obtain ⟨stated, -⟩ := Bool.and_eq_true_iff.mp states
    refine ⟨?_, (of_decide_eq_true stated).symm⟩
    rw [DataTable.find_withRow, Function.update_self]
    exact found
  · rw [RecordDataStore.registerDescriptor, DataTable.ensure_unusable _ usable] at returned
    exact absurd (Prod.mk.inj returned).2.symm (Option.some_ne_none row)

theorem hash_of_matches {descriptor : DataDescriptor}
    (committed : manifest.matchesDescriptor lib crypto descriptor = true) :
    crypto.hash manifest.octets = descriptor.manifestDigest :=
  of_decide_eq_true (Bool.and_eq_true_iff.mp committed).2

section

variable (sound : Sound crypto manifests store) (free : CollisionFree crypto manifests)
include sound free

theorem setDigests (found : store.table.find id = some row) {digests : Octets} (among : manifests digests)
    (hashed : crypto.hash digests = id) :
    Sound crypto manifests { store with table := store.table.setDigests row.localId digests } :=
  sound.changeRow (DataTable.find_setDigests found digests) rfl
    ((sound.rows id row found).withDigests free among hashed)

theorem registerData (stated : StatedDescriptor)
    (among : manifest.matchesDescriptor lib crypto stated.toDataDescriptor = true → manifests manifest.octets) :
    Sound crypto manifests (store.registerData crypto stated manifest).1 := by
  unfold RecordDataStore.registerData
  split
  · rename_i committed
    have first := sound.registerDescriptor stated
    cases returned : store.registerDescriptor stated with
    | mk middle row =>
      rw [returned] at first
      cases row with
      | none => exact first
      | some row => exact first.setDigests free (registered_row returned).1 (among committed) (hash_of_matches committed)
  · exact sound

theorem setManifest
    (among : ∀ row, store.table.find id = some row →
      manifest.matchesDescriptor lib crypto row.descriptor = true → manifests manifest.octets) :
    Sound crypto manifests (store.setManifest crypto id manifest).1 := by
  unfold RecordDataStore.setManifest
  split
  · rename_i row found
    split
    · rename_i committed
      exact sound.setDigests free found (among row found committed)
        ((hash_of_matches committed).trans (DataTable.dataId_of_find found))
    · exact sound
  · exact sound

end

theorem openData (sound : Sound crypto manifests store) {groupKeys : List EncryptionKey} {header : DataHeader}
    {handle : Option StoredRecordData} (opened : store.openData crypto groupKeys stated header = .ok (later, handle)) :
    Sound crypto manifests later := by
  have first := sound.registerDescriptor stated
  unfold RecordDataStore.openData at opened
  split at opened
  · cases opened
  cases returned : store.registerDescriptor stated with
  | mk middle row =>
    rw [returned] at first opened
    cases row with
    | none =>
      rw [← (Prod.mk.inj (Except.ok.inj opened)).1]
      exact first
    | some row =>
      obtain ⟨found, -⟩ := registered_row returned
      rw [← (Prod.mk.inj (Except.ok.inj opened)).1]
      by_cases known : row.header.isSome = true
      · exact first.same (by rw [if_pos known]) rfl
      · refine first.changeRow ?_ rfl ((first.rows _ row found).withHeader (some header))
        rw [if_neg known]
        exact DataTable.find_setHeader found header

theorem withBits_haveBits {bits : HaveBitmap} (sized : bits.length = row.haveBits.length) :
    (DataTable.withBits row bits).haveBits = bits :=
  HaveBitmap.normalise_of_length (sized.trans row.sized)

section

variable (sound : Sound crypto manifests store) {state : RecordDataState}

include sound

/-- The chunks of a data go, and no bit of its row is set any more. -/
theorem dropChunks (found : store.table.find id = some row) (emptied : state ≠ .inSync) :
    Sound crypto manifests (store.dropChunks row state) := by
  have files : (store.dropChunks row state).files.dirs = Function.update store.files.dirs id none := by
    rw [← DataTable.dataId_of_find found]
    rfl
  refine sound.change (DataTable.find_setHave_setState found _ _) files (fun next same => ?_)
    fun none => absurd none (Option.some_ne_none _)
  rw [← Option.some.inj same]
  refine ⟨(sound.rows id row found).named, fun chunkNo held => ?_, fun inSync => absurd inSync emptied⟩
  have bits : (DataTable.withBits row row.haveBits.clear).haveBits = row.haveBits.clear :=
    withBits_haveBits HaveBitmap.length_clear
  rw [bits] at held
  exact absurd held HaveBitmap.test_clear

theorem evict (id : Octets) : Sound crypto manifests (store.evict id).1 := by
  unfold RecordDataStore.evict
  split
  · rename_i row found
    split
    · exact sound
    refine sound.dropChunks found ?_
    split
    · exact RecordDataState.noConfusion
    · rename_i notHeld
      intro inSync
      exact notHeld (Bool.or_eq_true_iff.mpr (.inl (decide_eq_true inSync)))
  · exact sound

theorem prune (id : Octets) : Sound crypto manifests (store.prune id).1 := by
  unfold RecordDataStore.prune
  split
  · rename_i row found
    exact sound.dropChunks found RecordDataState.noConfusion
  · exact sound

theorem removeOne (id : Octets) : Sound crypto manifests (store.removeOne id).1 := by
  unfold RecordDataStore.removeOne
  split
  · rename_i row found
    exact sound.change (DataTable.find_remove found) rfl (fun _ gone => absurd gone.symm (Option.some_ne_none _))
      fun _ => rfl
  · exact sound

/-- Removal leaves the other rows backed. -/
theorem remove (ids : List Octets) : Sound crypto manifests (store.remove ids).1 := by
  induction ids generalizing store with
  | nil => exact sound
  | cons id others ih => exact ih (sound.removeOne id)

/-- A whole data that is registered is backed by its chunks, or by those that were held of it already. -/
theorem registered (free : CollisionFree crypto manifests) (lawful : crypto.Lawful lib) {result : EncryptedDataResult}
    {chunks : List Octets} {replace : Bool} (described : Described lib crypto result chunks)
    (among : manifests result.manifest.octets)
    (known : ∀ row, store.table.find result.descriptor.manifestDigest = some row →
      row.descriptor = result.descriptor ∧
        (replace = true ∨ store.files.dirs result.descriptor.manifestDigest = none ∨ row.haveBits.complete = true))
    (registered : store.Registered later result chunks state replace) : Sound crypto manifests later := by
  have descriptor : (store.rowFor result.descriptor).descriptor = result.descriptor := by
    unfold RecordDataStore.rowFor
    cases found : store.table.find result.descriptor.manifestDigest with
    | none => rfl
    | some row => exact (known row found).1
  have bits := RecordDataStore.heldRow_haveBits descriptor state
  have complete : (RecordDataStore.heldRow (store.rowFor result.descriptor) result state).haveBits.complete = true := by
    rw [bits]
    exact HaveBitmap.complete_replicate _
  have dirs := congrArg ChunkFiles.dirs registered.files
  by_cases vacant : replace = true ∨ store.files.dirs result.descriptor.manifestDigest = none
  · -- The staged chunks are the files of the data now.
    rw [if_pos vacant] at dirs
    refine sound.change registered.table dirs (fun row same => ?_) fun none => absurd none (Option.some_ne_none _)
    rw [← Option.some.inj same]
    refine ⟨fun digests kept => ?_, fun chunkNo held => ?_, fun _ => complete⟩
    · rw [← Option.some.inj kept]
      exact ⟨described.committed, among⟩
    have inside := HaveBitmap.lt_of_test held
    rw [bits, List.length_replicate, described.count] at inside
    have there := List.getElem?_eq_getElem inside
    refine ⟨chunks[chunkNo], there, ?_, chunkDigest_eq_some_iff.mpr ⟨_, rfl, ?_⟩⟩
    · exact (described.size chunkNo _ there).trans
        (congrArg (fun descriptor => descriptor.chunkEncSize lib chunkNo) descriptor.symm)
    refine digestAt_flatten ?_ ?_
    · rw [described.digests]
      intro digest inside
      obtain ⟨chunk, -, rfl⟩ := List.mem_map.mp inside
      exact lawful.hashLength chunk
    · rw [described.digests, List.getElem?_map, there]
      rfl
  · -- The files of the data stay, and all of them were there.
    rw [if_neg vacant] at dirs
    cases found : store.table.find result.descriptor.manifestDigest with
    | none => exact absurd (.inr (sound.dirs _ found)) vacant
    | some row =>
      have whole := ((known row found).2.resolve_left fun replaced => vacant (.inl replaced)).resolve_left
        fun none => vacant (.inr none)
      have same : store.rowFor result.descriptor = row := by
        rw [RecordDataStore.rowFor, found, Option.getD_some]
      have backed := (sound.rows _ row found).withDigests free among described.committed
      refine sound.changeRow registered.table dirs ⟨backed.named, fun chunkNo held => ?_, fun _ => complete⟩
      have inside := HaveBitmap.lt_of_test held
      rw [bits, List.length_replicate, ← (known row found).1, ← row.sized] at inside
      rw [same]
      exact backed.held chunkNo (HaveBitmap.test_of_complete whole inside)

end

/-- The row after a chunk of it became a held one. -/
theorem find_markHeld (store : RecordDataStore lib) (found : store.table.find id = some row) (chunkNo : Nat) :
    ∃ next, (store.markHeld row chunkNo).table.find = Function.update store.table.find id (some next) ∧
      next.digests = row.digests ∧ next.descriptor = row.descriptor ∧ next.haveBits = row.haveBits.mark chunkNo ∧
      (next.state = .inSync → row.state = .inSync ∨ next.haveBits.complete = true) := by
  have bits : (DataTable.withBits row (row.haveBits.mark chunkNo)).haveBits = row.haveBits.mark chunkNo :=
    withBits_haveBits HaveBitmap.length_mark
  unfold RecordDataStore.markHeld
  dsimp only
  split
  · rename_i last
    refine ⟨_, DataTable.find_setHave_setState found _ _, rfl, rfl, bits, fun _ => .inr ?_⟩
    rw [bits]
    exact (Bool.and_eq_true_iff.mp last).1
  · exact ⟨_, DataTable.find_setHave found _, rfl, rfl, bits, fun inSync => .inl inSync⟩

theorem files_markHeld (store : RecordDataStore lib) (row : DataRow lib) (chunkNo : Nat) :
    (store.markHeld row chunkNo).files = store.files := by
  unfold RecordDataStore.markHeld
  dsimp only
  split <;> rfl

/-- A chunk that the manifest names becomes a held one. -/
theorem adoptChunk (sound : Sound crypto manifests store) {chunkNo stage : Nat} {octets : Octets}
    (staged : store.files.staged stage chunkNo = some octets)
    (verified : ∀ row, store.table.find id = some row → chunkNo < row.descriptor.chunkCount lib →
      octets.length = row.descriptor.chunkEncSize lib chunkNo ∧ row.chunkDigest chunkNo = some (crypto.hash octets)) :
    Sound crypto manifests (store.adoptChunk id chunkNo stage).1 := by
  unfold RecordDataStore.adoptChunk
  split
  · rename_i row found
    split
    · exact sound.same rfl rfl
    have backed := sound.rows id row found
    obtain ⟨next, table, digests, descriptor, bits, state⟩ :=
      find_markHeld { store with files := store.files.adoptStagedChunk stage chunkNo id } found chunkNo
    have files := congrArg ChunkFiles.dirs
      (files_markHeld { store with files := store.files.adoptStagedChunk stage chunkNo id } row chunkNo)
    refine sound.change table files (fun other same => ?_) fun none => absurd none (Option.some_ne_none _)
    rw [← Option.some.inj same]
    have digest (place : Nat) : next.chunkDigest place = row.chunkDigest place := by
      rw [DataRow.chunkDigest, DataRow.chunkDigest, digests]
    refine ⟨?_, fun place held => ?_, fun inSync => ?_⟩
    · rw [digests]
      exact backed.named
    · rw [bits] at held
      rw [digest, descriptor]
      by_cases new : place = chunkNo
      · have inside := HaveBitmap.lt_of_test held
        rw [HaveBitmap.length_mark, row.sized, new] at inside
        rw [new]
        refine ⟨octets, ?_, verified row found inside⟩
        rw [Option.bind_some, Function.update_self, staged]
      · obtain ⟨chunk, filed, size, named⟩ := backed.held place ((HaveBitmap.test_mark held).resolve_left new)
        refine ⟨chunk, ?_, size, named⟩
        rw [Option.bind_some, Function.update_of_ne new]
        obtain ⟨dir, there, file⟩ := Option.bind_eq_some_iff.mp filed
        rw [there, Option.getD_some, file]
    · obtain old | all := state inSync
      · rw [bits]
        exact HaveBitmap.complete_mark (backed.complete old)
      · exact all
  · exact sound.same rfl rfl

end Sound

end SpSync
