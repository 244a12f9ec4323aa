import SpSync.Construction.Core.RecordDataStore
import SpSync.Proof.Core.DataEncryptor
import SpSync.Proof.Core.DataTable

namespace SpSync

open Foundation

/-- The files of chunks that are written one after the other. -/
def fillDir (dir : ChunkDir) (chunks : List (Nat × Octets)) : ChunkDir :=
  chunks.foldl (fun dir chunk => Function.update dir chunk.1 (some chunk.2)) dir

theorem fillDir_append (dir : ChunkDir) (first second : List (Nat × Octets)) :
    fillDir dir (first ++ second) = fillDir (fillDir dir first) second :=
  List.foldl_append

/-- Chunks that are written in their order stand in the files by their place. -/
theorem fillDir_mapIdx (chunks : List Octets) :
    fillDir ChunkFiles.emptyDir (chunks.mapIdx Prod.mk) = fun chunkNo => chunks[chunkNo]? := by
  induction chunks using List.reverseRecOn with
  | nil => rfl
  | append_singleton chunks chunk ih =>
    rw [List.mapIdx_concat, fillDir_append, ih]
    funext chunkNo
    show Function.update (fun chunkNo => chunks[chunkNo]?) chunks.length (some chunk) chunkNo = _
    by_cases last : chunkNo = chunks.length
    · rw [last, Function.update_self, List.getElem?_concat_length]
    rw [Function.update_of_ne last]
    by_cases inside : chunkNo < chunks.length
    · rw [List.getElem?_append_left inside]
    · rw [List.getElem?_eq_none (Nat.le_of_not_lt inside), List.getElem?_eq_none]
      rw [List.length_append, List.length_singleton]
      omega

namespace ChunkFiles

variable {files : ChunkFiles} {stage : Nat} {dir : ChunkDir}

theorem stageChunks_eq (opened : files.stages stage = some dir) (chunks : List (Nat × Octets)) :
    DataWriter.stageChunks files stage chunks =
      { files with stages := Function.update files.stages stage (some (fillDir dir chunks)) } := by
  induction chunks generalizing files dir with
  | nil =>
    show files = { files with stages := Function.update files.stages stage (some dir) }
    rw [← opened, Function.update_eq_self]
  | cons chunk others ih =>
    have written : files.writeStaged stage chunk.1 chunk.2 =
        { files with
          stages := Function.update files.stages stage (some (Function.update dir chunk.1 (some chunk.2))) } := by
      unfold writeStaged
      rw [opened, Option.getD_some]
    show DataWriter.stageChunks (files.writeStaged stage chunk.1 chunk.2) stage others = _
    rw [written, ih (Function.update_self ..)]
    simp only [Function.update_idem]
    rfl

/-- The files with a new staging area that holds a directory. -/
def withStage (files : ChunkFiles) (dir : ChunkDir) : ChunkFiles :=
  { files with
    stages := Function.update files.stages (files.lastStage + 1) (some dir)
    lastStage := files.lastStage + 1 }

/-- The files after a staging area came and went. -/
def withoutStage (files : ChunkFiles) : ChunkFiles :=
  { files with
    stages := Function.update files.stages (files.lastStage + 1) none
    lastStage := files.lastStage + 1 }

variable (files dir)

theorem stageChunks_withStage (chunks : List (Nat × Octets)) :
    DataWriter.stageChunks (files.withStage dir) (files.lastStage + 1) chunks =
      files.withStage (fillDir dir chunks) := by
  rw [stageChunks_eq (Function.update_self ..)]
  simp only [withStage, Function.update_idem]

theorem discardStaging_withStage :
    (files.withStage dir).discardStaging (files.lastStage + 1) = files.withoutStage := by
  simp only [discardStaging, withStage, withoutStage, Function.update_idem]

/-- The staged chunks are those of the data when nothing was in their way. -/
theorem commitStaging_withStage (id : Octets) (replace : Bool) :
    (files.withStage dir).commitStaging (files.lastStage + 1) id replace =
      { files.withoutStage with
        dirs := if replace = true ∨ files.dirs id = none then Function.update files.dirs id (some dir)
          else files.dirs } := by
  have filled : (files.withStage dir).stages (files.lastStage + 1) = some dir := Function.update_self ..
  unfold commitStaging
  cases replace with
  | true =>
    have vacant : ((files.withStage dir).remove id).dirs id = none := Function.update_self ..
    rw [if_pos rfl]
    dsimp only
    rw [vacant, if_neg (by exact Bool.false_ne_true), if_pos (Or.inl rfl)]
    show ({ dirs := Function.update (Function.update files.dirs id none) id
              ((files.withStage dir).stages (files.lastStage + 1))
            stages := Function.update (files.withStage dir).stages (files.lastStage + 1) none
            lastStage := files.lastStage + 1 } : ChunkFiles) = _
    rw [filled]
    simp only [withStage, withoutStage, Function.update_idem]
  | false =>
    rw [if_neg Bool.false_ne_true]
    dsimp only
    rw [discardStaging_withStage, filled]
    show (if (files.dirs id).isSome = true then files.withoutStage
      else { files.withoutStage with dirs := Function.update files.dirs id (some dir) }) = _
    cases there : files.dirs id with
    | none => rw [if_neg (by exact Bool.false_ne_true), if_pos (Or.inr rfl)]
    | some kept =>
      rw [if_pos Option.isSome_some, if_neg (by rintro (impossible | impossible) <;> cases impossible)]
      rfl

end ChunkFiles

namespace HaveBitmap

variable {chunkCount : Nat}

theorem setAll_ofCount (chunkCount : Nat) : (ofCount chunkCount).setAll = List.replicate chunkCount true :=
  List.map_replicate

theorem test_replicate {chunkNo : Nat} (inside : chunkNo < chunkCount) :
    test (List.replicate chunkCount true) chunkNo = true := by
  rw [test, List.getD_eq_getElem?_getD, List.getElem?_replicate_of_lt inside, Option.getD_some]

theorem normalise_of_length {bits : HaveBitmap} (sized : bits.length = chunkCount) :
    normalise chunkCount bits = bits :=
  List.take_left' sized

end HaveBitmap

namespace RecordDataStore

variable {lib : Securepath} {store : RecordDataStore lib} {result : EncryptedDataResult}

/-- The row of a data that is held as a whole. -/
def heldRow (row : DataRow lib) (result : EncryptedDataResult) (state : RecordDataState) : DataRow lib :=
  { row with
    digests := some result.manifest.octets
    header := some result.header
    state
    haveBits := (HaveBitmap.ofCount (result.descriptor.chunkCount lib)).setAll.normalise
      (row.descriptor.chunkCount lib)
    sized := HaveBitmap.length_normalise _ _ }

theorem heldRow_haveBits {row : DataRow lib} (same : row.descriptor = result.descriptor) (state : RecordDataState) :
    (heldRow row result state).haveBits = List.replicate (result.descriptor.chunkCount lib) true := by
  show HaveBitmap.normalise (row.descriptor.chunkCount lib) _ = _
  rw [same, HaveBitmap.setAll_ofCount, HaveBitmap.normalise_of_length List.length_replicate]

/-- The row that the result has, or gets. -/
def rowFor (store : RecordDataStore lib) (descriptor : DataDescriptor) : DataRow lib :=
  (store.table.find descriptor.manifestDigest).getD (store.table.newRow descriptor)

variable (store)

/-- A usable descriptor makes its data known, and its row comes back when it states the descriptor of the row. -/
theorem registerDescriptor_eq {stated : StatedDescriptor} (usable : stated.usable lib = true) :
    store.registerDescriptor stated = ({ store with table := store.table.withRow stated.toDataDescriptor },
      (some (store.rowFor stated.toDataDescriptor)).filter fun row => stated.states row.descriptor) := by
  have found : (store.table.withRow stated.toDataDescriptor).find stated.manifestDigest =
      some (store.rowFor stated.toDataDescriptor) := by
    rw [DataTable.find_withRow, Function.update_self]
    rfl
  unfold registerDescriptor
  rw [store.table.ensure_eq usable]
  rw [← DataTable.findKey_of_find found]
  rfl

/-- Registering a whole data changes its row and its files, and nothing else. -/
theorem registerHeld_ok (stage : Nat) (state : RecordDataState) (replace : Bool)
    (usable : result.descriptor.usable lib = true) :
    ∃ later, store.registerHeld stage result state replace = .ok later ∧
      later.table.find = Function.update store.table.find result.descriptor.manifestDigest
        (some (heldRow (store.rowFor result.descriptor) result state)) ∧
      later.files = store.files.commitStaging stage result.descriptor.manifestDigest replace ∧
      later.drops = store.drops := by
  let id := result.descriptor.manifestDigest
  let localId := (store.rowFor result.descriptor).localId
  let bits := (HaveBitmap.ofCount (result.descriptor.chunkCount lib)).setAll
  let ensured := store.table.withRow result.descriptor
  refine ⟨{ store with
      table := (((ensured.setDigests localId result.manifest.octets).setHeader localId result.header).setHave localId
        bits).setState localId state
      files := store.files.commitStaging stage id replace }, ?_, ?_, rfl, rfl⟩
  · unfold registerHeld
    rw [store.table.ensure_eq usable]
    rfl
  · -- Each change of the row is one of the row that the change before has left.
    have found : ensured.find id = some (store.rowFor result.descriptor) := by
      rw [DataTable.find_withRow, Function.update_self]
      rfl
    have digested := (congrFun (DataTable.find_setDigests found result.manifest.octets) id).trans
      (Function.update_self ..)
    have headed := (congrFun (DataTable.find_setHeader digested result.header) id).trans (Function.update_self ..)
    refine (DataTable.find_setHave_setState headed bits state).trans ?_
    rw [DataTable.find_setHeader digested, DataTable.find_setDigests found, DataTable.find_withRow]
    simp only [Function.update_idem]
    exact Function.update_idem ..

/-- The store after a whole data was registered from a staging area of its own. -/
structure Registered (start later : RecordDataStore lib) (result : EncryptedDataResult) (chunks : List Octets)
    (state : RecordDataState) (replace : Bool) : Prop where
  table : later.table.find = Function.update start.table.find result.descriptor.manifestDigest
    (some (heldRow (start.rowFor result.descriptor) result state))
  files : later.files = { start.files.withoutStage with
    dirs := if replace = true ∨ start.files.dirs result.descriptor.manifestDigest = none then
        Function.update start.files.dirs result.descriptor.manifestDigest (some fun chunkNo => chunks[chunkNo]?)
      else start.files.dirs }
  drops : later.drops = start.drops

theorem registerHeld_withStage (chunks : List Octets) (state : RecordDataState) (replace : Bool)
    (usable : result.descriptor.usable lib = true) :
    ∃ later, ({ store with files := store.files.withStage fun chunkNo => chunks[chunkNo]? } :
        RecordDataStore lib).registerHeld (store.files.lastStage + 1) result state replace = .ok later ∧
      Registered store later result chunks state replace := by
  obtain ⟨later, registered, table, files, drops⟩ := registerHeld_ok
    { store with files := store.files.withStage fun chunkNo => chunks[chunkNo]? } (store.files.lastStage + 1) state
    replace usable
  exact ⟨later, registered, table, files.trans (store.files.commitStaging_withStage _ _ _), drops⟩

end RecordDataStore

namespace DataWriter

variable {lib : Securepath} {crypto : DataCrypto} {groupKey : EncryptionKey} {chunkSize : Nat} {nonce plain : Octets}
variable {start store : RecordDataStore lib} {writer : DataWriter}

/-- The writer has been given the plaintext, and all its chunks so far are in the staging area. -/
def Writing (crypto : DataCrypto) (groupKey : EncryptionKey) (chunkSize : Nat) (nonce : Octets)
    (start store : RecordDataStore lib) (writer : DataWriter) (plain : Octets) : Prop :=
  ∃ drained encryptor, writer = ⟨start.files.lastStage + 1, some encryptor⟩ ∧ encryptor.sink = [] ∧
    encryptor.Written crypto groupKey chunkSize nonce drained plain ∧
    store = { start with files := start.files.withStage (fillDir ChunkFiles.emptyDir drained) }

theorem writing_create (crypto : DataCrypto) (groupKey : EncryptionKey) (positive : chunkSize ≠ 0) (nonce : Octets)
    (start : RecordDataStore lib) :
    ∃ store writer, create crypto start groupKey chunkSize nonce = (store, .ok writer) ∧
      Writing crypto groupKey chunkSize nonce start store writer [] := by
  obtain ⟨encryptor, created, written, unsunk⟩ := DataEncryptor.written_create crypto groupKey nonce positive
  refine ⟨_, _, ?_, [], encryptor, rfl, unsunk, written, rfl⟩
  unfold create
  rw [created]
  rfl

theorem Writing.write (writing : Writing crypto groupKey chunkSize nonce start store writer plain) (piece : Octets) :
    ∃ later next, write crypto store writer piece = .ok (later, next) ∧
      Writing crypto groupKey chunkSize nonce start later next (plain ++ piece) := by
  obtain ⟨drained, encryptor, rfl, -, written, rfl⟩ := writing
  refine ⟨_, _, rfl, drained ++ (encryptor.write crypto piece).sink, _, rfl, rfl, (written.write piece).drain, ?_⟩
  rw [ChunkFiles.stageChunks_withStage, fillDir_append]

theorem Writing.writes (writing : Writing crypto groupKey chunkSize nonce start store writer plain)
    (pieces : List Octets) :
    ∃ later next, writePieces crypto store writer pieces = .ok (later, next) ∧
      Writing crypto groupKey chunkSize nonce start later next (plain ++ pieces.flatten) := by
  induction pieces generalizing store writer plain with
  | nil =>
    rw [List.flatten_nil, List.append_nil]
    exact ⟨store, writer, rfl, writing⟩
  | cons piece others ih =>
    obtain ⟨middle, next, wrote, continued⟩ := writing.write piece
    unfold writePieces
    rw [wrote, List.flatten_cons, ← List.append_assoc]
    exact ih continued

variable (crypto groupKey)

/-- A data that is written and finished is registered with all its chunks. -/
theorem copyRecordData_ok (positive : chunkSize ≠ 0) (nonce : Octets) (pieces : List Octets)
    (start : RecordDataStore lib)
    (usable : (dataResult crypto groupKey chunkSize nonce pieces.flatten).descriptor.usable lib = true) :
    ∃ later, copyRecordData crypto start groupKey chunkSize nonce pieces =
        (later, .ok (dataResult crypto groupKey chunkSize nonce pieces.flatten)) ∧
      start.Registered later (dataResult crypto groupKey chunkSize nonce pieces.flatten)
        (dataChunks crypto groupKey chunkSize nonce pieces.flatten) .uploadPending false := by
  obtain ⟨opened, writer, created, writing⟩ := writing_create crypto groupKey positive nonce start
  obtain ⟨filled, last, wrote, drained, encryptor, rfl, -, written, rfl⟩ := writing.writes pieces
  obtain ⟨sunk, result⟩ := written.finish
  rw [List.nil_append] at sunk result
  obtain ⟨later, registered, spec⟩ := start.registerHeld_withStage
    (dataChunks crypto groupKey chunkSize nonce pieces.flatten) .uploadPending false usable
  refine ⟨later, ?_, spec⟩
  unfold copyRecordData
  rw [created]
  dsimp only
  rw [wrote]
  dsimp only [finish]
  rw [ChunkFiles.stageChunks_withStage, ← fillDir_append, sunk, fillDir_mapIdx, result, registered]

/-- A data that cannot be registered leaves nothing behind. -/
theorem copyRecordData_error (nonce : Octets) (pieces : List Octets) (start : RecordDataStore lib)
    (fails : chunkSize = 0 ∨ (dataResult crypto groupKey chunkSize nonce pieces.flatten).descriptor.usable lib ≠ true) :
    ∃ error, copyRecordData crypto start groupKey chunkSize nonce pieces =
      ({ start with files := start.files.withoutStage }, .error error) := by
  by_cases zero : chunkSize = 0
  · refine ⟨⟨.invalidConfiguration, "record data chunk size must not be zero"⟩, ?_⟩
    unfold copyRecordData create
    rw [show DataEncryptor.create crypto groupKey chunkSize nonce = _ from dif_neg (by omega)]
    dsimp only
    rw [show start.files.beginStaging = (start.files.withStage ChunkFiles.emptyDir, start.files.lastStage + 1) from rfl]
    rw [ChunkFiles.discardStaging_withStage]
  · obtain ⟨opened, writer, created, writing⟩ := writing_create crypto groupKey zero nonce start
    obtain ⟨filled, last, wrote, drained, encryptor, rfl, -, written, rfl⟩ := writing.writes pieces
    obtain ⟨-, result⟩ := written.finish
    rw [List.nil_append] at result
    have refused := start.table.ensure_unusable (fails.resolve_left zero)
    refine ⟨⟨.invalidData, "record data descriptor out of bounds"⟩, ?_⟩
    unfold copyRecordData
    rw [created]
    dsimp only
    rw [wrote]
    dsimp only [finish]
    rw [ChunkFiles.stageChunks_withStage, result, RecordDataStore.registerHeld, refused]
    show (_, Except.error _) = _
    rw [ChunkFiles.discardStaging_withStage]

end DataWriter

namespace RecordDataStore

variable {lib : Securepath} {store : RecordDataStore lib}

/-- A content is adopted as the wanted data, or nothing of it stays. -/
theorem adoptContent_cases (crypto : DataCrypto) (store : RecordDataStore lib) (source : ContentSource)
    (groupKey : EncryptionKey) (wanted : StatedDescriptor) (wantedHeader : DataHeader) :
    (∃ later, (store.adoptContent crypto source groupKey wanted wantedHeader).1 = later ∧ wanted.chunkSize ≠ 0 ∧
      wanted.toDataDescriptor =
        (dataResult crypto groupKey wanted.chunkSize wantedHeader.nonce source.pieces.flatten).descriptor ∧
      Registered store later (dataResult crypto groupKey wanted.chunkSize wantedHeader.nonce source.pieces.flatten)
        (dataChunks crypto groupKey wanted.chunkSize wantedHeader.nonce source.pieces.flatten) .inSync true) ∨
    (store.adoptContent crypto source groupKey wanted wantedHeader).1 = store ∨
    (store.adoptContent crypto source groupKey wanted wantedHeader).1 =
      { store with files := store.files.withoutStage } := by
  unfold adoptContent
  split
  · rename_i sized
    obtain ⟨-, positive⟩ := Bool.and_eq_true_iff.mp sized
    have positive := of_decide_eq_true positive
    rw [show store.files.beginStaging = (store.files.withStage ChunkFiles.emptyDir, store.files.lastStage + 1) from rfl]
    dsimp only
    rw [ChunkFiles.discardStaging_withStage, encryptData_eq crypto groupKey positive]
    dsimp only
    rw [ChunkFiles.stageChunks_withStage, fillDir_mapIdx]
    split
    · split
      · rename_i same
        have stated := (Bool.and_eq_true_iff.mp (Bool.and_eq_true_iff.mp same).1).1
        by_cases usable : (dataResult crypto groupKey wanted.chunkSize wantedHeader.nonce
            source.pieces.flatten).descriptor.usable lib = true
        · obtain ⟨later, registered, spec⟩ := store.registerHeld_withStage
            (dataChunks crypto groupKey wanted.chunkSize wantedHeader.nonce source.pieces.flatten) .inSync true usable
          rw [registered]
          exact .inl ⟨later, rfl, positive, of_decide_eq_true stated, spec⟩
        · rw [registerHeld, store.table.ensure_unusable usable]
          exact .inr (.inr rfl)
      · exact .inr (.inr rfl)
    · exact .inr (.inr rfl)
  · exact .inr (.inl rfl)

end RecordDataStore

end SpSync
