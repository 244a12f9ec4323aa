/-
This file holds the store of record data: the data table, the chunk files and the handles that read and write them.
-/

import Mathlib.Logic.Function.Basic
import SpSync.Construction.Core.DataEncryptor

namespace SpSync

abbrev ChunkDir := Nat → Option Octets

/-- The directories of the data and the staging areas. -/
structure ChunkFiles where
  dirs : Octets → Option ChunkDir := fun _ => none
  stages : Nat → Option ChunkDir := fun _ => none
  /-- The name of a staging area is drawn at random and never drawn again. -/
  lastStage : Nat := 0

namespace ChunkFiles

def emptyDir : ChunkDir := fun _ => none

def read (files : ChunkFiles) (id : Octets) (chunkNo : Nat) : Option Octets :=
  (files.dirs id).bind fun dir => dir chunkNo

def size (files : ChunkFiles) (id : Octets) (chunkNo : Nat) : Option Nat :=
  (files.read id chunkNo).map List.length

def removeChunk (files : ChunkFiles) (id : Octets) (chunkNo : Nat) : ChunkFiles :=
  let kept := (files.dirs id).map fun dir => Function.update dir chunkNo none
  { files with dirs := Function.update files.dirs id kept }

def remove (files : ChunkFiles) (id : Octets) : ChunkFiles :=
  { files with dirs := Function.update files.dirs id none }

def beginStaging (files : ChunkFiles) : ChunkFiles × Nat :=
  ({ files with
      stages := Function.update files.stages (files.lastStage + 1) (some emptyDir)
      lastStage := files.lastStage + 1 }, files.lastStage + 1)

def writeStaged (files : ChunkFiles) (stage chunkNo : Nat) (encrypted : Octets) : ChunkFiles :=
  let dir := (files.stages stage).getD emptyDir
  { files with stages := Function.update files.stages stage (some (Function.update dir chunkNo (some encrypted))) }

def staged (files : ChunkFiles) (stage chunkNo : Nat) : Option Octets :=
  (files.stages stage).bind fun dir => dir chunkNo

def appendStaged (files : ChunkFiles) (stage chunkNo : Nat) (piece : Octets) : ChunkFiles :=
  files.writeStaged stage chunkNo ((files.staged stage chunkNo).getD [] ++ piece)

def stagedSize (files : ChunkFiles) (stage chunkNo : Nat) : Option Nat :=
  (files.staged stage chunkNo).map List.length

def discardStaging (files : ChunkFiles) (stage : Nat) : ChunkFiles :=
  { files with stages := Function.update files.stages stage none }

def adoptStagedChunk (files : ChunkFiles) (stage chunkNo : Nat) (id : Octets) : ChunkFiles :=
  let target := (files.dirs id).getD emptyDir
  { files.discardStaging stage with
    dirs := Function.update files.dirs id (some (Function.update target chunkNo (files.staged stage chunkNo))) }

def commitStaging (files : ChunkFiles) (stage : Nat) (id : Octets) (replace : Bool) : ChunkFiles :=
  let files := if replace then files.remove id else files
  if (files.dirs id).isSome then files.discardStaging stage
  else { files.discardStaging stage with dirs := Function.update files.dirs id (files.stages stage) }

end ChunkFiles

/-- A descriptor as it was received, with what follows its known fields. -/
structure StatedDescriptor extends DataDescriptor where
  trailingData : Octets := []
deriving DecidableEq, Repr

/-- A known data keeps no trailing data, so a descriptor with some is never the known one. -/
def StatedDescriptor.states (stated : StatedDescriptor) (descriptor : DataDescriptor) : Bool :=
  stated.toDataDescriptor = descriptor && stated.trailingData = []

namespace DataRow

variable {lib : Securepath}

def manifest (row : DataRow lib) : Option DataManifest :=
  row.digests.bind (DataManifest.fromOctets lib)

def chunkDigest (row : DataRow lib) (chunkNo : Nat) : Option Octets :=
  row.digests.bind fun digests =>
    let digest := (digests.drop (chunkNo * lib.hashDigestSize)).take lib.hashDigestSize
    if digest.length = lib.hashDigestSize then some digest else none

end DataRow

/-- What the store, its handles and its writers share; the drops count the times held chunks went. -/
structure RecordDataStore (lib : Securepath) where
  table : DataTable lib := {}
  files : ChunkFiles := {}
  drops : Nat := 0

namespace RecordDataStore

def new (lib : Securepath) : RecordDataStore lib := { table := .empty lib }

variable {lib : Securepath}

/-- A chunk goes to be fetched again; of a data that only this store has there is nothing to fetch. -/
def dropChunk (store : RecordDataStore lib) (row : DataRow lib) (chunkNo : Nat) : RecordDataStore lib :=
  let store := { store with drops := store.drops + 1 }
  if row.state = .uploadPending then { store with table := store.table.setState row.localId .invalid }
  else
    { store with
      files := store.files.removeChunk row.dataId chunkNo
      table := (store.table.setHave row.localId (row.haveBits.set chunkNo false)).setState row.localId
        .downloadPending }

def dropIfLost (store : RecordDataStore lib) (row : DataRow lib) (chunkNo : Nat) : RecordDataStore lib :=
  match store.files.size row.dataId chunkNo with
  | none => store.dropChunk row chunkNo
  | some onDisk =>
      if onDisk < row.descriptor.chunkEncSize lib chunkNo then store.dropChunk row chunkNo else store

def readChunk (store : RecordDataStore lib) (id : Octets) (chunkNo : Nat) : RecordDataStore lib × Option Octets :=
  match store.table.find id with
  | some row =>
      if row.haveBits.test chunkNo then
        match store.files.read id chunkNo with
        | some encrypted => (store, some encrypted)
        | none => (store.dropIfLost row chunkNo, none)
      else (store, none)
  | none => (store, none)

def chunkFailed (crypto : DataCrypto) (store : RecordDataStore lib) (id : Octets) (chunkNo : Nat)
    (encrypted : Octets) : RecordDataStore lib :=
  match store.table.find id with
  | some row =>
      match row.manifest with
      | some manifest =>
          if manifest.verifyChunk crypto chunkNo encrypted then
            { store with table := store.table.setState row.localId .invalid }
          else store.dropChunk row chunkNo
      | none => { store with table := store.table.setState row.localId .invalid }
  | none => store

/-- The staged chunks of a whole data become the data; the row comes first, the bits after the files. -/
def registerHeld (store : RecordDataStore lib) (stage : Nat) (result : EncryptedDataResult)
    (state : RecordDataState) (replace : Bool) : Except Error (RecordDataStore lib) := do
  let (table, localId) ← store.table.ensure result.descriptor
  let table := (table.setDigests localId result.manifest.octets).setHeader localId result.header
  let files := store.files.commitStaging stage result.descriptor.manifestDigest replace
  let bits := (HaveBitmap.ofCount (result.descriptor.chunkCount lib)).setAll
  return { store with table := (table.setHave localId bits).setState localId state, files }

def markHeld (store : RecordDataStore lib) (row : DataRow lib) (chunkNo : Nat) : RecordDataStore lib :=
  let bits := row.haveBits.mark chunkNo
  let table := store.table.setHave row.localId bits
  if bits.complete && row.state ≠ .uploadPending then { store with table := table.setState row.localId .inSync }
  else { store with table }

/-- The staged file of a verified chunk becomes the chunk, unless the data went or has it already. -/
def adoptChunk (store : RecordDataStore lib) (id : Octets) (chunkNo stage : Nat) : RecordDataStore lib × Bool :=
  match store.table.find id with
  | some row =>
      if row.haveBits.test chunkNo then ({ store with files := store.files.discardStaging stage }, true)
      else
        ({ store with files := store.files.adoptStagedChunk stage chunkNo id }.markHeld row chunkNo, true)
  | none => ({ store with files := store.files.discardStaging stage }, false)

def dropChunks (store : RecordDataStore lib) (row : DataRow lib) (state : RecordDataState) : RecordDataStore lib :=
  { table := (store.table.setHave row.localId row.haveBits.clear).setState row.localId state
    files := store.files.remove row.dataId
    drops := store.drops + 1 }

def evict (store : RecordDataStore lib) (id : Octets) : RecordDataStore lib × Bool :=
  match store.table.find id with
  | some row =>
      if row.state = .uploadPending then (store, false)
      else
        (store.dropChunks row (if row.state = .inSync || row.state = .removed then .removed else row.state), true)
  | none => (store, false)

def prune (store : RecordDataStore lib) (id : Octets) : RecordDataStore lib × Bool :=
  match store.table.find id with
  | some row => (store.dropChunks row .pruned, true)
  | none => (store, false)

def setState (store : RecordDataStore lib) (id : Octets) (state : RecordDataState) : RecordDataStore lib :=
  match store.table.find id with
  | some row => { store with table := store.table.setState row.localId state }
  | none => store

def removeOne (store : RecordDataStore lib) (id : Octets) : RecordDataStore lib × Bool :=
  match store.table.find id with
  | some row =>
      ({ table := store.table.remove row.localId, files := store.files.remove id, drops := store.drops + 1 }, true)
  | none => (store, false)

def remove : RecordDataStore lib → List Octets → RecordDataStore lib × Nat
  | store, [] => (store, 0)
  | store, id :: others =>
      let (store, known) := store.removeOne id
      let (store, removed) := remove store others
      (store, if known then removed + 1 else removed)

def setManifest (crypto : DataCrypto) (store : RecordDataStore lib) (id : Octets) (manifest : DataManifest) :
    RecordDataStore lib × Bool :=
  match store.table.find id with
  | some row =>
      if manifest.matchesDescriptor lib crypto row.descriptor then
        ({ store with table := store.table.setDigests row.localId manifest.octets }, true)
      else (store, false)
  | none => (store, false)

def registerDescriptor (store : RecordDataStore lib) (stated : StatedDescriptor) :
    RecordDataStore lib × Option (DataRow lib) :=
  match store.table.ensure stated.toDataDescriptor with
  | .ok (table, localId) =>
      ({ store with table }, (table.findKey localId).filter fun row => stated.states row.descriptor)
  | .error _ => (store, none)

def registerData (crypto : DataCrypto) (store : RecordDataStore lib) (stated : StatedDescriptor)
    (manifest : DataManifest) : RecordDataStore lib × Option (DataRow lib) :=
  if manifest.matchesDescriptor lib crypto stated.toDataDescriptor then
    match store.registerDescriptor stated with
    | (store, some row) =>
        ({ store with table := store.table.setDigests row.localId manifest.octets }, some row)
    | (store, none) => (store, none)
  else (store, none)

def hasManifest (store : RecordDataStore lib) (id : Octets) : Bool :=
  match store.table.find id with
  | some row => row.digests.isSome
  | none => false

end RecordDataStore

structure DataWriter where
  stage : Nat
  encryptor : Option DataEncryptor

namespace DataWriter

variable {lib : Securepath}

def create (crypto : DataCrypto) (store : RecordDataStore lib) (groupKey : EncryptionKey) (chunkSize : Nat)
    (nonce : Octets) : RecordDataStore lib × Except Error DataWriter :=
  let (files, stage) := store.files.beginStaging
  match DataEncryptor.create crypto groupKey chunkSize nonce with
  | .ok encryptor => ({ store with files }, .ok ⟨stage, some encryptor⟩)
  | .error error => ({ store with files := files.discardStaging stage }, .error error)

def stageChunks (files : ChunkFiles) (stage : Nat) (chunks : List (Nat × Octets)) : ChunkFiles :=
  chunks.foldl (fun files (chunkNo, encrypted) => files.writeStaged stage chunkNo encrypted) files

def alreadyFinished : Error := ⟨.invalidState, "record data writer already finished"⟩

def write (crypto : DataCrypto) (store : RecordDataStore lib) (writer : DataWriter) (plain : Octets) :
    Except Error (RecordDataStore lib × DataWriter) :=
  match writer.encryptor with
  | some encryptor =>
      let encryptor := encryptor.write crypto plain
      .ok ({ store with files := stageChunks store.files writer.stage encryptor.sink },
        { writer with encryptor := some { encryptor with sink := [] } })
  | none => .error alreadyFinished

def finish (crypto : DataCrypto) (store : RecordDataStore lib) (writer : DataWriter) :
    RecordDataStore lib × Except Error EncryptedDataResult :=
  match writer.encryptor with
  | some encryptor =>
      let (encryptor, result) := encryptor.finish crypto
      let store := { store with files := stageChunks store.files writer.stage encryptor.sink }
      match store.registerHeld writer.stage result .uploadPending false with
      | .ok store => (store, .ok result)
      | .error error => ({ store with files := store.files.discardStaging writer.stage }, .error error)
  | none => (store, .error alreadyFinished)

def writePieces (crypto : DataCrypto) :
    RecordDataStore lib → DataWriter → List Octets → Except Error (RecordDataStore lib × DataWriter)
  | store, writer, [] => .ok (store, writer)
  | store, writer, piece :: others =>
      match write crypto store writer piece with
      | .ok (store, writer) => writePieces crypto store writer others
      | .error error => .error error

def copyRecordData (crypto : DataCrypto) (store : RecordDataStore lib) (groupKey : EncryptionKey) (chunkSize : Nat)
    (nonce : Octets) (pieces : List Octets) : RecordDataStore lib × Except Error EncryptedDataResult :=
  match create crypto store groupKey chunkSize nonce with
  | (store, .ok writer) =>
      match writePieces crypto store writer pieces with
      | .ok (store, writer) => writer.finish crypto store
      | .error error => (store, .error error)
  | (store, .error error) => (store, .error error)

end DataWriter

structure ContentSource where
  size : Nat
  pieces : List Octets
deriving DecidableEq, Repr

structure IncomingChunk where
  id : Octets
  chunkNo : Nat
  expectedSize : Nat
  expectedDigest : Octets
  stage : Nat
  hashed : Octets := []
  isOpen : Bool := true
deriving DecidableEq, Repr

namespace IncomingChunk

def received (chunk : IncomingChunk) : Nat :=
  chunk.hashed.length

def complete (chunk : IncomingChunk) : Bool :=
  chunk.received = chunk.expectedSize

variable {lib : Securepath}

def discard (store : RecordDataStore lib) (chunk : IncomingChunk) : RecordDataStore lib × IncomingChunk :=
  if chunk.isOpen then
    ({ store with files := store.files.discardStaging chunk.stage }, { chunk with isOpen := false })
  else (store, chunk)

def append (store : RecordDataStore lib) (chunk : IncomingChunk) (offset : Nat) (piece : Octets) :
    RecordDataStore lib × IncomingChunk × Bool :=
  if chunk.isOpen && offset = chunk.received && piece ≠ [] && piece.length ≤ chunk.expectedSize - chunk.received then
    ({ store with files := store.files.appendStaged chunk.stage chunk.chunkNo piece },
      { chunk with hashed := chunk.hashed ++ piece }, true)
  else
    let (store, chunk) := chunk.discard store
    (store, chunk, false)

def finish (crypto : DataCrypto) (store : RecordDataStore lib) (chunk : IncomingChunk) :
    RecordDataStore lib × IncomingChunk × Bool :=
  if chunk.isOpen && chunk.complete && crypto.hash chunk.hashed = chunk.expectedDigest &&
      store.files.stagedSize chunk.stage chunk.chunkNo = some chunk.expectedSize then
    let (store, known) := store.adoptChunk chunk.id chunk.chunkNo chunk.stage
    (store, { chunk with isOpen := false }, known)
  else
    let (store, chunk) := chunk.discard store
    (store, chunk, false)

end IncomingChunk

namespace RecordDataStore

variable {lib : Securepath}

def beginChunk (store : RecordDataStore lib) (id : Octets) (chunkNo : Nat) :
    RecordDataStore lib × Option IncomingChunk :=
  match store.table.find id with
  | some row =>
      if chunkNo < row.descriptor.chunkCount lib then
        match row.chunkDigest chunkNo with
        | some digest =>
            let (files, stage) := store.files.beginStaging
            ({ store with files }, some ⟨id, chunkNo, row.descriptor.chunkEncSize lib chunkNo, digest, stage, [], true⟩)
        | none => (store, none)
      else (store, none)
  | none => (store, none)

/-- The wanted data is made of a source with its content; another result leaves nothing behind. -/
def adoptContent (crypto : DataCrypto) (store : RecordDataStore lib) (source : ContentSource)
    (groupKey : EncryptionKey) (wanted : StatedDescriptor) (wantedHeader : DataHeader) :
    RecordDataStore lib × Except Error Bool :=
  if source.size = wantedHeader.plainSize && wanted.chunkSize ≠ 0 then
    let (files, stage) := store.files.beginStaging
    let discarded : RecordDataStore lib := { store with files := files.discardStaging stage }
    if source.pieces.flatten.length = source.size then
      match encryptData crypto groupKey wanted.chunkSize wantedHeader.nonce source.pieces with
      | .ok (chunks, result) =>
          if wanted.states result.descriptor && result.header.contentDigest = wantedHeader.contentDigest then
            let filled := { store with files := DataWriter.stageChunks files stage chunks }
            match filled.registerHeld stage result .inSync true with
            | .ok store => (store, .ok true)
            | .error error => (discarded, .error error)
          else (discarded, .ok false)
      | .error error => (discarded, .error error)
    else (discarded, .error ⟨.invalidData, "record data source ended before its size"⟩)
  else (store, .ok false)

end RecordDataStore

/-- The reader of a stored data with its key candidates and the chunk decrypted last. -/
structure StoredRecordData where
  localId : DataRef
  id : Octets
  plainSize : Nat
  chunkSize : Nat
  decryptors : List DataDecryptor
  cachedNo : Option Nat := none
  cached : Octets := []
  cachedAtDrops : Nat := 0
deriving DecidableEq, Repr

namespace StoredRecordData

variable {lib : Securepath}

def swapFirst (decryptors : List DataDecryptor) (place : Nat) : List DataDecryptor :=
  if inside : place < decryptors.length then
    (decryptors.set 0 (decryptors.get ⟨place, inside⟩)).set place (decryptors.get ⟨0, by omega⟩)
  else decryptors

def decrypt (lib : Securepath) (crypto : DataCrypto) (handle : StoredRecordData) (chunkNo : Nat)
    (encrypted : Octets) : StoredRecordData × Option Octets :=
  let fits (decryptor : DataDecryptor) : Bool := (decryptor.decrypt lib crypto chunkNo encrypted).isSome
  match handle.decryptors.find? fits with
  | some decryptor =>
      ({ handle with decryptors := swapFirst handle.decryptors (handle.decryptors.findIdx fits) },
        decryptor.decrypt lib crypto chunkNo encrypted)
  | none => (handle, none)

def copyCached (handle : StoredRecordData) (inChunk most : Nat) : Octets :=
  (handle.cached.drop inChunk).take most

def refresh (handle : StoredRecordData) (drops : Nat) : StoredRecordData :=
  if drops = handle.cachedAtDrops then handle
  else { handle with cachedNo := none, cached := [], cachedAtDrops := drops }

def load (crypto : DataCrypto) (store : RecordDataStore lib) (handle : StoredRecordData) (chunkNo : Nat) :
    RecordDataStore lib × StoredRecordData × Bool :=
  let handle := handle.refresh store.drops
  if handle.cachedNo = some chunkNo then (store, handle, true)
  else
    match store.readChunk handle.id chunkNo with
    | (store, some encrypted) =>
        match handle.decrypt lib crypto chunkNo encrypted with
        | (handle, some plain) => (store, { handle with cached := plain, cachedNo := some chunkNo }, true)
        | (handle, none) => (store.chunkFailed crypto handle.id chunkNo encrypted, handle, false)
    | (store, none) => (store, handle, false)

/-- One octet at least is read in every turn but the last; no position passes the size, so none wraps around. -/
def readTurns (crypto : DataCrypto) (offset size : Nat) :
    Nat → RecordDataStore lib → StoredRecordData → Octets → RecordDataStore lib × StoredRecordData × Octets
  | 0, store, handle, got => (store, handle, got)
  | turns + 1, store, handle, got =>
      if got.length < size ∧ offset + got.length < handle.plainSize then
        let position := offset + got.length
        let (store, loaded, ok) := handle.load crypto store (position / handle.chunkSize)
        let piece := if ok then loaded.copyCached (position % handle.chunkSize) (size - got.length) else []
        if piece = [] then (store, loaded, got) else readTurns crypto offset size turns store loaded (got ++ piece)
      else (store, handle, got)

def read (crypto : DataCrypto) (store : RecordDataStore lib) (handle : StoredRecordData) (offset size : Nat) :
    RecordDataStore lib × StoredRecordData × Octets :=
  if handle.chunkSize = 0 then (store, handle, [])
  else readTurns crypto offset size (min size (handle.plainSize - offset)) store handle []

end StoredRecordData

def RecordDataStore.openData {lib : Securepath} (crypto : DataCrypto) (store : RecordDataStore lib)
    (groupKeys : List EncryptionKey) (stated : StatedDescriptor) (header : DataHeader) :
    Except Error (RecordDataStore lib × Option StoredRecordData) :=
  if groupKeys = [] then .error ⟨.noEncryptionKeyFound, "no group key to open record data with"⟩
  else
    match store.registerDescriptor stated with
    | (store, some row) =>
        let table := if row.header.isSome then store.table else store.table.setHeader row.localId header
        let decryptors := groupKeys.map fun key => DataDecryptor.create crypto key stated.toDataDescriptor header
        .ok ({ store with table },
          some { localId := row.localId, id := stated.manifestDigest, plainSize := header.plainSize
                 chunkSize := stated.chunkSize, decryptors })
    | (store, none) => .ok (store, none)

end SpSync
