/-
This file encrypts record data chunk by chunk, describes the result and decrypts single chunks.
-/

import SpSync.Construction.Core.DataTable
import SpSync.Construction.Core.SignedOctets
import SpSync.Foundation.Blocks

namespace SpSync

open Foundation Encoding

/-- The functions of the library that hash and encrypt record data. -/
structure DataCrypto where
  hash : Octets → Octets
  /-- A key of a size from a secret, a salt and a context. -/
  hkdf : Nat → Octets → Octets → Octets → Octets
  aesGcmKeySize : Nat
  aesGcmIvSize : Nat
  /-- The ciphertext and the tag under a key and an iv with additional data. -/
  gcmEncrypt : Octets → Octets → Octets → Octets → Octets × Octets
  /-- The plaintext and the tag that the ciphertext should have. -/
  gcmDecrypt : Octets → Octets → Octets → Octets → Octets × Octets

namespace DataCrypto

def deriveDataKey (crypto : DataCrypto) (groupKey nonce : Octets) : Octets :=
  crypto.hkdf crypto.aesGcmKeySize groupKey nonce (contextOctets "spsync record data key v1")

def chunkIv (crypto : DataCrypto) (chunkNo : Nat) : Octets :=
  List.replicate (crypto.aesGcmIvSize - 8) (octet 0) ++ bigEndian 8 chunkNo

def chunkAad (nonce : Octets) (chunkNo : Nat) : Octets :=
  nonce ++ bigEndian 8 chunkNo

def encryptChunk (crypto : DataCrypto) (dataKey nonce : Octets) (chunkNo : Nat) (plain : Octets) : Octets :=
  let (out, tag) := crypto.gcmEncrypt dataKey (crypto.chunkIv chunkNo) (chunkAad nonce chunkNo) plain
  out ++ tag

def decryptChunk (lib : Securepath) (crypto : DataCrypto) (dataKey nonce : Octets) (chunkNo : Nat)
    (encrypted : Octets) : Option Octets :=
  if lib.aesGcmTagSize ≤ encrypted.length then
    let size := encrypted.length - lib.aesGcmTagSize
    let (plain, tag) :=
      crypto.gcmDecrypt dataKey (crypto.chunkIv chunkNo) (chunkAad nonce chunkNo) (encrypted.take size)
    if tag = encrypted.drop size then some plain else none
  else none

/-- A library small enough to evaluate: the hash is the beginning of the octets, and the tag names the key. -/
def sample : DataCrypto where
  hash octets := (octets ++ List.replicate 64 (octet 0)).take 64
  hkdf _ secret _ _ := secret
  aesGcmKeySize := 32
  aesGcmIvSize := 12
  gcmEncrypt key _ _ plain := (plain, (key ++ List.replicate 16 (octet 0)).take 16)
  gcmDecrypt key _ _ out := (out, (key ++ List.replicate 16 (octet 0)).take 16)

end DataCrypto

structure DataManifest where
  chunkDigests : List Octets
deriving DecidableEq, Repr

namespace DataManifest

def octets (manifest : DataManifest) : Octets :=
  manifest.chunkDigests.flatten

def digest (crypto : DataCrypto) (manifest : DataManifest) : Octets :=
  crypto.hash manifest.octets

def matchesDescriptor (lib : Securepath) (crypto : DataCrypto) (manifest : DataManifest)
    (descriptor : DataDescriptor) : Bool :=
  manifest.chunkDigests.length = descriptor.chunkCount lib && manifest.digest crypto = descriptor.manifestDigest

def verifyChunk (crypto : DataCrypto) (manifest : DataManifest) (chunkNo : Nat) (encrypted : Octets) : Bool :=
  manifest.chunkDigests[chunkNo]? = some (crypto.hash encrypted)

def fromOctets (lib : Securepath) (octets : Octets) : Option DataManifest :=
  if octets.length % lib.hashDigestSize = 0 then some ⟨Blocks.pieces lib.hashDigestSize octets⟩ else none

end DataManifest

structure EncryptedDataResult where
  descriptor : DataDescriptor
  header : DataHeader
  manifest : DataManifest
deriving DecidableEq, Repr

/-- The zero octets after a plaintext of the size; the difference wraps around at 64 bits. -/
def dataPadding (size : Nat) : Nat :=
  (paddedSize size minPaddedDataSize + (uint64Limit - size)) % uint64Limit

structure DataEncryptor where
  nonce : Octets
  dataKey : Octets
  chunkSize : Nat
  keySeq : SequenceNumber
  /-- The chunks that went to the sink. -/
  sink : List (Nat × Octets) := []
  buffer : Octets := []
  /-- What the stream of the content hash was fed. -/
  content : Octets := []
  manifest : DataManifest := ⟨[]⟩
  plainSize : Nat := 0
  encSize : Nat := 0
  chunks : Nat := 0
  room : buffer.length < chunkSize

namespace DataEncryptor

def create (crypto : DataCrypto) (groupKey : EncryptionKey) (chunkSize : Nat) (nonce : Octets) :
    Except Error DataEncryptor :=
  if positive : 0 < chunkSize then
    .ok { nonce, dataKey := crypto.deriveDataKey groupKey.key nonce, chunkSize, keySeq := groupKey.keySeq,
          buffer := [], room := positive }
  else .error ⟨.invalidConfiguration, "record data chunk size must not be zero"⟩

def emitChunk (crypto : DataCrypto) (encryptor : DataEncryptor) (plain : Octets) : DataEncryptor :=
  let encrypted := crypto.encryptChunk encryptor.dataKey encryptor.nonce encryptor.chunks plain
  { encryptor with
    manifest := ⟨encryptor.manifest.chunkDigests ++ [crypto.hash encrypted]⟩
    encSize := encryptor.encSize + encrypted.length
    sink := encryptor.sink ++ [(encryptor.chunks, encrypted)]
    chunks := encryptor.chunks + 1 }

def clearBuffer (encryptor : DataEncryptor) : DataEncryptor :=
  { encryptor with buffer := [], room := Nat.lt_of_le_of_lt (Nat.zero_le _) encryptor.room }

def taken (encryptor : DataEncryptor) (bytes : Octets) : Octets :=
  bytes.take (min (encryptor.chunkSize - encryptor.buffer.length) bytes.length)

theorem length_fill (encryptor : DataEncryptor) (bytes : Octets) :
    (encryptor.buffer ++ encryptor.taken bytes).length ≤ encryptor.chunkSize := by
  have room := encryptor.room
  rw [taken, List.length_append, List.length_take]
  omega

/-- One turn of the loop: a whole chunk goes straight out, everything else through the buffer. -/
def consumeOnce (crypto : DataCrypto) (encryptor : DataEncryptor) (bytes : Octets) : DataEncryptor :=
  let part := encryptor.taken bytes
  if encryptor.buffer = [] ∧ part.length = encryptor.chunkSize then encryptor.emitChunk crypto part
  else if full : (encryptor.buffer ++ part).length = encryptor.chunkSize then
    (encryptor.emitChunk crypto (encryptor.buffer ++ part)).clearBuffer
  else
    { encryptor with
      buffer := encryptor.buffer ++ part
      room := Nat.lt_of_le_of_ne (encryptor.length_fill bytes) full }

def consumeTurns (crypto : DataCrypto) : Nat → DataEncryptor → Octets → DataEncryptor
  | 0, encryptor, _ => encryptor
  | turns + 1, encryptor, bytes =>
      if bytes = [] then encryptor
      else
        consumeTurns crypto turns (encryptor.consumeOnce crypto bytes)
          (bytes.drop (encryptor.taken bytes).length)

def consume (crypto : DataCrypto) (encryptor : DataEncryptor) (bytes : Octets) : DataEncryptor :=
  consumeTurns crypto bytes.length encryptor bytes

def write (crypto : DataCrypto) (encryptor : DataEncryptor) (plain : Octets) : DataEncryptor :=
  consume crypto
    { encryptor with plainSize := encryptor.plainSize + plain.length, content := encryptor.content ++ plain } plain

def padTurns (crypto : DataCrypto) (zeros : Nat) : Nat → DataEncryptor → Nat → DataEncryptor
  | 0, encryptor, _ => encryptor
  | turns + 1, encryptor, left =>
      if left = 0 then encryptor
      else
        let piece := min left zeros
        padTurns crypto zeros turns (encryptor.consume crypto (List.replicate piece (octet 0))) (left - piece)

def pad (crypto : DataCrypto) (encryptor : DataEncryptor) : DataEncryptor :=
  let left := dataPadding encryptor.plainSize
  padTurns crypto (min left encryptor.chunkSize) left encryptor left

def flush (crypto : DataCrypto) (encryptor : DataEncryptor) : DataEncryptor :=
  if encryptor.buffer = [] then encryptor else (encryptor.emitChunk crypto encryptor.buffer).clearBuffer

def finish (crypto : DataCrypto) (encryptor : DataEncryptor) : DataEncryptor × EncryptedDataResult :=
  let encryptor := (encryptor.pad crypto).flush crypto
  ({ encryptor with manifest := ⟨[]⟩ },
    { descriptor := ⟨encryptor.encSize, encryptor.chunkSize, encryptor.manifest.digest crypto⟩
      header := ⟨encryptor.plainSize, crypto.hash encryptor.content, encryptor.nonce, encryptor.keySeq, 0⟩
      manifest := encryptor.manifest })

end DataEncryptor

def encryptData (crypto : DataCrypto) (groupKey : EncryptionKey) (chunkSize : Nat) (nonce : Octets)
    (pieces : List Octets) : Except Error (List (Nat × Octets) × EncryptedDataResult) := do
  let encryptor ← DataEncryptor.create crypto groupKey chunkSize nonce
  let (encryptor, result) := (pieces.foldl (DataEncryptor.write crypto) encryptor).finish crypto
  return (encryptor.sink, result)

structure DataDecryptor where
  descriptor : DataDescriptor
  header : DataHeader
  dataKey : Octets
deriving DecidableEq, Repr

namespace DataDecryptor

def create (crypto : DataCrypto) (groupKey : EncryptionKey) (descriptor : DataDescriptor) (header : DataHeader) :
    DataDecryptor :=
  ⟨descriptor, header, crypto.deriveDataKey groupKey.key header.nonce⟩

/-- The octets of the data in the chunk; the padding is not of the data. -/
def chunkPlainSize (decryptor : DataDecryptor) (chunkNo : Nat) : Nat :=
  let start := chunkNo * decryptor.descriptor.chunkSize
  if start < decryptor.header.plainSize then
    min (decryptor.header.plainSize - start) decryptor.descriptor.chunkSize
  else 0

def decrypt (lib : Securepath) (crypto : DataCrypto) (decryptor : DataDecryptor) (chunkNo : Nat)
    (encrypted : Octets) : Option Octets :=
  if chunkNo < decryptor.descriptor.chunkCount lib then
    match crypto.decryptChunk lib decryptor.dataKey decryptor.header.nonce chunkNo encrypted with
    | some plain =>
        let keep := decryptor.chunkPlainSize chunkNo
        if plain.length < keep then none else some (plain.take keep)
    | none => none
  else none

end DataDecryptor

end SpSync
