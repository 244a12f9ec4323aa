import SpSync.Construction.Core.DataEncryptor

namespace SpSync

open Foundation Encoding

namespace DataCrypto

/-- What the library guarantees: the sizes of hashes, ciphertexts and tags, and that decryption inverts encryption. -/
structure Lawful (lib : Securepath) (crypto : DataCrypto) : Prop where
  hashLength : ∀ octets, (crypto.hash octets).length = lib.hashDigestSize
  digestPositive : 0 < lib.hashDigestSize
  cipherLength : ∀ key iv aad plain, (crypto.gcmEncrypt key iv aad plain).1.length = plain.length
  tagLength : ∀ key iv aad plain, (crypto.gcmEncrypt key iv aad plain).2.length = lib.aesGcmTagSize
  inverse : ∀ key iv aad plain, crypto.gcmDecrypt key iv aad (crypto.gcmEncrypt key iv aad plain).1 =
    (plain, (crypto.gcmEncrypt key iv aad plain).2)

/-- The encrypted chunks of the blocks of a plaintext. -/
def sealedChunks (crypto : DataCrypto) (dataKey nonce : Octets) (blocks : List Octets) : List Octets :=
  blocks.mapIdx (crypto.encryptChunk dataKey nonce)

variable {lib : Securepath} {crypto : DataCrypto}

theorem length_encryptChunk (lawful : crypto.Lawful lib) (dataKey nonce : Octets) (chunkNo : Nat) (plain : Octets) :
    (crypto.encryptChunk dataKey nonce chunkNo plain).length = plain.length + lib.aesGcmTagSize := by
  rw [encryptChunk, List.length_append, lawful.cipherLength, lawful.tagLength]

/-- A chunk decrypts with the key, the nonce and the place it was encrypted with. -/
theorem decryptChunk_encryptChunk (lawful : crypto.Lawful lib) (dataKey nonce : Octets) (chunkNo : Nat)
    (plain : Octets) :
    crypto.decryptChunk lib dataKey nonce chunkNo (crypto.encryptChunk dataKey nonce chunkNo plain) = some plain := by
  have length := length_encryptChunk lawful dataKey nonce chunkNo plain
  have cipher := lawful.cipherLength dataKey (crypto.chunkIv chunkNo) (chunkAad nonce chunkNo) plain
  have joined : crypto.encryptChunk dataKey nonce chunkNo plain =
      (crypto.gcmEncrypt dataKey (crypto.chunkIv chunkNo) (chunkAad nonce chunkNo) plain).1 ++
        (crypto.gcmEncrypt dataKey (crypto.chunkIv chunkNo) (chunkAad nonce chunkNo) plain).2 := rfl
  unfold decryptChunk
  rw [if_pos (by omega), length, Nat.add_sub_cancel, joined]
  dsimp only
  rw [List.take_left' cipher, List.drop_left' cipher]
  have inverse := lawful.inverse dataKey (crypto.chunkIv chunkNo) (chunkAad nonce chunkNo) plain
  rw [if_pos (congrArg Prod.snd inverse)]
  exact congrArg (fun pair => some pair.1) inverse

/-- One more block is sealed under the next number. -/
theorem sealedChunks_append (dataKey nonce plain : Octets) (blocks : List Octets) :
    crypto.sealedChunks dataKey nonce (blocks ++ [plain]) =
      crypto.sealedChunks dataKey nonce blocks ++ [crypto.encryptChunk dataKey nonce blocks.length plain] := by
  unfold sealedChunks
  rw [List.mapIdx_concat]

theorem length_sealedChunks (dataKey nonce : Octets) (blocks : List Octets) :
    (crypto.sealedChunks dataKey nonce blocks).length = blocks.length :=
  List.length_mapIdx

theorem getElem?_sealedChunks (dataKey nonce : Octets) (blocks : List Octets) (chunkNo : Nat) :
    (crypto.sealedChunks dataKey nonce blocks)[chunkNo]? =
      (blocks[chunkNo]?).map (crypto.encryptChunk dataKey nonce chunkNo) :=
  List.getElem?_mapIdx

end DataCrypto

namespace DataEncryptor

variable {crypto : DataCrypto} {before encryptor after : DataEncryptor} {drained : List (Nat × Octets)}
variable {blocks : List Octets} {stream : Octets}

/-- The same data is written with the same key. -/
structure Kept (before after : DataEncryptor) : Prop where
  nonce : after.nonce = before.nonce
  dataKey : after.dataKey = before.dataKey
  chunkSize : after.chunkSize = before.chunkSize
  keySeq : after.keySeq = before.keySeq
  content : after.content = before.content
  plainSize : after.plainSize = before.plainSize

theorem Kept.refl (encryptor : DataEncryptor) : Kept encryptor encryptor :=
  ⟨rfl, rfl, rfl, rfl, rfl, rfl⟩

theorem Kept.trans (first : Kept before encryptor) (second : Kept encryptor after) : Kept before after where
  nonce := second.nonce.trans first.nonce
  dataKey := second.dataKey.trans first.dataKey
  chunkSize := second.chunkSize.trans first.chunkSize
  keySeq := second.keySeq.trans first.keySeq
  content := second.content.trans first.content
  plainSize := second.plainSize.trans first.plainSize

variable (crypto)

theorem kept_consumeOnce (encryptor : DataEncryptor) (bytes : Octets) :
    Kept encryptor (encryptor.consumeOnce crypto bytes) := by
  unfold consumeOnce
  dsimp only
  split
  · exact ⟨rfl, rfl, rfl, rfl, rfl, rfl⟩
  · split
    · exact ⟨rfl, rfl, rfl, rfl, rfl, rfl⟩
    · exact ⟨rfl, rfl, rfl, rfl, rfl, rfl⟩

theorem kept_consumeTurns (turns : Nat) (encryptor : DataEncryptor) (bytes : Octets) :
    Kept encryptor (consumeTurns crypto turns encryptor bytes) := by
  induction turns generalizing encryptor bytes with
  | zero => exact .refl encryptor
  | succ turns ih =>
    unfold consumeTurns
    split
    · exact .refl encryptor
    · exact (kept_consumeOnce crypto encryptor bytes).trans (ih _ _)

theorem kept_consume (encryptor : DataEncryptor) (bytes : Octets) : Kept encryptor (encryptor.consume crypto bytes) :=
  kept_consumeTurns crypto bytes.length encryptor bytes

theorem kept_padTurns (zeros turns : Nat) (encryptor : DataEncryptor) (left : Nat) :
    Kept encryptor (padTurns crypto zeros turns encryptor left) := by
  induction turns generalizing encryptor left with
  | zero => exact .refl encryptor
  | succ turns ih =>
    unfold padTurns
    split
    · exact .refl encryptor
    · exact (kept_consume crypto encryptor _).trans (ih _ _)

theorem kept_flush (encryptor : DataEncryptor) : Kept encryptor (encryptor.flush crypto) := by
  unfold flush
  split
  · exact .refl encryptor
  · exact ⟨rfl, rfl, rfl, rfl, rfl, rfl⟩

variable {crypto}

/-- The blocks went out as chunks: those drained from the sink before, and those in it. -/
structure Sealed (crypto : DataCrypto) (encryptor : DataEncryptor) (drained : List (Nat × Octets))
    (blocks : List Octets) : Prop where
  sunk : drained ++ encryptor.sink =
    (crypto.sealedChunks encryptor.dataKey encryptor.nonce blocks).mapIdx Prod.mk
  digests : encryptor.manifest.chunkDigests =
    (crypto.sealedChunks encryptor.dataKey encryptor.nonce blocks).map crypto.hash
  size : encryptor.encSize = (crypto.sealedChunks encryptor.dataKey encryptor.nonce blocks).flatten.length
  count : encryptor.chunks = blocks.length

/-- The chunk that goes out is that of the next block. -/
theorem Sealed.emitChunk (sealing : Sealed crypto encryptor drained blocks) (plain : Octets) :
    Sealed crypto (encryptor.emitChunk crypto plain) drained (blocks ++ [plain]) := by
  have appended : crypto.sealedChunks (encryptor.emitChunk crypto plain).dataKey
      (encryptor.emitChunk crypto plain).nonce (blocks ++ [plain]) =
        crypto.sealedChunks encryptor.dataKey encryptor.nonce blocks ++
          [crypto.encryptChunk encryptor.dataKey encryptor.nonce encryptor.chunks plain] := by
    rw [sealing.count]
    exact DataCrypto.sealedChunks_append _ _ plain blocks
  constructor
  · rw [appended, List.mapIdx_concat, ← sealing.sunk, DataCrypto.length_sealedChunks, ← sealing.count,
      List.append_assoc]
    rfl
  · rw [appended, List.map_append, ← sealing.digests]
    rfl
  · rw [appended, List.flatten_append, List.length_append, ← sealing.size, List.flatten_singleton]
    rfl
  · rw [List.length_append, ← sealing.count]
    rfl

/-- The stream so far is in the chunks and in the buffer. -/
def Fed (crypto : DataCrypto) (encryptor : DataEncryptor) (drained : List (Nat × Octets)) (stream : Octets) : Prop :=
  ∃ blocks, Sealed crypto encryptor drained blocks ∧
    Blocks.Cut encryptor.chunkSize stream blocks encryptor.buffer

theorem length_taken (encryptor : DataEncryptor) {bytes : Octets} (filled : bytes ≠ []) :
    0 < (encryptor.taken bytes).length := by
  have room := encryptor.room
  have positive := List.length_pos_iff.mpr filled
  rw [taken, List.length_take]
  omega

theorem taken_append_drop (encryptor : DataEncryptor) (bytes : Octets) :
    encryptor.taken bytes ++ bytes.drop (encryptor.taken bytes).length = bytes := by
  have same : bytes.take (encryptor.taken bytes).length = encryptor.taken bytes := by
    rw [taken, List.length_take, Nat.min_eq_left (Nat.min_le_right _ _)]
  rw [← same, List.length_take, Nat.min_eq_left (by rw [taken, List.length_take]; omega), List.take_append_drop]

theorem kept_pad (crypto : DataCrypto) (encryptor : DataEncryptor) : Kept encryptor (encryptor.pad crypto) :=
  kept_padTurns crypto _ _ encryptor _

section

variable (fed : Fed crypto encryptor drained stream) {turns : Nat}

include fed

theorem Fed.consumeOnce (bytes : Octets) :
    Fed crypto (encryptor.consumeOnce crypto bytes) drained (stream ++ encryptor.taken bytes) := by
  obtain ⟨blocks, sealing, cut⟩ := fed
  unfold DataEncryptor.consumeOnce
  dsimp only
  split
  · rename_i whole
    refine ⟨_, sealing.emitChunk _, ?_⟩
    have closed := cut.close (show (encryptor.buffer ++ encryptor.taken bytes).length = encryptor.chunkSize by
      rw [whole.1]
      exact whole.2)
    rw [whole.1] at closed
    show Blocks.Cut encryptor.chunkSize _ _ encryptor.buffer
    rw [whole.1]
    exact closed
  · split
    · rename_i full
      exact ⟨_, ⟨(sealing.emitChunk _).sunk, (sealing.emitChunk _).digests, (sealing.emitChunk _).size,
        (sealing.emitChunk _).count⟩, cut.close full⟩
    · rename_i short
      exact ⟨blocks, ⟨sealing.sunk, sealing.digests, sealing.size, sealing.count⟩,
        cut.fill (Nat.lt_of_le_of_ne (encryptor.length_fill bytes) short)⟩

/-- All bytes are consumed, as every turn takes one at least. -/
theorem Fed.consumeTurns {bytes : Octets} (enough : bytes.length ≤ turns) :
    Fed crypto (consumeTurns crypto turns encryptor bytes) drained (stream ++ bytes) := by
  induction turns generalizing encryptor stream bytes with
  | zero =>
    rw [List.eq_nil_of_length_eq_zero (Nat.le_zero.mp enough), List.append_nil]
    exact fed
  | succ turns ih =>
    unfold DataEncryptor.consumeTurns
    split
    · rename_i empty
      rw [empty, List.append_nil]
      exact fed
    · rename_i filled
      have positive := encryptor.length_taken filled
      have rest := ih (fed.consumeOnce bytes)
        (show (bytes.drop (encryptor.taken bytes).length).length ≤ turns by
          rw [List.length_drop]
          omega)
      rw [List.append_assoc, taken_append_drop] at rest
      exact rest

/-- All bytes of a write are fed. -/
theorem Fed.consume (bytes : Octets) : Fed crypto (encryptor.consume crypto bytes) drained (stream ++ bytes) :=
  fed.consumeTurns (Nat.le_refl _)

theorem Fed.padTurns {zeros left : Nat} (positive : left ≠ 0 → 0 < zeros) (enough : left ≤ turns) :
    Fed crypto (padTurns crypto zeros turns encryptor left) drained (stream ++ List.replicate left (octet 0)) := by
  induction turns generalizing encryptor stream left with
  | zero =>
    rw [Nat.le_zero.mp enough, List.replicate_zero, List.append_nil]
    exact fed
  | succ turns ih =>
    unfold DataEncryptor.padTurns
    split
    · rename_i done
      rw [done, List.replicate_zero, List.append_nil]
      exact fed
    · rename_i more
      have whole := positive more
      have rest := ih (fed.consume (List.replicate (min left zeros) (octet 0))) (fun _ => whole)
        (show left - min left zeros ≤ turns by omega)
      rw [List.append_assoc, List.replicate_append_replicate, Nat.add_sub_cancel' (Nat.min_le_left _ _)] at rest
      exact rest

/-- The padding is fed as zeros. -/
theorem Fed.pad :
    Fed crypto (encryptor.pad crypto) drained
      (stream ++ List.replicate (dataPadding encryptor.plainSize) (octet 0)) := by
  have room := encryptor.room
  exact fed.padTurns (fun _ => by omega) (Nat.le_refl _)

/-- After the flush the chunks are all blocks of the stream. -/
theorem Fed.flush : Sealed crypto (encryptor.flush crypto) drained (Blocks.pieces encryptor.chunkSize stream) := by
  obtain ⟨blocks, sealing, cut⟩ := fed
  rw [cut.pieces_eq]
  unfold DataEncryptor.flush
  split
  · rw [List.append_nil]
    exact sealing
  · have last := sealing.emitChunk encryptor.buffer
    exact ⟨last.sunk, last.digests, last.size, last.count⟩

end

end DataEncryptor

/-- The plaintext and the zeros up to its size class. -/
def paddedData (plain : Octets) : Octets :=
  plain ++ List.replicate (dataPadding plain.length) (octet 0)

/-- The encrypted chunks of a plaintext. -/
def dataChunks (crypto : DataCrypto) (groupKey : EncryptionKey) (chunkSize : Nat) (nonce plain : Octets) :
    List Octets :=
  crypto.sealedChunks (crypto.deriveDataKey groupKey.key nonce) nonce (Blocks.pieces chunkSize (paddedData plain))

/-- The description of a plaintext in encrypted chunks. -/
def dataResult (crypto : DataCrypto) (groupKey : EncryptionKey) (chunkSize : Nat) (nonce plain : Octets) :
    EncryptedDataResult :=
  let chunks := dataChunks crypto groupKey chunkSize nonce plain
  { descriptor := ⟨chunks.flatten.length, chunkSize, crypto.hash (chunks.map crypto.hash).flatten⟩
    header := ⟨plain.length, crypto.hash plain, nonce, groupKey.keySeq, 0⟩
    manifest := ⟨chunks.map crypto.hash⟩ }

namespace DataEncryptor

variable {crypto : DataCrypto} {groupKey : EncryptionKey} {chunkSize : Nat} {nonce plain : Octets}
variable {drained : List (Nat × Octets)} {encryptor : DataEncryptor}

/-- The encryptor has been given the plaintext. -/
structure Written (crypto : DataCrypto) (groupKey : EncryptionKey) (chunkSize : Nat) (nonce : Octets)
    (drained : List (Nat × Octets)) (plain : Octets) (encryptor : DataEncryptor) : Prop where
  sameNonce : encryptor.nonce = nonce
  dataKey : encryptor.dataKey = crypto.deriveDataKey groupKey.key nonce
  sameSize : encryptor.chunkSize = chunkSize
  keySeq : encryptor.keySeq = groupKey.keySeq
  content : encryptor.content = plain
  plainSize : encryptor.plainSize = plain.length
  fed : Fed crypto encryptor drained plain

theorem written_create (crypto : DataCrypto) (groupKey : EncryptionKey) (nonce : Octets) (positive : chunkSize ≠ 0) :
    ∃ encryptor, create crypto groupKey chunkSize nonce = .ok encryptor ∧
      Written crypto groupKey chunkSize nonce [] [] encryptor ∧ encryptor.sink = [] := by
  refine ⟨_, dif_pos (Nat.pos_of_ne_zero positive), ⟨rfl, rfl, rfl, rfl, rfl, rfl, [], ?_, ?_⟩, rfl⟩
  · exact ⟨rfl, rfl, rfl, rfl⟩
  · exact .nil (Nat.pos_of_ne_zero positive)

section

variable (written : Written crypto groupKey chunkSize nonce drained plain encryptor)
include written

theorem Written.write (piece : Octets) :
    Written crypto groupKey chunkSize nonce drained (plain ++ piece) (encryptor.write crypto piece) := by
  have kept := kept_consume crypto
    { encryptor with plainSize := encryptor.plainSize + piece.length, content := encryptor.content ++ piece } piece
  obtain ⟨blocks, sealing, cut⟩ := written.fed
  have fed : Fed crypto
      { encryptor with plainSize := encryptor.plainSize + piece.length, content := encryptor.content ++ piece }
      drained plain :=
    ⟨blocks, ⟨sealing.sunk, sealing.digests, sealing.size, sealing.count⟩, cut⟩
  constructor
  · exact kept.nonce.trans written.sameNonce
  · exact kept.dataKey.trans written.dataKey
  · exact kept.chunkSize.trans written.sameSize
  · exact kept.keySeq.trans written.keySeq
  · exact kept.content.trans (congrArg (· ++ piece) written.content)
  · rw [List.length_append, ← written.plainSize]
    exact kept.plainSize
  · exact fed.consume piece

/-- The pieces of a plain text are written as the whole. -/
theorem Written.writes (pieces : List Octets) :
    Written crypto groupKey chunkSize nonce drained (plain ++ pieces.flatten)
      (pieces.foldl (DataEncryptor.write crypto) encryptor) := by
  induction pieces generalizing plain encryptor with
  | nil =>
    rw [List.flatten_nil, List.append_nil]
    exact written
  | cons piece others ih =>
    rw [List.flatten_cons, ← List.append_assoc]
    exact ih (written.write piece)

/-- The chunks in the sink move on to wherever they are kept. -/
theorem Written.drain :
    Written crypto groupKey chunkSize nonce (drained ++ encryptor.sink) plain { encryptor with sink := [] } := by
  obtain ⟨blocks, sealing, cut⟩ := written.fed
  refine ⟨written.sameNonce, written.dataKey, written.sameSize, written.keySeq, written.content, written.plainSize,
    blocks, ⟨?_, sealing.digests, sealing.size, sealing.count⟩, cut⟩
  rw [List.append_nil]
  exact sealing.sunk

/-- The chunks and the description depend on the plaintext alone, not on how it was written. -/
theorem Written.finish :
    drained ++ (encryptor.finish crypto).1.sink = (dataChunks crypto groupKey chunkSize nonce plain).mapIdx Prod.mk ∧
      (encryptor.finish crypto).2 = dataResult crypto groupKey chunkSize nonce plain := by
  have kept := (kept_pad crypto encryptor).trans (kept_flush crypto _)
  have sealing := written.fed.pad.flush
  rw [(kept_pad crypto encryptor).chunkSize, written.sameSize, written.plainSize] at sealing
  have chunks : crypto.sealedChunks ((encryptor.pad crypto).flush crypto).dataKey
      ((encryptor.pad crypto).flush crypto).nonce (Blocks.pieces chunkSize (paddedData plain)) =
        dataChunks crypto groupKey chunkSize nonce plain := by
    rw [kept.dataKey, kept.nonce, written.dataKey, written.sameNonce]
    rfl
  constructor
  · exact sealing.sunk.trans (congrArg (List.mapIdx Prod.mk) chunks)
  unfold DataEncryptor.finish dataResult
  dsimp only
  have manifest : ((encryptor.pad crypto).flush crypto).manifest =
      ⟨(dataChunks crypto groupKey chunkSize nonce plain).map crypto.hash⟩ :=
    congrArg DataManifest.mk (sealing.digests.trans (congrArg (List.map crypto.hash) chunks))
  have size := sealing.size.trans (congrArg (fun chunks => chunks.flatten.length) chunks)
  rw [manifest, size, kept.chunkSize, kept.plainSize, kept.content, kept.nonce, kept.keySeq, written.sameSize,
    written.plainSize, written.content, written.sameNonce, written.keySeq]
  rfl

end

end DataEncryptor

/-- The same plaintext gives the same chunks and the same description, whichever pieces it is written in. -/
theorem encryptData_eq (crypto : DataCrypto) (groupKey : EncryptionKey) {chunkSize : Nat} (positive : chunkSize ≠ 0)
    (nonce : Octets) (pieces : List Octets) :
    encryptData crypto groupKey chunkSize nonce pieces =
      .ok ((dataChunks crypto groupKey chunkSize nonce pieces.flatten).mapIdx Prod.mk,
        dataResult crypto groupKey chunkSize nonce pieces.flatten) := by
  obtain ⟨encryptor, created, written, -⟩ := DataEncryptor.written_create crypto groupKey nonce positive
  obtain ⟨sunk, result⟩ := (written.writes pieces).finish
  unfold encryptData
  rw [created]
  exact congrArg Except.ok (Prod.ext sunk result)

section Description

variable {lib : Securepath} {crypto : DataCrypto} {groupKey : EncryptionKey} {chunkSize chunkNo : Nat}
variable {nonce plain chunk : Octets}

section Sizes

variable {descriptor : DataDescriptor} {items rest : Octets} {blocks : List Octets}

/-- The octets of the last chunk when it is not a full one. -/
def lastSize (lib : Securepath) (rest : Octets) : Nat :=
  if rest = [] then 0 else rest.length + lib.aesGcmTagSize

theorem encSize_eq (cut : Blocks.Cut descriptor.chunkSize items blocks rest)
    (size : descriptor.encSize = items.length + (Blocks.pieces descriptor.chunkSize items).length * lib.aesGcmTagSize) :
    descriptor.encSize = (descriptor.chunkSize + lib.aesGcmTagSize) * blocks.length + lastSize lib rest := by
  have distributed : (descriptor.chunkSize + lib.aesGcmTagSize) * blocks.length =
      blocks.length * descriptor.chunkSize + blocks.length * lib.aesGcmTagSize := by
    rw [Nat.mul_comm, Nat.mul_add]
  rw [size, cut.length_eq, cut.pieces_eq, List.length_append, distributed, lastSize]
  split
  · rename_i empty
    rw [empty, List.length_nil, List.length_nil, Nat.add_zero, Nat.add_zero, Nat.add_zero]
  · rw [List.length_singleton, Nat.add_mul, Nat.one_mul]
    omega

/-- The last chunk is shorter than a full one. -/
theorem lastSize_lt (lib : Securepath) (cut : Blocks.Cut descriptor.chunkSize items blocks rest) :
    lastSize lib rest < descriptor.chunkSize + lib.aesGcmTagSize := by
  have short := cut.short
  unfold lastSize
  split <;> omega

theorem lastSize_eq_zero_iff : lastSize lib rest = 0 ↔ rest = [] := by
  unfold lastSize
  split
  · rename_i empty
    exact ⟨fun _ => empty, fun _ => rfl⟩
  · rename_i filled
    have positive := List.length_pos_iff.mpr filled
    exact ⟨fun none => by omega, fun empty => absurd empty filled⟩

section

variable (cut : Blocks.Cut descriptor.chunkSize items blocks rest)
  (size : descriptor.encSize = items.length + (Blocks.pieces descriptor.chunkSize items).length * lib.aesGcmTagSize)
include cut size

/-- A descriptor of chunks that carry a tag each counts all of them. -/
theorem chunkCount_eq : descriptor.chunkCount lib = (Blocks.pieces descriptor.chunkSize items).length := by
  have short := cut.short
  have less := lastSize_lt lib cut
  unfold DataDescriptor.chunkCount
  rw [if_neg (by omega), encSize_eq cut size, cut.pieces_eq, List.length_append]
  dsimp only
  rw [Nat.mul_add_div (by omega), Nat.mul_add_mod, Nat.div_eq_of_lt less, Nat.mod_eq_of_lt less, Nat.add_zero]
  congr 1
  by_cases empty : rest = []
  · rw [if_pos empty, if_neg (not_not_intro (lastSize_eq_zero_iff.mpr empty))]
    rfl
  · rw [if_neg empty, if_pos fun none => empty (lastSize_eq_zero_iff.mp none)]
    rfl

/-- Every chunk has the size that the descriptor gives it. -/
theorem chunkEncSize_eq {piece : Octets} (there : (Blocks.pieces descriptor.chunkSize items)[chunkNo]? = some piece) :
    descriptor.chunkEncSize lib chunkNo = piece.length + lib.aesGcmTagSize := by
  obtain ⟨inside, -⟩ := List.getElem?_eq_some_iff.mp there
  unfold DataDescriptor.chunkEncSize
  rw [if_pos (by rw [chunkCount_eq cut size]; exact inside), encSize_eq cut size]
  dsimp only
  rw [cut.pieces_eq] at there
  by_cases full : chunkNo < blocks.length
  · rw [List.getElem?_append_left full] at there
    have more := Nat.mul_le_mul_right (descriptor.chunkSize + lib.aesGcmTagSize) (Nat.succ_le_of_lt full)
    rw [Nat.succ_mul] at more
    rw [cut.full piece (List.mem_of_getElem? there), Nat.mul_comm]
    exact Nat.min_eq_left (by omega)
  · rw [List.getElem?_append_right (Nat.le_of_not_lt full)] at there
    have less := lastSize_lt lib cut
    split at there
    · rw [List.getElem?_nil] at there
      exact absurd there.symm (Option.some_ne_none piece)
    rename_i filled
    obtain ⟨last, same⟩ := List.getElem?_eq_some_iff.mp there
    have place : chunkNo = blocks.length := by
      rw [List.length_singleton] at last
      omega
    rw [place, Nat.mul_comm, Nat.add_sub_cancel_left, Nat.min_eq_right (Nat.le_of_lt less), lastSize, if_neg filled,
      ← same, List.getElem_singleton]

end

end Sizes

theorem length_dataChunks (crypto : DataCrypto) (groupKey : EncryptionKey) (chunkSize : Nat) (nonce plain : Octets) :
    (dataChunks crypto groupKey chunkSize nonce plain).length = (Blocks.pieces chunkSize (paddedData plain)).length :=
  DataCrypto.length_sealedChunks _ _ _

theorem getElem?_dataChunks :
    (dataChunks crypto groupKey chunkSize nonce plain)[chunkNo]? =
      (Blocks.pieces chunkSize (paddedData plain))[chunkNo]?.map
        (crypto.encryptChunk (crypto.deriveDataKey groupKey.key nonce) nonce chunkNo) :=
  DataCrypto.getElem?_sealedChunks _ _ _ _

section

variable (lawful : crypto.Lawful lib)
include lawful

/-- The encrypted size is that of the padded plaintext and of a tag for each chunk. -/
theorem encSize_dataResult (positive : chunkSize ≠ 0) :
    (dataResult crypto groupKey chunkSize nonce plain).descriptor.encSize =
      (paddedData plain).length + (Blocks.pieces chunkSize (paddedData plain)).length * lib.aesGcmTagSize := by
  obtain ⟨blocks, rest, cut⟩ := Blocks.Cut.exists_of_pos (Nat.pos_of_ne_zero positive) (paddedData plain)
  have grown := Blocks.length_flatten_mapIdx
    (DataCrypto.length_encryptChunk lawful (crypto.deriveDataKey groupKey.key nonce) nonce)
    (Blocks.pieces chunkSize (paddedData plain))
  rw [cut.flatten_pieces] at grown
  exact grown

theorem chunkCount_dataResult (groupKey : EncryptionKey) (positive : chunkSize ≠ 0) (nonce plain : Octets) :
    (dataResult crypto groupKey chunkSize nonce plain).descriptor.chunkCount lib =
      (dataChunks crypto groupKey chunkSize nonce plain).length := by
  obtain ⟨blocks, rest, cut⟩ := Blocks.Cut.exists_of_pos (Nat.pos_of_ne_zero positive) (paddedData plain)
  rw [length_dataChunks]
  exact chunkCount_eq cut
    (encSize_dataResult lawful positive)

theorem chunkEncSize_dataResult (positive : chunkSize ≠ 0)
    (there : (dataChunks crypto groupKey chunkSize nonce plain)[chunkNo]? = some chunk) :
    (dataResult crypto groupKey chunkSize nonce plain).descriptor.chunkEncSize lib chunkNo = chunk.length := by
  obtain ⟨blocks, rest, cut⟩ := Blocks.Cut.exists_of_pos (Nat.pos_of_ne_zero positive) (paddedData plain)
  rw [getElem?_dataChunks] at there
  obtain ⟨piece, placed, rfl⟩ := Option.map_eq_some_iff.mp there
  rw [DataCrypto.length_encryptChunk lawful]
  exact chunkEncSize_eq cut
    (encSize_dataResult lawful positive) placed

theorem matchesDescriptor_dataResult (positive : chunkSize ≠ 0) :
    (dataResult crypto groupKey chunkSize nonce plain).manifest.matchesDescriptor lib crypto
      (dataResult crypto groupKey chunkSize nonce plain).descriptor = true := by
  unfold DataManifest.matchesDescriptor
  rw [chunkCount_dataResult lawful groupKey positive nonce plain, Bool.and_eq_true, decide_eq_true_iff, decide_eq_true_iff]
  exact ⟨List.length_map _, rfl⟩

end

theorem length_paddedData : (paddedData plain).length = plain.length + dataPadding plain.length := by
  rw [paddedData, List.length_append, List.length_replicate]

theorem length_paddedData_pos (plain : Octets) : 0 < (paddedData plain).length := by
  rw [length_paddedData]
  by_cases empty : plain.length = 0
  · rw [empty]
    decide
  · omega

/-- The number of chunks of a padded plaintext that fits. -/
theorem length_pieces_paddedData (positive : chunkSize ≠ 0)
    (fits : plain.length + dataPadding plain.length ≤ maxDataChunks * chunkSize) :
    1 ≤ (Blocks.pieces chunkSize (paddedData plain)).length ∧
      (Blocks.pieces chunkSize (paddedData plain)).length ≤ maxDataChunks := by
  have filled := length_paddedData_pos plain
  rw [← length_paddedData] at fits
  unfold Blocks.pieces
  rw [List.length_map, List.length_range]
  constructor
  · exact Nat.div_pos (by omega) (Nat.pos_of_ne_zero positive)
  apply Nat.le_of_lt_succ
  apply Nat.div_lt_of_lt_mul
  rw [Nat.mul_comm, Nat.succ_mul]
  omega

/-- The descriptor of a plaintext that fits is usable. -/
theorem usable_dataResult (lawful : crypto.Lawful lib) (positive : chunkSize ≠ 0)
    (fits : plain.length + dataPadding plain.length ≤ maxDataChunks * chunkSize) :
    (dataResult crypto groupKey chunkSize nonce plain).descriptor.usable lib = true := by
  obtain ⟨least, most⟩ := length_pieces_paddedData positive fits
  have count := chunkCount_dataResult lawful groupKey positive nonce plain
  rw [← length_dataChunks crypto groupKey chunkSize nonce plain, ← count] at least most
  have digest : (dataResult crypto groupKey chunkSize nonce plain).descriptor.manifestDigest ≠ [] :=
    List.length_pos_iff.mp (by rw [dataResult, lawful.hashLength]; exact lawful.digestPositive)
  have last : lib.aesGcmTagSize < (dataResult crypto groupKey chunkSize nonce plain).descriptor.chunkEncSize lib
      ((dataResult crypto groupKey chunkSize nonce plain).descriptor.chunkCount lib - 1) := by
    obtain ⟨blocks, rest, cut⟩ := Blocks.Cut.exists_of_pos (Nat.pos_of_ne_zero positive) (paddedData plain)
    have inside : (dataResult crypto groupKey chunkSize nonce plain).descriptor.chunkCount lib - 1 <
        (Blocks.pieces chunkSize (paddedData plain)).length := by
      rw [← length_dataChunks crypto groupKey chunkSize nonce plain]
      omega
    have size := (cut.length_pieces (List.getElem_mem inside)).1
    rw [chunkEncSize_eq cut (encSize_dataResult lawful positive) (List.getElem?_eq_getElem inside)]
    omega
  simp only [DataDescriptor.usable, Bool.and_eq_true, decide_eq_true_iff]
  exact ⟨⟨⟨digest, least⟩, most⟩, last⟩

end Description

theorem lawful_sample : DataCrypto.sample.Lawful .sample where
  hashLength octets := by
    show ((octets ++ List.replicate 64 (octet 0)).take 64).length = 64
    rw [List.length_take, List.length_append, List.length_replicate]
    omega
  digestPositive := by decide
  cipherLength _ _ _ _ := rfl
  tagLength key _ _ _ := by
    show ((key ++ List.replicate 16 (octet 0)).take 16).length = 16
    rw [List.length_take, List.length_append, List.length_replicate]
    omega
  inverse _ _ _ _ := rfl

end SpSync
