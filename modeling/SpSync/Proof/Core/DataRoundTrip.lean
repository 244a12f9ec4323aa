import SpSync.Proof.Core.RecordDataStore

namespace SpSync

open Foundation Encoding

variable {lib : Securepath} {crypto : DataCrypto} {groupKey : EncryptionKey} {chunkSize chunkNo : Nat}
variable {nonce plain chunk : Octets} {store : RecordDataStore lib} {descriptor : DataDescriptor}

/-- The octets of the plaintext in one chunk. -/
def plainPart (chunkSize : Nat) (plain : Octets) (chunkNo : Nat) : Octets :=
  (plain.drop (chunkNo * chunkSize)).take chunkSize

/-- The decryptor of a data under one of its key candidates. -/
def dataDecryptor (crypto : DataCrypto) (groupKey : EncryptionKey) (chunkSize : Nat) (nonce plain : Octets)
    (candidate : EncryptionKey) : DataDecryptor :=
  .create crypto candidate (dataResult crypto groupKey chunkSize nonce plain).descriptor
    (dataResult crypto groupKey chunkSize nonce plain).header

theorem length_plainPart (chunkSize : Nat) (plain : Octets) (chunkNo : Nat) :
    (plainPart chunkSize plain chunkNo).length = min chunkSize (plain.length - chunkNo * chunkSize) := by
  rw [plainPart, List.length_take, List.length_drop]

theorem chunkPlainSize_eq (candidate : EncryptionKey) :
    (dataDecryptor crypto groupKey chunkSize nonce plain candidate).chunkPlainSize chunkNo =
      (plainPart chunkSize plain chunkNo).length := by
  rw [length_plainPart]
  show (if chunkNo * chunkSize < plain.length then min (plain.length - chunkNo * chunkSize) chunkSize else 0) = _
  split <;> omega

/-- The padding of a block goes when it is cut to the octets of the plaintext. -/
theorem take_paddedData :
    ((paddedData plain).drop (chunkNo * chunkSize)).take (plainPart chunkSize plain chunkNo).length =
      plainPart chunkSize plain chunkNo := by
  have length := length_plainPart chunkSize plain chunkNo
  rw [paddedData, List.drop_append, List.take_append_of_le_length]
  · rw [plainPart, List.length_take, List.take_eq_take_iff, List.length_drop]
    omega
  · rw [length, List.length_drop]
    omega

/-- The block of a chunk begins with the octets of the plaintext in it. -/
theorem take_piece {piece : Octets} (placed : (Blocks.pieces chunkSize (paddedData plain))[chunkNo]? = some piece) :
    (plainPart chunkSize plain chunkNo).length ≤ piece.length ∧
      piece.take (plainPart chunkSize plain chunkNo).length = plainPart chunkSize plain chunkNo := by
  have length := length_plainPart chunkSize plain chunkNo
  have whole : piece.take (plainPart chunkSize plain chunkNo).length = plainPart chunkSize plain chunkNo := by
    rw [Blocks.getElem?_pieces placed, List.take_take, Nat.min_eq_left (by omega), take_paddedData]
  refine ⟨?_, whole⟩
  have shorter := congrArg List.length whole
  rw [List.length_take] at shorter
  omega

/-- The decryptor with the right key gives the octets of the plaintext in the chunk. -/
theorem decrypt_own (lawful : crypto.Lawful lib) (positive : chunkSize ≠ 0)
    (there : (dataChunks crypto groupKey chunkSize nonce plain)[chunkNo]? = some chunk) :
    (dataDecryptor crypto groupKey chunkSize nonce plain groupKey).decrypt lib crypto chunkNo chunk =
      some (plainPart chunkSize plain chunkNo) := by
  obtain ⟨inside, -⟩ := List.getElem?_eq_some_iff.mp there
  rw [getElem?_dataChunks] at there
  obtain ⟨piece, placed, rfl⟩ := Option.map_eq_some_iff.mp there
  obtain ⟨enough, whole⟩ := take_piece placed
  have decrypted : crypto.decryptChunk lib (dataDecryptor crypto groupKey chunkSize nonce plain groupKey).dataKey
      (dataDecryptor crypto groupKey chunkSize nonce plain groupKey).header.nonce chunkNo
      (crypto.encryptChunk (crypto.deriveDataKey groupKey.key nonce) nonce chunkNo piece) = some piece :=
    DataCrypto.decryptChunk_encryptChunk lawful _ nonce chunkNo piece
  unfold DataDecryptor.decrypt
  rw [if_pos (by rw [← chunkCount_dataResult lawful groupKey positive nonce plain] at inside; exact inside), decrypted]
  dsimp only
  rw [chunkPlainSize_eq, if_neg (Nat.not_lt.mpr enough), whole]

/-- A candidate that does not authenticate a chunk does not decrypt it. -/
theorem decrypt_other {candidate : EncryptionKey}
    (fails : crypto.decryptChunk lib (crypto.deriveDataKey candidate.key nonce) nonce chunkNo chunk = none) :
    (dataDecryptor crypto groupKey chunkSize nonce plain candidate).decrypt lib crypto chunkNo chunk = none := by
  have failed : crypto.decryptChunk lib (dataDecryptor crypto groupKey chunkSize nonce plain candidate).dataKey
      (dataDecryptor crypto groupKey chunkSize nonce plain candidate).header.nonce chunkNo chunk = none := fails
  unfold DataDecryptor.decrypt
  rw [failed]
  split <;> rfl

/-- One decryptor has the right key, and no decryptor gives other octets than those of the plaintext. -/
structure Decrypts (lib : Securepath) (crypto : DataCrypto) (groupKey : EncryptionKey) (chunkSize : Nat)
    (nonce plain : Octets) (decryptors : List DataDecryptor) : Prop where
  own : dataDecryptor crypto groupKey chunkSize nonce plain groupKey ∈ decryptors
  agree : ∀ decryptor ∈ decryptors, ∀ chunkNo chunk,
    (dataChunks crypto groupKey chunkSize nonce plain)[chunkNo]? = some chunk →
    ∀ octets, decryptor.decrypt lib crypto chunkNo chunk = some octets → octets = plainPart chunkSize plain chunkNo

/-- The store holds all chunks of the data. -/
structure Holds (store : RecordDataStore lib) (descriptor : DataDescriptor) (chunks : List Octets) : Prop where
  known : ∃ row, store.table.find descriptor.manifestDigest = some row ∧
    ∀ chunkNo < chunks.length, row.haveBits.test chunkNo = true
  filed : ∀ chunkNo chunk, chunks[chunkNo]? = some chunk →
    store.files.read descriptor.manifestDigest chunkNo = some chunk

theorem Holds.readChunk {chunks : List Octets} (holds : Holds store descriptor chunks)
    (there : chunks[chunkNo]? = some chunk) :
    store.readChunk descriptor.manifestDigest chunkNo = (store, some chunk) := by
  obtain ⟨row, found, held⟩ := holds.known
  obtain ⟨inside, -⟩ := List.getElem?_eq_some_iff.mp there
  unfold RecordDataStore.readChunk
  rw [found]
  dsimp only
  rw [if_pos (held chunkNo inside), holds.filed chunkNo chunk there]

namespace StoredRecordData

/-- The handle reads the data, and what it has cached is of the plaintext. -/
structure Reads (lib : Securepath) (crypto : DataCrypto) (groupKey : EncryptionKey) (chunkSize : Nat)
    (nonce plain : Octets) (handle : StoredRecordData) : Prop where
  itsId : handle.id = (dataResult crypto groupKey chunkSize nonce plain).descriptor.manifestDigest
  plainSize : handle.plainSize = plain.length
  sameSize : handle.chunkSize = chunkSize
  decrypts : Decrypts lib crypto groupKey chunkSize nonce plain handle.decryptors
  cached : ∀ chunkNo, handle.cachedNo = some chunkNo → handle.cached = plainPart chunkSize plain chunkNo

variable {handle : StoredRecordData} {store : RecordDataStore lib} {decryptors : List DataDecryptor}

theorem mem_swapFirst {place : Nat} {decryptor : DataDecryptor} :
    decryptor ∈ swapFirst decryptors place ↔ decryptor ∈ decryptors := by
  unfold swapFirst
  split
  · rename_i inside
    have positive : 0 < decryptors.length := by omega
    exact (List.set_set_perm positive inside).mem_iff
  · rfl

theorem Decrypts.swapFirst (decrypts : Decrypts lib crypto groupKey chunkSize nonce plain decryptors) (place : Nat) :
    Decrypts lib crypto groupKey chunkSize nonce plain (swapFirst decryptors place) :=
  ⟨mem_swapFirst.mpr decrypts.own, fun decryptor inside => decrypts.agree decryptor (mem_swapFirst.mp inside)⟩

/-- The next octets of a range come from the chunk at their position. -/
theorem copyCached_eq {offset size done : Nat}
    (cached : handle.cached = plainPart chunkSize plain ((offset + done) / chunkSize)) :
    handle.copyCached ((offset + done) % chunkSize) (size - done) =
      (((plain.drop offset).take size).drop done).take (chunkSize - (offset + done) % chunkSize) := by
  have whole := Nat.div_add_mod (offset + done) chunkSize
  rw [Nat.mul_comm] at whole
  rw [copyCached, cached, plainPart, List.drop_take, List.drop_drop, whole, List.take_take, List.drop_take,
    List.drop_drop, List.take_take, Nat.min_comm]

/-- What is read so far, with the next octets of the range, is the beginning of the range again. -/
theorem append_take_drop {wanted got : Octets} (begun : got = wanted.take got.length) (more : Nat) :
    got ++ (wanted.drop got.length).take more =
      wanted.take (got ++ (wanted.drop got.length).take more).length := by
  have joined : got ++ (wanted.drop got.length).take more = wanted.take (got.length + more) := by
    rw [List.take_add, ← begun]
  rw [joined, List.length_take, List.take_eq_take_iff]
  omega

/-- Reads one after the other. -/
def readAll (crypto : DataCrypto) :
    RecordDataStore lib → StoredRecordData → List (Nat × Nat) → RecordDataStore lib × StoredRecordData
  | store, handle, [] => (store, handle)
  | store, handle, (offset, size) :: others =>
      let (store, handle, _) := handle.read crypto store offset size
      readAll crypto store handle others

theorem Reads.refresh (reads : Reads lib crypto groupKey chunkSize nonce plain handle) (drops : Nat) :
    Reads lib crypto groupKey chunkSize nonce plain (handle.refresh drops) := by
  unfold StoredRecordData.refresh
  split
  · exact reads
  · exact ⟨reads.itsId, reads.plainSize, reads.sameSize, reads.decrypts, fun _ none => absurd none.symm (Option.some_ne_none _)⟩

section

variable (reads : Reads lib crypto groupKey chunkSize nonce plain handle) (lawful : crypto.Lawful lib)
  (positive : chunkSize ≠ 0)
include reads lawful positive

/-- The candidates give the octets of the plaintext, whichever of them authenticates the chunk. -/
theorem Reads.decrypt (there : (dataChunks crypto groupKey chunkSize nonce plain)[chunkNo]? = some chunk) :
    ∃ later, handle.decrypt lib crypto chunkNo chunk = (later, some (plainPart chunkSize plain chunkNo)) ∧
      Reads lib crypto groupKey chunkSize nonce plain later := by
  unfold StoredRecordData.decrypt
  dsimp only
  cases found : handle.decryptors.find? fun decryptor => (decryptor.decrypt lib crypto chunkNo chunk).isSome with
  | none =>
    have missing := List.find?_eq_none.mp found _ reads.decrypts.own
    rw [decrypt_own lawful positive there] at missing
    exact absurd rfl missing
  | some decryptor =>
    have fits : (decryptor.decrypt lib crypto chunkNo chunk).isSome = true := by
      have first := List.find?_some found
      exact first
    obtain ⟨octets, decrypted⟩ := Option.isSome_iff_exists.mp fits
    have same := reads.decrypts.agree decryptor (List.mem_of_find?_eq_some found) chunkNo chunk there octets decrypted
    refine ⟨_, Prod.ext rfl (decrypted.trans (congrArg some same)), ?_⟩
    exact ⟨reads.itsId, reads.plainSize, reads.sameSize, Decrypts.swapFirst reads.decrypts _, reads.cached⟩

variable (holds : Holds store (dataResult crypto groupKey chunkSize nonce plain).descriptor
  (dataChunks crypto groupKey chunkSize nonce plain))
include holds

/-- Loading a held chunk makes it the cached one. -/
theorem Reads.load (inside : chunkNo < (dataChunks crypto groupKey chunkSize nonce plain).length) :
    ∃ later, handle.load crypto store chunkNo = (store, later, true) ∧
      Reads lib crypto groupKey chunkSize nonce plain later ∧ later.cached = plainPart chunkSize plain chunkNo := by
  have fresh := reads.refresh store.drops
  unfold StoredRecordData.load
  dsimp only
  split
  · rename_i hit
    exact ⟨_, rfl, fresh, fresh.cached chunkNo hit⟩
  have there := List.getElem?_eq_getElem inside
  obtain ⟨later, decrypted, kept⟩ := fresh.decrypt lawful positive there
  rw [fresh.itsId, holds.readChunk there]
  dsimp only
  rw [decrypted]
  refine ⟨_, rfl, ⟨kept.itsId, kept.plainSize, kept.sameSize, kept.decrypts, ?_⟩, rfl⟩
  intro cachedNo same
  rw [Option.some.inj same]

/-- A whole run of the loop reads what is left of the range. -/
theorem Reads.readTurns {offset size turns : Nat} {got : Octets}
    (begun : got = ((plain.drop offset).take size).take got.length)
    (enough : ((plain.drop offset).take size).length ≤ got.length + turns) :
    ∃ later, handle.readTurns crypto offset size turns store got = (store, later, (plain.drop offset).take size) ∧
      Reads lib crypto groupKey chunkSize nonce plain later := by
  have length : ((plain.drop offset).take size).length = min size (plain.length - offset) := by
    rw [List.length_take, List.length_drop]
  induction turns generalizing handle got with
  | zero =>
    rw [Nat.add_zero] at enough
    rw [List.take_of_length_le enough] at begun
    exact ⟨handle, Prod.ext rfl (Prod.ext rfl begun), reads⟩
  | succ turns ih =>
    unfold StoredRecordData.readTurns
    rw [reads.plainSize, reads.sameSize]
    split
    · rename_i more
      have inside : (offset + got.length) / chunkSize < (dataChunks crypto groupKey chunkSize nonce plain).length := by
        rw [length_dataChunks]
        refine Blocks.div_lt_length_pieces (Nat.pos_of_ne_zero positive) ?_
        rw [length_paddedData]
        omega
      obtain ⟨later, loaded, kept, cached⟩ := reads.load lawful positive holds inside
      dsimp only
      rw [loaded]
      rw [if_pos rfl, copyCached_eq cached]
      have below := Nat.mod_lt (offset + got.length) (Nat.pos_of_ne_zero positive)
      have next := append_take_drop begun (chunkSize - (offset + got.length) % chunkSize)
      generalize piece : (((plain.drop offset).take size).drop got.length).take
        (chunkSize - (offset + got.length) % chunkSize) = read at next ⊢
      have filled : 0 < read.length := by
        rw [← piece, List.length_take, List.length_drop, length]
        omega
      rw [if_neg (List.length_pos_iff.mp filled)]
      exact ih kept next (by rw [List.length_append]; omega)
    · rename_i stop
      rw [List.take_of_length_le (by omega)] at begun
      exact ⟨handle, Prod.ext rfl (Prod.ext rfl begun), reads⟩

/-- A read returns the octets of the range, and the handle reads on. -/
theorem Reads.read (offset size : Nat) :
    ∃ later, handle.read crypto store offset size = (store, later, (plain.drop offset).take size) ∧
      Reads lib crypto groupKey chunkSize nonce plain later := by
  unfold StoredRecordData.read
  rw [if_neg (by rw [reads.sameSize]; exact positive), reads.plainSize]
  refine reads.readTurns lawful positive holds ?_ ?_
  · rw [List.length_nil, List.take_zero]
  · rw [List.length_take, List.length_drop, List.length_nil, Nat.zero_add]

theorem Reads.readAll (calls : List (Nat × Nat)) :
    ∃ later, readAll crypto store handle calls = (store, later) ∧
      Reads lib crypto groupKey chunkSize nonce plain later := by
  induction calls generalizing handle with
  | nil => exact ⟨handle, rfl, reads⟩
  | cons call others ih =>
    obtain ⟨offset, size⟩ := call
    obtain ⟨next, read, kept⟩ := reads.read lawful positive holds offset size
    obtain ⟨later, rest, last⟩ := ih kept
    refine ⟨later, ?_, last⟩
    unfold StoredRecordData.readAll
    rw [read]
    exact rest

end

end StoredRecordData

/-- The store has no files of the data and knows no other descriptor of it. -/
structure Unheld (store : RecordDataStore lib) (descriptor : DataDescriptor) : Prop where
  files : store.files.dirs descriptor.manifestDigest = none
  row : ∀ row, store.table.find descriptor.manifestDigest = some row → row.descriptor = descriptor

theorem Unheld.rowFor (unheld : Unheld store descriptor) : (store.rowFor descriptor).descriptor = descriptor := by
  unfold RecordDataStore.rowFor
  cases found : store.table.find descriptor.manifestDigest with
  | none => rfl
  | some row => exact unheld.row row found

section

variable {start later : RecordDataStore lib} {result : EncryptedDataResult} {chunks : List Octets}
  {state : RecordDataState} {replace : Bool} (unheld : Unheld start result.descriptor)
  (registered : start.Registered later result chunks state replace)
  (count : result.descriptor.chunkCount lib = chunks.length)
include unheld registered count

/-- A data that was registered as a whole is held as a whole. -/
theorem Unheld.holds : Holds later result.descriptor chunks := by
  constructor
  · refine ⟨_, by rw [registered.table, Function.update_self], fun chunkNo inside => ?_⟩
    rw [RecordDataStore.heldRow_haveBits unheld.rowFor, count, HaveBitmap.test_replicate inside]
  intro chunkNo chunk there
  rw [registered.files, ChunkFiles.read]
  dsimp only
  rw [if_pos (Or.inr unheld.files), Function.update_self]
  exact there

/-- The reader of a registered data opens, and its store still holds the data. -/
theorem Unheld.opens (usable : result.descriptor.usable lib = true) {groupKeys : List EncryptionKey}
    (keys : groupKeys ≠ []) : ∃ opened handle,
      later.openData crypto groupKeys ⟨result.descriptor, []⟩ result.header = .ok (opened, some handle) ∧
      Holds opened result.descriptor chunks ∧ ∃ localId, handle =
        { localId, id := result.descriptor.manifestDigest, plainSize := result.header.plainSize
          chunkSize := result.descriptor.chunkSize
          decryptors := groupKeys.map fun key => .create crypto key result.descriptor result.header } := by
  have holds := unheld.holds registered count
  have found : later.table.find result.descriptor.manifestDigest =
      some (RecordDataStore.heldRow (start.rowFor result.descriptor) result state) := by
    rw [registered.table, Function.update_self]
  have known : later.rowFor result.descriptor =
      RecordDataStore.heldRow (start.rowFor result.descriptor) result state := by
    rw [RecordDataStore.rowFor, found, Option.getD_some]
  have stated : StatedDescriptor.states ⟨result.descriptor, []⟩ (later.rowFor result.descriptor).descriptor = true := by
    rw [known, StatedDescriptor.states, Bool.and_eq_true, decide_eq_true_iff, decide_eq_true_iff]
    exact ⟨unheld.rowFor.symm, rfl⟩
  refine ⟨{ later with table := later.table.withRow result.descriptor }, _, ?_, ?_,
    (later.rowFor result.descriptor).localId, rfl⟩
  · unfold RecordDataStore.openData
    rw [if_neg keys, RecordDataStore.registerDescriptor_eq later usable, Option.filter_some, if_pos stated, known]
    rfl
  · obtain ⟨row, itsRow, held⟩ := holds.known
    have unchanged : (later.table.withRow result.descriptor).find = later.table.find := by
      rw [DataTable.find_withRow, found, Option.getD_some, ← found, Function.update_eq_self]
    exact ⟨⟨row, by rw [unchanged]; exact itsRow, held⟩, holds.filed⟩

end

/-- The candidates decrypt the chunks when no other key than the right one authenticates one of them. -/
theorem decrypts_candidates (lawful : crypto.Lawful lib) (positive : chunkSize ≠ 0) {groupKeys : List EncryptionKey}
    (own : groupKey ∈ groupKeys) (others : ∀ candidate ∈ groupKeys, candidate.key ≠ groupKey.key → ∀ chunkNo chunk,
      (dataChunks crypto groupKey chunkSize nonce plain)[chunkNo]? = some chunk →
        crypto.decryptChunk lib (crypto.deriveDataKey candidate.key nonce) nonce chunkNo chunk = none) :
    Decrypts lib crypto groupKey chunkSize nonce plain
      (groupKeys.map (dataDecryptor crypto groupKey chunkSize nonce plain)) := by
  refine ⟨List.mem_map_of_mem own, fun decryptor inside chunkNo chunk there octets decrypted => ?_⟩
  obtain ⟨candidate, among, rfl⟩ := List.mem_map.mp inside
  by_cases same : candidate.key = groupKey.key
  · have one : dataDecryptor crypto groupKey chunkSize nonce plain candidate =
        dataDecryptor crypto groupKey chunkSize nonce plain groupKey := by
      unfold dataDecryptor DataDecryptor.create
      rw [same]
    rw [one, decrypt_own lawful positive there] at decrypted
    exact (Option.some.inj decrypted).symm
  · rw [decrypt_other (others candidate among same chunkNo chunk there)] at decrypted
    exact absurd decrypted.symm (Option.some_ne_none octets)

/-- However a plaintext that fits is written, it becomes the same chunks, of the sizes that the descriptor gives, and
the same description with a manifest that the descriptor commits to; and a reader of the stored data, under key
candidates of which no other one authenticates the chunks, gets every range of the plaintext, also after other reads. -/
theorem recordData_roundTrip (lawful : crypto.Lawful lib) (groupKey : EncryptionKey) (positive : chunkSize ≠ 0)
    (nonce : Octets) (fits : plain.length + dataPadding plain.length ≤ maxDataChunks * chunkSize) :
    ∃ (chunks : List Octets) (result : EncryptedDataResult),
      (∀ pieces : List Octets, pieces.flatten = plain →
        encryptData crypto groupKey chunkSize nonce pieces = .ok (chunks.mapIdx Prod.mk, result)) ∧
      result.manifest.matchesDescriptor lib crypto result.descriptor = true ∧
      result.descriptor.chunkCount lib = chunks.length ∧
      (∀ chunkNo chunk, chunks[chunkNo]? = some chunk → chunk.length = result.descriptor.chunkEncSize lib chunkNo) ∧
      ∀ (store : RecordDataStore lib) (pieces : List Octets) (groupKeys : List EncryptionKey),
        Unheld store result.descriptor → pieces.flatten = plain → groupKey ∈ groupKeys →
        (∀ candidate ∈ groupKeys, candidate.key ≠ groupKey.key → ∀ chunkNo chunk, chunks[chunkNo]? = some chunk →
          crypto.decryptChunk lib (crypto.deriveDataKey candidate.key nonce) nonce chunkNo chunk = none) →
        ∃ stored opened handle,
          DataWriter.copyRecordData crypto store groupKey chunkSize nonce pieces = (stored, .ok result) ∧
          stored.openData crypto groupKeys ⟨result.descriptor, []⟩ result.header = .ok (opened, some handle) ∧
          ∀ (earlier : List (Nat × Nat)) (offset size : Nat),
            let after := StoredRecordData.readAll crypto opened handle earlier
            (after.2.read crypto after.1 offset size).2.2 = (plain.drop offset).take size := by
  have usable : (dataResult crypto groupKey chunkSize nonce plain).descriptor.usable lib = true :=
    usable_dataResult lawful positive fits
  have count := chunkCount_dataResult lawful groupKey positive nonce plain
  refine ⟨dataChunks crypto groupKey chunkSize nonce plain, dataResult crypto groupKey chunkSize nonce plain,
    ?_, matchesDescriptor_dataResult lawful positive, count,
    fun chunkNo chunk there => (chunkEncSize_dataResult lawful positive there).symm, ?_⟩
  · intro pieces split
    rw [encryptData_eq crypto groupKey positive nonce pieces, split]
  · intro store pieces groupKeys unheld split own others
    obtain ⟨stored, copied, registered⟩ :=
      DataWriter.copyRecordData_ok crypto groupKey positive nonce pieces store (split ▸ usable)
    rw [split] at copied registered
    obtain ⟨opened, handle, opens, holds, localId, itsForm⟩ :=
      unheld.opens registered count usable (List.ne_nil_of_mem own)
    have reads : StoredRecordData.Reads lib crypto groupKey chunkSize nonce plain handle := by
      subst itsForm
      exact ⟨rfl, rfl, rfl, decrypts_candidates lawful positive own others, by simp⟩
    refine ⟨stored, opened, handle, copied, opens, fun earlier offset size => ?_⟩
    obtain ⟨later, after, kept⟩ := reads.readAll lawful positive holds earlier
    obtain ⟨last, read, -⟩ := kept.read lawful positive holds offset size
    rw [after]
    exact congrArg (fun result => result.2.2) read

/-- No other key than that of the tag authenticates a chunk of the sample library. -/
theorem decryptChunk_sample_other (chunkNo : Nat) (plain : Octets) :
    DataCrypto.sample.decryptChunk .sample [octet 8] [octet 9] chunkNo
      (DataCrypto.sample.encryptChunk [octet 7] [octet 9] chunkNo plain) = none := by
  unfold DataCrypto.decryptChunk DataCrypto.encryptChunk DataCrypto.sample
  simp [Securepath.sample, octet]

/-- Three octets in two chunks, written in two pieces into an empty store, and read from the second one on with two keys. -/
theorem recordData_roundTrip_split :
    ∃ (result : EncryptedDataResult) (stored opened : RecordDataStore .sample) (handle : StoredRecordData),
      DataWriter.copyRecordData .sample (.new .sample) ⟨1, [octet 7]⟩ 2048 [octet 9] [[octet 1], [octet 2, octet 3]] =
        (stored, .ok result) ∧ result.descriptor.chunkCount .sample = 2 ∧
      stored.openData .sample [⟨1, [octet 8]⟩, ⟨1, [octet 7]⟩] ⟨result.descriptor, []⟩ result.header =
        .ok (opened, some handle) ∧ (handle.read .sample opened 1 5).2.2 = [octet 2, octet 3] := by
  obtain ⟨chunks, result, encrypted, -, count, -, reads⟩ := recordData_roundTrip lawful_sample ⟨1, [octet 7]⟩
    (show 2048 ≠ 0 by decide) [octet 9] (show [octet 1, octet 2, octet 3].length + _ ≤ _ by decide)
  have same : chunks = dataChunks .sample ⟨1, [octet 7]⟩ 2048 [octet 9] [octet 1, octet 2, octet 3] := by
    have both := encrypted [[octet 1], [octet 2, octet 3]] rfl
    rw [encryptData_eq _ _ (by decide)] at both
    have second (items : List Octets) : (items.mapIdx Prod.mk).map Prod.snd = items :=
      List.ext_getElem? fun _ => by simp
    rw [← second chunks, ← (Prod.mk.inj (Except.ok.inj both)).1, second]
    rfl
  obtain ⟨stored, opened, handle, copied, opens, range⟩ := reads (.new .sample) [[octet 1], [octet 2, octet 3]]
    [⟨1, [octet 8]⟩, ⟨1, [octet 7]⟩] ⟨rfl, fun row found => absurd found.symm (Option.some_ne_none row)⟩ rfl
    (List.mem_cons_of_mem _ List.mem_cons_self) (fun candidate inside other chunkNo chunk there => by
      rw [same, getElem?_dataChunks] at there
      obtain ⟨piece, -, rfl⟩ := Option.map_eq_some_iff.mp there
      obtain rfl | own := List.mem_cons.mp inside
      · exact decryptChunk_sample_other chunkNo piece
      · exact absurd (congrArg EncryptionKey.key (List.mem_singleton.mp own)) other)
  refine ⟨result, stored, opened, handle, copied, ?_, opens, range [] 1 5⟩
  rw [count, same, length_dataChunks, Blocks.pieces, List.length_map, List.length_range, paddedData, List.length_append,
    List.length_replicate]
  decide

end SpSync
