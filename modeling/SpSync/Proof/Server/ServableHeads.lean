import SpSync.Foundation.Run
import SpSync.Proof.Server.Batches
import SpSync.Proof.Server.StorageSteps

namespace SpSync.Storage

open Foundation

variable {lib : Securepath} {storage before after : Storage lib} {block : lib.Block} {origin : PublicKeyId}
  {sequence : SequenceNumber} {assignment : Option (Assignment lib)}

/-- What can happen to a storage: a commit of a client, an envelope of a peer, or a change of the
public keys that the server knows. -/
inductive Event (lib : Securepath)
  | commit (block : lib.Block)
  | foreign (envelope : lib.Envelope)
  | knowKeys (keys : List PublicKeyId)

def step (storage : Storage lib) : Event lib → Storage lib
  | .commit block => (storage.commitBlock block).1
  | .foreign envelope => (storage.applyForeign envelope).1
  | .knowKeys keys => { storage with sync := { storage.sync with keys := some keys } }

/-- The storage holds the assignment of this sequence by the origin. -/
def Holds (storage : Storage lib) (origin : PublicKeyId) (sequence : SequenceNumber) : Prop :=
  ∃ row ∈ storage.sync.log.records.ofOrigin origin, row.originSeq = sequence

/-- The admitted envelope would move the head of its origin to a sequence that the storage does not hold,
because its record is held under another assignment or refused for good. -/
def SkipsAhead (storage : Storage lib) (envelope : lib.Envelope) : Prop :=
  (storage.admitForeign envelope).2 = none ∧ envelope.origin ≠ storage.ownId ∧
    storage.heads.newer (headOf envelope) = true ∧ Skips storage envelope ∧
    ¬ Holds storage envelope.origin envelope.block.sequence

/-- An event that applies no envelope whose record is skipped ahead. -/
def KeepsServable (storage : Storage lib) : Event lib → Prop
  | .foreign envelope => ¬ SkipsAhead storage envelope
  | _ => True

/-- Every announced head can be served. -/
def Servable (storage : Storage lib) : Prop :=
  ∀ head ∈ storage.announcedHeads,
    storage.getEnvelopesByOrigin head.origin head.block.sequence head.block.sequence ≠ []

/-- Every kept head is held, and the own assignments are those of the local sequences. -/
structure HeadsHeld (storage : Storage lib) : Prop where
  signing : storage.ownId ≠ []
  returning : 0 < storage.sync.config.maxReturnedRecords
  heads : ∀ head ∈ storage.heads.entries, Holds storage head.origin head.block.sequence
  own : ∀ row ∈ storage.sync.log.records.ofOrigin storage.ownId, row.originSeq = row.sequence

theorem getEnvelopesByOrigin_ne_nil (returning : 0 < storage.sync.config.maxReturnedRecords)
    (holds : Holds storage origin sequence) : storage.getEnvelopesByOrigin origin sequence sequence ≠ [] := by
  obtain ⟨row, inside, same⟩ := holds
  obtain ⟨envelope, indexed⟩ := ChainLog.indexed_of_mem_ofOrigin inside
  have held : envelope ∈ storage.sync.log.assigned origin sequence sequence := by
    simp only [ChainLog.assigned, RecordStorage.byOriginSeq, List.mem_filterMap, List.mem_insertionSort]
    exact ⟨row, by simp [inside, same], indexed⟩
  have filled : 0 < (storage.sync.log.assigned origin sequence sequence).length := List.length_pos_of_mem held
  have enough := Budget.length_batch ChainLog.envelopeCost storage.sync.config.maxResponseBytes 2
    ((storage.sync.log.assigned origin sequence sequence).take storage.sync.config.maxReturnedRecords)
  intro empty
  rw [getEnvelopesByOrigin, ChainSync.getEnvelopesByOrigin, ChainLog.getByOrigin_eq] at empty
  rw [empty, List.length_take, List.length_nil] at enough
  omega

/-- Heads that are held can be served. -/
theorem HeadsHeld.servable (held : HeadsHeld storage) : Servable storage := by
  intro head inside
  apply getEnvelopesByOrigin_ne_nil held.returning
  unfold announcedHeads at inside
  rcases List.mem_append.mp inside with own | kept
  · split at own
    · rename_i announced
      obtain rfl : head = ⟨storage.ownId, 0, storage.sync.log.originHead storage.ownId⟩ := by simpa using own
      have valid := announced.2
      unfold ChainLog.originHead RecordStorage.lastOfOrigin at valid ⊢
      cases last : (RecordStorage.byOriginSeq (storage.sync.log.records.ofOrigin storage.ownId)).getLast? with
      | none => simp [last, ChainBlockId.isValid] at valid
      | some row =>
        have rowIn : row ∈ storage.sync.log.records.ofOrigin storage.ownId := by
          have sorted := List.mem_of_getLast? last
          rwa [RecordStorage.byOriginSeq, List.mem_insertionSort] at sorted
        exact ⟨row, rowIn, held.own row rowIn⟩
    · simp at own
  · exact held.heads head (List.mem_of_mem_filter kept)

theorem Saved.holds (saved : Saved before after block assignment) (holds : Holds before origin sequence) :
    Holds after origin sequence := by
  obtain ⟨row, inside, same⟩ := holds
  obtain ⟨newest, savedRow⟩ := saved.exists_row
  refine ⟨row, ?_, same⟩
  simp only [RecordStorage.ofOrigin, savedRow.rows, List.filter_append, List.mem_append]
  exact Or.inl inside

/-- A saved block with a signed envelope is held under the envelope's assignment. -/
theorem Saved.holds_envelope {envelope : lib.Envelope} (saved : Saved before after block (some { envelope }))
    (valid : envelope.origin ≠ []) : Holds after envelope.origin envelope.block.sequence := by
  obtain ⟨newest, savedRow⟩ := saved.exists_row
  have indexed : newest.indexed = some envelope := by simp [Row.indexed, savedRow.assignment]
  refine ⟨newest, ?_, by simp [Row.originSeq, indexed]⟩
  simp [RecordStorage.ofOrigin, savedRow.rows, savedRow.state, Row.origin, indexed, valid]

/-- A saved block keeps the own assignments at the local sequences when its assignment does. -/
theorem Saved.own (saved : Saved before after block assignment)
    (old : ∀ row ∈ before.sync.log.records.ofOrigin before.ownId, row.originSeq = row.sequence)
    (agrees : ∀ envelope, assignment = some { envelope } → envelope.origin = before.ownId →
      envelope.block.sequence = before.sync.log.head.sequence + 1)
    (indexed : ∀ stored, assignment = some stored → stored.indexed = true) :
    ∀ row ∈ after.sync.log.records.ofOrigin after.ownId, row.originSeq = row.sequence := by
  obtain ⟨newest, rows, -, sequence, -, -, -, same⟩ := saved.exists_row
  rw [saved.setting.ownId]
  intro row inside
  simp only [RecordStorage.ofOrigin, rows, List.filter_append, List.mem_append] at inside
  rcases inside with earlier | latest
  · exact old row earlier
  simp only [List.mem_filter, List.mem_singleton, Bool.and_eq_true, decide_eq_true_eq] at latest
  obtain ⟨rfl, ⟨-, origin⟩, valid⟩ := latest
  cases stored : assignment with
  | none => simp [Row.origin, Row.indexed, same, stored] at origin; exact absurd origin.symm (by simpa using valid)
  | some kept =>
    obtain ⟨envelope, flag⟩ := kept
    have marked : flag = true := indexed _ stored
    subst marked
    have found : row.indexed = some envelope := by simp [Row.indexed, same, stored]
    simp only [Row.origin, found, Option.elim_some] at origin
    simp [Row.originSeq, found, sequence, agrees envelope stored origin]

/-- A saved block keeps every head held when the new heads are. -/
theorem HeadsHeld.save (held : HeadsHeld before) (saved : Saved before after block assignment)
    (heads : ∀ head ∈ after.heads.entries, Holds after head.origin head.block.sequence ∨ head ∈ before.heads.entries)
    (own : ∀ row ∈ after.sync.log.records.ofOrigin after.ownId, row.originSeq = row.sequence) : HeadsHeld after where
  signing := saved.setting.ownId ▸ held.signing
  returning := saved.setting.config ▸ held.returning
  heads head inside := (heads head inside).elim (fun new => new) fun old => saved.holds (held.heads head old)
  own := own

/-- One event that skips nothing ahead keeps every head held. -/
theorem HeadsHeld.step {event : Event lib} (held : HeadsHeld storage) (keeps : KeepsServable storage event) :
    HeadsHeld (storage.step event) := by
  cases event with
  | knowKeys keys => exact ⟨held.signing, held.returning, held.heads, held.own⟩
  | commit block =>
    rcases commitBlock_cases storage block held.signing with
      ⟨err, refused⟩ | ⟨placed, envelope, type, placedEq, signed, -, -, saved, heads⟩
    · rw [Storage.step, refused]
      exact held
    · refine held.save saved ?_ ?_
      · rw [Storage.step, heads]
        exact fun _ => Or.inr
      · refine saved.own held.own ?_ (by rintro _ ⟨rfl⟩; rfl)
        intro other same _
        obtain rfl : envelope = other := by simpa using same
        have blockEq : envelope.block = placed := by
          simp only [makeEnvelope, held.signing, if_false, Option.some.injEq] at signed
          rw [← signed]
        rw [blockEq, placedEq]
        rfl
  | foreign envelope =>
    obtain ⟨evidence, err, refused⟩ | ⟨after, report, result, admitted, applied⟩ := applyForeign_cases storage envelope
    · rw [Storage.step, refused]
      exact ⟨held.signing, held.returning, held.heads, held.own⟩
    rw [Storage.step, result]
    cases applied with
    | own returned => exact held
    | refused err foreign => exact held
    | skipped foreign skips advanced =>
      refine ⟨held.signing, held.returning, ?_, held.own⟩
      obtain ⟨-, ⟨newer, rfl⟩ | ⟨-, rfl⟩⟩ := StorageHeads.advance_ok advanced
      · intro head inside
        rcases StorageHeads.mem_put inside with rfl | old
        · by_contra missing
          exact keeps ⟨by rw [admitted], foreign, newer, skips, missing⟩
        · exact held.heads head old
      · exact held.heads
    | unassigned err foreign invalid saved heads =>
      exact held.save saved (heads ▸ fun _ => Or.inr) (saved.own held.own (by rintro _ ⟨⟩) (by rintro _ ⟨⟩))
    | committed foreign fresh accepted saved advanced =>
      refine held.save saved ?_ ?_
      · obtain ⟨⟨valid, -⟩, ⟨-, put⟩ | ⟨-, same⟩⟩ := StorageHeads.advance_ok advanced
        · intro head inside
          rw [put] at inside
          refine (StorageHeads.mem_put inside).imp_left ?_
          rintro rfl
          exact saved.holds_envelope valid
        · rw [same]
          exact fun _ => Or.inr
      · refine saved.own held.own ?_ (by rintro _ ⟨rfl⟩; rfl)
        intro other same own
        obtain rfl : envelope = other := by simpa using same
        exact absurd own foreign

/-- In every run that skips no record ahead, a replica can serve every head that it announces. -/
theorem servable_of_run {id : Octets} {ownId : PublicKeyId} {keys : List PublicKeyId} {modes : StorageModes}
    {defaults : StorageLimits} {start : Storage lib} (created : create id ownId (some keys) modes defaults = .ok start)
    (signing : ownId ≠ []) (run : Runs Storage.step KeepsServable start storage) : Servable storage := by
  obtain ⟨limits, rfl⟩ := create_ok created
  apply HeadsHeld.servable
  apply run.keeps
  · refine ⟨signing, Nat.succ_pos 29, ?_, ?_⟩
    · intro head inside
      simp [ofModes] at inside
    · intro row inside
      simp [ofModes, ChainSync.load, ChainLog.load, RecordStorage.empty, RecordStorage.ofOrigin] at inside
  · intro state event held meets
    exact held.step meets

/-- A new weak storage of the server with key identifier 7, which knows itself, the server 8 and the client 6. -/
def replica : Storage Securepath.sample :=
  ofModes [1] [7] (some [[7], [8], [6]]) (weakModes .allowAll)

/-- The block of a record of the client 6 that adds one object. -/
def addingBlock : Securepath.sample.Block :=
  ⟨(1, ⟨{ opId := [5] }, .dataChange [⟨List.replicate 16 2, [], none⟩], []⟩), ⟨[9], some ⟨[6], [9]⟩⟩, 1, []⟩

/-- The first assignment of the server 8, for the same record. -/
def foreignEnvelope : Securepath.sample.Envelope :=
  ⟨addingBlock, [8], 0, some (Securepath.sample.signAssignment [8] [1] addingBlock 0)⟩

/-- A replica that commits the record of a peer serves the head of the peer. -/
theorem servable_of_run_foreign :
    (replica.step (.foreign foreignEnvelope)).announcedHeads.length = 1 ∧
      Servable (replica.step (.foreign foreignEnvelope)) := by
  refine ⟨by decide, servable_of_run (create_weakModes _ _ _ _) (by decide) ((Runs.refl replica).tail ?_)⟩
  intro skips
  obtain ⟨-, -, -, held | ⟨err, type, verdict, -⟩, -⟩ := skips
  · exact absurd held (by decide)
  · have accepted : replica.sync.evaluateForeign foreignEnvelope.block = .ok ⟨none, .dataAddRemove⟩ := by rfl
    rw [accepted] at verdict
    cases verdict

/-- The replica announces the head of the server 8, whose record it holds under its own assignment only. -/
theorem announcedHeads_unservable :
    let storage := (replica.step (.commit addingBlock)).step (.foreign foreignEnvelope)
    storage.announcedHeads.map (fun head => (head.origin, head.block.sequence)) = [([7], 1), ([8], 1)] ∧
      storage.getEnvelopesByOrigin [8] 1 1 = [] ∧ ¬ Servable storage := by
  refine ⟨by decide, by decide, ?_⟩
  intro servable
  exact servable ⟨[8], 0, Securepath.sample.blockId addingBlock⟩ (by decide) (by decide)

end SpSync.Storage
