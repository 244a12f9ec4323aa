import SpSync.Construction.Server.Crash
import SpSync.Proof.Server.Evidence
import SpSync.Proof.Server.Settled

namespace SpSync

open Foundation

variable {lib : Securepath}

/-- Blocks with one hash carry one tag, as for every hash without collisions. -/
def Securepath.HashesTag (lib : Securepath) : Prop :=
  ∀ left right : lib.Block, lib.hash left = lib.hash right → left.tag = right.tag

namespace Storage

variable {storage : Storage lib} {envelope : lib.Envelope} {block : lib.Block} {after : Storage lib} {row : Row lib}

theorem afterWrites_all {writes : List (Storage lib)} {count : Nat} (all : writes.length ≤ count) :
    storage.afterWrites writes count = writes.getLast?.getD storage := by
  rw [afterWrites, List.take_of_length_le all]

variable (storage)

/-- All writes of a commit leave what the commit leaves. -/
theorem getLast_commitWrites (block : lib.Block) :
    (storage.commitWrites block).getLast?.getD storage = (storage.commitBlock block).1 := by
  unfold commitWrites commitBlock ChainSync.commitBlock
  obtain ⟨err, refused, _⟩ | ⟨type, sync, placed, _, _, committed⟩ :=
    ChainSync.commitWith_cases storage.sync (storage.sync.evaluate block) block
  · rw [refused]
    rfl
  · rw [committed]
    dsimp only
    cases storage.makeEnvelope placed with
    | none => rfl
    | some envelope =>
      dsimp only
      cases sync.log.storeAssignment placed.tag envelope with
      | error err => rfl
      | ok log => rfl

theorem getLast_advanceWrites (head : OriginHead) :
    (storage.advanceWrites head).getLast?.getD storage = (storage.advanceHead head).1 := by
  unfold advanceWrites advanceHead
  cases storage.heads.advance head with
  | error err => rfl
  | ok heads => rfl

theorem getLast_admittedWrites (envelope : lib.Envelope) :
    (storage.admittedWrites envelope).getLast?.getD storage = (storage.applyAdmitted envelope).1 := by
  unfold admittedWrites applyAdmitted
  dsimp only
  split
  · rfl
  split
  · exact getLast_advanceWrites storage _
  unfold ChainSync.commitForeign
  obtain ⟨err, refused, _⟩ | ⟨type, sync, placed, _, _, committed⟩ :=
    ChainSync.commitWith_cases storage.sync (storage.sync.evaluateForeign envelope.block) envelope.block
  · rw [refused]
    dsimp only
    split
    · exact getLast_advanceWrites storage _
    · rfl
  · rw [committed]
    dsimp only [advanceHead]
    cases storage.heads.advance ⟨envelope.origin, envelope.term, lib.blockId envelope.block⟩ with
    | error err => rfl
    | ok heads =>
      dsimp only
      cases sync.log.storeAssignment envelope.block.tag envelope with
      | error err => rfl
      | ok log => rfl

/-- All writes of a foreign envelope leave what applying it leaves. -/
theorem getLast_applyWrites (envelope : lib.Envelope) :
    (storage.applyWrites envelope).getLast?.getD storage = (storage.applyForeign envelope).1 := by
  unfold applyWrites applyForeign
  obtain ⟨evidence, err, refused⟩ | ⟨admitted, _⟩ := admitForeign_cases storage envelope
  · rw [refused]
    rfl
  · rw [admitted]
    exact getLast_admittedWrites storage envelope

variable {storage}

/-- A stored assignment is signed; the own ones are those of the local sequences, the others name a block. -/
structure Proper (ownId : PublicKeyId) (row : Row lib) (envelope : lib.Envelope) : Prop where
  signed : envelope.signature.isSome = true
  origin : envelope.origin ≠ []
  own : envelope.origin = ownId → envelope.block.sequence = row.sequence
  digest : envelope.origin ≠ ownId → lib.hash envelope.block ≠ []

/-- Every row has an assignment, and every assignment is that of one row. -/
structure Assigned (storage : Storage lib) : Prop where
  signing : storage.ownId ≠ []
  returning : 0 < storage.sync.config.maxReturnedRecords
  rows : ∀ row ∈ storage.sync.log.records.rows, ∃ envelope, RowOf row envelope ∧ Proper storage.ownId row envelope
  single : ∀ left ∈ storage.sync.log.records.rows, ∀ right ∈ storage.sync.log.records.rows, ∀ one two,
    RowOf left one → RowOf right two → one.origin = two.origin → one.block.sequence = two.block.sequence → left = right

/-- The storages have the same rows and heads. -/
structure SameRecords (before after : Storage lib) : Prop where
  ownId : after.ownId = before.ownId
  config : after.sync.config = before.sync.config
  rows : after.sync.log.records.rows = before.sync.log.records.rows
  heads : after.heads = before.heads

/-- The envelope is admitted, but its record is held already or refused for good. -/
def skips (storage : Storage lib) (envelope : lib.Envelope) : Bool :=
  (storage.admitForeign envelope).2.isNone &&
    ((storage.sync.log.records.findTag envelope.block.tag).isSome ||
      match storage.sync.evaluateForeign envelope.block with
      | .ok ⟨some err, _⟩ => foreignRecordSkipped err
      | _ => false)

theorem skips_of_skips (admitted : storage.admitForeign envelope = (storage, none)) (skipped : Skips storage envelope) :
    storage.skips envelope = true := by
  unfold skips
  rw [admitted]
  obtain held | ⟨err, type, verdict, permanent⟩ := skipped
  · simp [held]
  · simp [verdict, permanent]

theorem verifyEnvelope_signed {keys : List PublicKeyId} (verified : storage.verifyEnvelope keys envelope = none) :
    envelope.signature.isSome = true := by
  unfold verifyEnvelope at verified
  split at verified
  · cases verified
  · rename_i signature found
    simp [found]

/-- An admitted envelope whose record is committed before the head of its origin turns out invalid. -/
def Strands (storage : Storage lib) (envelope : lib.Envelope) : Prop :=
  (storage.admitForeign envelope).2 = none ∧
    (∃ placed, (storage.sync.commitForeign envelope.block).2 = .ok placed) ∧
    ∃ err, storage.heads.advance (headOf envelope) = .error err

/-- What a foreign envelope that strands no record leaves and returns. -/
inductive Outcome (before : Storage lib) (envelope : lib.Envelope) : Storage lib → Option Error → Prop
  | failed {after : Storage lib} (err : Error) (same : SameRecords before after) : Outcome before envelope after (some err)
  | skipped {after : Storage lib} (skips : before.skips envelope = true) (ownId : after.ownId = before.ownId)
      (config : after.sync.config = before.sync.config)
      (rows : after.sync.log.records.rows = before.sync.log.records.rows)
      (advanced : before.heads.advance (headOf envelope) = .ok after.heads) : Outcome before envelope after none
  | taken {after : Storage lib} (assigned : after.Assigned) (ownId : after.ownId = before.ownId)
      (holds : after.HoldsAssignment envelope)
      (rows : ∀ row ∈ before.sync.log.records.rows, row ∈ after.sync.log.records.rows)
      (advanced : before.heads.advance (headOf envelope) = .ok after.heads) : Outcome before envelope after none

section

variable (assigned : storage.Assigned)
include assigned

theorem Assigned.congr (ownId : after.ownId = storage.ownId) (config : after.sync.config = storage.sync.config)
    (rows : after.sync.log.records.rows = storage.sync.log.records.rows) : after.Assigned := by
  obtain ⟨signing, returning, kept, single⟩ := assigned
  refine ⟨ownId ▸ signing, config ▸ returning, ?_, ?_⟩
  · rw [rows, ownId]
    exact kept
  · rw [rows]
    exact single

/-- A row that is saved with a new assignment keeps every assignment single. -/
theorem Assigned.save (saved : Saved storage after block (some { envelope })) (tag : envelope.block.tag = block.tag)
    (record : envelope.block.record = block.record)
    (proper : ∀ row : Row lib, row.sequence = storage.sync.log.head.sequence + 1 → Proper storage.ownId row envelope)
    (free : ∀ row ∈ storage.sync.log.records.rows, ∀ kept, RowOf row kept → kept.origin = envelope.origin →
      kept.block.sequence = envelope.block.sequence → row.sequence = storage.sync.log.head.sequence + 1) :
    after.Assigned := by
  obtain ⟨newest, rowOf, next, rows⟩ := saved.rowOf tag record
  have stays {row : Row lib} (inside : row ∈ after.sync.log.records.rows) :
      row ∈ storage.sync.log.records.rows ∨ row = newest := by
    simpa [rows] using inside
  -- the table has no two rows in sync at one sequence
  have apart {row : Row lib} {kept : lib.Envelope} (inside : row ∈ storage.sync.log.records.rows)
      (keeps : RowOf row kept) (origin : kept.origin = envelope.origin)
      (sequence : kept.block.sequence = envelope.block.sequence) : False := by
    have unique := after.sync.log.records.unique.sequences
    rw [rows, List.pairwise_append] at unique
    refine unique.2.2 row inside newest (by simp) ?_ ?_ ?_
    · simp [keeps.state, RecordState.isServerConfirmed]
    · simp [rowOf.state, RecordState.isServerConfirmed]
    · rw [free row inside kept keeps origin sequence, next]
  refine ⟨?_, ?_, ?_, ?_⟩
  · rw [saved.setting.ownId]
    exact assigned.signing
  · rw [saved.setting.config]
    exact assigned.returning
  · intro row inside
    rw [saved.setting.ownId]
    obtain old | rfl := stays inside
    · exact assigned.rows row old
    · exact ⟨envelope, rowOf, proper row next⟩
  · intro left leftIn right rightIn one two keepsOne keepsTwo origin sequence
    obtain leftOld | rfl := stays leftIn <;> obtain rightOld | rfl := stays rightIn
    · exact assigned.single left leftOld right rightOld one two keepsOne keepsTwo origin sequence
    · obtain rfl := keepsTwo.eq rowOf
      exact (apart leftOld keepsOne origin sequence).elim
    · obtain rfl := keepsOne.eq rowOf
      exact (apart rightOld keepsTwo origin.symm sequence.symm).elim
    · rfl

/-- A row with an assignment is found by its origin and sequence. -/
theorem Assigned.heldAssignment (inside : row ∈ storage.sync.log.records.rows) (keeps : RowOf row envelope) :
    storage.sync.log.heldAssignment envelope.origin envelope.block.sequence = some envelope := by
  have origin : envelope.origin ≠ [] := by
    obtain ⟨other, keepsOther, proper⟩ := assigned.rows row inside
    obtain rfl := keeps.eq keepsOther
    exact proper.origin
  have listed : row ∈ storage.sync.log.records.ofOrigin envelope.origin := by
    simp [RecordStorage.ofOrigin, inside, keeps.state, Row.origin, keeps.indexed, origin]
  cases found : (storage.sync.log.records.ofOrigin envelope.origin).find? fun other =>
      other.originSeq = envelope.block.sequence with
  | none =>
    have absent := List.find?_eq_none.mp found row listed
    simp [Row.originSeq, keeps.indexed] at absent
  | some other =>
    have otherIn := List.mem_of_mem_filter (List.mem_of_find?_eq_some found)
    obtain ⟨kept, keepsOther, _⟩ := assigned.rows other otherIn
    have held : storage.sync.log.heldAssignment envelope.origin envelope.block.sequence = some kept := by
      simp [ChainLog.heldAssignment, found, keepsOther.indexed]
    obtain ⟨_, _, _, sameOrigin, sameSequence⟩ := ChainLog.heldAssignment_eq_some held
    obtain rfl := assigned.single other otherIn row inside kept envelope keepsOther keeps sameOrigin sameSequence
    rw [held, keepsOther.eq keeps]

/-- A request for the sequence of an assignment returns it. -/
theorem Assigned.served (inside : row ∈ storage.sync.log.records.rows) (keeps : RowOf row envelope) :
    envelope ∈ storage.getEnvelopesByOrigin envelope.origin envelope.block.sequence envelope.block.sequence := by
  obtain ⟨first, found, indexed⟩ := Option.bind_eq_some_iff.mp (assigned.heldAssignment inside keeps)
  have holds : Holds storage envelope.origin envelope.block.sequence :=
    ⟨first, List.mem_of_find?_eq_some found, by simp [Row.originSeq, indexed]⟩
  obtain ⟨other, answered⟩ := List.exists_mem_of_ne_nil _ (getEnvelopesByOrigin_ne_nil assigned.returning holds)
  have listed := answered
  rw [getEnvelopesByOrigin, ChainSync.getEnvelopesByOrigin, ChainLog.getByOrigin_eq] at listed
  have chosen := List.mem_of_mem_take ((Budget.batch_sublist _ _).subset listed)
  obtain ⟨row', listedRow, indexedRow, least, most⟩ := ChainLog.mem_assigned_iff.mp chosen
  simp only [RecordStorage.ofOrigin, List.mem_filter, Bool.and_eq_true, decide_eq_true_eq] at listedRow
  obtain ⟨rowIn, ⟨_, origin⟩, _⟩ := listedRow
  obtain ⟨kept, keepsKept, _⟩ := assigned.rows row' rowIn
  obtain rfl : kept = other := Option.some.inj (keepsKept.indexed.symm.trans indexedRow)
  have same : row' = row := assigned.single row' rowIn row inside kept envelope keepsKept keeps
    (by simpa [Row.origin, indexedRow] using origin) (Nat.le_antisymm most least)
  subst same
  rwa [keepsKept.eq keeps] at answered

/-- An admitted envelope whose record is not held finds its sequence free. -/
theorem Assigned.free (tags : lib.HashesTag) (foreign : envelope.origin ≠ storage.ownId)
    (unheld : ∀ row ∈ storage.sync.log.records.rows, row.tag ≠ envelope.block.tag)
    (admitted : storage.sync.log.records.originBlockHash envelope.origin envelope.block.sequence = [] ∨
      storage.sync.log.records.originBlockHash envelope.origin envelope.block.sequence = lib.hash envelope.block)
    {kept : lib.Envelope} (inside : row ∈ storage.sync.log.records.rows) (keeps : RowOf row kept)
    (origin : kept.origin = envelope.origin) (sequence : kept.block.sequence = envelope.block.sequence) : False := by
  have held := assigned.heldAssignment inside keeps
  rw [origin, sequence] at held
  rw [ChainLog.originBlockHash_eq, held] at admitted
  obtain ⟨other, keepsOther, proper⟩ := assigned.rows row inside
  obtain rfl := keeps.eq keepsOther
  obtain empty | same := admitted
  · exact proper.digest (origin ▸ foreign) empty
  · exact unheld row inside (keeps.tag.trans (tags _ _ same))

/-- A completed commit keeps every row assigned. -/
theorem Assigned.commitBlock (block : lib.Block) : (storage.commitBlock block).1.Assigned := by
  obtain ⟨err, refused⟩ | ⟨placed, envelope, _, placedEq, signed, _, _, saved, _⟩ :=
    commitBlock_cases storage block assigned.signing
  · rw [refused]
    exact assigned
  · rw [makeEnvelope, if_neg assigned.signing] at signed
    cases signed
    have sequence : placed.sequence = storage.sync.log.head.sequence + 1 := by
      rw [placedEq]
      rfl
    refine assigned.save saved (by rw [placedEq]; rfl) (by rw [placedEq]; rfl) ?_ ?_
    · intro row next
      exact ⟨rfl, assigned.signing, fun _ => sequence.trans next.symm, fun foreign => absurd rfl foreign⟩
    intro row inside kept keeps origin same
    obtain ⟨other, keepsOther, proper⟩ := assigned.rows row inside
    obtain rfl := keeps.eq keepsOther
    rw [← proper.own origin, same, sequence]

theorem Assigned.applyForeign (tags : lib.HashesTag) (foreign : envelope.origin ≠ storage.ownId)
    (stranded : ¬ storage.Strands envelope) :
    Outcome storage envelope (storage.applyForeign envelope).1 (storage.applyForeign envelope).2 := by
  obtain ⟨evidence, err, refused⟩ | ⟨admitted, ⟨keys, _, verified⟩, compared⟩ := admitForeign_cases storage envelope
  · rw [Storage.applyForeign, refused]
    exact .failed err ⟨rfl, rfl, rfl, rfl⟩
  · have same : storage.applyForeign envelope = storage.applyAdmitted envelope := by
      rw [Storage.applyForeign, admitted]
    have applied := applyAdmitted_applied storage envelope
    rw [same]
    generalize storage.applyAdmitted envelope = outcome at applied ⊢
    obtain ⟨after, result⟩ := outcome
    dsimp only at applied ⊢
    cases applied with
    | own returned => exact absurd returned foreign
    | refused err => exact .failed err ⟨rfl, rfl, rfl, rfl⟩
    | skipped _ skipped advanced => exact .skipped (skips_of_skips admitted skipped) rfl rfl rfl advanced
    | unassigned err _ invalid _ _ commits => exact absurd ⟨by rw [admitted], commits, err, invalid⟩ stranded
    | committed _ unheld _ saved advanced =>
      obtain ⟨newest, rowOf, _, rows⟩ := saved.rowOf rfl rfl
      have position := (StorageHeads.advance_ok advanced).1
      simp only [headOf, Securepath.blockId, ChainBlockId.isValid, Bool.and_eq_true] at position
      refine .taken ?_ saved.setting.ownId ⟨newest, by simp [rows], rowOf⟩ (by simp +contextual [rows]) advanced
      refine assigned.save saved rfl rfl ?_ ?_
      · intro row _
        exact ⟨verifyEnvelope_signed verified, position.1, fun own => absurd own foreign,
          fun _ => of_decide_eq_true position.2.2⟩
      · intro row inside kept keeps origin sequence
        exact (assigned.free tags foreign unheld compared inside keeps origin sequence).elim

end

/-- An envelope of the server itself changes no row and no head. -/
theorem sameRecords_own (own : envelope.origin = storage.ownId) :
    SameRecords storage (storage.applyForeign envelope).1 ∧
      ∀ count, SameRecords storage (storage.afterWrites (storage.applyWrites envelope) count) := by
  obtain ⟨evidence, err, refused⟩ | ⟨admitted, _⟩ := admitForeign_cases storage envelope
  · rw [applyForeign, applyWrites, refused]
    refine ⟨⟨rfl, rfl, rfl, rfl⟩, fun count => ?_⟩
    cases count with
    | zero => exact ⟨rfl, rfl, rfl, rfl⟩
    | succ count =>
      rw [afterWrites, List.take_of_length_le (by simp)]
      exact ⟨rfl, rfl, rfl, rfl⟩
  · rw [applyForeign, applyWrites, admitted]
    dsimp only
    rw [admittedWrites, applyAdmitted, if_pos own, if_pos own]
    exact ⟨⟨rfl, rfl, rfl, rfl⟩, fun count => by rw [afterWrites, List.take_nil]; exact ⟨rfl, rfl, rfl, rfl⟩⟩

theorem SameRecords.refl (storage : Storage lib) : SameRecords storage storage :=
  ⟨rfl, rfl, rfl, rfl⟩

/-- A storage that is opened again has the same rows and heads. -/
theorem SameRecords.reopen (same : SameRecords storage after) (keys : Option (List PublicKeyId)) :
    SameRecords storage (after.reopen keys) :=
  ⟨same.ownId, same.config, same.rows, same.heads⟩

/-- No crash comes before the first write of the call for the envelope or between two writes. -/
def completes (storage : Storage lib) (cut : Option Nat) (envelope : lib.Envelope) : Bool :=
  cut.all fun count => 0 < count && (storage.applyWrites envelope).length ≤ count

def succeeds (storage : Storage lib) (cut : Option Nat) (envelope : lib.Envelope) : Bool :=
  storage.completes cut envelope && (storage.applyForeign envelope).2.isNone

end Storage

/-- An advance moves the reach of its origin to the new head, or leaves it. -/
theorem StorageHeads.reach_of_advance {heads advanced : StorageHeads} {head : OriginHead}
    (done : heads.advance head = .ok advanced) (origin : PublicKeyId) :
    advanced.reach origin = heads.reach origin ∨
      heads.newer head = true ∧ head.origin = origin ∧ advanced.reach origin = head.block.sequence := by
  obtain ⟨_, ⟨newer, rfl⟩ | ⟨_, rfl⟩⟩ := advance_ok done
  · by_cases same : head.origin = origin
    · refine Or.inr ⟨newer, same, ?_⟩
      simp [reach, find, find?_put, same]
    · left
      simp [reach, find, find?_put, same]
  · exact Or.inl rfl

/-- The calls that write to a storage. -/
inductive StorageCall (lib : Securepath)
  | commitBlock (block : lib.Block)
  | applyForeign (envelope : lib.Envelope)

namespace StorageCall

/-- The foreign envelopes that a call gives to the storage. -/
def envelopes : StorageCall lib → List lib.Envelope
  | .commitBlock _ => []
  | .applyForeign envelope => [envelope]

def writes (storage : Storage lib) : StorageCall lib → List (Storage lib)
  | .commitBlock block => storage.commitWrites block
  | .applyForeign envelope => storage.applyWrites envelope

def finish (storage : Storage lib) : StorageCall lib → Storage lib
  | .commitBlock block => (storage.commitBlock block).1
  | .applyForeign envelope => (storage.applyForeign envelope).1

theorem afterWrites_finish {storage : Storage lib} {call : StorageCall lib} {count : Nat}
    (all : (call.writes storage).length ≤ count) :
    storage.afterWrites (call.writes storage) count = call.finish storage := by
  rw [Storage.afterWrites_all all]
  cases call with
  | commitBlock block => exact storage.getLast_commitWrites block
  | applyForeign envelope => exact storage.getLast_applyWrites envelope

end StorageCall

/-- A storage with the foreign envelopes that it was given, those it skipped, and those whose call succeeded or
skipped them; the calls for the other ones were refused or cut off. -/
structure Ledger (lib : Securepath) where
  storage : Storage lib
  given : List lib.Envelope := []
  skipped : List lib.Envelope := []
  settled : List lib.Envelope := []

namespace Ledger

open Storage

/-- One call that completes, or is cut off by a crash after some of its writes. -/
def serve (ledger : Ledger lib) (event : StorageCall lib × Option Nat) : Ledger lib where
  storage := match event.2 with
    | none => event.1.finish ledger.storage
    | some count => ledger.storage.crash (event.1.writes ledger.storage) count
  given := ledger.given ++ event.1.envelopes
  skipped := ledger.skipped ++ event.1.envelopes.filter ledger.storage.skips
  settled := ledger.settled ++ event.1.envelopes.filter fun envelope =>
    ledger.storage.succeeds event.2 envelope || ledger.storage.skips envelope

/-- A call that fails or is cut off is for an envelope beyond the head of its origin, or one that is settled. -/
def Spared (ledger : Ledger lib) (envelope : lib.Envelope) : Prop :=
  ledger.storage.skips envelope = true ∨ envelope ∈ ledger.settled ∨
    ledger.storage.heads.reach envelope.origin < envelope.block.sequence

/-- When the head of the origin moves to the envelope, every call for one up to its sequence that was refused or
cut off has been made again with success. -/
def Resumes (ledger : Ledger lib) (envelope : lib.Envelope) : Prop :=
  ledger.storage.heads.newer (headOf envelope) = true → ∀ other ∈ ledger.given, other.origin = envelope.origin →
    other.block.sequence ≤ envelope.block.sequence → other = envelope ∨ other ∈ ledger.settled

/-- No crash comes between two writes of a call, no record is stranded, and failed calls are made again before
the head of the origin passes them. -/
def Sheltered (ledger : Ledger lib) : StorageCall lib × Option Nat → Prop
  | (.commitBlock _, none) => True
  | (.commitBlock block, some count) => count = 0 ∨ (ledger.storage.commitWrites block).length ≤ count
  | (.applyForeign envelope, cut) => envelope.origin = ledger.storage.ownId ∨
      (cut = some 0 ∨ ledger.storage.completes cut envelope = true ∧ ¬ ledger.storage.Strands envelope) ∧
      (if ledger.storage.succeeds cut envelope then ledger.Resumes envelope else ledger.Spared envelope)

variable {ledger : Ledger lib} {after : Storage lib} {envelope : lib.Envelope}

/-- Every row has its assignment, every settled envelope is held or was skipped, and the heads do not reach
the others. -/
structure Durable (ledger : Ledger lib) : Prop where
  assigned : ledger.storage.Assigned
  held : ∀ envelope ∈ ledger.settled, envelope.origin ≠ ledger.storage.ownId →
    ledger.storage.HoldsAssignment envelope ∨ envelope ∈ ledger.skipped
  beyond : ∀ envelope ∈ ledger.given, envelope.origin ≠ ledger.storage.ownId →
    envelope ∈ ledger.settled ∨ ledger.storage.heads.reach envelope.origin < envelope.block.sequence

/-- A crash behind the last write of a call leaves what the call leaves. -/
theorem crash_finish (storage : Storage lib) (call : StorageCall lib) {count : Nat}
    (all : (call.writes storage).length ≤ count) :
    SameRecords (call.finish storage) (storage.crash (call.writes storage) count) := by
  rw [crash, StorageCall.afterWrites_finish all]
  exact (SameRecords.refl _).reopen _

/-- What a committed record needs to survive: every row is served under its signed assignment, and every
given envelope that the head of its origin reaches is held or was skipped. -/
def Survives (ledger : Ledger lib) : Prop :=
  (∀ row ∈ ledger.storage.sync.log.records.rows, row.state = .inSync → ∃ envelope, row.assignment = some { envelope } ∧
    envelope.block.tag = row.tag ∧ envelope.signature.isSome = true ∧
    envelope ∈ ledger.storage.getEnvelopesByOrigin envelope.origin envelope.block.sequence envelope.block.sequence) ∧
  ∀ envelope ∈ ledger.given, envelope.origin ≠ ledger.storage.ownId →
    envelope.block.sequence ≤ ledger.storage.knownOriginSeq envelope.origin →
      ledger.storage.HoldsAssignment envelope ∨ envelope ∈ ledger.skipped

section

variable (durable : ledger.Durable) {cut : Option Nat}

include durable

theorem Durable.congr (same : SameRecords ledger.storage after) : Durable { ledger with storage := after } := by
  obtain ⟨assigned, held, beyond⟩ := durable
  refine ⟨assigned.congr same.ownId same.config same.rows, ?_, ?_⟩
  · unfold HoldsAssignment
    rw [same.ownId, same.rows]
    exact held
  · rw [same.ownId, same.heads]
    exact beyond

/-- A storage that keeps the rows keeps what was settled. -/
theorem Durable.add (assigned : after.Assigned) (ownId : after.ownId = ledger.storage.ownId)
    (rows : ∀ row ∈ ledger.storage.sync.log.records.rows, row ∈ after.sync.log.records.rows)
    (given skipped settled : List lib.Envelope)
    (held : ∀ other ∈ settled, other.origin ≠ ledger.storage.ownId → after.HoldsAssignment other ∨ other ∈ skipped)
    (beyond : ∀ other ∈ ledger.given ++ given, other.origin ≠ ledger.storage.ownId →
      other ∈ ledger.settled ++ settled ∨ after.heads.reach other.origin < other.block.sequence) :
    Durable ⟨after, ledger.given ++ given, ledger.skipped ++ skipped, ledger.settled ++ settled⟩ := by
  refine ⟨assigned, fun other inside foreign => ?_, by rwa [ownId]⟩
  rw [ownId] at foreign
  obtain old | new := List.mem_append.mp inside
  · obtain ⟨row, rowIn, keeps⟩ | gone := durable.held other old foreign
    · exact Or.inl ⟨row, rows row rowIn, keeps⟩
    · exact Or.inr (List.mem_append_left _ gone)
  · exact (held other new foreign).imp_right (List.mem_append_right _)

/-- A call that changes nothing and does not succeed spares its envelope or is for one of the server itself. -/
theorem Durable.spare (same : SameRecords ledger.storage after)
    (spared : envelope.origin = ledger.storage.ownId ∨
      ledger.storage.succeeds cut envelope = false ∧ ledger.Spared envelope) :
    Durable ⟨after, ledger.given ++ [envelope], ledger.skipped ++ [envelope].filter ledger.storage.skips,
      ledger.settled ++ [envelope].filter fun envelope =>
        ledger.storage.succeeds cut envelope || ledger.storage.skips envelope⟩ := by
  refine durable.add (durable.assigned.congr same.ownId same.config same.rows) same.ownId
    (by rw [same.rows]; exact fun _ => id) _ _ _ ?_ ?_
  · intro other inside foreign
    obtain ⟨new, settles⟩ := List.mem_filter.mp inside
    obtain rfl := List.mem_singleton.mp new
    obtain own | ⟨fails, _⟩ := spared
    · exact absurd own foreign
    · rw [fails, Bool.false_or] at settles
      exact Or.inr (by simp [settles])
  · intro other inside foreign
    rw [same.heads]
    obtain old | rfl := List.mem_append.mp inside |>.imp_right List.mem_singleton.mp
    · exact (durable.beyond other old foreign).imp_left (List.mem_append_left _)
    obtain own | ⟨_, skips | settled | beyond⟩ := spared
    · exact absurd own foreign
    · exact Or.inl (List.mem_append_right _ (by simp [skips]))
    · exact Or.inl (List.mem_append_left _ settled)
    · exact Or.inr beyond

/-- A head that moves over settled envelopes only stays below the others. -/
theorem Durable.advance (resumes : ledger.Resumes envelope)
    (advanced : ledger.storage.heads.advance (headOf envelope) = .ok after.heads) {settled : List lib.Envelope}
    (new : envelope ∈ settled) :
    ∀ other ∈ ledger.given ++ [envelope], other.origin ≠ ledger.storage.ownId →
      other ∈ ledger.settled ++ settled ∨ after.heads.reach other.origin < other.block.sequence := by
  intro other inside foreign
  obtain old | rfl := List.mem_append.mp inside |>.imp_right List.mem_singleton.mp
  · obtain before | beyond := durable.beyond other old foreign
    · exact Or.inl (List.mem_append_left _ before)
    obtain same | ⟨newer, origin, moved⟩ := StorageHeads.reach_of_advance advanced other.origin
    · rw [same]
      exact Or.inr beyond
    rw [moved]
    by_cases passed : other.block.sequence ≤ envelope.block.sequence
    · obtain rfl | before := resumes newer other old origin.symm passed
      · exact Or.inl (List.mem_append_right _ new)
      · exact Or.inl (List.mem_append_left _ before)
    · exact Or.inr (Nat.lt_of_not_le passed)
  · exact Or.inl (List.mem_append_right _ new)

/-- A foreign envelope whose call runs to its last write keeps the ledger durable. -/
theorem Durable.follow (tags : lib.HashesTag) (foreign : envelope.origin ≠ ledger.storage.ownId)
    (whole : ledger.storage.completes cut envelope = true) (stranded : ¬ ledger.storage.Strands envelope)
    (meets : if ledger.storage.succeeds cut envelope then ledger.Resumes envelope else ledger.Spared envelope) :
    Durable ⟨(ledger.storage.applyForeign envelope).1, ledger.given ++ [envelope],
      ledger.skipped ++ [envelope].filter ledger.storage.skips,
      ledger.settled ++ [envelope].filter fun envelope =>
        ledger.storage.succeeds cut envelope || ledger.storage.skips envelope⟩ := by
  have outcome := durable.assigned.applyForeign tags foreign stranded
  have succeeds : ledger.storage.succeeds cut envelope = (ledger.storage.applyForeign envelope).2.isNone := by
    rw [Storage.succeeds, whole, Bool.true_and]
  generalize ledger.storage.applyForeign envelope = done at outcome succeeds ⊢
  obtain ⟨after, result⟩ := done
  dsimp only at outcome succeeds ⊢
  cases outcome with
  | failed err same =>
    rw [succeeds] at meets
    exact durable.spare same (Or.inr ⟨succeeds, meets⟩)
  | skipped skips ownId config rows advanced =>
    rw [succeeds] at meets
    refine durable.add (durable.assigned.congr ownId config rows) ownId (by rw [rows]; exact fun _ => id) _ _ _ ?_
      (durable.advance meets advanced (by simp [skips]))
    intro other inside _
    obtain rfl := List.mem_singleton.mp (List.mem_filter.mp inside).1
    exact Or.inr (by simp [skips])
  | taken assigned ownId holds rows advanced =>
    rw [succeeds] at meets
    refine durable.add assigned ownId rows _ _ _ ?_ (durable.advance meets advanced (by simp [succeeds]))
    intro other inside _
    obtain rfl := List.mem_singleton.mp (List.mem_filter.mp inside).1
    exact Or.inl holds

/-- A completed commit keeps the ledger durable. -/
theorem Durable.commit (block : lib.Block) :
    Durable { ledger with storage := (ledger.storage.commitBlock block).1 } := by
  have assigned := durable.assigned.commitBlock block
  obtain ⟨err, refused⟩ | ⟨_, _, _, _, _, _, _, saved, heads⟩ :=
    commitBlock_cases ledger.storage block durable.assigned.signing
  · rw [refused]
    exact durable
  · have kept := durable.add assigned saved.setting.ownId (fun _ => saved.mem_of_mem) [] [] [] (by simp)
      (by simpa [heads] using durable.beyond)
    simpa only [List.append_nil] using kept

/-- One sheltered event keeps the ledger durable. -/
theorem Durable.serve (tags : lib.HashesTag) {event : StorageCall lib × Option Nat}
    (sheltered : ledger.Sheltered event) : (ledger.serve event).Durable := by
  obtain ⟨call, cut⟩ := event
  cases call with
  | commitBlock block =>
    have unchanged {after : Storage lib} (kept : Durable { ledger with storage := after }) :
        Durable ⟨after, ledger.given ++ [], ledger.skipped ++ [], ledger.settled ++ []⟩ := by
      simpa only [List.append_nil] using kept
    cases cut with
    | none => exact unchanged (durable.commit block)
    | some count =>
      obtain rfl | all := sheltered
      · exact unchanged (durable.congr ((SameRecords.refl _).reopen _))
      · have same := crash_finish ledger.storage (.commitBlock block) all
        exact unchanged ((durable.commit block).congr same)
  | applyForeign envelope =>
    by_cases own : envelope.origin = ledger.storage.ownId
    · obtain ⟨finished, cutOff⟩ := sameRecords_own own
      cases cut with
      | none => exact durable.spare finished (Or.inl own)
      | some count => exact durable.spare ((cutOff count).reopen _) (Or.inl own)
    obtain ⟨rfl | ⟨whole, stranded⟩, meets⟩ := Or.resolve_left sheltered own
    · have fails : ledger.storage.succeeds (some 0) envelope = false := by simp [Storage.succeeds, completes]
      rw [if_neg (by simp [fails])] at meets
      exact durable.spare ((SameRecords.refl _).reopen _) (Or.inr ⟨fails, meets⟩)
    have kept := durable.follow tags own whole stranded meets
    cases cut with
    | none => exact kept
    | some count =>
      have all : 0 < count ∧ (ledger.storage.applyWrites envelope).length ≤ count := by simpa [completes] using whole
      exact kept.congr (crash_finish ledger.storage (.applyForeign envelope) all.2)

theorem Durable.survives : ledger.Survives := by
  refine ⟨fun row inside _ => ?_, fun envelope inside foreign reached => ?_⟩
  · obtain ⟨envelope, keeps, proper⟩ := durable.assigned.rows row inside
    exact ⟨envelope, keeps.assignment, keeps.tag.symm, proper.signed, durable.assigned.served inside keeps⟩
  · rw [knownOriginSeq, if_neg foreign] at reached
    obtain settled | beyond := durable.beyond envelope inside foreign
    · exact durable.held envelope settled foreign
    · exact absurd reached (Nat.not_le.mpr beyond)

end

theorem durable_ofModes {id : Octets} {ownId : PublicKeyId} (signing : ownId ≠ []) (keys : Option (List PublicKeyId))
    (modes : StorageModes) : Durable { storage := .ofModes id ownId keys modes : Ledger lib } := by
  refine ⟨⟨signing, Nat.succ_pos 29, ?_, ?_⟩, ?_, ?_⟩
  · simp [Storage.ofModes, ChainSync.load, ChainLog.load, RecordStorage.empty]
  · simp [Storage.ofModes, ChainSync.load, ChainLog.load, RecordStorage.empty]
  · simp
  · simp

/-- In every run of commits, foreign envelopes and crashes from a new storage of a server with a key whose events
are sheltered, every committed record survives with its assignment. -/
theorem survives_of_run (tags : lib.HashesTag) {id : Octets} {ownId : PublicKeyId} (signing : ownId ≠ [])
    {keys : Option (List PublicKeyId)} {modes : StorageModes} {defaults : StorageLimits} {start : Storage lib}
    (created : create id ownId keys modes defaults = .ok start) (run : Runs serve Sheltered { storage := start } ledger) :
    ledger.Survives := by
  obtain ⟨limits, rfl⟩ := create_ok created
  have durable : ledger.Durable := run.keeps (durable_ofModes signing keys _) fun _ _ kept sheltered =>
    kept.serve tags sheltered
  exact durable.survives

/-- A library whose hash of a block is its tag. -/
def taggingLibrary : Securepath :=
  { Securepath.sample with hash := fun block => block.tag }

theorem hashesTag_tagging : taggingLibrary.HashesTag :=
  fun _ _ same => same

/-- A user change of the client with the given tag. -/
def userChange (tag : RecordTag) (client : PublicKeyId) (sequence : SequenceNumber) : ChainBlock (Nat × Record) :=
  ⟨(1, ⟨{}, .userChange ⟨⟨.delta, []⟩, []⟩, [[]]⟩), ⟨tag, some ⟨client, tag⟩⟩, sequence, []⟩

/-- An envelope from another server. -/
def otherEnvelope : taggingLibrary.Envelope :=
  ⟨userChange [2] [6] 1, [4], 0, some ⟨[4], [9, 2]⟩⟩

/-- The next envelope of that server, with a record of a client that is not known here. -/
def strangerEnvelope : taggingLibrary.Envelope :=
  ⟨userChange [7] [5] 2, [4], 0, some ⟨[4], [9, 7]⟩⟩

def newLedger (lib : Securepath) : Ledger lib where
  storage := ofModes [9] [3] (some [[4], [6]]) (weakModes .allowAll)

/-- A server that commits a record and crashes before the first write of one of another server. -/
def interruptedLedger : Ledger taggingLibrary :=
  ((newLedger _).serve (.commitBlock (userChange [1] [6] 1), none)).serve (.applyForeign otherEnvelope, some 0)

/-- The record is sent again and taken, the next one is refused, and the server crashes before its next commit. -/
def crashedLedger : Ledger taggingLibrary :=
  ((interruptedLedger.serve (.applyForeign otherEnvelope, none)).serve (.applyForeign strangerEnvelope, none)).serve
    (.commitBlock (userChange [5] [6] 1), some 0)

theorem not_strands {storage : Storage lib} (valid : (storage.heads.advance (headOf envelope)).isOk = true) :
    ¬ storage.Strands envelope := by
  intro strands
  obtain ⟨_, _, err, invalid⟩ := strands
  rw [invalid] at valid
  cases valid

theorem survives_of_run_crashed : crashedLedger.Survives ∧ strangerEnvelope ∈ crashedLedger.given ∧
    crashedLedger.storage.HoldsAssignment otherEnvelope := by
  have commits : Sheltered (newLedger taggingLibrary) (.commitBlock (userChange [1] [6] 1), none) := trivial
  have crashes : Sheltered ((newLedger taggingLibrary).serve (.commitBlock (userChange [1] [6] 1), none))
      (.applyForeign otherEnvelope, some 0) := by
    refine Or.inr ⟨Or.inl rfl, ?_⟩
    rw [if_neg (by decide +kernel)]
    exact Or.inr (Or.inr (by decide +kernel))
  have resumes : interruptedLedger.Sheltered (.applyForeign otherEnvelope, none) := by
    refine Or.inr ⟨Or.inr ⟨rfl, not_strands (by decide +kernel)⟩, ?_⟩
    rw [if_pos (by decide +kernel)]
    exact fun _ other inside _ _ => Or.inl (List.mem_singleton.mp inside)
  have refuses : (interruptedLedger.serve (.applyForeign otherEnvelope, none)).Sheltered
      (.applyForeign strangerEnvelope, none) := by
    refine Or.inr ⟨Or.inr ⟨rfl, not_strands (by decide +kernel)⟩, ?_⟩
    rw [if_neg (by decide +kernel)]
    exact Or.inr (Or.inr (by decide +kernel))
  have run : Runs serve Sheltered (newLedger _) crashedLedger :=
    .tail (.tail (.tail (.tail (.tail (.refl _) commits) crashes) resumes) refuses) (Or.inl rfl)
  have survives := survives_of_run hashesTag_tagging (by decide) (create_weakModes _ _ _ _) run
  have held := survives.2 otherEnvelope (by decide +kernel) (by decide +kernel) (by decide +kernel)
  exact ⟨survives, by decide +kernel, held.resolve_right (by decide +kernel)⟩

/-- A server that crashes in its first commit, after the record row is written. -/
def cutLedger : Ledger .sample :=
  (newLedger _).serve (.commitBlock (userChange [1] [6] 1), some 1)

/-- A crash behind the record row leaves a record that no assignment serves. -/
theorem not_survives_cut : (cutLedger.storage.sync.log.records.findTag [1]).isSome = true ∧ ¬ cutLedger.Survives := by
  refine ⟨by decide +kernel, fun survives => ?_⟩
  have bare : ∃ row ∈ cutLedger.storage.sync.log.records.rows, row.state = .inSync ∧ row.assignment = none := by
    decide +kernel
  obtain ⟨row, inside, inSync, unassigned⟩ := bare
  obtain ⟨envelope, assignment, _⟩ := survives.1 row inside inSync
  rw [unassigned] at assignment
  cases assignment

end Ledger

end SpSync
