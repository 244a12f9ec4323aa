import SpSync.Construction.Server.Storage
import SpSync.Proof.Core.Rows

namespace SpSync

variable {lib : Securepath}

namespace ChainLog

variable {log : ChainLog lib}

/-- An unsigned block extends the head by one row. -/
theorem append_ok {appended : ChainLog lib} {block : lib.Block}
    (done : log.append ⟨block, [], 0, none⟩ = .ok appended) :
    ∃ record, lib.deserialise block.record = some record ∧
      appended.records.rows = log.records.rows ++ [log.records.newRow block .inSync record] ∧
      appended.head = lib.blockId block := by
  unfold append at done
  dsimp only at done
  split at done
  · cases done
  cases created : log.records.create block .inSync with
  | error err => simp [created, bind, Except.bind] at done
  | ok records =>
    obtain ⟨record, parsed, rows⟩ := RecordStorage.create_ok created
    simp only [created, bind, Except.bind, pure, Except.pure, Except.ok.injEq] at done
    subst done
    exact ⟨record, parsed, rows, rfl⟩

/-- The assignment joins the row with the tag. -/
theorem storeAssignment_rows {tag : RecordTag} {envelope : lib.Envelope} {row : Row lib}
    (inside : row ∈ log.records.rows) (same : row.tag = tag) :
    ∃ records, log.storeAssignment tag envelope = .ok { log with records } ∧
      records.rows = log.records.rows.map fun other =>
        if other.key = row.key then { other with assignment := some { envelope } } else other := by
  obtain ⟨records, done⟩ := log.records.setAssignment_ok row.key (some { envelope })
  refine ⟨records, ?_, RecordStorage.updateRow_ok_iff.mp done⟩
  unfold storeAssignment
  rw [RecordStorage.findTag_eq_some_iff.mpr ⟨inside, same⟩]
  simp [done, bind, Except.bind, pure, Except.pure]

end ChainLog

namespace ChainSync

variable {sync saved : ChainSync lib} {block placed : lib.Block} {type : RecType} {err : Error}

/-- A saved block is appended to the log and moves the cursor of its kind. -/
theorem setAndSaveBlock_appended (done : sync.setAndSaveBlock block type = .ok (saved, placed)) :
    placed = block.setSequenceAndParentHash (sync.log.head.sequence + 1) sync.log.head.hash ∧
    sync.log.append ⟨placed, [], 0, none⟩ = .ok saved.log ∧ saved.config = sync.config ∧ saved.keys = sync.keys ∧
    saved.lastDataAddRemove = (if type = .dataAddRemove then placed.sequence else sync.lastDataAddRemove) ∧
    saved.lastUserChangeOrSegment = if type = .special then placed.sequence else sync.lastUserChangeOrSegment := by
  unfold setAndSaveBlock at done
  cases appended : sync.log.append
      ⟨block.setSequenceAndParentHash (sync.log.head.sequence + 1) sync.log.head.hash, [], 0, none⟩ with
  | error err => simp [appended, bind, Except.bind] at done
  | ok log =>
    simp only [appended, bind, Except.bind, pure, Except.pure, Except.ok.injEq, Prod.mk.injEq] at done
    obtain ⟨rfl, rfl⟩ := done
    cases type <;> exact ⟨rfl, appended, rfl, rfl, rfl, rfl⟩

/-- A saved block is one new row at the next position. -/
theorem setAndSaveBlock_ok (done : sync.setAndSaveBlock block type = .ok (saved, placed)) :
    placed = block.setSequenceAndParentHash (sync.log.head.sequence + 1) sync.log.head.hash ∧
    (∃ record, lib.deserialise block.record = some record ∧
      saved.log.records.rows = sync.log.records.rows ++ [sync.log.records.newRow placed .inSync record]) ∧
    saved.log.head = lib.blockId placed ∧ saved.config = sync.config ∧ saved.keys = sync.keys := by
  obtain ⟨rfl, appended, config, keys, _⟩ := setAndSaveBlock_appended done
  obtain ⟨record, parsed, rows, head⟩ := ChainLog.append_ok appended
  exact ⟨rfl, ⟨record, parsed, rows⟩, head, config, keys⟩

/-- A block that cannot be saved fails with an error of the table or the log. -/
theorem setAndSaveBlock_error (failed : sync.setAndSaveBlock block type = .error err) :
    err.code = .constraintViolation ∨ err.code = .databaseConstraint ∨ err.code = .invalidData := by
  unfold setAndSaveBlock at failed
  cases appended : sync.log.append
      ⟨block.setSequenceAndParentHash (sync.log.head.sequence + 1) sync.log.head.hash, [], 0, none⟩ with
  | ok log => simp [appended, bind, Except.bind, pure, Except.pure] at failed
  | error cause =>
    simp only [appended, bind, Except.bind, Except.error.injEq] at failed
    subst failed
    unfold ChainLog.append at appended
    dsimp only at appended
    split at appended
    · simp only [Except.error.injEq] at appended
      exact Or.inl (by rw [← appended])
    cases created : sync.log.records.create
        (block.setSequenceAndParentHash (sync.log.head.sequence + 1) sync.log.head.hash) .inSync with
    | ok records => simp [created, bind, Except.bind, pure, Except.pure] at appended
    | error reason =>
      simp only [created, bind, Except.bind, Except.error.injEq] at appended
      subst appended
      exact Or.inr (RecordStorage.create_error created)

/-- The evaluation of a foreign block fails only on octets that do not parse. -/
theorem evaluateForeign_error (failed : sync.evaluateForeign block = .error err) : err = ⟨.invalidData, ""⟩ := by
  unfold evaluateForeign evaluateWith at failed
  split at failed
  · cases failed
  split at failed
  · cases failed
  split at failed
  · cases failed
  · split at failed
    · simpa using failed.symm
    · split at failed <;> cases failed

/-- An accepted block is new to the log, carries an authentic record and passes the rules. -/
theorem evaluateWith_accepted {rules : Record → Except Error RuleResult}
    (accepted : sync.evaluateWith rules block = .ok ⟨none, type⟩) :
    sync.tooBig block = false ∧ sync.log.records.findTag block.tag = none ∧
      (sync.config.authMode = .signRecords → sync.verifySignature block = none) ∧
      ∃ record, lib.deserialise block.record = some record ∧
        (record.base.opId ≠ [] → sync.log.records.findOpId record.base.opId = none) ∧
        rules record = .ok ⟨none, type⟩ := by
  unfold evaluateWith at accepted
  split at accepted
  · cases accepted
  rename_i small
  split at accepted
  · cases accepted
  rename_i newTag
  split at accepted
  · cases accepted
  rename_i authentic
  split at accepted
  · cases accepted
  rename_i record parsed
  split at accepted
  · cases accepted
  rename_i newOp
  refine ⟨by simpa using small, newTag, ?_, record, parsed, ?_, accepted⟩
  · intro signs
    rwa [if_pos signs] at authentic
  · intro named
    simpa [named] using newOp

theorem verifySignature_code (refused : sync.verifySignature block = some err) :
    err.code = .invalidRecord ∨ err.code = .unknownSigner := by
  unfold verifySignature at refused
  split at refused
  · exact Or.inl (by rw [← Option.some.inj refused])
  split at refused
  · cases refused
  split at refused
  · exact Or.inr (by rw [← Option.some.inj refused])
  · split at refused
    · cases refused
    · exact Or.inl (by rw [← Option.some.inj refused])

theorem classifyForeign_code {record : Record} (refused : classifyForeign lib record = ⟨some err, type⟩) :
    err.code = .invalidRecord := by
  unfold classifyForeign at refused
  split at refused
  · simp only [RuleResult.mk.injEq] at refused
    obtain ⟨refused, -⟩ := refused
    split at refused
    · rw [← Option.some.inj refused]
    · cases refused
  · cases refused

/-- A commit saves an accepted block, or changes nothing and reports why. -/
theorem commitWith_cases (sync : ChainSync lib) (verdict : Except Error RuleResult) (block : lib.Block) :
    (∃ err, sync.commitWith verdict block = (sync, .error err) ∧
      (verdict = .error err ∨ (∃ type, verdict = .ok ⟨some err, type⟩) ∨
        ∃ type, verdict = .ok ⟨none, type⟩ ∧ sync.setAndSaveBlock block type = .error err)) ∨
    ∃ type saved placed, verdict = .ok ⟨none, type⟩ ∧ sync.setAndSaveBlock block type = .ok (saved, placed) ∧
      sync.commitWith verdict block = (saved, .ok placed) := by
  unfold commitWith
  cases verdict with
  | error err => exact Or.inl ⟨err, rfl, Or.inl rfl⟩
  | ok result =>
    obtain ⟨refusal, type⟩ := result
    cases refusal with
    | some err => exact Or.inl ⟨err, rfl, Or.inr (Or.inl ⟨type, rfl⟩)⟩
    | none =>
      cases done : sync.setAndSaveBlock block type with
      | error err => exact Or.inl ⟨err, by simp [done], Or.inr (Or.inr ⟨type, rfl, done⟩)⟩
      | ok pair => exact Or.inr ⟨type, pair.1, pair.2, rfl, done, by simp [done]⟩

/-- What holds of a storage holds after a commit when it holds with an accepted block saved. -/
theorem commitWith_keeps {property : ChainSync lib → Prop} {verdict : Except Error RuleResult} (now : property sync)
    (kept : ∀ type saved placed, verdict = .ok ⟨none, type⟩ → sync.setAndSaveBlock block type = .ok (saved, placed) →
      property saved) : property (sync.commitWith verdict block).1 := by
  obtain ⟨err, refused, _⟩ | ⟨type, saved, placed, accepted, done, committed⟩ := commitWith_cases sync verdict block
  · rw [refused]
    exact now
  · rw [committed]
    exact kept type saved placed accepted done

/-- A commit leaves the configuration and the known keys. -/
theorem setting_commitWith (sync : ChainSync lib) (verdict : Except Error RuleResult) (block : lib.Block) :
    (sync.commitWith verdict block).1.config = sync.config ∧ (sync.commitWith verdict block).1.keys = sync.keys :=
  commitWith_keeps ⟨rfl, rfl⟩ fun _ _ _ _ done => (setAndSaveBlock_ok done).2.2.2

end ChainSync

namespace Storage

variable {storage : Storage lib} {block : lib.Block}

/-- A created storage has the modes and no record yet. -/
theorem create_ok {id : Octets} {ownId : PublicKeyId} {keys : Option (List PublicKeyId)} {modes : StorageModes}
    {defaults : StorageLimits} (created : create id ownId keys modes defaults = .ok storage) :
    ∃ limits, storage = ofModes id ownId keys { modes with limits } := by
  unfold create at created
  dsimp only at created
  split at created
  · cases created
  split at created
  · cases created
  · cases created
    exact ⟨_, rfl⟩

/-- The modes of a weak storage with the default limits. -/
def weakModes (mode : SyncMode) : StorageModes :=
  { mode, auth := .signRecords, replication := .weak, limits := defaultStorageLimits }

theorem create_weakModes (id : Octets) (ownId : PublicKeyId) (keys : Option (List PublicKeyId)) (mode : SyncMode) :
    create id ownId keys (weakModes mode) {} = .ok (ofModes id ownId keys (weakModes mode) : Storage lib) := by
  have limits : (defaultStorageLimits.limitsOr {}).limitsOr defaultStorageLimits = defaultStorageLimits := by decide
  have valid : validStorageLimits defaultStorageLimits = true := by decide
  simp [create, weakModes, validStorageModes, limits, valid]

/-- The storages share everything that no commit touches. -/
structure SameSetting (before after : Storage lib) : Prop where
  id : after.id = before.id
  ownId : after.ownId = before.ownId
  replication : after.replication = before.replication
  config : after.sync.config = before.sync.config
  keys : after.sync.keys = before.sync.keys

theorem SameSetting.refl (storage : Storage lib) : SameSetting storage storage :=
  ⟨rfl, rfl, rfl, rfl, rfl⟩

/-- The block is the next row of the storage, with the given assignment. -/
structure Saved (before after : Storage lib) (block : lib.Block) (assignment : Option (Assignment lib)) : Prop where
  setting : SameSetting before after
  row : ∃ record, lib.deserialise block.record = some record ∧
    after.sync.log.records.rows = before.sync.log.records.rows ++ [{ before.sync.log.records.newRow
      (block.setSequenceAndParentHash (before.sync.log.head.sequence + 1) before.sync.log.head.hash) .inSync record
        with assignment }]
  head : after.sync.log.head = lib.blockId
    (block.setSequenceAndParentHash (before.sync.log.head.sequence + 1) before.sync.log.head.hash)

/-- The row that a saved block becomes. -/
structure SavedRow (before after : Storage lib) (block : lib.Block) (assignment : Option (Assignment lib))
    (newest : Row lib) : Prop where
  rows : after.sync.log.records.rows = before.sync.log.records.rows ++ [newest]
  blockId : newest.blockId = after.sync.log.head
  sequence : newest.sequence = before.sync.log.head.sequence + 1
  state : newest.state = .inSync
  tag : newest.tag = block.tag
  block : newest.block =
    block.setSequenceAndParentHash (before.sync.log.head.sequence + 1) before.sync.log.head.hash
  assignment : newest.assignment = assignment
  content : ∃ record, lib.deserialise newest.block.record = some record ∧ newest.opId = record.base.opId ∧
    newest.type = record.body.type

section SavedRow

variable {before after : Storage lib} {block : lib.Block} {assignment : Option (Assignment lib)} {newest : Row lib}

theorem Saved.exists_row (saved : Saved before after block assignment) :
    ∃ newest, SavedRow before after block assignment newest := by
  obtain ⟨_, ⟨record, parsed, rows⟩, head⟩ := saved
  exact ⟨_, rows, head.symm, rfl, rfl, rfl, rfl, rfl, record, parsed, rfl, rfl⟩

section

variable (saved : SavedRow before after block assignment newest) {row : Row lib}

include saved

theorem SavedRow.mem (inside : row ∈ after.sync.log.records.rows) :
    row ∈ before.sync.log.records.rows ∨ row = newest := by
  simpa [saved.rows] using inside

theorem SavedRow.mem_newest : newest ∈ after.sync.log.records.rows := by
  simp [saved.rows]

theorem SavedRow.mem_of_mem (inside : row ∈ before.sync.log.records.rows) : row ∈ after.sync.log.records.rows := by
  simp [saved.rows, inside]

/-- The origin columns of the row are those of its assignment. -/
theorem SavedRow.indexed {kept : lib.Envelope} (indexed : newest.indexed = some kept) :
    ∃ stored ∈ assignment, stored.envelope = kept := by
  unfold Row.indexed at indexed
  rw [saved.assignment] at indexed
  split at indexed
  · rename_i stored
    split at indexed
    · exact ⟨stored, rfl, Option.some.inj indexed⟩
    · cases indexed
  · cases indexed

end

/-- A saved block keeps every record of the log. -/
theorem Saved.mem_of_mem {row : Row lib} (saved : Saved before after block assignment)
    (inside : row ∈ before.sync.log.records.rows) : row ∈ after.sync.log.records.rows := by
  obtain ⟨newest, savedRow⟩ := saved.exists_row
  exact savedRow.mem_of_mem inside

end SavedRow

/-- The new row of a saved block takes the assignment that is stored for its tag. -/
theorem saved_storeAssignment {sync : ChainSync lib} {placed : lib.Block} {type : RecType}
    (done : storage.sync.setAndSaveBlock block type = .ok (sync, placed)) (envelope : lib.Envelope) :
    ∃ records, sync.log.storeAssignment placed.tag envelope = .ok { sync.log with records } ∧
      Saved storage { storage with sync := { sync with log := { sync.log with records } } } block
        (some { envelope }) := by
  obtain ⟨rfl, ⟨record, parsed, rows⟩, head, config, keys⟩ := ChainSync.setAndSaveBlock_ok done
  let newest := storage.sync.log.records.newRow
    (block.setSequenceAndParentHash (storage.sync.log.head.sequence + 1) storage.sync.log.head.hash) .inSync record
  have inside : newest ∈ sync.log.records.rows := by simp [rows, newest]
  obtain ⟨records, stored, newRows⟩ := ChainLog.storeAssignment_rows inside rfl
  refine ⟨records, stored, ⟨rfl, rfl, rfl, config, keys⟩, ⟨record, parsed, ?_⟩, head⟩
  rw [newRows, rows]
  apply RecordStorage.map_newest
  intro row rowIn
  exact Nat.ne_of_lt (RecordStorage.key_lt_nextKey rowIn)

theorem makeEnvelope_eq_some {envelope : lib.Envelope} (signed : storage.makeEnvelope block = some envelope) :
    envelope.block = block ∧ envelope.origin = storage.ownId := by
  unfold makeEnvelope at signed
  split at signed
  · cases signed
  · cases signed
    exact ⟨rfl, rfl⟩

/-- A commit saves the block with the assignment that the storage makes for it, or changes nothing. -/
theorem commitBlock_saved (storage : Storage lib) (block : lib.Block) :
    (∃ err, storage.commitBlock block = (storage, .error err)) ∨
    ∃ placed type, placed = block.setSequenceAndParentHash (storage.sync.log.head.sequence + 1)
        storage.sync.log.head.hash ∧
      storage.sync.evaluate block = .ok ⟨none, type⟩ ∧
      (storage.commitBlock block).2 = .ok (placed, storage.makeEnvelope placed) ∧
      Saved storage (storage.commitBlock block).1 block
        ((storage.makeEnvelope placed).map fun envelope => { envelope }) ∧
      (storage.commitBlock block).1.heads = storage.heads := by
  unfold commitBlock ChainSync.commitBlock
  obtain ⟨err, refused, _⟩ | ⟨type, saved, placed, verdict, done, committed⟩ :=
    ChainSync.commitWith_cases storage.sync (storage.sync.evaluate block) block
  · exact Or.inl ⟨err, by rw [refused]⟩
  refine Or.inr ⟨placed, type, (ChainSync.setAndSaveBlock_ok done).1, verdict, ?_⟩
  rw [committed]
  cases signed : storage.makeEnvelope placed with
  | none =>
    obtain ⟨rfl, row, head, config, keys⟩ := ChainSync.setAndSaveBlock_ok done
    simp only [signed]
    exact ⟨trivial, ⟨⟨rfl, rfl, rfl, config, keys⟩, row, head⟩, trivial⟩
  | some envelope =>
    obtain ⟨records, stored, savedRow⟩ := saved_storeAssignment done envelope
    simp only [signed, stored]
    exact ⟨trivial, savedRow, trivial⟩

/-- A commit saves the block with the own signed assignment, or changes nothing. -/
theorem commitBlock_cases (storage : Storage lib) (block : lib.Block) (signing : storage.ownId ≠ []) :
    (∃ err, storage.commitBlock block = (storage, .error err)) ∨
    ∃ placed envelope type, placed = block.setSequenceAndParentHash (storage.sync.log.head.sequence + 1)
        storage.sync.log.head.hash ∧
      storage.makeEnvelope placed = some envelope ∧
      storage.sync.evaluate block = .ok ⟨none, type⟩ ∧
      (storage.commitBlock block).2 = .ok (placed, some envelope) ∧
      Saved storage (storage.commitBlock block).1 block (some { envelope }) ∧
      (storage.commitBlock block).1.heads = storage.heads := by
  obtain refused | ⟨placed, type, position, verdict, result, saved, heads⟩ := commitBlock_saved storage block
  · exact Or.inl refused
  have signed : storage.makeEnvelope placed =
      some ⟨placed, storage.ownId, 0, some (lib.signAssignment storage.ownId storage.id placed 0)⟩ := by
    simp [makeEnvelope, signing]
  rw [signed] at result saved
  exact Or.inr ⟨placed, _, type, position, signed, verdict, result, saved, heads⟩

/-- The head that an envelope gives its origin. -/
def headOf (envelope : lib.Envelope) : OriginHead :=
  ⟨envelope.origin, envelope.term, lib.blockId envelope.block⟩

/-- The record of the envelope is not committed and the head of its origin moves past it. -/
def Skips (storage : Storage lib) (envelope : lib.Envelope) : Prop :=
  (storage.sync.log.records.findTag envelope.block.tag).isSome = true ∨
    ∃ err type, storage.sync.evaluateForeign envelope.block = .ok ⟨some err, type⟩ ∧ foreignRecordSkipped err = true

/-- What applying an admitted envelope can do to a storage. -/
inductive Applied (before : Storage lib) (envelope : lib.Envelope) : Storage lib → Option Error → Prop
  | own (returned : envelope.origin = before.ownId) : Applied before envelope before none
  | skipped {heads : StorageHeads} (foreign : envelope.origin ≠ before.ownId) (skips : Skips before envelope)
      (advanced : before.heads.advance (headOf envelope) = .ok heads) :
      Applied before envelope { before with heads } none
  | refused (err : Error) (foreign : envelope.origin ≠ before.ownId) : Applied before envelope before (some err)
  | unassigned {after : Storage lib} (err : Error) (foreign : envelope.origin ≠ before.ownId)
      (invalid : before.heads.advance (headOf envelope) = .error err)
      (saved : Saved before after envelope.block none) (heads : after.heads = before.heads)
      (commits : ∃ placed, (before.sync.commitForeign envelope.block).2 = .ok placed) :
      Applied before envelope after (some err)
  | committed {after : Storage lib} (foreign : envelope.origin ≠ before.ownId)
      (fresh : ∀ row ∈ before.sync.log.records.rows, row.tag ≠ envelope.block.tag)
      (accepted : ∃ type, before.sync.evaluateForeign envelope.block = .ok ⟨none, type⟩)
      (saved : Saved before after envelope.block (some { envelope }))
      (advanced : before.heads.advance (headOf envelope) = .ok after.heads) :
      Applied before envelope after none

section

variable (storage : Storage lib) (envelope : lib.Envelope)

/-- Applying an admitted envelope has one of the listed outcomes. -/
theorem applyAdmitted_applied :
    Applied storage envelope (storage.applyAdmitted envelope).1 (storage.applyAdmitted envelope).2 := by
  unfold applyAdmitted
  by_cases foreign : envelope.origin = storage.ownId
  · rw [if_pos foreign]
    exact .own foreign
  rw [if_neg foreign]
  have move : Skips storage envelope → Applied storage envelope (storage.advanceHead (headOf envelope)).1
      (storage.advanceHead (headOf envelope)).2 := by
    intro skips
    unfold advanceHead
    cases advanced : storage.heads.advance (headOf envelope) with
    | error err => exact .refused err foreign
    | ok heads => exact .skipped foreign skips advanced
  by_cases held : (storage.sync.log.records.findTag envelope.block.tag).isSome = true
  · rw [if_pos held]
    exact move (Or.inl held)
  rw [if_neg held]
  unfold ChainSync.commitForeign
  rcases ChainSync.commitWith_cases storage.sync (storage.sync.evaluateForeign envelope.block) envelope.block with
    ⟨err, refused, reason⟩ | ⟨type, saved, placed, verdict, done, committed⟩
  · rw [refused]
    dsimp only
    by_cases skipped : foreignRecordSkipped err = true
    · rw [if_pos skipped]
      apply move
      rcases reason with failed | ⟨type, verdict⟩ | ⟨type, -, failed⟩
      · rw [ChainSync.evaluateForeign_error failed] at skipped
        simp [foreignRecordSkipped, permanentRejection] at skipped
      · exact Or.inr ⟨err, type, verdict, skipped⟩
      · rcases ChainSync.setAndSaveBlock_error failed with code | code | code <;>
          simp [foreignRecordSkipped, permanentRejection, code] at skipped
    · rw [if_neg skipped]
      exact .refused err foreign
  · rw [committed]
    have fresh : ∀ row ∈ storage.sync.log.records.rows, row.tag ≠ envelope.block.tag := by
      apply RecordStorage.findTag_eq_none_iff.mp
      simpa using held
    obtain ⟨placedEq, row, head, config, keys⟩ := ChainSync.setAndSaveBlock_ok done
    unfold advanceHead
    cases advanced : storage.heads.advance (headOf envelope) with
    | error err =>
      have moved : storage.heads.advance ⟨envelope.origin, envelope.term, lib.blockId envelope.block⟩ =
        .error err := advanced
      simp only [moved]
      refine .unassigned err foreign advanced ⟨⟨rfl, rfl, rfl, config, keys⟩, ?_, ?_⟩ rfl
        ⟨placed, by rw [ChainSync.commitForeign, committed]⟩
      · rw [placedEq] at row
        exact row
      · rw [← placedEq]
        exact head
    | ok heads =>
      have moved : storage.heads.advance ⟨envelope.origin, envelope.term, lib.blockId envelope.block⟩ =
        .ok heads := advanced
      obtain ⟨records, stored, savedRow⟩ := saved_storeAssignment done envelope
      have sameTag : envelope.block.tag = placed.tag := by rw [placedEq]; rfl
      simp only [moved, sameTag, stored]
      exact .committed foreign fresh ⟨type, verdict⟩
        ⟨⟨rfl, rfl, rfl, config, keys⟩, savedRow.row, savedRow.head⟩ advanced

/-- A foreign envelope is refused with at most new evidence, or admitted with the storage unchanged. -/
theorem admitForeign_cases :
    (∃ evidence err, storage.admitForeign envelope = ({ storage with evidence }, some err)) ∨
    (storage.admitForeign envelope = (storage, none) ∧
      (∃ keys, storage.sync.keys = some keys ∧ storage.verifyEnvelope keys envelope = none) ∧
      (storage.sync.log.records.originBlockHash envelope.origin envelope.block.sequence = [] ∨
        storage.sync.log.records.originBlockHash envelope.origin envelope.block.sequence =
          lib.hash envelope.block)) := by
  unfold admitForeign
  split
  · exact Or.inl ⟨storage.evidence, _, rfl⟩
  split
  · exact Or.inl ⟨storage.evidence, _, rfl⟩
  rename_i keys known
  split
  · exact Or.inl ⟨storage.evidence, _, rfl⟩
  rename_i verified
  split
  · exact Or.inl ⟨storage.evidence, _, rfl⟩
  dsimp only
  split
  · left
    split
    · unfold noteEvidence
      split
      · exact ⟨_, _, rfl⟩
      · exact ⟨storage.evidence, _, rfl⟩
    · exact ⟨storage.evidence, _, rfl⟩
  · rename_i same
    right
    refine ⟨rfl, ⟨keys, known, verified⟩, ?_⟩
    by_cases none : storage.sync.log.records.originBlockHash envelope.origin envelope.block.sequence = []
    · exact Or.inl none
    · exact Or.inr (not_not.mp fun different => same ⟨none, different⟩)

/-- A foreign envelope is refused with at most new evidence, or applied. -/
theorem applyForeign_cases :
    (∃ evidence err, storage.applyForeign envelope = ({ storage with evidence }, some err)) ∨
    ∃ after report, storage.applyForeign envelope = (after, report) ∧ storage.admitForeign envelope = (storage, none) ∧
      Applied storage envelope after report := by
  unfold applyForeign
  rcases admitForeign_cases storage envelope with ⟨evidence, err, refused⟩ | ⟨admitted, -⟩
  · left
    exact ⟨evidence, err, by rw [refused]⟩
  · right
    rw [admitted]
    exact ⟨_, _, rfl, rfl, applyAdmitted_applied storage envelope⟩

end

variable {row : Row lib} {envelope : lib.Envelope}

/-- A commit keeps every record of the log. -/
theorem mem_commitBlock (inside : row ∈ storage.sync.log.records.rows) :
    row ∈ (storage.commitBlock block).1.sync.log.records.rows := by
  obtain ⟨err, refused⟩ | ⟨placed, type, -, -, -, saved, -⟩ := commitBlock_saved storage block
  · rwa [refused]
  · exact saved.mem_of_mem inside

/-- A foreign envelope keeps every record of the log. -/
theorem mem_applyForeign (inside : row ∈ storage.sync.log.records.rows) :
    row ∈ (storage.applyForeign envelope).1.sync.log.records.rows := by
  obtain ⟨evidence, err, refused⟩ | ⟨after, report, result, -, applied⟩ := applyForeign_cases storage envelope
  · rwa [refused]
  rw [result]
  cases applied with
  | own | skipped | refused => exact inside
  | unassigned _ _ _ saved | committed _ _ _ saved => exact saved.mem_of_mem inside

end Storage

namespace StorageHeads

variable {head : OriginHead}

theorem mem_put {other : OriginHead} {entries : List OriginHead} (inside : other ∈ put head entries) :
    other = head ∨ other ∈ entries := by
  induction entries with
  | nil => simpa [put] using inside
  | cons first rest ih =>
    simp only [put] at inside
    split at inside
    · rcases List.mem_cons.mp inside with same | later
      · exact Or.inl same
      · exact Or.inr (by simp [later])
    · split at inside
      · rcases List.mem_cons.mp inside with same | later
        · exact Or.inl same
        · exact Or.inr later
      · rcases List.mem_cons.mp inside with same | later
        · exact Or.inr (by simp [same])
        · rcases ih later with same | old
          · exact Or.inl same
          · exact Or.inr (by simp [old])

/-- An advance puts a newer valid head, or keeps the heads. -/
theorem advance_ok {heads advanced : StorageHeads} (done : heads.advance head = .ok advanced) :
    (head.origin ≠ [] ∧ head.block.isValid = true) ∧
    ((heads.newer head = true ∧ advanced = ⟨put head heads.entries⟩) ∨
      (heads.newer head = false ∧ advanced = heads)) := by
  unfold advance at done
  split at done
  · cases done
  rename_i valid
  simp only [not_or, Bool.not_eq_true, Bool.not_eq_false'] at valid
  refine ⟨⟨valid.1, by simpa using valid.2⟩, ?_⟩
  split at done
  · rename_i newer
    exact Or.inl ⟨newer, by simpa using done.symm⟩
  · rename_i older
    exact Or.inr ⟨by simpa using older, by simpa using done.symm⟩

end StorageHeads

end SpSync
