import SpSync.Proof.Engine.SentForms

namespace SpSync

open Foundation RecordStorage

variable {lib : Securepath}

/-- The application changes an object, changes users by a delta, or ends a segment. -/
inductive EngineEvent.Creates : EngineEvent lib → Prop
  | objectChange (oid : ObjectId) (header : Octets) (data : Option DataDescriptor) :
      Creates (.syncObjectChange oid header data)
  | userChange {data : PlainUserChangeData} (header : Octets) (delta : data.access.mode = .delta) :
      Creates (.syncUserChange data header)
  | segmentEnd (header : Octets) : Creates (.syncSegmentEnd header)

/-- The client created the block on an older state of the storage, and may have rebuilt it since. -/
inductive Drafted (records : RecordStorage lib) : lib.Block → Prop
  | made {old : Engine lib} {event : EngineEvent lib} {block : lib.Block} (older : records.Includes old.records)
      (creates : event.Creates) (created : (old.step event).created = old.created ++ [block]) : Drafted records block
  | rebuilt {old next : Engine lib} {block again : lib.Block} {hasConflicts : Bool} (drafted : Drafted records block)
      (older : records.Includes old.records)
      (done : (Engine.updatePendingCommit block hasConflicts).run old = .ok (some again) next) : Drafted records again

/-- What a created record holds: one change that follows a record of its object or adds it, a delta of
users, or the segment of an older state. -/
inductive Shape (records : RecordStorage lib) (record : Record) : Prop
  | data {change : PlainSingleChangeData} (body : record.body = .dataChange [change])
      (known : change.previousOidRecordTag ≠ [] → (records.findLastObject change.id).isSome = true) :
      Shape records record
  | user {data : PlainUserChangeData} (body : record.body = .userChange data) (delta : data.access.mode = .delta) :
      Shape records record
  | segment {old : Engine lib} {data : PlainSegmentData} (body : record.body = .segment data)
      (older : records.Includes old.records) (lastSeen : record.base.lastSeenBlock = old.records.lastBlock)
      (made : old.makeSegmentData old.records.lastBlock = .ok data) : Shape records record

/-- An object stays known. -/
theorem RecordStorage.Includes.knows_object {newer older : RecordStorage lib} (includes : newer.Includes older)
    {oid : ObjectId} (known : (older.findLastObject oid).isSome = true) :
    (newer.findLastObject oid).isSome = true := by
  rw [findLastObject_eq] at known ⊢
  obtain ⟨row, found⟩ := Option.isSome_iff_exists.mp known
  obtain ⟨⟨inside, inSync, changes⟩, _⟩ := newest_eq_some_iff.mp found
  obtain ⟨kept, keptIn, keptInSync, same⟩ := mem_chain.mp (includes _ (mem_chain.mpr ⟨row, inside, inSync, rfl⟩))
  cases missing : newer.newest _ with
  | some newest => rfl
  | none =>
    have absent := newest_eq_none_iff.mp missing kept keptIn keptInSync
    rw [same, changes] at absent
    cases absent

namespace Engine

variable {engine : Engine lib} {records : RecordStorage lib} {record : Record} {block : lib.Block}

/-- The step makes no block. -/
def SameBlocks (engine next : Engine lib) : Prop :=
  next.created = engine.created

theorem created_final {A : Type} {effect : EngineEffect lib A} (steps : Effect.Steps SameBlocks effect engine) :
    (effect.final engine).created = engine.created :=
  steps.keeps (SameBlocks engine) (fun _ _ step before => step.trans before) rfl

theorem sameBlocks_commitRecord (row : Row lib) : Effect.Steps SameBlocks (commitRecord row) engine := by
  refine .get_bind ?_
  split
  · exact .pure _
  · exact .bind (.get_bind (.bind (.set rfl) fun _ _ _ => .pure _)) fun _ _ _ => .modify rfl

/-- A local change makes one block. -/
theorem created_createAndCommit (law : lib.RoundTrips) {lastSeen : ChainBlockId} {body : RecordBody}
    {headers : List Octets}
    (created : ((createAndCommit lastSeen body headers).final engine).created = engine.created ++ [block]) :
    ∃ record, lib.deserialise block.record = some record ∧ record.base.lastSeenBlock = lastSeen ∧
      record.body = body := by
  unfold createAndCommit at created
  rw [Effect.final_bind_ok (Effect.run_get engine)] at created
  cases current : engine.keys.currentKey with
  | error err =>
    rw [Effect.final_bind_error (by rw [current]; rfl)] at created
    simp at created
  | ok key =>
    obtain ⟨drawn, signer, iv, operation, ran⟩ := run_makeRecord engine key lastSeen [] body headers
    rw [Effect.final_bind_ok (by rw [current]; rfl), Effect.final_bind_ok ran, created_final] at created
    · simp only [List.append_cancel_left_eq, List.cons.injEq, and_true] at created
      subst created
      exact ⟨_, law _, rfl, rfl⟩
    · -- The rest of the call makes no more blocks.
      refine .bind (.get_bind ?_) fun _ _ _ => .bind (steps_writeRecords fun _ _ => rfl) fun _ _ _ => .get_bind ?_
      · split
        · exact .throw _
        · exact .pure _
      · split
        · exact sameBlocks_commitRecord _
        · exact .pure _

/-- A state without pending commits has one last block. -/
theorem lastBlock_of_settled (settled : records.findFirstPendingCommit = none) :
    records.lastBlock true = records.lastBlock := by
  have candidates : ∀ row ∈ records.rows, isHeadCandidate true row = isHeadCandidate false row := by
    intro row inside
    have waits : row.state ≠ .pendingCommit := by simpa using List.find?_eq_none.mp settled row inside
    simp [isHeadCandidate, waits]
  have highest : maxSequence records.rows (isHeadCandidate true) = maxSequence records.rows (isHeadCandidate false) := by
    unfold maxSequence
    rw [List.filter_congr candidates]
  unfold lastBlock findLast
  rw [highest]
  congr 2
  apply List.filter_congr
  intro row inside
  rw [candidates row inside]

theorem baseBlock_of_settled (settled : engine.records.findFirstPendingCommit = none) :
    engine.baseBlock = engine.records.lastBlock := by
  unfold baseBlock
  cases decide (engine.config.mode = .requireAllSeen) <;> simp [lastBlock_of_settled settled]

/-- What the client creates on an older state. -/
theorem shape_of_made (law : lib.RoundTrips) {event : EngineEvent lib} (older : records.Includes engine.records)
    (creates : event.Creates) (created : (engine.step event).created = engine.created ++ [block]) :
    ∃ record, lib.deserialise block.record = some record ∧ Shape records record := by
  have unchanged : engine.created ≠ engine.created ++ [block] := by simp
  unfold step at created
  cases creates with
  | objectChange oid header data =>
    unfold handle syncObjectChange at created
    rw [Effect.final_bind_ok (Effect.run_get engine)] at created
    dsimp only at created
    split at created
    · exact absurd created unchanged
    obtain ⟨record, parsed, _, body⟩ := created_createAndCommit law created
    refine ⟨record, parsed, .data body ?_⟩
    intro follows
    apply older.knows_object
    cases found : engine.records.findLastObject oid with
    | some row => rfl
    | none => simp [found] at follows
  | userChange header delta =>
    unfold handle syncUserChange at created
    rw [Effect.final_bind_ok (Effect.run_get engine)] at created
    obtain ⟨record, parsed, _, body⟩ := created_createAndCommit law created
    exact ⟨record, parsed, .user body delta⟩
  | segmentEnd header =>
    unfold handle syncSegmentEnd at created
    rw [Effect.final_bind_ok (Effect.run_get engine)] at created
    dsimp only at created
    split at created
    · exact absurd created unchanged
    split at created
    · exact absurd created unchanged
    rename_i settled
    have base := baseBlock_of_settled (Option.not_isSome_iff_eq_none.mp settled)
    cases made : engine.makeSegmentData engine.baseBlock with
    | error err =>
      have failed : (ofExcept (.error err) : EngineEffect lib PlainSegmentData).run engine =
        .error err engine := rfl
      rw [made, Effect.final_bind_error failed] at created
      exact absurd created unchanged
    | ok data =>
      have done : (ofExcept (.ok data) : EngineEffect lib PlainSegmentData).run engine = .ok data engine := rfl
      rw [made, Effect.final_bind_ok done] at created
      obtain ⟨record, parsed, lastSeen, body⟩ := created_createAndCommit law created
      rw [base] at made lastSeen
      exact ⟨record, parsed, .segment body older lastSeen made⟩

/-- A rebuilt record keeps its shape. -/
theorem Shape.rebuilt (older : records.Includes engine.records) {content : Record} (shape : Shape records record)
    (form : engine.Rebuilt record content) : Shape records content := by
  have body := form.body
  cases shape with
  | @data change original known =>
    rw [original] at body
    simp only [rebasedBody, List.map_cons, List.map_nil, Except.ok.injEq] at body
    refine .data body.symm ?_
    unfold rebaseChange
    cases conflict : engine.conflictOf change with
    | none => exact known
    | some current =>
      intro _
      apply older.knows_object
      unfold conflictOf at conflict
      split at conflict
      · cases conflict
      · cases found : engine.records.findLastObject change.id with
        | some row => rfl
        | none => simp [found] at conflict
  | user original delta =>
    rw [original] at body
    exact .user (Except.ok.inj body).symm delta
  | segment original _ _ _ =>
    rw [original, rebasedBody] at body
    cases made : engine.makeSegmentData engine.records.lastBlock with
    | error err => simp [made, Except.map] at body
    | ok data =>
      rw [made] at body
      exact .segment (Except.ok.inj body).symm older form.lastSeen made

end Engine

/-- Every created record has the shape of one, also after it was rebuilt. -/
theorem Drafted.shape (law : lib.RoundTrips) {records : RecordStorage lib} {block : lib.Block}
    (drafted : Drafted records block) : ∃ record, lib.deserialise block.record = some record ∧ Shape records record := by
  induction drafted with
  | made older creates created => exact Engine.shape_of_made law older creates created
  | rebuilt _ older done ih =>
    obtain ⟨record, parsed, shape⟩ := ih
    obtain ⟨again, content, parsedAgain, contentParsed, form⟩ := Engine.updatePendingCommit_rebuilt law done
    obtain rfl : record = again := Option.some.inj (parsed.symm.trans parsedAgain)
    exact ⟨content, contentParsed, Engine.Shape.rebuilt older shape form⟩

end SpSync
