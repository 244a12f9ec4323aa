import SpSync.Proof.Engine.Moves

namespace SpSync.Engine

open Foundation

variable {lib : Securepath} {engine : Engine lib} {A B : Type}

/-- The fetches that the engine sent, each with its handle and its start. -/
def fetches (engine : Engine lib) : List (Nat × SequenceNumber) :=
  engine.requests.filterMap fun sent =>
    match sent.2 with
    | .fetch first _ => some (sent.1, first)
    | _ => none

/-- The step sends no fetch and remembers the same starts. -/
structure Unasked (engine next : Engine lib) : Prop where
  fetches : next.fetches = engine.fetches
  starts : next.fetchStarts = engine.fetchStarts
  later : engine.callId ≤ next.callId

theorem Unasked.refl (engine : Engine lib) : engine.Unasked engine :=
  ⟨rfl, rfl, Nat.le_refl _⟩

/-- Steps that ask nothing compose. -/
theorem Unasked.trans {middle last : Engine lib} (first : engine.Unasked middle) (second : middle.Unasked last) :
    engine.Unasked last :=
  ⟨second.fetches.trans first.fetches, second.starts.trans first.starts, Nat.le_trans first.later second.later⟩

/-- A step that leaves the requests and the starts asks nothing. -/
theorem Unasked.of_same {next : Engine lib} (requests : next.requests = engine.requests)
    (starts : next.fetchStarts = engine.fetchStarts) (callId : next.callId = engine.callId) : engine.Unasked next :=
  ⟨by rw [Engine.fetches, Engine.fetches, requests], starts, Nat.le_of_eq callId.symm⟩

/-- The effect sends no fetch, from whatever engine it starts. -/
abbrev AsksNothing (effect : EngineEffect lib A) : Prop :=
  Effect.Always Unasked effect

theorem AsksNothing.final {effect : EngineEffect lib A} (asks : AsksNothing effect) (engine : Engine lib) :
    engine.Unasked (effect.final engine) :=
  (asks engine).keeps engine.Unasked (fun _ _ step before => before.trans step) (.refl engine)

/-- Drawing random octets and making blocks asks nothing. -/
theorem asksNothing_drafting {effect : EngineEffect lib A} (drafting : ∀ {engine}, Drafting effect engine) :
    AsksNothing effect := by
  intro engine
  refine drafting.mono ?_
  rintro before _ ⟨drawn, made, rfl, -⟩
  exact .of_same rfl rfl rfl

section Pump

/-- A write of the records asks for no fetch. -/
theorem asksNothing_writeRecords (write : RecordStorage lib → Except Error (RecordStorage lib)) :
    AsksNothing (writeRecords write) := by
  refine .get_bind fun engine => ?_
  split
  · exact .modify fun _ => .of_same rfl rfl rfl
  · exact .throw _

/-- A request that is no fetch asks for no records. -/
theorem asksNothing_request {asked : Request lib} (other : ∀ first last, asked ≠ .fetch first last) :
    AsksNothing (request asked) := by
  refine .get_set (fun engine => ⟨?_, rfl, Nat.le_succ _⟩) fun _ => .pure _
  unfold fetches
  rw [List.filterMap_append]
  cases asked with
  | sequenceNumber => exact List.append_nil _
  | fetch first last => exact absurd rfl (other first last)
  | commit block => exact List.append_nil _

theorem asksNothing_updateServerSeq (sequence : SequenceNumber) :
    AsksNothing (updateServerSeq sequence : EngineEffect lib Unit) :=
  .modify fun _ => .of_same rfl rfl rfl

theorem asksNothing_commitRecord (row : Row lib) : AsksNothing (commitRecord row) := by
  refine .get_bind fun engine => .ite (.pure _) ?_
  exact .bind (asksNothing_request nofun) fun _ => .modify fun _ => .of_same rfl rfl rfl

theorem asksNothing_dropRow (row : Row lib) : AsksNothing (dropRow row) :=
  asksNothing_writeRecords _

theorem asksNothing_rebuild (row : Row lib) (hasConflicts : Bool) : AsksNothing (rebuild row hasConflicts) := by
  refine .bind (asksNothing_drafting (drafting_updatePendingCommit _ _)) fun block => ?_
  cases block with
  | some block => exact .bind (asksNothing_writeRecords _) fun _ => .pure _
  | none => exact .bind (.pure _) fun _ => .pure _

theorem asksNothing_rebaseIfNeeded (row : Row lib) (record : Record) (hasConflicts : Bool) :
    AsksNothing (rebaseIfNeeded row record hasConflicts) := by
  refine .get_bind fun engine => .ite (.tryCatch (asksNothing_rebuild row hasConflicts) fun _ => ?_) (.pure _)
  exact .bind (asksNothing_dropRow row) fun _ => .pure _

/-- By induction on the fuel, one row each turn. -/
theorem asksNothing_commitPendingFrom (fuel : Nat) (next : Option (Row lib)) :
    AsksNothing (commitPendingFrom fuel next) := by
  induction fuel generalizing next with
  | zero => exact .pure _
  | succ fuel ih =>
    cases next with
    | none => exact .pure _
    | some row =>
      refine .bind (asksNothing_drafting (drafting_deserialiseRecord _)) fun record => ?_
      refine .get_bind fun engine => .get_bind fun _ => ?_
      refine .ite (.bind (asksNothing_dropRow row) fun _ => .get_bind fun _ => ih _) ?_
      refine .bind (asksNothing_rebaseIfNeeded row record _) fun rebased => .ite (.get_bind fun _ => ih _) ?_
      exact .get_bind fun _ => .ite (ih _) (asksNothing_commitRecord _)

theorem asksNothing_tryCommitPending : AsksNothing (tryCommitPending : EngineEffect lib Unit) :=
  .get_bind fun _ => .ite (asksNothing_commitPendingFrom _ _) (.pure _)

theorem asksNothing_createAndCommit (lastSeen : ChainBlockId) (body : RecordBody) (headers : List Octets) :
    AsksNothing (createAndCommit lastSeen body headers : EngineEffect lib Unit) := by
  refine .get_bind fun _ => .bind (asksNothing_drafting (drafting_ofExcept _)) fun _ => ?_
  refine .bind (asksNothing_drafting (drafting_makeRecord _ _ _ _ _)) fun _ => ?_
  refine .bind (.get_bind fun _ => .ite (.throw _) (.pure _)) fun _ => .bind (asksNothing_writeRecords _) fun _ => ?_
  refine .get_bind fun _ => ?_
  split
  · exact asksNothing_commitRecord _
  · exact .pure _

end Pump

section Deliveries

theorem asksNothing_checkChainBlock (block : lib.Block) : AsksNothing (checkChainBlock block) := by
  intro engine
  refine Effect.Steps.get_bind ?_
  split
  · exact .bind (.set (.of_same rfl rfl rfl)) fun _ _ _ => .pure _
  · exact .pure _

theorem asksNothing_clearRejections : AsksNothing (clearRejections : EngineEffect lib Unit) :=
  .modify fun _ => .of_same rfl rfl rfl

theorem asksNothing_eraseRejection (tag : RecordTag) : AsksNothing (eraseRejection tag : EngineEffect lib Unit) :=
  .modify fun _ => .of_same rfl rfl rfl

theorem asksNothing_updateRecordCommitState (row : Row lib) (block : lib.Block) (id : ChainBlockId) :
    AsksNothing (updateRecordCommitState row block id) := by
  refine .ite (.pure _) (.bind (asksNothing_checkChainBlock block) fun state => ?_)
  exact .ite (asksNothing_writeRecords _) (asksNothing_dropRow row)

theorem asksNothing_promotePending (fuel : Nat) (id : ChainBlockId) :
    AsksNothing (promotePending fuel id : EngineEffect lib Unit) := by
  induction fuel generalizing id with
  | zero => exact .pure _
  | succ fuel ih =>
    refine .get_bind fun engine => ?_
    split
    · exact .pure _
    · exact .ite (.bind (asksNothing_writeRecords _) fun _ => ih _) (.pure _)

theorem asksNothing_promotePreAnchorRecords (id : ChainBlockId) :
    AsksNothing (promotePreAnchorRecords id : EngineEffect lib Unit) :=
  .get_bind fun _ => .ite (.forM (fun _ => asksNothing_writeRecords _) _) (.pure _)

theorem asksNothing_checkFork (record : Record) : AsksNothing (checkFork record : EngineEffect lib Unit) := by
  intro engine
  refine Effect.Steps.get_bind ?_
  dsimp only
  split
  · split
    · split
      · exact .set (.of_same rfl rfl rfl)
      · exact .pure _
    · exact .pure _
  · exact .pure _

theorem asksNothing_verifyBlock (key : EncryptionKey) (block : lib.Block) (id : ChainBlockId) (record : Record) :
    AsksNothing (verifyBlock key block id record) := by
  have stored : AsksNothing (handleBlockChain block) :=
    .bind (asksNothing_checkChainBlock block) fun _ => .bind (asksNothing_writeRecords _) fun _ => .pure _
  refine .ite (.bind (asksNothing_checkFork record) fun _ => .bind (asksNothing_updateServerSeq _) fun _ => ?_) (.pure _)
  refine .bind stored fun inSync => .ite (.bind (asksNothing_promotePreAnchorRecords id) fun _ => ?_) (.pure _)
  refine .bind (.get_bind fun _ => asksNothing_promotePending _ id) fun _ => .get_bind fun _ => ?_
  exact .ite asksNothing_tryCommitPending (.pure _)

theorem asksNothing_retryRow (row : Row lib) : AsksNothing (retryRow row) := by
  refine .bind (asksNothing_drafting (drafting_deserialiseRecord _)) fun record => .get_bind fun engine => ?_
  split
  · exact .pure _
  · refine .ite (.pure _) (.bind (.modify fun _ => .of_same rfl rfl rfl) fun _ => ?_)
    refine .bind (asksNothing_checkChainBlock _) fun state => .ite ?_ (.pure _)
    exact .bind (asksNothing_writeRecords _) fun _ => .pure _

theorem asksNothing_retryRows (rows : List (Row lib)) : AsksNothing (retryRows rows) := by
  induction rows with
  | nil => exact .pure _
  | cons row rest ih => exact .bind (asksNothing_retryRow row) fun _ => .bind ih fun _ => .pure _

theorem asksNothing_retryPending (fuel : Nat) : AsksNothing (retryPending fuel : EngineEffect lib Unit) := by
  induction fuel with
  | zero => exact .pure _
  | succ fuel ih => exact .get_bind fun _ => .bind (asksNothing_retryRows _) fun _ => .ite ih (.pure _)

/-- A handled block asks for no fetch. -/
theorem asksNothing_handleBlock (block : lib.Block) (id : ChainBlockId) (record : Record) :
    AsksNothing (handleBlock block id record) := by
  refine .get_set (fun _ => .of_same rfl rfl rfl) fun engine => .bind ?_ fun _ => ?_
  · unfold storeBlock
    split
    · exact asksNothing_verifyBlock _ _ _ _
    · exact asksNothing_writeRecords _
  · exact .ite (.get_bind fun _ => asksNothing_retryPending _) (.pure _)

theorem asksNothing_adoptCommitted (own : Row lib) (block : lib.Block) (id : ChainBlockId) :
    AsksNothing (adoptCommitted own block id) := by
  refine .bind (asksNothing_checkChainBlock block) fun state => .ite ?_ (.pure _)
  exact .bind (asksNothing_writeRecords _) fun _ => asksNothing_writeRecords _

theorem asksNothing_storeAssignment (tag : RecordTag) (envelope : Option lib.Envelope) :
    AsksNothing (storeAssignment tag envelope) := by
  refine .get_bind fun engine => ?_
  split
  · exact asksNothing_writeRecords _
  · exact .pure _

/-- A received record asks for no fetch by itself. -/
theorem asksNothing_takeRecord (block : lib.Block) (id : ChainBlockId) : AsksNothing (takeRecord block id) := by
  refine .get_bind fun engine => ?_
  split
  · refine .bind asksNothing_clearRejections fun _ => ?_
    refine .bind (asksNothing_drafting (drafting_deserialiseRecord block)) fun record => ?_
    refine .get_bind fun _ => ?_
    split
    · exact asksNothing_adoptCommitted _ _ _
    · exact asksNothing_handleBlock _ _ _
  · refine .ite (.bind (asksNothing_updateRecordCommitState _ _ _) fun _ => ?_) (.pure _)
    exact asksNothing_eraseRejection _

/-- A record that the server delivers starts no fetch. -/
theorem asksNothing_handleIncomingRecord (block : lib.Block) (envelope : Option lib.Envelope) :
    AsksNothing (handleIncomingRecord block envelope) := by
  refine .get_bind fun engine => .ite (.bind (asksNothing_takeRecord _ _) fun _ => ?_) (.pure _)
  exact asksNothing_storeAssignment _ _

/-- The end of a fetch asks for no other. -/
theorem asksNothing_onFetchComplete : AsksNothing (onFetchComplete : EngineEffect lib Unit) :=
  .get_bind fun _ => .ite (.bind asksNothing_clearRejections fun _ => asksNothing_tryCommitPending) (.pure _)

end Deliveries

end SpSync.Engine
