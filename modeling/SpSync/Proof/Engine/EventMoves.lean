import SpSync.Foundation.Run
import SpSync.Proof.Engine.Deliveries

namespace SpSync

open Foundation RecordStorage

variable {lib : Securepath}

namespace Engine

variable {permits : Entry lib → Prop} {brings : lib.Block → Prop} {engine : Engine lib} {A : Type}

theorem still_fetchFrom (first last : SequenceNumber) : Still (fetchFrom first last) engine :=
  .bind (still_request (.fetch first last) nofun) fun _ _ _ => .modify (.of_core rfl rfl)

/-- A fetch of what is missing is only asked for. -/
theorem still_fetchMissing : Still fetchMissing engine := by
  refine .get_bind ?_
  dsimp only
  split
  · exact .bind (still_fetchFrom _ _) fun _ _ _ => .pure _
  · exact .pure _

theorem still_fetchProgressed (handle : Nat) (lastReceived : SequenceNumber) :
    Still (fetchProgressed handle lastReceived) engine :=
  .get_bind (.bind (.set (.of_core rfl rfl)) fun _ _ _ => .pure _)

section

variable (tag : RecordTag)

theorem still_markRejected (duplicate : Bool) : Still (markRejected tag duplicate) engine := by
  refine .modify ?_
  split
  · exact .refl engine
  · split
    · exact .refl engine
    · exact .of_core rfl rfl

theorem still_learnLimits (reported : StorageLimits) : Still (learnLimits reported) engine := by
  refine .modify ?_
  split
  · exact .of_core rfl rfl
  · exact .refl engine

theorem still_takeInFlight (handle : Nat) : Still (takeInFlight handle) engine :=
  .get_bind (.bind (.set (.of_core rfl rfl)) fun _ _ _ => .pure _)

theorem still_clearPushing (handle : Nat) : Still (clearPushing handle) engine := by
  refine .modify ?_
  split
  · exact .of_core rfl rfl
  · exact .refl engine

theorem still_onEquivocation (verifies : Bool) : Still (onEquivocation verifies) engine := by
  refine .modify ?_
  split
  · exact ⟨⟨rfl, rfl, List.Subset.refl _, List.Subset.refl _, rfl, fun _ => rfl, Or.inl rfl, fun _ => Or.inl⟩, rfl⟩
  · exact .refl engine

/-- A rejected duplicate is dropped when its twin is confirmed. -/
theorem works_resolveRejected (entry : RecordTag × Rejection) : Works (resolveRejected entry) engine := by
  refine .get_bind ?_
  split
  · exact .pure _
  rename_i row found
  split
  · exact .pure _
  rename_i pending
  rw [ne_eq, not_not] at pending
  have rowPending : engine.Pending row := ⟨(findTag_eq_some_iff.mp found).1, pending⟩
  split
  · exact .pure _
  refine .bind (drafting_deserialiseRecord _).still.works ?_
  intro record reached done
  obtain ⟨_, rfl⟩ := deserialiseRecord_ok done
  refine .get_bind ?_
  split
  · exact .pure _
  · split
    · exact .bind (works_dropRow rowPending.1 rowPending.unconfirmed) fun _ _ _ => .pure _
    · exact .pure _

theorem works_resolveRejectedDuplicates : Works resolveRejectedDuplicates engine := by
  refine .get_bind (.forM (fun _ _ => True) ?_ _ _ trivial)
  intro entry rest reached _
  refine ⟨.bind (works_resolveRejected entry) ?_, fun _ _ => trivial⟩
  intro resolved _ _
  split
  · exact (still_eraseRejection _).works
  · exact .pure _

theorem works_onDuplicateRejected : Works (onDuplicateRejected tag) engine := by
  refine .bind (still_markRejected _ _).works ?_
  intro _ _ _
  refine .bind still_fetchMissing.works ?_
  intro behind _ _
  split
  · exact .bind works_resolveRejectedDuplicates fun _ _ _ => works_tryCommitPending
  · exact .pure _

theorem works_dropPending : Works (dropPending tag) engine := by
  refine .get_bind ?_
  split
  · rename_i row found
    split
    · rename_i pending
      have rowPending : engine.Pending row := ⟨(findTag_eq_some_iff.mp found).1, pending⟩
      exact works_dropRow rowPending.1 rowPending.unconfirmed
    · exact .pure _
  · exact .pure _

theorem works_onOutOfSyncRejected : Works (onOutOfSyncRejected tag) engine := by
  refine .bind still_fetchMissing.works ?_
  intro behind _ _
  split
  · exact .bind (still_markRejected _ _).works fun _ _ _ => works_tryCommitPending
  · exact .pure _

/-- A rejection is noted and then resolved. -/
theorem works_onCommitRejected (err : Error) (serverMaxSequence : SequenceNumber) :
    Works (onCommitRejected tag err serverMaxSequence) engine := by
  refine .bind (still_updateServerSeq _).works ?_
  intro _ _ _
  split
  · exact works_onOutOfSyncRejected tag
  split
  · exact works_onDuplicateRejected tag
  · split
    · exact .bind (works_dropPending tag) fun _ _ _ => works_tryCommitPending
    · exact .bind (still_markRejected _ _).works fun _ _ _ => works_tryCommitPending

end

theorem works_onFetchComplete : Works onFetchComplete engine := by
  refine .get_bind ?_
  split
  · exact .bind still_clearRejections.works fun _ _ _ => works_tryCommitPending
  · exact .pure _

/-- A move that sends nothing under the same configuration. -/
structure Shift (permits : Entry lib → Prop) (brings : lib.Block → Prop) (engine next : Engine lib) : Prop where
  move : Move permits brings engine next
  config : next.config = engine.config
  commits : next.commits = engine.commits

/-- The confirmed rows of the list become pending one after the other. -/
theorem shifts_demote (state : RecordState) (confirmed : state.isServerConfirmed = true)
    (weak : engine.config.mode ≠ .requireAllSeen) (permitted : permits .switch) (rows : List (Row lib))
    (all : engine.Stored state rows) :
    Effect.Steps (Shift permits brings)
      (rows.forM fun row => writeRecords fun records => records.setState row.key .pendingCommit) engine := by
  refine .forM (fun rows reached => reached.Stored state rows ∧ reached.config = engine.config) ?_ _ _ ⟨all, rfl⟩
  intro row rest reached ready
  obtain ⟨all, config⟩ := ready
  have inside := all.inside row List.mem_cons_self
  have rowConfirmed : row.state.isServerConfirmed = true := by rw [all.inState row List.mem_cons_self]; exact confirmed
  constructor
  · refine steps_writeRecords ?_
    intro records done
    refine ⟨.change (.demote rowConfirmed ?_ permitted) (setState_replaces inside done), rfl, rfl⟩
    rw [config]
    exact weak
  · intro next done
    obtain ⟨records, written, rfl⟩ := writeRecords_ok done
    refine ⟨all.tail ?_, config⟩
    intro other differs otherIn
    exact (setState_replaces inside written).mem_iff.mpr (Or.inl ⟨otherIn, differs⟩)

theorem config_of_shifts {effect : EngineEffect lib A} {value : A} {reached : Engine lib}
    (shifts : Effect.Steps (Shift permits brings) effect engine) (done : effect.run engine = .ok value reached) :
    reached.config = engine.config := by
  rw [← Effect.final_of_ok done]
  exact shifts.keeps (fun next => next.config = engine.config) (fun _ _ shift before => shift.config.trans before) rfl

theorem shifts_beginReplicaResync (owner : PublicKeyId) (weak : engine.config.mode ≠ .requireAllSeen)
    (permitted : permits .switch) : Effect.Steps (Shift permits brings) (beginReplicaResync owner) engine := by
  have first : Effect.Steps (Shift permits brings) _ engine :=
    shifts_demote .inSync rfl weak permitted _ (stored_findAllInRange engine 1 none .inSync)
  refine .get_bind (.bind first ?_)
  intro _ middle demoted
  have weak : middle.config.mode ≠ .requireAllSeen := by rw [config_of_shifts first demoted]; exact weak
  have second : Effect.Steps (Shift permits brings) _ middle :=
    shifts_demote .acked rfl weak permitted _ (stored_findAllInRange middle 1 none .acked)
  refine .get_bind (.bind second ?_)
  intro _ last acked
  have weak : last.config.mode ≠ .requireAllSeen := by rw [config_of_shifts second acked]; exact weak
  refine Relation.ReflTransGen.tail (.single ⟨.truncate weak permitted, rfl, rfl⟩) ?_
  exact ⟨.quiet (.of_core rfl rfl), rfl, rfl⟩

theorem shifts_checkCursorOwner {serverId : PublicKeyId}
    (permitted : serverId ≠ [] → engine.cursorOwner ≠ [] → engine.cursorOwner ≠ serverId →
      engine.config.mode ≠ .requireAllSeen → permits .switch) :
    Effect.Steps (Shift permits brings) (checkCursorOwner serverId) engine := by
  refine .get_bind ?_
  split
  · exact .pure _
  rename_i named
  split
  · exact .set ⟨.quiet (.of_core rfl rfl), rfl, rfl⟩
  rename_i owned
  split
  · rename_i both
    simp only [ne_eq, Bool.and_eq_true, decide_eq_true_eq] at both
    exact shifts_beginReplicaResync serverId both.2 (permitted named owned both.1 both.2)
  · exact .pure _

/-- The engine went on under the same configuration with all its keys and own blocks. -/
structure Further (start reached : Engine lib) : Prop where
  config : reached.config = start.config
  keys : start.keys.keys ⊆ reached.keys.keys
  created : start.created ⊆ reached.created

theorem Further.refl (engine : Engine lib) : engine.Further engine :=
  ⟨rfl, List.Subset.refl _, List.Subset.refl _⟩

theorem Further.move {start before after : Engine lib} (further : start.Further before)
    (move : Move permits brings before after) : start.Further after := by
  cases move with
  | quiet quiet =>
    exact ⟨quiet.config.trans further.config, List.Subset.trans further.keys quiet.keys,
      List.Subset.trans further.created quiet.created⟩
  | send sends =>
    exact ⟨sends.config.trans further.config, sends.keys ▸ further.keys, sends.created ▸ further.created⟩
  | change | arrive | truncate => exact ⟨further.config, further.keys, further.created⟩

/-- The blocks of an answer are admitted one after the other, each in the state that the others leave. -/
def AdmitsAll (permits : Engine lib → Entry lib → Prop) : Engine lib → List lib.Block → Prop
  | _, [] => True
  | engine, block :: rest => Admits (permits engine) engine block ∧
      ∀ reached, (handleIncomingRecord block none).run engine = .ok () reached → AdmitsAll permits reached rest

/-- What a run has to permit for an event. -/
def AdmitsEvent (permits : Engine lib → Entry lib → Prop) (engine : Engine lib) : EngineEvent lib → Prop
  | .recordReceived block _ => Admits (permits engine) engine block
  | .recordResponse _ response => ∀ blocks, response.data = .ok blocks → AdmitsAll permits engine blocks
  | .commitResponse _ response => ∀ block row, response.data = .ok block → (lib.blockId block).isValid = true →
      engine.records.findTag block.tag = some row → row.state.isServerConfirmed = false →
      block.checkMatchesWithoutServerData row.block = true →
      permits engine (.confirm row block (engine.chainState block))
  | .sequenceNumberResponse result => ∀ info, result = .ok info → info.serverId ≠ [] → engine.cursorOwner ≠ [] →
      engine.cursorOwner ≠ info.serverId → engine.config.mode ≠ .requireAllSeen → permits engine .switch
  | _ => True

/-- The effect first takes steps of the relation, and then works. -/
def Handles (relation : Engine lib → Engine lib → Prop) (effect : EngineEffect lib A) (engine : Engine lib) : Prop :=
  ∃ middle, Relation.ReflTransGen relation engine middle ∧ Relation.ReflTransGen Work middle (effect.final engine)

section Handles

variable {relation : Engine lib → Engine lib → Prop} {effect : EngineEffect lib A}

theorem Handles.of_works (works : Works effect engine) : Handles relation effect engine :=
  ⟨engine, .refl, works⟩

theorem Handles.of_steps (steps : Effect.Steps relation effect engine) : Handles relation effect engine :=
  ⟨_, steps, .refl⟩

/-- Steps of the relation may come first. -/
theorem Handles.bind {B : Type} {next : A → EngineEffect lib B} (first : Effect.Steps relation effect engine)
    (second : ∀ value reached, effect.run engine = .ok value reached → Handles relation (next value) reached) :
    Handles relation (effect >>= next) engine := by
  unfold Effect.Steps Effect.final at first
  unfold Handles Effect.final
  rw [Effect.run_bind]
  cases done : effect.run engine with
  | ok value reached =>
    simp only [done] at first ⊢
    obtain ⟨middle, steps, works⟩ := second value reached done
    exact ⟨middle, first.trans steps, works⟩
  | error err reached =>
    simp only [done] at first ⊢
    exact ⟨reached, first, .refl⟩

theorem Handles.widen {wider : Engine lib → Engine lib → Prop} (handled : Handles relation effect engine)
    (widen : ∀ middle, Relation.ReflTransGen relation engine middle → Relation.ReflTransGen wider engine middle) :
    Handles wider effect engine := by
  obtain ⟨middle, steps, works⟩ := handled
  exact ⟨middle, widen middle steps, works⟩

/-- What the steps keep may turn into something else that the work keeps. -/
theorem Handles.keeps {first last : Engine lib → Prop} (handled : Handles relation effect engine)
    (each : ∀ before after, relation before after → first before → first after)
    (turn : ∀ middle, first middle → last middle)
    (work : ∀ before after, Work before after → last before → last after) (start : first engine) :
    last (effect.final engine) := by
  obtain ⟨middle, steps, works⟩ := handled
  have kept : first middle := by
    clear works
    induction steps with
    | refl => exact start
    | tail _ step ih => exact each _ _ step ih
  have worked : ∀ reached, Relation.ReflTransGen Work middle reached → last reached := by
    intro reached works
    induction works with
    | refl => exact turn middle kept
    | tail _ step ih => exact work _ _ step ih
  exact worked _ works

theorem handles_onSequenceNumberResponse {result : Except Error SequenceInfo}
    (shifts : ∀ info, result = .ok info → Effect.Steps relation (checkCursorOwner info.serverId) engine) :
    Handles relation (onSequenceNumberResponse result) engine := by
  cases result with
  | error err => exact .of_works (.pure _)
  | ok info =>
    refine .bind (shifts info rfl) ?_
    intro _ _ _
    refine .of_works (.bind (still_updateServerSeq _).works fun _ _ _ => .bind (still_learnLimits _).works ?_)
    intro _ _ _
    refine .bind still_fetchMissing.works ?_
    intro behind _ _
    split
    · exact works_tryCommitPending
    · exact .pure _

/-- A record response delivers its blocks and then works. -/
theorem handles_onRecordResponse {handle : Nat} {response : RecordResponse lib}
    (delivers : ∀ blocks, response.data = .ok blocks →
      Effect.Steps relation (blocks.forM fun block => handleIncomingRecord block none) engine) :
    Handles relation (onRecordResponse handle response) engine := by
  unfold onRecordResponse
  split
  · exact .of_works (.pure _)
  rename_i blocks answer
  split
  · exact .of_works works_onFetchComplete
  refine .bind (delivers blocks answer) ?_
  intro _ _ _
  refine .of_works ?_
  split
  · refine .bind (still_fetchProgressed _ _).works ?_
    intro progressed _ _
    split
    · exact (still_fetchFrom _ _).works
    · exact works_onFetchComplete
  · exact works_onFetchComplete

end Handles

/-- A commit response adopts its block and then works. -/
theorem handles_onCommitResponse {handle : Nat} {response : CommitResponse lib}
    (permitted : ∀ block row, response.data = .ok block → (lib.blockId block).isValid = true →
      engine.records.findTag block.tag = some row → row.state.isServerConfirmed = false →
      block.checkMatchesWithoutServerData row.block = true →
      permits (.confirm row block (engine.chainState block))) :
    Handles (Delivery permits brings) (onCommitResponse handle response) engine := by
  have clear : Still _ engine := still_clearPushing handle
  refine .bind clear.silent.delivers ?_
  intro _ first cleared
  have take : Still _ first := still_takeInFlight handle
  refine .bind take.silent.delivers ?_
  intro tag second taken
  have calm := (clear.reaches cleared).trans (take.reaches taken)
  cases answer : response.data with
  | error err => exact .of_works (works_onCommitRejected _ _ _)
  | ok block =>
    dsimp only
    split
    · rename_i valid
      refine .bind (Relation.ReflTransGen.refl : Delivers permits brings get second) ?_
      rintro _ _ ⟨⟩
      split
      · exact .of_works (.pure _)
      rename_i row found
      have inside := (findTag_eq_some_iff.mp found).1
      rw [calm.records] at found
      have permitted := permitted block row answer valid found
      rw [← calm.chainState] at permitted
      refine .bind (delivers_updateRecordCommitState inside valid permitted) ?_
      intro _ _ _
      exact .bind (delivers_storeAssignment _ _) fun _ _ _ => .of_works works_tryCommitPending
    · exact .of_works (.pure _)

theorem works_onConnected : Works onConnected engine :=
  .bind (.modify (.of_core rfl rfl)) fun _ _ _ =>
    .bind still_clearRejections.works fun _ _ _ => .bind (still_request .sequenceNumber nofun).works fun _ _ _ => .pure _

theorem works_syncObjectChange (oid : ObjectId) (header : Octets) (data : Option DataDescriptor) :
    Works (syncObjectChange oid header data) engine := by
  refine .get_bind ?_
  dsimp only
  split
  · exact .throw _
  · exact works_createAndCommit _ _ _

theorem works_syncSegmentEnd (header : Octets) : Works (syncSegmentEnd header) engine := by
  refine .get_bind ?_
  dsimp only
  split
  · exact .throw _
  · split
    · exact .throw _
    · exact .bind (drafting_ofExcept _).still.works fun _ _ _ => works_createAndCommit _ _ _

/-- A new key changes no row. -/
theorem works_insertKey (key : EncryptionKey) : Works (handle (.insertKey key)) engine := by
  have inserted : engine.Calm { engine with keys := engine.keys.insert key } :=
    ⟨⟨rfl, rfl, subset_insert _ _, List.Subset.refl _, rfl, id, Or.inl rfl, fun _ => Or.inl⟩, rfl⟩
  exact .modify ⟨fun _ _ => .quiet inserted.toQuiet, rfl⟩

/-- An event is handled by steps of the relation, when the answers of the server are. -/
theorem handles {relation : Engine lib → Engine lib → Prop} {event : EngineEvent lib}
    (received : ∀ block envelope, event = .recordReceived block envelope →
      Effect.Steps relation (handleIncomingRecord block envelope) engine)
    (fetched : ∀ handle response blocks, event = .recordResponse handle response → response.data = .ok blocks →
      Effect.Steps relation (blocks.forM fun block => handleIncomingRecord block none) engine)
    (committed : ∀ handle response, event = .commitResponse handle response →
      Handles relation (onCommitResponse handle response) engine)
    (shifts : ∀ result info, event = .sequenceNumberResponse result → result = .ok info →
      Effect.Steps relation (checkCursorOwner info.serverId) engine) : Handles relation (handle event) engine := by
  cases event with
  | connected => exact .of_works works_onConnected
  | disconnected | called => exact .of_works (.modify (.of_core rfl rfl))
  | sequenceNumberResponse result => exact handles_onSequenceNumberResponse fun info => shifts result info rfl
  | recordResponse handle response => exact handles_onRecordResponse fun blocks => fetched handle response blocks rfl
  | commitResponse handle response => exact committed handle response rfl
  | recordReceived block envelope => exact .of_steps (received block envelope rfl)
  | equivocation verifies => exact .of_works (still_onEquivocation verifies).works
  | syncObjectChange oid header data => exact .of_works (works_syncObjectChange oid header data)
  | syncUserChange data header => exact .of_works (.get_bind (works_createAndCommit _ _ _))
  | syncSegmentEnd header => exact .of_works (works_syncSegmentEnd header)
  | insertKey key => exact .of_works (works_insertKey key)

/-- The blocks that an event delivers. -/
def deliveredBlocks : EngineEvent lib → List lib.Block
  | .recordReceived block _ => [block]
  | .recordResponse _ response => response.data.toOption.getD []
  | .commitResponse _ response => response.data.toOption.toList
  | _ => []

/-- Every permitted move keeps the property, as long as the blocks that come in are of the kind. -/
def Guarded (permits : Engine lib → Entry lib → Prop) (brings : lib.Block → Prop) (keep : Engine lib → Prop) : Prop :=
  ∀ start before after, start.Further before → Move (permits start) brings before after → keep before → keep after

section Guarded

variable {guard : Engine lib → Entry lib → Prop} {keep : Engine lib → Prop} {reached : Engine lib}

section

variable (guarded : Guarded guard brings keep)
include guarded

/-- A path of permitted moves keeps the property. -/
theorem Guarded.path (path : Relation.ReflTransGen (Move (guard engine) brings) engine reached) (start : keep engine) :
    keep reached := by
  suffices both : engine.Further reached ∧ keep reached from both.2
  induction path with
  | refl => exact ⟨.refl engine, start⟩
  | tail _ move ih => exact ⟨ih.1.move move, guarded engine _ _ ih.1 move ih.2⟩

theorem Guarded.delivered (path : Relation.ReflTransGen (Delivery (guard engine) brings) engine reached)
    (start : keep engine) : keep reached :=
  guarded.path (Relation.ReflTransGen.mono (fun _ _ => Delivery.move) _ _ path) start

/-- An effect that is made of permitted moves keeps the property. -/
theorem Guarded.moves {effect : EngineEffect lib A} (moves : Moves (guard engine) brings effect engine) :
    Effect.Steps (fun before after => keep before → keep after) effect engine :=
  .single (guarded.path moves)

/-- What one delivery keeps, the blocks of a response keep. -/
theorem Guarded.deliveries (blocks : List lib.Block) (engine : Engine lib) (admits : AdmitsAll guard engine blocks)
    (brought : ∀ block ∈ blocks, brings block) :
    Effect.Steps (fun before after => keep before → keep after)
      (blocks.forM fun block => handleIncomingRecord block none) engine := by
  induction blocks generalizing engine with
  | nil => exact .pure _
  | cons block rest ih =>
    obtain ⟨first, others⟩ := List.forall_mem_cons.mp brought
    refine .bind (guarded.moves (delivers_handleIncomingRecord none admits.1 first).moves) ?_
    intro _ reached done
    exact ih reached (admits.2 reached done) others

/-- An admitted event keeps the property. -/
theorem Guarded.event {event : EngineEvent lib} (admits : AdmitsEvent guard engine event)
    (brought : ∀ block ∈ deliveredBlocks event, brings block) (start : keep engine) : keep (engine.step event) := by
  have handled : Handles (fun before after => keep before → keep after) (handle event) engine := by
    refine handles ?_ ?_ ?_ ?_
    · rintro block envelope rfl
      exact guarded.moves (delivers_handleIncomingRecord envelope admits (brought block List.mem_cons_self)).moves
    · rintro handle response blocks rfl answer
      refine guarded.deliveries blocks engine (admits blocks answer) fun block inside => brought block ?_
      simpa [deliveredBlocks, answer, Except.toOption] using inside
    · rintro handle response rfl
      exact (handles_onCommitResponse admits).widen fun _ delivers => .single (guarded.delivered delivers)
    · rintro result info rfl answer
      exact guarded.moves ((shifts_checkCursorOwner (admits info answer)).mono fun _ _ => Shift.move)
  refine handled.keeps (fun _ _ step => step) (fun _ kept => kept) ?_ start
  intro before after work
  exact guarded before before after (.refl before) (work.move _ _)

end

/-- A run of admitted events keeps the property. -/
theorem Guarded.run (guarded : Guarded guard (fun _ => True) keep)
    (run : Runs step (AdmitsEvent guard) engine reached) (start : keep engine) : keep reached :=
  run.keeps start fun _ _ before admits => guarded.event admits (fun _ _ => trivial) before

end Guarded

end Engine

end SpSync
