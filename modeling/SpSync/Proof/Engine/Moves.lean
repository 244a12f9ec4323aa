import SpSync.Construction.Engine.EngineEvents
import SpSync.Proof.Core.Rows

namespace SpSync

open Foundation RecordStorage

variable {lib : Securepath} {record : Record} {auth : ContentAuth} {key : EncryptionKey}

/-- A stored key of the record's key sequence authenticates it. -/
def KeyStorage.Reads (keys : KeyStorage) (lib : Securepath) (record : Record) (auth : ContentAuth) : Prop :=
  ∃ key ∈ keys.keys, key.keySeq = record.base.encryptionKey ∧ (verifyRecord lib key record auth).isSome = true

/-- More keys read what fewer did. -/
theorem KeyStorage.Reads.mono {keys more : KeyStorage} (reads : keys.Reads lib record auth)
    (grown : keys.keys ⊆ more.keys) : more.Reads lib record auth := by
  obtain ⟨key, inside, same, verified⟩ := reads
  exact ⟨key, grown inside, same, verified⟩

theorem KeyStorage.mem_findAll {keys : KeyStorage} {sequence : SequenceNumber} :
    key ∈ keys.findAll sequence ↔ key ∈ keys.keys ∧ key.keySeq = sequence := by
  unfold findAll
  rw [(List.perm_insertionSort _ _).mem_iff, List.mem_filter, decide_eq_true_eq]

/-- A key that is found reads the record. -/
theorem findRecordKey_some {keys : KeyStorage} (found : findRecordKey lib keys record auth = some key) :
    keys.Reads lib record auth := by
  have inside := KeyStorage.mem_findAll.mp (List.mem_of_find?_eq_some found)
  have verified := List.find?_some (p := fun key => (verifyRecord lib key record auth).isSome) found
  exact ⟨key, inside.1, inside.2, verified⟩

/-- Without such a key nothing reads the record. -/
theorem findRecordKey_none {keys : KeyStorage} (missing : findRecordKey lib keys record auth = none) :
    ¬ keys.Reads lib record auth := by
  intro reads
  obtain ⟨key, inside, same, verified⟩ := reads
  exact List.find?_eq_none.mp missing key (KeyStorage.mem_findAll.mpr ⟨inside, same⟩) verified

/-- The moves that a run may restrict: they bring a record in without a look at its content, or belong
to a switch of the replica. -/
inductive Entry (lib : Securepath)
  | confirm (row : Row lib) (block : lib.Block) (state : RecordState)
  | adopt (row : Row lib) (block : lib.Block) (state : RecordState)
  | follow (row : Row lib)
  | retain (row : Row lib)
  | switch

/-- The row with another block. -/
def Row.withBlock (row : Row lib) (block : lib.Block) : Row lib :=
  { row with
    tag := block.tag, sequence := block.sequence, hash := lib.hash block, parentHash := block.parentHash, block }

/-- The row at the position of a block. -/
def Row.at (row : Row lib) (block : lib.Block) (state : RecordState) : Row lib :=
  { row with state, sequence := block.sequence, hash := lib.hash block, parentHash := block.parentHash }

namespace Engine

/-- The blocks that the engine asked the server to commit. -/
def commits (engine : Engine lib) : List lib.Block :=
  engine.requests.filterMap fun sent =>
    match sent.2 with
    | .commit block => some block
    | _ => none

/-- What the records, their judgement and the commits depend on. -/
def core (engine : Engine lib) :=
  (engine.records, engine.config, engine.keys, engine.created, engine.forkSuspected, engine.anchorContradicted)

/-- The engine holds its anchor, if it has one, and no block contradicted it. -/
structure Grounded (engine : Engine lib) : Prop where
  uncontradicted : engine.anchorContradicted = false
  anchored : engine.config.trustedAnchor.isValid = true → engine.findAnchor.isSome = true

/-- The block is a new one, as a client makes it. -/
def Made (block : lib.Block) : Prop :=
  ∃ record auth, block = lib.newBlock record auth

/-- The step leaves the records, sends no commit and only adds keys and own blocks; a block contradicts
the anchor only as long as the engine is not grounded. -/
structure Quiet (engine next : Engine lib) : Prop where
  records : next.records = engine.records
  config : next.config = engine.config
  keys : engine.keys.keys ⊆ next.keys.keys
  created : engine.created ⊆ next.created
  commits : next.commits = engine.commits
  suspected : engine.forkSuspected = true → next.forkSuspected = true
  reported : next.anchorContradicted = engine.anchorContradicted ∨
    (next.anchorContradicted = true ∧ next.forkSuspected = true ∧ ¬ engine.Grounded)
  made : ∀ block ∈ next.created, block ∈ engine.created ∨ Made block

/-- The step also leaves what the chain rules read. -/
structure Calm (engine next : Engine lib) : Prop extends Quiet engine next where
  contradicted : next.anchorContradicted = engine.anchorContradicted

/-- The step only draws random octets and makes blocks. -/
def Drafts (engine next : Engine lib) : Prop :=
  ∃ drawn made, next = { engine with drawn, created := engine.created ++ made } ∧ ∀ block ∈ made, Made block

/-- The step sends a commit of a client that suspects no fork. -/
structure Sends (engine next : Engine lib) : Prop where
  unsuspected : engine.forkSuspected = false
  core : next.core = engine.core

/-- How one row changes. -/
inductive Change (permits : Entry lib → Prop) (engine : Engine lib) : Row lib → Row lib → Prop
  | confirm {row : Row lib} {block : lib.Block} (unconfirmed : row.state.isServerConfirmed = false)
      (valid : (lib.blockId block).isValid = true)
      (matching : block.checkMatchesWithoutServerData row.block = true)
      (good : (engine.chainState block).isValid = true)
      (permitted : permits (.confirm row block (engine.chainState block))) :
      Change permits engine row (row.at block (engine.chainState block))
  | refuse {row : Row lib} (unconfirmed : row.state.isServerConfirmed = false) :
      Change permits engine row { row with state := .invalid }
  | replace {row : Row lib} {block : lib.Block} {record : Record} (pending : row.state = .pendingCommit)
      (valid : (lib.blockId block).isValid = true) (parsed : lib.deserialise block.record = some record)
      (sameOp : record.base.opId = row.opId) (accepted : engine.chainState block = .inSync)
      (permitted : permits (.adopt row block .inSync)) : Change permits engine row (row.withBlock block)
  | adopt {row : Row lib} {block : lib.Block} {record : Record} (pending : row.state = .pendingCommit)
      (valid : (lib.blockId block).isValid = true) (parsed : lib.deserialise block.record = some record)
      (sameOp : record.base.opId = row.opId) (good : (engine.chainState block).isValid = true)
      (permitted : permits (.adopt row block (engine.chainState block))) :
      Change permits engine row ((row.withBlock block).at block (engine.chainState block))
  | follow {row parent : Row lib} (waiting : row.state = .pendingSync) (parentIn : parent ∈ engine.records.rows)
      (parentInSync : parent.state = .inSync) (next : row.sequence = parent.sequence + 1)
      (link : row.parentHash = parent.hash) (permitted : permits (.follow row)) (grounded : engine.Grounded) :
      Change permits engine row { row with state := .inSync }
  | retain {row : Row lib} (waiting : row.state = .pendingSync) (anchored : engine.config.trustedAnchor.isValid = true)
      (permitted : permits (.retain row)) (grounded : engine.Grounded) :
      Change permits engine row { row with state := .inSync }
  | read {row : Row lib} {record : Record} (waiting : row.state = .pendingSync)
      (parsed : lib.deserialise row.block.record = some record)
      (readable : engine.keys.Reads lib record row.block.auth)
      (accepted : engine.chainState row.block = .inSync) : Change permits engine row { row with state := .inSync }
  | rebase {row : Row lib} {block : lib.Block} (pending : row.state = .pendingCommit)
      (made : block ∈ engine.created) : Change permits engine row (row.withBlock block)
  | assign {row : Row lib} (assignment : Option (Assignment lib)) :
      Change permits engine row { row with assignment }
  | demote {row : Row lib} (confirmed : row.state.isServerConfirmed = true)
      (weak : engine.config.mode ≠ .requireAllSeen) (permitted : permits .switch) :
      Change permits engine row { row with state := .pendingCommit }

/-- How a new row comes in: the client made it, or it was brought. -/
inductive Arrival (brings : lib.Block → Prop) (engine : Engine lib) : lib.Block → RecordState → Prop
  | own {block : lib.Block} (made : block ∈ engine.created) : Arrival brings engine block .pendingCommit
  | verified {block : lib.Block} {record : Record} (valid : (lib.blockId block).isValid = true)
      (parsed : lib.deserialise block.record = some record) (readable : engine.keys.Reads lib record block.auth)
      (brought : brings block) : Arrival brings engine block (engine.chainState block)
  | unread {block : lib.Block} {record : Record} (valid : (lib.blockId block).isValid = true)
      (parsed : lib.deserialise block.record = some record)
      (unreadable : ¬ engine.keys.Reads lib record block.auth) (brought : brings block) :
      Arrival brings engine block .pendingSync

/-- One move of the engine. -/
inductive Move (permits : Entry lib → Prop) (brings : lib.Block → Prop) (engine : Engine lib) : Engine lib → Prop
  | quiet {next : Engine lib} (quiet : engine.Quiet next) : Move permits brings engine next
  | send {next : Engine lib} (sends : engine.Sends next) : Move permits brings engine next
  | change {row next : Row lib} {records : RecordStorage lib} (change : Change permits engine row next)
      (replaces : Replaces engine.records records row next) : Move permits brings engine { engine with records }
  | arrive {block : lib.Block} {state : RecordState} {records : RecordStorage lib}
      (arrival : Arrival brings engine block state) (done : engine.records.create block state = .ok records) :
      Move permits brings engine { engine with records }
  | truncate (weak : engine.config.mode ≠ .requireAllSeen) (permitted : permits .switch) :
      Move permits brings engine { engine with records := engine.records.truncateFrom 1 }

/-- A move that needs no permission and judges no block. -/
structure Work (engine next : Engine lib) : Prop where
  move (permits : Entry lib → Prop) (brings : lib.Block → Prop) : Move permits brings engine next
  contradicted : next.anchorContradicted = engine.anchorContradicted

/-- A move that sends no commit, unless the engine is grounded. -/
structure Delivery (permits : Entry lib → Prop) (brings : lib.Block → Prop) (engine next : Engine lib) : Prop where
  move : Move permits brings engine next
  commits : next.commits = engine.commits ∨ engine.Grounded

variable {permits : Entry lib → Prop} {brings : lib.Block → Prop} {engine : Engine lib} {A : Type}
  {next reached middle last : Engine lib} {effect : EngineEffect lib A} {row : Row lib} {value : A}
  {block : lib.Block} {write : RecordStorage lib → Except Error (RecordStorage lib)} {hasConflicts : Bool}

/-- The effect is made of moves. -/
abbrev Moves (permits : Entry lib → Prop) (brings : lib.Block → Prop) (effect : EngineEffect lib A)
    (engine : Engine lib) : Prop :=
  Effect.Steps (Move permits brings) effect engine

/-- The effect needs no permission and judges no block. -/
abbrev Works (effect : EngineEffect lib A) (engine : Engine lib) : Prop :=
  Effect.Steps Work effect engine

/-- The effect is made of moves that deliver a record. -/
abbrev Delivers (permits : Entry lib → Prop) (brings : lib.Block → Prop) (effect : EngineEffect lib A)
    (engine : Engine lib) : Prop :=
  Effect.Steps (Delivery permits brings) effect engine

/-- The effect leaves the records. -/
abbrev Silent (effect : EngineEffect lib A) (engine : Engine lib) : Prop :=
  Effect.Steps Quiet effect engine

/-- The effect only draws random octets and makes blocks. -/
abbrev Drafting (effect : EngineEffect lib A) (engine : Engine lib) : Prop :=
  Effect.Steps Drafts effect engine

/-- The effect leaves what the chain rules read. -/
abbrev Still (effect : EngineEffect lib A) (engine : Engine lib) : Prop :=
  Effect.Steps Calm effect engine

section

variable (sends : engine.Sends next)
include sends

theorem Sends.records : next.records = engine.records :=
  congrArg (·.1) sends.core

theorem Sends.config : next.config = engine.config :=
  congrArg (·.2.1) sends.core

theorem Sends.keys : next.keys = engine.keys :=
  congrArg (·.2.2.1) sends.core

theorem Sends.created : next.created = engine.created :=
  congrArg (·.2.2.2.1) sends.core

theorem Sends.suspected : next.forkSuspected = engine.forkSuspected :=
  congrArg (·.2.2.2.2.1) sends.core

theorem Sends.contradicted : next.anchorContradicted = engine.anchorContradicted :=
  congrArg (·.2.2.2.2.2) sends.core

end

/-- The anchor depends on the records and the configuration alone. -/
theorem findAnchor_congr (records : next.records = engine.records) (config : next.config = engine.config) :
    next.findAnchor = engine.findAnchor := by
  rw [findAnchor, findAnchor, records, config]

section

variable (same : next.core = engine.core) (commits : next.commits = engine.commits)
include same commits

theorem Calm.of_core : engine.Calm next := by
  simp only [core, Prod.mk.injEq] at same
  obtain ⟨records, config, keys, created, suspected, contradicted⟩ := same
  exact ⟨⟨records, config, by rw [keys]; exact List.Subset.refl _, by rw [created]; exact List.Subset.refl _, commits,
    by rw [suspected]; exact id, Or.inl contradicted, by rw [created]; exact fun _ => Or.inl⟩, contradicted⟩

theorem Quiet.of_core : engine.Quiet next :=
  (Calm.of_core same commits).toQuiet

theorem Work.of_core : engine.Work next :=
  ⟨fun _ _ => .quiet (.of_core same commits), (Calm.of_core same commits).contradicted⟩

end

theorem Calm.refl (engine : Engine lib) : engine.Calm engine :=
  .of_core rfl rfl

/-- Quiet steps compose. -/
theorem Quiet.trans (first : engine.Quiet middle) (second : middle.Quiet last) : engine.Quiet last where
  records := second.records.trans first.records
  config := second.config.trans first.config
  keys := List.Subset.trans first.keys second.keys
  created := List.Subset.trans first.created second.created
  commits := second.commits.trans first.commits
  suspected before := second.suspected (first.suspected before)
  reported := by
    obtain same | ⟨contradicted, suspected, ungrounded⟩ := second.reported
    · rw [same]
      exact first.reported.imp_right fun new => ⟨new.1, second.suspected new.2.1, new.2.2⟩
    refine first.reported.elim ?_ fun new => Or.inr ⟨contradicted, suspected, new.2.2⟩
    intro same
    refine Or.inr ⟨contradicted, suspected, fun grounded => ungrounded ⟨same.trans grounded.uncontradicted, ?_⟩⟩
    rw [findAnchor_congr first.records first.config, first.config]
    exact grounded.anchored
  made block inside := (second.made block inside).elim (first.made block) Or.inr

theorem Calm.trans (first : engine.Calm middle) (second : middle.Calm last) : engine.Calm last :=
  ⟨first.toQuiet.trans second.toQuiet, second.contradicted.trans first.contradicted⟩

theorem Drafts.refl (engine : Engine lib) : engine.Drafts engine :=
  ⟨engine.drawn, [], by rw [List.append_nil], List.forall_mem_nil _⟩

theorem Drafts.trans (first : engine.Drafts middle) (second : middle.Drafts last) : engine.Drafts last := by
  obtain ⟨_, made, rfl, each⟩ := first
  obtain ⟨drawn, more, rfl, others⟩ := second
  exact ⟨drawn, made ++ more, by simp only [List.append_assoc], List.forall_mem_append.mpr ⟨each, others⟩⟩

/-- A draft is calm. -/
theorem Drafts.calm (drafts : engine.Drafts next) : engine.Calm next := by
  obtain ⟨drawn, made, rfl, each⟩ := drafts
  refine ⟨⟨rfl, rfl, List.Subset.refl _, List.subset_append_left _ _, rfl, id, Or.inl rfl, ?_⟩, rfl⟩
  exact fun block inside => (List.mem_append.mp inside).imp_right (each block)

/-- The anchor is found among the synced rows, by its hash. -/
theorem findAnchor_isSome_iff : engine.findAnchor.isSome = true ↔
    ∃ row ∈ engine.records.rows, row.state = .inSync ∧ row.hash = engine.config.trustedAnchor.hash := by
  simp [findAnchor, findHash, List.find?_isSome, and_comm]

/-- A grounded engine stays so as long as its records in sync keep their hashes. -/
theorem Grounded.of_keeps (grounded : engine.Grounded) (config : next.config = engine.config)
    (contradicted : next.anchorContradicted = engine.anchorContradicted)
    (keeps : ∀ row ∈ engine.records.rows, row.state = .inSync →
      ∃ kept ∈ next.records.rows, kept.state = .inSync ∧ kept.hash = row.hash) : next.Grounded := by
  refine ⟨contradicted.trans grounded.uncontradicted, ?_⟩
  intro valid
  rw [config] at valid
  obtain ⟨row, inside, inSync, anchor⟩ := findAnchor_isSome_iff.mp (grounded.anchored valid)
  obtain ⟨kept, keptIn, keptInSync, same⟩ := keeps row inside inSync
  exact findAnchor_isSome_iff.mpr ⟨kept, keptIn, keptInSync, by rw [same, anchor, config]⟩

/-- A quiet step keeps the ground. -/
theorem Grounded.quiet (grounded : engine.Grounded) (quiet : engine.Quiet next) : next.Grounded := by
  obtain same | ⟨_, _, ungrounded⟩ := quiet.reported
  · exact grounded.of_keeps quiet.config same fun row inside inSync => ⟨row, by rwa [quiet.records], inSync, rfl⟩
  · exact absurd grounded ungrounded

/-- A row in sync changes at most its assignment, unless the replica is switched. -/
theorem Change.of_inSync {next : Row lib} (change : Change permits engine row next) (inSync : row.state = .inSync) :
    (∃ assignment, next = { row with assignment }) ∨ (engine.config.mode ≠ .requireAllSeen ∧ permits .switch) := by
  cases change with
  | assign assignment => exact Or.inl ⟨assignment, rfl⟩
  | demote _ weak permitted => exact Or.inr ⟨weak, permitted⟩
  | confirm unconfirmed | refuse unconfirmed => simp [inSync, RecordState.isServerConfirmed] at unconfirmed
  | replace pending | adopt pending | rebase pending => simp [inSync] at pending
  | follow waiting | retain waiting | read waiting => simp [inSync] at waiting

/-- The rows in sync keep their places, unless the replica is switched. -/
theorem Change.keeps_inSync {next other : Row lib} {records : RecordStorage lib}
    (change : Change permits engine row next) (replaces : Replaces engine.records records row next)
    (closed : engine.config.mode ≠ .requireAllSeen → ¬ permits .switch) (inside : other ∈ engine.records.rows)
    (inSync : other.state = .inSync) :
    ∃ kept ∈ records.rows, kept.state = .inSync ∧ kept.sequence = other.sequence ∧ kept.hash = other.hash := by
  by_cases same : other = row
  · subst same
    obtain ⟨assignment, rfl⟩ | ⟨weak, permitted⟩ := change.of_inSync inSync
    · exact ⟨_, replaces.mem_iff.mpr (Or.inr rfl), inSync, rfl, rfl⟩
    · exact absurd permitted (closed weak)
  · exact ⟨other, replaces.mem_iff.mpr (Or.inl ⟨inside, same⟩), inSync, rfl, rfl⟩

/-- A grounded engine stays so until the replica is switched. -/
theorem Grounded.move (grounded : engine.Grounded) (move : Move permits brings engine next)
    (closed : ¬ permits .switch) : next.Grounded := by
  cases move with
  | quiet quiet => exact grounded.quiet quiet
  | send sends =>
    refine grounded.of_keeps sends.config sends.contradicted ?_
    intro row inside inSync
    exact ⟨row, by rwa [sends.records], inSync, rfl⟩
  | change change replaces =>
    refine grounded.of_keeps rfl rfl ?_
    intro row inside inSync
    obtain ⟨kept, keptIn, keptInSync, _, hash⟩ := change.keeps_inSync replaces (fun _ => closed) inside inSync
    exact ⟨kept, keptIn, keptInSync, hash⟩
  | arrive _ done =>
    exact grounded.of_keeps rfl rfl fun row inside inSync => ⟨row, mem_created done inside, inSync, rfl⟩
  | truncate _ permitted => exact absurd permitted closed

/-- The work of a grounded engine may follow a delivery. -/
theorem Works.delivers (works : Works effect engine) (grounded : engine.Grounded) :
    Delivers permits brings effect engine := by
  refine works.widen Grounded ?_ grounded
  intro before after work grounded
  exact ⟨grounded.move (work.move (fun _ => False) fun _ => False) id, work.move permits brings, Or.inr grounded⟩

theorem Silent.delivers (silent : Silent effect engine) : Delivers permits brings effect engine :=
  silent.mono fun _ _ quiet => ⟨.quiet quiet, Or.inl quiet.commits⟩

theorem Silent.quiet (silent : Silent effect engine) : engine.Quiet (effect.final engine) :=
  silent.keeps engine.Quiet (fun _ _ step before => before.trans step) (.of_core rfl rfl)

theorem Silent.reaches (silent : Silent effect engine) (done : effect.run engine = .ok value reached) :
    engine.Quiet reached := by
  have quiet := silent.quiet
  rwa [Effect.final_of_ok done] at quiet

section

variable (still : Still effect engine)
include still

theorem Still.silent : Silent effect engine :=
  still.mono fun _ _ => Calm.toQuiet

theorem Still.works : Works effect engine :=
  still.mono fun _ _ calm => ⟨fun _ _ => .quiet calm.toQuiet, calm.contradicted⟩

theorem Still.calm : engine.Calm (effect.final engine) :=
  still.keeps engine.Calm (fun _ _ step before => before.trans step) (.refl engine)

theorem Still.reaches (done : effect.run engine = .ok value reached) : engine.Calm reached := by
  rw [← Effect.final_of_ok done]
  exact still.calm

end

theorem Drafting.still (drafting : Drafting effect engine) : Still effect engine :=
  drafting.mono fun _ _ => Drafts.calm

theorem Drafting.drafts (drafting : Drafting effect engine) : engine.Drafts (effect.final engine) :=
  drafting.keeps engine.Drafts (fun _ _ step before => before.trans step) ⟨engine.drawn, [], by simp⟩

theorem Drafting.reaches (drafting : Drafting effect engine) (done : effect.run engine = .ok value reached) :
    engine.Drafts reached := by
  rw [← Effect.final_of_ok done]
  exact drafting.drafts

theorem Delivers.moves (delivers : Delivers permits brings effect engine) : Moves permits brings effect engine :=
  delivers.mono fun _ _ => Delivery.move

/-- The chain rules read the records, the configuration and the contradicted anchor. -/
theorem Calm.chainState (calm : engine.Calm next) (block : lib.Block) :
    next.chainState block = engine.chainState block := by
  obtain ⟨⟨records, config, _, _, _, _, _⟩, contradicted⟩ := calm
  cases engine
  cases next
  dsimp only at records config contradicted
  subst records config contradicted
  rfl

/-- A write goes one step when it happens. -/
theorem steps_writeRecords {relation : Engine lib → Engine lib → Prop}
    (moved : ∀ records, write engine.records = .ok records → relation engine { engine with records }) :
    Effect.Steps relation (writeRecords write) engine := by
  refine .get_bind ?_
  split
  · rename_i records done
    exact .modify (moved records done)
  · exact .throw _

/-- A write of the records succeeds or leaves the engine. -/
theorem run_writeRecords (write : RecordStorage lib → Except Error (RecordStorage lib)) (engine : Engine lib) :
    (writeRecords write).run engine = match write engine.records with
      | .ok records => .ok () { engine with records }
      | .error err => .error err engine := by
  unfold writeRecords
  rw [Effect.run_bind, Effect.run_get]
  dsimp only
  cases write engine.records <;> rfl

theorem writeRecords_ok {value : Unit} (done : (writeRecords write).run engine = .ok value reached) :
    ∃ records, write engine.records = .ok records ∧ reached = { engine with records } := by
  rw [run_writeRecords] at done
  cases written : write engine.records with
  | ok records =>
    rw [written] at done
    cases done
    exact ⟨records, rfl, rfl⟩
  | error err =>
    rw [written] at done
    cases done

theorem drafting_deserialiseRecord (block : lib.Block) : Drafting (deserialiseRecord block) engine := by
  unfold deserialiseRecord
  split
  · exact .pure _
  · exact .throw _

/-- A read record is the one in the block. -/
theorem deserialiseRecord_ok (done : (deserialiseRecord block).run engine = .ok record reached) :
    lib.deserialise block.record = some record ∧ reached = engine := by
  unfold deserialiseRecord at done
  split at done
  · rename_i parsed
    cases done
    exact ⟨parsed, rfl⟩
  · cases done

theorem drafting_ofExcept (result : Except Error A) : Drafting (ofExcept result) engine := by
  cases result with
  | ok value => exact .pure _
  | error err => exact .throw _

theorem drafting_randomOctets : Drafting randomOctets engine := by
  refine .get_bind (.bind (.set ⟨engine.drawn + 1, [], by simp, by simp⟩) ?_)
  intro _ _ _
  exact .pure _

theorem commits_append (requests : List (Nat × Request lib)) (handle : Nat) {asked : Request lib}
    (plain : ∀ block, asked ≠ .commit block) :
    ({ engine with requests := requests ++ [(handle, asked)] } : Engine lib).commits =
      ({ engine with requests } : Engine lib).commits := by
  unfold commits
  rw [List.filterMap_append]
  cases asked with
  | sequenceNumber => simp
  | fetch => simp
  | commit block => exact absurd rfl (plain block)

/-- A request other than a commit. -/
theorem still_request (asked : Request lib) (plain : ∀ block, asked ≠ .commit block) :
    Still (request asked) engine := by
  refine .get_bind (.bind (.set (.of_core rfl (commits_append _ _ plain))) ?_)
  intro _ _ _
  exact .pure _

theorem still_updateServerSeq (sequence : SequenceNumber) : Still (updateServerSeq sequence) engine :=
  .modify (.of_core rfl rfl)

/-- A commit asks the server and changes no row. -/
theorem works_commitRecord (row : Row lib) : Works (commitRecord row) engine := by
  refine .get_bind ?_
  split
  · exact .pure _
  rename_i unsuspected
  rw [Bool.not_eq_true] at unsuspected
  refine .bind (.get_bind (.bind (.set ⟨fun _ _ => .send ⟨unsuspected, rfl⟩, rfl⟩) fun _ _ _ => .pure _)) ?_
  intro handle reached _
  exact .modify (.of_core rfl rfl)

theorem drafting_operationId (opId : Octets) : Drafting (operationId opId) engine := by
  unfold operationId
  split
  · exact drafting_randomOctets
  · exact .pure _

theorem drafting_makeRecord (key : EncryptionKey) (lastSeen : ChainBlockId) (opId : Octets) (body : RecordBody)
    (headers : List Octets) : Drafting (makeRecord key lastSeen opId body headers) engine := by
  refine .bind drafting_randomOctets ?_
  intro iv _ _
  refine .bind (drafting_operationId _) ?_
  intro opId reached _
  refine .get_bind (.bind (.set ⟨reached.drawn, [_], rfl, List.forall_mem_singleton.mpr ⟨_, _, rfl⟩⟩) ?_)
  intro _ _ _
  exact .pure _

theorem makeRecord_ok {key : EncryptionKey} {lastSeen : ChainBlockId} {opId : Octets} {body : RecordBody}
    {headers : List Octets} (done : (makeRecord key lastSeen opId body headers).run engine = .ok block reached) :
    block ∈ reached.created := by
  obtain ⟨iv, _, _, rest⟩ := Effect.run_bind_ok done
  obtain ⟨drawn, middle, _, last⟩ := Effect.run_bind_ok rest
  simp only [Effect.run_bind, Effect.run_get, Effect.run_set, Effect.run_pure] at last
  cases last
  simp

theorem drafting_updatePendingCommit (block : lib.Block) (hasConflicts : Bool) :
    Drafting (updatePendingCommit block hasConflicts) engine := by
  refine .bind (drafting_deserialiseRecord _) ?_
  intro record middle _
  refine .get_bind ?_
  split
  · exact .pure _
  split
  · exact .throw _
  split
  · exact .throw _
  refine .bind (drafting_ofExcept _) ?_
  intro body reached _
  refine .bind (drafting_makeRecord _ _ _ _ _) ?_
  intro _ _ _
  exact .pure _

theorem updatePendingCommit_some {rebuilt : lib.Block}
    (done : (updatePendingCommit block hasConflicts).run engine = .ok (some rebuilt) reached) :
    rebuilt ∈ reached.created := by
  obtain ⟨record, middle, _, rest⟩ := Effect.run_bind_ok done
  rw [Effect.run_bind, Effect.run_get] at rest
  dsimp only at rest
  split at rest
  · cases rest
  split at rest
  · cases rest
  split at rest
  · cases rest
  obtain ⟨body, before, _, making⟩ := Effect.run_bind_ok rest
  obtain ⟨made, after, makes, last⟩ := Effect.run_bind_ok making
  cases last
  exact makeRecord_ok makes

/-- A row that the server has not confirmed may be dropped. -/
theorem works_dropRow (inside : row ∈ engine.records.rows) (unconfirmed : row.state.isServerConfirmed = false) :
    Works (dropRow row) engine :=
  steps_writeRecords fun _ done => ⟨fun _ _ => .change (.refuse unconfirmed) (setState_replaces inside done), rfl⟩

/-- The row waits for its commit. -/
def Pending (engine : Engine lib) (row : Row lib) : Prop :=
  row ∈ engine.records.rows ∧ row.state = .pendingCommit

/-- A pending row is not confirmed. -/
theorem Pending.unconfirmed (pending : engine.Pending row) : row.state.isServerConfirmed = false := by
  rw [pending.2]
  rfl

theorem pending_of_findFirst (found : engine.records.findFirstPendingCommit = some row) : engine.Pending row :=
  ⟨List.mem_of_find?_eq_some found, by simpa using List.find?_some found⟩

theorem pending_of_findNext {after : Nat} (found : engine.records.findNextPendingCommit after = some row) :
    engine.Pending row := by
  have holds := List.find?_some found
  simp only [Bool.and_eq_true, decide_eq_true_eq] at holds
  exact ⟨List.mem_of_find?_eq_some found, holds.1⟩

/-- A pending row may be rebuilt. -/
theorem works_rebuild (pending : engine.Pending row) (hasConflicts : Bool) :
    Works (rebuild row hasConflicts) engine := by
  have drafting : Drafting _ engine := drafting_updatePendingCommit row.block hasConflicts
  refine .bind drafting.still.works ?_
  intro rebuilt reached done
  have calm := (drafting.reaches done).calm
  split
  · rename_i block
    refine .bind (steps_writeRecords ?_) (fun _ _ _ => .pure _)
    intro records written
    have inside : row ∈ reached.records.rows := by rw [calm.records]; exact pending.1
    exact ⟨fun _ _ => .change (.rebase pending.2 (updatePendingCommit_some done)) (setRecord_ok inside written).2.2, rfl⟩
  · exact .pure _

/-- A failed rebuild leaves the records. -/
theorem rebuild_error {err : Error} (failed : (rebuild row hasConflicts).run engine = .error err reached) :
    engine.Drafts reached := by
  have drafting : Drafting _ engine := drafting_updatePendingCommit row.block hasConflicts
  unfold rebuild at failed
  rw [Effect.run_bind] at failed
  cases first : (updatePendingCommit row.block hasConflicts).run engine with
  | error err middle =>
    rw [first] at failed
    cases failed
    exact Effect.final_of_error first ▸ drafting.drafts
  | ok rebuilt middle =>
    rw [first] at failed
    cases rebuilt with
    | none => cases failed
    | some block =>
      simp only [Effect.run_bind, run_writeRecords, Effect.run_pure] at failed
      cases written : middle.records.setRecord row.key block with
      | ok records =>
        rw [written] at failed
        cases failed
      | error err =>
        rw [written] at failed
        cases failed
        exact drafting.reaches first

theorem works_rebaseIfNeeded (pending : engine.Pending row) (record : Record) (hasConflicts : Bool) :
    Works (rebaseIfNeeded row record hasConflicts) engine := by
  refine .get_bind ?_
  split
  · refine .tryCatch (works_rebuild pending hasConflicts) ?_
    intro err reached failed
    have inside : row ∈ reached.records.rows := by rw [(rebuild_error failed).calm.records]; exact pending.1
    exact .bind (works_dropRow inside pending.unconfirmed) fun _ _ _ => .pure _
  · exact .pure _

/-- The pump only drops, rebuilds and sends pending records. -/
theorem works_commitPendingFrom (fuel : Nat) (start : Option (Row lib)) (engine : Engine lib)
    (pending : ∀ row, start = some row → engine.Pending row) :
    Works (commitPendingFrom fuel start) engine := by
  induction fuel generalizing start engine with
  | zero => exact .pure _
  | succ fuel ih =>
    cases start with
    | none => exact .pure _
    | some row =>
      have rowPending := pending row rfl
      refine .bind (drafting_deserialiseRecord _).still.works ?_
      intro record reached parsed
      obtain ⟨_, rfl⟩ := deserialiseRecord_ok parsed
      refine .get_bind (.get_bind ?_)
      split
      · refine .bind (works_dropRow rowPending.1 rowPending.unconfirmed) ?_
        intro _ reached _
        exact .get_bind (ih _ reached fun _ => pending_of_findFirst)
      · refine .bind (works_rebaseIfNeeded rowPending record _) ?_
        intro usable reached _
        split
        · exact .get_bind (ih _ reached fun _ => pending_of_findFirst)
        refine .get_bind ?_
        dsimp only
        split
        · exact ih _ reached fun _ => pending_of_findNext
        · exact works_commitRecord _

/-- The commit of what waits is work. -/
theorem works_tryCommitPending : Works tryCommitPending engine := by
  refine .get_bind ?_
  split
  · exact works_commitPendingFrom _ _ _ fun _ => pending_of_findFirst
  · exact .pure _

theorem still_checkRecordSize (block : lib.Block) : Still (checkRecordSize block) engine := by
  refine .get_bind ?_
  split
  · exact .throw _
  · exact .pure _

theorem works_createAndCommit (lastSeen : ChainBlockId) (body : RecordBody) (headers : List Octets) :
    Works (createAndCommit lastSeen body headers) engine := by
  refine .get_bind (.bind (drafting_ofExcept _).still.works ?_)
  intro key first _
  refine .bind (drafting_makeRecord _ _ _ _ _).still.works ?_
  intro block second made
  refine .bind (still_checkRecordSize _).works ?_
  intro _ third sized
  have calm := (still_checkRecordSize block).reaches sized
  refine .bind (steps_writeRecords fun _ done => ⟨fun _ _ => .arrive (.own (calm.created (makeRecord_ok made))) done, rfl⟩) ?_
  intro _ fourth _
  refine .get_bind ?_
  split
  · exact works_commitRecord _
  · exact .pure _

end Engine

end SpSync
