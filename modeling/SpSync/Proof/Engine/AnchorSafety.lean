import SpSync.Proof.Engine.StrictChain

namespace SpSync

open Foundation RecordStorage

variable {lib : Securepath}

namespace Engine

/-- An answer that lets a record wait leaves the block of the anchor where it is. -/
def KeepsAnchor (engine : Engine lib) : Entry lib → Prop
  | .confirm row block state => state = .pendingSync → lib.hash row.block = engine.config.trustedAnchor.hash →
      lib.hash block = engine.config.trustedAnchor.hash
  | _ => True

/-- What a trusted anchor guarantees: nothing is in sync without the anchor, the event that contradicts the
anchor sends no commit, and after it nothing enters in sync and no commit is sent. -/
structure AnchorSafe (engine : Engine lib) : Prop where
  anchored : (∃ row ∈ engine.records.rows, row.state = .inSync) →
    ∃ row ∈ engine.records.rows, row.state = .inSync ∧ row.hash = engine.config.trustedAnchor.hash
  reports : ∀ event, (engine.step event).anchorContradicted = true → (engine.step event).commits = engine.commits
  stopped : engine.anchorContradicted = true → ∀ later, Runs step (fun _ _ => True) engine later →
    later.commits = engine.commits ∧ ∀ row ∈ later.records.rows, row.state ≠ .inSync

/-- A contradicted anchor is taken for a fork. -/
def Joint (engine : Engine lib) : Prop :=
  engine.anchorContradicted = true → engine.forkSuspected = true

variable {permits : Entry lib → Prop} {brings : lib.Block → Prop} {engine : Engine lib} {row : Row lib}
  {block : lib.Block} {next : Engine lib}

theorem Joint.move (joint : engine.Joint) (move : Move permits brings engine next) : next.Joint := by
  cases move with
  | quiet quiet =>
    intro contradicted
    obtain same | ⟨_, suspected, _⟩ := quiet.reported
    · exact quiet.suspected (joint (same ▸ contradicted))
    · exact suspected
  | send sends =>
    intro contradicted
    rw [sends.suspected]
    exact joint (sends.contradicted ▸ contradicted)
  | change | arrive | truncate => exact joint

/-- A client that suspects a fork goes on doing so and sends no commit. -/
theorem Move.of_suspected (move : Move permits brings engine next) (suspected : engine.forkSuspected = true) :
    next.commits = engine.commits ∧ next.forkSuspected = true := by
  cases move with
  | quiet quiet => exact ⟨quiet.commits, quiet.suspected suspected⟩
  | send sends => exact absurd suspected (by simp [sends.unsuspected])
  | change | arrive | truncate => exact ⟨rfl, suspected⟩

section Reports

/-- The engine has sent no commit since the start, unless it is grounded. -/
def Spared (start engine : Engine lib) : Prop :=
  engine.Joint ∧ (engine.commits = start.commits ∨ engine.Grounded)

/-- The engine has sent no commit since the start when a block contradicts the anchor. -/
def Hushed (start engine : Engine lib) : Prop :=
  engine.anchorContradicted = true → engine.forkSuspected = true ∧ engine.commits = start.commits

variable {start : Engine lib} {next : Engine lib}

theorem Spared.delivery (spared : start.Spared engine)
    (delivery : Delivery (fun entry : Entry lib => entry ≠ .switch) brings engine next) : start.Spared next := by
  obtain ⟨joint, sent | grounded⟩ := spared
  · refine ⟨joint.move delivery.move, ?_⟩
    obtain same | grounded := delivery.commits
    · exact Or.inl (same.trans sent)
    · exact Or.inr (grounded.move delivery.move fun permitted => permitted rfl)
  · exact ⟨joint.move delivery.move, Or.inr (grounded.move delivery.move fun permitted => permitted rfl)⟩

theorem Spared.hushed (spared : start.Spared engine) : start.Hushed engine := by
  intro contradicted
  refine ⟨spared.1 contradicted, ?_⟩
  obtain sent | grounded := spared.2
  · exact sent
  · rw [grounded.uncontradicted] at contradicted
    cases contradicted

theorem Hushed.work (hushed : start.Hushed engine) (work : engine.Work next) : start.Hushed next := by
  intro contradicted
  obtain ⟨suspected, sent⟩ := hushed (work.contradicted ▸ contradicted)
  obtain ⟨same, still⟩ := (work.move (fun _ => False) fun _ => False).of_suspected suspected
  exact ⟨still, same.trans sent⟩

/-- A switch of the replica sends no commit. -/
theorem spared_checkCursorOwner (joint : engine.Joint) (serverId : PublicKeyId) :
    engine.Spared ((checkCursorOwner serverId).final engine) := by
  have shifts : Effect.Steps (Shift (fun _ => True) fun _ => True) (checkCursorOwner serverId) engine :=
    shifts_checkCursorOwner fun _ _ _ _ => trivial
  have kept := shifts.keeps (fun reached => reached.Joint ∧ reached.commits = engine.commits)
    (fun _ _ shift before => ⟨before.1.move shift.move, shift.commits.trans before.2⟩) ⟨joint, rfl⟩
  exact ⟨kept.1, Or.inl kept.2⟩

/-- The event that contradicts the anchor sends no commit. -/
theorem commits_of_contradicted (joint : engine.Joint) (event : EngineEvent lib)
    (contradicted : (engine.step event).anchorContradicted = true) :
    (engine.step event).commits = engine.commits := by
  have closed : ∀ entry : Entry lib, entry ≠ .switch → entry ≠ .switch := fun _ => id
  have delivers {reached : Engine lib} (block : lib.Block) (envelope : Option lib.Envelope) :
      Delivers (fun entry => entry ≠ .switch) (fun _ => True) (handleIncomingRecord block envelope) reached :=
    delivers_handleIncomingRecord envelope (admits_of_all block closed) trivial
  have handled : Handles (fun before after => engine.Spared before → engine.Spared after) (handle event) engine := by
    refine handles ?_ ?_ ?_ ?_
    · rintro block envelope rfl
      exact (delivers block envelope).mono fun _ _ delivery before => before.delivery delivery
    · rintro handle response blocks rfl _
      refine .forM (fun _ _ => True) ?_ _ _ trivial
      intro block rest reached _
      exact ⟨(delivers block none).mono fun _ _ delivery before => before.delivery delivery, fun _ _ => trivial⟩
    · rintro handle response rfl
      have handled : Handles (Delivery (fun entry => entry ≠ .switch) fun _ => True) (onCommitResponse handle response)
          engine := handles_onCommitResponse fun _ _ _ _ _ => nofun
      exact handled.widen (Relation.ReflTransGen.mono (fun _ _ delivery before => before.delivery delivery) _)
    · rintro result info rfl _
      exact .single fun _ => spared_checkCursorOwner joint info.serverId
  exact (handled.keeps (fun _ _ step => step) (fun _ => Spared.hushed) (fun _ _ work before => before.work work)
    ⟨joint, Or.inl rfl⟩ contradicted).2

end Reports

section Stopped

/-- The engine is stopped: it sent the commits and holds nothing in sync. -/
structure Stopped (commits : List lib.Block) (engine : Engine lib) : Prop where
  contradicted : engine.anchorContradicted = true
  suspected : engine.forkSuspected = true
  sent : engine.commits = commits
  empty : ∀ row ∈ engine.records.rows, row.state ≠ .inSync

/-- A contradicted anchor lets no block in sync. -/
theorem chainState_of_contradicted (contradicted : engine.anchorContradicted = true) (block : lib.Block) :
    engine.chainState block = .invalid := by
  simp [chainState, contradicted]

theorem Grounded.not_contradicted (grounded : engine.Grounded) : ¬ engine.anchorContradicted = true := by
  simp [grounded.uncontradicted]

/-- No row enters in sync after the anchor was contradicted. -/
theorem Change.not_inSync {next : Row lib} (change : Change permits engine row next)
    (contradicted : engine.anchorContradicted = true) (outside : row.state ≠ .inSync) : next.state ≠ .inSync := by
  have shut := chainState_of_contradicted contradicted
  cases change with
  | confirm => simp [Row.at, shut]
  | refuse => simp
  | replace pending => simp [Row.withBlock, pending]
  | adopt => simp [Row.at, shut]
  | follow _ _ _ _ _ _ grounded | retain _ _ _ grounded => exact absurd contradicted grounded.not_contradicted
  | read _ _ _ accepted => simp [shut] at accepted
  | rebase pending => simp [Row.withBlock, pending]
  | assign => exact outside
  | demote => simp

theorem guarded_stopped (commits : List lib.Block) : Guarded (fun _ _ => True) (fun _ => True) (Stopped commits) := by
  intro _ before after _ move stopped
  obtain ⟨sent, suspected⟩ := move.of_suspected stopped.suspected
  have sent := sent.trans stopped.sent
  cases move with
  | quiet quiet =>
    refine ⟨?_, suspected, sent, by rw [quiet.records]; exact stopped.empty⟩
    obtain same | ⟨contradicted, _, _⟩ := quiet.reported
    · exact same.trans stopped.contradicted
    · exact contradicted
  | send sends => exact absurd stopped.suspected (by simp [sends.unsuspected])
  | change change replaces =>
    refine ⟨stopped.contradicted, suspected, sent, replaces.forall_rows stopped.empty ?_⟩
    exact change.not_inSync stopped.contradicted (stopped.empty _ replaces.inside)
  | arrive arrival done =>
    refine ⟨stopped.contradicted, suspected, sent, forall_created done stopped.empty fun record => ?_⟩
    cases arrival with
    | own => simp [newRow]
    | verified => simp [newRow, chainState_of_contradicted stopped.contradicted]
    | unread => simp [newRow]
  | truncate =>
    refine ⟨stopped.contradicted, suspected, sent, ?_⟩
    intro row inside
    exact stopped.empty row (List.mem_filter.mp inside).1

theorem admitsAll_true (blocks : List lib.Block) (engine : Engine lib) : AdmitsAll (fun _ _ => True) engine blocks := by
  induction blocks generalizing engine with
  | nil => trivial
  | cons block rest ih => exact ⟨admits_of_all block fun _ _ => trivial, fun reached _ => ih reached⟩

theorem admitsEvent_true (engine : Engine lib) (event : EngineEvent lib) :
    AdmitsEvent (fun _ _ => True) engine event := by
  cases event with
  | recordReceived block => exact admits_of_all block fun _ _ => trivial
  | recordResponse => exact fun blocks _ => admitsAll_true blocks engine
  | commitResponse => exact fun _ _ _ _ _ _ _ => trivial
  | sequenceNumberResponse => exact fun _ _ _ _ _ _ => trivial
  | _ => trivial

/-- A stopped engine stays stopped. -/
theorem Stopped.run {commits : List lib.Block} {later : Engine lib} (stopped : Stopped commits engine)
    (run : Runs step (fun _ _ => True) engine later) : Stopped commits later :=
  run.keeps stopped fun state event before _ => (guarded_stopped commits).event (admitsEvent_true state event)
    (fun _ _ => trivial) before

end Stopped

/-- The row is in sync only on the anchor, and waits with the anchor's block only at its position. -/
structure Fastens (engine : Engine lib) (row : Row lib) : Prop where
  enters : row.state = .inSync → engine.anchorContradicted = false ∧
    (engine.findAnchor.isSome = true ∨ row.hash = engine.config.trustedAnchor.hash)
  placed : row.state = .pendingSync → lib.hash row.block = engine.config.trustedAnchor.hash →
    row.hash = engine.config.trustedAnchor.hash
  numbered : row.state = .inSync ∨ row.state = .pendingSync → row.sequence ≠ 0

/-- The invariant of a client with a trusted anchor. -/
structure Anchoring (engine : Engine lib) : Prop where
  valid : engine.config.trustedAnchor.isValid = true
  joint : engine.Joint
  fastens : ∀ row ∈ engine.records.rows, engine.Fastens row

theorem Fastens.of_idle (outside : row.state ≠ .inSync) (idle : row.state ≠ .pendingSync) : engine.Fastens row :=
  ⟨fun inSync => absurd inSync outside, fun waiting => absurd waiting idle,
    fun either => (either.elim outside idle).elim⟩

/-- A row in sync holds the engine grounded. -/
theorem Anchoring.grounded (anchoring : engine.Anchoring) (inside : row ∈ engine.records.rows)
    (inSync : row.state = .inSync) : engine.Grounded := by
  obtain ⟨uncontradicted, held | anchor⟩ := (anchoring.fastens row inside).enters inSync
  · exact ⟨uncontradicted, fun _ => held⟩
  · exact ⟨uncontradicted, fun _ => findAnchor_isSome_iff.mpr ⟨row, inside, inSync, anchor⟩⟩

/-- Other records keep the invariant when the rows in sync keep their hashes and all rows fasten. -/
theorem Anchoring.update {records : RecordStorage lib} (anchoring : engine.Anchoring)
    (keeps : ∀ row ∈ engine.records.rows, row.state = .inSync →
      ∃ kept ∈ records.rows, kept.state = .inSync ∧ kept.hash = row.hash)
    (fastens : ∀ row ∈ records.rows, engine.Fastens row) : Anchoring { engine with records } := by
  refine ⟨anchoring.valid, anchoring.joint, ?_⟩
  intro row inside
  refine ⟨?_, (fastens row inside).placed, (fastens row inside).numbered⟩
  intro inSync
  refine ((fastens row inside).enters inSync).imp_right (Or.imp_left ?_)
  intro held
  obtain ⟨anchor, anchorIn, anchorInSync, hash⟩ := findAnchor_isSome_iff.mp held
  obtain ⟨kept, keptIn, keptInSync, same⟩ := keeps anchor anchorIn anchorInSync
  exact findAnchor_isSome_iff.mpr ⟨kept, keptIn, keptInSync, same.trans hash⟩

theorem sequence_ne_zero (valid : (lib.blockId block).isValid = true) : block.sequence ≠ 0 := by
  simp only [ChainBlockId.isValid, Bool.and_eq_true, decide_eq_true_eq] at valid
  exact valid.1

/-- A row at the position of a judged block fastens when it does not wait there with the anchor's block. -/
theorem Anchoring.fastens_at (anchoring : engine.Anchoring) (valid : (lib.blockId block).isValid = true)
    (placed : engine.chainState block = .pendingSync → lib.hash row.block = engine.config.trustedAnchor.hash →
      lib.hash block = engine.config.trustedAnchor.hash) :
    engine.Fastens (row.at block (engine.chainState block)) := by
  refine ⟨?_, placed, fun _ => sequence_ne_zero valid⟩
  intro inSync
  exact (anchored_of_accepted inSync).imp_right fun anchored => anchored anchoring.valid

theorem Grounded.enters (grounded : engine.Grounded) (valid : engine.config.trustedAnchor.isValid = true) :
    engine.anchorContradicted = false ∧
      (engine.findAnchor.isSome = true ∨ row.hash = engine.config.trustedAnchor.hash) :=
  ⟨grounded.uncontradicted, Or.inl (grounded.anchored valid)⟩

/-- A waiting row that enters in sync still fastens. -/
theorem Fastens.lifted (fastens : engine.Fastens row) (waiting : row.state = .pendingSync)
    (enters : (lib.hash row.block = engine.config.trustedAnchor.hash → row.hash = engine.config.trustedAnchor.hash) →
      engine.anchorContradicted = false ∧
        (engine.findAnchor.isSome = true ∨ row.hash = engine.config.trustedAnchor.hash)) :
    engine.Fastens { row with state := .inSync } where
  enters _ := enters (fastens.placed waiting)
  placed again := by cases again
  numbered _ := fastens.numbered (Or.inr waiting)

/-- The permitted entries apart from a switch of the replica. -/
def KeepsHeld (start : Engine lib) (entry : Entry lib) : Prop :=
  start.KeepsAnchor entry ∧ entry ≠ .switch

/-- The changes leave rows that fasten. -/
theorem Anchoring.fastens_change {start : Engine lib} {next : Row lib} (anchoring : engine.Anchoring)
    (further : start.Further engine) (inside : row ∈ engine.records.rows)
    (change : Change start.KeepsHeld engine row next) : engine.Fastens next := by
  have old := anchoring.fastens row inside
  cases change with
  | confirm _ valid _ _ permitted =>
    refine anchoring.fastens_at valid ?_
    rw [further.config]
    exact permitted.1
  | refuse => exact .of_idle (by simp) (by simp)
  | replace pending => exact .of_idle (by simp [Row.withBlock, pending]) (by simp [Row.withBlock, pending])
  | adopt _ valid => exact anchoring.fastens_at valid fun _ => id
  | follow waiting _ _ _ _ _ grounded | retain waiting _ _ grounded =>
    exact old.lifted waiting fun _ => grounded.enters anchoring.valid
  | read waiting _ _ accepted =>
    refine old.lifted waiting ?_
    intro placed
    exact (anchored_of_accepted accepted).imp_right fun anchored => (anchored anchoring.valid).imp_right placed
  | rebase pending => exact .of_idle (by simp [Row.withBlock, pending]) (by simp [Row.withBlock, pending])
  | assign => exact ⟨old.enters, old.placed, old.numbered⟩
  | demote _ _ permitted => exact absurd rfl permitted.2

theorem Anchoring.fastens_arrival {state : RecordState} {record : Record} (anchoring : engine.Anchoring)
    (arrival : Arrival brings engine block state) : engine.Fastens (engine.records.newRow block state record) := by
  cases arrival with
  | own => exact .of_idle (by simp [newRow]) (by simp [newRow])
  | verified valid =>
    refine ⟨?_, fun _ => id, fun _ => sequence_ne_zero valid⟩
    intro inSync
    exact (anchored_of_accepted inSync).imp_right fun anchored => anchored anchoring.valid
  | unread valid => exact ⟨fun inSync => (by cases inSync), fun _ => id, fun _ => sequence_ne_zero valid⟩

theorem guarded_anchoring : Guarded (fun start : Engine lib => start.KeepsHeld) (fun _ => True) Anchoring := by
  intro start before after further move anchoring
  have joint := anchoring.joint.move move
  cases move with
  | quiet quiet =>
    refine ⟨by rw [quiet.config]; exact anchoring.valid, joint, ?_⟩
    rw [quiet.records]
    intro row inside
    have old := anchoring.fastens row inside
    refine ⟨?_, by rw [quiet.config]; exact old.placed, old.numbered⟩
    intro inSync
    have grounded := (anchoring.grounded inside inSync).quiet quiet
    exact ⟨grounded.uncontradicted, Or.inl (grounded.anchored (by rw [quiet.config]; exact anchoring.valid))⟩
  | send sends =>
    refine ⟨by rw [sends.config]; exact anchoring.valid, joint, ?_⟩
    rw [sends.records]
    intro row inside
    have old := anchoring.fastens row inside
    refine ⟨?_, by rw [sends.config]; exact old.placed, old.numbered⟩
    rw [sends.contradicted, sends.config, findAnchor_congr sends.records sends.config]
    exact old.enters
  | change change replaces =>
    refine anchoring.update ?_ ?_
    · intro row inside inSync
      obtain ⟨kept, keptIn, keptInSync, _, hash⟩ :=
        change.keeps_inSync replaces (fun _ permitted => permitted.2 rfl) inside inSync
      exact ⟨kept, keptIn, keptInSync, hash⟩
    · exact replaces.forall_rows anchoring.fastens (anchoring.fastens_change further replaces.inside change)
  | arrive arrival done =>
    refine anchoring.update ?_ (forall_created done anchoring.fastens fun _ => anchoring.fastens_arrival arrival)
    exact fun row inside inSync => ⟨row, mem_created done inside, inSync, rfl⟩
  | truncate _ permitted => exact absurd rfl permitted.2

section Resync

/-- The loop that makes rows pending does not fail, and leaves the other rows. -/
theorem run_demote (rows : List (Row lib)) (engine : Engine lib) :
    ∃ records, (rows.forM fun row => writeRecords fun records => records.setState row.key .pendingCommit).run engine =
      .ok () { engine with records } ∧ ∀ row ∈ records.rows, isReceived row = true → row ∈ engine.records.rows := by
  induction rows generalizing engine with
  | nil => exact ⟨engine.records, rfl, fun _ inside _ => inside⟩
  | cons row rest ih =>
    have unconfirmed : RecordState.pendingCommit.isServerConfirmed = false := rfl
    obtain ⟨middle, written⟩ := engine.records.setState_ok row.key unconfirmed
    obtain ⟨records, done, received⟩ := ih { engine with records := middle }
    refine ⟨records, ?_, ?_⟩
    · change (writeRecords (fun records => records.setState row.key .pendingCommit) >>= fun _ =>
        rest.forM fun row => writeRecords fun records => records.setState row.key .pendingCommit).run engine = _
      rw [Effect.run_bind, run_writeRecords, written]
      exact done
    · intro other inside isReceived
      have before := received other inside isReceived
      rw [updateRow_ok_iff.mp written, List.mem_map] at before
      obtain ⟨source, sourceIn, changed⟩ := before
      split at changed
      · subst changed
        rw [if_neg (by decide)] at isReceived
        simp [RecordStorage.isReceived] at isReceived
      · exact changed ▸ sourceIn

/-- A switch of the replica leaves no received record. -/
theorem final_beginReplicaResync (owner : PublicKeyId) (engine : Engine lib) :
    ∃ records,
      (beginReplicaResync owner).final engine = { engine with records, cursorOwner := owner, serverSeq := 0 } ∧
      ∀ row ∈ records.rows, isReceived row = true → row ∈ engine.records.rows ∧ row.sequence = 0 := by
  obtain ⟨middle, first, fromFirst⟩ := run_demote (engine.records.findAllInRange 1 none .inSync) engine
  obtain ⟨last, second, fromSecond⟩ :=
    run_demote (middle.findAllInRange 1 none .acked) { engine with records := middle }
  refine ⟨last.truncateFrom 1, ?_, ?_⟩
  · unfold beginReplicaResync Effect.final
    rw [Effect.run_bind, Effect.run_get]
    dsimp only
    rw [Effect.run_bind, first]
    dsimp only
    rw [Effect.run_bind, Effect.run_get]
    dsimp only
    rw [Effect.run_bind, second]
    rfl
  · intro row inside received
    obtain ⟨stored, kept⟩ := List.mem_filter.mp inside
    refine ⟨fromFirst row (fromSecond row stored received) received, ?_⟩
    simpa [received] using kept

/-- A switch of the replica keeps the invariant, since it leaves nothing in sync and nothing waiting. -/
theorem Anchoring.resync (anchoring : engine.Anchoring) (owner : PublicKeyId) :
    ((beginReplicaResync owner).final engine).Anchoring := by
  obtain ⟨records, final, received⟩ := final_beginReplicaResync owner engine
  rw [final]
  refine ⟨anchoring.valid, anchoring.joint, ?_⟩
  intro row inside
  have gone : ¬ (row.state = .inSync ∨ row.state = .pendingSync) := by
    intro either
    have isReceived : isReceived row = true := by
      obtain state | state := either <;> simp [RecordStorage.isReceived, state]
    obtain ⟨before, zero⟩ := received row inside isReceived
    exact (anchoring.fastens row before).numbered either zero
  exact .of_idle (fun inSync => gone (Or.inl inSync)) fun waiting => gone (Or.inr waiting)

theorem Anchoring.checkCursorOwner (anchoring : engine.Anchoring) (serverId : PublicKeyId) :
    ((checkCursorOwner serverId).final engine).Anchoring := by
  have steps : Effect.Steps (fun before after : Engine lib => before.Anchoring → after.Anchoring)
      (Engine.checkCursorOwner serverId) engine := by
    refine .get_bind ?_
    split
    · exact .pure _
    split
    · exact .set fun before => guarded_anchoring engine engine _ (.refl engine) (.quiet (.of_core rfl rfl)) before
    · split
      · exact .single fun before => before.resync serverId
      · exact .pure _
  exact steps.keeps Anchoring (fun _ _ step => step) anchoring

end Resync

theorem Admits.held (admits : Admits engine.KeepsAnchor engine block) : Admits engine.KeepsHeld engine block where
  confirm row found pending same := ⟨admits.confirm row found pending same, nofun⟩
  adopt _ _ _ _ _ := ⟨trivial, nofun⟩
  promotes _ _ := ⟨fun _ _ => ⟨trivial, nofun⟩, fun _ _ _ _ _ _ => ⟨trivial, nofun⟩⟩

theorem AdmitsAll.held {blocks : List lib.Block} (admits : AdmitsAll KeepsAnchor engine blocks) :
    AdmitsAll KeepsHeld engine blocks := by
  induction blocks generalizing engine with
  | nil => trivial
  | cons block rest ih => exact ⟨admits.1.held, fun reached done => ih (admits.2 reached done)⟩

/-- An event that leaves the anchor's block in place keeps the invariant. -/
theorem Anchoring.event {event : EngineEvent lib} (anchoring : engine.Anchoring)
    (admits : AdmitsEvent KeepsAnchor engine event) : (engine.step event).Anchoring := by
  have handled :
      Handles (fun before after : Engine lib => before.Anchoring → after.Anchoring) (handle event) engine := by
    refine handles ?_ ?_ ?_ ?_
    · rintro block envelope rfl
      exact guarded_anchoring.moves (delivers_handleIncomingRecord envelope (Admits.held admits) trivial).moves
    · rintro handle response blocks rfl answer
      exact guarded_anchoring.deliveries blocks engine (admits blocks answer).held fun _ _ => trivial
    · rintro handle response rfl
      have handled : Handles (Delivery engine.KeepsHeld fun _ => True) (onCommitResponse handle response) engine :=
        handles_onCommitResponse fun block row answer valid found unconfirmed same =>
          ⟨admits block row answer valid found unconfirmed same, nofun⟩
      exact handled.widen fun _ delivers => .single (guarded_anchoring.delivered delivers)
    · rintro result info rfl _
      exact .single fun before => before.checkCursorOwner info.serverId
  refine handled.keeps (fun _ _ step => step) (fun _ kept => kept) ?_ anchoring
  intro before after work
  exact guarded_anchoring before before after (.refl before) (work.move _ _)

theorem Anchoring.anchorSafe (anchoring : engine.Anchoring) : engine.AnchorSafe where
  anchored := by
    intro held
    obtain ⟨row, inside, inSync⟩ := held
    exact findAnchor_isSome_iff.mp ((anchoring.grounded inside inSync).anchored anchoring.valid)
  reports := commits_of_contradicted anchoring.joint
  stopped := by
    intro contradicted later run
    have stopped : Stopped engine.commits engine := by
      refine ⟨contradicted, anchoring.joint contradicted, rfl, ?_⟩
      intro row inside inSync
      exact (anchoring.grounded inside inSync).not_contradicted contradicted
    exact ⟨(stopped.run run).sent, (stopped.run run).empty⟩

/-- A client that starts empty with a trusted anchor is safe in every state that it reaches, as long as
no answer lets a record wait away from the anchor's block that it has. -/
theorem anchorSafe_of_run {reached : Engine lib} (valid : engine.config.trustedAnchor.isValid = true)
    (fresh : engine.records.rows = []) (unreported : engine.anchorContradicted = false)
    (run : Runs step (AdmitsEvent KeepsAnchor) engine reached) : reached.AnchorSafe := by
  have anchoring : engine.Anchoring := by
    refine ⟨valid, ?_, by simp [fresh]⟩
    intro contradicted
    rw [unreported] at contradicted
    cases contradicted
  exact (run.keeps anchoring fun _ _ before admits => before.event admits).anchorSafe

/-- The first record of a storage, with a key that comes later. -/
def anchorBlock : Securepath.sample.Block :=
  ⟨(1, ⟨{ encryptionKey := 1 }, .userChange ⟨⟨.delta, []⟩, []⟩, [[]]⟩), ⟨[8], none⟩, 1, []⟩

/-- A strict client that trusts the first record. -/
def anchoredClient : Engine .sample :=
  { newClient with config := { trustedAnchor := Securepath.sample.blockId anchorBlock } }

theorem anchorSafe_of_run_anchored :
    AnchorSafe ((anchoredClient.step (.insertKey ⟨1, [8]⟩)).step (.recordReceived anchorBlock none)) := by
  have run : Runs step (AdmitsEvent KeepsAnchor) anchoredClient
      ((anchoredClient.step (.insertKey ⟨1, [8]⟩)).step (.recordReceived anchorBlock none)) := by
    refine .tail (.tail (.refl _) trivial) ?_
    have unknown : (anchoredClient.step (.insertKey ⟨1, [8]⟩)).records.findTag anchorBlock.tag = none := by decide +kernel
    refine ⟨?_, fun _ _ _ _ _ => trivial, fun _ _ => ⟨fun _ _ => trivial, fun _ _ _ _ _ _ => trivial⟩⟩
    intro row found
    rw [unknown] at found
    cases found
  exact anchorSafe_of_run (by decide) rfl rfl run

/-- The anchor waits for its key, an answer moves it to five, and then another record brings the key. -/
def movedAnchor : Engine .sample :=
  ((anchoredClient.step (.recordReceived anchorBlock none)).step
    (.commitResponse 1 { data := .ok (anchorBlock.setSequenceAndParentHash 5 [9]) })).step (.recordReceived keyChange none)

/-- The anchor's record is in sync at another position, so the anchor itself is not in sync. -/
theorem not_anchorSafe_moved : ¬ movedAnchor.AnchorSafe := by
  intro safe
  have held := safe.anchored (by decide +kernel)
  exact absurd held (by decide +kernel)

end Engine

end SpSync
