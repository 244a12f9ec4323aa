import SpSync.Proof.Engine.Moves

namespace SpSync

open Foundation RecordStorage

variable {lib : Securepath}

/-- The waiting row is the next one behind the block. -/
structure Row.Follows (row : Row lib) (records : RecordStorage lib) (id : ChainBlockId) : Prop where
  inside : row ∈ records.rows
  waiting : row.state = .pendingSync
  next : row.sequence = id.sequence + 1
  link : row.parentHash = id.hash

/-- The row waits behind the block, directly or after other waiting rows. -/
inductive Behind (records : RecordStorage lib) : ChainBlockId → Row lib → Prop
  | next {id : ChainBlockId} {row : Row lib} (follows : row.Follows records id) : Behind records id row
  | later {id : ChainBlockId} {middle row : Row lib} (follows : middle.Follows records id)
      (behind : Behind records middle.blockId row) : Behind records id row

theorem Behind.mono {before after : RecordStorage lib} {id : ChainBlockId} {row : Row lib}
    (behind : Behind after id row)
    (fewer : ∀ row ∈ after.rows, row.state = .pendingSync → row ∈ before.rows) : Behind before id row := by
  induction behind with
  | next follows => exact .next ⟨fewer _ follows.inside follows.waiting, follows.waiting, follows.next, follows.link⟩
  | later follows _ ih =>
    exact .later ⟨fewer _ follows.inside follows.waiting, follows.waiting, follows.next, follows.link⟩ ih

namespace Engine

variable {permits : Entry lib → Prop} {brings : lib.Block → Prop} {engine : Engine lib} {A : Type} {block : lib.Block}
  {row : Row lib} {reached next : Engine lib} {record : Record} {state : RecordState}

/-- What the run has to permit when the block enters in sync. -/
structure Promotes (permits : Entry lib → Prop) (engine : Engine lib) (block : lib.Block) : Prop where
  follow : ∀ row, Behind engine.records (lib.blockId block) row → permits (.follow row)
  retain : engine.config.trustedAnchor.isValid = true → lib.hash block = engine.config.trustedAnchor.hash →
    ∀ row ∈ engine.records.rows, row.state = .pendingSync → row.sequence ≤ block.sequence - 1 → permits (.retain row)

/-- Fewer waiting rows need no other permission. -/
theorem Promotes.mono (promotes : Promotes permits engine block) (config : reached.config = engine.config)
    (fewer : ∀ row ∈ reached.records.rows, row.state = .pendingSync → row ∈ engine.records.rows) :
    Promotes permits reached block := by
  refine ⟨fun row behind => promotes.follow row (behind.mono fewer), ?_⟩
  rw [config]
  intro valid anchor row inside waiting below
  exact promotes.retain valid anchor row (fewer row inside waiting) waiting below

/-- The block enters in sync: the chain rules accept it, and a key that is stored or that it brings
along authenticates it. -/
def Accepts (engine : Engine lib) (block : lib.Block) : Prop :=
  engine.chainState block = .inSync ∧ ∃ record, lib.deserialise block.record = some record ∧
    (learnRecordKey lib engine.keys record block.auth).1.Reads lib record block.auth

/-- What the run has to permit for a delivered block. -/
structure Admits (permits : Entry lib → Prop) (engine : Engine lib) (block : lib.Block) : Prop where
  confirm : ∀ row, engine.records.findTag block.tag = some row → row.state = .pendingCommit →
    block.checkMatchesWithoutServerData row.block = true → permits (.confirm row block (engine.chainState block))
  adopt : ∀ record row, engine.records.findTag block.tag = none → lib.deserialise block.record = some record →
    engine.findPendingByOp record.base.opId = some row → permits (.adopt row block (engine.chainState block))
  promotes : engine.records.findTag block.tag = none → engine.Accepts block → Promotes permits engine block

/-- A delivered block needs nothing else than the entries of records. -/
theorem admits_of_all (block : lib.Block) (all : ∀ entry, entry ≠ .switch → permits entry) :
    Admits permits engine block where
  confirm _ _ _ _ := all _ nofun
  adopt _ _ _ _ _ := all _ nofun
  promotes _ _ := ⟨fun _ _ => all _ nofun, fun _ _ _ _ _ _ => all _ nofun⟩

/-- The row enters in sync, or nothing happens to the records. -/
inductive LiftOf (permits : Entry lib → Prop) (row : Row lib) (engine : Engine lib) : Engine lib → Prop
  | quiet {next : Engine lib} (quiet : engine.Quiet next) : LiftOf permits row engine next
  | lift {records : RecordStorage lib} (waiting : row.state = .pendingSync)
      (change : Change permits engine row { row with state := .inSync })
      (replaces : Replaces engine.records records row { row with state := .inSync }) :
      LiftOf permits row engine { engine with records }

/-- A waiting row enters in sync, or nothing happens to the records. -/
def Lift (permits : Entry lib → Prop) (engine next : Engine lib) : Prop :=
  ∃ row, LiftOf permits row engine next

theorem Lift.delivery (lift : Lift permits engine next) : Delivery permits brings engine next := by
  obtain ⟨row, lift⟩ := lift
  cases lift with
  | quiet quiet => exact ⟨.quiet quiet, Or.inl quiet.commits⟩
  | lift _ change replaces => exact ⟨.change change replaces, Or.inl rfl⟩

theorem LiftOf.config (lift : LiftOf permits row engine next) : next.config = engine.config := by
  cases lift with
  | quiet quiet => exact quiet.config
  | lift => rfl

/-- Only the row itself changes. -/
theorem LiftOf.keeps_other {other : Row lib} (lift : LiftOf permits row engine next) (apart : other ≠ row)
    (inside : other ∈ engine.records.rows) : other ∈ next.records.rows := by
  cases lift with
  | quiet quiet => rwa [quiet.records]
  | lift _ _ replaces => exact replaces.mem_iff.mpr (Or.inl ⟨inside, apart⟩)

/-- A row in sync stays as it is. -/
theorem Lift.keeps_inSync (lift : Lift permits engine next) (inSync : row.state = .inSync)
    (inside : row ∈ engine.records.rows) : row ∈ next.records.rows := by
  obtain ⟨lifted, lift⟩ := lift
  cases lift with
  | quiet quiet => rwa [quiet.records]
  | lift waiting _ replaces =>
    refine replaces.mem_iff.mpr (Or.inl ⟨inside, ?_⟩)
    rintro rfl
    rw [waiting] at inSync
    cases inSync

theorem Grounded.lift (grounded : engine.Grounded) (lift : Lift permits engine next) : next.Grounded := by
  have keeps : ∀ row ∈ engine.records.rows, row.state = .inSync → row ∈ next.records.rows :=
    fun _ inside inSync => lift.keeps_inSync inSync inside
  obtain ⟨lifted, lift⟩ := lift
  cases lift with
  | quiet quiet => exact grounded.quiet quiet
  | lift => exact grounded.of_keeps rfl rfl fun row inside inSync => ⟨row, keeps row inside inSync, inSync, rfl⟩

/-- No row begins to wait. -/
theorem Lift.waiting_before (lift : Lift permits engine next) (inside : row ∈ next.records.rows)
    (waiting : row.state = .pendingSync) : row ∈ engine.records.rows := by
  obtain ⟨lifted, lift⟩ := lift
  cases lift with
  | quiet quiet => rwa [quiet.records] at inside
  | lift _ _ replaces =>
    obtain ⟨before, _⟩ | rfl := replaces.mem_iff.mp inside
    · exact before
    · cases waiting

/-- The rows are in the table in the state, each once. -/
structure Stored (engine : Engine lib) (state : RecordState) (rows : List (Row lib)) : Prop where
  nodup : rows.Nodup
  inside : ∀ row ∈ rows, row ∈ engine.records.rows
  inState : ∀ row ∈ rows, row.state = state

/-- A change of the first row leaves the others. -/
theorem Stored.tail {rest : List (Row lib)} (all : engine.Stored state (row :: rest))
    (keeps : ∀ other, other ≠ row → other ∈ engine.records.rows → other ∈ reached.records.rows) :
    reached.Stored state rest := by
  obtain ⟨apart, nodup⟩ := List.nodup_cons.mp all.nodup
  refine ⟨nodup, ?_, fun other inside => all.inState other (List.mem_cons_of_mem _ inside)⟩
  intro other inside
  exact keeps other (fun same => apart (same ▸ inside)) (all.inside other (List.mem_cons_of_mem _ inside))

theorem keeps_others_of_lifts {effect : EngineEffect lib A} {value : A}
    (steps : Effect.Steps (LiftOf permits row) effect engine) (done : effect.run engine = .ok value reached) :
    ∀ other, other ≠ row → other ∈ engine.records.rows → other ∈ reached.records.rows := by
  intro other differs inside
  rw [← Effect.final_of_ok done]
  exact steps.keeps (fun reached => other ∈ reached.records.rows) (fun _ _ lift => lift.keeps_other differs) inside

theorem stored_findAllInRange (engine : Engine lib) (first : SequenceNumber) (last : Option SequenceNumber)
    (state : RecordState) : engine.Stored state (engine.records.findAllInRange first last state) := by
  have rowsNodup : engine.records.rows.Nodup :=
    engine.records.unique.keys.imp fun less same => absurd (same ▸ less) (Nat.lt_irrefl _)
  refine ⟨?_, ?_, ?_⟩
  · exact (List.perm_insertionSort _ _).nodup_iff.mpr (rowsNodup.filter _)
  · intro row inside
    exact (List.mem_filter.mp ((List.perm_insertionSort _ _).mem_iff.mp inside)).1
  · intro row inside
    have holds := (List.mem_filter.mp ((List.perm_insertionSort _ _).mem_iff.mp inside)).2
    simp only [Bool.and_eq_true, decide_eq_true_eq] at holds
    exact holds.1.1

/-- Only an engine without its anchor looks for the anchor. -/
theorem not_grounded_of_mismatch (mismatch : engine.anchorGate block = some .invalid) : ¬ engine.Grounded := by
  intro grounded
  unfold anchorGate at mismatch
  split at mismatch
  · rename_i missing
    rw [Bool.and_eq_true] at missing
    have held := grounded.anchored missing.1
    rw [Option.isSome_iff_ne_none] at held
    exact held (Option.isNone_iff_eq_none.mp missing.2)
  · cases mismatch

/-- A block is accepted when no block contradicted the anchor and the anchor is held or is the block itself. -/
theorem anchored_of_accepted (accepted : engine.chainState block = .inSync) :
    engine.anchorContradicted = false ∧ (engine.config.trustedAnchor.isValid = true →
      engine.findAnchor.isSome = true ∨ lib.hash block = engine.config.trustedAnchor.hash) := by
  unfold chainState at accepted
  split at accepted
  · cases accepted
  rename_i uncontradicted
  refine ⟨Bool.not_eq_true _ ▸ uncontradicted, ?_⟩
  intro valid
  by_cases held : engine.findAnchor.isSome = true
  · exact Or.inl held
  refine Or.inr ?_
  rw [Bool.not_eq_true, Option.isSome_eq_false_iff] at held
  unfold anchorGate at accepted
  rw [valid, held, Bool.and_self, if_pos rfl] at accepted
  by_contra other
  rw [if_neg other] at accepted
  cases contradicts : engine.contradictsAnchor block <;> simp [contradicts] at accepted

theorem silent_checkChainBlock (block : lib.Block) : Silent (checkChainBlock block) engine := by
  refine .get_bind ?_
  split
  · rename_i mismatch
    rw [Bool.and_eq_true, Bool.not_eq_true', decide_eq_true_eq] at mismatch
    have reported : engine.Quiet { engine with forkSuspected := true, anchorContradicted := true } :=
      ⟨rfl, rfl, List.Subset.refl _, List.Subset.refl _, rfl, fun _ => rfl,
        Or.inr ⟨rfl, rfl, not_grounded_of_mismatch mismatch.2⟩, fun _ => Or.inl⟩
    exact .bind (.set reported) fun _ _ _ => .pure _
  · exact .pure _

/-- The judgement still holds in the state that it leaves. -/
theorem checkChainBlock_ok (done : (checkChainBlock block).run engine = .ok state reached) :
    state = engine.chainState block ∧ state = reached.chainState block := by
  unfold checkChainBlock at done
  rw [Effect.run_bind, Effect.run_get] at done
  dsimp only at done
  rw [Effect.run_ite] at done
  split at done
  · rename_i mismatch
    simp only [Bool.and_eq_true, Bool.not_eq_true', decide_eq_true_eq] at mismatch
    cases done
    simp [chainState, mismatch.1, mismatch.2]
  · cases done
    exact ⟨rfl, rfl⟩

theorem subset_insert (storage : KeyStorage) (key : EncryptionKey) : storage.keys ⊆ (storage.insert key).keys := by
  unfold KeyStorage.insert
  split
  · exact List.Subset.refl _
  · exact List.subset_append_left _ _

/-- The keys of an envelope are only added. -/
theorem subset_extracted (opened : List EncryptionKey) (storage : KeyStorage) (learned : Bool) :
    storage.keys ⊆ (opened.foldl (fun (entry : KeyStorage × Bool) key =>
      (entry.1.insert key, entry.2 || (entry.1.findAll key.keySeq).isEmpty)) (storage, learned)).1.keys := by
  induction opened generalizing storage learned with
  | nil => exact List.Subset.refl _
  | cons key rest ih => exact List.Subset.trans (subset_insert storage key) (ih _ _)

theorem subset_extractKeysOf (keys : KeyStorage) (record : Record) :
    keys.keys ⊆ (extractKeysOf lib keys record).1.keys := by
  unfold extractKeysOf extractEncryptionKey
  split
  · split
    · exact List.Subset.refl _
    · split
      · exact List.Subset.refl _
      · exact subset_extracted _ keys false
  · exact List.Subset.refl _

theorem subset_learnRecordKey (keys : KeyStorage) (record : Record) (auth : ContentAuth) :
    keys.keys ⊆ (learnRecordKey lib keys record auth).1.keys := by
  unfold learnRecordKey
  split
  · exact List.Subset.refl _
  · exact subset_extractKeysOf keys record

section

variable (waiting : row.state = .pendingSync) (inside : row ∈ engine.records.rows)
include waiting inside

theorem lifts_writeState (change : Change permits engine row { row with state := .inSync }) :
    Effect.Steps (LiftOf permits row) (writeRecords fun records => records.setState row.key .inSync) engine := by
  refine .get_bind ?_
  split
  · rename_i records done
    exact .modify (.lift waiting change (setState_replaces inside done))
  · exact .throw _

theorem lifts_retryReadable (parsed : lib.deserialise row.block.record = some record)
    (readable : engine.keys.Reads lib record row.block.auth) :
    Effect.Steps (LiftOf permits row) (retryReadable row record) engine := by
  have extracted : engine.Quiet { engine with keys := (extractKeysOf lib engine.keys record).1 } :=
    ⟨rfl, rfl, subset_extractKeysOf _ _, List.Subset.refl _, rfl, id, Or.inl rfl, fun _ => Or.inl⟩
  refine .bind (.modify (.quiet extracted)) ?_
  intro _ middle done
  obtain rfl := Effect.modify_ok done
  have judge : Silent _ { engine with keys := (extractKeysOf lib engine.keys record).1 } :=
    silent_checkChainBlock row.block
  refine .bind (judge.mono fun _ _ => .quiet) ?_
  intro state reached judged
  have quiet := extracted.trans (judge.reaches judged)
  split
  · rename_i accepted
    have inside : row ∈ reached.records.rows := by rw [quiet.records]; exact inside
    refine .bind (lifts_writeState waiting inside ?_) fun _ _ _ => .pure _
    exact .read waiting parsed (readable.mono quiet.keys) ((checkChainBlock_ok judged).2.symm.trans accepted)
  · exact .pure _

theorem lifts_retryRow : Effect.Steps (LiftOf permits row) (retryRow row) engine := by
  refine .bind ((drafting_deserialiseRecord _).still.mono fun _ _ calm => .quiet calm.toQuiet) ?_
  intro record reached done
  obtain ⟨parsed, rfl⟩ := deserialiseRecord_ok done
  refine .get_bind ?_
  split
  · exact .pure _
  rename_i found
  split
  · exact .pure _
  · exact lifts_retryReadable waiting inside parsed (findRecordKey_some found)

end

theorem lifts_retryRows (rows : List (Row lib)) (engine : Engine lib) (all : engine.Stored .pendingSync rows) :
    Effect.Steps (Lift permits) (retryRows rows) engine := by
  induction rows generalizing engine with
  | nil => exact .pure _
  | cons row rest ih =>
    have steps : Effect.Steps (LiftOf permits row) (retryRow row) engine :=
      lifts_retryRow (all.inState row List.mem_cons_self) (all.inside row List.mem_cons_self)
    refine .bind (steps.mono fun _ _ lift => ⟨row, lift⟩) ?_
    intro progress reached done
    refine .bind (ih reached (all.tail (keeps_others_of_lifts steps done))) ?_
    intro _ _ _
    exact .pure _

theorem lifts_retryPending (fuel : Nat) (engine : Engine lib) :
    Effect.Steps (Lift permits) (retryPending fuel) engine := by
  induction fuel generalizing engine with
  | zero => exact .pure _
  | succ fuel ih =>
    refine .get_bind (.bind (lifts_retryRows _ _ (stored_findAllInRange engine 1 none _)) ?_)
    intro progress reached _
    split
    · exact ih reached
    · exact .pure _

theorem delivers_retryUndecryptedPending : Delivers permits brings retryUndecryptedPending engine :=
  .get_bind ((lifts_retryPending _ engine).mono fun _ _ => Lift.delivery)

/-- The retained records are lifted one after the other. -/
theorem lifts_promotePreAnchorRecords (promotes : Promotes permits engine block) (grounded : engine.Grounded) :
    Effect.Steps (Lift permits) (promotePreAnchorRecords (lib.blockId block)) engine := by
  refine .get_bind ?_
  split
  · rename_i anchored
    simp only [Bool.and_eq_true, decide_eq_true_eq] at anchored
    refine .forM (fun rows reached => reached.Stored .pendingSync rows ∧
      (reached.config = engine.config ∧ reached.Grounded) ∧ ∀ row ∈ rows, permits (.retain row)) ?_ _ _ ?_
    · intro row rest reached ready
      obtain ⟨all, ⟨config, reachedGrounded⟩, allowed⟩ := ready
      have waiting := all.inState row List.mem_cons_self
      have steps : Effect.Steps (LiftOf permits row) _ reached :=
        lifts_writeState waiting (all.inside row List.mem_cons_self)
          (.retain waiting (by rw [config]; exact anchored.1) (allowed row List.mem_cons_self) reachedGrounded)
      refine ⟨steps.mono fun _ _ lift => ⟨row, lift⟩, ?_⟩
      intro next done
      refine ⟨all.tail (keeps_others_of_lifts steps done), ?_, fun other inside => allowed other (List.mem_cons_of_mem _ inside)⟩
      rw [← Effect.final_of_ok done]
      exact steps.keeps (fun reached => reached.config = engine.config ∧ reached.Grounded)
        (fun _ _ lift before => ⟨lift.config.trans before.1, before.2.lift ⟨row, lift⟩⟩) ⟨config, reachedGrounded⟩
    · refine ⟨stored_findAllInRange engine _ _ _, ⟨rfl, grounded⟩, ?_⟩
      intro row inside
      have holds := List.mem_filter.mp ((List.perm_insertionSort _ _).mem_iff.mp inside)
      simp only [Bool.and_eq_true, decide_eq_true_eq, Option.all_some] at holds
      exact promotes.retain anchored.1 anchored.2 row holds.1 holds.2.1.1 holds.2.2
  · exact .pure _

/-- The waiting rows behind a row in sync are lifted one after the other. -/
theorem lifts_promotePending (fuel : Nat) (engine : Engine lib) {parent : Row lib}
    (inside : parent ∈ engine.records.rows) (inSync : parent.state = .inSync) (grounded : engine.Grounded)
    (permitted : ∀ row, Behind engine.records parent.blockId row → permits (.follow row)) :
    Effect.Steps (Lift permits) (promotePending fuel parent.blockId) engine := by
  induction fuel generalizing engine parent with
  | zero => exact .pure _
  | succ fuel ih =>
    refine .get_bind ?_
    split
    · exact .pure _
    rename_i next found
    split
    · rename_i link
      have holds := List.find?_some found
      simp only [Bool.and_eq_true, decide_eq_true_eq] at holds
      have nextIn : next ∈ engine.records.rows := List.mem_of_find?_eq_some found
      have follows : next.Follows engine.records parent.blockId := ⟨nextIn, holds.2, holds.1, link⟩
      have change : Change permits engine next { next with state := .inSync } :=
        .follow holds.2 inside inSync holds.1 link (permitted next (.next follows)) grounded
      refine .bind ((lifts_writeState holds.2 nextIn change).mono fun _ _ lift => ⟨next, lift⟩) ?_
      intro _ reached done
      obtain ⟨records, written, rfl⟩ := writeRecords_ok done
      have replaces := setState_replaces nextIn written
      have lift : Lift permits engine { engine with records } := ⟨next, .lift holds.2 change replaces⟩
      have lifted : ({ next with state := .inSync } : Row lib) ∈ records.rows := replaces.mem_iff.mpr (Or.inr rfl)
      have rest := ih { engine with records } lifted rfl (grounded.lift lift) fun row behind =>
        permitted row (.later follows (behind.mono fun _ => lift.waiting_before))
      exact rest
    · exact .pure _

theorem still_checkFork (record : Record) : Still (checkFork record) engine := by
  refine .get_bind ?_
  dsimp only
  split
  · split
    · split
      · exact .set ⟨⟨rfl, rfl, List.Subset.refl _, List.Subset.refl _, rfl, fun _ => rfl, Or.inl rfl, fun _ => Or.inl⟩, rfl⟩
      · exact .pure _
    · exact .pure _
  · exact .pure _

theorem delivers_handleBlockChain (valid : (lib.blockId block).isValid = true)
    (parsed : lib.deserialise block.record = some record) (readable : engine.keys.Reads lib record block.auth)
    (brought : brings block) : Delivers permits brings (handleBlockChain block) engine := by
  have judge : Silent _ engine := silent_checkChainBlock block
  refine .bind judge.delivers ?_
  intro state reached judged
  refine .bind (steps_writeRecords ?_) fun _ _ _ => .pure _
  intro records done
  rw [(checkChainBlock_ok judged).2] at done
  exact ⟨.arrive (.verified valid parsed (readable.mono (judge.reaches judged).keys) brought) done, Or.inl rfl⟩

/-- A block that entered in sync is the newest row, and the engine is grounded. -/
theorem handleBlockChain_true (done : (handleBlockChain block).run engine = .ok true reached) :
    ∃ record, engine.chainState block = .inSync ∧ reached.Grounded ∧ reached.config = engine.config ∧
      reached.records.rows = engine.records.rows ++ [engine.records.newRow block .inSync record] := by
  obtain ⟨state, middle, judged, rest⟩ := Effect.run_bind_ok done
  obtain ⟨_, last, written, final⟩ := Effect.run_bind_ok rest
  obtain ⟨records, created, rfl⟩ := writeRecords_ok written
  have quiet := (silent_checkChainBlock block).reaches judged
  obtain ⟨record, parsed, rows⟩ := create_ok created
  injection final with accepted same
  subst same
  obtain ⟨before, after⟩ := checkChainBlock_ok judged
  rw [of_decide_eq_true accepted] at before after rows
  rw [quiet.records] at rows
  obtain ⟨uncontradicted, anchored⟩ := anchored_of_accepted after.symm
  refine ⟨record, before.symm, ⟨uncontradicted, ?_⟩, quiet.config, rows⟩
  intro valid
  refine findAnchor_isSome_iff.mpr ?_
  rw [rows]
  obtain held | anchor := anchored valid
  · obtain ⟨row, inside, inSync, hash⟩ := findAnchor_isSome_iff.mp held
    rw [quiet.records] at inside
    exact ⟨row, List.mem_append_left _ inside, inSync, hash⟩
  · exact ⟨_, List.mem_append_right _ List.mem_cons_self, rfl, anchor⟩

/-- The rows that wait behind a new row in sync are lifted. -/
theorem delivers_promotions (promotes : engine.chainState block = .inSync → Promotes permits engine block)
    (done : (handleBlockChain block).run engine = .ok true reached) :
    Delivers permits brings (do
      promotePreAnchorRecords (lib.blockId block)
      checkPendingRecords (lib.blockId block)
      let engine ← get
      if engine.records.lastBlock.sequence = engine.serverSeq then tryCommitPending) reached := by
  obtain ⟨record, accepted, grounded, config, rows⟩ := handleBlockChain_true done
  have promotes : Promotes permits reached block := by
    refine (promotes accepted).mono config ?_
    intro row inside waiting
    rw [rows, List.mem_append, List.mem_singleton] at inside
    obtain inside | rfl := inside
    · exact inside
    · cases waiting
  have newIn : engine.records.newRow block .inSync record ∈ reached.records.rows := by
    rw [rows]
    exact List.mem_append_right _ List.mem_cons_self
  have retain := lifts_promotePreAnchorRecords promotes grounded
  refine .bind (retain.mono fun _ _ => Lift.delivery) ?_
  intro _ retained finished
  have kept : engine.records.newRow block .inSync record ∈ retained.records.rows := by
    rw [← Effect.final_of_ok finished]
    exact retain.keeps (fun reached => engine.records.newRow block .inSync record ∈ reached.records.rows)
      (fun _ _ lift => lift.keeps_inSync rfl) newIn
  have fewer : ∀ row ∈ retained.records.rows, row.state = .pendingSync → row ∈ reached.records.rows := by
    rw [← Effect.final_of_ok finished]
    exact retain.keeps (fun next => ∀ row ∈ next.records.rows, row.state = .pendingSync → row ∈ reached.records.rows)
      (fun _ _ lift before row inside waiting => before row (lift.waiting_before inside waiting) waiting)
      fun _ inside _ => inside
  have retainedGrounded : retained.Grounded := by
    rw [← Effect.final_of_ok finished]
    exact retain.keeps Grounded (fun _ _ lift before => before.lift lift) grounded
  have follow : Effect.Steps (Lift permits) (checkPendingRecords (lib.blockId block)) retained :=
    .get_bind (lifts_promotePending retained.records.rows.length retained kept rfl retainedGrounded
      fun row behind => promotes.follow row (behind.mono fewer))
  refine .bind (follow.mono fun _ _ => Lift.delivery) ?_
  intro _ last promoted
  have lastGrounded : last.Grounded := by
    rw [← Effect.final_of_ok promoted]
    exact follow.keeps Grounded (fun _ _ lift before => before.lift lift) retainedGrounded
  refine .get_bind ?_
  split
  · exact works_tryCommitPending.delivers lastGrounded
  · exact .pure _

theorem delivers_verifyBlock {key : EncryptionKey} (valid : (lib.blockId block).isValid = true)
    (parsed : lib.deserialise block.record = some record) (readable : engine.keys.Reads lib record block.auth)
    (brought : brings block) (promotes : engine.chainState block = .inSync → Promotes permits engine block) :
    Delivers permits brings (verifyBlock key block (lib.blockId block) record) engine := by
  unfold verifyBlock
  split
  · have fork : Still _ engine := still_checkFork record
    refine .bind fork.silent.delivers ?_
    intro _ first forked
    have raise : Still _ first := still_updateServerSeq block.sequence
    refine .bind raise.silent.delivers ?_
    intro _ second raised
    have calm := (fork.reaches forked).trans (raise.reaches raised)
    refine .bind (delivers_handleBlockChain valid parsed (readable.mono calm.keys) brought) ?_
    intro accepted third done
    cases accepted with
    | false => exact .pure _
    | true =>
      refine delivers_promotions ?_ done
      intro inSync
      rw [calm.chainState] at inSync
      exact (promotes inSync).mono calm.config fun row inside _ => by rwa [calm.records] at inside
  · exact .pure _

theorem delivers_handleBlock (valid : (lib.blockId block).isValid = true)
    (parsed : lib.deserialise block.record = some record) (brought : brings block)
    (promotes : engine.Accepts block → Promotes permits engine block) :
    Delivers permits brings (handleBlock block (lib.blockId block) record) engine := by
  have calm : engine.Calm { engine with keys := (learnRecordKey lib engine.keys record block.auth).1 } :=
    ⟨⟨rfl, rfl, subset_learnRecordKey _ _ _, List.Subset.refl _, rfl, id, Or.inl rfl, fun _ => Or.inl⟩, rfl⟩
  refine .get_bind (.bind (.set ⟨.quiet calm.toQuiet, Or.inl rfl⟩) ?_)
  intro _ reached done
  obtain rfl := Effect.set_ok done
  refine .bind ?_ ?_
  · unfold storeBlock
    split
    · rename_i key found
      have readable := findRecordKey_some found
      refine delivers_verifyBlock valid parsed readable brought ?_
      intro inSync
      rw [calm.chainState] at inSync
      exact (promotes ⟨inSync, record, parsed, readable⟩).mono rfl fun _ inside _ => inside
    · rename_i missing
      refine steps_writeRecords ?_
      intro records created
      exact ⟨.arrive (.unread valid parsed (findRecordKey_none missing) brought) created, Or.inl rfl⟩
  · intro _ _ _
    split
    · exact delivers_retryUndecryptedPending
    · exact .pure _

theorem delivers_updateRecordCommitState (inside : row ∈ engine.records.rows)
    (valid : (lib.blockId block).isValid = true)
    (permitted : row.state.isServerConfirmed = false → block.checkMatchesWithoutServerData row.block = true →
      permits (.confirm row block (engine.chainState block))) :
    Delivers permits brings (updateRecordCommitState row block (lib.blockId block)) engine := by
  unfold updateRecordCommitState
  split
  · exact .pure _
  rename_i unconfirmed
  rw [Bool.not_eq_true] at unconfirmed
  have judge : Silent _ engine := silent_checkChainBlock block
  refine .bind judge.delivers ?_
  intro state reached judged
  have inside : row ∈ reached.records.rows := by rw [(judge.reaches judged).records]; exact inside
  obtain ⟨before, same⟩ := checkChainBlock_ok judged
  have permitted := permitted unconfirmed
  rw [← before, same] at permitted
  subst same
  split
  · rename_i both
    rw [Bool.and_eq_true] at both
    refine steps_writeRecords ?_
    intro records done
    exact ⟨.change (.confirm unconfirmed valid both.1 both.2 (permitted both.1)) (setPosition_replaces inside valid done),
      Or.inl rfl⟩
  · exact steps_writeRecords fun _ done =>
      ⟨.change (.refuse unconfirmed) (setState_replaces inside done), Or.inl rfl⟩

theorem findPendingByOp_some {opId : Octets} (found : engine.findPendingByOp opId = some row) :
    engine.Pending row ∧ row.opId = opId := by
  unfold findPendingByOp at found
  split at found
  · rename_i own ownFound
    split at found
    · rename_i pending
      cases found
      have holds := List.find?_some ownFound
      simp only [Bool.and_eq_true, decide_eq_true_eq] at holds
      exact ⟨⟨List.mem_of_find?_eq_some ownFound, pending⟩, holds.1⟩
    · cases found
  · cases found

theorem chainState_cases (engine : Engine lib) (block : lib.Block) :
    engine.chainState block = .invalid ∨ engine.chainState block = .pendingSync ∨
      engine.chainState block = .inSync := by
  simp only [chainState, anchorGate, checkChainBlockStrict, checkChainBlockWeak, checkAnchorChainBlock]
  grind

/-- Only a row that should enter in sync can be refused at the position of its block. -/
theorem accepted_of_refused {records : RecordStorage lib} {err : Error} (inside : row.withBlock block ∈ records.rows)
    (good : (engine.chainState block).isValid = true)
    (refused : records.setState row.key (engine.chainState block) (lib.blockId block) block.parentHash = .error err) :
    engine.chainState block = .inSync := by
  obtain invalid | waiting | accepted := chainState_cases engine block
  · rw [invalid] at good
    cases good
  · rw [waiting] at refused
    have written : ∃ updated, records.setState row.key .pendingSync (lib.blockId block) block.parentHash = .ok updated := by
      apply updateRow_ok_of_relaxes
      intro other otherIn sameKey
      obtain rfl := row_eq_of_key otherIn inside sameKey
      split
      · exact ⟨rfl, rfl, rfl, rfl, fun confirmed => by cases confirmed⟩
      · exact ⟨rfl, rfl, rfl, rfl, fun confirmed => by cases confirmed⟩
    obtain ⟨updated, done⟩ := written
    rw [done] at refused
    cases refused
  · exact accepted

theorem delivers_adoptCommitted (pending : engine.Pending row) (valid : (lib.blockId block).isValid = true)
    (parsed : lib.deserialise block.record = some record) (sameOp : record.base.opId = row.opId)
    (permitted : permits (.adopt row block (engine.chainState block))) :
    Delivers permits brings (adoptCommitted row block (lib.blockId block)) engine := by
  have judge : Silent _ engine := silent_checkChainBlock block
  refine .bind judge.delivers ?_
  intro state reached judged
  have inside : row ∈ reached.records.rows := by rw [(judge.reaches judged).records]; exact pending.1
  obtain ⟨before, same⟩ := checkChainBlock_ok judged
  rw [← before, same] at permitted
  subst same
  split
  · rename_i good
    unfold Effect.Steps Effect.final
    rw [Effect.run_bind, run_writeRecords]
    cases placed : reached.records.setRecord row.key block with
    | error err => exact .refl
    | ok middle =>
      have replaces := (setRecord_ok inside placed).2.2
      dsimp only
      rw [run_writeRecords]
      have middleIn : row.withBlock block ∈ middle.rows := replaces.mem_iff.mpr (Or.inr rfl)
      cases settled : middle.setState row.key (reached.chainState block) (lib.blockId block) block.parentHash with
      | error err =>
        have accepted := accepted_of_refused middleIn good settled
        rw [accepted] at permitted
        exact .single ⟨.change (.replace pending.2 valid parsed sameOp accepted permitted) replaces, Or.inl rfl⟩
      | ok last =>
        have again := setPosition_replaces middleIn valid settled
        refine .single ⟨.change (.adopt pending.2 valid parsed sameOp good permitted) ⟨inside, ?_⟩, Or.inl rfl⟩
        rw [again.rows, replaces.rows, List.map_map]
        apply List.map_congr_left
        intro other _
        by_cases equal : other.key = row.key
        · simp only [Function.comp_apply, if_pos equal]
          exact if_pos rfl
        · simp only [Function.comp_apply, if_neg equal]
          exact if_neg equal
  · exact .pure _

theorem delivers_storeAssignment (tag : RecordTag) (envelope : Option lib.Envelope) :
    Delivers permits brings (storeAssignment tag envelope) engine := by
  refine .get_bind ?_
  split
  · rename_i row found
    refine steps_writeRecords ?_
    intro records done
    exact ⟨.change (.assign _) (updateRow_replaces (findTag_eq_some_iff.mp found).1 done), Or.inl rfl⟩
  · exact .pure _

theorem still_clearRejections : Still clearRejections engine :=
  .modify (.of_core rfl rfl)

theorem still_eraseRejection (tag : RecordTag) : Still (eraseRejection tag) engine :=
  .modify (.of_core rfl rfl)

theorem delivers_takeRecord (valid : (lib.blockId block).isValid = true) (admits : Admits permits engine block)
    (brought : brings block) : Delivers permits brings (takeRecord block (lib.blockId block)) engine := by
  refine .get_bind ?_
  split
  · rename_i unknown
    refine .bind still_clearRejections.silent.delivers ?_
    intro _ cleared done
    cases done
    refine .bind (drafting_deserialiseRecord _).still.silent.delivers ?_
    intro record reached done
    obtain ⟨parsed, rfl⟩ := deserialiseRecord_ok done
    refine .get_bind ?_
    split
    · rename_i own found
      obtain ⟨pending, sameOp⟩ := findPendingByOp_some found
      exact delivers_adoptCommitted pending valid parsed sameOp.symm (admits.adopt record own unknown parsed found)
    · refine delivers_handleBlock valid parsed brought ?_
      intro accepts
      exact (admits.promotes unknown accepts).mono rfl fun _ inside _ => inside
  · rename_i row found
    unfold handleKnownRecord
    split
    · rename_i pending
      refine .bind (delivers_updateRecordCommitState (findTag_eq_some_iff.mp found).1 valid
        fun _ => admits.confirm row found pending) ?_
      intro _ _ _
      exact (still_eraseRejection _).silent.delivers
    · exact .pure _

/-- A delivered block is handled by moves that the run permits. -/
theorem delivers_handleIncomingRecord (envelope : Option lib.Envelope) (admits : Admits permits engine block)
    (brought : brings block) : Delivers permits brings (handleIncomingRecord block envelope) engine := by
  refine .get_bind ?_
  split
  · rename_i both
    rw [Bool.and_eq_true] at both
    exact .bind (delivers_takeRecord both.1 admits brought) fun _ _ _ => delivers_storeAssignment _ _
  · exact .pure _

end Engine

end SpSync
