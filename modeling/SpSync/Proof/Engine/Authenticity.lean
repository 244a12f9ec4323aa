import SpSync.Proof.Engine.StrictChain

namespace SpSync

open Foundation RecordStorage

variable {lib : Securepath}

namespace Engine

/-- This client made the record in exactly this form. -/
def isOwn (engine : Engine lib) (block : lib.Block) : Bool :=
  engine.created.any fun own => own.checkMatchesWithoutServerData block

/-- A stored key authenticates the record. -/
def isVerified (engine : Engine lib) (block : lib.Block) : Bool :=
  match lib.deserialise block.record with
  | some record => (findRecordKey lib engine.keys record block.auth).isSome
  | none => false

def isAuthentic (engine : Engine lib) (block : lib.Block) : Bool :=
  engine.isOwn block || engine.isVerified block

/-- Every record in sync is authentic. -/
def AuthenticInSync (engine : Engine lib) : Prop :=
  ∀ row ∈ engine.records.rows, row.state = .inSync → engine.isAuthentic row.block = true

/-- A record that enters in sync without a look at its content is authentic before. -/
def AuthenticEntry (engine : Engine lib) : Entry lib → Prop
  | .confirm row _ state => row.state ≠ .pendingCommit → state = .inSync → engine.isAuthentic row.block = true
  | .adopt _ block state => state = .inSync → engine.isAuthentic block = true
  | .follow row => engine.isAuthentic row.block = true
  | .retain row => engine.isAuthentic row.block = true
  | .switch => True

/-- The record is pending or confirmed, so it may be in sync without another look at its content. -/
def Trusted (row : Row lib) : Prop :=
  row.state = .pendingCommit ∨ row.state.isServerConfirmed = true

/-- Every trusted record is authentic. -/
def Sound (engine : Engine lib) : Prop :=
  ∀ row ∈ engine.records.rows, Trusted row → engine.isAuthentic row.block = true

variable {engine : Engine lib} {brings : lib.Block → Prop} {block : lib.Block} {record : Record} {row : Row lib}

theorem isVerified_iff : engine.isVerified block = true ↔
    ∃ record, lib.deserialise block.record = some record ∧ engine.keys.Reads lib record block.auth := by
  unfold isVerified
  cases parsed : lib.deserialise block.record with
  | none => simp
  | some record =>
    constructor
    · intro found
      obtain ⟨key, isKey⟩ := Option.isSome_iff_exists.mp found
      exact ⟨record, rfl, findRecordKey_some isKey⟩
    · intro readable
      obtain ⟨other, same, reads⟩ := readable
      cases same
      cases found : findRecordKey lib engine.keys record block.auth with
      | some key => simp [found]
      | none => exact absurd reads (findRecordKey_none found)

theorem isOwn_of_mem (made : block ∈ engine.created) : engine.isOwn block = true :=
  List.any_eq_true.mpr ⟨block, made, by simp [ChainBlock.checkMatchesWithoutServerData]⟩

/-- More keys and own blocks keep a record authentic. -/
theorem isAuthentic_mono {reached : Engine lib} (keys : engine.keys.keys ⊆ reached.keys.keys)
    (created : engine.created ⊆ reached.created) (authentic : engine.isAuthentic block = true) :
    reached.isAuthentic block = true := by
  simp only [isAuthentic, Bool.or_eq_true] at authentic ⊢
  obtain own | verified := authentic
  · obtain ⟨made, inside, same⟩ := List.any_eq_true.mp own
    exact Or.inl (List.any_eq_true.mpr ⟨made, created inside, same⟩)
  · obtain ⟨record, parsed, reads⟩ := isVerified_iff.mp verified
    exact Or.inr (isVerified_iff.mpr ⟨record, parsed, reads.mono keys⟩)

theorem isAuthentic_of_reads (parsed : lib.deserialise block.record = some record)
    (reads : engine.keys.Reads lib record block.auth) : engine.isAuthentic block = true := by
  rw [isAuthentic, isVerified_iff.mpr ⟨record, parsed, reads⟩, Bool.or_true]

theorem isAuthentic_of_made (made : block ∈ engine.created) : engine.isAuthentic block = true := by
  rw [isAuthentic, isOwn_of_mem made, Bool.true_or]

/-- The chain rules trust only what they let in sync. -/
theorem inSync_of_trusted (judged : row.state = engine.chainState block) (trusted : Trusted row) :
    engine.chainState block = .inSync := by
  unfold Trusted at trusted
  rw [judged] at trusted
  obtain state | state | state := chainState_cases engine block <;> rw [state] at trusted ⊢ <;>
    simp [RecordState.isServerConfirmed] at trusted

/-- A permitted change leaves an authentic record wherever it is trusted. -/
theorem Sound.change {start : Engine lib} {next : Row lib} (sound : engine.Sound) (further : start.Further engine)
    (inside : row ∈ engine.records.rows) (change : Change start.AuthenticEntry engine row next)
    (trusted : Trusted next) : engine.isAuthentic next.block = true := by
  have grown {block : lib.Block} : start.isAuthentic block = true → engine.isAuthentic block = true :=
    isAuthentic_mono further.keys further.created
  cases change with
  | confirm _ _ _ _ permitted =>
    by_cases pending : row.state = .pendingCommit
    · exact sound row inside (Or.inl pending)
    · exact grown (permitted pending (inSync_of_trusted rfl trusted))
  | refuse => simp [Trusted, RecordState.isServerConfirmed] at trusted
  | replace _ _ _ _ _ permitted => exact grown (permitted rfl)
  | adopt _ _ _ _ _ permitted => exact grown (permitted (inSync_of_trusted rfl trusted))
  | follow _ _ _ _ _ permitted _ | retain _ _ permitted _ => exact grown permitted
  | read _ parsed reads _ => exact isAuthentic_of_reads parsed reads
  | rebase _ made => exact isAuthentic_of_made made
  | assign => exact sound row inside trusted
  | demote confirmed _ _ => exact sound row inside (Or.inr confirmed)

theorem Sound.arrival {state : RecordState} (arrival : Arrival brings engine block state)
    (trusted : Trusted (engine.records.newRow block state record)) : engine.isAuthentic block = true := by
  cases arrival with
  | own made => exact isAuthentic_of_made made
  | verified _ parsed reads => exact isAuthentic_of_reads parsed reads
  | unread => simp [Trusted, newRow, RecordState.isServerConfirmed] at trusted

/-- Every permitted move keeps the trusted records authentic. -/
theorem guarded_sound : Guarded (fun start : Engine lib => start.AuthenticEntry) (fun _ => True) Sound := by
  intro start before after further move sound
  cases move with
  | quiet quiet =>
    intro row inside trusted
    rw [quiet.records] at inside
    exact isAuthentic_mono quiet.keys quiet.created (sound row inside trusted)
  | send sends =>
    intro row inside trusted
    rw [sends.records] at inside
    have authentic := sound row inside trusted
    rwa [isAuthentic, isOwn, isVerified, ← sends.keys, ← sends.created] at authentic
  | change change replaces =>
    exact replaces.forall_rows sound fun trusted => sound.change further replaces.inside change trusted
  | arrive arrival done =>
    refine forall_created done sound fun record trusted => ?_
    have authentic : before.isAuthentic _ = true := Sound.arrival arrival trusted
    exact authentic
  | truncate =>
    intro row inside trusted
    exact sound row (List.mem_filter.mp inside).1 trusted

/-- A client that starts empty holds only authentic records in sync, as long as no record that is not
authentic is confirmed, adopted or promoted without a look at its content. -/
theorem authenticInSync_of_run {reached : Engine lib} (fresh : engine.records.rows = [])
    (run : Runs step (AdmitsEvent AuthenticEntry) engine reached) : reached.AuthenticInSync := by
  have sound : reached.Sound := guarded_sound.run run (by simp [Sound, fresh])
  intro row inside inSync
  exact sound row inside (Or.inr (by rw [inSync]; rfl))

theorem authenticInSync_of_run_pushed : pushedClient.AuthenticInSync ∧
    (pushedClient.records.rows.filter fun row => row.state = .inSync).map (fun row => pushedClient.isOwn row.block) =
      [true, false] := by
  have run : Runs step (AdmitsEvent AuthenticEntry) newClient pushedClient := by
    refine .tail (.tail (.tail (.refl _) trivial) ?_) ?_
    · intro block row answer _ found _ _ notPending
      cases answer
      have pending : ((newClient.step (.syncUserChange ⟨⟨.delta, []⟩, []⟩ [])).records.findTag firstChange.tag).all
          (fun row => row.state = .pendingCommit) = true := by decide +kernel
      rw [ChainBlock.tag_setSequenceAndParentHash] at found
      rw [found] at pending
      exact absurd (by simpa using pending) notPending
    have waiting : ∀ row ∈ (answeredAt 1 []).records.rows, row.state ≠ .pendingSync := by decide +kernel
    have other : (answeredAt 1 []).findPendingByOp [6] = none := by decide +kernel
    refine ⟨fun row found => ?_, fun record row _ parsed found => ?_, fun _ _ => ⟨fun row behind => ?_, fun valid => ?_⟩⟩
    · cases findTag_secondChange.symm.trans found
    · cases parsed
      cases other.symm.trans found
    · cases behind with
      | next follows | later follows => exact absurd follows.waiting (waiting _ follows.inside)
    · exact absurd valid (by decide +kernel)
  exact ⟨authenticInSync_of_run rfl run, by decide +kernel⟩

/-- A block that no key authenticates, with the operation of the client's first change. -/
def forgedChange : Securepath.sample.Block :=
  ⟨(1, ⟨{ encryptionKey := 1, opId := [1, 1] }, .userChange ⟨⟨.delta, []⟩, []⟩, [[]]⟩), ⟨[3], none⟩, 1, []⟩

/-- A pushed block with the operation of a pending record is adopted and in sync, whatever it is. -/
theorem not_authenticInSync_adopted :
    ¬ ((newClient.step (.syncUserChange ⟨⟨.delta, []⟩, []⟩ [])).step (.recordReceived forgedChange none)).AuthenticInSync := by
  unfold AuthenticInSync
  decide +kernel

end Engine

end SpSync
