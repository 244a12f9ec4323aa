import SpSync.Proof.Server.ServableHeads
import SpSync.Proof.Server.Settled
import SpSync.Proof.Server.SignedAssignments

namespace SpSync

open Foundation

variable {lib : Securepath}

/-- The row holds the record of the block, by its tag or by its operation. -/
def Row.Carries (row : Row lib) (block : lib.Block) : Prop :=
  row.tag = block.tag ∨ lib.opIdOf block ≠ [] ∧ row.opId = lib.opIdOf block

instance (row : Row lib) (block : lib.Block) : Decidable (row.Carries block) :=
  inferInstanceAs (Decidable (_ ∨ _))

/-- The range asks for the sequence. -/
def PullRange.Asks (range : PullRange) (sequence : SequenceNumber) : Prop :=
  range.wanted = true ∧ range.first ≤ sequence ∧ sequence ≤ range.last

namespace Storage

/-- The record of the block is in the log. -/
def Carries (storage : Storage lib) (block : lib.Block) : Prop :=
  ∃ row ∈ storage.sync.log.records.rows, row.Carries block

/-- The envelope of a foreign origin is applied and its record not skipped for good. -/
def applies (storage : Storage lib) (envelope : lib.Envelope) : Bool :=
  (storage.applyForeign envelope).2.isNone && envelope.origin ≠ storage.ownId && !storage.rejectsForGood envelope

variable {storage after : Storage lib} {envelope : lib.Envelope} {block : lib.Block} {row : Row lib}

theorem Carries.mono (carried : storage.Carries block)
    (grows : ∀ row ∈ storage.sync.log.records.rows, row ∈ after.sync.log.records.rows) : after.Carries block := by
  obtain ⟨row, inside, carries⟩ := carried
  exact ⟨row, grows row inside, carries⟩

theorem carries_of_findTag (held : (storage.sync.log.records.findTag block.tag).isSome = true) :
    storage.Carries block := by
  obtain ⟨row, found⟩ := Option.isSome_iff_exists.mp held
  obtain ⟨inside, same⟩ := RecordStorage.findTag_eq_some_iff.mp found
  exact ⟨row, inside, Or.inl same⟩

theorem carries_of_findOpId (named : lib.opIdOf block ≠ [])
    (held : (storage.sync.log.records.findOpId (lib.opIdOf block)).isSome = true) : storage.Carries block := by
  obtain ⟨row, found⟩ := Option.isSome_iff_exists.mp held
  have same := List.find?_some found
  simp only [Bool.and_eq_true, decide_eq_true_eq] at same
  exact ⟨row, List.mem_of_find?_eq_some found, Or.inr ⟨named, same.1⟩⟩

/-- A record that is skipped, but not for good, is in the log. -/
theorem Skips.carries (skips : Skips storage envelope) (admitted : storage.admitForeign envelope = (storage, none))
    (foreign : envelope.origin ≠ storage.ownId) (accepted : storage.rejectsForGood envelope = false) :
    storage.Carries envelope.block := by
  by_cases held : (storage.sync.log.records.findTag envelope.block.tag).isSome = true
  · exact carries_of_findTag held
  have absent := Option.not_isSome_iff_eq_none.mp held
  obtain found | ⟨err, type, verdict, skipped⟩ := skips
  · exact absurd found held
  have transient : permanentRejection err = false := by
    simpa [rejectsForGood, admitted, foreign, absent, verdict] using accepted
  have code : err.code = .recordAlreadyCommitted := by
    simpa [foreignRecordSkipped, transient] using skipped
  obtain found | ⟨named, found⟩ := ChainSync.held_of_alreadyCommitted verdict code
  · exact absurd found held
  · exact carries_of_findOpId named found

/-- An applied record is in the log. -/
theorem carries_of_applies (applied : storage.applies envelope = true) :
    (storage.applyForeign envelope).1.Carries envelope.block := by
  simp only [applies, Bool.and_eq_true, decide_eq_true_eq, Option.isNone_iff_eq_none, Bool.not_eq_true'] at applied
  obtain ⟨⟨done, foreign⟩, accepted⟩ := applied
  obtain ⟨evidence, err, refused⟩ | ⟨after, report, result, admitted, outcome⟩ := applyForeign_cases storage envelope
  · rw [refused] at done
    cases done
  rw [result] at done ⊢
  subst done
  cases outcome with
  | own own => exact absurd own foreign
  | skipped _ skips => exact skips.carries admitted foreign accepted
  | committed _ _ _ saved =>
    obtain ⟨newest, savedRow⟩ := saved.exists_row
    exact ⟨newest, savedRow.mem_newest, Or.inl savedRow.tag⟩

end Storage

/-- A storage with the foreign envelopes that it has applied and not skipped for good. -/
structure Replica (lib : Securepath) where
  storage : Storage lib
  applied : List lib.Envelope := []

inductive ReplicaCall (lib : Securepath)
  | commitBlock (block : lib.Block)
  | applyForeign (envelope : lib.Envelope)
  | truncateFrom (firstRemoved : SequenceNumber)

namespace Replica

/-- One call; a truncation that throws leaves the storage as it was. -/
def serve (replica : Replica lib) : ReplicaCall lib → Replica lib
  | .commitBlock block => { replica with storage := (replica.storage.commitBlock block).1 }
  | .applyForeign envelope =>
      ⟨(replica.storage.applyForeign envelope).1, replica.applied ++ [envelope].filter replica.storage.applies⟩
  | .truncateFrom firstRemoved =>
      { replica with storage := (replica.storage.truncateFrom firstRemoved).toOption.elim replica.storage Prod.fst }

/-- A truncation starts above the records that were applied from other origins. -/
def SparesApplied (replica : Replica lib) : ReplicaCall lib → Prop
  | .truncateFrom firstRemoved => firstRemoved ≠ 0 →
      ∀ row ∈ replica.storage.sync.log.records.rows, firstRemoved ≤ row.sequence →
        ∀ envelope ∈ replica.applied, ¬ row.Carries envelope.block
  | _ => True

/-- Every applied record up to the known sequence of its origin is in the log, and a pull from a peer that has not
parted from the held history asks for every applied record that is missing. -/
structure HonestHeads (replica : Replica lib) : Prop where
  held : ∀ envelope ∈ replica.applied,
    envelope.block.sequence ≤ replica.storage.knownOriginSeq envelope.origin → replica.storage.Carries envelope.block
  asked : ∀ envelope ∈ replica.applied, ¬ replica.storage.Carries envelope.block →
    ∀ (samples : OriginSamples) (peerHead : SequenceNumber), samples.origin = envelope.origin →
      (replica.storage.findDivergence samples).diverged = false → envelope.block.sequence ≤ peerHead →
        (planPull (replica.storage.knownOriginSeq envelope.origin) peerHead
          (replica.storage.findDivergence samples)).Asks envelope.block.sequence

/-- Every applied record is in the log. -/
def Complete (replica : Replica lib) : Prop :=
  ∀ envelope ∈ replica.applied, replica.storage.Carries envelope.block

variable {replica : Replica lib}

theorem Complete.honestHeads (complete : replica.Complete) : replica.HonestHeads where
  held envelope inside _ := complete envelope inside
  asked envelope inside missing := absurd (complete envelope inside) missing

/-- The rows before the first removed sequence stay in the log. -/
theorem Complete.truncateFrom (complete : replica.Complete) {firstRemoved : SequenceNumber}
    (spares : replica.SparesApplied (.truncateFrom firstRemoved)) :
    (replica.serve (.truncateFrom firstRemoved)).Complete := by
  intro envelope inside
  show ((replica.storage.truncateFrom firstRemoved).toOption.elim replica.storage Prod.fst).Carries envelope.block
  cases done : replica.storage.truncateFrom firstRemoved with
  | error err => exact complete envelope inside
  | ok outcome =>
    obtain ⟨log, cut, same⟩ := Storage.truncateFrom_ok done
    unfold ChainLog.truncateFrom at cut
    split at cut
    · cases cut
    rename_i valid
    obtain ⟨rfl, -⟩ := Prod.mk.inj (Except.ok.inj cut)
    obtain ⟨row, rowIn, carries⟩ := complete envelope inside
    refine ⟨row, ?_, carries⟩
    show row ∈ outcome.1.sync.log.records.rows
    rw [same]
    have before : ¬ firstRemoved ≤ row.sequence :=
      fun reached => spares valid row rowIn reached envelope inside carries
    simp [RecordStorage.truncateFrom, rowIn, before]

theorem Complete.serve (complete : replica.Complete) {call : ReplicaCall lib} (spares : replica.SparesApplied call) :
    (replica.serve call).Complete := by
  cases call with
  | commitBlock block => exact fun envelope inside => (complete envelope inside).mono fun _ => Storage.mem_commitBlock
  | applyForeign envelope =>
    intro other inside
    rcases List.mem_append.mp inside with old | new
    · exact (complete other old).mono fun _ => Storage.mem_applyForeign
    · obtain ⟨same, applied⟩ := List.mem_filter.mp new
      obtain rfl := List.mem_singleton.mp same
      exact Storage.carries_of_applies applied
  | truncateFrom firstRemoved => exact complete.truncateFrom spares

/-- In every run whose truncations start above the records of other origins, the heads of the origins are honest. -/
theorem honestHeads_of_run (storage : Storage lib) (run : Runs serve SparesApplied ⟨storage, []⟩ replica) :
    replica.HonestHeads := by
  have complete : replica.Complete :=
    run.keeps (fun _ inside => absurd inside List.not_mem_nil) fun _ _ complete spares => complete.serve spares
  exact complete.honestHeads

/-- A new replica that applies the record of the server 8. -/
def appliedReplica : Replica .sample :=
  serve ⟨Storage.replica, []⟩ (.applyForeign Storage.foreignEnvelope)

/-- The replica then commits a record of its own. -/
def committedReplica : Replica .sample :=
  appliedReplica.serve (.commitBlock (Signer.changeTagged [1]))

/-- The replica rolls its own record back. -/
def rolledBackReplica : Replica .sample :=
  committedReplica.serve (.truncateFrom 2)

/-- The foreign record, which the head reaches, stays in the log. -/
theorem honestHeads_of_run_ownRecord :
    rolledBackReplica.HonestHeads ∧ rolledBackReplica.storage.knownOriginSeq [8] = 1 ∧
      committedReplica.storage.sync.log.records.rows.map Row.tag = [[9], [1]] ∧
      rolledBackReplica.storage.sync.log.records.rows.map Row.tag = [[9]] := by
  have applied : Runs serve SparesApplied ⟨Storage.replica, []⟩ appliedReplica := .tail (.refl _) trivial
  have committed : Runs serve SparesApplied ⟨Storage.replica, []⟩ committedReplica := applied.tail trivial
  have above : ∀ row ∈ committedReplica.storage.sync.log.records.rows, 2 ≤ row.sequence →
      ∀ envelope ∈ committedReplica.applied, ¬ row.Carries envelope.block := by
    decide +kernel
  have spares : committedReplica.SparesApplied (.truncateFrom 2) := fun _ => above
  have rolledBack : Runs serve SparesApplied ⟨Storage.replica, []⟩ rolledBackReplica := committed.tail spares
  exact ⟨honestHeads_of_run Storage.replica rolledBack, by decide +kernel, by decide +kernel, by decide +kernel⟩

/-- The record of the server 8 is rolled back, the head of the server stays at it, and the server's own history does
not make the replica ask for it again. -/
theorem not_honestHeads_truncated :
    let replica := appliedReplica.serve (.truncateFrom 1)
    replica.applied = [Storage.foreignEnvelope] ∧ replica.storage.sync.log.records.rows = [] ∧
      replica.storage.knownOriginSeq [8] = 1 ∧
      planPull (replica.storage.knownOriginSeq [8]) 1
        (replica.storage.findDivergence ⟨[8], [Securepath.sample.blockId Storage.addingBlock]⟩) = {} ∧
      ¬ replica.HonestHeads := by
  have applied : (appliedReplica.serve (.truncateFrom 1)).applied = [Storage.foreignEnvelope] := by decide +kernel
  have rows : (appliedReplica.serve (.truncateFrom 1)).storage.sync.log.records.rows = [] := by decide +kernel
  have known : (appliedReplica.serve (.truncateFrom 1)).storage.knownOriginSeq [8] = 1 := by decide +kernel
  refine ⟨applied, rows, known, by decide +kernel, fun honest => ?_⟩
  have inside : Storage.foreignEnvelope ∈ (appliedReplica.serve (.truncateFrom 1)).applied := by
    rw [applied]
    exact List.mem_singleton_self _
  obtain ⟨row, held, -⟩ := honest.held Storage.foreignEnvelope inside (Nat.le_of_eq known.symm)
  rw [rows] at held
  exact absurd held List.not_mem_nil

end Replica

end SpSync
