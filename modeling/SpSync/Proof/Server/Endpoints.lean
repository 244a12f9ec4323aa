import SpSync.Proof.Server.Batches
import SpSync.Proof.Server.Settled

namespace SpSync

open Foundation

variable {lib : Securepath} {storage : Storage lib} {origin : PublicKeyId}

/-- The sequences of a divergence are those of held blocks. -/
def Divergence.HeldBy (divergence : Divergence) (held : SequenceNumber → Octets) : Prop :=
  (divergence.lastCommon = 0 ∨ held divergence.lastCommon ≠ []) ∧
    (divergence.firstDivergent = 0 ∨ held divergence.firstDivergent ≠ [])

theorem findDivergence_heldBy (samples : List ChainBlockId) (held : SequenceNumber → Octets) :
    (findDivergence samples held).HeldBy held := by
  unfold findDivergence
  refine List.foldlRecOn (motive := fun divergence : Divergence => divergence.HeldBy held) samples _ ?_ ?_
  · exact ⟨Or.inl rfl, Or.inl rfl⟩
  intro divergence found sample _
  unfold compareSample
  dsimp only
  generalize hashEq : (if sample.sequence ≠ 0 then held sample.sequence else []) = hash
  split
  · exact found
  rename_i present
  have holds : held sample.sequence ≠ [] := by
    intro empty
    apply present
    rw [← hashEq, empty]
    split <;> rfl
  split
  · refine ⟨?_, found.2⟩
    rcases Nat.le_total divergence.lastCommon sample.sequence with less | more
    · exact Or.inr (by simpa [Nat.max_eq_right less] using holds)
    · simpa [Nat.max_eq_left more] using found.1
  · split
    · exact ⟨found.1, Or.inr holds⟩
    · exact found

theorem planPush_eq (known pushed : SequenceNumber) :
    planPush known pushed = if known + 1 < pushed then ⟨known + 1, pushed⟩ else {} := by
  have next : (if known ≠ 0 then known + 1 else 1) = known + 1 := by
    split
    · rfl
    · rename_i zero
      rw [not_not.mp zero]
  simp only [planPush, next]

theorem planPush_first (known pushed : SequenceNumber) : (planPush known pushed).first ≤ known + 1 := by
  rw [planPush_eq]
  split
  · exact Nat.le_refl _
  · exact Nat.zero_le _

/-- A pushed sequence that is not pulled follows what is known. -/
theorem le_of_planPush {known pushed : SequenceNumber} (taken : ¬ (planPush known pushed).wanted = true) :
    pushed ≤ known + 1 := by
  by_contra ahead
  apply taken
  rw [planPush_eq, if_pos (Nat.lt_of_not_le ahead)]
  simp [PullRange.wanted]

theorem Storage.knownOriginSeq_of_foreign (foreign : origin ≠ storage.ownId) :
    storage.knownOriginSeq origin = storage.heads.reach origin := by
  simp [knownOriginSeq, foreign, StorageHeads.reach]

/-- A replica reaches every sequence at which it holds a block of a foreign origin. -/
theorem Storage.Replicates.le_reach_of_hash {assigned lost : lib.Envelope → Prop} {rejected : List lib.Envelope}
    (replica : Replicates assigned lost storage rejected) {sequence : SequenceNumber}
    (foreign : origin ≠ storage.ownId) (held : storage.sync.log.records.originBlockHash origin sequence ≠ []) :
    sequence ≤ storage.heads.reach origin := by
  unfold RecordStorage.originBlockHash at held
  split at held
  · rename_i row found
    have inside := List.mem_of_find?_eq_some found
    have same : row.originSeq = sequence := by simpa using List.find?_some found
    simp only [RecordStorage.ofOrigin, List.mem_filter, Bool.and_eq_true, decide_eq_true_eq] at inside
    obtain ⟨rowIn, ⟨-, rowOrigin⟩, -⟩ := inside
    obtain ⟨envelope, kept, -⟩ := replica.rows row rowIn
    have originEq : envelope.origin = origin := by simpa [Row.origin, kept.indexed] using rowOrigin
    have sequenceEq : envelope.block.sequence = sequence := by simpa [Row.originSeq, kept.indexed] using same
    have within := replica.within envelope ⟨row, rowIn, kept⟩ (by rwa [originEq])
    rwa [originEq, sequenceEq] at within
  · exact absurd rfl held

/-- A packet that carries no records and pulls a foreign origin from its head at the latest. -/
def PeerPacket.AsksOnly (storage : Storage lib) : PeerPacket lib → Prop
  | .pullRecords request => request.origin ≠ storage.ownId → request.first ≤ storage.heads.reach request.origin + 1
  | .pushRecords _ => False
  | .responseEnvelopes _ => False
  | _ => True

theorem PeerPacket.AsksOnly.extend {packet : PeerPacket lib} {before after : Storage lib}
    {one two : List lib.Envelope} (asks : packet.AsksOnly before) (extension : Storage.Extends before after one two) :
    packet.AsksOnly after := by
  cases packet with
  | pullRecords request =>
    intro foreign
    rw [extension.ownId] at foreign
    exact Nat.le_trans (asks foreign) (Nat.succ_le_succ (extension.reach request.origin))
  | pushRecords envelopes => exact asks
  | responseEnvelopes answer => exact asks
  | peerHeads announced | requestKey cid key | responseKey cid key | notReplicating => trivial

/-- The answer holds later assignments of the envelope's origin, but not the envelope. -/
def ResponseEnvelopes.PassesBy (answer : ResponseEnvelopes lib) (envelope : lib.Envelope) : Prop :=
  envelope.origin = answer.origin ∧ envelope ∉ answer.envelopes ∧
    ∃ later ∈ answer.envelopes, envelope.block.sequence < later.block.sequence

/-- An answer of assignments of its origin in order, which leaves out from the first sequence on only
what is missing at its sender. -/
structure ResponseEnvelopes.Complete (assigned missing : lib.Envelope → Prop) (first : SequenceNumber)
    (answer : ResponseEnvelopes lib) : Prop where
  known : ∀ envelope ∈ answer.envelopes, assigned envelope ∧ envelope.origin = answer.origin
  sorted : answer.envelopes.Pairwise fun left right => left.block.sequence ≤ right.block.sequence
  filled : ∀ envelope, assigned envelope → envelope.origin = answer.origin → first ≤ envelope.block.sequence →
    (∃ later ∈ answer.envelopes, envelope.block.sequence ≤ later.block.sequence) →
    envelope ∈ answer.envelopes ∨ missing envelope

/-- A server goes on with its replica and asks its peer. -/
structure Endpoint.Progress (assigned lost : lib.Envelope → Prop) (before after : Endpoint lib) : Prop where
  extension : Storage.Extends before.storage after.storage before.rejected after.rejected
  replica : Storage.Replicates assigned lost after.storage after.rejected
  outgoing : ∀ packet ∈ after.outgoing, packet ∈ before.outgoing ∨ packet.AsksOnly after.storage

namespace Endpoint

variable {assigned lost : lib.Envelope → Prop} {endpoint before : Endpoint lib}

theorem Progress.refl (replica : Storage.Replicates assigned lost endpoint.storage endpoint.rejected) :
    Progress assigned lost endpoint endpoint :=
  ⟨.refl _ _, replica, fun _ => Or.inl⟩

theorem Progress.trans {first second third : Endpoint lib} (earlier : Progress assigned lost first second)
    (later : Progress assigned lost second third) : Progress assigned lost first third where
  extension := earlier.extension.trans later.extension
  replica := later.replica
  outgoing packet inside := by
    rcases later.outgoing packet inside with sent | asks
    · exact (earlier.outgoing packet sent).imp_right fun asked => asked.extend later.extension
    · exact Or.inr asks

theorem requestPull_storage (endpoint : Endpoint lib) (origin : PublicKeyId) (first last : SequenceNumber) :
    (endpoint.requestPull origin first last).storage = endpoint.storage := by
  unfold Endpoint.requestPull
  dsimp only
  split <;> rfl

theorem requestPull_rejected (endpoint : Endpoint lib) (origin : PublicKeyId) (first last : SequenceNumber) :
    (endpoint.requestPull origin first last).rejected = endpoint.rejected := by
  unfold Endpoint.requestPull
  dsimp only
  split <;> rfl

/-- What a replica finds of the samples of a foreign origin lies within its reach. -/
theorem divergence_le_reach (replica : Storage.Replicates assigned lost endpoint.storage endpoint.rejected)
    {samples : OriginSamples} (foreign : samples.origin ≠ endpoint.storage.ownId) :
    (endpoint.storage.findDivergence samples).lastCommon ≤ endpoint.storage.heads.reach samples.origin ∧
    (endpoint.storage.findDivergence samples).firstDivergent ≤ endpoint.storage.heads.reach samples.origin := by
  obtain ⟨common, divergent⟩ := findDivergence_heldBy samples.blocks
    (endpoint.storage.sync.log.records.originBlockHash samples.origin)
  refine ⟨?_, ?_⟩
  · rcases common with zero | held
    · exact Nat.le_trans (Nat.le_of_eq zero) (Nat.zero_le _)
    · exact replica.le_reach_of_hash foreign held
  · rcases divergent with zero | held
    · exact Nat.le_trans (Nat.le_of_eq zero) (Nat.zero_le _)
    · exact replica.le_reach_of_hash foreign held

section

variable (progress : Progress assigned lost before endpoint)
include progress

/-- Only the connection changes, and one more packet may ask the peer. -/
theorem Progress.connection (connection : PeerConnection) :
    Progress assigned lost before { endpoint with connection } :=
  ⟨progress.extension, progress.replica, progress.outgoing⟩

theorem Progress.sendPacket {packet : PeerPacket lib} (asks : packet.AsksOnly endpoint.storage) :
    Progress assigned lost before (endpoint.sendPacket packet) where
  extension := progress.extension
  replica := progress.replica
  outgoing := List.forall_mem_append.mpr ⟨progress.outgoing, List.forall_mem_singleton.mpr (Or.inr asks)⟩

theorem Progress.requestPull {origin : PublicKeyId} {first last : SequenceNumber}
    (follows : origin ≠ endpoint.storage.ownId → first ≤ endpoint.storage.heads.reach origin + 1) :
    Progress assigned lost before (endpoint.requestPull origin first last) := by
  unfold Endpoint.requestPull
  dsimp only
  split
  · exact progress.connection _
  · exact (progress.connection _).sendPacket follows

theorem Progress.requestSignerKey (id : PublicKeyId) :
    Progress assigned lost before (endpoint.requestSignerKey id) := by
  unfold Endpoint.requestSignerKey
  dsimp only
  split
  · exact progress
  · exact (progress.connection _).sendPacket trivial

theorem Progress.askForKey (envelope : lib.Envelope) (err : Error) :
    Progress assigned lost before (endpoint.askForKey envelope err) := by
  unfold Endpoint.askForKey
  split
  · cases envelope.block.auth.signature with
    | none => exact progress
    | some signature => exact progress.requestSignerKey signature.issuer
  · split
    · exact progress.requestSignerKey envelope.origin
    · exact progress

theorem Progress.pullOrigin (announced : PeerHeads) (head : OriginHead) :
    Progress assigned lost before (endpoint.pullOrigin announced head) := by
  unfold Endpoint.pullOrigin
  dsimp only
  generalize chosen : (announced.samples.find? fun samples => samples.origin = head.origin).elim {}
    endpoint.storage.findDivergence = divergence
  have bounded : head.origin ≠ endpoint.storage.ownId →
      divergence.lastCommon ≤ endpoint.storage.heads.reach head.origin ∧
      divergence.firstDivergent ≤ endpoint.storage.heads.reach head.origin := by
    intro foreign
    rw [← chosen]
    cases found : announced.samples.find? fun samples => samples.origin = head.origin with
    | none => exact ⟨Nat.zero_le _, Nat.zero_le _⟩
    | some samples =>
      have same : samples.origin = head.origin := by simpa using List.find?_some found
      rw [← same] at foreign ⊢
      exact divergence_le_reach progress.replica foreign
  have noted : Progress assigned lost before (endpoint.noteDivergence head.origin divergence.diverged) :=
    progress.connection _
  split
  · exact noted
  split
  · exact noted.requestPull fun foreign => Nat.le_succ_of_le (bounded foreign).2
  split
  · rename_i foreign
    split
    · rename_i wanted
      apply noted.requestPull
      intro _
      unfold planPull at wanted ⊢
      dsimp only at wanted ⊢
      split
      · rw [Storage.knownOriginSeq_of_foreign foreign]
        exact Nat.succ_le_succ (Nat.max_le.mpr ⟨Nat.le_refl _, (bounded foreign).1⟩)
      · exact Nat.zero_le _
    · exact noted
  · exact noted

theorem Progress.startPulls (announced : PeerHeads) :
    Progress assigned lost before (endpoint.startPulls announced) := by
  unfold Endpoint.startPulls
  split
  · rename_i weak
    clear weak
    generalize announced.heads = heads
    induction heads generalizing endpoint with
    | nil => exact progress
    | cons head rest ih => exact ih (progress.pullOrigin announced head)
  · exact progress

theorem Progress.resumePulls : Progress assigned lost before endpoint.resumePulls := by
  unfold Endpoint.resumePulls
  cases endpoint.connection.peerHeads with
  | none => exact progress
  | some announced => exact progress.startPulls announced

/-- A key that was asked for changes no record. -/
theorem Progress.takeKey (cid : Nat) (key : Option PublicKeyId) :
    Progress assigned lost before (endpoint.takeKey cid key) := by
  unfold Endpoint.takeKey
  split
  · exact progress
  split
  · apply Progress.resumePulls
    obtain ⟨extension, replica⟩ := progress.replica.of_same
      (endpoint.learnSignerKey _).storage rfl rfl rfl (fun _ inside => inside)
    exact ⟨progress.extension.trans extension, replica, fun packet inside =>
      (progress.outgoing packet inside).imp_right fun asks => asks.extend extension⟩
  · exact progress.connection _

/-- What a push keeps in order follows the heads; the rest is asked for. -/
theorem Progress.inOrder (envelopes : List lib.Envelope) :
    Progress assigned lost before (endpoint.inOrder envelopes).2 ∧
    (endpoint.inOrder envelopes).2.storage = endpoint.storage ∧
    (endpoint.inOrder envelopes).2.rejected = endpoint.rejected ∧
    ∀ envelope ∈ (endpoint.inOrder envelopes).1, envelope ∈ envelopes ∧
      (envelope.origin ≠ endpoint.storage.ownId →
        envelope.block.sequence ≤ endpoint.storage.heads.reach envelope.origin + 1) := by
  induction envelopes with
  | nil => exact ⟨progress, rfl, rfl, by simp [Endpoint.inOrder]⟩
  | cons envelope rest ih =>
    obtain ⟨asked, storage, rejected, taken⟩ := ih
    unfold Endpoint.inOrder
    dsimp only
    split
    · rename_i wanted
      refine ⟨progress.requestPull ?_, ?_, ?_, by simp⟩
      · intro foreign
        rw [Storage.knownOriginSeq_of_foreign foreign]
        exact (planPush_first _ _)
      · exact requestPull_storage endpoint _ _ _
      · exact requestPull_rejected endpoint _ _ _
    · rename_i follows
      refine ⟨asked, storage, rejected, ?_⟩
      intro other inside
      rcases List.mem_cons.mp inside with rfl | later
      · refine ⟨by simp, ?_⟩
        intro foreign
        rw [Storage.knownOriginSeq_of_foreign foreign] at follows
        exact le_of_planPush follows
      · exact ⟨by simp [(taken other later).1], (taken other later).2⟩

end

/-- Envelopes are applied in turn until one is refused. -/
theorem applyEnvelopes_cons (endpoint : Endpoint lib) (envelope : lib.Envelope) (rest : List lib.Envelope) :
    ((endpoint.storage.applyForeign envelope).2 = none ∧
      endpoint.applyEnvelopes (envelope :: rest) = (endpoint.applyEnvelope envelope).1.applyEnvelopes rest) ∨
    ∃ err, endpoint.applyEnvelopes (envelope :: rest) = (endpoint.applyEnvelope envelope).1.askForKey envelope err := by
  rw [applyEnvelopes]
  unfold applyEnvelope
  obtain ⟨storage, none | err⟩ := endpoint.storage.applyForeign envelope
  · exact Or.inl ⟨rfl, rfl⟩
  · exact Or.inr ⟨err, rfl⟩

section

variable (digest : ∀ block, lib.hash block ≠ []) (honest : Honest assigned)
  (progress : Progress assigned lost before endpoint) {envelopes : List lib.Envelope}

include digest honest progress

/-- Envelopes in an order in which each finds its predecessors settled keep the replica. -/
theorem Progress.applyEnvelopes (known : ∀ envelope ∈ envelopes, assigned envelope)
    (ready : Cursor.Ready assigned Before (Storage.Settled lost endpoint.storage endpoint.rejected) envelopes) :
    Progress assigned lost before (endpoint.applyEnvelopes envelopes) := by
  induction envelopes generalizing endpoint with
  | nil => exact progress
  | cons envelope rest ih =>
    obtain ⟨extension, replica, settled⟩ :=
      progress.replica.applyForeign digest honest (known envelope (by simp)) ready.1
    have applied : Progress assigned lost before (endpoint.applyEnvelope envelope).1 := by
      refine progress.trans ⟨extension, replica, fun _ => Or.inl⟩
    obtain ⟨done, next⟩ | ⟨err, next⟩ := endpoint.applyEnvelopes_cons envelope rest
    · rw [next]
      apply ih applied
      · intro later inside
        exact known later (by simp [inside])
      apply ready.2.mono
      intro other either
      rcases either with old | rfl
      · exact extension.settled old
      · exact settled done
    · rw [next]
      exact applied.askForKey envelope err

/-- A push keeps the replica: an envelope is applied when everything before it is known. -/
theorem Progress.applyPushed (known : ∀ envelope ∈ envelopes, assigned envelope) :
    Progress assigned lost before (endpoint.applyPushed envelopes) := by
  obtain ⟨asked, storage, rejected, taken⟩ := progress.inOrder envelopes
  unfold Endpoint.applyPushed
  apply asked.applyEnvelopes digest honest
  · intro envelope inside
    exact known envelope (taken envelope inside).1
  rw [storage, rejected]
  apply Cursor.ready_of_each
  intro envelope inside other assignedOther earlier
  by_cases own : other.origin = endpoint.storage.ownId
  · exact Or.inl (progress.replica.own other assignedOther own)
  apply progress.replica.covered other assignedOther own
  have follows := (taken envelope inside).2 (by rwa [← earlier.1])
  rw [earlier.1]
  exact Nat.le_of_lt_succ (Nat.lt_of_lt_of_le earlier.2 follows)

/-- An answer that leaves out only what its sender lost, and only once the receiver reached the first
sequence asked for, keeps the replica of the receiver. -/
theorem Progress.takeAnswer {answer : ResponseEnvelopes lib} {first : SequenceNumber} {missing : lib.Envelope → Prop}
    (complete : answer.Complete assigned missing first)
    (follows : answer.origin ≠ endpoint.storage.ownId → first ≤ endpoint.storage.heads.reach answer.origin + 1)
    (inherits : ∀ envelope, answer.PassesBy envelope → missing envelope → lost envelope) :
    Progress assigned lost before (endpoint.takeAnswer answer) := by
  unfold Endpoint.takeAnswer
  dsimp only
  split
  · exact progress.connection _
  have ready : Cursor.Ready assigned Before (Storage.Settled lost endpoint.storage endpoint.rejected)
      answer.envelopes := by
    apply Cursor.ready_of_sorted
    · intro envelope before
      exact Nat.lt_irrefl _ before.2
    · apply complete.sorted.imp
      intro left right ordered before
      exact Nat.not_lt.mpr ordered before.2
    · intro envelope inside other known earlier
      have origin : other.origin = answer.origin := earlier.1.trans (complete.known envelope inside).2
      by_cases own : other.origin = endpoint.storage.ownId
      · exact Or.inr (Or.inl (progress.replica.own other known own))
      by_cases asked : first ≤ other.block.sequence
      · by_cases present : other ∈ answer.envelopes
        · exact Or.inl present
        · have gone := (complete.filled other known origin asked ⟨envelope, inside, Nat.le_of_lt earlier.2⟩).resolve_left
            present
          exact Or.inr (Or.inr (Or.inr (inherits other ⟨origin, present, envelope, inside, earlier.2⟩ gone)))
      · right
        apply progress.replica.covered other known own
        have reach := follows (by rwa [← origin])
        rw [origin]
        exact Nat.le_of_lt_succ (Nat.lt_of_lt_of_le (Nat.lt_of_not_le asked) reach)
  have applied := (progress.connection { endpoint.connection with
    pulling := endpoint.connection.pulling.filter (· ≠ answer.origin) }).applyEnvelopes digest honest
      (fun envelope inside => (complete.known envelope inside).1) ready
  split
  · apply applied.requestPull
    intro foreign
    rw [Storage.knownOriginSeq_of_foreign foreign]
  · exact applied

end

/-- The answer to a pull is complete when the batch is a prefix of the held assignments. -/
theorem complete_servePull (endpoint : Endpoint lib) (answer : ResponseEnvelopes lib)
    (replica : Storage.Replicates assigned lost endpoint.storage endpoint.rejected)
    (honest : Honest assigned) {request : PullRecords} (origin : answer.origin = request.origin)
    (served : answer.envelopes = endpoint.storage.getEnvelopesByOrigin request.origin request.first request.last)
    (isPrefix : endpoint.storage.getEnvelopesByOrigin request.origin request.first request.last <+:
      endpoint.storage.sync.log.assigned request.origin request.first request.last) :
    answer.Complete assigned (fun envelope => envelope ∈ endpoint.rejected ∨ lost envelope) request.first := by
  have sorted := endpoint.storage.sync.log.sorted_assigned request.origin request.first request.last
  have held : ∀ envelope ∈ endpoint.storage.sync.log.assigned request.origin request.first request.last,
      endpoint.storage.HoldsAssignment envelope ∧ envelope.origin = request.origin ∧
        envelope.block.sequence ≤ request.last := by
    intro envelope inside
    obtain ⟨row, rowIn, indexed, -, most⟩ := ChainLog.mem_assigned_iff.mp inside
    simp only [RecordStorage.ofOrigin, List.mem_filter, Bool.and_eq_true, decide_eq_true_eq] at rowIn
    obtain ⟨present, ⟨-, rowOrigin⟩, -⟩ := rowIn
    obtain ⟨other, kept, -⟩ := replica.rows row present
    obtain rfl : envelope = other := by simpa using indexed.symm.trans kept.indexed
    exact ⟨⟨row, present, kept⟩, by simpa [Row.origin, indexed] using rowOrigin, most⟩
  rw [← served] at isPrefix
  refine ⟨?_, sorted.sublist isPrefix.sublist, ?_⟩
  · intro envelope inside
    obtain ⟨holds, same, -⟩ := held envelope (isPrefix.subset inside)
    exact ⟨replica.assigned_of_holds holds, same.trans origin.symm⟩
  · intro envelope known same asked later
    obtain ⟨last, lastIn, below⟩ := later
    obtain ⟨lastHolds, lastOrigin, most⟩ := held last (isPrefix.subset lastIn)
    rw [origin] at same
    have settled : Storage.Settled lost endpoint.storage endpoint.rejected envelope := by
      by_cases own : envelope.origin = endpoint.storage.ownId
      · exact Or.inl (replica.own envelope known own)
      apply replica.covered envelope known own
      have within := replica.within last lastHolds (by rwa [lastOrigin, ← same])
      rw [lastOrigin, ← same] at within
      exact Nat.le_trans below within
    rcases settled with holds | gone
    · left
      obtain ⟨row, present, kept⟩ := holds
      have inside : envelope ∈ endpoint.storage.sync.log.assigned request.origin request.first request.last := by
        apply ChainLog.mem_assigned_iff.mpr
        refine ⟨row, ?_, kept.indexed, asked, Nat.le_trans below most⟩
        have valid : request.origin ≠ [] := by rw [← same]; exact honest.origin envelope known
        simp [RecordStorage.ofOrigin, present, kept.state, Row.origin, kept.indexed, same, valid]
      obtain ⟨rest, whole⟩ := isPrefix
      rw [← whole] at inside sorted
      rcases List.mem_append.mp inside with early | late
      · exact early
      have ordered := (List.pairwise_append.mp sorted).2.2 last lastIn envelope late
      have equal := Nat.le_antisymm below ordered
      rwa [honest.oneSequence envelope last known (replica.assigned_of_holds lastHolds)
        (same.trans lastOrigin.symm) equal]
    · exact Or.inr gone

end Endpoint

end SpSync
