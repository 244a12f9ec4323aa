import SpSync.Construction.Server.Replication
import SpSync.Foundation.Run
import SpSync.Proof.Server.Endpoints

namespace SpSync

open Foundation

variable {lib : Securepath}

section Congruence

variable {assigned assignedNow missing missingNow : lib.Envelope → Prop}

theorem Storage.Replicates.congr {storage : Storage lib} {rejected : List lib.Envelope}
    (replica : Replicates assigned missing storage rejected) (same : ∀ envelope, assigned envelope ↔ assignedNow envelope)
    (more : ∀ envelope, missing envelope → missingNow envelope) : Replicates assignedNow missingNow storage rejected where
  rows row inside := by
    obtain ⟨envelope, kept, known⟩ := replica.rows row inside
    exact ⟨envelope, kept, (same envelope).mp known⟩
  heads head inside := by
    obtain ⟨envelope, known, headEq⟩ := replica.heads head inside
    exact ⟨envelope, (same envelope).mp known, headEq⟩
  own envelope known := replica.own envelope ((same envelope).mpr known)
  within := replica.within
  covered envelope known foreign reached :=
    (replica.covered envelope ((same envelope).mpr known) foreign reached).imp_right (Or.imp_right (more envelope))
  heights := replica.heights

theorem ResponseEnvelopes.Complete.congr {answer : ResponseEnvelopes lib} {first : SequenceNumber}
    (complete : answer.Complete assigned missing first) (same : ∀ envelope, assigned envelope ↔ assignedNow envelope)
    (more : ∀ envelope, missing envelope → missingNow envelope) : answer.Complete assignedNow missingNow first where
  known envelope inside := (complete.known envelope inside).imp_left (same envelope).mp
  sorted := complete.sorted
  filled envelope known origin asked later :=
    (complete.filled envelope ((same envelope).mpr known) origin asked later).imp_right (more envelope)

theorem Honest.congr (honest : Honest assigned) (same : ∀ envelope, assigned envelope ↔ assignedNow envelope) :
    Honest assignedNow where
  origin envelope known := honest.origin envelope ((same envelope).mpr known)
  term envelope known := honest.term envelope ((same envelope).mpr known)
  sequence envelope known := honest.sequence envelope ((same envelope).mpr known)
  oneRecord left right leftKnown rightKnown :=
    honest.oneRecord left right ((same left).mpr leftKnown) ((same right).mpr rightKnown)
  oneSequence left right leftKnown rightKnown :=
    honest.oneSequence left right ((same left).mpr leftKnown) ((same right).mpr rightKnown)

end Congruence

namespace Network

variable {network : Network lib} {server : PublicKeyId} {before after : Network lib} {transfer : Transfer lib}

/-- The origin of the envelope committed its record under the envelope's assignment. -/
def Assigns (network : Network lib) (envelope : lib.Envelope) : Prop :=
  ∃ row ∈ (network.storage envelope.origin).sync.log.records.rows,
    RowOf row envelope ∧ row.sequence = envelope.block.sequence

/-- An answer of the relay led the receiver past the record. -/
def RelaysPast (network : Network lib) (envelope : lib.Envelope) (relay receiver : PublicKeyId) : Prop :=
  ∃ answer, ⟨relay, receiver, .responseEnvelopes answer⟩ ∈ network.delivered ∧ answer.PassesBy envelope

/-- The server, or one whose relays led to it past the record, rejected the record for good. -/
def RejectedUpstream (network : Network lib) (server : PublicKeyId) (envelope : lib.Envelope) : Prop :=
  ∃ rejecting, envelope ∈ (network.servers rejecting).rejected ∧
    Relation.ReflTransGen (network.RelaysPast envelope) rejecting server

/-- What holds of a packet on its way, whenever it arrives. -/
def PacketSound (network : Network lib) (transfer : Transfer lib) : Prop :=
  match transfer.packet with
  | .pullRecords request => request.origin ≠ transfer.source →
      request.first ≤ (network.storage transfer.source).heads.reach request.origin + 1
  | .responseEnvelopes answer => ∃ first,
      answer.Complete network.Assigns (network.RejectedUpstream transfer.source) first ∧
      (answer.origin ≠ transfer.target → first ≤ (network.storage transfer.target).heads.reach answer.origin + 1)
  | .pushRecords envelopes => ∀ envelope ∈ envelopes, network.Assigns envelope
  | _ => True

/-- Every server replicates what the honest origins assign, and every packet on its way is sound. -/
structure Coherent (network : Network lib) : Prop where
  honest : Honest network.Assigns
  ownIds : ∀ server, (network.storage server).ownId = server
  replicas : ∀ server, Storage.Replicates network.Assigns (network.RejectedUpstream server) (network.storage server)
    (network.servers server).rejected
  packets : ∀ transfer ∈ network.sent, network.PacketSound transfer

/-- The later network knows the same assignments and has gone further. -/
structure Further (before after : Network lib) : Prop where
  assigns : ∀ envelope, before.Assigns envelope ↔ after.Assigns envelope
  rejected : ∀ server, ∀ envelope ∈ (before.servers server).rejected, envelope ∈ (after.servers server).rejected
  delivered : ∀ transfer ∈ before.delivered, transfer ∈ after.delivered
  reach : ∀ server origin, (before.storage server).heads.reach origin ≤ (after.storage server).heads.reach origin

theorem Further.rejectedUpstream (further : Further before after) {envelope : lib.Envelope}
    (upstream : before.RejectedUpstream server envelope) : after.RejectedUpstream server envelope := by
  obtain ⟨rejecting, inside, path⟩ := upstream
  refine ⟨rejecting, further.rejected rejecting envelope inside, path.lift id ?_⟩
  intro relay receiver relays
  obtain ⟨answer, arrived, passes⟩ := relays
  exact ⟨answer, further.delivered _ arrived, passes⟩

theorem Further.packetSound (further : Further before after) (sound : before.PacketSound transfer) :
    after.PacketSound transfer := by
  obtain ⟨source, target, packet⟩ := transfer
  cases packet with
  | pullRecords request =>
    intro foreign
    exact Nat.le_trans (sound foreign) (Nat.succ_le_succ (further.reach source request.origin))
  | responseEnvelopes answer =>
    obtain ⟨first, complete, follows⟩ := sound
    refine ⟨first, complete.congr further.assigns fun envelope => further.rejectedUpstream, ?_⟩
    intro foreign
    exact Nat.le_trans (follows foreign) (Nat.succ_le_succ (further.reach target answer.origin))
  | pushRecords envelopes =>
    intro envelope inside
    exact (further.assigns envelope).mp (sound envelope inside)
  | peerHeads _ | requestKey _ _ | responseKey _ _ | notReplicating => trivial

@[simp]
theorem storage_setServer (network : Network lib) (server other : PublicKeyId) (changed : Server lib) :
    (network.setServer server changed).storage other =
      if other = server then changed.storage else network.storage other := by
  unfold storage setServer
  dsimp only
  split <;> rfl

section

variable (coherent : Coherent network) {changed : Server lib}

include coherent

section

variable
  (extension : Storage.Extends (network.storage server) changed.storage (network.servers server).rejected changed.rejected)
include extension

/-- A server that goes on with its replica changes no assignment. -/
theorem Coherent.further_setServer : Further network (network.setServer server changed) where
  assigns envelope := by
    unfold Assigns
    rw [storage_setServer]
    by_cases same : envelope.origin = server
    · rw [if_pos same, same]
      constructor
      · intro assigned
        obtain ⟨row, inside, kept, sequence⟩ := assigned
        exact ⟨row, extension.rows row inside, kept, sequence⟩
      · intro assigned
        obtain ⟨row, inside, kept, sequence⟩ := assigned
        rcases extension.foreign row inside with old | foreign
        · exact ⟨row, old, kept, sequence⟩
        · rw [coherent.ownIds server] at foreign
          exact absurd (by simpa [Row.origin, kept.indexed] using same) foreign
    · rw [if_neg same]
  rejected other envelope inside := by
    unfold setServer
    dsimp only
    split
    · rename_i same
      rw [same] at inside
      exact extension.rejected envelope inside
    · exact inside
  delivered _ inside := inside
  reach other origin := by
    rw [storage_setServer]
    split
    · rename_i same
      rw [same]
      exact extension.reach origin
    · exact Nat.le_refl _

theorem Coherent.setServer
    (replica : Storage.Replicates network.Assigns (network.RejectedUpstream server) changed.storage changed.rejected) :
    Coherent (network.setServer server changed) := by
  have further := coherent.further_setServer extension
  refine ⟨coherent.honest.congr further.assigns, ?_, ?_, ?_⟩
  · intro other
    rw [storage_setServer]
    split
    · rename_i same
      rw [extension.ownId, same]
      exact coherent.ownIds server
    · exact coherent.ownIds other
  · intro other
    by_cases same : other = server
    · rw [same, storage_setServer, if_pos rfl]
      have rejected : ((network.setServer server changed).servers server).rejected = changed.rejected := by
        simp [Network.setServer]
      rw [rejected]
      exact replica.congr further.assigns fun _ => further.rejectedUpstream
    · rw [storage_setServer, if_neg same]
      have rejected : ((network.setServer server changed).servers other).rejected =
          (network.servers other).rejected := by
        simp [Network.setServer, same]
      rw [rejected]
      exact (coherent.replicas other).congr further.assigns fun _ => further.rejectedUpstream
  · intro transfer inside
    exact further.packetSound (coherent.packets transfer inside)

end

theorem Coherent.send {source target : PublicKeyId} {packets : List (PeerPacket lib)}
    (sound : ∀ packet ∈ packets, network.PacketSound ⟨source, target, packet⟩) :
    Coherent (network.send source target packets) where
  honest := coherent.honest
  ownIds := coherent.ownIds
  replicas := coherent.replicas
  packets := List.forall_mem_append.mpr ⟨coherent.packets, List.forall_mem_map.mpr sound⟩

theorem Coherent.arrive (transfer : Transfer lib) :
    Coherent { network with delivered := network.delivered ++ [transfer] } := by
  have further : Further network { network with delivered := network.delivered ++ [transfer] } :=
    ⟨fun _ => Iff.rfl, fun _ _ inside => inside, fun _ inside => List.mem_append_left _ inside,
      fun _ _ => Nat.le_refl _⟩
  exact ⟨coherent.honest, coherent.ownIds,
    fun server => (coherent.replicas server).congr (fun _ => Iff.rfl) fun _ => further.rejectedUpstream,
    fun other inside => further.packetSound (coherent.packets other inside)⟩

end

/-- What is assumed of an event: a tag or operation is assigned by one origin only, and the answer to a
pull is a prefix of the held assignments in the range. -/
def Assumed (network : Network lib) : Event lib → Prop
  | .commit server block _ => server ≠ [] ∧ ∀ envelope, network.Assigns envelope → envelope.origin ≠ server →
      envelope.block.tag ≠ block.tag ∧ (lib.opIdOf block = [] ∨ lib.opIdOf envelope.block ≠ lib.opIdOf block)
  | .deliver ⟨_, target, .pullRecords request⟩ =>
      (network.storage target).getEnvelopesByOrigin request.origin request.first request.last <+:
        (network.storage target).sync.log.assigned request.origin request.first request.last
  | _ => True

section Settle

variable {network : Network lib} {server peer : PublicKeyId}

theorem settle_eq (network : Network lib) (server peer : PublicKeyId) (after : Endpoint lib) :
    ∃ changed : Server lib, changed.storage = after.storage ∧
    changed.rejected = after.rejected ∧
    network.settle server peer after = (network.setServer server changed).send server peer after.outgoing :=
  ⟨_, rfl, rfl, rfl⟩

section

variable (coherent : Coherent network) {after : Endpoint lib}

include coherent

theorem Coherent.settle_of
    (extension : Storage.Extends (network.storage server) after.storage (network.servers server).rejected after.rejected)
    (replica : Storage.Replicates network.Assigns (network.RejectedUpstream server) after.storage after.rejected)
    (outgoing : ∀ packet ∈ after.outgoing, packet.AsksOnly after.storage ∨
      network.PacketSound ⟨server, peer, packet⟩) : Coherent (network.settle server peer after) := by
  obtain ⟨changed, storage, rejected, settled⟩ := network.settle_eq server peer after
  rw [settled]
  rw [← storage, ← rejected] at extension replica
  have further := coherent.further_setServer extension
  apply (coherent.setServer extension replica).send
  intro packet inside
  rcases outgoing packet inside with asks | sound
  · have ownId : after.storage.ownId = server := by
      rw [← storage, extension.ownId]
      exact coherent.ownIds server
    cases packet with
    | pullRecords request =>
      intro foreign
      rw [storage_setServer, if_pos rfl, storage]
      exact asks (by rwa [ownId])
    | pushRecords envelopes | responseEnvelopes answer => exact absurd asks id
    | peerHeads _ | requestKey _ _ | responseKey _ _ | notReplicating => trivial
  · exact further.packetSound sound

theorem Coherent.settle
    (progress : Endpoint.Progress network.Assigns (network.RejectedUpstream server) (network.endpoint server peer) after) :
    Coherent (network.settle server peer after) := by
  apply coherent.settle_of progress.extension progress.replica
  intro packet inside
  rcases progress.outgoing packet inside with sent | asks
  · exact absurd sent (by simp [Network.endpoint])
  · exact Or.inl asks

theorem Coherent.progress :
    Endpoint.Progress network.Assigns (network.RejectedUpstream server) (network.endpoint server peer)
      (network.endpoint server peer) :=
  .refl (coherent.replicas server)

/-- The answer to a pull passes only what the server or its relays rejected. -/
theorem Coherent.servePull {request : PullRecords}
    (follows : request.origin ≠ peer → request.first ≤ (network.storage peer).heads.reach request.origin + 1)
    (isPrefix : (network.storage server).getEnvelopesByOrigin request.origin request.first request.last <+:
      (network.storage server).sync.log.assigned request.origin request.first request.last) :
    Coherent (network.settle server peer ((network.endpoint server peer).servePull request)) := by
  unfold Endpoint.servePull
  split
  · apply coherent.settle_of (.refl _ _) (coherent.replicas server)
    intro packet inside
    simp only [Endpoint.sendPacket, Network.endpoint, List.nil_append, List.cons_append, List.mem_cons,
      List.not_mem_nil, or_false] at inside
    rcases inside with rfl | rfl
    · exact Or.inl trivial
    · exact Or.inr ⟨0, ⟨by simp, by simp, by simp⟩, fun _ => Nat.zero_le _⟩
  · apply coherent.settle_of (.refl _ _) (coherent.replicas server)
    intro packet inside
    simp only [Endpoint.sendPacket, Network.endpoint, List.nil_append, List.mem_singleton] at inside
    subst inside
    refine Or.inr ⟨request.first, ?_, follows⟩
    refine ResponseEnvelopes.Complete.congr ((network.endpoint server peer).complete_servePull _
      (coherent.replicas server) coherent.honest rfl rfl isPrefix) (fun _ => Iff.rfl) ?_
    intro envelope gone
    rcases gone with rejected | upstream
    · exact ⟨server, rejected, .refl⟩
    · exact upstream

end

end Settle

/-- A packet that arrives keeps the network coherent, whenever it was sent. -/
theorem Coherent.deliver (digest : ∀ block, lib.hash block ≠ []) (coherent : Coherent network)
    (assumed : network.Assumed (.deliver transfer)) : Coherent (network.deliver transfer) := by
  unfold Network.deliver
  split
  case isFalse => exact coherent
  case isTrue sent =>
    have arrived := coherent.arrive transfer
    have sound := arrived.packets transfer sent
    obtain ⟨source, target, packet⟩ := transfer
    cases packet with
    | peerHeads announced => exact arrived.settle ((arrived.progress.connection _).startPulls announced)
    | pullRecords request => exact arrived.servePull sound assumed
    | responseEnvelopes answer =>
      obtain ⟨first, complete, follows⟩ := sound
      apply arrived.settle
      apply arrived.progress.takeAnswer digest arrived.honest complete
      · intro foreign
        exact follows (by rwa [← arrived.ownIds target])
      · intro envelope passes missing
        obtain ⟨rejecting, inside, path⟩ := missing
        exact ⟨rejecting, inside, path.tail ⟨answer, List.mem_append_right _ (by simp), passes⟩⟩
    | pushRecords envelopes =>
      apply arrived.settle
      simp only [Endpoint.handle]
      split
      · exact arrived.progress.sendPacket trivial
      · exact arrived.progress.applyPushed digest arrived.honest sound
    | requestKey cid key => exact arrived.settle (arrived.progress.sendPacket trivial)
    | responseKey cid key => exact arrived.settle (arrived.progress.takeKey cid key)
    | notReplicating => exact arrived.settle arrived.progress

section Commit

variable {network : Network lib} {server : PublicKeyId} {storage : Storage lib} {newest : Row lib}
  {envelope : lib.Envelope}

/-- A server committed a record of a client: one new row under the server's own assignment. -/
structure Commits (network : Network lib) (server : PublicKeyId) (storage : Storage lib) (newest : Row lib)
    (envelope : lib.Envelope) : Prop where
  ownId : storage.ownId = server
  heads : storage.heads = (network.storage server).heads
  kept : RowOf newest envelope
  sequence : newest.sequence = envelope.block.sequence
  next : envelope.block.sequence = (network.storage server).sync.log.head.sequence + 1
  rows : storage.sync.log.records.rows = (network.storage server).sync.log.records.rows ++ [newest]
  heights : ∀ row ∈ storage.sync.log.records.rows, row.sequence ≤ storage.sync.log.head.sequence
  origin : envelope.origin = server
  term : envelope.term = 0

theorem storage_setStorage (network : Network lib) (server other : PublicKeyId) (storage : Storage lib) :
    (network.setStorage server storage).storage other = if other = server then storage else network.storage other :=
  storage_setServer network server other _

section

variable (commits : Commits network server storage newest envelope)
include commits

/-- The commit adds one assignment. -/
theorem Commits.assigns_iff (other : lib.Envelope) :
    (network.setStorage server storage).Assigns other ↔ network.Assigns other ∨ other = envelope := by
  unfold Assigns
  rw [storage_setStorage]
  by_cases same : other.origin = server
  · rw [if_pos same, same, commits.rows]
    constructor
    · intro assigned
      obtain ⟨row, inside, kept, sequence⟩ := assigned
      rcases List.mem_append.mp inside with old | new
      · exact Or.inl ⟨row, old, kept, sequence⟩
      · rw [List.mem_singleton.mp new] at kept
        exact Or.inr (kept.eq commits.kept)
    · intro either
      rcases either with assigned | rfl
      · obtain ⟨row, inside, kept, sequence⟩ := assigned
        exact ⟨row, List.mem_append_left _ inside, kept, sequence⟩
      · exact ⟨newest, by simp, commits.kept, commits.sequence⟩
  · rw [if_neg same]
    constructor
    · exact Or.inl
    intro either
    rcases either with assigned | rfl
    · exact assigned
    · exact absurd commits.origin same

theorem Commits.forall_assigns {property : lib.Envelope → Prop} (old : ∀ other, network.Assigns other → property other)
    (new : property envelope) (other : lib.Envelope) (known : (network.setStorage server storage).Assigns other) :
    property other := by
  obtain earlier | rfl := (commits.assigns_iff other).mp known
  · exact old other earlier
  · exact new

variable (coherent : Coherent network)
include coherent

/-- The new assignment is beyond every earlier one of its origin. -/
theorem Commits.lt {other : lib.Envelope} (known : network.Assigns other) (origin : other.origin = server) :
    other.block.sequence < envelope.block.sequence := by
  obtain ⟨row, inside, -, sequence⟩ := known
  rw [origin] at inside
  have below := (coherent.replicas server).heights row inside
  rw [← sequence, commits.next]
  exact Nat.lt_succ_of_le below

/-- No replica has reached the new assignment. -/
theorem Commits.reach_lt (replica : PublicKeyId) :
    (network.storage replica).heads.reach server < envelope.block.sequence := by
  unfold StorageHeads.reach
  cases found : (network.storage replica).heads.find server with
  | none =>
    rw [commits.next]
    exact Nat.succ_pos _
  | some head =>
    obtain ⟨other, known, rfl⟩ := (coherent.replicas replica).heads head (List.mem_of_find?_eq_some found)
    have matched : (Storage.headOf other).origin = server := by
      simpa using List.find?_some (p := fun head : OriginHead => head.origin = server) found
    exact commits.lt coherent known matched

/-- Every server replicates after the commit what it replicated before it. -/
theorem Commits.replicates (other : PublicKeyId) : Storage.Replicates (network.setStorage server storage).Assigns
      (network.RejectedUpstream other) ((network.setStorage server storage).storage other)
      (network.servers other).rejected := by
  have old := coherent.replicas other
  have known := fun record => (commits.assigns_iff record).mpr
  rw [storage_setStorage]
  split
  · rename_i same
    subst same
    have holds : ∀ record, (network.storage other).HoldsAssignment record → storage.HoldsAssignment record := by
      intro record held
      obtain ⟨row, inside, kept⟩ := held
      exact ⟨row, by simp [commits.rows, inside], kept⟩
    refine ⟨?_, ?_, ?_, ?_, ?_, commits.heights⟩
    · intro row inside
      rw [commits.rows] at inside
      rcases List.mem_append.mp inside with earlier | latest
      · obtain ⟨record, kept, assigned⟩ := old.rows row earlier
        exact ⟨record, kept, known record (Or.inl assigned)⟩
      · rw [List.mem_singleton.mp latest]
        exact ⟨envelope, commits.kept, known envelope (Or.inr rfl)⟩
    · rw [commits.heads]
      intro head inside
      obtain ⟨record, assigned, headEq⟩ := old.heads head inside
      exact ⟨record, known record (Or.inl assigned), headEq⟩
    · rw [commits.ownId]
      refine commits.forall_assigns (fun record earlier own => ?_) fun _ => ⟨newest, by simp [commits.rows], commits.kept⟩
      exact holds record (old.own record earlier (own.trans (coherent.ownIds other).symm))
    · intro record held foreign
      rw [commits.heads]
      rw [commits.ownId] at foreign
      obtain ⟨row, inside, kept⟩ := held
      rw [commits.rows] at inside
      rcases List.mem_append.mp inside with earlier | latest
      · exact old.within record ⟨row, earlier, kept⟩ (by rwa [coherent.ownIds other])
      · rw [List.mem_singleton.mp latest] at kept
        rw [kept.eq commits.kept] at foreign
        exact absurd commits.origin foreign
    · rw [commits.heads, commits.ownId]
      refine commits.forall_assigns (fun record earlier foreign reached => ?_) fun foreign => absurd commits.origin foreign
      exact (old.covered record earlier (by rwa [coherent.ownIds other]) reached).imp_left (holds record)
  · rename_i different
    refine ⟨?_, ?_, ?_, old.within, ?_, old.heights⟩
    · intro row inside
      obtain ⟨record, kept, assigned⟩ := old.rows row inside
      exact ⟨record, kept, known record (Or.inl assigned)⟩
    · intro head inside
      obtain ⟨record, assigned, headEq⟩ := old.heads head inside
      exact ⟨record, known record (Or.inl assigned), headEq⟩
    · refine commits.forall_assigns old.own fun own => ?_
      rw [coherent.ownIds other, commits.origin] at own
      exact absurd own.symm different
    · refine commits.forall_assigns old.covered fun _ reached => ?_
      rw [commits.origin] at reached
      exact absurd reached (Nat.not_le.mpr (commits.reach_lt coherent other))

/-- The new assignment is of one more record: the tables keep the tags and operations of a server
apart, and other servers assign other records. -/
theorem Commits.honest (valid : server ≠ [])
    (sole : ∀ other, network.Assigns other → other.origin ≠ server → ¬ SameRecord other envelope) :
    Honest (network.setStorage server storage).Assigns := by
  have apart : ∀ other, network.Assigns other → ¬ SameRecord other envelope := by
    intro other known same
    by_cases own : other.origin = server
    · obtain ⟨row, inside, kept, -⟩ := known
      rw [own] at inside
      have rowIn : row ∈ storage.sync.log.records.rows := by simp [commits.rows, inside]
      have newestIn : newest ∈ storage.sync.log.records.rows := by simp [commits.rows]
      have rowEq : row = newest := by
        rcases same with tag | ⟨operation, opId⟩
        · exact RecordStorage.row_eq_of_tag rowIn newestIn (by rw [kept.tag, commits.kept.tag, tag])
        · apply RecordStorage.row_eq_of_opId rowIn newestIn
          · rwa [kept.opId]
          · rw [kept.opId, commits.kept.opId, opId]
      rw [rowEq] at kept
      have less := commits.lt coherent ⟨newest, by rw [own, ← rowEq]; exact inside, kept, by
        rw [kept.eq commits.kept]; exact commits.sequence⟩ own
      rw [kept.eq commits.kept] at less
      exact Nat.lt_irrefl _ less
    · exact sole other known own same
  have symmetric : ∀ left right : lib.Envelope, SameRecord left right → SameRecord right left := by
    intro left right same
    rcases same with tag | ⟨operation, opId⟩
    · exact Or.inl tag.symm
    · exact Or.inr ⟨by rwa [← opId], opId.symm⟩
  refine ⟨?_, ?_, ?_, ?_, ?_⟩
  · exact commits.forall_assigns coherent.honest.origin (by rwa [commits.origin])
  · exact commits.forall_assigns coherent.honest.term commits.term
  · exact commits.forall_assigns coherent.honest.sequence (by rw [commits.next]; exact Nat.succ_pos _)
  · intro left right leftKnown rightKnown same
    rcases (commits.assigns_iff left).mp leftKnown with leftOld | rfl <;>
      rcases (commits.assigns_iff right).mp rightKnown with rightOld | rfl
    · exact coherent.honest.oneRecord left right leftOld rightOld same
    · exact absurd same (apart left leftOld)
    · exact absurd (symmetric _ _ same) (apart right rightOld)
    · rfl
  · intro left right leftKnown rightKnown origin sequence
    rcases (commits.assigns_iff left).mp leftKnown with leftOld | rfl <;>
      rcases (commits.assigns_iff right).mp rightKnown with rightOld | rfl
    · exact coherent.honest.oneSequence left right leftOld rightOld origin sequence
    · have less := commits.lt coherent leftOld (origin.trans commits.origin)
      exact absurd sequence (Nat.ne_of_lt less)
    · have less := commits.lt coherent rightOld (origin.symm.trans commits.origin)
      exact absurd sequence (Nat.ne_of_gt less)
    · rfl

end

theorem Commits.coherent (commits : Commits network server storage newest envelope) (coherent : Coherent network)
    (valid : server ≠ [])
    (sole : ∀ other, network.Assigns other → other.origin ≠ server → ¬ SameRecord other envelope) :
    Coherent (network.setStorage server storage) := by
  have servers : ∀ other, ((network.setStorage server storage).servers other).rejected =
      (network.servers other).rejected := by
    intro other
    unfold setStorage setServer
    dsimp only
    split
    · rename_i same
      rw [same]
    · rfl
  have upstream : ∀ other, (network.setStorage server storage).RejectedUpstream other =
      network.RejectedUpstream other := by
    intro other
    funext record
    unfold RejectedUpstream
    simp only [servers]
    rfl
  have heads : ∀ other, ((network.setStorage server storage).storage other).heads = (network.storage other).heads := by
    intro other
    rw [storage_setStorage]
    split
    · rename_i same
      rw [same, commits.heads]
    · rfl
  refine ⟨commits.honest coherent valid sole, ?_, ?_, ?_⟩
  · intro other
    rw [storage_setStorage]
    split
    · rename_i same
      rw [same, commits.ownId]
    · exact coherent.ownIds other
  · intro other
    rw [upstream, servers]
    exact commits.replicates coherent other
  · intro transfer inside
    have sound := coherent.packets transfer inside
    obtain ⟨source, target, packet⟩ := transfer
    cases packet with
    | pullRecords request =>
      intro foreign
      rw [heads]
      exact sound foreign
    | responseEnvelopes answer =>
      obtain ⟨first, complete, follows⟩ := sound
      refine ⟨first, ⟨?_, complete.sorted, ?_⟩, ?_⟩
      · intro other otherIn
        exact (complete.known other otherIn).imp_left fun known => (commits.assigns_iff other).mpr (Or.inl known)
      · intro other known origin asked later
        rw [upstream]
        rcases (commits.assigns_iff other).mp known with old | rfl
        · exact complete.filled other old origin asked later
        obtain ⟨last, lastIn, below⟩ := later
        obtain ⟨lastKnown, lastOrigin⟩ := complete.known last lastIn
        have less := commits.lt coherent lastKnown (lastOrigin.trans (origin.symm.trans commits.origin))
        exact absurd below (Nat.not_le.mpr less)
      · intro foreign
        rw [heads]
        exact follows foreign
    | pushRecords envelopes =>
      intro other otherIn
      exact (commits.assigns_iff other).mpr (Or.inl (sound other otherIn))
    | peerHeads _ | requestKey _ _ | responseKey _ _ | notReplicating => trivial

end Commit

/-- A commit keeps the network coherent when no other origin assigned the record. -/
theorem Coherent.commit (coherent : Coherent network) {block : lib.Block} {connected : List PublicKeyId}
    (assumed : network.Assumed (.commit server block connected)) :
    Coherent (network.commit server block connected) := by
  obtain ⟨valid, sole⟩ := assumed
  have ownId := coherent.ownIds server
  rcases Storage.commitBlock_cases (network.storage server) block (by rwa [ownId]) with
    ⟨err, refused⟩ | ⟨placed, envelope, type, placedEq, signed, -, outcome, saved, heads⟩
  · unfold Network.commit
    rw [refused]
    exact coherent.setServer (.refl _ _) (coherent.replicas server)
  · have made : envelope = ⟨placed, server, 0, envelope.signature⟩ := by
      simp only [Storage.makeEnvelope, ownId, valid, if_false, Option.some.injEq] at signed
      rw [← signed]
    have blockEq : envelope.block = placed := by rw [made]
    obtain ⟨newest, kept, sequence, rows⟩ := saved.rowOf (by rw [blockEq, placedEq]; rfl)
      (by rw [blockEq, placedEq]; rfl)
    have position : envelope.block.sequence = (network.storage server).sync.log.head.sequence + 1 := by
      rw [blockEq, placedEq]
      rfl
    have commits : Commits network server ((network.storage server).commitBlock block).1 newest envelope :=
      ⟨saved.setting.ownId.trans ownId, heads, kept, sequence.trans position.symm, position, rows,
        saved.heights (coherent.replicas server).heights, by rw [made], by rw [made]⟩
    have same : lib.opIdOf envelope.block = lib.opIdOf block := by
      rw [blockEq, placedEq]
      rfl
    have apart : ∀ other, network.Assigns other → other.origin ≠ server → ¬ SameRecord other envelope := by
      intro other known foreign record
      obtain ⟨tagApart, opApart⟩ := sole other known foreign
      rcases record with tag | ⟨operation, opId⟩
      · rw [blockEq, placedEq] at tag
        exact tagApart tag
      · rw [same] at opId
        rw [opId] at operation
        exact (opApart.resolve_left operation) opId
    have committed := commits.coherent coherent valid apart
    have assigned : (network.setStorage server ((network.storage server).commitBlock block).1).Assigns envelope :=
      (commits.assigns_iff envelope).mpr (Or.inr rfl)
    unfold Network.commit
    split
    · rename_i storage placedBlock pushed done
      rw [done] at outcome committed assigned
      obtain rfl : pushed = envelope := by
        simp only [Except.ok.injEq, Prod.mk.injEq, Option.some.injEq] at outcome
        exact outcome.2
      split
      · clear outcome
        generalize network.setStorage server storage = saved at committed assigned
        induction connected generalizing saved with
        | nil => exact committed
        | cons peer rest ih =>
          apply ih (saved.send server peer [.pushRecords [pushed]])
          · apply committed.send
            intro packet inside
            rw [List.mem_singleton.mp inside]
            intro other otherIn
            rwa [List.mem_singleton.mp otherIn]
          · exact assigned
      · exact committed
    · rename_i storage result other done
      rw [done] at committed
      exact committed

/-- Every server created its copy of the storage with the modes. -/
def CreatesAll (id : Octets) (keys : PublicKeyId → List PublicKeyId) (modes : StorageModes)
    (defaults : PublicKeyId → StorageLimits) (storages : PublicKeyId → Storage lib) : Prop :=
  ∀ server, Storage.create id server (some (keys server)) modes (defaults server) = .ok (storages server)

theorem CreatesAll.exists_limits {id : Octets} {keys : PublicKeyId → List PublicKeyId} {modes : StorageModes}
    {defaults : PublicKeyId → StorageLimits} {storages : PublicKeyId → Storage lib}
    (created : CreatesAll id keys modes defaults storages) : ∃ limits : PublicKeyId → StorageLimits,
      storages = fun server => .ofModes id server (some (keys server)) { modes with limits := limits server } := by
  choose limits same using fun server => Storage.create_ok (created server)
  exact ⟨limits, funext same⟩

theorem coherent_create (id : Octets) (keys : PublicKeyId → List PublicKeyId) (modes : PublicKeyId → StorageModes) :
    Coherent (create fun server => .ofModes id server (some (keys server)) (modes server) : Network lib) := by
  have none : ∀ envelope, ¬ (create fun server => .ofModes id server (some (keys server)) (modes server) :
      Network lib).Assigns envelope := by
    intro envelope assigned
    obtain ⟨row, inside, -⟩ := assigned
    cases inside
  refine ⟨⟨?_, ?_, ?_, ?_, ?_⟩, fun _ => rfl, ?_, ?_⟩
  · exact fun envelope known => absurd known (none envelope)
  · exact fun envelope known => absurd known (none envelope)
  · exact fun envelope known => absurd known (none envelope)
  · exact fun left _ known => absurd known (none left)
  · exact fun left _ known => absurd known (none left)
  · intro server
    refine ⟨?_, ?_, ?_, ?_, ?_, ?_⟩
    · intro row inside
      cases inside
    · intro head inside
      cases inside
    · exact fun envelope known => absurd known (none envelope)
    · intro envelope holds
      obtain ⟨row, inside, -⟩ := holds
      cases inside
    · exact fun envelope known => absurd known (none envelope)
    · intro row inside
      cases inside
  · intro transfer inside
    cases inside

/-- Every event under the assumptions keeps the network coherent. -/
theorem Coherent.step (digest : ∀ block, lib.hash block ≠ []) (coherent : Coherent network) {event : Event lib}
    (assumed : network.Assumed event) : Coherent (network.step event) := by
  cases event with
  | commit server block connected => exact coherent.commit assumed
  | announce server peer => exact coherent.settle (coherent.progress.sendPacket trivial)
  | deliver transfer => exact coherent.deliver digest assumed
  | reconnect server peer => exact coherent.settle (coherent.progress.connection _)
  | knowKeys server keys =>
    obtain ⟨extension, replica⟩ := (coherent.replicas server).of_same { network.storage server with
      sync := { (network.storage server).sync with keys := some keys } } rfl rfl rfl fun _ inside => inside
    exact coherent.setServer extension replica

/-- The replica holds the record of the row by its tag or its operation. -/
def HoldsRecord (storage : Storage lib) (row : Row lib) : Prop :=
  ∃ held ∈ storage.sync.log.records.rows, held.tag = row.tag ∨ row.opId ≠ [] ∧ held.opId = row.opId

/-- In every reachable network, each record that an origin assigned up to the sequence a replica knows of
it is held by the replica, or was rejected for good by the replica or by a server whose relays led to it. -/
theorem holdsRecord_or_rejectedUpstream (digest : ∀ block, lib.hash block ≠ []) {id : Octets}
    {keys : PublicKeyId → List PublicKeyId} {modes : StorageModes} {defaults : PublicKeyId → StorageLimits}
    {storages : PublicKeyId → Storage lib} (created : CreatesAll id keys modes defaults storages)
    (run : Runs step Assumed (create storages) network) (origin replica : PublicKeyId) (row : Row lib)
    (assigned : row ∈ (network.storage origin).sync.log.records.ofOrigin origin)
    (reached : row.originSeq ≤ (network.storage replica).knownOriginSeq origin) :
    HoldsRecord (network.storage replica) row ∨
      ∃ envelope, row.indexed = some envelope ∧ network.RejectedUpstream replica envelope := by
  obtain ⟨limits, rfl⟩ := created.exists_limits
  have coherent : Coherent network := run.keeps (coherent_create id keys _)
    fun _ _ state assumed => state.step digest assumed
  simp only [RecordStorage.ofOrigin, List.mem_filter, Bool.and_eq_true, decide_eq_true_eq] at assigned
  obtain ⟨inside, ⟨-, rowOrigin⟩, -⟩ := assigned
  obtain ⟨envelope, kept, known⟩ := (coherent.replicas origin).rows row inside
  have originEq : envelope.origin = origin := by simpa [Row.origin, kept.indexed] using rowOrigin
  by_cases own : origin = replica
  · exact Or.inl ⟨row, by rwa [← own], Or.inl rfl⟩
  rw [← coherent.ownIds replica] at own
  rw [Storage.knownOriginSeq_of_foreign own] at reached
  have settled := (coherent.replicas replica).covered envelope known (by rwa [originEq]) (by
    simpa [originEq, Row.originSeq, kept.indexed] using reached)
  rcases settled with holds | rejected | upstream
  · obtain ⟨held, heldIn, heldKept⟩ := holds
    exact Or.inl ⟨held, heldIn, Or.inl (heldKept.tag.trans kept.tag.symm)⟩
  · exact Or.inr ⟨envelope, kept.indexed, replica, rejected, .refl⟩
  · exact Or.inr ⟨envelope, kept.indexed, upstream⟩

/-- A record that the client 6 commits. -/
def clientBlock : Securepath.sample.Block :=
  Securepath.sample.newBlock ⟨{ opId := [5] }, .userChange ⟨{ mode := .delta }, []⟩, []⟩ ⟨[9], some ⟨[6], [9]⟩⟩

/-- The copies of a weak storage at servers that know each other and the client. -/
def newStorages (server : PublicKeyId) : Storage Securepath.sample :=
  .ofModes [1] server (some [[7], [8], [6]]) (Storage.weakModes .allowAll)

theorem createsAll_newStorages :
    CreatesAll [1] (fun _ => [[7], [8], [6]]) (Storage.weakModes .allowAll) (fun _ => {}) newStorages :=
  fun server => Storage.create_weakModes [1] server _ _

/-- The server 7 committed the record and its push is on the way to the server 8. -/
def committedNetwork : Network Securepath.sample :=
  (create newStorages).step (.commit [7] clientBlock [[8]])

def pushTransfer : Transfer Securepath.sample :=
  ⟨[7], [8], .pushRecords [⟨clientBlock, [7], 0, some (Securepath.sample.signAssignment [7] [1] clientBlock 0)⟩]⟩

/-- After the push the server 8 knows the first sequence of the server 7 and holds its record. -/
theorem holdsRecord_or_rejectedUpstream_pushed :
    ∃ row ∈ ((committedNetwork.step (.deliver pushTransfer)).storage [7]).sync.log.records.ofOrigin [7],
      row.originSeq = 1 ∧
      ((committedNetwork.step (.deliver pushTransfer)).storage [8]).knownOriginSeq [7] = 1 ∧
      (HoldsRecord ((committedNetwork.step (.deliver pushTransfer)).storage [8]) row ∨
        ∃ envelope, row.indexed = some envelope ∧
          (committedNetwork.step (.deliver pushTransfer)).RejectedUpstream [8] envelope) := by
  have sole : Assumed (create newStorages) (.commit [7] clientBlock [[8]]) := by
    refine ⟨by decide, ?_⟩
    intro envelope assigned
    obtain ⟨row, inside, -⟩ := assigned
    cases inside
  have arrives : committedNetwork.Assumed (.deliver pushTransfer) := trivial
  have run : Runs step Assumed (create newStorages) (committedNetwork.step (.deliver pushTransfer)) :=
    ((Runs.refl _).tail sole).tail arrives
  have present : ((committedNetwork.step (.deliver pushTransfer)).storage [7]).sync.log.records.ofOrigin [7] ≠ [] := by
    decide
  have first : ∀ row ∈ ((committedNetwork.step (.deliver pushTransfer)).storage [7]).sync.log.records.ofOrigin [7],
      row.originSeq = 1 := by
    decide
  have known : ((committedNetwork.step (.deliver pushTransfer)).storage [8]).knownOriginSeq [7] = 1 := by decide
  obtain ⟨row, inside⟩ := List.exists_mem_of_ne_nil _ present
  refine ⟨row, inside, first row inside, known, ?_⟩
  apply holdsRecord_or_rejectedUpstream (fun block => List.cons_ne_nil _ _) createsAll_newStorages run [7] [8] row inside
  rw [first row inside, known]

end Network

end SpSync
