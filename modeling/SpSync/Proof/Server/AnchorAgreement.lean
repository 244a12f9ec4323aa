import SpSync.Construction.Server.Replication
import SpSync.Foundation.Run
import SpSync.Proof.Server.Endpoints
import SpSync.Proof.Server.Evidence
import SpSync.Proof.Server.LinkedLog
import SpSync.Proof.Server.Replication

namespace SpSync

open Foundation

variable {lib : Securepath}

/-- The records that a packet carries. -/
def PeerPacket.envelopes : PeerPacket lib → List lib.Envelope
  | .pushRecords envelopes => envelopes
  | .responseEnvelopes answer => answer.envelopes
  | _ => []

/-- The endpoint keeps its log and sends no record that it did not send before. -/
structure Endpoint.Quiet (before after : Endpoint lib) : Prop where
  log : after.storage.sync.log = before.storage.sync.log
  ownId : after.storage.ownId = before.storage.ownId
  outgoing : ∀ packet ∈ after.outgoing, packet ∈ before.outgoing ∨ packet.envelopes = []

namespace Endpoint

variable {endpoint before : Endpoint lib}

theorem Quiet.refl (endpoint : Endpoint lib) : Quiet endpoint endpoint :=
  ⟨rfl, rfl, fun _ => Or.inl⟩

section

variable (quiet : Quiet before endpoint)
include quiet

theorem Quiet.connection (connection : PeerConnection) : Quiet before { endpoint with connection } :=
  ⟨quiet.log, quiet.ownId, quiet.outgoing⟩

theorem Quiet.sendPacket {packet : PeerPacket lib} (bare : packet.envelopes = []) :
    Quiet before (endpoint.sendPacket packet) :=
  ⟨quiet.log, quiet.ownId,
    List.forall_mem_append.mpr ⟨quiet.outgoing, List.forall_mem_singleton.mpr (Or.inr bare)⟩⟩

theorem Quiet.requestPull (origin : PublicKeyId) (first last : SequenceNumber) :
    Quiet before (endpoint.requestPull origin first last) := by
  unfold Endpoint.requestPull
  dsimp only
  split
  · exact quiet.connection _
  · exact (quiet.connection _).sendPacket rfl

theorem Quiet.requestSignerKey (id : PublicKeyId) : Quiet before (endpoint.requestSignerKey id) := by
  unfold Endpoint.requestSignerKey
  dsimp only
  split
  · exact quiet
  · exact (quiet.connection _).sendPacket rfl

theorem Quiet.askForKey (envelope : lib.Envelope) (err : Error) : Quiet before (endpoint.askForKey envelope err) := by
  unfold Endpoint.askForKey
  split
  · cases envelope.block.auth.signature with
    | none => exact quiet
    | some signature => exact quiet.requestSignerKey signature.issuer
  · split
    · exact quiet.requestSignerKey envelope.origin
    · exact quiet

theorem Quiet.pullOrigin (announced : PeerHeads) (head : OriginHead) :
    Quiet before (endpoint.pullOrigin announced head) := by
  have noted (diverged : Bool) : Quiet before (endpoint.noteDivergence head.origin diverged) := quiet.connection _
  unfold Endpoint.pullOrigin
  dsimp only
  split
  · exact noted _
  split
  · exact (noted _).requestPull _ _ _
  split
  · split
    · exact (noted _).requestPull _ _ _
    · exact noted _
  · exact noted _

theorem Quiet.startPulls (announced : PeerHeads) : Quiet before (endpoint.startPulls announced) := by
  unfold Endpoint.startPulls
  split
  · rename_i weak
    clear weak
    generalize announced.heads = heads
    induction heads generalizing endpoint with
    | nil => exact quiet
    | cons head rest ih => exact ih (quiet.pullOrigin announced head)
  · exact quiet

theorem Quiet.resumePulls : Quiet before endpoint.resumePulls := by
  unfold Endpoint.resumePulls
  cases endpoint.connection.peerHeads with
  | none => exact quiet
  | some announced => exact quiet.startPulls announced

theorem Quiet.takeKey (cid : Nat) (key : Option PublicKeyId) : Quiet before (endpoint.takeKey cid key) := by
  unfold Endpoint.takeKey
  split
  · exact quiet
  split
  · exact Quiet.resumePulls ⟨quiet.log, quiet.ownId, quiet.outgoing⟩
  · exact quiet.connection _

end

/-- A push is applied from its first envelope on, or not at all. -/
theorem inOrder_prefix (endpoint : Endpoint lib) (envelopes : List lib.Envelope) :
    (endpoint.inOrder envelopes).1 <+: envelopes ∧ Quiet endpoint (endpoint.inOrder envelopes).2 ∧
      (endpoint.inOrder envelopes).2.storage = endpoint.storage := by
  induction envelopes with
  | nil => exact ⟨List.prefix_refl _, .refl endpoint, rfl⟩
  | cons envelope rest ih =>
    unfold Endpoint.inOrder
    dsimp only
    split
    · exact ⟨List.nil_prefix, (Quiet.refl endpoint).requestPull _ _ _, requestPull_storage endpoint _ _ _⟩
    · exact ⟨List.cons_prefix_cons.mpr ⟨rfl, ih.1⟩, ih.2⟩

end Endpoint

namespace Storage

/-- A replica of the storage: a chain whose assignments were made by their origins, and whose first block
is an anchor. -/
structure Agrees (made : lib.Envelope → Prop) (anchor : Octets → Prop) (storage : Storage lib) : Prop where
  linked : storage.sync.log.Linked
  made : ∀ row ∈ storage.sync.log.records.rows, ∀ envelope, row.indexed = some envelope → made envelope
  anchored : storage.sync.log.records.rows ≠ [] →
    ∃ row ∈ storage.sync.log.records.rows, row.sequence = 1 ∧ anchor row.hash

variable {made : lib.Envelope → Prop} {anchor : Octets → Prop} {storage after : Storage lib} {envelope : lib.Envelope}

theorem Agrees.congr (agrees : storage.Agrees made anchor) (log : after.sync.log = storage.sync.log) :
    after.Agrees made anchor := by
  obtain ⟨linked, made, anchored⟩ := agrees
  rw [← log] at linked made anchored
  exact ⟨linked, made, anchored⟩

/-- A block behind others leaves the anchor; the first one is an anchor when its hash is one. -/
theorem Agrees.save {block : lib.Block} {assignment : Option (Assignment lib)} (agrees : storage.Agrees made anchor)
    (saved : Saved storage after block assignment) (known : ∀ stored ∈ assignment, made stored.envelope)
    (first : storage.sync.log.records.rows = [] → anchor (lib.hash (block.setSequenceAndParentHash 1 []))) :
    after.Agrees made anchor := by
  obtain ⟨newest, savedRow⟩ := saved.exists_row
  refine ⟨saved.linked agrees.linked, ?_, fun _ => ?_⟩
  · intro row inside other indexed
    obtain old | rfl := savedRow.mem inside
    · exact agrees.made row old other indexed
    · obtain ⟨stored, present, rfl⟩ := savedRow.indexed indexed
      exact known stored present
  · by_cases empty : storage.sync.log.records.rows = []
    · have start := agrees.linked.head_of_rows empty
      refine ⟨newest, savedRow.mem_newest, by rw [savedRow.sequence, start], ?_⟩
      have hash : newest.hash = _ := congrArg ChainBlockId.hash savedRow.blockId
      rw [hash, saved.head, start]
      exact first empty
    · obtain ⟨row, inside, rest⟩ := agrees.anchored empty
      exact ⟨row, savedRow.mem_of_mem inside, rest⟩

/-- The envelope that a replica without records may take: an anchor, not refused for good. -/
structure Opens (anchor : Octets → Prop) (storage : Storage lib) (envelope : lib.Envelope) : Prop where
  hash : anchor (lib.hash (envelope.block.setSequenceAndParentHash 1 []))
  foreign : envelope.origin ≠ storage.ownId
  accepted : storage.rejectsForGood envelope = false

/-- A skipped record is held already, or refused for good. -/
theorem rows_of_skips (admitted : (storage.admitForeign envelope).2 = none) (foreign : envelope.origin ≠ storage.ownId)
    (accepted : storage.rejectsForGood envelope = false) (skips : Skips storage envelope) :
    storage.sync.log.records.rows ≠ [] := by
  intro empty
  have absent : storage.sync.log.records.findTag envelope.block.tag = none := by
    simp [RecordStorage.findTag, empty]
  obtain held | ⟨err, type, verdict, skipped⟩ := skips
  · simp [absent] at held
  by_cases committed : err.code = .recordAlreadyCommitted
  · obtain held | ⟨_, found⟩ := ChainSync.held_of_alreadyCommitted verdict committed
    · simp [absent] at held
    · simp [RecordStorage.findOpId, empty] at found
  · have permanent : permanentRejection err = true := by
      simpa [foreignRecordSkipped, committed] using skipped
    simp [rejectsForGood, admitted, foreign, absent, verdict, permanent] at accepted

/-- One envelope keeps the replica in agreement, and a replica without records fails or opens with it. -/
theorem Agrees.applyForeign (agrees : storage.Agrees made anchor) (known : made envelope)
    (opens : storage.sync.log.records.rows = [] → storage.Opens anchor envelope) :
    (storage.applyForeign envelope).1.Agrees made anchor ∧
      ((storage.applyForeign envelope).2 = none → (storage.applyForeign envelope).1.sync.log.records.rows ≠ []) := by
  obtain ⟨evidence, err, refused⟩ | ⟨after, report, result, admitted, applied⟩ := applyForeign_cases storage envelope
  · rw [refused]
    exact ⟨agrees.congr rfl, fun done => by cases done⟩
  rw [result]
  cases applied with
  | own returned => exact ⟨agrees, fun _ empty => (opens empty).foreign returned⟩
  | skipped foreign skips =>
    refine ⟨agrees.congr rfl, fun _ empty => ?_⟩
    exact rows_of_skips (by rw [admitted]) foreign (opens empty).accepted skips empty
  | refused err => exact ⟨agrees, fun done => by cases done⟩
  | unassigned err _ _ saved =>
    exact ⟨agrees.save saved (by simp) fun empty => (opens empty).hash, fun done => by cases done⟩
  | committed _ _ _ saved =>
    obtain ⟨newest, savedRow⟩ := saved.exists_row
    refine ⟨agrees.save saved ?_ fun empty => (opens empty).hash, fun _ => List.ne_nil_of_mem savedRow.mem_newest⟩
    intro stored same
    cases same
    exact known

end Storage

/-- The endpoint stays in agreement, keeps its rows and sends only records that were made. -/
structure Endpoint.Absorbs (made : lib.Envelope → Prop) (anchor : Octets → Prop) (before after : Endpoint lib) : Prop where
  agrees : after.storage.Agrees made anchor
  ownId : after.storage.ownId = before.storage.ownId
  rows : ∀ row ∈ before.storage.sync.log.records.rows, row ∈ after.storage.sync.log.records.rows
  outgoing : ∀ packet ∈ after.outgoing, packet ∈ before.outgoing ∨ ∀ envelope ∈ packet.envelopes, made envelope

namespace Endpoint

variable {made : lib.Envelope → Prop} {anchor : Octets → Prop} {endpoint before middle after : Endpoint lib}

theorem Quiet.absorbs (quiet : Quiet before after) (agrees : before.storage.Agrees made anchor) :
    Absorbs made anchor before after where
  agrees := agrees.congr quiet.log
  ownId := quiet.ownId
  rows row inside := by
    rw [quiet.log]
    exact inside
  outgoing packet inside := (quiet.outgoing packet inside).imp_right fun bare envelope carried => by
    rw [bare] at carried
    cases carried

theorem Absorbs.trans (earlier : Absorbs made anchor before middle) (later : Absorbs made anchor middle after) :
    Absorbs made anchor before after where
  agrees := later.agrees
  ownId := later.ownId.trans earlier.ownId
  rows row inside := later.rows row (earlier.rows row inside)
  outgoing packet inside := by
    obtain sent | carried := later.outgoing packet inside
    · exact earlier.outgoing packet sent
    · exact Or.inr carried

section

variable (agrees : endpoint.storage.Agrees made anchor)
include agrees

/-- Envelopes of which a replica without records takes an anchor first keep the agreement. -/
theorem absorbs_applyEnvelopes {envelopes : List lib.Envelope} (known : ∀ envelope ∈ envelopes, made envelope)
    (opens : endpoint.storage.sync.log.records.rows = [] → ∀ envelope ∈ envelopes.head?,
      endpoint.storage.Opens anchor envelope) : Absorbs made anchor endpoint (endpoint.applyEnvelopes envelopes) := by
  induction envelopes generalizing endpoint with
  | nil => exact (Quiet.refl endpoint).absorbs agrees
  | cons envelope rest ih =>
    obtain ⟨agreesAfter, opened⟩ := agrees.applyForeign (known envelope (by simp)) fun empty => opens empty envelope rfl
    have applied : Absorbs made anchor endpoint (endpoint.applyEnvelope envelope).1 :=
      ⟨agreesAfter, (Storage.applyForeign_gains endpoint.storage envelope).setting.ownId,
        fun row => Storage.mem_applyForeign, fun _ => Or.inl⟩
    obtain ⟨done, next⟩ | ⟨err, next⟩ := endpoint.applyEnvelopes_cons envelope rest
    · rw [next]
      refine applied.trans (ih agreesAfter (fun later inside => known later (by simp [inside])) ?_)
      exact fun empty => absurd empty (opened done)
    · rw [next]
      exact applied.trans (((Quiet.refl _).askForKey envelope err).absorbs agreesAfter)

/-- A pull is answered with assignments that are held. -/
theorem absorbs_servePull (request : PullRecords) : Absorbs made anchor endpoint (endpoint.servePull request) := by
  unfold Endpoint.servePull
  split
  · exact (((Quiet.refl endpoint).sendPacket rfl).sendPacket rfl).absorbs agrees
  refine ⟨agrees, rfl, fun _ inside => inside, fun packet inside => ?_⟩
  obtain sent | last := List.mem_append.mp inside
  · exact Or.inl sent
  rw [List.mem_singleton.mp last]
  refine Or.inr fun envelope served => ?_
  change envelope ∈ endpoint.storage.sync.log.getByOrigin _ _ _ _ _ at served
  rw [ChainLog.getByOrigin_eq] at served
  have chosen := List.mem_of_mem_take ((Budget.batch_sublist _ _).subset served)
  obtain ⟨row, listed, indexed, _⟩ := ChainLog.mem_assigned_iff.mp chosen
  exact agrees.made row (List.mem_of_mem_filter listed) envelope indexed

theorem absorbs_applyPushed {envelopes : List lib.Envelope} (known : ∀ envelope ∈ envelopes, made envelope)
    (opens : endpoint.storage.sync.log.records.rows = [] → ∀ envelope ∈ envelopes.head?,
      endpoint.storage.Opens anchor envelope) : Absorbs made anchor endpoint (endpoint.applyPushed envelopes) := by
  obtain ⟨isPrefix, quiet, storage⟩ := endpoint.inOrder_prefix envelopes
  have asked := quiet.absorbs agrees
  refine asked.trans (absorbs_applyEnvelopes asked.agrees ?_ ?_)
  · exact fun envelope inside => known envelope (isPrefix.subset inside)
  rw [storage]
  intro empty envelope first
  obtain ⟨rest, whole⟩ := isPrefix
  refine opens empty envelope ?_
  rw [← whole, List.head?_append, first]
  rfl

theorem absorbs_takeAnswer {answer : ResponseEnvelopes lib} (known : ∀ envelope ∈ answer.envelopes, made envelope)
    (opens : endpoint.storage.sync.log.records.rows = [] → ∀ envelope ∈ answer.envelopes.head?,
      endpoint.storage.Opens anchor envelope) : Absorbs made anchor endpoint (endpoint.takeAnswer answer) := by
  unfold Endpoint.takeAnswer
  dsimp only
  split
  · exact ((Quiet.refl endpoint).connection _).absorbs agrees
  have answered (connection : PeerConnection) :
      Absorbs made anchor endpoint ({ endpoint with connection }.applyEnvelopes answer.envelopes) := by
    have asked := ((Quiet.refl endpoint).connection connection).absorbs agrees
    exact asked.trans (absorbs_applyEnvelopes asked.agrees known opens)
  split
  · exact (answered _).trans (((Quiet.refl _).requestPull _ _ _).absorbs (answered _).agrees)
  · exact answered _

/-- Every packet keeps the agreement when its first record may open a replica without records. -/
theorem absorbs_handle {packet : PeerPacket lib} (known : ∀ envelope ∈ packet.envelopes, made envelope)
    (opens : endpoint.storage.sync.log.records.rows = [] → ∀ envelope ∈ packet.envelopes.head?,
      endpoint.storage.Opens anchor envelope) : Absorbs made anchor endpoint (endpoint.handle packet) := by
  cases packet with
  | peerHeads announced => exact (((Quiet.refl endpoint).connection _).startPulls announced).absorbs agrees
  | requestKey cid key => exact ((Quiet.refl endpoint).sendPacket rfl).absorbs agrees
  | responseKey cid key => exact ((Quiet.refl endpoint).takeKey cid key).absorbs agrees
  | notReplicating => exact (Quiet.refl endpoint).absorbs agrees
  | pullRecords request => exact absorbs_servePull agrees request
  | responseEnvelopes answer => exact absorbs_takeAnswer agrees known opens
  | pushRecords envelopes =>
    simp only [Endpoint.handle]
    split
    · exact ((Quiet.refl endpoint).sendPacket rfl).absorbs agrees
    · exact absorbs_applyPushed agrees known opens

end

end Endpoint

theorem Storage.Agrees.imp {made madeNow : lib.Envelope → Prop} {anchor anchorNow : Octets → Prop}
    {storage : Storage lib} (agrees : storage.Agrees made anchor)
    (more : ∀ envelope, made envelope → madeNow envelope) (still : ∀ hash, anchor hash → anchorNow hash) :
    storage.Agrees madeNow anchorNow where
  linked := agrees.linked
  made row inside envelope indexed := more envelope (agrees.made row inside envelope indexed)
  anchored holds := by
    obtain ⟨row, inside, sequence, hash⟩ := agrees.anchored holds
    exact ⟨row, inside, sequence, still row.hash hash⟩

namespace Network

/-- The origin of the envelope holds the block of the envelope under this assignment. -/
def Made (network : Network lib) (envelope : lib.Envelope) : Prop :=
  ∃ row ∈ (network.storage envelope.origin).sync.log.records.rows,
    row.indexed = some envelope ∧ row.block = envelope.block

/-- The server holds a block with the hash at its first sequence. -/
def StartsWith (network : Network lib) (server : PublicKeyId) (hash : Octets) : Prop :=
  ∃ row ∈ (network.storage server).sync.log.records.rows, row.sequence = 1 ∧ row.hash = hash

/-- All replicas start with a block that the first server starts with, and every record on the way was made. -/
structure Agreed (first : PublicKeyId) (network : Network lib) : Prop where
  ownIds : ∀ server, (network.storage server).ownId = server
  packets : ∀ transfer ∈ network.sent, ∀ envelope ∈ transfer.packet.envelopes, network.Made envelope
  replicas : ∀ server, (network.storage server).Agrees network.Made (network.StartsWith first)

variable {network : Network lib} {first server peer : PublicKeyId} {changed : Server lib} {envelope : lib.Envelope}

theorem agreed_create (first : PublicKeyId) (id : Octets) (keys : PublicKeyId → List PublicKeyId)
    (modes : PublicKeyId → StorageModes) :
    Agreed first (create fun server => .ofModes id server (some (keys server)) (modes server) : Network lib) := by
  refine ⟨fun _ => rfl, ?_, fun server => ⟨ChainLog.linked_empty lib, ?_, fun holds => absurd rfl holds⟩⟩
  · intro transfer inside
    cases inside
  · intro row inside
    cases inside

section Change

variable (rows : ∀ row ∈ (network.storage server).sync.log.records.rows, row ∈ changed.storage.sync.log.records.rows)
include rows

theorem mem_setServer {other : PublicKeyId} {row : Row lib}
    (inside : row ∈ (network.storage other).sync.log.records.rows) :
    row ∈ ((network.setServer server changed).storage other).sync.log.records.rows := by
  rw [storage_setServer]
  split
  · rename_i own
    rw [own] at inside
    exact rows row inside
  · exact inside

/-- What was made stays made while the changed server keeps its rows. -/
theorem Made.setServer (known : network.Made envelope) : (network.setServer server changed).Made envelope := by
  obtain ⟨row, inside, kept⟩ := known
  exact ⟨row, mem_setServer rows inside, kept⟩

theorem StartsWith.setServer {hash : Octets} (starts : network.StartsWith first hash) :
    (network.setServer server changed).StartsWith first hash := by
  obtain ⟨row, inside, kept⟩ := starts
  exact ⟨row, mem_setServer rows inside, kept⟩

/-- A changed server that keeps its rows and agrees with the others keeps the agreement. -/
theorem Agreed.setServer (agreed : network.Agreed first) (ownId : changed.storage.ownId = server)
    (agrees : changed.storage.Agrees (network.setServer server changed).Made
      ((network.setServer server changed).StartsWith first)) : (network.setServer server changed).Agreed first := by
  refine ⟨fun other => ?_, fun transfer inside carried known => ?_, fun other => ?_⟩
  · rw [storage_setServer]
    split
    · rename_i own
      rw [own, ownId]
    · exact agreed.ownIds other
  · exact (agreed.packets transfer inside carried known).setServer rows
  · rw [storage_setServer]
    split
    · exact agrees
    · exact (agreed.replicas other).imp (fun _ known => known.setServer rows) fun _ starts => starts.setServer rows

end Change

section

variable (agreed : network.Agreed first) {block : lib.Block} {connected : List PublicKeyId}

include agreed

theorem Agreed.send {packets : List (PeerPacket lib)}
    (known : ∀ packet ∈ packets, ∀ envelope ∈ packet.envelopes, network.Made envelope) :
    (network.send server peer packets).Agreed first :=
  ⟨agreed.ownIds, List.forall_mem_append.mpr ⟨agreed.packets, List.forall_mem_map.mpr known⟩, agreed.replicas⟩

/-- What the end of a connection absorbs keeps the agreement of the network. -/
theorem Agreed.settle {after : Endpoint lib}
    (absorbs : Endpoint.Absorbs network.Made (network.StartsWith first) (network.endpoint server peer) after) :
    (network.settle server peer after).Agreed first := by
  obtain ⟨changed, storage, _, settled⟩ := network.settle_eq server peer after
  rw [settled]
  have rows : ∀ row ∈ (network.storage server).sync.log.records.rows, row ∈ changed.storage.sync.log.records.rows := by
    rw [storage]
    exact absorbs.rows
  refine Agreed.send (agreed.setServer rows ?_ ?_) ?_
  · rw [storage, absorbs.ownId]
    exact agreed.ownIds server
  · rw [storage]
    exact absorbs.agrees.imp (fun _ known => known.setServer rows) fun _ starts => starts.setServer rows
  · intro packet inside envelope carried
    obtain sent | known := absorbs.outgoing packet inside
    · cases sent
    · exact (known envelope carried).setServer rows

/-- The block that the first server made at its first sequence is the one it starts with. -/
theorem Agreed.startsWith (known : network.Made envelope) (origin : envelope.origin = first)
    (opening : envelope.block.sequence = 1) :
    network.StartsWith first (lib.hash (envelope.block.setSequenceAndParentHash 1 [])) := by
  obtain ⟨row, inside, _, same⟩ := known
  rw [origin] at inside
  have linked := (agreed.replicas first).linked
  have faithful := linked.faithful row inside
  have sequence : row.sequence = 1 := by rw [faithful.sequence, same, opening]
  have parent : envelope.block.parentHash = [] := by
    rw [← same, ← faithful.parentHash]
    exact linked.chain.parent_of_first inside sequence
  have placed : envelope.block.setSequenceAndParentHash 1 [] = envelope.block := by
    rw [← parent, ← opening]
    rfl
  exact ⟨row, inside, sequence, by rw [faithful.hash, same, placed]⟩

/-- What keeps the replicas on one anchor: a server without records gets its first one as a commit only when
it is the first server, and from a peer only as the first block of that server, which it does not refuse. -/
def Anchored (first : PublicKeyId) (network : Network lib) : Event lib → Prop
  | .commit server _ _ => server = first ∨ (network.storage server).sync.log.records.rows ≠ []
  | .deliver transfer => (network.storage transfer.target).sync.log.records.rows ≠ [] ∨
      ∀ envelope ∈ transfer.packet.envelopes.head?, envelope.origin = first ∧ envelope.block.sequence = 1 ∧
        (network.storage transfer.target).rejectsForGood envelope = false
  | _ => True

theorem Agreed.deliver {transfer : Transfer lib} (anchored : network.Anchored first (.deliver transfer)) :
    (network.deliver transfer).Agreed first := by
  unfold Network.deliver
  split
  · rename_i sent
    have known := agreed.packets transfer sent
    have opens (empty : (network.storage transfer.target).sync.log.records.rows = []) :
        ∀ envelope ∈ transfer.packet.envelopes.head?,
          (network.storage transfer.target).Opens (network.StartsWith first) envelope := by
      intro envelope head
      obtain ⟨origin, sequence, accepted⟩ := anchored.resolve_left (absurd empty) envelope head
      have starts := agreed.startsWith (known envelope (List.mem_of_mem_head? head)) origin sequence
      refine ⟨starts, fun own => ?_, accepted⟩
      -- The first server holds its own block, so it is not the one without records.
      obtain ⟨row, inside, _⟩ := starts
      rw [← origin, own, agreed.ownIds, empty] at inside
      cases inside
    have arrived : Agreed first { network with delivered := network.delivered ++ [transfer] } :=
      ⟨agreed.ownIds, agreed.packets, agreed.replicas⟩
    exact arrived.settle (Endpoint.absorbs_handle (agreed.replicas transfer.target) known opens)
  · exact agreed

/-- A server whose log stays the same keeps the agreement. -/
theorem Agreed.sameLog (ownId : changed.storage.ownId = server)
    (log : changed.storage.sync.log = (network.storage server).sync.log) :
    (network.setServer server changed).Agreed first := by
  have rows : ∀ row ∈ (network.storage server).sync.log.records.rows,
      row ∈ changed.storage.sync.log.records.rows := by simp [log]
  refine agreed.setServer rows ownId (((agreed.replicas server).congr log).imp ?_ ?_)
  · exact fun _ known => known.setServer rows
  · exact fun _ starts => starts.setServer rows

/-- A push to peers of what was made keeps the agreement. -/
theorem Agreed.push (known : network.Made envelope) (connected : List PublicKeyId) :
    (connected.foldl (fun pushed peer => pushed.send server peer [.pushRecords [envelope]]) network).Agreed first := by
  induction connected generalizing network with
  | nil => exact agreed
  | cons peer rest ih =>
    refine ih (agreed.send ?_) known
    intro packet inside other carried
    rw [List.mem_singleton.mp inside] at carried
    rwa [List.mem_singleton.mp carried]

/-- A commit at the first server, or behind other records, keeps the agreement. -/
theorem Agreed.save (anchored : network.Anchored first (.commit server block connected)) {after : Storage lib}
    {placed : lib.Block}
    (position : placed = block.setSequenceAndParentHash ((network.storage server).sync.log.head.sequence + 1)
      (network.storage server).sync.log.head.hash)
    (saved : Storage.Saved (network.storage server) after block
      (((network.storage server).makeEnvelope placed).map fun envelope => { envelope })) :
    (network.setStorage server after).Agreed first ∧
      ∀ envelope ∈ (network.storage server).makeEnvelope placed, (network.setStorage server after).Made envelope := by
  obtain ⟨newest, savedRow⟩ := saved.exists_row
  have own : (network.setStorage server after).storage server = after := by
    rw [storage_setStorage, if_pos rfl]
  have rows : ∀ row ∈ (network.storage server).sync.log.records.rows, row ∈ after.sync.log.records.rows :=
    fun _ => savedRow.mem_of_mem
  have made : ∀ envelope ∈ (network.storage server).makeEnvelope placed,
      (network.setStorage server after).Made envelope := by
    intro envelope signed
    obtain ⟨same, origin⟩ := Storage.makeEnvelope_eq_some signed
    refine ⟨newest, ?_, ?_, ?_⟩
    · rw [origin, agreed.ownIds, own]
      exact savedRow.mem_newest
    · simp [Row.indexed, savedRow.assignment, Option.mem_def.mp signed]
    · rw [savedRow.block, same, position]
  refine ⟨agreed.setServer rows (saved.setting.ownId.trans (agreed.ownIds server)) ?_, made⟩
  refine ((agreed.replicas server).imp ?_ ?_).save saved ?_ ?_
  · exact fun _ known => known.setServer rows
  · exact fun _ starts => starts.setServer rows
  · intro stored inside
    obtain ⟨envelope, signed, rfl⟩ := Option.map_eq_some_iff.mp inside
    exact made envelope signed
  · intro empty
    -- The first block of the first server is the one it starts with.
    obtain rfl := anchored.resolve_right (absurd empty)
    have start := (agreed.replicas server).linked.head_of_rows empty
    have inside : newest ∈ ((network.setStorage server after).storage server).sync.log.records.rows := by
      rw [own]
      exact savedRow.mem_newest
    refine ⟨newest, inside, by rw [savedRow.sequence, start], ?_⟩
    have hash : newest.hash = _ := congrArg ChainBlockId.hash savedRow.blockId
    rw [hash, saved.head, start]
    rfl

theorem Agreed.commit (anchored : network.Anchored first (.commit server block connected)) :
    (network.commit server block connected).Agreed first := by
  obtain ⟨err, refused⟩ | ⟨placed, _, position, _, result, saved, _⟩ :=
    Storage.commitBlock_saved (network.storage server) block
  · unfold Network.commit
    rw [refused]
    exact agreed.sameLog (agreed.ownIds server) rfl
  · obtain ⟨committed, made⟩ := agreed.save anchored position saved
    unfold Network.commit
    split
    · rename_i storage block envelope done
      rw [done] at result committed made
      have signed : (network.storage server).makeEnvelope placed = some envelope := by
        simp only [Except.ok.injEq, Prod.mk.injEq] at result
        exact result.2.symm
      split
      · exact committed.push (made envelope signed) connected
      · exact committed
    · rename_i storage result other done
      rw [done] at committed
      exact committed

theorem Agreed.step {event : Event lib} (anchored : network.Anchored first event) :
    (network.step event).Agreed first := by
  cases event with
  | commit server block connected => exact agreed.commit anchored
  | announce server peer =>
    exact agreed.settle (((Endpoint.Quiet.refl _).sendPacket rfl).absorbs (agreed.replicas server))
  | deliver transfer => exact agreed.deliver anchored
  | reconnect server peer =>
    exact agreed.settle (((Endpoint.Quiet.refl _).connection _).absorbs (agreed.replicas server))
  | knowKeys server keys =>
    exact agreed.sameLog (agreed.ownIds server) rfl

end

/-- In every run in which no server without records takes another block first, every replica that holds a
record has at its first sequence a block with the hash of the first server's block there. -/
theorem startsWith_of_run {id : Octets} {keys : PublicKeyId → List PublicKeyId} {modes : StorageModes}
    {defaults : PublicKeyId → StorageLimits} {storages : PublicKeyId → Storage lib}
    (created : CreatesAll id keys modes defaults storages)
    (run : Runs step (Anchored first) (create storages) network) (replica : PublicKeyId)
    (holds : (network.storage replica).sync.log.records.rows ≠ []) :
    ∃ row ∈ (network.storage replica).sync.log.records.rows, row.sequence = 1 ∧
      ∃ opening ∈ (network.storage first).sync.log.records.rows, opening.sequence = 1 ∧
        lib.hash row.block = lib.hash opening.block := by
  obtain ⟨limits, rfl⟩ := created.exists_limits
  have agreed : Agreed first network :=
    run.keeps (agreed_create first id keys _) fun _ _ state anchored => state.step anchored
  obtain ⟨row, inside, sequence, opening, openingIn, position, same⟩ := (agreed.replicas replica).anchored holds
  refine ⟨row, inside, sequence, opening, openingIn, position, ?_⟩
  rw [← ((agreed.replicas replica).linked.faithful row inside).hash, ← same]
  exact ((agreed.replicas first).linked.faithful opening openingIn).hash

/-- The server 7 commits the first record and pushes it to the server 8. -/
theorem startsWith_of_run_pushed :
    ∃ row ∈ ((committedNetwork.step (.deliver pushTransfer)).storage [8]).sync.log.records.rows, row.sequence = 1 ∧
      ∃ opening ∈ ((committedNetwork.step (.deliver pushTransfer)).storage [7]).sync.log.records.rows,
        opening.sequence = 1 ∧ Securepath.sample.hash row.block = Securepath.sample.hash opening.block := by
  have opens : Anchored [7] committedNetwork (.deliver pushTransfer) := by
    right
    intro envelope head
    obtain rfl := Option.some.inj head
    exact ⟨rfl, by decide +kernel, by decide +kernel⟩
  have commits : Anchored [7] (create newStorages) (.commit [7] clientBlock [[8]]) := Or.inl rfl
  have run : Runs step (Anchored [7]) (create newStorages) (committedNetwork.step (.deliver pushTransfer)) :=
    ((Runs.refl _).tail commits).tail opens
  exact startsWith_of_run createsAll_newStorages run [8] (by decide +kernel)

/-- The transfer that was sent at the index arrives. -/
def arrive (network : Network lib) (index : Nat) : Network lib :=
  match network.sent[index]? with
  | some transfer => network.step (.deliver transfer)
  | none => network

/-- The server 8 holds the record of the server 7 and commits one of its own behind it. -/
def followedNetwork : Network Securepath.sample :=
  (committedNetwork.step (.deliver pushTransfer)).step (.commit [8]
    (Securepath.sample.newBlock ⟨{ opId := [6] }, .userChange ⟨{ mode := .delta }, []⟩, []⟩ ⟨[10], some ⟨[6], [10]⟩⟩) [])

/-- The server 8 announces its heads to the new server 9 and answers the first pull of it, which is the one
for the records of the server 8 itself. -/
def strayNetwork : Network Securepath.sample :=
  (((followedNetwork.step (.announce [8] [9])).arrive 1).arrive 2).arrive 4

/-- The server 9 has the record of the server 8 at its first sequence, and the server 7 its own. -/
theorem not_startsWith_strayed :
    Runs step (fun _ _ => True) (create newStorages) strayNetwork ∧
      (strayNetwork.storage [9]).sync.log.records.rows ≠ [] ∧
      ∀ row ∈ (strayNetwork.storage [9]).sync.log.records.rows, row.sequence = 1 →
        ∀ opening ∈ (strayNetwork.storage [7]).sync.log.records.rows, opening.sequence = 1 →
          Securepath.sample.hash row.block ≠ Securepath.sample.hash opening.block := by
  have arrives {start network : Network Securepath.sample} (run : Runs step (fun _ _ => True) start network)
      (index : Nat) : Runs step (fun _ _ => True) start (network.arrive index) := by
    unfold arrive
    split
    · exact run.tail trivial
    · exact run
  have followed : Runs step (fun _ _ => True) (create newStorages) followedNetwork :=
    (((Runs.refl _).tail trivial).tail trivial).tail trivial
  refine ⟨arrives (arrives (arrives (followed.tail trivial) 1) 2) 4, by decide +kernel, by decide +kernel⟩

end Network

end SpSync
