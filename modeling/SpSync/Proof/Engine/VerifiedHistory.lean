import SpSync.Proof.Engine.Authenticity
import SpSync.Proof.Engine.HistoryScan
import SpSync.Proof.Engine.SentForms
import SpSync.Proof.Server.SeenRules

namespace SpSync

open Foundation RecordStorage HistoryVerifier

variable {lib : Securepath} {records : RecordStorage lib}

/-- The block stands behind the block that its record saw last; the first block has no parent. -/
structure Sits (block : lib.Block) (record : Record) : Prop where
  parsed : lib.deserialise block.record = some record
  next : block.sequence = record.base.lastSeenBlock.sequence + 1
  link : block.parentHash = record.base.lastSeenBlock.hash
  root : block.sequence = 1 → block.parentHash = []

namespace ChainSync

variable {sync : ChainSync lib} {config : ChainSyncConfig} {keys : Option (List PublicKeyId)}

/-- A storage that took commits of records with content. -/
abbrev Served (config : ChainSyncConfig) (keys : Option (List PublicKeyId)) : ChainSync lib → Prop :=
  Runs commitStep (fun _ block => HasContent block) (load config keys (.empty lib))

/-- What a strict storage keeps. -/
structure Seated (config : ChainSyncConfig) (sync : ChainSync lib) : Prop where
  config : sync.config = config
  linked : sync.log.Linked
  sits : ∀ row ∈ sync.log.records.rows, ∃ record, Sits row.block record

theorem Seated.commit (strict : config.mode = .requireAllSeen) {block : lib.Block} (seated : Seated config sync)
    (content : HasContent block) : Seated config (sync.commitStep block) := by
  apply commitWith_keeps seated
  intro type saved placed accepted done
  obtain ⟨rfl, ⟨_, _, rows⟩, _, sameConfig, _⟩ := setAndSaveBlock_ok done
  obtain ⟨_, _, _, record, parsed, _, passed⟩ := evaluateWith_accepted accepted
  have seen := checkRules_seen (by rw [seated.config, strict]) (content record parsed) passed
  refine ⟨sameConfig.trans seated.config, linked_setAndSaveBlock seated.linked done, fun row inside => ?_⟩
  rw [rows, List.mem_append, List.mem_singleton] at inside
  obtain old | rfl := inside
  · exact seated.sits row old
  refine ⟨record, parsed, ?_, ?_, ?_⟩
  · rw [seen]
    rfl
  · rw [seen]
    rfl
  · intro first
    have empty : sync.log.head.sequence = 0 := Nat.succ.inj first
    exact congrArg ChainBlockId.hash (seated.linked.head_of_empty empty)

theorem Served.seated (strict : config.mode = .requireAllSeen) (served : Served config keys sync) :
    Seated config sync :=
  served.keeps ⟨rfl, ChainLog.linked_empty lib, by simp [load, ChainLog.load, RecordStorage.empty]⟩
    fun _ _ seated content => seated.commit strict content

end ChainSync

/-- A range of authentic records that follow one another is linked. -/
theorem linked_of_chain {keys : KeyStorage} (chain : StrictChain records)
    (authentic : ∀ row ∈ records.synced, Authentic keys row) {first count : Nat} {parent : Octets}
    (present : ∀ sequence ∈ List.range' first count, ∃ row ∈ records.synced, row.sequence = sequence)
    (joined : ∀ row ∈ records.synced, row.sequence = first → row.parentHash = parent) :
    Linked records keys (List.range' first count) parent := by
  induction count generalizing first parent with
  | zero => trivial
  | succ count ih =>
    rw [List.range'_succ] at present ⊢
    obtain ⟨⟨row, inside, same⟩, later⟩ := List.forall_mem_cons.mp present
    refine ⟨row, find_eq_some_iff.mpr ⟨inside, same⟩, authentic row inside, joined row inside same, ih later ?_⟩
    intro next nextIn follows
    obtain ⟨rowIn, inSync⟩ := mem_synced.mp inside
    obtain ⟨nextRow, nextInSync⟩ := mem_synced.mp nextIn
    exact chain.linked row rowIn next nextRow inSync nextInSync (by rw [follows, same])

/-- In a chain there is a record at every sequence up to the last. -/
theorem StrictChain.present (chain : StrictChain records) :
    ∀ sequence ∈ List.range' 1 records.lastBlock.sequence, ∃ row ∈ records.synced, row.sequence = sequence := by
  obtain ⟨count, sequences⟩ := chain.sequences
  intro sequence inside
  have bound : records.lastBlock.sequence ≤ count := by
    rw [lastBlock_eq]
    cases last : records.newest fun _ => true with
    | none => exact Nat.zero_le _
    | some top =>
      obtain ⟨⟨topIn, topInSync, _⟩, _⟩ := newest_eq_some_iff.mp last
      have listed := sequences.mem_iff.mp (List.mem_map_of_mem (mem_synced.mpr ⟨topIn, topInSync⟩))
      have range := List.mem_range'_1.mp listed
      exact Nat.le_of_lt_succ (Nat.lt_of_lt_of_eq range.2 (Nat.add_comm 1 count))
  have range := List.mem_range'_1.mp inside
  have listed : sequence ∈ List.range' 1 count :=
    List.mem_range'_1.mpr ⟨range.1, Nat.lt_of_lt_of_le range.2 (Nat.add_le_add_left bound 1)⟩
  obtain ⟨row, rowIn, same⟩ := List.mem_map.mp (sequences.mem_iff.mpr listed)
  exact ⟨row, rowIn, same⟩

namespace Engine

variable {engine : Engine lib} {block : lib.Block} {row : Row lib}

/-- The server brings only blocks of its log. -/
def Honest (server : ChainSync lib) (_ : Engine lib) (event : EngineEvent lib) : Prop :=
  ∀ block ∈ deliveredBlocks event, ∃ row ∈ server.log.records.rows, row.block = block

/-- An answered or adopted block stands behind the one that it saw. -/
def SitsEntry : Entry lib → Prop
  | .confirm _ block _ => ∃ record, Sits block record
  | .adopt _ block _ => ∃ record, Sits block record
  | _ => True

/-- The rows of a strict client with an honest server: their blocks are the ones of the server or made here, and
their hashes are those of the blocks at the positions of the rows. -/
structure Filed (engine : Engine lib) : Prop where
  linear : engine.Linear
  forms : ∀ row ∈ engine.records.rows, (∃ record, Sits row.block record) ∨ Made row.block
  made : ∀ block ∈ engine.created, Made block
  hashes : ∀ row ∈ engine.records.rows, row.state = .inSync ∨ row.state = .pendingSync →
    lib.hash (committedBlock row) = row.hash

/-- An answer with the same record finds the stored form in its place. -/
theorem placed_of_matching (law : lib.RoundTrips) {record : Record} (sits : Sits block record)
    (form : (∃ record, Sits row.block record) ∨ Made row.block)
    (matching : block.checkMatchesWithoutServerData row.block = true) : row.Placed block.sequence block.parentHash := by
  simp only [ChainBlock.checkMatchesWithoutServerData, Bool.and_eq_true, decide_eq_true_eq] at matching
  have parsed := sits.parsed
  rw [matching.1] at parsed
  obtain ⟨other, same⟩ | ⟨other, auth, same⟩ := form
  · cases parsed.symm.trans same.parsed
    exact Or.inl ⟨same.next.trans sits.next.symm, same.link.trans sits.link.symm⟩
  rw [same] at parsed
  cases parsed.symm.trans (law other)
  have sequence : row.block.sequence = block.sequence := by
    rw [same]
    exact sits.next.symm
  have parentHash : row.block.parentHash = [] := by
    rw [same]
    rfl
  by_cases first : block.sequence = 1
  · exact Or.inl ⟨sequence, parentHash.trans (sits.root first).symm⟩
  · exact Or.inr ⟨by rwa [sequence], parentHash⟩

theorem committedBlock_of_position (sequence : row.block.sequence = row.sequence)
    (parentHash : row.block.parentHash = row.parentHash) : committedBlock row = row.block := by
  unfold committedBlock ChainBlock.setSequenceAndParentHash
  rw [← sequence, ← parentHash]

theorem committedBlock_at {state : RecordState} (matching : block.checkMatchesWithoutServerData row.block = true) :
    committedBlock (row.at block state) = block := by
  simp only [ChainBlock.checkMatchesWithoutServerData, Bool.and_eq_true, decide_eq_true_eq] at matching
  unfold committedBlock ChainBlock.setSequenceAndParentHash Row.at
  rw [← matching.1, ← matching.2]

namespace Filed

variable {row next : Row lib}

/-- A change that the honest server allows keeps waiting rows in place. -/
theorem keepsPlace (law : lib.RoundTrips) (filed : engine.Filed) (inside : row ∈ engine.records.rows)
    (change : Change SitsEntry engine row next) : Change KeepsPlace engine row next := by
  cases change with
  | confirm unconfirmed valid matching good permitted =>
    obtain ⟨record, sits⟩ := permitted
    exact .confirm unconfirmed valid matching good fun _ => placed_of_matching law sits (filed.forms row inside) matching
  | refuse unconfirmed => exact .refuse unconfirmed
  | replace pending valid parsed sameOp accepted _ => exact .replace pending valid parsed sameOp accepted trivial
  | adopt pending valid parsed sameOp good _ => exact .adopt pending valid parsed sameOp good trivial
  | follow waiting parentIn parentInSync next link _ grounded =>
    exact .follow waiting parentIn parentInSync next link trivial grounded
  | retain waiting anchored _ grounded => exact .retain waiting anchored trivial grounded
  | read waiting parsed readable accepted => exact .read waiting parsed readable accepted
  | rebase pending made => exact .rebase pending made
  | assign assignment => exact .assign assignment
  | demote confirmed weak _ => exact .demote confirmed weak trivial

theorem form_of_change (filed : engine.Filed) (inside : row ∈ engine.records.rows)
    (change : Change SitsEntry engine row next) : (∃ record, Sits next.block record) ∨ Made next.block := by
  cases change with
  | replace _ _ _ _ _ permitted | adopt _ _ _ _ _ permitted => exact Or.inl permitted
  | rebase _ made => exact Or.inr (filed.made _ made)
  | confirm | refuse | follow | retain | read | assign | demote => exact filed.forms row inside

theorem hash_of_change (filed : engine.Filed) (inside : row ∈ engine.records.rows)
    (change : Change SitsEntry engine row next) (counts : next.state = .inSync ∨ next.state = .pendingSync) :
    lib.hash (committedBlock next) = next.hash := by
  cases change with
  | confirm _ _ matching => exact congrArg lib.hash (committedBlock_at matching)
  | refuse => simp at counts
  | replace pending => simp [Row.withBlock, pending] at counts
  | adopt => exact congrArg lib.hash (committedBlock_of_position rfl rfl)
  | follow waiting | retain waiting | read waiting => exact filed.hashes row inside (Or.inr waiting)
  | rebase pending => simp [Row.withBlock, pending] at counts
  | assign => exact filed.hashes row inside counts
  | demote => simp at counts

theorem move (law : lib.RoundTrips) {after : Engine lib} (filed : engine.Filed)
    (move : Move SitsEntry (fun block => ∃ record, Sits block record) engine after) : after.Filed := by
  cases move with
  | quiet quiet =>
    refine ⟨filed.linear.congr quiet.records quiet.config, ?_, ?_, ?_⟩
    · rw [quiet.records]
      exact filed.forms
    · exact fun block inside => (quiet.made block inside).elim (filed.made block) id
    · rw [quiet.records]
      exact filed.hashes
  | send sends =>
    refine ⟨filed.linear.congr sends.records sends.config, ?_, ?_, ?_⟩
    · rw [sends.records]
      exact filed.forms
    · rw [sends.created]
      exact filed.made
    · rw [sends.records]
      exact filed.hashes
  | change change replaces =>
    have linear := guarded_linear engine engine _ (.refl engine)
      (.change (filed.keepsPlace law replaces.inside change) replaces) filed.linear
    exact ⟨linear, replaces.forall_rows filed.forms (filed.form_of_change replaces.inside change), filed.made,
      replaces.forall_rows filed.hashes (filed.hash_of_change replaces.inside change)⟩
  | @arrive block state records arrival done =>
    have linear : ({ engine with records } : Engine lib).Linear := by
      refine guarded_linear engine engine _ (.refl engine) (.arrive ?_ done) filed.linear
      cases arrival with
      | own made => exact .own made
      | verified valid parsed readable _ => exact .verified valid parsed readable trivial
      | unread valid parsed unreadable _ => exact .unread valid parsed unreadable trivial
    refine ⟨linear, forall_created done filed.forms fun record => ?_, filed.made,
      forall_created done filed.hashes fun record counts => ?_⟩
    · cases arrival with
      | own made => exact Or.inr (filed.made _ made)
      | verified _ _ _ brought | unread _ _ _ brought => exact Or.inl brought
    · exact congrArg lib.hash (committedBlock_of_position rfl rfl)
  | truncate weak => exact absurd filed.linear.strict weak

end Filed

theorem guarded_filed (law : lib.RoundTrips) :
    Guarded (fun _ : Engine lib => SitsEntry) (fun block => ∃ record, Sits block record) Filed :=
  fun _ _ _ _ move filed => filed.move law move

theorem admits_of_sits (sits : ∃ record, Sits block record) : Admits SitsEntry engine block :=
  ⟨fun _ _ _ _ => sits, fun _ _ _ _ _ => sits, fun _ _ => ⟨fun _ _ => trivial, fun _ _ _ _ _ _ => trivial⟩⟩

theorem admitsAll_of_sits {blocks : List lib.Block} (sits : ∀ block ∈ blocks, ∃ record, Sits block record)
    (engine : Engine lib) : AdmitsAll (fun _ => SitsEntry) engine blocks := by
  induction blocks generalizing engine with
  | nil => trivial
  | cons block rest ih =>
    obtain ⟨first, others⟩ := List.forall_mem_cons.mp sits
    exact ⟨admits_of_sits first, fun reached _ => ih others reached⟩

theorem admitsEvent_of_sits {event : EngineEvent lib}
    (sits : ∀ block ∈ deliveredBlocks event, ∃ record, Sits block record) :
    AdmitsEvent (fun _ => SitsEntry) engine event := by
  cases event with
  | recordReceived block envelope => exact admits_of_sits (sits block List.mem_cons_self)
  | recordResponse handle response =>
    intro blocks answer
    refine admitsAll_of_sits (fun block inside => sits block ?_) engine
    simpa [deliveredBlocks, answer, Except.toOption] using inside
  | commitResponse handle response =>
    intro block row answer _ _ _ _
    exact sits block (by simp [deliveredBlocks, answer, Except.toOption])
  | sequenceNumberResponse result => exact fun _ _ _ _ _ _ => trivial
  | connected | disconnected | called | equivocation | syncObjectChange | syncUserChange | syncSegmentEnd | insertKey =>
    trivial

/-- A strict client that starts empty and hears an honest server keeps its rows in order. -/
theorem filed_of_run (law : lib.RoundTrips) {server : ChainSync lib} {reached : Engine lib}
    (sits : ∀ row ∈ server.log.records.rows, ∃ record, Sits row.block record)
    (run : Runs step (Honest server) engine reached) (filed : engine.Filed) : reached.Filed := by
  refine run.keeps filed fun state event before honest => ?_
  have delivered : ∀ block ∈ deliveredBlocks event, ∃ record, Sits block record := by
    intro block inside
    obtain ⟨row, rowIn, rfl⟩ := honest block inside
    exact sits row rowIn
  exact (guarded_filed law).event (admitsEvent_of_sits delivered) delivered before

/-- The first key of its sequence authenticates the record. -/
def firstKeyReads (keys : KeyStorage) (block : lib.Block) : Bool :=
  match lib.deserialise block.record with
  | none => false
  | some record =>
      match keys.find record.base.encryptionKey with
      | none => false
      | some key => (SpSync.verifyRecord lib key record block.auth).isSome

theorem firstKeyReads_iff {keys : KeyStorage} : firstKeyReads keys block = true ↔
    ∃ record key, lib.deserialise block.record = some record ∧ keys.find record.base.encryptionKey = some key ∧
      (SpSync.verifyRecord lib key record block.auth).isSome = true := by
  unfold firstKeyReads
  cases parsed : lib.deserialise block.record with
  | none => simp
  | some record =>
    cases found : keys.find record.base.encryptionKey with
    | none => simp [found]
    | some key => simp [found]

/-- A full verification of a history in order succeeds exactly where the first keys authenticate it. -/
theorem Filed.fullVerify_iff (filed : engine.Filed) :
    (∃ report, fullVerify engine.records engine.keys [] = .ok report) ↔
      ∀ row ∈ engine.records.synced, firstKeyReads engine.keys row.block = true := by
  have chain := filed.linear.strictChain
  have valid : Valid engine.records := by
    intro row inside
    obtain ⟨rowIn, inSync⟩ := mem_synced.mp inside
    exact Nat.ne_of_gt (filed.linear.chained row rowIn inSync).positive
  constructor
  · rintro ⟨report, done⟩ row inside
    exact firstKeyReads_iff.mpr ((of_fullVerify valid done).1 row inside).verified
  intro reads
  have authentic : ∀ row ∈ engine.records.synced, Authentic engine.keys row := by
    intro row inside
    obtain ⟨rowIn, inSync⟩ := mem_synced.mp inside
    exact ⟨filed.hashes row rowIn (Or.inl inSync), firstKeyReads_iff.mp (reads row inside)⟩
  refine verifyChain_ok (linked_of_chain chain authentic chain.present ?_) {}
  intro row inside first
  obtain ⟨rowIn, inSync⟩ := mem_synced.mp inside
  exact chain.root row rowIn inSync first

/-- A full verification of the history of a strict client with an honest strict server succeeds exactly where the
first stored key of its sequence authenticates every record in sync. -/
theorem verifyHistory_ok_iff (law : lib.RoundTrips) {config : ChainSyncConfig} {members : Option (List PublicKeyId)}
    {server : ChainSync lib} {reached : Engine lib} (strictServer : config.mode = .requireAllSeen)
    (served : ChainSync.Served config members server) (strict : engine.config.mode = .requireAllSeen)
    (unanchored : engine.config.trustedAnchor.isValid = false) (fresh : engine.records.rows = [])
    (unused : engine.created = []) (run : Runs step (Honest server) engine reached) (fuel : Nat) :
    (∃ report, verifyHistory reached.records reached.keys .full [] fuel = some (.ok report)) ↔
      ∀ row ∈ reached.records.synced, firstKeyReads reached.keys row.block = true := by
  have start : engine.Filed := by
    refine ⟨⟨strict, unanchored, ?_, ?_, ?_⟩, ?_, ?_, ?_⟩ <;> simp [fresh, unused]
  have filed := filed_of_run law (served.seated strictServer).sits run start
  rw [← filed.fullVerify_iff]
  simp [verifyHistory]

/-- The sample library with headers that do not parse under another key. -/
def keyedSample : Securepath :=
  { Securepath.sample with
    decrypt := fun key base _ headers =>
      if headers = [key.key] then some (headers, key.key ++ base.opId ++ base.iv) else none }

/-- A user change under a key of sequence one that brings this key along, as the next record of the log. -/
def rotation (operation : Nat) (key : Octets) (lastSeenBlock : ChainBlockId) (special : RecordTag) : keyedSample.Block :=
  ⟨(1, ⟨{ lastSeenBlock, encryptionKey := 1, opId := [Fin.ofNat 256 operation], lastSeenSpecialTag := special },
    .userChange ⟨⟨.delta, []⟩, key⟩, [key]⟩), ⟨key ++ [Fin.ofNat 256 operation], none⟩, lastSeenBlock.sequence + 1,
    lastSeenBlock.hash⟩

/-- A second record follows the first one, under its key or under one that another member made for the sequence. -/
def rotations (key : Octets) : List keyedSample.Block :=
  [rotation 1 [8] {} [], rotation 2 key (keyedSample.blockId (rotation 1 [8] {} [])) [8, 1]]

def rotatedServer (key : Octets) : ChainSync keyedSample :=
  (rotations key).foldl ChainSync.commitStep (.load {} none (.empty keyedSample))

theorem rotatedServer_served (key : Octets) : ChainSync.Served {} none (rotatedServer key) := by
  have content (operation : Nat) (key : Octets) (lastSeenBlock : ChainBlockId) (special : RecordTag) :
      ChainSync.HasContent (rotation operation key lastSeenBlock special) := by
    intro record parsed
    cases parsed
    exact fun empty => by cases empty
  exact .tail (.tail (.refl _) (content _ _ _ _)) (content _ _ _ _)

def newMember : Engine keyedSample where
  config := {}
  keys := ⟨[]⟩
  random drawn := [Fin.ofNat 256 drawn]

/-- The member holds the other key, and receives both records. -/
def rotatedMember (key : Octets) : Engine keyedSample :=
  ((newMember.step (.recordReceived (rotation 1 [8] {} []) none)).step (.insertKey ⟨1, [9]⟩)).step
    (.recordReceived (rotation 2 key (keyedSample.blockId (rotation 1 [8] {} [])) [8, 1]) none)

theorem runs_rotatedMember (key : Octets)
    (held : (rotatedServer key).log.records.rows.map Row.block = rotations key) :
    Runs step (Honest (rotatedServer key)) newMember (rotatedMember key) := by
  have received : ∀ block ∈ rotations key, ∀ engine : Engine keyedSample,
      Honest (rotatedServer key) engine (.recordReceived block none) := by
    intro block inside engine other otherIn
    rw [← held] at inside
    rw [deliveredBlocks, List.mem_singleton] at otherIn
    rw [otherIn]
    exact List.mem_map.mp inside
  refine .tail (.tail (.tail (.refl _) (received _ List.mem_cons_self _)) fun _ inside => ?_)
    (received _ (List.mem_cons_of_mem _ List.mem_cons_self) _)
  exact absurd inside List.not_mem_nil

theorem verifyHistory_ok_iff_colliding :
    (rotatedMember [8]).keys = ⟨[⟨1, [8]⟩, ⟨1, [9]⟩]⟩ ∧ (rotatedMember [8]).records.synced.length = 2 ∧
      ∃ report, verifyHistory (rotatedMember [8]).records (rotatedMember [8]).keys .full [] 0 = some (.ok report) := by
  refine ⟨by decide +kernel, by decide +kernel, ?_⟩
  have run := runs_rotatedMember [8] (by decide +kernel)
  refine (verifyHistory_ok_iff (fun _ => rfl) rfl (rotatedServer_served [8]) rfl rfl rfl rfl run 0).mpr ?_
  decide +kernel

/-- A client that holds both keys of one sequence took both records in, and cannot verify the second one. -/
theorem not_verifyHistory_rotated :
    Runs step (Honest (rotatedServer [9])) newMember (rotatedMember [9]) ∧ (rotatedMember [9]).records.synced.length = 2 ∧
      (∀ row ∈ (rotatedMember [9]).records.synced, (rotatedMember [9]).isVerified row.block = true) ∧
      verifyHistory (rotatedMember [9]).records (rotatedMember [9]).keys .full [] 0 =
        some (.error ⟨.invalidData, ""⟩) :=
  ⟨runs_rotatedMember [9] (by decide +kernel), by decide +kernel, by decide +kernel, by decide +kernel⟩

end Engine

end SpSync
