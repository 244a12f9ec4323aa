import SpSync.Foundation.Run
import SpSync.Proof.Chat.MessageReopening

namespace SpSync

open Foundation RecordStorage

variable {lib : Securepath}

/-- The record is a data change whose messages the channel shows. -/
def Row.Live (row : Row lib) : Prop :=
  (row.state = .inSync ∨ row.state = .pendingCommit) ∧ row.type = .dataChange

/-- The messages of a record that is pending or after the newest confirmed sequence are not confirmed, those of an
earlier one are in one table, and the tables have them as the record does. -/
structure Row.Fits (readMessage : Octets → Except Error (Option MessageData)) (keys : KeyStorage)
    (messages : MessageStorage) (row : Row lib) : Prop where
  reads : row.Reads readMessage keys
  distinct : ((messagesOf readMessage keys row).map fun listed => listed.1.data.id).Nodup
  unconfirmed : row.state = .pendingCommit ∨ messages.latestSequence < row.sequence →
    ∀ listed ∈ messagesOf readMessage keys row, listed.1.data.id ∉ messages.confirmed.map ObjectRow.id
  once : row.state = .inSync → row.sequence ≤ messages.latestSequence →
    ∀ listed ∈ messagesOf readMessage keys row, messages.shelves.Once ObjectRow.id listed.1.data.id
  kept : row.state = .pendingCommit ∨ row.sequence ≤ messages.latestSequence →
    ∀ listed ∈ messagesOf readMessage keys row, ∀ stored ∈ messages.confirmed ++ messages.pending,
      stored.id = listed.1.data.id → stored.message = listed.2

namespace Channel

variable (readMessage : Octets → Except Error (Option MessageData)) (channel : Channel lib) (row : Row lib)

/-- The two records name different objects in their messages. -/
def Apart (left right : Row lib) : Prop :=
  ∀ first ∈ messagesOf readMessage channel.keys left, ∀ second ∈ messagesOf readMessage channel.keys right,
    first.1.data.id ≠ second.1.data.id

/-- The record can be stored beside the others. -/
def Joins : Prop :=
  row.Live → row.Fits readMessage channel.keys channel.messages ∧
    ∀ other ∈ channel.records.rows, other.Live → other.key ≠ row.key → channel.Apart readMessage row other

/-- The record is in sync, and no earlier record with a message is unseen. -/
def InTurn : Prop :=
  row.state = .inSync ∧ row.type = .dataChange ∧
    ∀ other ∈ channel.records.unseen channel.messages.latestSequence,
      messagesOf readMessage channel.keys other ≠ [] → row.sequence ≤ other.sequence

/-- The event is in order. -/
def Orderly : ChannelEvent lib → Prop
  | .create block state => ∀ record, lib.deserialise block.record = some record →
      channel.Joins readMessage (channel.records.newRow block state record)
  | .setState key state id parentHash => ∀ row ∈ channel.records.rows, row.key = key →
      channel.Joins readMessage (if id.isValid then
        { row with state, sequence := id.sequence, hash := id.hash, parentHash } else { row with state })
  | .setRecord key block => ∀ row ∈ channel.records.rows, row.key = key →
      channel.Joins readMessage { row with
        tag := block.tag, sequence := block.sequence, hash := lib.hash block, parentHash := block.parentHash, block }
  | .truncateFrom _ => True
  | .truncatePrefix _ _ => True
  | .insertKey key => ∀ row ∈ channel.records.rows, row.Live → ∀ record,
      lib.deserialise row.block.record = some record → record.base.encryptionKey ≠ key.keySeq
  | .sent _ id message _ => id ∉ channel.messages.confirmed.map ObjectRow.id ∧
      ∀ carried, channel.Carries readMessage id carried → carried = message
  | .dataChanged key _ => ∀ row ∈ channel.records.rows, row.key = key →
      messagesOf readMessage channel.keys row ≠ [] → channel.InTurn readMessage row
  | .rejected key => ∀ change ∈ channel.changesOf key,
      change.data.id ∉ channel.idsIn readMessage (channel.records.seen channel.messages.latestSequence)
  | .reopen _ => True

/-- Every record whose messages are shown fits the tables, and no two of them name one object. -/
structure Tidy : Prop where
  fits : ∀ row ∈ channel.records.rows, row.Live → row.Fits readMessage channel.keys channel.messages
  apart : ∀ left ∈ channel.records.rows, ∀ right ∈ channel.records.rows, left.Live → right.Live → left ≠ right →
    channel.Apart readMessage left right

variable {readMessage channel row} {records : RecordStorage lib} {key : Nat} {keys : KeyStorage} {now : Int}
  {listed : SingleDataChange × MessageData}

theorem Apart.symm {left right : Row lib} (apart : channel.Apart readMessage left right) :
    channel.Apart readMessage right left :=
  fun first firstIn second secondIn same => apart second secondIn first firstIn same.symm

/-- The tables of a tidy channel can follow the records. -/
theorem Tidy.ready (tidy : channel.Tidy readMessage) : channel.Ready readMessage where
  reads row inside type state := by
    refine (tidy.fits row inside ⟨?_, type⟩).reads
    exact state.symm.imp_left And.left
  tables := by
    refine ⟨?_, fun id named => ?_, fun id named => ?_, fun id named _ _ => ?_⟩
    · unfold idsIn messagesIn
      rw [List.map_flatMap, List.nodup_flatMap]
      refine ⟨fun row kept => ?_, ?_⟩
      · obtain ⟨inside, inSync, type, _⟩ := mem_unseen.mp kept
        exact (tidy.fits row inside ⟨Or.inl inSync, type⟩).distinct
      refine (channel.records.rows_nodup.filter _).imp_of_mem fun {left right} leftIn rightIn differ => ?_
      obtain ⟨leftRow, leftSync, leftType, _⟩ := mem_unseen.mp leftIn
      obtain ⟨rightRow, rightSync, rightType, _⟩ := mem_unseen.mp rightIn
      have apart := tidy.apart left leftRow right rightRow ⟨Or.inl leftSync, leftType⟩ ⟨Or.inl rightSync, rightType⟩
        differ
      intro id first second
      obtain ⟨one, oneIn, rfl⟩ := List.mem_map.mp first
      obtain ⟨two, twoIn, same⟩ := List.mem_map.mp second
      exact apart one oneIn two twoIn same.symm
    · obtain ⟨row, kept, listed, found, rfl⟩ := mem_idsIn.mp named
      obtain ⟨inside, inSync, type, above⟩ := mem_unseen.mp kept
      refine ⟨(tidy.fits row inside ⟨Or.inl inSync, type⟩).unconfirmed (Or.inr above) listed found, fun also => ?_⟩
      obtain ⟨other, waits, second, secondIn, same⟩ := mem_idsIn.mp also
      obtain ⟨otherIn, waiting, otherType⟩ := mem_uncommitted.mp waits
      refine tidy.apart other otherIn row inside ⟨Or.inr waiting, otherType⟩ ⟨Or.inl inSync, type⟩ ?_ second secondIn
        listed found same
      rintro rfl
      rw [inSync] at waiting
      cases waiting
    · obtain ⟨row, kept, listed, found, rfl⟩ := mem_idsIn.mp named
      obtain ⟨inside, waiting, type⟩ := mem_uncommitted.mp kept
      exact (tidy.fits row inside ⟨Or.inr waiting, type⟩).unconfirmed (Or.inl waiting) listed found
    · obtain ⟨row, kept, listed, found, rfl⟩ := mem_idsIn.mp named
      obtain ⟨inside, inSync, type, below⟩ := mem_seen.mp kept
      exact (tidy.fits row inside ⟨Or.inl inSync, type⟩).once inSync below listed found
  kept := by
    rintro stored inside apart message ⟨row, rowIn, state, type, listed, found, same, _⟩
    have place : row.state = .pendingCommit ∨ row.sequence ≤ channel.messages.latestSequence := by
      obtain inSync | waiting := state
      · refine Or.inr (Nat.le_of_not_lt fun above => apart ?_)
        exact mem_idsIn.mpr ⟨row, mem_unseen.mpr ⟨rowIn, inSync, type, above⟩, listed, found, same⟩
      · exact Or.inl waiting
    have equal := (tidy.fits row rowIn ⟨state, type⟩).kept place listed found stored inside same.symm
    exact ⟨row, rowIn, state, type, listed, found, same, equal.symm⟩

/-- The records are written: each is an old one or the one that joins. -/
theorem Tidy.write (tidy : channel.Tidy readMessage)
    (each : ∀ row ∈ records.rows, row ∈ channel.records.rows ∨ channel.Joins readMessage row)
    (single : ∀ left ∈ records.rows, ∀ right ∈ records.rows, left ∉ channel.records.rows →
      right ∉ channel.records.rows → left = right) : { channel with records }.Tidy readMessage where
  fits row inside live := (each row inside).elim (fun old => tidy.fits row old live) fun joins => (joins live).1
  apart left leftIn right rightIn leftLive rightLive differ := by
    have keys : left.key ≠ right.key := fun same => differ (row_eq_of_key leftIn rightIn same)
    by_cases leftOld : left ∈ channel.records.rows
    · by_cases rightOld : right ∈ channel.records.rows
      · exact tidy.apart left leftOld right rightOld leftLive rightLive differ
      · have joins := (each right rightIn).resolve_left rightOld
        exact Apart.symm ((joins rightLive).2 left leftOld leftLive keys)
    · by_cases rightOld : right ∈ channel.records.rows
      · have joins := (each left leftIn).resolve_left leftOld
        exact (joins leftLive).2 right rightOld rightLive keys.symm
      · exact absurd (single left leftIn right rightIn leftOld rightOld) differ

theorem seq_of_extracted {changes : List SingleDataChange} {change : SingleDataChange}
    (extracted : extractSingleDataChanges keys row = .ok (.ok changes)) (inside : change ∈ changes) :
    change.seq = row.sequence := by
  unfold extractSingleDataChanges at extracted
  split at extracted
  · split at extracted
    · cases extracted
    split at extracted
    · cases extracted
    split at extracted
    · cases extracted
    · cases extracted
      obtain ⟨position, bound, rfl⟩ := List.mem_iff_getElem.mp inside
      rw [List.getElem_zipWith]
  · cases extracted

/-- A message has the sequence of its record. -/
theorem seq_of_messagesOf (inside : listed ∈ messagesOf readMessage keys row) : listed.1.seq = row.sequence := by
  unfold messagesOf at inside
  split at inside
  · rename_i changes extracted
    obtain ⟨change, found, same⟩ := List.mem_filterMap.mp inside
    obtain ⟨_, _, rfl⟩ := Option.map_eq_some_iff.mp same
    exact seq_of_extracted extracted found
  · cases inside

/-- A row added for a message of a live record is added for that record. -/
theorem Tidy.own {rows : List (Row lib)} {pending : Bool} {stored : ObjectRow MsgData}
    (tidy : channel.Tidy readMessage) (live : ∀ row ∈ rows, row ∈ channel.records.rows ∧ row.Live)
    (rowIn : row ∈ channel.records.rows) (rowLive : row.Live)
    (found : listed ∈ messagesOf readMessage channel.keys row)
    (added : stored ∈ channel.newRows readMessage now pending rows) (same : stored.id = listed.1.data.id) :
    row ∈ rows ∧ stored.message = listed.2 := by
  obtain ⟨other, inside, rfl⟩ := List.mem_map.mp added
  obtain ⟨source, sourceIn, otherIn⟩ := List.mem_flatMap.mp inside
  rw [messageRow_id] at same
  obtain ⟨stays, sourceLive⟩ := live source sourceIn
  have equal : source = row := by
    by_contra differ
    exact tidy.apart source stays row rowIn sourceLive rowLive differ other otherIn listed found same
  subst equal
  refine ⟨sourceIn, ?_⟩
  rw [messageRow_message, List.inj_on_of_nodup_map (tidy.fits source stays sourceLive).distinct otherIn found same]

/-- The messages of some records in sync were confirmed, none of which is after a record that stays unseen, and those
of some pending records were held. -/
structure Settles (readMessage : Octets → Except Error (Option MessageData)) (channel : Channel lib) (now : Int)
    (fresh held : List (Row lib)) (messages : MessageStorage) : Prop where
  synced : ∀ row ∈ fresh, row ∈ channel.records.rows ∧ row.state = .inSync ∧ row.type = .dataChange
  waiting : ∀ row ∈ held, row ∈ channel.records.rows ∧ row.state = .pendingCommit ∧ row.type = .dataChange
  inTurn : ∀ row ∈ fresh, messagesOf readMessage channel.keys row ≠ [] →
    ∀ other ∈ channel.records.unseen channel.messages.latestSequence, other ∉ fresh →
      messagesOf readMessage channel.keys other ≠ [] → row.sequence < other.sequence
  shelves : ∃ middle, Shelves.confirmAll ObjectRow.id (channel.newRows readMessage now false fresh)
      channel.messages.shelves = some middle ∧
    messages.shelves = Shelves.holdAll ObjectRow.id (channel.newRows readMessage now true held) middle

section

variable {messages : MessageStorage} {now : Int} {fresh held : List (Row lib)} {stored : ObjectRow MsgData}
  {listed : SingleDataChange × MessageData}

section

variable (settles : channel.Settles readMessage now fresh held messages) {id : ObjectId}

include settles

theorem Settles.confirmed :
    messages.confirmed = channel.messages.confirmed ++ channel.newRows readMessage now false fresh := by
  obtain ⟨middle, settled, result⟩ := settles.shelves
  have shelf := congrArg Shelves.confirmed result
  rw [Shelves.confirmed_holdAll, Shelves.confirmed_confirmAll settled] at shelf
  exact shelf

/-- A pending row was pending and not confirmed, or it was held. -/
theorem Settles.pending (waiting : stored ∈ messages.pending) :
    (stored ∈ channel.messages.pending ∧ stored.id ∉ channel.idsIn readMessage fresh) ∨
      stored ∈ channel.newRows readMessage now true held := by
  obtain ⟨middle, settled, result⟩ := settles.shelves
  have shelf : messages.pending = _ := congrArg Shelves.pending result
  rw [shelf] at waiting
  refine (Shelves.mem_holdAll waiting).imp_left fun kept => ?_
  rw [← newRows_ids now false]
  exact (Shelves.mem_pending_confirmAll settled).mp kept

theorem Settles.unconfirmed (named : id ∈ channel.idsIn readMessage fresh) :
    id ∉ channel.messages.confirmed.map ObjectRow.id := by
  obtain ⟨middle, settled, _⟩ := settles.shelves
  rw [← newRows_ids now false] at named
  obtain ⟨stored, added, rfl⟩ := List.mem_map.mp named
  exact (Shelves.confirmAll_eq_some_iff.mp settled).1 stored added

theorem Settles.once_iff :
    messages.shelves.Once ObjectRow.id id ↔
      Xor (id ∈ channel.messages.confirmed.map ObjectRow.id ∨ id ∈ channel.idsIn readMessage fresh)
        ((id ∈ channel.messages.pending.map ObjectRow.id ∧ id ∉ channel.idsIn readMessage fresh) ∨
          id ∈ channel.idsIn readMessage held) := by
  obtain ⟨middle, settled, result⟩ := settles.shelves
  rw [result, Shelves.once_settled_iff settled, newRows_ids, newRows_ids]
  rfl

theorem Settles.latestSequence_le : channel.messages.latestSequence ≤ messages.latestSequence := by
  refine ObjectStore.latestSequence_le fun row inside => ObjectStore.seq_le_latestSequence ?_
  rw [settles.confirmed]
  exact List.mem_append_left _ inside

theorem Settles.sequence_le (inside : row ∈ fresh) (found : listed ∈ messagesOf readMessage channel.keys row) :
    row.sequence ≤ messages.latestSequence := by
  have added : messageRow now false listed ∈ messages.confirmed := by
    rw [settles.confirmed]
    exact List.mem_append_right _ (List.mem_map_of_mem (List.mem_flatMap.mpr ⟨row, inside, found⟩))
  have below := ObjectStore.seq_le_latestSequence added
  rw [← seq_of_messagesOf found]
  exact below

/-- A record with a message that is seen afterwards was confirmed now or was seen before. -/
theorem Settles.seen (inside : row ∈ channel.records.rows) (inSync : row.state = .inSync)
    (type : row.type = .dataChange) (found : listed ∈ messagesOf readMessage channel.keys row) (other : row ∉ fresh)
    (below : row.sequence ≤ messages.latestSequence) : row.sequence ≤ channel.messages.latestSequence := by
  refine Nat.le_of_not_lt fun above => Nat.not_lt_of_le below ?_
  have unseen := mem_unseen.mpr ⟨inside, inSync, type, above⟩
  refine ObjectStore.latestSequence_lt (Nat.zero_lt_of_lt above) fun stored kept => ?_
  rw [settles.confirmed] at kept
  obtain old | new := List.mem_append.mp kept
  · exact Nat.lt_of_le_of_lt (ObjectStore.seq_le_latestSequence old) above
  obtain ⟨first, firstIn, rfl⟩ := List.mem_map.mp new
  obtain ⟨source, sourceIn, sourceFound⟩ := List.mem_flatMap.mp firstIn
  have earlier := settles.inTurn source sourceIn (List.ne_nil_of_mem sourceFound) row unseen other
    (List.ne_nil_of_mem found)
  rw [← seq_of_messagesOf sourceFound] at earlier
  exact earlier

theorem Settles.freshLive (inside : row ∈ fresh) : row ∈ channel.records.rows ∧ row.Live :=
  have synced := settles.synced row inside
  ⟨synced.1, Or.inl synced.2.1, synced.2.2⟩

theorem Settles.heldLive (inside : row ∈ held) : row ∈ channel.records.rows ∧ row.Live :=
  have waiting := settles.waiting row inside
  ⟨waiting.1, Or.inr waiting.2.1, waiting.2.2⟩

end

/-- Only a record of a list has its identifiers among those of the list. -/
theorem Tidy.mem_of_idsIn {rows : List (Row lib)} (tidy : channel.Tidy readMessage)
    (live : ∀ row ∈ rows, row ∈ channel.records.rows ∧ row.Live) (rowIn : row ∈ channel.records.rows)
    (rowLive : row.Live) (found : listed ∈ messagesOf readMessage channel.keys row)
    (named : listed.1.data.id ∈ channel.idsIn readMessage rows) : row ∈ rows := by
  rw [← newRows_ids 0 false] at named
  obtain ⟨stored, added, same⟩ := List.mem_map.mp named
  exact (tidy.own live rowIn rowLive found added same).1

/-- A live record fits the tables afterwards. -/
theorem Settles.fits (settles : channel.Settles readMessage now fresh held messages) (tidy : channel.Tidy readMessage)
    (inside : row ∈ channel.records.rows) (live : row.Live) : row.Fits readMessage channel.keys messages := by
  have old := tidy.fits row inside live
  have isFresh {listed : SingleDataChange × MessageData} (found : listed ∈ messagesOf readMessage channel.keys row) :=
    tidy.mem_of_idsIn (fun row => settles.freshLive) inside live found
  have isHeld {listed : SingleDataChange × MessageData} (found : listed ∈ messagesOf readMessage channel.keys row) :=
    tidy.mem_of_idsIn (fun row => settles.heldLive) inside live found
  have notHeld (inSync : row.state = .inSync) : row ∉ held := by
    intro waits
    have waiting := (settles.waiting row waits).2.1
    rw [inSync] at waiting
    cases waiting
  refine ⟨old.reads, old.distinct, fun place listed found named => ?_, fun inSync below listed found => ?_,
    fun place listed found stored kept same => ?_⟩
  · rw [settles.confirmed, List.map_append, newRows_ids] at named
    obtain before | now := List.mem_append.mp named
    · exact old.unconfirmed (place.imp_right (Nat.lt_of_le_of_lt settles.latestSequence_le)) listed found before
    have new := isFresh found now
    have inSync := (settles.synced row new).2.1
    obtain waiting | above := place
    · rw [inSync] at waiting
      cases waiting
    · exact Nat.not_lt_of_le (settles.sequence_le new found) above
  · rw [settles.once_iff]
    have away : listed.1.data.id ∉ channel.idsIn readMessage held := fun named => notHeld inSync (isHeld found named)
    by_cases new : row ∈ fresh
    · have named : listed.1.data.id ∈ channel.idsIn readMessage fresh := mem_idsIn.mpr ⟨row, new, listed, found, rfl⟩
      exact Or.inl ⟨Or.inr named, fun either => either.elim (fun kept => kept.2 named) away⟩
    have other : listed.1.data.id ∉ channel.idsIn readMessage fresh := fun named => new (isFresh found named)
    have once : Xor _ _ := old.once inSync (settles.seen inside inSync live.2 found new below) listed found
    simp only [other, away, or_false, not_false_eq_true, and_true]
    exact once
  · have before (other : row ∉ fresh) : row.state = .pendingCommit ∨ row.sequence ≤ channel.messages.latestSequence := by
      obtain inSync | waiting := live.1
      · obtain waiting | below := place
        · exact Or.inl waiting
        · exact Or.inr (settles.seen inside inSync live.2 found other below)
      · exact Or.inl waiting
    have named (new : row ∈ fresh) : stored.id ∈ channel.idsIn readMessage fresh :=
      mem_idsIn.mpr ⟨row, new, listed, found, same.symm⟩
    obtain confirmed | pending := List.mem_append.mp kept
    · rw [settles.confirmed] at confirmed
      obtain already | added := List.mem_append.mp confirmed
      · have other : row ∉ fresh := fun new => settles.unconfirmed (named new) (List.mem_map_of_mem already)
        exact old.kept (before other) listed found stored (List.mem_append_left _ already) same
      · exact (tidy.own (fun row => settles.freshLive) inside live found added same).2
    · obtain ⟨already, away⟩ | added := settles.pending pending
      · exact old.kept (before fun new => away (named new)) listed found stored (List.mem_append_right _ already) same
      · exact (tidy.own (fun row => settles.heldLive) inside live found added same).2

theorem Settles.tidy (settles : channel.Settles readMessage now fresh held messages) (tidy : channel.Tidy readMessage) :
    { channel with messages }.Tidy readMessage :=
  ⟨fun _ inside live => settles.fits tidy inside live, tidy.apart⟩

end

theorem find_insert_of_ne {key : EncryptionKey} {sequence : SequenceNumber} (other : sequence ≠ key.keySeq) :
    (keys.insert key).find sequence = keys.find sequence := by
  have kept : (keys.insert key).keys.filter (fun stored => stored.keySeq = sequence) =
      keys.keys.filter fun stored => stored.keySeq = sequence := by
    unfold KeyStorage.insert
    split
    · rfl
    · rw [List.filter_append, List.filter_singleton, decide_eq_false other.symm]
      exact List.append_nil _
  unfold KeyStorage.find KeyStorage.findAll
  rw [kept]

/-- A key of another sequence does not change what a record says. -/
theorem extractSingleDataChanges_insert {key : EncryptionKey}
    (other : ∀ record, lib.deserialise row.block.record = some record → record.base.encryptionKey ≠ key.keySeq) :
    extractSingleDataChanges (keys.insert key) row = extractSingleDataChanges keys row := by
  unfold extractSingleDataChanges
  split
  · rename_i base changes headers parsed
    rw [find_insert_of_ne (other _ parsed)]
  · rfl

/-- A rejection takes the identifiers of the changes out of the pending table. -/
theorem shelves_removePending (changes : List SingleDataChange) (messages : MessageStorage) :
    (changes.foldl (fun messages change => (messages.removePending change.data.id).1) messages).confirmed =
      messages.confirmed ∧
    ∀ stored, stored ∈ (changes.foldl (fun messages change => (messages.removePending change.data.id).1)
        messages).pending ↔
      stored ∈ messages.pending ∧ ∀ change ∈ changes, stored.id ≠ change.data.id := by
  induction changes generalizing messages with
  | nil => simp
  | cons change rest ih =>
    obtain ⟨confirmed, pending⟩ := ih (messages.removePending change.data.id).1
    unfold ObjectStore.removePending at confirmed pending
    rw [ObjectStore.confirmed_updatePending] at confirmed
    refine ⟨confirmed, fun stored => (pending stored).trans ?_⟩
    rw [ObjectStore.pending_updatePending, List.mem_filter, decide_eq_true_eq, List.forall_mem_cons, and_assoc]

/-- The changes behind a handle with a message are those of its record. -/
theorem exists_of_changesOf (channel : Channel lib)
    (carries : listedMessages readMessage (channel.changesOf key) ≠ []) :
    ∃ row ∈ channel.records.rows, row.key = key ∧
      listedMessages readMessage (channel.changesOf key) = messagesOf readMessage channel.keys row := by
  unfold changesOf at carries ⊢
  cases found : channel.records.findKey key with
  | none =>
    rw [found] at carries
    exact absurd rfl carries
  | some row =>
    obtain ⟨inside, keyed⟩ := findKey_eq_some_iff.mp found
    refine ⟨row, inside, keyed, ?_⟩
    unfold messagesOf
    dsimp only
    cases extractSingleDataChanges channel.keys row with
    | error err => rfl
    | ok outcome => cases outcome <;> rfl

section

variable (tidy : channel.Tidy readMessage) {block : lib.Block} {messages : MessageStorage} {myKeyId : PublicKeyId}

include tidy

theorem Tidy.writeRecords {written : Except Error (RecordStorage lib)}
    (done : ∀ records, written = .ok records → { channel with records }.Tidy readMessage) :
    (channel.writeRecords written).Tidy readMessage := by
  cases written with
  | error err => exact tidy
  | ok records => exact done records rfl

theorem Tidy.create {state : RecordState} (orderly : channel.Orderly readMessage (.create block state))
    (done : channel.records.create block state = .ok records) : { channel with records }.Tidy readMessage := by
  obtain ⟨record, parsed, rows⟩ := create_ok done
  have added {row : Row lib} (inside : row ∈ records.rows) (new : row ∉ channel.records.rows) :
      row = channel.records.newRow block state record := by
    rw [rows, List.mem_append, List.mem_singleton] at inside
    exact inside.resolve_left new
  refine tidy.write (fun row inside => ?_) fun left leftIn right rightIn leftNew rightNew => ?_
  · by_cases old : row ∈ channel.records.rows
    · exact Or.inl old
    · exact Or.inr (added inside old ▸ orderly record parsed)
  · rw [added leftIn leftNew, added rightIn rightNew]

theorem Tidy.updateRow {change : Row lib → Row lib}
    (orderly : ∀ row ∈ channel.records.rows, row.key = key → channel.Joins readMessage (change row))
    (done : channel.records.updateRow key change = .ok records) : { channel with records }.Tidy readMessage := by
  have changed {row : Row lib} (inside : row ∈ records.rows) (new : row ∉ channel.records.rows) :
      ∃ source ∈ channel.records.rows, source.key = key ∧ change source = row := by
    rw [updateRow_ok_iff.mp done] at inside
    obtain ⟨source, sourceIn, same⟩ := List.mem_map.mp inside
    split at same
    · rename_i keyed
      exact ⟨source, sourceIn, keyed, same⟩
    · exact absurd (same ▸ sourceIn) new
  refine tidy.write (fun row inside => ?_) fun left leftIn right rightIn leftNew rightNew => ?_
  · by_cases old : row ∈ channel.records.rows
    · exact Or.inl old
    · obtain ⟨source, sourceIn, keyed, rfl⟩ := changed inside old
      exact Or.inr (orderly source sourceIn keyed)
  · obtain ⟨first, firstIn, firstKey, rfl⟩ := changed leftIn leftNew
    obtain ⟨second, secondIn, secondKey, rfl⟩ := changed rightIn rightNew
    rw [row_eq_of_key firstIn secondIn (firstKey.trans secondKey.symm)]

theorem Tidy.setRecord (orderly : channel.Orderly readMessage (.setRecord key block))
    (done : channel.records.setRecord key block = .ok records) : { channel with records }.Tidy readMessage := by
  unfold RecordStorage.setRecord at done
  split at done
  · cases done
  · split at done
    · cases done
    · exact tidy.updateRow orderly done

/-- Fewer records stay tidy. -/
theorem Tidy.subset (sub : records.rows ⊆ channel.records.rows) : { channel with records }.Tidy readMessage :=
  tidy.write (fun _ inside => Or.inl (sub inside)) fun _ leftIn _ _ leftNew => absurd (sub leftIn) leftNew

theorem Tidy.truncatePrefix {firstKept : SequenceNumber} {retained : List RecordTag}
    (done : (channel.records.truncatePrefix firstKept retained).map Prod.fst = .ok records) :
    { channel with records }.Tidy readMessage := by
  unfold RecordStorage.truncatePrefix at done
  split at done
  · cases done
  · cases done
    exact tidy.subset (List.filter_subset_self _)

theorem Tidy.insertKey {key : EncryptionKey} (orderly : channel.Orderly readMessage (.insertKey key)) :
    { channel with keys := channel.keys.insert key }.Tidy readMessage := by
  have same {row : Row lib} (inside : row ∈ channel.records.rows) (live : row.Live) :
      messagesOf readMessage (channel.keys.insert key) row = messagesOf readMessage channel.keys row := by
    unfold messagesOf
    rw [extractSingleDataChanges_insert (orderly row inside live)]
  refine ⟨fun row inside live => ?_, fun left leftIn right rightIn leftLive rightLive differ => ?_⟩
  · obtain ⟨reads, distinct, unconfirmed, once, kept⟩ := tidy.fits row inside live
    have reads : row.Reads readMessage (channel.keys.insert key) := by
      unfold Row.Reads
      rw [extractSingleDataChanges_insert (orderly row inside live)]
      exact reads
    rw [← same inside live] at distinct unconfirmed once kept
    exact ⟨reads, distinct, unconfirmed, once, kept⟩
  · have apart := tidy.apart left leftIn right rightIn leftLive rightLive differ
    unfold Apart at apart
    rw [← same leftIn leftLive, ← same rightIn rightLive] at apart
    exact apart

/-- The tables are as before. -/
theorem Tidy.of_shelves (same : messages.shelves = channel.messages.shelves) :
    { channel with messages }.Tidy readMessage := by
  have settles : channel.Settles readMessage 0 [] [] messages := by
    refine ⟨fun _ inside => ?_, fun _ inside => ?_, fun _ inside => ?_, channel.messages.shelves, rfl, same⟩
    · cases inside
    · cases inside
    · cases inside
  exact settles.tidy tidy

/-- Only the pending table changes: for the messages of the seen records it holds the same identifiers, and what it
holds anew agrees with the records. -/
theorem Tidy.repend (confirmed : messages.confirmed = channel.messages.confirmed)
    (names : ∀ id ∈ channel.idsIn readMessage (channel.records.seen channel.messages.latestSequence),
      id ∈ messages.pending.map ObjectRow.id ↔ id ∈ channel.messages.pending.map ObjectRow.id)
    (added : ∀ stored ∈ messages.pending, stored ∈ channel.messages.pending ∨
      ∀ carried, channel.Carries readMessage stored.id carried → carried = stored.message) :
    { channel with messages }.Tidy readMessage := by
  have latest : messages.latestSequence = channel.messages.latestSequence := by
    unfold ObjectStore.latestSequence
    rw [confirmed]
  refine ⟨fun row inside live => ?_, tidy.apart⟩
  have old := tidy.fits row inside live
  refine ⟨old.reads, old.distinct, fun place => ?_, fun inSync below listed found => ?_,
    fun place listed found stored kept same => ?_⟩
  · rw [confirmed]
    exact old.unconfirmed (latest ▸ place)
  · have seen := mem_idsIn.mpr ⟨row, mem_seen.mpr ⟨inside, inSync, live.2, latest ▸ below⟩, listed, found, rfl⟩
    have once : Xor _ _ := old.once inSync (latest ▸ below) listed found
    show Xor (listed.1.data.id ∈ messages.confirmed.map ObjectRow.id) (listed.1.data.id ∈ messages.pending.map ObjectRow.id)
    rw [confirmed, names _ seen]
    exact once
  · have before : stored ∈ channel.messages.confirmed ++ channel.messages.pending → stored.message = listed.2 :=
      fun already => old.kept (latest ▸ place) listed found stored already same
    obtain already | pending := List.mem_append.mp kept
    · exact before (List.mem_append_left _ (confirmed ▸ already))
    · obtain already | agrees := added stored pending
      · exact before (List.mem_append_right _ already)
      · exact (agrees listed.2 ⟨row, inside, live.1, live.2, listed, found, same.symm, rfl⟩).symm

/-- A message is stored as pending. -/
theorem Tidy.sendMessage {id : ObjectId} {message : MessageData}
    (orderly : channel.Orderly readMessage (.sent key id message now)) :
    (channel.sendMessage myKeyId key id message now).Tidy readMessage := by
  obtain ⟨free, carried⟩ := orderly
  have placed := MessageStorage.insert_shelves channel.messages id (.ofMessage message myKeyId key 0 now) true
  unfold Channel.sendMessage
  cases inserted : MessageStorage.insert channel.messages id (.ofMessage message myKeyId key 0 now) .pending with
  | error err => exact tidy
  | ok result =>
    rw [if_pos rfl, inserted] at placed
    have shelves : result.1.shelves = Shelves.hold ObjectRow.id channel.messages.shelves _ := Option.some.inj placed
    unfold Shelves.hold at shelves
    rw [ObjectStore.newRow_id] at shelves
    split at shelves
    · exact tidy.of_shelves shelves
    have pending : result.1.pending = channel.messages.pending ++ [_] := congrArg Shelves.pending shelves
    have confirmed : result.1.confirmed = channel.messages.confirmed := congrArg Shelves.confirmed shelves
    refine tidy.repend confirmed (fun other named => ?_) fun stored inside => ?_
    · obtain ⟨row, kept, listed, found, rfl⟩ := mem_idsIn.mp named
      obtain ⟨rowIn, inSync, type, below⟩ := mem_seen.mp kept
      have once : Xor _ _ := (tidy.fits row rowIn ⟨Or.inl inSync, type⟩).once inSync below listed found
      rw [pending, List.map_append, List.mem_append, List.map_singleton, List.mem_singleton, ObjectStore.newRow_id]
      refine or_iff_left_of_imp fun same => ?_
      exact (once.resolve_left fun both => free (same ▸ both.1)).1
    · rw [pending, List.mem_append, List.mem_singleton] at inside
      refine inside.imp_right fun same => ?_
      rw [same, ObjectStore.newRow_id]
      intro other carries
      rw [carried other carries]
      unfold ObjectRow.message
      rw [ObjectStore.newRow_data]
      rfl

theorem Tidy.onRecordRejected (orderly : channel.Orderly readMessage (.rejected key)) :
    (channel.onRecordRejected key).Tidy readMessage := by
  obtain ⟨confirmed, pending⟩ := shelves_removePending (channel.changesOf key) channel.messages
  refine tidy.repend confirmed (fun id named => ?_) fun stored inside => Or.inl ((pending stored).mp inside).1
  constructor
  · intro inside
    obtain ⟨stored, kept, rfl⟩ := List.mem_map.mp inside
    exact List.mem_map_of_mem ((pending stored).mp kept).1
  · intro inside
    obtain ⟨stored, kept, rfl⟩ := List.mem_map.mp inside
    exact List.mem_map_of_mem ((pending stored).mpr ⟨kept, fun change changed same => orderly change changed (same ▸ named)⟩)

/-- The change of a record is reported in its turn. -/
theorem Tidy.onDataChange (orderly : channel.Orderly readMessage (.dataChanged key now)) :
    (channel.onDataChange readMessage key now).Tidy readMessage := by
  unfold Channel.onDataChange
  cases handled : handleMessages readMessage now .inSync (channel.changesOf key) channel.messages with
  | mk messages thrown =>
    cases thrown with
    | some err => exact tidy.of_shelves rfl
    | none =>
      obtain ⟨_, placed⟩ : _ ∧ Shelves.placeAll ObjectRow.id false _ _ = some messages.shelves :=
        stores_handleMessages_iff.mp (.of_eq handled)
      by_cases quiet : listedMessages readMessage (channel.changesOf key) = []
      · rw [quiet] at placed
        exact tidy.of_shelves (Option.some.inj placed).symm
      obtain ⟨row, inside, keyed, listed⟩ := channel.exists_of_changesOf quiet
      rw [listed] at placed quiet
      obtain ⟨inSync, type, first⟩ := orderly row inside keyed quiet
      have settles : channel.Settles readMessage now [row] [] messages := by
        refine ⟨fun other single => ?_, fun _ none => ?_, fun other single _ later unseen away carries => ?_,
          messages.shelves, ?_, rfl⟩
        · rw [List.mem_singleton.mp single]
          exact ⟨inside, inSync, type⟩
        · cases none
        · rw [List.mem_singleton.mp single]
          obtain ⟨laterIn, laterSync, _, _⟩ := mem_unseen.mp unseen
          refine Nat.lt_of_le_of_ne (first later unseen carries) fun same => away ?_
          exact List.mem_singleton.mpr (row_eq_of_sequence laterIn inside laterSync inSync same.symm)
        · unfold newRows messagesIn
          rw [List.flatMap_singleton]
          exact placed
      exact settles.tidy tidy

/-- The application starts again. -/
theorem Tidy.reopen (now : Int) : (channel.reopen readMessage now).1.Tidy readMessage := by
  have recovers : channel.Recovers readMessage now := recovers_iff_ready.mpr tidy.ready
  obtain ⟨_, _, middle, settled, result⟩ := reopen_eq_iff.mp ⟨recovers.1, rfl⟩
  have walk (row : Row lib) := (channel.records.walked_perm channel.messages.latestSequence).mem_iff (a := row)
  have settles : channel.Settles readMessage now (channel.records.walked channel.messages.latestSequence)
      channel.records.uncommitted (channel.reopen readMessage now).1.messages := by
    refine ⟨fun row inside => ?_, fun row inside => mem_uncommitted.mp inside, fun _ _ _ other unseen away => ?_,
      middle, settled, result.symm⟩
    · obtain ⟨rowIn, inSync, type, _⟩ := mem_unseen.mp ((walk row).mp inside)
      exact ⟨rowIn, inSync, type⟩
    · exact absurd ((walk other).mpr unseen) away
  exact settles.tidy tidy

/-- An orderly event keeps the channel tidy. -/
theorem Tidy.step (event : ChannelEvent lib) (orderly : channel.Orderly readMessage event) :
    (channel.step readMessage myKeyId event).Tidy readMessage := by
  cases event with
  | create block state => exact tidy.writeRecords fun records done => tidy.create orderly done
  | setState key state id parentHash => exact tidy.writeRecords fun records done => tidy.updateRow orderly done
  | setRecord key block => exact tidy.writeRecords fun records done => tidy.setRecord orderly done
  | truncateFrom firstRemoved => exact tidy.subset (List.filter_subset_self _)
  | truncatePrefix firstKept retained => exact tidy.writeRecords fun records done => tidy.truncatePrefix done
  | insertKey key => exact tidy.insertKey orderly
  | sent key id message now => exact tidy.sendMessage orderly
  | dataChanged key now => exact tidy.onDataChange orderly
  | rejected key => exact tidy.onRecordRejected orderly
  | reopen now => exact tidy.reopen now

end

/-- A channel before its first record. -/
def fresh (lib : Securepath) : Channel lib :=
  { records := .empty lib }

theorem fresh_tidy : (fresh lib).Tidy readMessage :=
  ⟨fun _ inside => absurd inside List.not_mem_nil, fun _ inside => absurd inside List.not_mem_nil⟩

/-- A restart recovers the messages exactly when the tables can follow the records, which they always can where the
records and events come in order. -/
theorem recovers_exactly (readMessage : Octets → Except Error (Option MessageData)) (myKeyId : PublicKeyId) :
    (∀ (channel : Channel lib) (now : Int), channel.Recovers readMessage now ↔ channel.Ready readMessage) ∧
      ∀ channel : Channel lib,
        Runs (Channel.step readMessage myKeyId) (fun channel => channel.Orderly readMessage) (fresh lib) channel →
          ∀ now, channel.Recovers readMessage now := by
  refine ⟨fun _ _ => recovers_iff_ready, fun channel run now => recovers_iff_ready.mpr ?_⟩
  exact (run.keeps fresh_tidy fun _ event tidy orderly => Tidy.step tidy event orderly).ready

/-- A reader for which every header is a message. -/
def sampleReader (header : Octets) : Except Error (Option MessageData) :=
  .ok (some ⟨"hello", header.length⟩)

def chatBlock (op object : Octet) (sequence : SequenceNumber) : Securepath.sample.Block :=
  ⟨(1, ⟨{ opId := [op], encryptionKey := 1 }, .dataChange [⟨sampleId object, [], none⟩], [[op]]⟩), ⟨[7, op], none⟩,
    sequence, []⟩

/-- The events of a channel one after the other. -/
def after (events : List (ChannelEvent .sample)) : Channel .sample :=
  events.foldl (Channel.step sampleReader []) (fresh .sample)

/-- A message that the server confirmed and the channel has shown. -/
def shownEvents : List (ChannelEvent .sample) :=
  [.insertKey ⟨1, [7]⟩, .create (chatBlock 1 9 2) .inSync, .dataChanged 1 0]

/-- The record is demoted by a replica resync. -/
def demotedEvents : List (ChannelEvent .sample) :=
  shownEvents ++ [.setState 1 .pendingCommit {} [], .truncateFrom 1]

/-- The other replica confirms it under a higher sequence, and the application stops before the event. -/
def renumberedEvents : List (ChannelEvent .sample) :=
  demotedEvents ++ [.setState 1 .inSync ⟨3, [3]⟩ []]

/-- A record with a lower sequence comes into sync, and the application stops before the event. -/
def overtakenEvents : List (ChannelEvent .sample) :=
  shownEvents ++ [.create (chatBlock 2 8 1) .inSync]

/-- A message is listed twice after a resync, the restart throws once its record has a new sequence, and a message
that was overtaken is lost. -/
theorem not_recovers_resync : ¬ (after demotedEvents).Recovers sampleReader 0 ∧
    ¬ (after renumberedEvents).Recovers sampleReader 0 ∧ ¬ (after overtakenEvents).Recovers sampleReader 0 := by
  refine ⟨fun recovers => ?_, fun recovers => ?_, fun recovers => ?_⟩
  · have twice : ((MessageStorage.get ((after demotedEvents).reopen sampleReader 0).1.messages {}).filter
        fun message => message.mid = sampleId 9).length = 2 := by decide +kernel
    have carries : (after demotedEvents).Carries sampleReader (sampleId 9) ⟨"hello", 1⟩ := by
      unfold Carries
      decide +kernel
    obtain ⟨shown, single, _⟩ := recovers.2 .indexDescending _ _ carries
    rw [single] at twice
    cases twice
  · have thrown : ((after renumberedEvents).reopen sampleReader 0).2 = some ⟨.databaseConstraint, ""⟩ := by
      decide +kernel
    rw [recovers.1] at thrown
    cases thrown
  · have lost : ((MessageStorage.get ((after overtakenEvents).reopen sampleReader 0).1.messages {}).filter
        fun message => message.mid = sampleId 8) = [] := by decide +kernel
    have carries : (after overtakenEvents).Carries sampleReader (sampleId 8) ⟨"hello", 1⟩ := by
      unfold Carries
      decide +kernel
    obtain ⟨shown, single, _⟩ := recovers.2 .indexDescending _ _ carries
    rw [single] at lost
    cases lost

/-- A record that came into sync before the application stopped. -/
def storedEvents : List (ChannelEvent .sample) :=
  [.insertKey ⟨1, [7]⟩, .create (chatBlock 1 9 2) .inSync]

theorem storedEvents_orderly : Runs (Channel.step sampleReader []) (fun channel => channel.Orderly sampleReader)
    (fresh .sample) (after storedEvents) := by
  have keyed : (fresh .sample).Orderly sampleReader (.insertKey ⟨1, [7]⟩) :=
    fun _ inside => absurd inside List.not_mem_nil
  have joins : (after [.insertKey ⟨1, [7]⟩]).Orderly sampleReader (.create (chatBlock 1 9 2) .inSync) := by
    rintro record parsed -
    cases parsed
    refine ⟨⟨⟨_, rfl, fun changes same change inside _ => ⟨_, rfl⟩⟩, ?_, fun _ _ _ named => ?_, ?_, ?_⟩,
      fun _ inside => absurd inside List.not_mem_nil⟩
    · decide +kernel
    · cases named
    · intro _ below
      exact absurd below (by decide +kernel)
    · intro _ _ _ _ inside
      cases inside
  exact ((Runs.refl _).tail keyed).tail joins

theorem recovers_exactly_stored : (after storedEvents).Recovers sampleReader 0 :=
  (recovers_exactly sampleReader []).2 _ storedEvents_orderly 0

end Channel

end SpSync
