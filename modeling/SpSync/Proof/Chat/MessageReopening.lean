import SpSync.Construction.Chat.MessageStorage
import SpSync.Proof.Chat.ObjectTables
import SpSync.Proof.Engine.HistoryScan

namespace SpSync

open Foundation

section

variable {lib : Securepath} (readMessage : Octets → Except Error (Option MessageData))

/-- Reading the message of the change does not throw. -/
def SingleDataChange.Reads (change : SingleDataChange) : Prop :=
  change.data.previousOidRecordTag = [] → ∃ found, readMessage change.header = .ok found

/-- The message of a change without a previous version of its object. -/
def SingleDataChange.message (change : SingleDataChange) : Option MessageData :=
  if change.data.previousOidRecordTag = [] then (readMessage change.header).toOption.join else none

/-- The changes that carry a message, with their messages. -/
def listedMessages (changes : List SingleDataChange) : List (SingleDataChange × MessageData) :=
  changes.filterMap fun change => (change.message readMessage).map (change, ·)

theorem listedMessages_cons (change : SingleDataChange) (rest : List SingleDataChange) :
    listedMessages readMessage (change :: rest) =
      ((change.message readMessage).map (change, ·)).toList ++ listedMessages readMessage rest := by
  rw [listedMessages, List.filterMap_cons]
  cases change.message readMessage <;> rfl

/-- The row that a store writes for the message. -/
def messageRow (now : Int) (pending : Bool) (listed : SingleDataChange × MessageData) : ObjectRow MsgData :=
  let data := MsgData.ofMessage listed.2 (listed.1.signer.getD []) listed.1.internalId listed.1.seq now
  ObjectStore.newRow listed.1.data.id data data.senderTime data.seq data.iid pending

@[simp]
theorem messageRow_id (now : Int) (pending : Bool) (listed : SingleDataChange × MessageData) :
    (messageRow now pending listed).id = listed.1.data.id :=
  ObjectStore.newRow_id ..

/-- The message in a row of the tables. -/
def ObjectRow.message (row : ObjectRow MsgData) : MessageData :=
  ⟨row.data.message, row.data.senderTime⟩

@[simp]
theorem messageRow_message (now : Int) (pending : Bool) (listed : SingleDataChange × MessageData) :
    (messageRow now pending listed).message = listed.2 := by
  unfold messageRow ObjectRow.message
  rw [ObjectStore.newRow_data]
  rfl

theorem MessageStorage.insert_shelves (messages : MessageStorage) (id : ObjectId) (data : MsgData) (pending : Bool) :
    (MessageStorage.insert messages id data (if pending then .pending else .inSync)).toOption.map
        (fun result => result.1.shelves) =
      Shelves.place ObjectRow.id pending messages.shelves
        (ObjectStore.newRow id data data.senderTime data.seq data.iid pending) := by
  rw [← ObjectStore.insert_shelves]
  unfold MessageStorage.insert
  have state : decide ((if pending then MsgState.pending else MsgState.inSync) ≠ .inSync) = pending := by
    cases pending <;> rfl
  rw [state]
  cases ObjectStore.insert messages id data data.senderTime data.seq data.iid pending <;> rfl

variable {readMessage} {now : Int} {pending : Bool} {messages : MessageStorage}
  {shelves : Shelves (ObjectRow MsgData)}

/-- The messages are stored on the shelves without an error. -/
structure Stores (outcome : MessageStorage × Option Error) (shelves : Shelves (ObjectRow MsgData)) : Prop where
  finished : outcome.2 = none
  same : outcome.1.shelves = shelves

theorem Stores.of_eq {outcome : MessageStorage × Option Error} (done : outcome = (messages, none)) :
    Stores outcome messages.shelves := by
  rw [done]
  exact ⟨rfl, rfl⟩

theorem not_stores {err : Error} : ¬ Stores (messages, some err) shelves :=
  fun stores => Option.some_ne_none err stores.finished

/-- The messages of a list of changes are stored when they all can be read and their rows can be placed. -/
theorem stores_handleMessages_iff {changes : List SingleDataChange} :
    Stores (handleMessages readMessage now (if pending then .pending else .inSync) changes messages) shelves ↔
      (∀ change ∈ changes, change.Reads readMessage) ∧
        Shelves.placeAll ObjectRow.id pending ((listedMessages readMessage changes).map (messageRow now pending))
          messages.shelves = some shelves := by
  induction changes generalizing messages with
  | nil =>
    constructor
    · exact fun stores => ⟨List.forall_mem_nil _, congrArg some stores.same⟩
    · exact fun placed => ⟨rfl, Option.some.inj placed.2⟩
  | cons change rest ih =>
    rw [List.forall_mem_cons, handleMessages]
    by_cases first : change.data.previousOidRecordTag = []
    · rw [if_pos first]
      cases read : readMessage change.header with
      | error err =>
        refine iff_of_false not_stores ?_
        rintro ⟨⟨reads, _⟩, _⟩
        obtain ⟨found, same⟩ := reads first
        rw [read] at same
        cases same
      | ok found =>
        have reads : change.Reads readMessage := fun _ => ⟨found, read⟩
        rw [and_iff_right reads]
        have message : change.message readMessage = found := by
          unfold SingleDataChange.message
          rw [if_pos first, read]
          rfl
        cases found with
        | none =>
          rw [listedMessages_cons, message]
          exact ih
        | some data =>
          have placed := MessageStorage.insert_shelves messages change.data.id
            (.ofMessage data (change.signer.getD []) change.internalId change.seq now) pending
          rw [listedMessages_cons, message, Option.map_some, Option.toList_some, List.singleton_append, List.map_cons,
            Shelves.placeAll, messageRow]
          dsimp only
          rw [← placed]
          cases MessageStorage.insert messages change.data.id
              (.ofMessage data (change.signer.getD []) change.internalId change.seq now)
              (if pending then .pending else .inSync) with
          | error err => exact iff_of_false not_stores fun placed => Option.some_ne_none _ placed.2.symm
          | ok result => exact ih
    · rw [if_neg first]
      have reads : change.Reads readMessage := fun empty => absurd empty first
      rw [and_iff_right reads, listedMessages_cons, SingleDataChange.message, if_neg first]
      exact ih

variable (readMessage) in
/-- The messages of a record as the channel reads them. -/
def messagesOf (keys : KeyStorage) (row : Row lib) : List (SingleDataChange × MessageData) :=
  match extractSingleDataChanges keys row with
  | .ok (.ok changes) => listedMessages readMessage changes
  | _ => []

variable (readMessage) in
/-- Neither the extraction of the changes nor the reading of their messages throws. -/
def Row.Reads (keys : KeyStorage) (row : Row lib) : Prop :=
  ∃ outcome, extractSingleDataChanges keys row = .ok outcome ∧
    ∀ changes, outcome = .ok changes → ∀ change ∈ changes, change.Reads readMessage

/-- The messages of a list of records are stored when none of them throws and their rows can be placed. -/
theorem stores_syncChanges_iff {keys : KeyStorage} {rows : List (Row lib)} :
    Stores (syncChanges readMessage now keys (rows.map (·, pending)) messages) shelves ↔
      (∀ row ∈ rows, row.Reads readMessage keys) ∧
        Shelves.placeAll ObjectRow.id pending ((rows.flatMap (messagesOf readMessage keys)).map (messageRow now pending))
          messages.shelves = some shelves := by
  induction rows generalizing messages with
  | nil =>
    constructor
    · exact fun stores => ⟨List.forall_mem_nil _, congrArg some stores.same⟩
    · exact fun placed => ⟨rfl, Option.some.inj placed.2⟩
  | cons row rest ih =>
    rw [List.map_cons, List.forall_mem_cons, syncChanges, List.flatMap_cons, List.map_append,
      Shelves.placeAll_append]
    cases extracted : extractSingleDataChanges keys row with
    | error err =>
      refine iff_of_false not_stores ?_
      rintro ⟨⟨⟨outcome, same, _⟩, _⟩, _⟩
      rw [extracted] at same
      cases same
    | ok outcome =>
      cases outcome with
      | error err =>
        have reads : row.Reads readMessage keys :=
          ⟨_, extracted, fun changes same => by cases same⟩
        have listed : messagesOf readMessage keys row = [] := by
          unfold messagesOf
          rw [extracted]
        rw [and_iff_right reads, listed]
        exact ih
      | ok changes =>
        have reads : row.Reads readMessage keys ↔ ∀ change ∈ changes, change.Reads readMessage := by
          constructor
          · rintro ⟨outcome, same, all⟩
            rw [extracted] at same
            exact all changes (Except.ok.inj same).symm
          · intro all
            refine ⟨_, extracted, fun others same => ?_⟩
            cases same
            exact all
        have listed : messagesOf readMessage keys row = listedMessages readMessage changes := by
          unfold messagesOf
          rw [extracted]
        rw [reads, listed]
        dsimp only
        cases result : handleMessages readMessage now (if pending then .pending else .inSync) changes messages with
        | mk middle thrown =>
          cases thrown with
          | some err =>
            refine iff_of_false not_stores ?_
            rintro ⟨⟨all, _⟩, placed⟩
            obtain ⟨middle, first, _⟩ := Option.bind_eq_some_iff.mp placed
            have stores := stores_handleMessages_iff.mpr ⟨all, first⟩
            rw [result] at stores
            cases stores.finished
          | none =>
            obtain ⟨all, first⟩ := stores_handleMessages_iff.mp (.of_eq result)
            rw [and_iff_right all, first, Option.bind_some]
            exact ih

/-- A walk goes on where its first part ended, unless that threw. -/
theorem syncChanges_append (keys : KeyStorage) (first rest : List (Row lib × Bool)) (messages : MessageStorage) :
    syncChanges readMessage now keys (first ++ rest) messages =
      (syncChanges readMessage now keys first messages).2.elim
        (syncChanges readMessage now keys rest (syncChanges readMessage now keys first messages).1)
        fun _ => syncChanges readMessage now keys first messages := by
  induction first generalizing messages with
  | nil => rfl
  | cons head tail ih =>
    obtain ⟨row, pending⟩ := head
    rw [List.cons_append, syncChanges, syncChanges]
    cases extractSingleDataChanges keys row with
    | error err => rfl
    | ok outcome =>
      cases outcome with
      | error err => exact ih messages
      | ok changes =>
        dsimp only
        cases handleMessages readMessage now (if pending then .pending else .inSync) changes messages with
        | mk next thrown =>
          cases thrown with
          | some err => rfl
          | none => exact ih next

end

/-- What a listed message says about its object. -/
def Message.content (message : Message) : ObjectId × MessageData :=
  (message.mid, ⟨message.data, message.senderTime⟩)

theorem getcontent_perm (messages : MessageStorage) (order : MsgOrder) :
    ((MessageStorage.get messages { order }).map Message.content).Perm
      ((messages.shelves.confirmed ++ messages.shelves.pending).map fun row => (row.id, row.message)) := by
  have listed := (ObjectStore.get_perm messages order).map fun content =>
    (content.1, (⟨content.2.message, content.2.senderTime⟩ : MessageData))
  rw [List.map_map, List.map_map] at listed
  unfold MessageStorage.get
  rw [List.map_map]
  exact listed

/-- An identifier is listed once when it is in one table, and the listed message is the one stored there. -/
theorem shown_once_iff {messages : MessageStorage} {order : MsgOrder} {id : ObjectId} {good : MessageData → Prop} :
    (∃ shown, (MessageStorage.get messages { order }).filter (fun message => message.mid = id) = [shown] ∧
      good ⟨shown.data, shown.senderTime⟩) ↔
      messages.shelves.Once ObjectRow.id id ∧
        ∀ row ∈ messages.shelves.confirmed ++ messages.shelves.pending, row.id = id → good row.message := by
  have listed : (((MessageStorage.get messages { order }).filter fun message => message.mid = id).map
      Message.content).Perm
      (((messages.shelves.confirmed ++ messages.shelves.pending).filter fun row => row.id = id).map fun row =>
        (row.id, row.message)) := by
    have filtered := (getcontent_perm messages order).filter fun view => view.1 = id
    rw [List.filter_map, List.filter_map] at filtered
    exact filtered
  rw [← Shelves.length_filter_eq_one_iff messages.shelves_proper]
  constructor
  · rintro ⟨shown, single, fine⟩
    rw [single, List.map_singleton] at listed
    have only := List.perm_singleton.mp listed.symm
    refine ⟨?_, fun row inside same => ?_⟩
    · rw [← List.length_map, only]
      rfl
    have found : (row.id, row.message) ∈ [Message.content shown] := only ▸ List.mem_map_of_mem
      (List.mem_filter.mpr ⟨inside, decide_eq_true same⟩)
    obtain ⟨_, message⟩ := Prod.mk.inj (List.mem_singleton.mp found)
    rw [message]
    exact fine
  · rintro ⟨once, fine⟩
    have length := listed.length_eq
    rw [List.length_map, List.length_map, once] at length
    obtain ⟨shown, single⟩ := List.length_eq_one_iff.mp length
    refine ⟨shown, single, ?_⟩
    rw [single, List.map_singleton] at listed
    have found : Message.content shown ∈ _ := listed.mem_iff.mp List.mem_cons_self
    obtain ⟨row, kept, same⟩ := List.mem_map.mp found
    obtain ⟨inside, named⟩ := List.mem_filter.mp kept
    have message : row.message = ⟨shown.data, shown.senderTime⟩ := (Prod.mk.inj same).2
    exact message ▸ fine row inside (of_decide_eq_true named)

namespace RecordStorage

variable {lib : Securepath} (records : RecordStorage lib) (after : SequenceNumber)

/-- The data changes in sync after the sequence, those up to it, and the pending ones. -/
def unseen : List (Row lib) :=
  records.rows.filter fun row => row.state = .inSync && row.type = .dataChange && after < row.sequence

def seen : List (Row lib) :=
  records.rows.filter fun row => row.state = .inSync && row.type = .dataChange && row.sequence ≤ after

def uncommitted : List (Row lib) :=
  records.rows.filter fun row => row.state = .pendingCommit && row.type = .dataChange

/-- The data changes in sync after the sequence in the order of the walk. -/
def walked : List (Row lib) :=
  ((List.range' (after + 1) (records.lastBlock.sequence - after)).filterMap fun seq => records.find seq .inSync).filter
    fun row => row.type = .dataChange

variable {records after} {row : Row lib}

theorem mem_unseen : row ∈ records.unseen after ↔
    row ∈ records.rows ∧ row.state = .inSync ∧ row.type = .dataChange ∧ after < row.sequence := by
  simp only [unseen, List.mem_filter, Bool.and_eq_true, decide_eq_true_eq, and_assoc]

theorem mem_seen : row ∈ records.seen after ↔
    row ∈ records.rows ∧ row.state = .inSync ∧ row.type = .dataChange ∧ row.sequence ≤ after := by
  simp only [seen, List.mem_filter, Bool.and_eq_true, decide_eq_true_eq, and_assoc]

theorem mem_uncommitted : row ∈ records.uncommitted ↔
    row ∈ records.rows ∧ row.state = .pendingCommit ∧ row.type = .dataChange := by
  simp only [uncommitted, List.mem_filter, Bool.and_eq_true, decide_eq_true_eq]

variable (records)

theorem walkDataChanges_eq (after : SequenceNumber) :
    walkDataChanges records after =
      (records.walked after).map (·, false) ++ records.uncommitted.map (·, true) := by
  unfold walkDataChanges walked uncommitted
  rw [List.filter_filter]
  simp only [Bool.and_comm]

theorem rows_nodup : records.rows.Nodup :=
  List.Pairwise.of_map Row.key (fun _ _ apart same => apart (congrArg Row.key same))
    (List.pairwise_map.mpr (records.unique.keys.imp Nat.ne_of_lt))

/-- The walk finds each of the data changes in sync after the sequence once. -/
theorem walked_perm (after : SequenceNumber) : (records.walked after).Perm (records.unseen after) := by
  have walkedNodup : (records.walked after).Nodup := by
    refine List.Nodup.filter _ (List.Nodup.filterMap ?_ List.nodup_range')
    intro left right row leftFound rightFound
    rw [← (find_eq_some_iff.mp leftFound).2, ← (find_eq_some_iff.mp rightFound).2]
  refine (List.perm_ext_iff_of_nodup walkedNodup (records.rows_nodup.filter _)).mpr fun row => ?_
  refine Iff.trans ?_ mem_unseen.symm
  simp only [walked, List.mem_filter, List.mem_filterMap, List.mem_range'_1, decide_eq_true_eq, find_eq_some_iff,
    mem_synced]
  constructor
  · rintro ⟨⟨seq, ⟨above, _⟩, ⟨inside, inSync⟩, rfl⟩, type⟩
    exact ⟨inside, inSync, type, above⟩
  rintro ⟨inside, inSync, type, above⟩
  have below := sequence_le_lastBlock inside inSync
  refine ⟨⟨row.sequence, ⟨above, ?_⟩, ⟨inside, inSync⟩, rfl⟩, type⟩
  rw [Nat.add_right_comm, Nat.add_sub_of_le (Nat.le_of_lt (Nat.lt_of_lt_of_le above below))]
  exact Nat.lt_succ_of_le below

end RecordStorage

namespace Channel

open RecordStorage

variable {lib : Securepath} (readMessage : Octets → Except Error (Option MessageData)) (channel : Channel lib)

/-- The messages of the records in the list. -/
def messagesIn (rows : List (Row lib)) : List (SingleDataChange × MessageData) :=
  rows.flatMap (messagesOf readMessage channel.keys)

def idsIn (rows : List (Row lib)) : List ObjectId :=
  (channel.messagesIn readMessage rows).map fun listed => listed.1.data.id

/-- The message of the identifier is in a data change that is in sync or pending. -/
def Carries (id : ObjectId) (message : MessageData) : Prop :=
  ∃ row ∈ channel.records.rows, (row.state = .inSync ∨ row.state = .pendingCommit) ∧ row.type = .dataChange ∧
    ∃ listed ∈ messagesOf readMessage channel.keys row, listed.1.data.id = id ∧ listed.2 = message

/-- The restart throws nothing, and the unlimited searches then list each identifier of a message once, with a message
that a record carries under it. -/
def Recovers (now : Int) : Prop :=
  (channel.reopen readMessage now).2 = none ∧
    ∀ order id message, channel.Carries readMessage id message →
      ∃ shown, (MessageStorage.get (channel.reopen readMessage now).1.messages { order }).filter
          (fun message => message.mid = id) = [shown] ∧
        channel.Carries readMessage id ⟨shown.data, shown.senderTime⟩

/-- The tables can follow the records. -/
structure Ready : Prop where
  /-- No record that the restart reads throws. -/
  reads : ∀ row ∈ channel.records.rows, row.type = .dataChange →
    row.state = .pendingCommit ∨ (row.state = .inSync ∧ channel.messages.latestSequence < row.sequence) →
      row.Reads readMessage channel.keys
  /-- The identifiers after the newest confirmed sequence are new, no pending one is confirmed, and the others are in
  one table. -/
  tables : Shelves.Ready ObjectRow.id channel.messages.shelves
    (channel.idsIn readMessage (channel.records.unseen channel.messages.latestSequence))
    (channel.idsIn readMessage channel.records.uncommitted)
    (channel.idsIn readMessage (channel.records.seen channel.messages.latestSequence))
  /-- A stored message that stays is one that a record carries. -/
  kept : ∀ row ∈ channel.messages.confirmed ++ channel.messages.pending,
    row.id ∉ channel.idsIn readMessage (channel.records.unseen channel.messages.latestSequence) →
      ∀ message, channel.Carries readMessage row.id message → channel.Carries readMessage row.id row.message

variable {readMessage channel} {now : Int} {rows : List (Row lib)} {id : ObjectId}

/-- The rows that a restart adds for the messages of the records in the list. -/
def newRows (readMessage : Octets → Except Error (Option MessageData)) (channel : Channel lib) (now : Int)
    (pending : Bool) (rows : List (Row lib)) : List (ObjectRow MsgData) :=
  (channel.messagesIn readMessage rows).map (messageRow now pending)

theorem newRows_ids (now : Int) (pending : Bool) (rows : List (Row lib)) :
    (channel.newRows readMessage now pending rows).map ObjectRow.id = channel.idsIn readMessage rows := by
  unfold newRows idsIn
  rw [List.map_map]
  exact List.map_congr_left fun listed _ => messageRow_id now pending listed

/-- A restart confirms the messages of the walk and holds the uncommitted ones. -/
theorem reopen_eq_iff {shelves : Shelves (ObjectRow MsgData)} :
    ((channel.reopen readMessage now).2 = none ∧ (channel.reopen readMessage now).1.messages.shelves = shelves) ↔
      (∀ row ∈ channel.records.walked channel.messages.latestSequence, row.Reads readMessage channel.keys) ∧
      (∀ row ∈ channel.records.uncommitted, row.Reads readMessage channel.keys) ∧
      ∃ middle, Shelves.confirmAll ObjectRow.id
          (channel.newRows readMessage now false (channel.records.walked channel.messages.latestSequence))
          channel.messages.shelves = some middle ∧
        Shelves.holdAll ObjectRow.id (channel.newRows readMessage now true channel.records.uncommitted) middle =
          shelves := by
  have walk : syncMessageStorage readMessage now channel.messages.reopen channel.records channel.keys =
      syncChanges readMessage now channel.keys
        ((channel.records.walked channel.messages.latestSequence).map (·, false) ++
          channel.records.uncommitted.map (·, true)) channel.messages.reopen := by
    rw [← walkDataChanges_eq]
    rfl
  unfold reopen
  rw [walk, syncChanges_append]
  cases first : syncChanges readMessage now channel.keys
      ((channel.records.walked channel.messages.latestSequence).map (·, false)) channel.messages.reopen with
  | mk messages thrown =>
    cases thrown with
    | some err =>
      refine iff_of_false (fun both => Option.some_ne_none _ both.1) ?_
      rintro ⟨reads, _, middle, settled, _⟩
      have stores : Stores (messages, some err) middle := first ▸ stores_syncChanges_iff.mpr ⟨reads, settled⟩
      cases stores.finished
    | none =>
      obtain ⟨reads, settled⟩ := stores_syncChanges_iff.mp (.of_eq first)
      rw [and_iff_right reads, Option.elim_none]
      constructor
      · rintro ⟨done, same⟩
        obtain ⟨others, held⟩ := stores_syncChanges_iff.mp ⟨done, same⟩
        rw [Shelves.placeAll_held] at held
        exact ⟨others, messages.shelves, settled, Option.some.inj held⟩
      · rintro ⟨others, middle, again, held⟩
        obtain rfl : messages.shelves = middle := Option.some.inj (settled.symm.trans again)
        obtain ⟨done, same⟩ := stores_syncChanges_iff.mpr
          ⟨others, (Shelves.placeAll_held _ messages.shelves).trans (congrArg some held)⟩
        exact ⟨done, same⟩

theorem mem_idsIn : id ∈ channel.idsIn readMessage rows ↔
    ∃ row ∈ rows, ∃ listed ∈ messagesOf readMessage channel.keys row, listed.1.data.id = id := by
  simp only [idsIn, messagesIn, List.mem_map, List.mem_flatMap]
  constructor
  · rintro ⟨listed, ⟨row, inside, found⟩, same⟩
    exact ⟨row, inside, listed, found, same⟩
  · rintro ⟨row, inside, listed, found, same⟩
    exact ⟨listed, ⟨row, inside, found⟩, same⟩

/-- The identifiers with a message are those of the three groups of data changes. -/
theorem exists_carries_iff (after : SequenceNumber) : (∃ message, channel.Carries readMessage id message) ↔
    id ∈ channel.idsIn readMessage (channel.records.unseen after) ++
      channel.idsIn readMessage channel.records.uncommitted ++
      channel.idsIn readMessage (channel.records.seen after) := by
  rw [List.mem_append, List.mem_append, mem_idsIn, mem_idsIn, mem_idsIn]
  constructor
  · rintro ⟨_, row, inside, inSync | waiting, type, listed, found, same, _⟩
    · obtain low | high := Nat.lt_or_ge after row.sequence
      · exact Or.inl (Or.inl ⟨row, mem_unseen.mpr ⟨inside, inSync, type, low⟩, listed, found, same⟩)
      · exact Or.inr ⟨row, mem_seen.mpr ⟨inside, inSync, type, high⟩, listed, found, same⟩
    · exact Or.inl (Or.inr ⟨row, mem_uncommitted.mpr ⟨inside, waiting, type⟩, listed, found, same⟩)
  · rintro ((⟨row, kept, listed, found, same⟩ | ⟨row, kept, listed, found, same⟩) | ⟨row, kept, listed, found, same⟩)
    · obtain ⟨inside, inSync, type, _⟩ := mem_unseen.mp kept
      exact ⟨listed.2, row, inside, Or.inl inSync, type, listed, found, same, rfl⟩
    · obtain ⟨inside, waiting, type⟩ := mem_uncommitted.mp kept
      exact ⟨listed.2, row, inside, Or.inr waiting, type, listed, found, same, rfl⟩
    · obtain ⟨inside, inSync, type, _⟩ := mem_seen.mp kept
      exact ⟨listed.2, row, inside, Or.inl inSync, type, listed, found, same, rfl⟩

/-- A row that a restart adds holds a message of its record. -/
theorem carries_newRows {pending : Bool} {stored : ObjectRow MsgData}
    (live : ∀ row ∈ rows, row ∈ channel.records.rows ∧ (row.state = .inSync ∨ row.state = .pendingCommit) ∧
      row.type = .dataChange) (added : stored ∈ channel.newRows readMessage now pending rows) :
    channel.Carries readMessage stored.id stored.message := by
  obtain ⟨listed, inside, rfl⟩ := List.mem_map.mp added
  obtain ⟨row, kept, found⟩ := List.mem_flatMap.mp inside
  obtain ⟨rowIn, state, type⟩ := live row kept
  exact ⟨row, rowIn, state, type, listed, found, (messageRow_id ..).symm, (messageRow_message ..).symm⟩

/-- What a restart has to achieve, read off the shelves. -/
theorem recovers_iff : channel.Recovers readMessage now ↔
    (∀ row ∈ channel.records.walked channel.messages.latestSequence, row.Reads readMessage channel.keys) ∧
    (∀ row ∈ channel.records.uncommitted, row.Reads readMessage channel.keys) ∧
    ∃ middle, Shelves.confirmAll ObjectRow.id
        (channel.newRows readMessage now false (channel.records.walked channel.messages.latestSequence))
        channel.messages.shelves = some middle ∧
      ∀ id message, channel.Carries readMessage id message →
        (Shelves.holdAll ObjectRow.id (channel.newRows readMessage now true channel.records.uncommitted) middle).Once
            ObjectRow.id id ∧
          ∀ row ∈ middle.confirmed ++ (Shelves.holdAll ObjectRow.id
              (channel.newRows readMessage now true channel.records.uncommitted) middle).pending,
            row.id = id → channel.Carries readMessage id row.message := by
  unfold Recovers
  simp only [shown_once_iff]
  constructor
  · rintro ⟨done, all⟩
    obtain ⟨reads, others, middle, settled, held⟩ := reopen_eq_iff.mp ⟨done, rfl⟩
    refine ⟨reads, others, middle, settled, fun id message carries => ?_⟩
    have shown := all .indexAscending id message carries
    rw [← held, Shelves.confirmed_holdAll] at shown
    exact shown
  · rintro ⟨reads, others, middle, settled, all⟩
    obtain ⟨done, held⟩ := reopen_eq_iff.mpr ⟨reads, others, middle, settled, rfl⟩
    refine ⟨done, fun _ id message carries => ?_⟩
    rw [held, Shelves.confirmed_holdAll]
    exact all id message carries

/-- The restart leaves each identifier in one table when the tables are ready for the walk. -/
theorem settles_iff (now : Int) {others : List ObjectId} :
    (∃ middle, Shelves.confirmAll ObjectRow.id (channel.newRows readMessage now false rows) channel.messages.shelves =
        some middle ∧
      ∀ id ∈ channel.idsIn readMessage rows ++ channel.idsIn readMessage channel.records.uncommitted ++ others,
        (Shelves.holdAll ObjectRow.id (channel.newRows readMessage now true channel.records.uncommitted) middle).Once
          ObjectRow.id id) ↔
      Shelves.Ready ObjectRow.id channel.messages.shelves (channel.idsIn readMessage rows)
        (channel.idsIn readMessage channel.records.uncommitted) others := by
  have settled : _ ↔ Shelves.Ready ObjectRow.id channel.messages.shelves
      ((channel.newRows readMessage now false rows).map ObjectRow.id)
      ((channel.newRows readMessage now true channel.records.uncommitted).map ObjectRow.id) others :=
    Shelves.settles_iff_ready
  rw [newRows_ids, newRows_ids] at settled
  exact settled

/-- The restart recovers the messages exactly when the tables can follow the records. -/
theorem recovers_iff_ready : channel.Recovers readMessage now ↔ channel.Ready readMessage := by
  have same := (channel.records.walked_perm channel.messages.latestSequence).flatMap_right
    (messagesOf readMessage channel.keys)
  have ids : (channel.idsIn readMessage (channel.records.walked channel.messages.latestSequence)).Perm
      (channel.idsIn readMessage (channel.records.unseen channel.messages.latestSequence)) := same.map _
  rw [recovers_iff]
  constructor
  · rintro ⟨reads, others, middle, settled, all⟩
    have ready := (settles_iff now).mp ⟨middle, settled, fun id inside => by
      obtain ⟨message, carries⟩ := (exists_carries_iff channel.messages.latestSequence).mpr
        (((ids.append_right _).append_right _).mem_iff.mp inside)
      exact (all id message carries).1⟩
    refine ⟨fun row inside type state => ?_, ready.perm ids, fun row inside apart message carries => ?_⟩
    · obtain waiting | ⟨inSync, above⟩ := state
      · exact others row (mem_uncommitted.mpr ⟨inside, waiting, type⟩)
      · exact reads row ((channel.records.walked_perm _).mem_iff.mpr (mem_unseen.mpr ⟨inside, inSync, type, above⟩))
    · refine (all row.id message carries).2 row ?_ rfl
      obtain old | waiting := List.mem_append.mp inside
      · rw [Shelves.confirmed_confirmAll settled]
        exact List.mem_append_left _ (List.mem_append_left _ old)
      refine List.mem_append_right _ (Shelves.mem_holdAll_of_mem
        ((Shelves.mem_pending_confirmAll settled).mpr ⟨waiting, ?_⟩))
      rw [newRows_ids]
      exact fun new => apart (ids.mem_iff.mp new)
  · intro ready
    have walk (row : Row lib) (inside : row ∈ channel.records.walked channel.messages.latestSequence) :=
      mem_unseen.mp ((channel.records.walked_perm _).mem_iff.mp inside)
    obtain ⟨middle, settled, once⟩ := (settles_iff now).mpr (ready.tables.perm ids.symm)
    refine ⟨fun row inside => ?_, fun row inside => ?_, middle, settled, fun id message carries => ⟨?_, ?_⟩⟩
    · obtain ⟨rowIn, inSync, type, above⟩ := walk row inside
      exact ready.reads row rowIn type (Or.inr ⟨inSync, above⟩)
    · obtain ⟨rowIn, waiting, type⟩ := mem_uncommitted.mp inside
      exact ready.reads row rowIn type (Or.inl waiting)
    · exact once id (((ids.append_right _).append_right _).mem_iff.mpr
        ((exists_carries_iff channel.messages.latestSequence).mp ⟨message, carries⟩))
    · -- A listed row is an old confirmed one, a new one, a pending one that stays, or a held one.
      rintro row inside rfl
      rw [Shelves.confirmed_confirmAll settled] at inside
      obtain confirmed | waiting := List.mem_append.mp inside
      · obtain old | new := List.mem_append.mp confirmed
        · exact ready.kept row (List.mem_append_left _ old)
            (fun fresh => (ready.tables.fresh row.id fresh).1 (List.mem_map_of_mem old)) message carries
        · exact carries_newRows (fun other kept => ⟨(walk other kept).1, Or.inl (walk other kept).2.1,
            (walk other kept).2.2.1⟩) new
      · obtain kept | held := Shelves.mem_holdAll waiting
        · obtain ⟨old, apart⟩ := (Shelves.mem_pending_confirmAll settled).mp kept
          rw [newRows_ids] at apart
          exact ready.kept row (List.mem_append_right _ old) (fun fresh => apart (ids.mem_iff.mpr fresh)) message carries
        · exact carries_newRows (fun other kept => ⟨(mem_uncommitted.mp kept).1, Or.inr (mem_uncommitted.mp kept).2.1,
            (mem_uncommitted.mp kept).2.2⟩) held

end Channel

end SpSync
