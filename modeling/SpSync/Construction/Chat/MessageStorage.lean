/-
This file holds the messages of a channel, and how they follow the records of the channel's storage.
-/

import SpSync.Construction.Chat.ObjectStore
import SpSync.Construction.Core.History
import SpSync.Construction.Core.KeyStorage
import SpSync.Construction.Engine.RecordCrypto

namespace SpSync

inductive MsgState
  | pending
  | inSync
  | acked
deriving DecidableEq, Repr

structure MessageData where
  message : String
  senderTime : Int
deriving DecidableEq, Repr

structure MsgData where
  message : String
  sender : UserId
  senderTime : Int
  receiverTime : Int
  serverTime : Int
  iid : Nat
  seq : SequenceNumber
deriving DecidableEq, Repr

def MsgData.ofMessage (data : MessageData) (sender : UserId) (iid : Nat) (seq : SequenceNumber) (now : Int) :
    MsgData :=
  ⟨data.message, sender, data.senderTime, now, now, iid, seq⟩

structure Message where
  data : String
  senderId : UserId
  mid : ObjectId
  senderTime : Int
  index : Int
  state : MsgState
deriving DecidableEq, Repr

structure MsgChange where
  newIndex : Int
  oldIndex : Int
  id : ObjectId
  state : MsgState
deriving DecidableEq, Repr

abbrev MessageStorage := ObjectStore MsgData

namespace MessageStorage

def insert (messages : MessageStorage) (id : ObjectId) (data : MsgData) (state : MsgState) :
    Except Error (MessageStorage × MsgChange) :=
  (ObjectStore.insert messages id data data.senderTime data.seq data.iid (state ≠ .inSync)).map
    fun (messages, change) => (messages, ⟨change.newIndex, change.oldIndex, id, state⟩)

def get (messages : MessageStorage) (search : MessageSearch) : List Message :=
  (ObjectStore.get messages search).map fun row =>
    ⟨row.payload.message, row.payload.sender, row.id, row.payload.senderTime, row.index,
      if row.pending then .pending else .inSync⟩

end MessageStorage

structure SingleDataChange where
  data : PlainSingleChangeData
  header : Octets
  seq : SequenceNumber
  internalId : Nat
  signer : Option PublicKeyId
deriving DecidableEq, Repr

/-- The changes of a data change, or the error that the caller gets. A record or header that does not parse throws
instead; only the first key of the record's key sequence is tried. -/
def extractSingleDataChanges {lib : Securepath} (keys : KeyStorage) (row : Row lib) :
    Except Error (Except Error (List SingleDataChange)) :=
  match lib.deserialise row.block.record with
  | some ⟨base, .dataChange changes, headers⟩ =>
      match keys.find base.encryptionKey with
      | none => .ok (.error ⟨.noEncryptionKeyFound, ""⟩)
      | some key =>
          if base.structureVersion = currentStructureVersion ∧
              (lib.decrypt key base (.dataChange changes) headers).isNone then .error ⟨.invalidData, ""⟩
          else match verifyRecord lib key ⟨base, .dataChange changes, headers⟩ row.block.auth with
            | none => .ok (.error ⟨.notAuthentic, ""⟩)
            | some plain => .ok (.ok (List.zipWith (fun data header =>
                ⟨data, header, row.sequence, row.key, row.block.auth.signature.map Signature.issuer⟩) changes plain))
  | _ => .error ⟨.invalidData, ""⟩

def walkDataChanges {lib : Securepath} (records : RecordStorage lib) (after : SequenceNumber) :
    List (Row lib × Bool) :=
  (((List.range' (after + 1) (records.lastBlock.sequence - after)).filterMap fun seq => records.find seq .inSync).filter
    fun row => row.type = .dataChange).map (·, false) ++
  ((records.rows.filter fun row => row.state = .pendingCommit).filter fun row => row.type = .dataChange).map (·, true)

section

variable {lib : Securepath} (readMessage : Octets → Except Error (Option MessageData)) (now : Int)

/-- The messages of a record's changes are inserted one by one; a message that does not parse throws. -/
def handleMessages (state : MsgState) : List SingleDataChange → MessageStorage → MessageStorage × Option Error
  | [], messages => (messages, none)
  | change :: rest, messages =>
      if change.data.previousOidRecordTag = [] then
        match readMessage change.header with
        | .error err => (messages, some err)
        | .ok none => handleMessages state rest messages
        | .ok (some data) =>
            match MessageStorage.insert messages change.data.id
              (.ofMessage data (change.signer.getD []) change.internalId change.seq now) state with
            | .error err => (messages, some err)
            | .ok (messages, _) => handleMessages state rest messages
      else handleMessages state rest messages

def syncChanges (keys : KeyStorage) : List (Row lib × Bool) → MessageStorage → MessageStorage × Option Error
  | [], messages => (messages, none)
  | (row, pending) :: rest, messages =>
      match extractSingleDataChanges keys row with
      | .error err => (messages, some err)
      | .ok (.error _) => syncChanges keys rest messages
      | .ok (.ok changes) =>
          match handleMessages readMessage now (if pending then .pending else .inSync) changes messages with
          | (messages, some err) => (messages, some err)
          | (messages, none) => syncChanges keys rest messages

/-- The messages follow the records from the newest confirmed sequence on; the error is what it throws. -/
def syncMessageStorage (messages : MessageStorage) (records : RecordStorage lib) (keys : KeyStorage) :
    MessageStorage × Option Error :=
  syncChanges readMessage now keys (walkDataChanges records messages.latestSequence) messages

end

structure Channel (lib : Securepath) where
  records : RecordStorage lib
  keys : KeyStorage := {}
  messages : MessageStorage := .empty

/-- What can happen to the database of a channel. The engine writes records and keys; the other events are the
channel's own: a message was sent with the record of the key, the record's change or rejection was reported, and the
application was started again. -/
inductive ChannelEvent (lib : Securepath)
  | create (block : lib.Block) (state : RecordState)
  | setState (key : Nat) (state : RecordState) (id : ChainBlockId) (parentHash : Octets)
  | setRecord (key : Nat) (block : lib.Block)
  | truncateFrom (firstRemoved : SequenceNumber)
  | truncatePrefix (firstKept : SequenceNumber) (retained : List RecordTag)
  | insertKey (key : EncryptionKey)
  | sent (key : Nat) (id : ObjectId) (message : MessageData) (now : Int)
  | dataChanged (key : Nat) (now : Int)
  | rejected (key : Nat)
  | reopen (now : Int)

namespace Channel

variable {lib : Securepath}

def writeRecords (channel : Channel lib) (written : Except Error (RecordStorage lib)) : Channel lib :=
  { channel with records := written.toOption.getD channel.records }

def changesOf (channel : Channel lib) (key : Nat) : List SingleDataChange :=
  match channel.records.findKey key with
  | none => []
  | some row =>
      match extractSingleDataChanges channel.keys row with
      | .ok (.ok changes) => changes
      | _ => []

def sendMessage (channel : Channel lib) (myKeyId : PublicKeyId) (key : Nat) (id : ObjectId) (message : MessageData)
    (now : Int) : Channel lib :=
  match MessageStorage.insert channel.messages id (.ofMessage message myKeyId key 0 now) .pending with
  | .ok (messages, _) => { channel with messages }
  | .error _ => channel

/-- The messages of a record are confirmed in one transaction; a failed one is undone, but the counted index stays. -/
def onDataChange (channel : Channel lib) (readMessage : Octets → Except Error (Option MessageData)) (key : Nat)
    (now : Int) : Channel lib :=
  match handleMessages readMessage now .inSync (channel.changesOf key) channel.messages with
  | (messages, none) => { channel with messages }
  | (messages, some _) =>
      { channel with messages := { channel.messages with syncMaxIndex := messages.syncMaxIndex } }

def onRecordRejected (channel : Channel lib) (key : Nat) : Channel lib :=
  { channel with
    messages := (channel.changesOf key).foldl
      (fun messages change => (messages.removePending change.data.id).1) channel.messages }

def reopen (channel : Channel lib) (readMessage : Octets → Except Error (Option MessageData)) (now : Int) :
    Channel lib × Option Error :=
  let (messages, thrown) :=
    syncMessageStorage readMessage now channel.messages.reopen channel.records channel.keys
  ({ channel with messages }, thrown)

def step (readMessage : Octets → Except Error (Option MessageData)) (myKeyId : PublicKeyId) (channel : Channel lib) :
    ChannelEvent lib → Channel lib
  | .create block state => channel.writeRecords (channel.records.create block state)
  | .setState key state id parentHash => channel.writeRecords (channel.records.setState key state id parentHash)
  | .setRecord key block => channel.writeRecords (channel.records.setRecord key block)
  | .truncateFrom firstRemoved => channel.writeRecords (.ok (channel.records.truncateFrom firstRemoved))
  | .truncatePrefix firstKept retained =>
      channel.writeRecords ((channel.records.truncatePrefix firstKept retained).map Prod.fst)
  | .insertKey key => { channel with keys := channel.keys.insert key }
  | .sent key id message now => channel.sendMessage myKeyId key id message now
  | .dataChanged key now => channel.onDataChange readMessage key now
  | .rejected key => channel.onRecordRejected key
  | .reopen now => (channel.reopen readMessage now).1

end Channel

end SpSync
