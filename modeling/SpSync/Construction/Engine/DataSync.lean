/-
This file holds the transfers of record data that a client engine asks of its connection.
-/

import SpSync.Construction.Core.RecordDataStore
import SpSync.Foundation.Dictionary

namespace SpSync

open Foundation

inductive Direction
  | upload
  | download
deriving DecidableEq

def Direction.wanted : Direction → RecordDataState
  | .upload => .uploadPending
  | .download => .downloadPending

inductive TransferError
  | dataPruned
  | dataNotHeld
  | unknownData
  | incomplete
  | other
deriving DecidableEq

/-- The handle of a request: the counter that all requests of a connection share has 32 bits. -/
def handleOf (call : Nat) : UInt32 :=
  .ofNat call

inductive CommEvent
  | connected
  | disconnected
  | transferred (direction : Direction) (call : Nat) (error : Option TransferError)
  | dataAvailable (id : Octets) (complete : Bool)
deriving DecidableEq

inductive DataNotice
  | stateChanged (id : Octets) (state : RecordDataState)
  | transferFailed (id : Octets) (error : TransferError)
deriving DecidableEq

/-- The record data half of an engine with its connection. The requests are numbered; the code knows only their
handles. -/
structure DataSync (lib : Securepath) where
  store : RecordDataStore lib
  /-- The data that the records confirmed by the server name, in the order of the records. -/
  confirmed : List Octets := []
  autoFetchMaxSize : Nat := 0
  /-- What the engine waits for, by its requests. -/
  onTheirWay : Direction → List (Nat × Octets) := fun _ => []
  /-- What was refused during the connection. -/
  refused : Direction → List Octets := fun _ => []
  notices : List DataNotice := []
  /-- The transfers of the connection, and its events that the engine has not handled. -/
  running : Direction → List (Octets × Nat) := fun _ => []
  callId : Nat := 0
  events : List CommEvent := []

namespace DataSync

variable {lib : Securepath}

def stateOf (sync : DataSync lib) (id : Octets) : Option RecordDataState :=
  (sync.store.table.find id).map DataRow.state

def confirmedDataInState (sync : DataSync lib) (state : RecordDataState) : List Octets :=
  sync.confirmed.filter fun id => sync.stateOf id = some state

def tell (sync : DataSync lib) (notice : DataNotice) : DataSync lib :=
  { sync with notices := sync.notices ++ [notice] }

def emit (sync : DataSync lib) (event : CommEvent) : DataSync lib :=
  { sync with events := sync.events ++ [event] }

/-- The transfers, the last request and the request of the data's transfer, which may run already. -/
def startTransfer (running : List (Octets × Nat)) (callId : Nat) (id : Octets) : List (Octets × Nat) × Nat × Nat :=
  match Dictionary.find running id with
  | some call => (running, callId, call)
  | none => (running ++ [(id, callId + 1)], callId + 1, callId + 1)

def eraseHandle (waiting : List (Nat × Octets)) (handle : UInt32) : List (Nat × Octets) :=
  waiting.filter fun entry => handleOf entry.1 ≠ handle

def requestTransfer (direction : Direction) (sync : DataSync lib) (id : Octets) : DataSync lib :=
  if id ∈ (sync.onTheirWay direction).map Prod.snd ∨ id ∈ sync.refused direction then sync
  else
    let (running, callId, call) := startTransfer (sync.running direction) sync.callId id
    let waiting := (call, id) :: eraseHandle (sync.onTheirWay direction) (handleOf call)
    { sync with
      callId
      running := Function.update sync.running direction running
      onTheirWay := Function.update sync.onTheirWay direction waiting }

def requestTransfersOf (sync : DataSync lib) (direction : Direction) : DataSync lib :=
  (sync.confirmedDataInState direction.wanted).foldl (requestTransfer direction) sync

def setState (sync : DataSync lib) (id : Octets) (state : RecordDataState) : DataSync lib :=
  { sync with store := sync.store.setState id state }.tell (.stateChanged id state)

def prune (sync : DataSync lib) (id : Octets) : DataSync lib :=
  { sync with store := (sync.store.prune id).1 }.tell (.stateChanged id .pruned)

def markAutoFetch (sync : DataSync lib) : DataSync lib :=
  if sync.autoFetchMaxSize = 0 then sync
  else (sync.confirmedDataInState .deferred).foldl (fun sync id =>
    if (sync.store.table.find id).any (fun row => row.descriptor.encSize ≤ sync.autoFetchMaxSize) &&
        id ∉ sync.refused .download then sync.setState id .downloadPending
    else sync) sync

def requestTransfers (sync : DataSync lib) : DataSync lib :=
  (sync.requestTransfersOf .upload).markAutoFetch.requestTransfersOf .download

def onConnected (sync : DataSync lib) : DataSync lib :=
  { sync with onTheirWay := fun _ => [], refused := fun _ => [] }

def onDisconnected (sync : DataSync lib) : DataSync lib :=
  { sync with onTheirWay := fun _ => [] }

def onDataPruned (sync : DataSync lib) (id : Octets) (error : TransferError) : DataSync lib :=
  (if (sync.stateOf id).any fun state => state ≠ .inSync then sync.prune id else sync).tell (.transferFailed id error)

def refuse (sync : DataSync lib) (direction : Direction) (id : Octets) (error : TransferError) : DataSync lib :=
  { sync with refused := Function.update sync.refused direction ((sync.refused direction).insert id) }.tell
    (.transferFailed id error)

/-- The store completes a data with its last chunk; one that the server does not know waits until somebody asks. -/
def endTransfer (sync : DataSync lib) (id : Octets) : Direction → Option TransferError → DataSync lib
  | _, some .dataPruned => sync.onDataPruned id .dataPruned
  | .upload, some error => sync.refuse .upload id error
  | .upload, none => if sync.stateOf id = some .uploadPending then sync.setState id .inSync else sync
  | .download, some .dataNotHeld => sync.setState id .remoteNotComplete
  | .download, some .unknownData => (sync.setState id .deferred).refuse .download id .unknownData
  | .download, some error => sync.refuse .download id error
  | .download, none =>
      if sync.stateOf id = some .inSync then sync.tell (.stateChanged id .inSync)
      else sync.refuse .download id .incomplete

def onAnswer (sync : DataSync lib) (direction : Direction) (handle : UInt32) (error : Option TransferError) :
    DataSync lib :=
  match (sync.onTheirWay direction).find? fun entry => handleOf entry.1 = handle with
  | none => sync
  | some (_, id) =>
      { sync with
        onTheirWay := Function.update sync.onTheirWay direction
          (eraseHandle (sync.onTheirWay direction) handle) }.endTransfer id direction error

def unrefuse (sync : DataSync lib) (id : Octets) : DataSync lib :=
  { sync with
    refused := Function.update sync.refused .download ((sync.refused .download).filter fun other => other ≠ id) }

def onDataAnnounced (sync : DataSync lib) (id : Octets) : DataSync lib :=
  let sync := if sync.stateOf id = some .remoteNotComplete then sync.setState id .downloadPending else sync
  (sync.unrefuse id).requestTransfersOf .download

def wantData (sync : DataSync lib) (id : Octets) : DataSync lib × Bool :=
  let fetchable := (sync.stateOf id).any fun state =>
    state = .deferred || state = .removed || state = .remoteNotComplete || state = .pruned
  ((if fetchable then sync.setState id .downloadPending else sync).unrefuse id,
    fetchable || sync.stateOf id = some .downloadPending)

def fetchChangeData (sync : DataSync lib) (id : Octets) : DataSync lib :=
  let (sync, wanted) := sync.wantData id
  if wanted then sync.requestTransfersOf .download else sync

def inTransfer (state : RecordDataState) : Bool :=
  state = .uploadPending || state = .downloadPending || state = .remoteNotComplete

def pruneSuperseded (sync : DataSync lib) (superseded : List Octets) : DataSync lib :=
  superseded.foldl (fun sync id =>
    if (sync.stateOf id).any fun state => !inTransfer state then sync.prune id else sync) sync

def sweep (sync : DataSync lib) (unreferenced : List Octets) : DataSync lib :=
  { sync with store := (sync.store.remove unreferenced).1 }

/-- The engine handles an event of its connection, whose threads may overtake each other before they emit. -/
def handle (sync : DataSync lib) (place : Nat) : DataSync lib :=
  let rest := { sync with events := sync.events.eraseIdx place }
  match sync.events[place]? with
  | none => sync
  | some .connected => rest.onConnected
  | some .disconnected => rest.onDisconnected
  | some (.transferred direction call error) => rest.onAnswer direction (handleOf call) error
  | some (.dataAvailable id complete) => if complete then rest.onDataAnnounced id else rest

def transferDone (sync : DataSync lib) (direction : Direction) (id : Octets) (error : Option TransferError) :
    DataSync lib :=
  match Dictionary.find (sync.running direction) id with
  | none => sync
  | some call =>
      { sync with
        running := Function.update sync.running direction (Dictionary.erase (sync.running direction) id) }.emit
        (.transferred direction call error)

def disconnect (sync : DataSync lib) : DataSync lib :=
  { sync with running := fun _ => [] }.emit .disconnected

/-- What the engine, its connection, the records and the chunks do, each under its lock; a request for something
else is called. -/
inductive DataStep (lib : Securepath)
  | handle (place : Nat)
  | requestTransfers
  | called
  | fetchChangeData (id : Octets)
  | pruneSuperseded (superseded : List Octets)
  | sweep (unreferenced : List Octets)
  | moved (store : RecordDataStore lib) (confirmed : List Octets)
  | transferDone (direction : Direction) (id : Octets) (error : Option TransferError)
  | announced (id : Octets) (complete : Bool)
  | connect
  | disconnect

def step (sync : DataSync lib) : DataStep lib → DataSync lib
  | .handle place => sync.handle place
  | .requestTransfers => sync.requestTransfers
  | .called => { sync with callId := sync.callId + 1 }
  | .fetchChangeData id => sync.fetchChangeData id
  | .pruneSuperseded superseded => sync.pruneSuperseded superseded
  | .sweep unreferenced => sync.sweep unreferenced
  | .moved store confirmed => { sync with store, confirmed }
  | .transferDone direction id error => sync.transferDone direction id error
  | .announced id complete => sync.emit (.dataAvailable id complete)
  | .connect => sync.emit .connected
  | .disconnect => sync.disconnect

end DataSync

end SpSync
