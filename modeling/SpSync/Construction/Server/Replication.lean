/-
This file holds the servers that replicate one storage and the packets on the network between them.
-/

import SpSync.Construction.Server.PeerConnection

namespace SpSync

structure Transfer (lib : Securepath) where
  source : PublicKeyId
  target : PublicKeyId
  packet : PeerPacket lib
deriving DecidableEq

structure Server (lib : Securepath) where
  storage : Storage lib
  rejected : List lib.Envelope := []
  connections : PublicKeyId → PeerConnection := fun _ => {}

/-- The servers by key identifier, everything that was sent and everything that was delivered.
A packet that was sent can be delivered late, several times, out of order or never. -/
structure Network (lib : Securepath) where
  servers : PublicKeyId → Server lib
  sent : List (Transfer lib) := []
  delivered : List (Transfer lib) := []

namespace Network

variable {lib : Securepath}

/-- Every server created its copy of the storage, and nothing was sent yet. -/
def create (storages : PublicKeyId → Storage lib) : Network lib where
  servers server := { storage := storages server }

def storage (network : Network lib) (server : PublicKeyId) : Storage lib :=
  (network.servers server).storage

def setServer (network : Network lib) (server : PublicKeyId) (changed : Server lib) : Network lib :=
  { network with servers := fun other => if other = server then changed else network.servers other }

def setStorage (network : Network lib) (server : PublicKeyId) (storage : Storage lib) : Network lib :=
  network.setServer server { network.servers server with storage }

def send (network : Network lib) (source target : PublicKeyId) (packets : List (PeerPacket lib)) : Network lib :=
  { network with sent := network.sent ++ packets.map fun packet => ⟨source, target, packet⟩ }

def endpoint (network : Network lib) (server peer : PublicKeyId) : Endpoint lib :=
  let held := network.servers server
  { storage := held.storage, rejected := held.rejected, connection := held.connections peer }

def settle (network : Network lib) (server peer : PublicKeyId) (endpoint : Endpoint lib) : Network lib :=
  let held := network.servers server
  (network.setServer server {
    storage := endpoint.storage
    rejected := endpoint.rejected
    connections := fun other => if other = peer then endpoint.connection else held.connections other }).send
      server peer endpoint.outgoing

/-- What can happen: a client commits at a server that is connected to some peers, a server announces
its heads, a packet arrives, a connection is set up anew, or a server knows other keys. -/
inductive Event (lib : Securepath)
  | commit (server : PublicKeyId) (block : lib.Block) (connected : List PublicKeyId)
  | announce (server peer : PublicKeyId)
  | deliver (transfer : Transfer lib)
  | reconnect (server peer : PublicKeyId)
  | knowKeys (server : PublicKeyId) (keys : List PublicKeyId)

def commit (network : Network lib) (server : PublicKeyId) (block : lib.Block) (connected : List PublicKeyId) :
    Network lib :=
  match (network.storage server).commitBlock block with
  | (storage, .ok (_, some envelope)) =>
      let saved := network.setStorage server storage
      if storage.replication = .weak then
        connected.foldl (fun pushed peer => pushed.send server peer [.pushRecords [envelope]]) saved
      else saved
  | (storage, _) => network.setStorage server storage

def deliver (network : Network lib) (transfer : Transfer lib) : Network lib :=
  if transfer ∈ network.sent then
    { network with delivered := network.delivered ++ [transfer] }.settle transfer.target transfer.source
      ((network.endpoint transfer.target transfer.source).handle transfer.packet)
  else network

def step (network : Network lib) : Event lib → Network lib
  | .commit server block connected => network.commit server block connected
  | .announce server peer => network.settle server peer (network.endpoint server peer).sendOurHeads
  | .deliver transfer => network.deliver transfer
  | .reconnect server peer => network.settle server peer { network.endpoint server peer with connection := {} }
  | .knowKeys server keys =>
      let storage := network.storage server
      network.setStorage server { storage with sync := { storage.sync with keys := some keys } }

end Network

end SpSync
