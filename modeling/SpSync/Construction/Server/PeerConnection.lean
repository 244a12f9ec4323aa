/-
This file holds one connection between two record servers that replicate a storage: what they
announce, pull, push and ask.
-/

import SpSync.Construction.Server.Storage

namespace SpSync

structure PeerHeads where
  heads : List OriginHead
  samples : List OriginSamples
deriving DecidableEq, Repr

structure PullRecords where
  cid : Nat
  origin : PublicKeyId
  first : SequenceNumber
  last : SequenceNumber
deriving DecidableEq, Repr

structure ResponseEnvelopes (lib : Securepath) where
  cid : Nat
  origin : PublicKeyId := []
  requestedMax : SequenceNumber := 0
  originMax : SequenceNumber := 0
  envelopes : List lib.Envelope := []
  error : Option Error := none
deriving DecidableEq

inductive PeerPacket (lib : Securepath)
  | peerHeads (announced : PeerHeads)
  | pullRecords (request : PullRecords)
  | responseEnvelopes (answer : ResponseEnvelopes lib)
  | pushRecords (envelopes : List lib.Envelope)
  | requestKey (cid : Nat) (key : PublicKeyId)
  | responseKey (cid : Nat) (key : Option PublicKeyId)
  | notReplicating
deriving DecidableEq

structure PeerConnection where
  peerHeads : Option PeerHeads := none
  diverged : List PublicKeyId := []
  pulling : List PublicKeyId := []
  keyRequests : List (Nat × PublicKeyId) := []
  nextCid : Nat := 1
deriving DecidableEq, Repr

/-- A storage with the log of the records that it rejected for good, behind one connection and the
packets that the connection sends. -/
structure Endpoint (lib : Securepath) where
  storage : Storage lib
  rejected : List lib.Envelope
  connection : PeerConnection
  outgoing : List (PeerPacket lib) := []

/-- The rules refuse the record of an admitted envelope for good. -/
def Storage.rejectsForGood {lib : Securepath} (storage : Storage lib) (envelope : lib.Envelope) : Bool :=
  (storage.admitForeign envelope).2.isNone && envelope.origin ≠ storage.ownId &&
    (storage.sync.log.records.findTag envelope.block.tag).isNone &&
    match storage.sync.evaluateForeign envelope.block with
    | .ok ⟨some err, _⟩ => permanentRejection err
    | _ => false

namespace Endpoint

variable {lib : Securepath}

def sendPacket (endpoint : Endpoint lib) (packet : PeerPacket lib) : Endpoint lib :=
  { endpoint with outgoing := endpoint.outgoing ++ [packet] }

def sendOurHeads (endpoint : Endpoint lib) : Endpoint lib :=
  endpoint.sendPacket (.peerHeads ⟨endpoint.storage.announcedHeads, endpoint.storage.historySamples⟩)

def requestPull (endpoint : Endpoint lib) (origin : PublicKeyId) (first last : SequenceNumber) : Endpoint lib :=
  let connection := endpoint.connection
  let counted := { connection with nextCid := connection.nextCid + 1 }
  if origin ∈ connection.pulling then { endpoint with connection := counted }
  else { endpoint with connection := { counted with pulling := origin :: connection.pulling } }.sendPacket
    (.pullRecords ⟨connection.nextCid, origin, first, last⟩)

def noteDivergence (endpoint : Endpoint lib) (origin : PublicKeyId) (diverged : Bool) : Endpoint lib :=
  { endpoint with connection := { endpoint.connection with
      diverged := if diverged then endpoint.connection.diverged.insert origin
        else endpoint.connection.diverged.filter (· ≠ origin) } }

/-- An origin that the peer is ahead on is pulled after the newest record held of it, unless its
history parts from ours or it is condemned. -/
def pullOrigin (announced : PeerHeads) (endpoint : Endpoint lib) (head : OriginHead) : Endpoint lib :=
  let divergence := (announced.samples.find? fun samples => samples.origin = head.origin).elim {}
    endpoint.storage.findDivergence
  let noted := endpoint.noteDivergence head.origin divergence.diverged
  if endpoint.storage.condemned head.origin then noted
  else if divergence.diverged then
    noted.requestPull head.origin divergence.firstDivergent divergence.firstDivergent
  else if head.origin ≠ endpoint.storage.ownId then
    let plan := planPull (endpoint.storage.knownOriginSeq head.origin) head.block.sequence divergence
    if plan.wanted then noted.requestPull head.origin plan.first plan.last else noted
  else noted

def startPulls (endpoint : Endpoint lib) (announced : PeerHeads) : Endpoint lib :=
  if endpoint.storage.replication = .weak then announced.heads.foldl (pullOrigin announced) endpoint
  else endpoint

def resumePulls (endpoint : Endpoint lib) : Endpoint lib :=
  endpoint.connection.peerHeads.elim endpoint endpoint.startPulls

def requestSignerKey (endpoint : Endpoint lib) (id : PublicKeyId) : Endpoint lib :=
  let connection := endpoint.connection
  if connection.keyRequests.any fun request => request.2 = id then endpoint
  else { endpoint with connection := { connection with
      nextCid := connection.nextCid + 1
      keyRequests := connection.keyRequests ++ [(connection.nextCid, id)] } }.sendPacket
    (.requestKey connection.nextCid id)

def askForKey (endpoint : Endpoint lib) (envelope : lib.Envelope) (err : Error) : Endpoint lib :=
  if err.code = .unknownSigner then
    envelope.block.auth.signature.elim endpoint fun signature => endpoint.requestSignerKey signature.issuer
  else if err.code = .noSuchKey then endpoint.requestSignerKey envelope.origin
  else endpoint

/-- One envelope goes to the storage; a rejection for good is logged. -/
def applyEnvelope (endpoint : Endpoint lib) (envelope : lib.Envelope) : Endpoint lib × Option Error :=
  let (storage, err) := endpoint.storage.applyForeign envelope
  let rejected := if endpoint.storage.rejectsForGood envelope then endpoint.rejected ++ [envelope]
    else endpoint.rejected
  ({ endpoint with storage, rejected }, err)

def applyEnvelopes (endpoint : Endpoint lib) : List lib.Envelope → Endpoint lib
  | [] => endpoint
  | envelope :: rest =>
      match endpoint.applyEnvelope envelope with
      | (applied, none) => applied.applyEnvelopes rest
      | (applied, some err) => applied.askForKey envelope err

/-- The longest part of a push that follows what is held of its origins; the first envelope that is
further ahead is pulled instead. -/
def inOrder (endpoint : Endpoint lib) : List lib.Envelope → List lib.Envelope × Endpoint lib
  | [] => ([], endpoint)
  | envelope :: rest =>
      let plan := planPush (endpoint.storage.knownOriginSeq envelope.origin) envelope.block.sequence
      if plan.wanted then ([], endpoint.requestPull envelope.origin plan.first plan.last)
      else
        let (later, asked) := endpoint.inOrder rest
        (envelope :: later, asked)

def applyPushed (endpoint : Endpoint lib) (envelopes : List lib.Envelope) : Endpoint lib :=
  let (taken, asked) := endpoint.inOrder envelopes
  asked.applyEnvelopes taken

def servePull (endpoint : Endpoint lib) (request : PullRecords) : Endpoint lib :=
  if endpoint.storage.replication = .none then
    (endpoint.sendPacket .notReplicating).sendPacket
      (.responseEnvelopes { cid := request.cid, error := some ⟨.noSuchStorage, ""⟩ })
  else endpoint.sendPacket (.responseEnvelopes {
    cid := request.cid
    origin := request.origin
    requestedMax := request.last
    originMax := endpoint.storage.knownOriginSeq request.origin
    envelopes := endpoint.storage.getEnvelopesByOrigin request.origin request.first request.last })

/-- The pull goes on while the peer holds more of the origin and the batch made progress. -/
def takeAnswer (endpoint : Endpoint lib) (answer : ResponseEnvelopes lib) : Endpoint lib :=
  let answered := { endpoint with connection := { endpoint.connection with
    pulling := endpoint.connection.pulling.filter (· ≠ answer.origin) } }
  if answer.error.isSome then answered
  else
    let applied := answered.applyEnvelopes answer.envelopes
    let known := applied.storage.knownOriginSeq answer.origin
    let progressed := answer.envelopes.getLast?.any fun envelope => envelope.block.sequence ≤ known
    if progressed && !applied.storage.condemned answer.origin && answer.originMax ≠ 0 && known < answer.originMax then
      applied.requestPull answer.origin (known + 1) answer.originMax
    else applied

def learnSignerKey (endpoint : Endpoint lib) (key : PublicKeyId) : Endpoint lib :=
  let storage := endpoint.storage
  { endpoint with storage := { storage with sync := { storage.sync with
      keys := storage.sync.keys.map fun keys => keys.insert key } } }

def takeKey (endpoint : Endpoint lib) (cid : Nat) (key : Option PublicKeyId) : Endpoint lib :=
  match endpoint.connection.keyRequests.find? fun request => request.1 = cid with
  | none => endpoint
  | some (_, asked) =>
      let answered := { endpoint with connection := { endpoint.connection with
        keyRequests := endpoint.connection.keyRequests.filter fun request => request.1 ≠ cid } }
      if key = some asked then (answered.learnSignerKey asked).resumePulls else answered

def handle (endpoint : Endpoint lib) : PeerPacket lib → Endpoint lib
  | .peerHeads announced =>
      { endpoint with connection := { endpoint.connection with peerHeads := some announced } }.startPulls announced
  | .pullRecords request => endpoint.servePull request
  | .responseEnvelopes answer => endpoint.takeAnswer answer
  | .pushRecords envelopes =>
      if endpoint.storage.replication = .none then endpoint.sendPacket .notReplicating
      else endpoint.applyPushed envelopes
  | .requestKey cid key =>
      endpoint.sendPacket (.responseKey cid (endpoint.storage.sync.keys.bind fun keys => keys.find? (· = key)))
  | .responseKey cid key => endpoint.takeKey cid key
  | .notReplicating => endpoint

end Endpoint

end SpSync
