/-
This file holds what a record server knows of the data servers: who holds which data, in which order they are asked
for it, and which copies are missing.
-/

import Mathlib.Data.List.Sort
import SpSync.Construction.Core.Records
import SpSync.Foundation.Dictionary

namespace SpSync

open Foundation

structure DataEndpoint where
  host : String := ""
  port : Nat := 0
  key : PublicKeyId
  region : String := ""
  trailingData : Octets := []
deriving DecidableEq, Repr

structure DataHolding where
  holder : PublicKeyId
  haveChunks : Nat := 0
  totalChunks : Nat := 0
  complete : Bool := false
deriving DecidableEq, Repr

structure HolderLoad where
  storedBytes : Nat := 0
  uploadsInProgress : Nat := 0
deriving DecidableEq, Repr

abbrev DataKey := Octets × Octets

def DataKey.before (left right : DataKey) : Bool :=
  left.1 < right.1 || (left.1 = right.1 && left.2 < right.2)

/-- What the data servers announced. -/
structure DataAvailability where
  held : List (DataKey × List DataHolding) := []
  loads : List (PublicKeyId × HolderLoad) := []
deriving DecidableEq, Repr

def findHolder (holdings : List DataHolding) (holder : PublicKeyId) : Option DataHolding :=
  holdings.find? fun holding => holding.holder = holder

def putHolding (holding : DataHolding) : List DataHolding → List DataHolding
  | [] => [holding]
  | first :: rest => if first.holder = holding.holder then holding :: rest else first :: putHolding holding rest

namespace DataAvailability

def holdings (availability : DataAvailability) (sid id : Octets) : List DataHolding :=
  (Dictionary.find availability.held (sid, id)).getD []

def announce (availability : DataAvailability) (sid id : Octets) (holding : DataHolding) : DataAvailability × Bool :=
  let wasComplete := (findHolder (availability.holdings sid id) holding.holder).any DataHolding.complete
  ({ availability with held := Dictionary.change DataKey.before [] (sid, id) (putHolding holding) availability.held },
    holding.complete && !wasComplete)

def load (availability : DataAvailability) (holder : PublicKeyId) : HolderLoad :=
  (Dictionary.find availability.loads holder).getD {}

end DataAvailability

def holdsCompletely (holdings : List DataHolding) (holder : PublicKeyId) : Bool :=
  (findHolder holdings holder).any DataHolding.complete

section Placement

-- The hash of the library over octets.
variable (hash : Octets → Octets)

def placementWeight (endpoint : DataEndpoint) (id : Octets) : Octets :=
  hash (endpoint.key ++ id)

def uploadOrder (endpoints : List DataEndpoint) (id : Octets) : List DataEndpoint :=
  endpoints.insertionSort fun left right => ¬ placementWeight hash right id < placementWeight hash left id

/-- A data server with its class (complete, partial, unknown) and the measures of its class. -/
structure RankedEndpoint where
  endpoint : DataEndpoint
  rank : Nat := 2
  first : Nat := 0
  second : Nat := 0
deriving DecidableEq, Repr

def RankedEndpoint.less (left right : RankedEndpoint) : Bool :=
  left.rank < right.rank || (left.rank = right.rank &&
    (left.first < right.first || (left.first = right.first && left.second < right.second)))

def rankEndpoint (holdings : List DataHolding) (loads : DataAvailability) (endpoint : DataEndpoint) : RankedEndpoint :=
  match findHolder holdings endpoint.key with
  | none => { endpoint }
  | some holding =>
      if holding.complete then
        ⟨endpoint, 0, (loads.load endpoint.key).uploadsInProgress, (loads.load endpoint.key).storedBytes⟩
      else if holding.haveChunks ≠ 0 then
        ⟨endpoint, 1, holding.totalChunks - min holding.haveChunks holding.totalChunks, 0⟩
      else { endpoint }

/-- The sort is stable: equal ranks stay in the placement order. -/
def downloadOrder (endpoints : List DataEndpoint) (id : Octets) (holdings : List DataHolding)
    (loads : DataAvailability) : List DataEndpoint :=
  (((uploadOrder hash endpoints id).map (rankEndpoint holdings loads)).insertionSort
    fun left right => ¬ right.less left).map RankedEndpoint.endpoint

/-- The first servers of the placement order without a complete copy, once some server has one. -/
def missingCopies (endpoints : List DataEndpoint) (id : Octets) (holdings : List DataHolding) (copies : Nat) :
    List DataEndpoint :=
  if endpoints.any fun endpoint => holdsCompletely holdings endpoint.key then
    ((uploadOrder hash endpoints id).take copies).filter fun primary => !holdsCompletely holdings primary.key
  else []

end Placement

structure DataStanding where
  descriptor : Option DataDescriptor := none
  dead : Bool := false
deriving DecidableEq, Repr

structure ReplicationView where
  dataServers : List DataEndpoint
  availability : DataAvailability
  copies : Nat := 0
  reachable : PublicKeyId → Bool
  standing : Octets → Octets → DataStanding

structure ReplicationPlan where
  copies : List (PublicKeyId × List (Octets × List DataDescriptor)) := []
  stale : List (Octets × List Octets) := []
deriving DecidableEq, Repr

namespace ReplicationPlan

def empty (plan : ReplicationPlan) : Bool :=
  plan.copies.isEmpty && plan.stale.isEmpty

def addCopy (plan : ReplicationPlan) (target : PublicKeyId) (sid : Octets) (descriptor : DataDescriptor) :
    ReplicationPlan :=
  { plan with
    copies := Dictionary.change (fun left right => left < right) [] target
      (Dictionary.change (fun left right => left < right) [] sid (· ++ [descriptor])) plan.copies }

def addStale (plan : ReplicationPlan) (sid id : Octets) : ReplicationPlan :=
  { plan with stale := Dictionary.change (fun left right => left < right) [] sid (· ++ [id]) plan.stale }

end ReplicationPlan

/-- The storage is asked only about a data that somebody holds completely. -/
def planOne (hash : Octets → Octets) (view : ReplicationView) (plan : ReplicationPlan) (data : Octets × Octets) :
    ReplicationPlan :=
  let holdings := view.availability.holdings data.1 data.2
  if holdings.any DataHolding.complete then
    let standing := view.standing data.1 data.2
    if standing.dead then plan.addStale data.1 data.2
    else match standing.descriptor with
      | none => plan
      | some descriptor =>
          ((missingCopies hash view.dataServers data.2 holdings view.copies).filter fun target =>
            view.reachable target.key).foldl (fun plan target => plan.addCopy target.key data.1 descriptor) plan
  else plan

def planReplication (hash : Octets → Octets) (view : ReplicationView) (datas : List (Octets × Octets)) :
    ReplicationPlan :=
  datas.foldl (planOne hash view) {}

end SpSync
