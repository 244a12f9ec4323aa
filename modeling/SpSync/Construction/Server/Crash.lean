/-
This file holds the database writes of the calls on a storage, in their order, and what a crash
between two of them leaves.
-/

import SpSync.Construction.Server.HistoryCut

namespace SpSync.Storage

variable {lib : Securepath}

/-- The record row is written in one transaction, its signed assignment in a second statement. -/
def commitWrites (storage : Storage lib) (block : lib.Block) : List (Storage lib) :=
  match storage.sync.commitBlock block with
  | (_, .error _) => []
  | (sync, .ok placed) =>
      { storage with sync } ::
        match storage.makeEnvelope placed with
        | none => []
        | some envelope =>
            match sync.log.storeAssignment placed.tag envelope with
            | .error _ => []
            | .ok log => [{ storage with sync := { sync with log } }]

def advanceWrites (storage : Storage lib) (head : OriginHead) : List (Storage lib) :=
  match storage.heads.advance head with
  | .error _ => []
  | .ok heads => [{ storage with heads }]

/-- The record row is written first, then the head of the origin, then the origin's assignment. -/
def admittedWrites (storage : Storage lib) (envelope : lib.Envelope) : List (Storage lib) :=
  let block := envelope.block
  let head : OriginHead := ⟨envelope.origin, envelope.term, lib.blockId block⟩
  if envelope.origin = storage.ownId then []
  else if (storage.sync.log.records.findTag block.tag).isSome then storage.advanceWrites head
  else
    match storage.sync.commitForeign block with
    | (sync, .error err) => if foreignRecordSkipped err then { storage with sync }.advanceWrites head else []
    | (sync, .ok _) =>
        { storage with sync } ::
          match storage.heads.advance head with
          | .error _ => []
          | .ok heads =>
              { storage with sync, heads } ::
                match sync.log.storeAssignment block.tag envelope with
                | .error _ => []
                | .ok log => [{ storage with sync := { sync with log }, heads }]

def applyWrites (storage : Storage lib) (envelope : lib.Envelope) : List (Storage lib) :=
  match storage.admitForeign envelope with
  | (admitted, some _) => [admitted]
  | (admitted, none) => admitted.admittedWrites envelope

def afterWrites (storage : Storage lib) (writes : List (Storage lib)) (count : Nat) : Storage lib :=
  (writes.take count).getLast?.getD storage

/-- The server crashes after the first writes of a call and opens the storage again. -/
def crash (storage : Storage lib) (writes : List (Storage lib)) (count : Nat) : Storage lib :=
  (storage.afterWrites writes count).reopen storage.sync.keys

end SpSync.Storage
