/-
This file decides whether a pending record is rebuilt before it is committed.
-/

import SpSync.Construction.Core.SyncMode

namespace SpSync

structure RebaseState where
  mode : SyncMode
  type : RecordType
  hasAdds : Bool := false
  lastSeen : ChainBlockId
  head : ChainBlockId
  specialRef : RecordTag
  newestSpecial : RecordTag
  lastDataAdd : SequenceNumber
deriving DecidableEq, Repr

def RebaseState.specialBehind (state : RebaseState) : Bool :=
  state.mode.requiresSpecialSeen && state.newestSpecial ≠ [] && state.specialRef ≠ state.newestSpecial

def needsRebase (state : RebaseState) : Bool :=
  if state.mode = .requireAllSeen then state.lastSeen ≠ state.head
  else match state.type with
    | .segment => state.mode.requiresSpecialSeen && state.lastSeen ≠ state.head
    | .userChange => state.specialBehind
    | .dataChange =>
        if state.specialBehind then true
        else if state.mode = .requireDataAddRemoveSeen && state.hasAdds then
          state.lastDataAdd ≠ 0 && state.lastSeen.sequence < state.lastDataAdd
        else false

end SpSync
