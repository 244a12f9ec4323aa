/-
This file holds the members table of a client and its rebuild from the records in sync.
-/

import SpSync.Construction.Core.RecordStorage
import SpSync.Construction.Core.UserMerge
import SpSync.Construction.Engine.RecordCrypto

namespace SpSync

def UserMerge.ParentMap.assign (map : ParentMap) (tag parent : RecordTag) : ParentMap where
  entries := (tag, parent) :: map.entries.filter fun entry => entry.1 ≠ tag
  distinctKeys := by
    rw [List.map_cons, List.nodup_cons]
    refine ⟨by simp, map.distinctKeys.sublist (List.Sublist.map Prod.fst List.filter_sublist)⟩

open UserMerge

variable {lib : Securepath}

def RecordStorage.findAllOfType (storage : RecordStorage lib) (type : RecordType) : List (Row lib) :=
  bySequence (storage.rows.filter fun row => row.state = .inSync && row.type = type)

def deserialiseSegment (lib : Securepath) (block : lib.Block) : Except Error (RecordBase × PlainSegmentData) :=
  match lib.deserialise block.record with
  | some ⟨base, .segment data, _⟩ => .ok (base, data)
  | _ => .error ⟨.invalidData, ""⟩

def deserialiseUserChange (lib : Securepath) (block : lib.Block) : Except Error (Record × PlainUserChangeData) :=
  match lib.deserialise block.record with
  | some ⟨base, .userChange data, headers⟩ => .ok (⟨base, .userChange data, headers⟩, data)
  | _ => .error ⟨.invalidData, ""⟩

structure UserHistory where
  entries : List UserChangeEntry := []
  parentSpecial : ParentMap := ⟨[], List.nodup_nil⟩

namespace UserHistory

def noteSegment (history : UserHistory) (row : Row lib) : Except Error UserHistory := do
  let (base, _) ← deserialiseSegment lib row.block
  return { history with parentSpecial := history.parentSpecial.assign row.block.tag base.lastSeenSpecialTag }

/-- A user change without a verifying key only counts as a special record. -/
def noteUserChange (keys : KeyStorage) (history : UserHistory) (row : Row lib) : Except Error UserHistory := do
  let (record, data) ← deserialiseUserChange lib row.block
  let parentSpecial := history.parentSpecial.assign row.block.tag record.base.lastSeenSpecialTag
  let entry : UserChangeEntry := ⟨data.access, row.block.tag, record.base.lastSeenSpecialTag⟩
  if (findRecordKey lib keys record row.block.auth).isSome then
    return ⟨history.entries ++ [entry], parentSpecial⟩
  else return { history with parentSpecial }

end UserHistory

/-- The segments and then the user changes are read in the order of their sequences. -/
def userHistory (keys : KeyStorage) (storage : RecordStorage lib) : Except Error UserHistory := do
  let history ← (storage.findAllOfType .segment).foldlM UserHistory.noteSegment {}
  (storage.findAllOfType .userChange).foldlM (UserHistory.noteUserChange keys) history

def derivedMembers (keys : KeyStorage) (storage : RecordStorage lib) : Except Error (List UserId) := do
  let history ← userHistory keys storage
  return (mergeUserChanges history.entries history.parentSpecial).map UserAccess.user

inductive MemberStatus
  | member
  | pendingAdd
  | pendingRemove
deriving DecidableEq, Repr

structure Member where
  user : UserId
  status : MemberStatus
deriving DecidableEq, Repr

def createMember (members : List Member) (user : UserId) (status : MemberStatus) : Except Error (List Member) :=
  if user = [] then .error ⟨.invalidData, "invalid user id"⟩
  else if members.any fun member => member.user = user then .error ⟨.databaseConstraint, ""⟩
  else .ok (members ++ [⟨user, status⟩])

def setMemberStatus (members : List Member) (user : UserId) (status : MemberStatus) : List Member :=
  members.map fun member => if member.user = user then { member with status } else member

def updateMember (members : List Member) (access : UserAccess) : Except Error (List Member) :=
  match members.find? fun member => member.user = access.user with
  | some member =>
      if access.access = AccessType.noAccess then .ok (setMemberStatus members access.user .pendingRemove)
      else if member.status = .pendingRemove then .ok (setMemberStatus members access.user .pendingAdd)
      else .ok members
  | none => if access.access ≠ AccessType.noAccess then createMember members access.user .pendingAdd else .ok members

def updateMembers (members : List Member) (users : Users) : Except Error (List Member) :=
  match users.mode with
  | .delta => users.access.foldlM updateMember members
  | .full => users.access.foldlM (fun members access => createMember members access.user .pendingAdd) []

def applyPending (keys : KeyStorage) (members : List Member) (row : Row lib) : Except Error (List Member) := do
  if row.type = .userChange then
    let (record, data) ← deserialiseUserChange lib row.block
    if (findRecordKey lib keys record row.block.auth).isSome then updateMembers members data.access
    else return members
  else return members

/-- The members table is rebuilt from the records in sync and the pending ones. -/
def recomputeMembers (keys : KeyStorage) (storage : RecordStorage lib) : Except Error (List Member) := do
  let users ← derivedMembers keys storage
  let members ← users.foldlM (fun members user => createMember members user .member) []
  (storage.rows.filter fun row => row.state = .pendingCommit).foldlM (applyPending keys) members

end SpSync
