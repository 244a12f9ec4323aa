/-
This file folds the user changes of a storage into its members.
-/

import Mathlib.Data.List.AList
import Mathlib.Data.List.Sort
import SpSync.Construction.Core.Types

namespace SpSync.UserMerge

structure UserChangeEntry where
  change : Users
  tag : RecordTag
  parentSpecial : RecordTag
deriving DecidableEq, Repr

/-- The map from the tag of each special record to the tag of the special record it saw last. -/
structure ParentMap where
  entries : List (RecordTag × RecordTag)
  distinctKeys : (entries.map Prod.fst).Nodup

namespace ParentMap

def size (map : ParentMap) : Nat :=
  map.entries.length

def find (map : ParentMap) (tag : RecordTag) : Option RecordTag :=
  map.entries.lookup tag

def parent (map : ParentMap) (tag : RecordTag) : RecordTag :=
  (map.find tag).getD []

end ParentMap

/-- The walk up the special tree while the guard lasts. -/
def sawFrom (map : ParentMap) (ancestor : RecordTag) : Nat → RecordTag → Bool
  | 0, _ => false
  | guard + 1, step =>
      if step = [] then false
      else if step = ancestor then true
      else sawFrom map ancestor guard (map.parent step)

def saw (ancestor fromParent : RecordTag) (map : ParentMap) : Bool :=
  sawFrom map ancestor (map.size + 1) fromParent

structure MemberState where
  access : UserAccess
  tag : RecordTag
  parentSpecial : RecordTag
deriving DecidableEq, Repr

structure Removal where
  tag : RecordTag
  parentSpecial : RecordTag
deriving DecidableEq, Repr

structure FoldState where
  members : AList fun _ : PublicKeyId => MemberState := ∅
  removals : AList fun _ : PublicKeyId => List Removal := ∅

def applyRemoval (map : ParentMap) (kid : PublicKeyId) (entry : UserChangeEntry)
    (state : FoldState) : FoldState :=
  let members := match state.members.lookup kid with
    | some member => if saw entry.tag member.parentSpecial map then state.members else state.members.erase kid
    | none => state.members
  { members
    removals := state.removals.insert kid
      ((state.removals.lookup kid).getD [] ++ [⟨entry.tag, entry.parentSpecial⟩]) }

def defeated (map : ParentMap) (removals : List Removal) (entry : UserChangeEntry) : Bool :=
  removals.any fun removal => !saw removal.tag entry.parentSpecial map

def wins (map : ParentMap) (member : MemberState) (entry : UserChangeEntry) : Bool :=
  if saw member.tag entry.parentSpecial map then true
  else if !saw entry.tag member.parentSpecial map then decide (entry.tag < member.tag)
  else false

/-- An update that no removal defeats becomes the member when it wins against the current one. -/
def applyUpdate (map : ParentMap) (kid : PublicKeyId) (access : UserAccess) (entry : UserChangeEntry)
    (state : FoldState) : FoldState :=
  if defeated map ((state.removals.lookup kid).getD []) entry then state
  else
    let winner := match state.members.lookup kid with
      | none => true
      | some member => wins map member entry
    if winner then
      { state with members := state.members.insert kid ⟨access, entry.tag, entry.parentSpecial⟩ }
    else state

def applyAccess (map : ParentMap) (entry : UserChangeEntry) (state : FoldState)
    (access : UserAccess) : FoldState :=
  if access.access = AccessType.noAccess then applyRemoval map access.user entry state
  else applyUpdate map access.user access entry state

/-- A full change subsumes everything before it; then its access rights apply in turn. -/
def applyEntry (map : ParentMap) (state : FoldState) (entry : UserChangeEntry) : FoldState :=
  entry.change.access.foldl (applyAccess map entry)
    (if entry.change.mode = .full then {} else state)

def foldEntries (map : ParentMap) (entries : List UserChangeEntry) : FoldState :=
  entries.foldl (applyEntry map) {}

def mergeUserChanges (entries : List UserChangeEntry) (map : ParentMap) : List UserAccess :=
  ((foldEntries map entries).members.entries.insertionSort fun left right => left.1 ≤ right.1).map
    fun member => member.2.access

end SpSync.UserMerge
