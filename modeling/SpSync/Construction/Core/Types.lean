/-
This file fixes the octet strings and identifiers that every part of the repository shares.
-/

import Mathlib.Algebra.GroupWithZero.Nat
import Mathlib.Data.List.Lex
import Mathlib.Order.Fin.Basic

namespace SpSync

abbrev Octet := Fin 256

instance octetNeZero : NeZero 256 := ⟨by decide⟩

/-- An octet vector compares octet by octet, as the identifiers and tags do. -/
abbrev Octets := List Octet

instance octetsDecidableMem (value : Octets) (values : List Octets) : Decidable (value ∈ values) :=
  inferInstance

abbrev RecordTag := Octets

abbrev PublicKeyId := Octets

abbrev ObjectId := Octets

abbrev SequenceNumber := Nat

namespace SequenceNumber

def limit : Nat := 18446744073709551616

/-- Sequence arithmetic wraps around at 64 bits. -/
def next (sequence : SequenceNumber) : SequenceNumber :=
  (sequence + 1) % limit

def previous (sequence : SequenceNumber) : SequenceNumber :=
  (sequence + (limit - 1)) % limit

end SequenceNumber

abbrev UserId := PublicKeyId

abbrev AccessType := BitVec 32

namespace AccessType

def noAccess : AccessType := 0x0

def dataReadAccess : AccessType := 0x1

def dataWriteAccess : AccessType := 0x2

def userManagementAccess : AccessType := 0x4

def dataAccess : AccessType := dataReadAccess ||| dataWriteAccess

def allAccess : AccessType := dataAccess ||| userManagementAccess

end AccessType

structure UserAccess where
  user : UserId
  access : AccessType
deriving DecidableEq, Repr

inductive UsersChangeMode
  | full
  | delta
deriving DecidableEq, Repr

structure Users where
  mode : UsersChangeMode := .full
  access : List UserAccess := []
deriving DecidableEq, Repr

end SpSync
