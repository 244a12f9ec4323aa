/-
This file holds the encryption keys of a storage.
-/

import Mathlib.Data.List.Sort
import SpSync.Construction.Core.Records

namespace SpSync

structure KeyStorage where
  keys : List EncryptionKey := []
deriving DecidableEq, Repr

namespace KeyStorage

/-- The order of two serialised keys of one sequence without trailing data: the shorter key first, then by octets. -/
def precedes (left right : EncryptionKey) : Bool :=
  left.key.length < right.key.length || (left.key.length = right.key.length && left.key ≤ right.key)

def findAll (storage : KeyStorage) (sequence : SequenceNumber) : List EncryptionKey :=
  (storage.keys.filter fun key => key.keySeq = sequence).insertionSort fun left right => precedes left right

def find (storage : KeyStorage) (sequence : SequenceNumber) : Option EncryptionKey :=
  (storage.findAll sequence).head?

def lastSeq (storage : KeyStorage) : SequenceNumber :=
  storage.keys.foldl (fun highest key => max highest key.keySeq) 0

def currentKey (storage : KeyStorage) : Except Error EncryptionKey :=
  match storage.findAll storage.lastSeq with
  | key :: _ => .ok key
  | [] => .error ⟨.noEncryptionKeySet, ""⟩

def insert (storage : KeyStorage) (key : EncryptionKey) : KeyStorage :=
  if storage.keys.any fun stored => stored.keySeq = key.keySeq && stored.key = key.key then storage
  else ⟨storage.keys ++ [key]⟩

end KeyStorage

end SpSync
