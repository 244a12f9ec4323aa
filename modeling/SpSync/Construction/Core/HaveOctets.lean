/-
This file models the octets in which the held chunks of a data are stored and told to a peer.
-/

import SpSync.Construction.Core.HeaderPadding

namespace SpSync

/-- One bit per chunk; chunk 0 is the lowest bit of the first octet. -/
structure HaveOctets where
  bits : List (BitVec 8)
  chunkCount : Nat
deriving DecidableEq, Repr

namespace HaveOctets

def octetCount (chunkCount : Nat) : Nat :=
  (chunkCount + 7) % uint64Limit / 8

def ofCount (chunkCount : Nat) : HaveOctets where
  bits := List.replicate (octetCount chunkCount) 0
  chunkCount := chunkCount

def normalise (bitmap : HaveOctets) : HaveOctets :=
  let size := octetCount bitmap.chunkCount
  let resized := (bitmap.bits ++ List.replicate size 0).take size
  let used := bitmap.chunkCount % 8
  { bitmap with
    bits :=
      if used ≠ 0 then resized.modify (size - 1) fun octet => octet &&& BitVec.ofNat 8 (2 ^ used - 1) else resized }

def ofOctets (chunkCount : Nat) (octets : List (BitVec 8)) : HaveOctets :=
  normalise { bits := octets, chunkCount := chunkCount }

def test (bitmap : HaveOctets) (chunkNo : Nat) : Bool :=
  decide (chunkNo < bitmap.chunkCount) &&
    decide (bitmap.bits.getD (chunkNo / 8) 0 &&& (1#8 <<< (chunkNo % 8)) ≠ 0)

def set (bitmap : HaveOctets) (chunkNo : Nat) (held : Bool) : HaveOctets :=
  if chunkNo < bitmap.chunkCount then
    { bitmap with
      bits := bitmap.bits.modify (chunkNo / 8) fun octet =>
        if held then octet ||| (1#8 <<< (chunkNo % 8)) else octet &&& ~~~(1#8 <<< (chunkNo % 8)) }
  else
    bitmap

def setAll (bitmap : HaveOctets) : HaveOctets :=
  normalise { bitmap with bits := bitmap.bits.map fun _ => 255#8 }

def clear (bitmap : HaveOctets) : HaveOctets :=
  { bitmap with bits := bitmap.bits.map fun _ => 0#8 }

def count (bitmap : HaveOctets) : Nat :=
  bitmap.bits.foldl (fun sum octet => (sum + octet.cpop.toNat) % uint64Limit) 0

def complete (bitmap : HaveOctets) : Bool :=
  decide (bitmap.count = bitmap.chunkCount)

/-- The loop over the held chunks; it makes at most as many turns as there are chunks left. -/
def skipHeld (bitmap : HaveOctets) : Nat → Nat → Nat
  | 0, chunkNo => chunkNo
  | left + 1, chunkNo =>
      if decide (chunkNo < bitmap.chunkCount) && bitmap.test chunkNo then
        bitmap.skipHeld left (chunkNo + 1)
      else
        chunkNo

def firstMissing (bitmap : HaveOctets) (start : Nat) : Nat :=
  bitmap.skipHeld (bitmap.chunkCount - min start bitmap.chunkCount) (min start bitmap.chunkCount)

inductive Change where
  | set (chunkNo : Nat) (held : Bool)
  | setAll
  | clear
deriving DecidableEq, Repr

def apply (bitmap : HaveOctets) : Change → HaveOctets
  | .set chunkNo held => bitmap.set chunkNo held
  | .setAll => bitmap.setAll
  | .clear => bitmap.clear

end HaveOctets

end SpSync
