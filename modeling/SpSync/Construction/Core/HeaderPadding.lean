/-
This file pads a serialised record header to its size class.
-/

import SpSync.Construction.Core.Types
import SpSync.Foundation.Encoding

namespace SpSync

open Foundation Encoding

def uint64Limit : Nat := 18446744073709551616

def minPaddedDataSize : Nat := 4096

def minPaddedHeaderSize : Nat := 256

def bitWidth (value : Nat) : Nat :=
  if value = 0 then 0 else value.log2 + 1

def lastBits (size : Nat) : Nat :=
  let exponent := bitWidth size - 1
  exponent - bitWidth exponent

/-- The size is rounded up to its class; the sum wraps around at 64 bits. -/
def paddedSize (size floor : Nat) : Nat :=
  if floor < size then
    let mask := (1 <<< lastBits size) - 1
    let sum := (size + mask) % uint64Limit
    sum - sum % (mask + 1)
  else floor

structure PaddedRecordHeader where
  header : Octets
  padding : Octets
  trailingData : Octets := []
deriving DecidableEq, Repr

namespace PaddedRecordHeader

def sequenceTag : Octet := octet 48

def octetStringTag : Octet := octet 4

/-- The fields in a sequence, each as an octet string; empty trailing data leave nothing. -/
def serialise (padded : PaddedRecordHeader) : Octets :=
  encode sequenceTag
    (encode octetStringTag padded.header ++ (encode octetStringTag padded.padding ++ padded.trailingData))

def readOctetString (octets : Octets) : Option (Octets × Octets) :=
  match readValue octets with
  | some (tag, content, rest) => if tag = [octetStringTag] then some (content, rest) else none
  | none => none

def deserialise (octets : Octets) : Option PaddedRecordHeader :=
  match readValue octets with
  | some (tag, fields, []) =>
      if tag = [sequenceTag] then do
        let (header, afterHeader) ← readOctetString fields
        let (padding, trailingData) ← readOctetString afterHeader
        return ⟨header, padding, trailingData⟩
      else none
  | _ => none

end PaddedRecordHeader

def headerPadding (size : Nat) : Nat :=
  (paddedSize size minPaddedHeaderSize + (uint64Limit - size)) % uint64Limit

def padRecordHeader (header : Octets) : Octets :=
  PaddedRecordHeader.serialise ⟨header, List.replicate (headerPadding header.length) (octet 0), []⟩

def unpadRecordHeader (plain : Octets) : Option Octets :=
  (PaddedRecordHeader.deserialise plain).map PaddedRecordHeader.header

end SpSync
