/-
This file computes the chunks of a data descriptor in the unsigned numbers of the source.
-/

import SpSync.Construction.Core.SyncMode

namespace SpSync

/-- A data descriptor with the sizes as they come from the wire. -/
structure WireDescriptor where
  encSize : UInt64
  chunkSize : UInt32
  manifestDigest : Octets
deriving DecidableEq, Repr

namespace WireDescriptor

variable (lib : Securepath) (descriptor : WireDescriptor)

def toDataDescriptor : DataDescriptor :=
  ⟨descriptor.encSize.toNat, descriptor.chunkSize.toNat, descriptor.manifestDigest⟩

def chunkTagSize : UInt64 :=
  UInt64.ofNat lib.aesGcmTagSize

def perChunk : UInt64 :=
  descriptor.chunkSize.toUInt64 + chunkTagSize lib

def chunkCount : UInt64 :=
  if descriptor.chunkSize ≠ 0 then
    descriptor.encSize / descriptor.perChunk lib +
      if descriptor.encSize % descriptor.perChunk lib ≠ 0 then 1 else 0
  else 0

def chunkEncSize (chunkNo : UInt64) : UInt64 :=
  if chunkNo < descriptor.chunkCount lib then
    min (descriptor.perChunk lib) (descriptor.encSize - chunkNo * descriptor.perChunk lib)
  else 0

/-- The values come from the wire, so the end of the range is not added up. -/
def chunkHoldsRange (chunkNo offset size : UInt64) : Bool :=
  let chunk := descriptor.chunkEncSize lib chunkNo
  offset ≤ chunk && size ≤ chunk - offset

def usable : Bool :=
  let chunks := descriptor.chunkCount lib
  descriptor.manifestDigest ≠ [] && 1 ≤ chunks && chunks ≤ UInt64.ofNat maxDataChunks &&
    chunkTagSize lib < descriptor.chunkEncSize lib (chunks - 1)

end WireDescriptor

end SpSync
