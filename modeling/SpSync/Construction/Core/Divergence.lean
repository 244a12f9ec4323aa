/-
This file compares two views of one origin and plans what to pull from a peer.
-/

import SpSync.Construction.Core.Records

namespace SpSync

structure OriginHead where
  origin : PublicKeyId
  term : Nat := 0
  block : ChainBlockId
deriving DecidableEq, Repr

structure OriginSamples where
  origin : PublicKeyId
  blocks : List ChainBlockId
deriving DecidableEq, Repr

structure Divergence where
  lastCommon : SequenceNumber := 0
  firstDivergent : SequenceNumber := 0
deriving DecidableEq, Repr

def Divergence.diverged (divergence : Divergence) : Bool :=
  divergence.firstDivergent ≠ 0

structure PullRange where
  first : SequenceNumber := 0
  last : SequenceNumber := 0
deriving DecidableEq, Repr

def PullRange.wanted (range : PullRange) : Bool :=
  range.first ≠ 0

/-- The distances behind the head double, and the first sequence closes the list. -/
def sampleSequences (head : SequenceNumber) : List SequenceNumber :=
  if head = 0 then []
  else
    let spaced := head :: ((List.range 63).takeWhile fun shift => 1 <<< shift < head).map fun shift => head - 1 <<< shift
    if spaced.getLast? = some 1 then spaced else spaced ++ [1]

/-- The samples behind the head in unsigned numbers of 64 bits, for the shifts that are left of 63. -/
def samplesBehind64 (head : UInt64) : Nat → List UInt64
  | 0 => []
  | left + 1 =>
      let distance : UInt64 := 1 <<< UInt64.ofNat (62 - left)
      if distance < head then (head - distance) :: samplesBehind64 head left else []

def sampleSequences64 (head : UInt64) : List UInt64 :=
  if head = 0 then []
  else
    let spaced := head :: samplesBehind64 head 63
    if spaced.getLast? = some 1 then spaced else spaced ++ [1]

def compareSample (held : SequenceNumber → Octets) (result : Divergence) (sample : ChainBlockId) : Divergence :=
  let hash := if sample.sequence ≠ 0 then held sample.sequence else []
  if hash = [] then result
  else if hash = sample.hash then { result with lastCommon := max result.lastCommon sample.sequence }
  else if result.firstDivergent = 0 ∨ sample.sequence < result.firstDivergent then
    { result with firstDivergent := sample.sequence }
  else result

def findDivergence (samples : List ChainBlockId) (held : SequenceNumber → Octets) : Divergence :=
  samples.foldl (compareSample held) {}

def planPull (known peerHead : SequenceNumber) (divergence : Divergence) : PullRange :=
  let held := max known divergence.lastCommon
  if !divergence.diverged && peerHead ≠ 0 && held < peerHead then ⟨held + 1, peerHead⟩ else {}

/-- The sequences of a history stay below the 64 bits at which the code's addition wraps. -/
def planPush (known pushed : SequenceNumber) : PullRange :=
  let next := if known ≠ 0 then known + 1 else 1
  if next < pushed then ⟨next, pushed⟩ else {}

end SpSync
