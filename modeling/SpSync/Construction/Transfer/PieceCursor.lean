/-
This file says which piece of a data is transferred next.
-/

import SpSync.Construction.Core.WireDescriptor

namespace SpSync

structure PieceRange where
  chunkNo : UInt64
  offset : UInt64
  size : UInt32
deriving DecidableEq, Repr

/-- Where the transfer of a data is. -/
structure PieceCursor where
  descriptor : WireDescriptor
  pending : List UInt64 := []
  current : Option UInt64 := none
  offset : UInt64 := 0
deriving DecidableEq, Repr

namespace PieceCursor

def new (descriptor : WireDescriptor) : PieceCursor :=
  { descriptor }

def add (cursor : PieceCursor) (chunkNo : UInt64) : PieceCursor :=
  { cursor with pending := cursor.pending ++ [chunkNo] }

def done (cursor : PieceCursor) : Bool :=
  cursor.pending.isEmpty && cursor.current.isNone

def begin (cursor : PieceCursor) : PieceCursor :=
  match cursor.current, cursor.pending with
  | none, chunkNo :: pending => { cursor with current := some chunkNo, pending, offset := 0 }
  | _, _ => cursor

/-- The next piece of at most so many octets, and of at least one. -/
def next (lib : Securepath) (cursor : PieceCursor) (pieceSize : UInt32) : PieceCursor × Option PieceRange :=
  let cursor := cursor.begin
  match cursor.current with
  | some chunkNo =>
      let chunk := cursor.descriptor.chunkEncSize lib chunkNo
      let size := (min (max pieceSize 1).toUInt64 (chunk - cursor.offset)).toUInt32
      let offset := cursor.offset + size.toUInt64
      ({ cursor with offset, current := if chunk ≤ offset then none else some chunkNo },
        some ⟨chunkNo, cursor.offset, size⟩)
  | none => (cursor, none)

end PieceCursor

inductive CursorCall
  | add (chunkNo : UInt64)
  | next (pieceSize : UInt32)
deriving DecidableEq, Repr

namespace CursorCall

def added : List CursorCall → List UInt64
  | [] => []
  | .add chunkNo :: calls => chunkNo :: added calls
  | .next _ :: calls => added calls

def run (lib : Securepath) : PieceCursor → List CursorCall → PieceCursor × List (UInt32 × PieceRange)
  | cursor, [] => (cursor, [])
  | cursor, .add chunkNo :: calls => run lib (cursor.add chunkNo) calls
  | cursor, .next pieceSize :: calls =>
      let (after, piece) := cursor.next lib pieceSize
      let (last, taken) := run lib after calls
      (last, match piece with
        | some piece => (pieceSize, piece) :: taken
        | none => taken)

end CursorCall

end SpSync
