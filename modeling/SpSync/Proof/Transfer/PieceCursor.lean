import SpSync.Construction.Transfer.PieceCursor
import SpSync.Foundation.Tiling
import SpSync.Proof.Core.DescriptorChunks

namespace SpSync

open Foundation Tiling

variable {lib : Securepath}

def PieceRange.toPiece (range : PieceRange) : Piece UInt64 :=
  ⟨range.chunkNo, range.offset.toNat, range.size.toNat⟩

namespace PieceCursor

variable {cursor : PieceCursor} {chunkNo offset : UInt64}

/-- The chunks that are left, the current one first. -/
def place (cursor : PieceCursor) : Place UInt64 :=
  match cursor.current with
  | some chunkNo => ⟨chunkNo :: cursor.pending, cursor.offset.toNat⟩
  | none => ⟨cursor.pending, 0⟩

/-- The chunks of the cursor are those of its data, and the current one is not through. -/
structure Ready (lib : Securepath) (cursor : PieceCursor) : Prop where
  known : ∀ chunkNo ∈ cursor.place.left, chunkNo < cursor.descriptor.chunkCount lib
  within : ∀ chunkNo, cursor.current = some chunkNo → cursor.offset < cursor.descriptor.chunkEncSize lib chunkNo

theorem done_iff : cursor.done = true ↔ cursor.place.left = [] := by
  unfold done place
  rw [Bool.and_eq_true, List.isEmpty_iff, Option.isNone_iff_eq_none]
  cases cursor.current with
  | none => exact and_iff_left rfl
  | some chunkNo => exact iff_of_false (fun both => Option.some_ne_none _ both.2) (List.cons_ne_nil _ _)

theorem ready_new (lib : Securepath) (descriptor : WireDescriptor) : (PieceCursor.new descriptor).Ready lib :=
  ⟨List.forall_mem_nil _, nofun⟩

theorem place_add (chunkNo : UInt64) :
    (cursor.add chunkNo).place = ⟨cursor.place.left ++ [chunkNo], cursor.place.gone⟩ := by
  unfold place add
  cases cursor.current <;> rfl

theorem Ready.add (ready : cursor.Ready lib) (inside : chunkNo < cursor.descriptor.chunkCount lib) :
    (cursor.add chunkNo).Ready lib := by
  refine ⟨?_, ready.within⟩
  rw [place_add]
  exact List.forall_mem_append.mpr ⟨ready.known, List.forall_mem_singleton.mpr inside⟩

/-- The octets of a chunk. -/
def octetsOf (lib : Securepath) (descriptor : WireDescriptor) (chunkNo : UInt64) : Nat :=
  (descriptor.chunkEncSize lib chunkNo).toNat

/-- A cursor that is not done has a current chunk once the next piece is asked for. -/
theorem begin_cases (tagFits : WireDescriptor.TagFits lib) (ready : cursor.Ready lib) (more : cursor.done ≠ true) :
    ∃ chunkNo pending offset, cursor.begin = ⟨cursor.descriptor, pending, some chunkNo, offset⟩ ∧
      cursor.place = ⟨chunkNo :: pending, offset.toNat⟩ ∧
      offset < cursor.descriptor.chunkEncSize lib chunkNo := by
  obtain ⟨descriptor, pending, current, offset⟩ := cursor
  cases current with
  | some chunkNo => exact ⟨chunkNo, pending, offset, rfl, rfl, ready.within chunkNo rfl⟩
  | none =>
    cases pending with
    | nil => exact absurd rfl more
    | cons chunkNo pending =>
      refine ⟨chunkNo, pending, 0, rfl, rfl, ?_⟩
      have inside := ready.known chunkNo List.mem_cons_self
      rw [UInt64.lt_iff_toNat_lt, descriptor.toNat_chunkEncSize tagFits]
      exact DataDescriptor.chunkEncSize_pos ((descriptor.lt_chunkCount tagFits).mp inside)

/-- The size of a piece fits into 32 bits. -/
theorem toNat_pieceSize (pieceSize : UInt32) {chunk : UInt64} (below : offset ≤ chunk) :
    (min (max pieceSize 1).toUInt64 (chunk - offset)).toUInt32.toNat =
      min (max pieceSize.toNat 1) (chunk.toNat - offset.toNat) := by
  have small := (max pieceSize 1).toNat_lt
  rw [UInt64.toNat_toUInt32, UInt64.toNat_min, UInt32.toNat_toUInt64, UInt64.toNat_sub_of_le _ _ below,
    Nat.mod_eq_of_lt (Nat.lt_of_le_of_lt (Nat.min_le_left _ _) small), UInt32.toNat_max]
  rfl

/-- The cursor after a piece of the current chunk. -/
theorem next_eq {pending : List UInt64} (begun : cursor.begin = ⟨cursor.descriptor, pending, some chunkNo, offset⟩)
    (within : offset < cursor.descriptor.chunkEncSize lib chunkNo) (pieceSize : UInt32) :
    ∃ (later : UInt64) (size : UInt32), later.toNat = offset.toNat + size.toNat ∧
      size.toNat = min (max pieceSize.toNat 1) (octetsOf lib cursor.descriptor chunkNo - offset.toNat) ∧
      cursor.next lib pieceSize = (⟨cursor.descriptor, pending,
        if cursor.descriptor.chunkEncSize lib chunkNo ≤ later then none else some chunkNo, later⟩,
        some ⟨chunkNo, offset, size⟩) := by
  generalize taken : (min (max pieceSize 1).toUInt64
    (cursor.descriptor.chunkEncSize lib chunkNo - offset)).toUInt32 = size
  have length : size.toNat = min (max pieceSize.toNat 1) (octetsOf lib cursor.descriptor chunkNo - offset.toNat) := by
    rw [← taken]
    exact toNat_pieceSize pieceSize (UInt64.le_of_lt within)
  refine ⟨offset + size.toUInt64, size, ?_, length, ?_⟩
  · have bound := (cursor.descriptor.chunkEncSize lib chunkNo).toNat_lt
    have below := UInt64.lt_iff_toNat_lt.mp within
    unfold octetsOf at length
    rw [UInt64.toNat_add, UInt32.toNat_toUInt64]
    exact Nat.mod_eq_of_lt (by omega)
  · unfold next
    rw [begun]
    dsimp only
    rw [taken]

/-- A cursor that is not done moves past the piece that it returns. -/
theorem next_moves (tagFits : WireDescriptor.TagFits lib) (ready : cursor.Ready lib) (more : cursor.done ≠ true)
    (pieceSize : UInt32) :
    ∃ after piece, cursor.next lib pieceSize = (after, some piece) ∧ after.Ready lib ∧
      after.descriptor = cursor.descriptor ∧
      Moves (octetsOf lib cursor.descriptor) cursor.place piece.toPiece after.place ∧
      piece.size.toNat ≤ max pieceSize.toNat 1 := by
  obtain ⟨chunkNo, pending, offset, begun, place, within⟩ := begin_cases tagFits ready more
  obtain ⟨later, size, moved, length, next⟩ := next_eq begun within pieceSize
  have below : offset.toNat < octetsOf lib cursor.descriptor chunkNo := UInt64.lt_iff_toNat_lt.mp within
  have positive : 0 < size.toNat := by omega
  have bounded : size.toNat ≤ max pieceSize.toNat 1 := by omega
  have known := ready.known
  rw [place] at known ⊢
  by_cases whole : cursor.descriptor.chunkEncSize lib chunkNo ≤ later
  · have reached : octetsOf lib cursor.descriptor chunkNo ≤ later.toNat := UInt64.le_iff_toNat_le.mp whole
    rw [if_pos whole] at next
    refine ⟨_, _, next, ⟨fun other inside => known other (List.mem_cons_of_mem _ inside), nofun⟩, rfl, ?_, bounded⟩
    exact .past positive (show offset.toNat + size.toNat = _ by omega)
  · have short : ¬ octetsOf lib cursor.descriptor chunkNo ≤ later.toNat := mt UInt64.le_iff_toNat_le.mpr whole
    rw [if_neg whole] at next
    refine ⟨_, _, next, ⟨known, fun other same => ?_⟩, rfl, ?_, bounded⟩
    · rw [← Option.some.inj same]
      exact UInt64.not_le.mp whole
    · show Moves _ _ _ ⟨chunkNo :: pending, later.toNat⟩
      rw [moved]
      exact .inside positive (show offset.toNat + size.toNat < _ by omega)

theorem next_of_done (finished : cursor.done = true) (pieceSize : UInt32) :
    cursor.next lib pieceSize = (cursor, none) := by
  obtain ⟨descriptor, pending, current, offset⟩ := cursor
  obtain ⟨empty, idle⟩ := Bool.and_eq_true_iff.mp finished
  obtain rfl := List.isEmpty_iff.mp empty
  obtain rfl := Option.isNone_iff_eq_none.mp idle
  rfl

end PieceCursor

namespace CursorCall

variable {cursor : PieceCursor}

/-- The pieces of a run as parts of their chunks. -/
def tiles (taken : List (UInt32 × PieceRange)) : List (Piece UInt64) :=
  taken.map fun piece => piece.2.toPiece

/-- What a run leaves of a cursor and takes from it. -/
structure Outcome (lib : Securepath) (cursor : PieceCursor) (calls : List CursorCall) (last : PieceCursor)
    (taken : List (UInt32 × PieceRange)) : Prop where
  ready : last.Ready lib
  sameData : last.descriptor = cursor.descriptor
  bounded : ∀ piece ∈ taken, piece.2.size.toNat ≤ max piece.1.toNat 1
  covers : last.done = true → Covers (PieceCursor.octetsOf lib cursor.descriptor)
    (cursor.place.left ++ added calls) cursor.place.gone (tiles taken)

/-- The pieces of a run are bounded, and cover what was left at its start and what was added when nothing is left. -/
theorem outcome_run (tagFits : WireDescriptor.TagFits lib) (ready : cursor.Ready lib) {calls : List CursorCall}
    (known : ∀ chunkNo ∈ added calls, chunkNo < cursor.descriptor.chunkCount lib) :
    Outcome lib cursor calls (run lib cursor calls).1 (run lib cursor calls).2 := by
  induction calls generalizing cursor with
  | nil =>
    refine ⟨ready, rfl, List.forall_mem_nil _, fun finished => ?_⟩
    have empty : cursor.place.left = [] := PieceCursor.done_iff.mp finished
    rw [empty]
    rfl
  | cons call calls ih =>
    cases call with
    | add chunkNo =>
      obtain ⟨inside, others⟩ := List.forall_mem_cons.mp known
      obtain ⟨readyLast, same, bounded, covers⟩ := ih (ready.add inside) others
      rw [PieceCursor.place_add, List.append_assoc] at covers
      exact ⟨readyLast, same, bounded, covers⟩
    | next pieceSize =>
      by_cases more : cursor.done = true
      · obtain ⟨readyLast, same, bounded, covers⟩ := ih ready known
        rw [run, PieceCursor.next_of_done more]
        exact ⟨readyLast, same, bounded, covers⟩
      · obtain ⟨after, piece, next, readyAfter, sameAfter, moves, short⟩ :=
          PieceCursor.next_moves tagFits ready more pieceSize
        rw [← sameAfter] at known moves
        obtain ⟨readyLast, same, bounded, covers⟩ := ih readyAfter known
        rw [run, next]
        refine ⟨readyLast, same.trans sameAfter, List.forall_mem_cons.mpr ⟨short, bounded⟩, fun finished => ?_⟩
        rw [← sameAfter]
        exact moves.covers (covers finished)

theorem run_append (lib : Securepath) (cursor : PieceCursor) (first second : List CursorCall) :
    (run lib cursor (first ++ second)).1 = (run lib (run lib cursor first).1 second).1 := by
  induction first generalizing cursor with
  | nil => rfl
  | cons call calls ih =>
    cases call with
    | add chunkNo => exact ih _
    | next pieceSize => exact ih _

theorem added_append (first second : List CursorCall) : added (first ++ second) = added first ++ added second := by
  induction first with
  | nil => rfl
  | cons call calls ih =>
    cases call with
    | add chunkNo => exact congrArg (List.cons chunkNo) ih
    | next pieceSize => exact ih

/-- The calls for pieces of the chosen sizes. -/
def nextCalls (pieceSize : Nat → UInt32) (count : Nat) : List CursorCall :=
  (List.range count).map fun call => .next (pieceSize call)

theorem nextCalls_succ (pieceSize : Nat → UInt32) (count : Nat) :
    nextCalls pieceSize (count + 1) = .next (pieceSize 0) :: nextCalls (fun call => pieceSize (call + 1)) count := by
  rw [nextCalls, List.range_succ_eq_map, List.map_cons, List.map_map]
  rfl

theorem added_nextCalls (pieceSize : Nat → UInt32) (count : Nat) : added (nextCalls pieceSize count) = [] := by
  induction count generalizing pieceSize with
  | zero => rfl
  | succ count ih =>
    rw [nextCalls_succ]
    exact ih _

/-- Enough pieces of any sizes leave nothing. -/
theorem exists_done (tagFits : WireDescriptor.TagFits lib) (ready : cursor.Ready lib) (pieceSize : Nat → UInt32) :
    ∃ count, (run lib cursor (nextCalls pieceSize count)).1.done = true := by
  -- Every piece leaves less, so the induction is on what is left.
  induction left : remaining (PieceCursor.octetsOf lib cursor.descriptor) cursor.place using Nat.strong_induction_on
    generalizing cursor pieceSize with
  | _ left ih =>
    by_cases more : cursor.done = true
    · exact ⟨0, more⟩
    obtain ⟨after, piece, next, readyAfter, same, moves, -⟩ :=
      PieceCursor.next_moves tagFits ready more (pieceSize 0)
    have less := moves.remaining_lt
    rw [left, ← same] at less
    obtain ⟨count, finished⟩ := ih _ less readyAfter (fun call => pieceSize (call + 1)) rfl
    refine ⟨count + 1, ?_⟩
    rw [nextCalls_succ, run, next]
    exact finished

end CursorCall

/-- The chunks of a usable descriptor tile its data, and the pieces of a cursor tile the chunks that were added to it,
however large the pieces are. -/
theorem WireDescriptor.tiles_data (tagFits : WireDescriptor.TagFits lib) (descriptor : WireDescriptor)
    (usable : descriptor.usable lib = true) :
    (∑ chunk ∈ Finset.range (descriptor.chunkCount lib).toNat,
      (descriptor.chunkEncSize lib (UInt64.ofNat chunk)).toNat = descriptor.encSize.toNat) ∧
    (∀ chunk : UInt64, chunk.toNat + 1 < (descriptor.chunkCount lib).toNat →
      (descriptor.chunkEncSize lib chunk).toNat = descriptor.chunkSize.toNat + lib.aesGcmTagSize) ∧
    lib.aesGcmTagSize < (descriptor.chunkEncSize lib (descriptor.chunkCount lib - 1)).toNat ∧
    (∀ chunk < descriptor.chunkCount lib, ∀ offset size : UInt64,
      descriptor.chunkHoldsRange lib chunk offset size = true ↔
        offset.toNat + size.toNat ≤ (descriptor.chunkEncSize lib chunk).toNat) ∧
    ∀ calls : List CursorCall, (∀ chunk ∈ CursorCall.added calls, chunk < descriptor.chunkCount lib) →
      (∀ taken ∈ (CursorCall.run lib (.new descriptor) calls).2, taken.2.size.toNat ≤ max taken.1.toNat 1) ∧
      ((CursorCall.run lib (.new descriptor) calls).1.done = true →
        Covers (PieceCursor.octetsOf lib descriptor) (CursorCall.added calls) 0
          (CursorCall.tiles (CursorCall.run lib (.new descriptor) calls).2)) ∧
      ∀ pieceSize : Nat → UInt32, ∃ count,
        (CursorCall.run lib (.new descriptor) (calls ++ CursorCall.nextCalls pieceSize count)).1.done = true ∧
        Covers (PieceCursor.octetsOf lib descriptor) (CursorCall.added calls) 0 (CursorCall.tiles
          (CursorCall.run lib (.new descriptor) (calls ++ CursorCall.nextCalls pieceSize count)).2) := by
  have count := descriptor.toNat_chunkCount tagFits
  have size (chunk : UInt64) := descriptor.toNat_chunkEncSize tagFits chunk
  rw [descriptor.usable_eq tagFits] at usable
  obtain ⟨⟨⟨-, atLeastOne⟩, few⟩, filled⟩ := by simpa only [DataDescriptor.usable, Bool.and_eq_true] using usable
  have positive : 1 ≤ descriptor.toDataDescriptor.chunkCount lib := of_decide_eq_true atLeastOne
  refine ⟨?_, fun chunk inside => ?_, ?_, fun chunk _ => descriptor.chunkHoldsRange_iff chunk, fun calls known => ?_⟩
  · have bound := (descriptor.chunkCount lib).toNat_lt
    rw [count] at bound ⊢
    have whole : ∑ chunk ∈ Finset.range (descriptor.toDataDescriptor.chunkCount lib),
        descriptor.toDataDescriptor.chunkEncSize lib chunk = descriptor.encSize.toNat :=
      DataDescriptor.sum_chunks (DataDescriptor.sized_of_lt positive)
    rw [← whole]
    refine Finset.sum_congr rfl fun chunk inside => ?_
    rw [size, UInt64.toNat_ofNat_of_lt' (Nat.lt_trans (Finset.mem_range.mp inside) bound)]
  · rw [count] at inside
    rw [size, DataDescriptor.chunkEncSize_of_succ_lt inside]
    rfl
  · have least : (1 : UInt64) ≤ descriptor.chunkCount lib := by
      rw [UInt64.le_iff_toNat_le, count]
      exact positive
    rw [size, UInt64.toNat_sub_of_le _ _ least, count]
    exact of_decide_eq_true filled
  · have outcome := CursorCall.outcome_run tagFits (PieceCursor.ready_new lib descriptor) known
    refine ⟨outcome.bounded, outcome.covers, fun pieceSize => ?_⟩
    obtain ⟨count, finished⟩ := CursorCall.exists_done tagFits outcome.ready pieceSize
    rw [← CursorCall.run_append] at finished
    have same : CursorCall.added (calls ++ CursorCall.nextCalls pieceSize count) = CursorCall.added calls := by
      rw [CursorCall.added_append, CursorCall.added_nextCalls, List.append_nil]
    have whole := CursorCall.outcome_run tagFits (PieceCursor.ready_new lib descriptor) (same ▸ known)
    have covers := whole.covers finished
    rw [same] at covers
    exact ⟨count, finished, covers⟩

/-- A data of two chunks, the second one shorter. -/
def twoChunks : WireDescriptor :=
  ⟨50, 16, [1]⟩

theorem WireDescriptor.tiles_data_two :
    (twoChunks.chunkCount .sample).toNat = 2 ∧
      (∑ chunk ∈ Finset.range 2, (twoChunks.chunkEncSize .sample (UInt64.ofNat chunk)).toNat = 50) ∧
      ∃ count, (CursorCall.run .sample (.new twoChunks)
        ([.add 1, .add 0] ++ CursorCall.nextCalls (fun _ => 7) count)).1.done = true := by
  have tag : Securepath.sample.aesGcmTagSize = 16 := rfl
  have tagFits : TagFits .sample := by
    unfold TagFits
    rw [tag]
    omega
  obtain ⟨sum, -, -, -, pieces⟩ := tiles_data tagFits twoChunks (by decide +kernel)
  have count : (twoChunks.chunkCount .sample).toNat = 2 := by decide +kernel
  rw [count] at sum
  have known : ∀ chunk ∈ CursorCall.added [.add 1, .add 0], chunk < twoChunks.chunkCount .sample :=
    List.forall_mem_cons.mpr ⟨by decide +kernel, List.forall_mem_singleton.mpr (by decide +kernel)⟩
  obtain ⟨-, -, finishes⟩ := pieces [.add 1, .add 0] known
  obtain ⟨calls, finished, -⟩ := finishes fun _ => 7
  exact ⟨count, sum, calls, finished⟩

end SpSync
