import SpSync.Foundation.Chain
import SpSync.Proof.Core.Mirror
import SpSync.Proof.Server.StorageSteps

namespace SpSync

open Foundation RecordStorage

variable {lib : Securepath} {block : lib.Block}

/-- The rows of a log are numbered by their sequences and linked by their hashes. -/
def Row.linking (lib : Securepath) : Linking (Row lib) Octets where
  rank := Row.sequence
  name := Row.hash
  parent := Row.parentHash
  root := []

/-- The columns of the row are those of its block and of the record in it. -/
structure Row.Faithful (row : Row lib) : Prop where
  tag : row.tag = row.block.tag
  sequence : row.sequence = row.block.sequence
  hash : row.hash = lib.hash row.block
  parentHash : row.parentHash = row.block.parentHash
  parsed : ∃ record, lib.deserialise row.block.record = some record ∧ row.type = record.body.type ∧
    row.opId = record.base.opId

theorem Row.faithful_newRow (records : RecordStorage lib) (state : RecordState) {record : Record}
    (parsed : lib.deserialise block.record = some record) : (records.newRow block state record).Faithful :=
  ⟨rfl, rfl, rfl, rfl, record, parsed, rfl, rfl⟩

namespace ChainLog

/-- The rows are one chain in sync, and the head is its last block. -/
structure Linked (log : ChainLog lib) : Prop where
  chain : Chain (Row.linking lib) log.records.rows
  inSync : ∀ row ∈ log.records.rows, row.state = .inSync
  faithful : ∀ row ∈ log.records.rows, row.Faithful
  head : log.head = ⟨log.records.rows.length, (Row.linking lib).tip log.records.rows⟩

theorem linked_empty (lib : Securepath) : Linked (load (.empty lib)) where
  chain := .nil
  inSync := by simp [load, RecordStorage.empty]
  faithful := by simp [load, RecordStorage.empty]
  head := rfl

namespace Linked

variable {log : ChainLog lib} (linked : log.Linked) {row : Row lib}

include linked

theorem bounds (inside : row ∈ log.records.rows) : 1 ≤ row.sequence ∧ row.sequence ≤ log.head.sequence := by
  rw [linked.head]
  exact linked.chain.rank_bounds inside

theorem exists_row {sequence : SequenceNumber} (positive : 1 ≤ sequence) (below : sequence ≤ log.head.sequence) :
    ∃ row ∈ log.records.rows, row.sequence = sequence := by
  rw [linked.head] at below
  exact linked.chain.mem_ranks_iff.mpr ⟨positive, below⟩

theorem row_eq_of_sequence {left right : Row lib} (leftIn : left ∈ log.records.rows)
    (rightIn : right ∈ log.records.rows) (same : left.sequence = right.sequence) : left = right :=
  linked.chain.item_eq_of_rank leftIn rightIn same

/-- The row at the head's sequence is the head. -/
theorem blockId_of_head (inside : row ∈ log.records.rows) (last : row.sequence = log.head.sequence) :
    row.blockId = log.head := by
  rw [linked.head] at last ⊢
  have name : row.hash = _ := linked.chain.name_of_last inside last
  rw [Row.blockId, last, name]

/-- The head of a log without records is the empty one. -/
theorem head_of_rows (empty : log.records.rows = []) : log.head = {} := by
  rw [linked.head, empty]
  rfl

theorem head_of_empty (first : log.head.sequence = 0) : log.head = {} := by
  rw [linked.head] at first
  exact linked.head_of_rows (List.length_eq_zero_iff.mp first)

/-- A log that is opened again has the same head. -/
theorem lastBlock_eq_head : log.records.lastBlock = log.head := by
  rw [lastBlock_eq]
  cases found : log.records.newest fun _ => true with
  | none =>
    have outside := newest_eq_none_iff.mp found
    have empty : log.records.rows = [] := by
      refine List.eq_nil_iff_forall_not_mem.mpr fun row inside => ?_
      simpa using outside row inside (linked.inSync row inside)
    rw [linked.head, empty]
    rfl
  | some top =>
    obtain ⟨⟨topIn, _, _⟩, above⟩ := newest_eq_some_iff.mp found
    refine linked.blockId_of_head topIn (Nat.le_antisymm (linked.bounds topIn).2 ?_)
    obtain ⟨last, lastIn, same⟩ := linked.exists_row
      ((linked.bounds topIn).1.trans (linked.bounds topIn).2) (Nat.le_refl _)
    rw [← same]
    exact above last lastIn (linked.inSync last lastIn) rfl

/-- The newest record of any kind does not pass the head. -/
theorem newest_le (condition : ChainEntry lib → Bool) :
    (log.records.newest condition).elim 0 Row.sequence ≤ log.head.sequence := by
  cases found : log.records.newest condition with
  | none => exact Nat.zero_le _
  | some top => exact (linked.bounds (newest_eq_some_iff.mp found).1.1).2

/-- One row at the next position keeps the chain. -/
theorem extend {newest : Row lib} {extended : ChainLog lib} (faithful : newest.Faithful)
    (inSync : newest.state = .inSync) (next : newest.sequence = log.head.sequence + 1)
    (link : newest.parentHash = log.head.hash) (rows : extended.records.rows = log.records.rows ++ [newest])
    (head : extended.head = newest.blockId) : extended.Linked := by
  have rowOf {row : Row lib} (inside : row ∈ extended.records.rows) : row ∈ log.records.rows ∨ row = newest := by
    simpa [rows] using inside
  refine ⟨?_, ?_, ?_, ?_⟩
  · rw [rows]
    refine .snoc linked.chain ?_ ?_
    · exact next.trans (by rw [linked.head])
    · exact link.trans (by rw [linked.head])
  · intro row inside
    obtain old | rfl := rowOf inside
    · exact linked.inSync row old
    · exact inSync
  · intro row inside
    obtain old | rfl := rowOf inside
    · exact linked.faithful row old
    · exact faithful
  · rw [head, rows, Chain.tip_append, List.length_append, Row.blockId, next, linked.head]
    rfl

end Linked

end ChainLog

namespace ChainSync

variable {sync saved : ChainSync lib} {block placed : lib.Block} {type : RecType}

theorem linked_setAndSaveBlock (linked : sync.log.Linked)
    (done : sync.setAndSaveBlock block type = .ok (saved, placed)) : saved.log.Linked := by
  obtain ⟨rfl, ⟨record, parsed, rows⟩, head, _, _⟩ := setAndSaveBlock_ok done
  have faithful : (sync.log.records.newRow (block.setSequenceAndParentHash (sync.log.head.sequence + 1)
      sync.log.head.hash) .inSync record).Faithful := Row.faithful_newRow _ _ parsed
  exact linked.extend faithful rfl rfl rfl rows head

/-- A commit keeps the chain, whatever the rules say. -/
theorem linked_commitWith (linked : sync.log.Linked) (verdict : Except Error RuleResult) (block : lib.Block) :
    (sync.commitWith verdict block).1.log.Linked :=
  commitWith_keeps linked fun _ _ _ _ => linked_setAndSaveBlock linked

end ChainSync

/-- A saved block keeps the chain, whatever its assignment. -/
theorem Storage.Saved.linked {before after : Storage lib} {assignment : Option (Assignment lib)}
    (saved : Saved before after block assignment) (linked : before.sync.log.Linked) : after.sync.log.Linked := by
  obtain ⟨_, ⟨record, parsed, rows⟩, head⟩ := saved
  have faithful : Row.Faithful { before.sync.log.records.newRow (block.setSequenceAndParentHash
      (before.sync.log.head.sequence + 1) before.sync.log.head.hash) .inSync record with assignment } :=
    ⟨rfl, rfl, rfl, rfl, record, parsed, rfl, rfl⟩
  exact linked.extend faithful rfl rfl rfl rows head

end SpSync
