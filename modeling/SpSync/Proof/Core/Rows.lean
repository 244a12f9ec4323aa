import SpSync.Construction.Core.RecordStorage
import SpSync.Foundation.Ranking
import SpSync.Foundation.Table

namespace SpSync

open Foundation

variable {lib : Securepath}

/-- The changed row keeps the columns that identify it, and is confirmed only where the row was. -/
structure Row.Relaxes (changed row : Row lib) : Prop where
  key : changed.key = row.key
  tag : changed.tag = row.tag
  hash : changed.hash = row.hash
  opId : changed.opId = row.opId
  confirmed : changed.state.isServerConfirmed = true → row.state.isServerConfirmed = true ∧
    changed.sequence = row.sequence

/-- A change that only relaxes rows keeps the constraints. -/
theorem Unique.map {rows : List (Row lib)} {change : Row lib → Row lib} (unique : Unique rows)
    (relaxes : ∀ row ∈ rows, (change row).Relaxes row) : Unique (rows.map change) where
  keys := List.pairwise_map.mpr (unique.keys.imp_of_mem fun leftIn rightIn less => by
    rwa [(relaxes _ leftIn).key, (relaxes _ rightIn).key])
  tags := List.pairwise_map.mpr (unique.tags.imp_of_mem fun leftIn rightIn apart => by
    rwa [(relaxes _ leftIn).tag, (relaxes _ rightIn).tag])
  hashes := List.pairwise_map.mpr (unique.hashes.imp_of_mem fun leftIn rightIn apart => by
    rwa [(relaxes _ leftIn).hash, (relaxes _ rightIn).hash])
  opIds := List.pairwise_map.mpr (unique.opIds.imp_of_mem fun leftIn rightIn apart => by
    rwa [(relaxes _ leftIn).opId, (relaxes _ rightIn).opId])
  sequences := List.pairwise_map.mpr (unique.sequences.imp_of_mem fun leftIn rightIn apart leftDone rightDone => by
    obtain ⟨left, leftSame⟩ := (relaxes _ leftIn).confirmed leftDone
    obtain ⟨right, rightSame⟩ := (relaxes _ rightIn).confirmed rightDone
    rw [leftSame, rightSame]
    exact apart left right)

namespace RecordStorage

variable {storage updated : RecordStorage lib} {row left right : Row lib} {state : RecordState}
  {change : Row lib → Row lib} {block : lib.Block} {key : Nat} {rows : List (Row lib)} {tag : RecordTag}

/-- A table is its rows. -/
theorem eq_of_rows {left right : RecordStorage lib} (same : left.rows = right.rows) : left = right := by
  cases left
  cases right
  cases same
  rfl

theorem write_ok_iff : write rows = .ok storage ↔ storage.rows = rows := by
  unfold write
  split
  · rename_i unique
    constructor
    · intro written
      cases written
      rfl
    · intro same
      cases storage
      cases same
      rfl
  · rename_i broken
    constructor
    · intro written
      cases written
    · intro same
      exact absurd (same ▸ storage.unique) broken

theorem updateRow_ok_iff :
    storage.updateRow key change = .ok updated ↔
      updated.rows = storage.rows.map fun row => if row.key = key then change row else row :=
  write_ok_iff

/-- An update that relaxes its row is always written. -/
theorem updateRow_ok_of_relaxes (relaxes : ∀ row ∈ storage.rows, row.key = key → (change row).Relaxes row) :
    ∃ updated, storage.updateRow key change = .ok updated := by
  have unique : Unique (storage.rows.map fun row => if row.key = key then change row else row) := by
    apply storage.unique.map
    intro row inside
    split
    · exact relaxes row inside ‹_›
    · exact ⟨rfl, rfl, rfl, rfl, fun confirmed => ⟨confirmed, rfl⟩⟩
  exact ⟨⟨_, unique⟩, write_ok_iff.mpr rfl⟩

/-- The stored assignment of a row can always be replaced. -/
theorem setAssignment_ok (storage : RecordStorage lib) (key : Nat) (assignment : Option (Assignment lib)) :
    ∃ updated, storage.setAssignment key assignment = .ok updated :=
  updateRow_ok_of_relaxes fun _ _ _ => ⟨rfl, rfl, rfl, rfl, fun confirmed => ⟨confirmed, rfl⟩⟩

/-- A row can always be set to a state that is not confirmed. -/
theorem setState_ok (storage : RecordStorage lib) (key : Nat) (unconfirmed : state.isServerConfirmed = false) :
    ∃ updated, storage.setState key state = .ok updated := by
  apply updateRow_ok_of_relaxes
  intro row _ _
  rw [if_neg (by decide)]
  exact ⟨rfl, rfl, rfl, rfl, fun confirmed => absurd confirmed (by simp [unconfirmed])⟩

theorem create_ok {created : RecordStorage lib} (done : storage.create block state = .ok created) :
    ∃ record, lib.deserialise block.record = some record ∧
      created.rows = storage.rows ++ [storage.newRow block state record] := by
  unfold create at done
  cases parsed : lib.deserialise block.record with
  | none => simp [parsed] at done
  | some record =>
    rw [parsed] at done
    exact ⟨record, rfl, write_ok_iff.mp done⟩

/-- What holds of the rows and of a new one holds of all rows after it is created. -/
theorem forall_created {created : RecordStorage lib} {condition : Row lib → Prop}
    (done : storage.create block state = .ok created) (old : ∀ row ∈ storage.rows, condition row)
    (new : ∀ record, condition (storage.newRow block state record)) : ∀ row ∈ created.rows, condition row := by
  obtain ⟨record, _, rows⟩ := create_ok done
  rw [rows]
  exact List.forall_mem_append.mpr ⟨old, List.forall_mem_singleton.mpr (new record)⟩

theorem mem_created {created : RecordStorage lib} (done : storage.create block state = .ok created)
    (inside : row ∈ storage.rows) : row ∈ created.rows := by
  obtain ⟨record, _, rows⟩ := create_ok done
  rw [rows]
  exact List.mem_append_left _ inside

theorem create_error {err : Error} (failed : storage.create block state = .error err) :
    err.code = .databaseConstraint ∨ err.code = .invalidData := by
  unfold create at failed
  cases parsed : lib.deserialise block.record with
  | none =>
    simp only [parsed, Except.error.injEq] at failed
    exact Or.inr (by rw [← failed])
  | some record =>
    simp only [parsed, write] at failed
    split at failed
    · cases failed
    · simp only [Except.error.injEq] at failed
      exact Or.inl (by rw [← failed])

/-- A block is created when nothing that has to be unique occurs in the table. -/
theorem create_ok_of_new {record : Record} (parsed : lib.deserialise block.record = some record)
    (newTag : ∀ row ∈ storage.rows, row.tag ≠ block.tag) (newHash : ∀ row ∈ storage.rows, row.hash ≠ lib.hash block)
    (newOp : ∀ row ∈ storage.rows, row.opId = [] ∨ row.opId ≠ record.base.opId)
    (newSequence : ∀ row ∈ storage.rows, row.sequence ≠ block.sequence) :
    ∃ created, storage.create block state = .ok created := by
  have older : ∀ row ∈ storage.rows, row.key < storage.nextKey := fun _ inside =>
    Nat.lt_succ_of_le (Ranking.le_highest inside)
  have unique : Unique (storage.rows ++ [storage.newRow block state record]) := by
    obtain ⟨keys, tags, hashes, opIds, sequences⟩ := storage.unique
    constructor <;> rw [List.pairwise_append] <;> simp only [List.pairwise_singleton, List.mem_singleton, forall_eq]
    · exact ⟨keys, trivial, older⟩
    · exact ⟨tags, trivial, newTag⟩
    · exact ⟨hashes, trivial, newHash⟩
    · exact ⟨opIds, trivial, newOp⟩
    · exact ⟨sequences, trivial, fun row inside _ _ => newSequence row inside⟩
  refine ⟨⟨_, unique⟩, ?_⟩
  unfold create
  rw [parsed]
  exact write_ok_iff.mpr rfl

/-- The tag finds its only row. -/
theorem findTag_eq_some_iff : storage.findTag tag = some row ↔ row ∈ storage.rows ∧ row.tag = tag :=
  Table.find?_eq_some_iff storage.unique.tags

theorem findTag_eq_none_iff : storage.findTag tag = none ↔ ∀ row ∈ storage.rows, row.tag ≠ tag :=
  Table.find?_eq_none_iff

theorem row_eq_of_key (leftIn : left ∈ storage.rows) (rightIn : right ∈ storage.rows) (same : left.key = right.key) :
    left = right :=
  Table.eq_of_column (storage.unique.keys.imp fun less => Nat.ne_of_lt less) leftIn rightIn same

/-- The key finds its only row. -/
theorem findKey_eq_some_iff : storage.findKey key = some row ↔ row ∈ storage.rows ∧ row.key = key :=
  Table.find?_eq_some_iff (storage.unique.keys.imp fun less => Nat.ne_of_lt less)

theorem row_eq_of_tag (leftIn : left ∈ storage.rows) (rightIn : right ∈ storage.rows) (same : left.tag = right.tag) :
    left = right :=
  Table.eq_of_column storage.unique.tags leftIn rightIn same

theorem row_eq_of_opId (leftIn : left ∈ storage.rows) (rightIn : right ∈ storage.rows) (operation : left.opId ≠ [])
    (same : left.opId = right.opId) : left = right :=
  Table.eq_of_nullable storage.unique.opIds leftIn rightIn operation same

/-- Every key is below the key of the next row. -/
theorem key_lt_nextKey (inside : row ∈ storage.rows) : row.key < storage.nextKey :=
  Nat.lt_succ_of_le (Ranking.le_highest inside)

/-- An update of the newest row leaves the older rows. -/
theorem map_newest {newest : Row lib} (older : ∀ row ∈ rows, row.key ≠ newest.key) :
    (rows ++ [newest]).map (fun row => if row.key = newest.key then change row else row) =
      rows ++ [change newest] := by
  rw [List.map_append]
  congr 1
  · conv_rhs => rw [← List.map_id rows]
    apply List.map_congr_left
    intro row inside
    simp [older row inside]
  · simp

/-- The second table is the first one with the row replaced. -/
structure Replaces (before after : RecordStorage lib) (row next : Row lib) : Prop where
  inside : row ∈ before.rows
  rows : after.rows = before.rows.map fun other => if other.key = row.key then next else other

theorem Replaces.mem_iff {before after : RecordStorage lib} {next other : Row lib}
    (replaces : Replaces before after row next) :
    other ∈ after.rows ↔ (other ∈ before.rows ∧ other ≠ row) ∨ other = next := by
  rw [replaces.rows, List.mem_map]
  constructor
  · intro found
    obtain ⟨source, sourceIn, rfl⟩ := found
    by_cases same : source.key = row.key
    · rw [if_pos same]
      exact Or.inr rfl
    · rw [if_neg same]
      exact Or.inl ⟨sourceIn, fun equal => same (by rw [equal])⟩
  · intro either
    obtain ⟨otherIn, apart⟩ | rfl := either
    · refine ⟨other, otherIn, if_neg ?_⟩
      intro same
      exact apart (row_eq_of_key otherIn replaces.inside same)
    · exact ⟨row, replaces.inside, if_pos rfl⟩

theorem Replaces.forall_rows {before after : RecordStorage lib} {next : Row lib} {condition : Row lib → Prop}
    (replaces : Replaces before after row next) (old : ∀ other ∈ before.rows, condition other) (new : condition next) :
    ∀ other ∈ after.rows, condition other := by
  intro other inside
  obtain ⟨kept, _⟩ | rfl := replaces.mem_iff.mp inside
  · exact old other kept
  · exact new

section

variable (inside : row ∈ storage.rows)
include inside

/-- A row replaced by itself changes nothing. -/
theorem Replaces.refl : Replaces storage storage row row := by
  refine ⟨inside, (List.map_id _).symm.trans (List.map_congr_left ?_)⟩
  intro other otherIn
  split
  · rename_i same
    exact row_eq_of_key otherIn inside same
  · rfl

theorem updateRow_replaces (done : storage.updateRow row.key change = .ok updated) :
    Replaces storage updated row (change row) := by
  refine ⟨inside, (updateRow_ok_iff.mp done).trans (List.map_congr_left ?_)⟩
  intro other otherIn
  by_cases same : other.key = row.key
  · rw [if_pos same, if_pos same, row_eq_of_key otherIn inside same]
  · rw [if_neg same, if_neg same]

theorem setState_replaces (done : storage.setState row.key state = .ok updated) :
    Replaces storage updated row { row with state } :=
  updateRow_replaces inside done

/-- A valid position is stored with the state. -/
theorem setPosition_replaces {id : ChainBlockId} {parentHash : Octets} (valid : id.isValid = true)
    (done : storage.setState row.key state id parentHash = .ok updated) :
    Replaces storage updated row { row with state, sequence := id.sequence, hash := id.hash, parentHash } := by
  have replaces := updateRow_replaces inside done
  simpa only [valid, if_true] using replaces

theorem setRecord_ok (done : storage.setRecord row.key block = .ok updated) :
    row.state.isServerConfirmed = false ∧ (∃ record, lib.deserialise block.record = some record) ∧
      Replaces storage updated row { row with
        tag := block.tag, sequence := block.sequence, hash := lib.hash block, parentHash := block.parentHash, block } := by
  unfold setRecord at done
  split at done
  · cases done
  rename_i free
  cases parsed : lib.deserialise block.record with
  | none => simp [parsed] at done
  | some record =>
    rw [parsed] at done
    refine ⟨?_, ⟨record, rfl⟩, updateRow_replaces inside done⟩
    simp only [List.any_eq_true, Bool.and_eq_true, decide_eq_true_eq, not_exists, not_and,
      Bool.not_eq_true] at free
    exact free row inside rfl

end

/-- The records in sync have distinct sequences. -/
theorem sequence_nodup {kept : List (Row lib)} (sub : kept.Sublist storage.rows)
    (inSync : ∀ row ∈ kept, row.state = .inSync) : (kept.map Row.sequence).Nodup := by
  refine List.pairwise_map.mpr ((storage.unique.sublist sub).sequences.imp_of_mem ?_)
  intro left right leftIn rightIn apart
  exact apart (by rw [inSync left leftIn]; rfl) (by rw [inSync right rightIn]; rfl)

/-- Two rows in sync at one sequence are the same row. -/
theorem row_eq_of_sequence (leftIn : left ∈ storage.rows) (rightIn : right ∈ storage.rows)
    (leftInSync : left.state = .inSync) (rightInSync : right.state = .inSync) (same : left.sequence = right.sequence) :
    left = right := by
  have nodup : ((storage.rows.filter fun row => row.state = .inSync).map Row.sequence).Nodup :=
    sequence_nodup List.filter_sublist fun row inside => by simpa using (List.mem_filter.mp inside).2
  exact List.inj_on_of_nodup_map nodup (List.mem_filter.mpr ⟨leftIn, by simp [leftInSync]⟩)
    (List.mem_filter.mpr ⟨rightIn, by simp [rightInSync]⟩) same

theorem sorted_byOriginSeq (rows : List (Row lib)) :
    (byOriginSeq rows).Pairwise fun left right => left.originSeq ≤ right.originSeq :=
  Ranking.sorted_inOrder rows

end RecordStorage

end SpSync
