import SpSync.Construction.Core.History
import SpSync.Proof.Core.ObjectIndex

namespace SpSync

open Foundation

variable {lib : Securepath}

/-- The operations of a record table without handles, with what they give. -/
inductive RecordStorage.Operates (storage : RecordStorage lib) : Except Error (RecordStorage lib) → Prop
  | create (block : lib.Block) (state : RecordState) : Operates storage (storage.create block state)
  | setState (key : Nat) (state : RecordState) (id : ChainBlockId) (parentHash : Octets) :
      Operates storage (storage.setState key state id parentHash)
  | setRecord (key : Nat) (block : lib.Block) : Operates storage (storage.setRecord key block)
  | truncateFrom (firstRemoved : SequenceNumber) : Operates storage (.ok (storage.truncateFrom firstRemoved))
  | truncatePrefix (firstKept : SequenceNumber) (retained : List RecordTag) :
      Operates storage ((storage.truncatePrefix firstKept retained).map Prod.fst)

theorem SelectedRow.restated_toRow (state : RecordState) (id : ChainBlockId) (parentHash : Octets)
    (row : SelectedRow lib) : (row.restated state id parentHash).toRow =
      if id.isValid then { row.toRow with state, sequence := id.sequence, hash := id.hash, parentHash }
      else { row.toRow with state } := by
  unfold restated
  split <;> rfl

theorem RecordStorage.write_rows (storage : RecordStorage lib) : write storage.rows = .ok storage :=
  dif_pos storage.unique

namespace RecordTables

/-- The table stays as it is, or an operation gives it. -/
def Follows (storage : RecordStorage lib) (tables : RecordTables lib) : Prop :=
  storage.rows = tables.records ∨ storage.Operates (RecordStorage.write tables.records)

variable {tables next : RecordTables lib} {storage : RecordStorage lib} {block : lib.Block} {state : RecordState}
  {place : Nat}

/-- The row of a key changes in the same way with its selector and without. -/
theorem map_change {change : Row lib → Row lib} {selected : SelectedRow lib → SelectedRow lib}
    (follows : ∀ row, (selected row).toRow = change row.toRow) (key : Nat) (rows : List (SelectedRow lib)) :
    ((rows.map SelectedRow.toRow).map fun row => if row.key = key then change row else row) =
      (rows.map fun row => if row.key = key then selected row else row).map SelectedRow.toRow := by
  rw [List.map_map, List.map_map]
  refine List.map_congr_left fun row _ => ?_
  dsimp only [Function.comp]
  split
  · exact (follows row).symm
  · rfl

section

variable (same : storage.rows = tables.records)

include same

theorem follows_create (created : tables.create block state = .ok next) : Follows storage next := by
  have given : storage.Operates _ := .create block state
  unfold create at created
  split at created
  · cases created
  rename_i record parsed
  simp only [bind, Except.bind] at created
  split at created
  · cases created
  rename_i inserted written
  split at created
  · cases created
  cases created
  have rows : (inserted.loadRecord (tables.newRow block state record)).records =
      storage.rows ++ [storage.newRow block state record] := by
    unfold RecordStorage.newRow newRow RecordStorage.nextKey nextKey
    rw [records, (inserted.loadRecord_same _).1, (writeRows_ok written).1, same, records, List.map_append, List.foldl_map]
    rfl
  rw [RecordStorage.create, parsed] at given
  exact Or.inr (rows ▸ given)

theorem follows_setState {id : ChainBlockId} {parentHash : Octets}
    (done : tables.setState place state id parentHash = .ok next) : Follows storage next := by
  unfold setState at done
  split at done
  · cases done
    exact Or.inl same
  rename_i handle found
  simp only [bind, Except.bind] at done
  split at done
  · cases done
  rename_i updated written
  cases done
  have given : storage.Operates _ := .setState handle.key state id parentHash
  rw [RecordStorage.setState, RecordStorage.updateRow, same, records,
    map_change (fun row => row.restated_toRow state id parentHash), ← (writeRows_ok written).1] at given
  exact Or.inr given

theorem follows_setRecord (sound : tables.Sound) (upheld : tables.Upholds (.setRecord place block)) :
    Follows storage (tables.setRecord place block) := by
  unfold setRecord
  split
  · exact Or.inl same
  rename_i handle found
  split
  · exact Or.inl same
  rename_i unconfirmed
  split
  · exact Or.inl same
  rename_i updated written
  obtain ⟨record, parsed⟩ := Option.isSome_iff_exists.mp upheld.2
  obtain ⟨later, filed, -⟩ := createObjectRecords_ok block.tag record.changes
    (tables.objects.filter fun object => object.tag ≠ handle.tag) tables.datas
  obtain ⟨row, inside, key, -, stored⟩ :=
    sound.held.stored handle (List.mem_of_getElem? found) (upheld.1 handle found)
  rw [parsed]
  dsimp only
  rw [filed]
  have given : storage.Operates _ := .setRecord handle.key block
  rw [RecordStorage.setRecord, if_neg, parsed] at given
  · dsimp only at given
    rw [RecordStorage.updateRow, same, records,
      map_change fun row => (rfl : (row.replaced block).toRow = _), ← (writeRows_ok written).1] at given
    exact Or.inr given
  · rw [same, List.any_eq_true]
    rintro ⟨_, listed, both⟩
    obtain ⟨other, otherIn, rfl⟩ := List.mem_map.mp listed
    simp only [Bool.and_eq_true, decide_eq_true_eq] at both
    rw [tables.constrained.eq_of_key otherIn inside (both.1.trans key.symm), stored] at both
    exact unconfirmed both.2

/-- A truncation that demotes nothing filters the record table. -/
theorem follows_truncation {later : RecordStorage lib} {range : Row lib → Bool} (given : storage.Operates (.ok later))
    (filtered : later.rows = storage.rows.filter fun row => !range row) :
    Follows storage ((bySequence (tables.rows.filter fun row => range row.toRow)).foldl (truncateRow false) tables) := by
  rw [← later.write_rows, filtered] at given
  refine Or.inr ?_
  rw [records, (truncate_rows false _).1]
  rw [same, records, List.filter_map, ← List.filterMap_eq_filter] at given
  convert given using 4 with row
  by_cases gone : range row.toRow = true
  · simp [gone, outcome, Option.guard]
  · simp [gone]

/-- A call leaves the record table as it is, or does what an operation on it does. -/
theorem follows_step (sound : tables.Sound) {call : RecordCall lib} (upheld : tables.Upholds call)
    (plain : ∀ firstRemoved, call ≠ .truncateFrom firstRemoved true) : Follows storage (tables.step call) := by
  cases call with
  | create block state =>
    rw [step]
    cases created : tables.create block state with
    | error err => exact Or.inl same
    | ok next => exact follows_create same created
  | find key =>
    rw [step]
    cases tables.rows.find? fun row => row.key = key with
    | none => exact Or.inl same
    | some row => exact Or.inl (same.trans (congrArg (List.map _) (tables.loadRecord_same row).1.symm))
  | release place => exact Or.inl same
  | setState place state id parentHash =>
    rw [step]
    cases done : tables.setState place state id parentHash with
    | error err => exact Or.inl same
    | ok next => exact follows_setState same done
  | setRecord place block => exact follows_setRecord same sound upheld
  | truncateFrom firstRemoved demoteAcked =>
    cases demoteAcked with
    | true => exact absurd rfl (plain firstRemoved)
    | false =>
      rw [step, truncateFrom]
      split
      · exact Or.inl same
      · exact follows_truncation same (.truncateFrom firstRemoved) rfl
  | truncatePrefix firstKept retained =>
    have given : storage.Operates _ := .truncatePrefix firstKept retained
    rw [step, truncatePrefix]
    split
    · exact Or.inl same
    · rename_i valid
      rw [RecordStorage.truncatePrefix, if_neg valid] at given
      exact follows_truncation same given rfl

end

/-- Handles are used only of stored records, and no record is demoted, which the engine and the servers never ask for. -/
def Plain (tables : RecordTables lib) (call : RecordCall lib) : Prop :=
  tables.Upholds call ∧ ∀ firstRemoved, call ≠ .truncateFrom firstRemoved true

/-- The storage has the records of the tables, and the operations of a record table lead to it. -/
structure Mirrors (tables : RecordTables lib) (storage : RecordStorage lib) : Prop where
  sound : tables.Sound
  rows : storage.rows = tables.records
  reached : Relation.ReflTransGen (fun before after => before.Operates (.ok after)) (.empty lib) storage

theorem Mirrors.step (mirrors : tables.Mirrors storage) {call : RecordCall lib} (plain : tables.Plain call) :
    ∃ later, (tables.step call).Mirrors later := by
  have sound := mirrors.sound.step plain.1
  obtain same | given := follows_step mirrors.rows mirrors.sound plain.1 plain.2
  · exact ⟨storage, sound, same, mirrors.reached⟩
  · rw [RecordStorage.write, dif_pos sound.unique] at given
    exact ⟨_, sound, rfl, mirrors.reached.tail given⟩

/-- In every plain run the record table is one that the operations of a record table without handles lead to. -/
theorem mirrors_of_run (datas : DataTable lib) (run : Runs RecordTables.step Plain (opened datas) tables) :
    ∃ storage, tables.Mirrors storage := by
  induction run with
  | refl => exact ⟨.empty lib, Sound.opened datas, rfl, .refl⟩
  | tail _ next ih =>
    obtain ⟨call, plain, rfl⟩ := next
    obtain ⟨storage, mirrors⟩ := ih
    exact mirrors.step plain

end RecordTables

end SpSync
