import SpSync.Construction.Core.RecordTables
import SpSync.Foundation.Table

namespace SpSync

open Foundation

variable {lib : Securepath}

namespace DataTable

/-- The key of the row of a data. -/
def refOf (table : DataTable lib) (id : Octets) : Option DataRef :=
  (table.find id).map DataRow.localId

/-- The later table has the rows of the earlier one, perhaps in other states. -/
def Extends (later earlier : DataTable lib) : Prop :=
  ∀ row ∈ earlier.rows, ∃ kept ∈ later.rows, kept.localId = row.localId ∧ kept.descriptor = row.descriptor

variable {table later : DataTable lib} {id : Octets} {ref : DataRef} {row : DataRow lib} {descriptor : DataDescriptor}

theorem find_eq_some_iff : table.find id = some row ↔ row ∈ table.rows ∧ row.dataId = id :=
  Table.find?_eq_some_iff table.distinct

theorem findKey_eq_some_iff : table.findKey ref = some row ↔ row ∈ table.rows ∧ row.localId = ref :=
  Table.find?_eq_some_iff (table.ordered.imp Nat.ne_of_lt)

theorem refOf_eq_some_iff : table.refOf id = some ref ↔ ∃ row ∈ table.rows, row.dataId = id ∧ row.localId = ref := by
  simp only [refOf, Option.map_eq_some_iff, find_eq_some_iff, and_assoc]

/-- Two data with one key are one. -/
theorem refOf_inj {other : Octets} (left : table.refOf id = some ref) (right : table.refOf other = some ref) :
    id = other := by
  obtain ⟨row, inside, rfl, key⟩ := refOf_eq_some_iff.mp left
  obtain ⟨second, secondIn, rfl, same⟩ := refOf_eq_some_iff.mp right
  rw [Table.eq_of_column (table.ordered.imp Nat.ne_of_lt) inside secondIn (key.trans same.symm)]

theorem Extends.refl (table : DataTable lib) : table.Extends table :=
  fun row inside => ⟨row, inside, rfl, rfl⟩

theorem Extends.trans {last : DataTable lib} (second : last.Extends later) (first : later.Extends table) :
    last.Extends table := by
  intro row inside
  obtain ⟨middle, middleIn, key, descriptor⟩ := first row inside
  obtain ⟨kept, keptIn, keptKey, keptDescriptor⟩ := second middle middleIn
  exact ⟨kept, keptIn, keptKey.trans key, keptDescriptor.trans descriptor⟩

theorem Extends.refOf (extended : later.Extends table) (found : table.refOf id = some ref) : later.refOf id = some ref := by
  obtain ⟨row, inside, same, key⟩ := refOf_eq_some_iff.mp found
  obtain ⟨kept, keptIn, keptKey, descriptor⟩ := extended row inside
  exact refOf_eq_some_iff.mpr ⟨kept, keptIn, (congrArg DataDescriptor.manifestDigest descriptor).trans same,
    keptKey.trans key⟩

variable (table)

theorem update_extends (localId : DataRef) (change : DataRow lib → DataRow lib)
    (keeps : ∀ row, (change row).localId = row.localId ∧ (change row).descriptor = row.descriptor) :
    (table.update localId change keeps).Extends table := by
  intro row inside
  refine ⟨_, List.mem_map_of_mem inside, ?_⟩
  split
  · exact keeps row
  · exact ⟨rfl, rfl⟩

theorem length_noBits (lib : Securepath) (descriptor : DataDescriptor) :
    (HaveBitmap.ofCount (descriptor.chunkCount lib)).length = descriptor.chunkCount lib :=
  List.length_replicate

/-- The row of a data that becomes known. -/
def newRow (descriptor : DataDescriptor) : DataRow lib :=
  { localId := table.lastKey + 1, descriptor, sized := length_noBits lib descriptor }

/-- A row is added for a data that was not known. -/
theorem rows_withRow (descriptor : DataDescriptor) : (table.withRow descriptor).rows =
    table.rows ++ if (table.find descriptor.manifestDigest).isSome then [] else [table.newRow descriptor] := by
  unfold withRow
  split
  · rename_i unknown
    have absent : table.find descriptor.manifestDigest = none :=
      List.find?_eq_none.mpr fun row inside => by simpa using unknown row inside
    rw [absent]
    rfl
  · rename_i known
    have found : (table.find descriptor.manifestDigest).isSome = true := by
      simpa [find, List.find?_isSome] using known
    rw [if_pos found, List.append_nil]

theorem withRow_extends (descriptor : DataDescriptor) : (table.withRow descriptor).Extends table := by
  intro row inside
  rw [rows_withRow]
  exact ⟨row, List.mem_append_left _ inside, rfl, rfl⟩

theorem withRow_known (descriptor : DataDescriptor) :
    ∃ row ∈ (table.withRow descriptor).rows, row.dataId = descriptor.manifestDigest := by
  unfold withRow
  split
  · exact ⟨_, List.mem_append_right _ List.mem_cons_self, rfl⟩
  · rename_i known
    simpa using known

/-- A usable descriptor has a row from then on. -/
theorem ensure_ok (usable : descriptor.usable lib = true) :
    ∃ later ref, table.ensure descriptor = .ok (later, ref) ∧ later.Extends table ∧
      later.refOf descriptor.manifestDigest = some ref := by
  obtain ⟨row, inside, same⟩ := table.withRow_known descriptor
  have found := find_eq_some_iff.mpr ⟨inside, same⟩
  refine ⟨_, row.localId, ?_, table.withRow_extends descriptor, refOf_eq_some_iff.mpr ⟨row, inside, same, rfl⟩⟩
  unfold ensure
  rw [if_pos usable]
  dsimp only
  rw [found]

theorem reference_ok (usable : descriptor.usable lib = true) :
    ∃ later ref, table.reference descriptor = .ok (later, ref) ∧ later.Extends table ∧
      later.refOf descriptor.manifestDigest = some ref := by
  obtain ⟨middle, ref, ensured, extended, found⟩ := table.ensure_ok usable
  obtain ⟨row, inside, _, key⟩ := refOf_eq_some_iff.mp found
  have present := findKey_eq_some_iff.mpr ⟨inside, key⟩
  have wanted : (if row.state = .pruned then middle.setState ref .deferred else middle).Extends middle := by
    split
    · exact middle.update_extends ref _ _
    · exact .refl middle
  refine ⟨_, ref, ?_, wanted.trans extended, wanted.refOf found⟩
  unfold reference
  rw [ensured]
  simp only [bind, Except.bind]
  rw [present]
  rfl

end DataTable

end SpSync
