import Mathlib.Logic.Function.Basic
import SpSync.Proof.Core.DataReferences

namespace SpSync.DataTable

open Foundation

variable {lib : Securepath} {table : DataTable lib} {row : DataRow lib} {id : Octets}

theorem dataId_of_find (found : table.find id = some row) : row.dataId = id :=
  (find_eq_some_iff.mp found).2

theorem findKey_of_find (found : table.find id = some row) : table.findKey row.localId = some row :=
  findKey_eq_some_iff.mpr ⟨(find_eq_some_iff.mp found).1, rfl⟩

/-- A key belongs to one data. -/
theorem eq_of_localId {other : DataRow lib} {otherId : Octets} (found : table.find id = some row)
    (otherFound : table.find otherId = some other) (same : other.localId = row.localId) : otherId = id := by
  obtain ⟨inside, rfl⟩ := find_eq_some_iff.mp found
  obtain ⟨otherInside, rfl⟩ := find_eq_some_iff.mp otherFound
  rw [Table.eq_of_column (table.ordered.imp Nat.ne_of_lt) otherInside inside same]

theorem find_update (table : DataTable lib) (localId : DataRef) (change : DataRow lib → DataRow lib)
    (keeps : ∀ row, (change row).localId = row.localId ∧ (change row).descriptor = row.descriptor) (id : Octets) :
    (table.update localId change keeps).find id =
      (table.find id).map fun row => if row.localId = localId then change row else row := by
  unfold find update
  rw [List.find?_map]
  congr 2
  funext row
  show decide ((if row.localId = localId then change row else row).dataId = id) = decide (row.dataId = id)
  split
  · rw [DataRow.dataId, (keeps row).2]
    rfl
  · rfl

section

variable (found : table.find id = some row)
include found

/-- A change of the row of a data changes what is known of this data only. -/
theorem find_update_known (change : DataRow lib → DataRow lib)
    (keeps : ∀ row, (change row).localId = row.localId ∧ (change row).descriptor = row.descriptor) :
    (table.update row.localId change keeps).find = Function.update table.find id (some (change row)) := by
  funext other
  rw [find_update]
  by_cases same : other = id
  · rw [same, Function.update_self, found, Option.map_some, if_pos rfl]
  rw [Function.update_of_ne same]
  cases otherFound : table.find other with
  | none => rfl
  | some otherRow =>
    rw [Option.map_some, if_neg fun sameKey => same (eq_of_localId found otherFound sameKey)]

/-- The row with other bits, cut to the number of its chunks. -/
def withBits (row : DataRow lib) (bits : HaveBitmap) : DataRow lib :=
  { row with
    haveBits := bits.normalise (row.descriptor.chunkCount lib)
    sized := HaveBitmap.length_normalise _ _ }

theorem find_setState (state : RecordDataState) :
    (table.setState row.localId state).find = Function.update table.find id (some { row with state }) :=
  find_update_known found (fun row => { row with state }) fun _ => ⟨rfl, rfl⟩

theorem find_setHave (bits : HaveBitmap) :
    (table.setHave row.localId bits).find = Function.update table.find id (some (withBits row bits)) :=
  find_update_known found (fun row => withBits row bits) fun _ => ⟨rfl, rfl⟩

theorem find_setDigests (digests : Octets) :
    (table.setDigests row.localId digests).find =
      Function.update table.find id (some { row with digests := some digests }) :=
  find_update_known found (fun row => { row with digests := some digests }) fun _ => ⟨rfl, rfl⟩

theorem find_setHeader (header : DataHeader) :
    (table.setHeader row.localId header).find =
      Function.update table.find id (some { row with header := some header }) :=
  find_update_known found (fun row => { row with header := some header }) fun _ => ⟨rfl, rfl⟩

/-- The bits and the state of one row change. -/
theorem find_setHave_setState (bits : HaveBitmap) (state : RecordDataState) :
    ((table.setHave row.localId bits).setState row.localId state).find =
      Function.update table.find id (some { withBits row bits with state }) := by
  have held : (table.setHave row.localId bits).find id = some (withBits row bits) := by
    rw [find_setHave found, Function.update_self]
  refine (find_setState held state).trans ?_
  rw [find_setHave found, Function.update_idem]

theorem find_remove : (table.remove row.localId).find = Function.update table.find id none := by
  funext other
  by_cases same : other = id
  · rw [same, Function.update_self]
    refine List.find?_eq_none.mpr fun kept inside => ?_
    obtain ⟨before, differ⟩ := List.mem_filter.mp inside
    rw [decide_eq_true_iff]
    intro itsId
    have known := find_eq_some_iff.mpr ⟨before, itsId⟩
    rw [found] at known
    rw [Option.some.inj known] at differ
    exact absurd rfl (of_decide_eq_true differ)
  · rw [Function.update_of_ne same]
    apply Option.ext
    intro otherRow
    rw [find_eq_some_iff, find_eq_some_iff]
    constructor
    · rintro ⟨inside, itsId⟩
      exact ⟨List.mem_of_mem_filter inside, itsId⟩
    · rintro ⟨inside, itsId⟩
      refine ⟨List.mem_filter.mpr ⟨inside, decide_eq_true fun sameKey => ?_⟩, itsId⟩
      exact same (eq_of_localId found (find_eq_some_iff.mpr ⟨inside, itsId⟩) sameKey)

end

variable (table) {descriptor : DataDescriptor}

theorem find_withRow (descriptor : DataDescriptor) :
    (table.withRow descriptor).find = Function.update table.find descriptor.manifestDigest
      (some ((table.find descriptor.manifestDigest).getD (table.newRow descriptor))) := by
  funext other
  show (table.withRow descriptor).rows.find? _ = _
  rw [rows_withRow, List.find?_append]
  show (table.find other).or _ = _
  by_cases same : other = descriptor.manifestDigest
  · subst same
    rw [Function.update_self]
    cases found : table.find descriptor.manifestDigest with
    | none =>
      show [table.newRow descriptor].find? (fun row => row.dataId = descriptor.manifestDigest) = _
      exact List.find?_cons_of_pos (decide_eq_true rfl)
    | some row => rfl
  · rw [Function.update_of_ne same, List.find?_eq_none.mpr, Option.or_none]
    intro row inside
    split at inside
    · cases inside
    · rw [List.mem_singleton.mp inside, decide_eq_true_iff]
      exact Ne.symm same

/-- The row that a usable descriptor gets is the known one, or a new one. -/
theorem ensure_eq (usable : descriptor.usable lib = true) :
    table.ensure descriptor = .ok (table.withRow descriptor,
      ((table.find descriptor.manifestDigest).getD (table.newRow descriptor)).localId) := by
  unfold ensure
  rw [if_pos usable]
  dsimp only
  rw [find_withRow, Function.update_self]

theorem ensure_unusable (unusable : descriptor.usable lib ≠ true) :
    table.ensure descriptor = .error ⟨.invalidData, "record data descriptor out of bounds"⟩ :=
  if_neg unusable

end SpSync.DataTable
