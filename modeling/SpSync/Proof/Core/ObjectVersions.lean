import Mathlib.Data.List.Perm.Subperm
import SpSync.Construction.Core.History
import SpSync.Foundation.Trail
import SpSync.Proof.Core.Mirror

namespace SpSync.RecordStorage

open Foundation

variable {lib : Securepath} {records kept : RecordStorage lib} {oid : ObjectId} {row : Row lib} {tag : RecordTag}
  {found : Row lib}

/-- The record in sync that the object had before this one. -/
def previousVersion (records : RecordStorage lib) (oid : ObjectId) (row : Row lib) : Option (Row lib) :=
  if row.previousOf oid = [] then none else records.findObjectVersion oid (row.previousOf oid)

/-- The row is a version of the object. -/
structure IsVersion (records : RecordStorage lib) (oid : ObjectId) (row : Row lib) : Prop where
  mem : row ∈ records.rows
  inSync : row.state = .inSync
  changes : row.changesObject oid = true

theorem findObjectVersion_eq_some_iff :
    records.findObjectVersion oid tag = some row ↔ records.IsVersion oid row ∧ row.tag = tag := by
  rw [findObjectVersion, Table.find?_eq_some_iff_of_unique] <;> simp only [Bool.and_eq_true, decide_eq_true_eq]
  · exact ⟨fun ⟨inside, ⟨same, inSync⟩, changes⟩ => ⟨⟨inside, inSync, changes⟩, same⟩,
      fun ⟨⟨inside, inSync, changes⟩, same⟩ => ⟨inside, ⟨same, inSync⟩, changes⟩⟩
  · intro left leftIn right rightIn first second
    exact row_eq_of_tag leftIn rightIn (first.1.1.trans second.1.1.symm)

theorem isVersion_of_previous (linked : records.previousVersion oid row = some found) :
    records.IsVersion oid found := by
  unfold previousVersion at linked
  split at linked
  · cases linked
  · exact (findObjectVersion_eq_some_iff.mp linked).1

theorem isVersion_of_findLastObject (found : records.findLastObject oid = some row) : records.IsVersion oid row := by
  rw [findLastObject_eq] at found
  obtain ⟨⟨inside, inSync, changes⟩, _⟩ := newest_eq_some_iff.mp found
  exact ⟨inside, inSync, changes⟩

/-- The walk is the trail along the previous records while the fuel exceeds the rows that are left to visit. -/
theorem trail_objectVersionsFrom {fuel : Nat} {visited : List RecordTag} {start : Option (Row lib)}
    (inside : ∀ row ∈ start, row ∈ records.rows) (nodup : visited.Nodup) (tags : visited ⊆ records.rows.map Row.tag)
    (enough : records.rows.length + 1 ≤ fuel + visited.length) :
    Trail Row.tag (records.previousVersion oid) visited start (records.objectVersionsFrom oid fuel visited start) := by
  induction fuel generalizing visited start with
  | zero =>
    have bounded := (nodup.subperm tags).length_le
    rw [List.length_map] at bounded
    omega
  | succ fuel ih =>
    cases start with
    | none => exact .ended visited
    | some row =>
      unfold objectVersionsFrom
      split
      · rename_i seen
        exact .again seen
      rename_i fresh
      apply Trail.step fresh
      apply ih
      · intro found linked
        exact (isVersion_of_previous linked).mem
      · exact List.nodup_cons.mpr ⟨fresh, nodup⟩
      · intro tag listed
        obtain rfl | old := List.mem_cons.mp listed
        · exact List.mem_map_of_mem (inside row rfl)
        · exact tags old
      · rw [List.length_cons]
        omega

/-- The versions of an object are the trail from its newest record. -/
theorem trail_objectVersions (records : RecordStorage lib) (oid : ObjectId) :
    Trail Row.tag (records.previousVersion oid) [] (records.findLastObject oid) (records.objectVersions oid) := by
  apply trail_objectVersionsFrom
  · intro row found
    exact (isVersion_of_findLastObject found).mem
  · exact List.nodup_nil
  · exact List.nil_subset _
  · simp

theorem isVersion_of_mem (inside : row ∈ records.objectVersions oid) : records.IsVersion oid row := by
  apply (records.trail_objectVersions oid).all _ _ row inside
  · intro row found
    exact isVersion_of_findLastObject found
  · intro row found _ linked
    exact isVersion_of_previous linked

theorem objectVersions_tags_nodup (records : RecordStorage lib) (oid : ObjectId) :
    ((records.objectVersions oid).map Row.tag).Nodup :=
  (records.trail_objectVersions oid).keys_nodup.1

/-- The newest record of an object is one of its versions. -/
theorem mem_objectVersions_of_last (found : records.findLastObject oid = some row) :
    row ∈ records.objectVersions oid := by
  have listed := (records.trail_objectVersions oid).closed.1 row found
  simpa using listed

/-- The record before a version of an object is a version as well. -/
theorem mem_objectVersions_of_previous (inside : row ∈ records.objectVersions oid)
    (linked : records.previousVersion oid row = some found) : found ∈ records.objectVersions oid := by
  obtain seen | listed := (records.trail_objectVersions oid).closed.2 row inside found linked
  · cases seen
  · obtain ⟨other, otherIn, same⟩ := List.mem_map.mp listed
    rwa [← row_eq_of_tag (isVersion_of_mem otherIn).mem (isVersion_of_previous linked).mem same]

/-- Rows that are no versions of the object may go without a change to its versions. -/
theorem objectVersions_of_kept (sub : ∀ row ∈ kept.rows, row ∈ records.rows)
    (stays : ∀ row ∈ records.objectVersions oid, row ∈ kept.rows) :
    kept.objectVersions oid = records.objectVersions oid := by
  have last : kept.findLastObject oid = records.findLastObject oid := by
    rw [findLastObject_eq, findLastObject_eq]
    exact newest_of_kept sub fun row found => stays row (mem_objectVersions_of_last found)
  apply Trail.unique (kept.trail_objectVersions oid)
  rw [last]
  apply (records.trail_objectVersions oid).congr
  intro row inside
  cases linked : records.previousVersion oid row with
  | none =>
    -- A version that is left would have been a version before.
    rw [Option.eq_none_iff_forall_ne_some]
    intro found again
    unfold previousVersion at linked again
    split at again
    · cases again
    rename_i some
    obtain ⟨⟨foundIn, inSync, changes⟩, same⟩ := findObjectVersion_eq_some_iff.mp again
    rw [if_neg some, findObjectVersion_eq_some_iff.mpr ⟨⟨sub found foundIn, inSync, changes⟩, same⟩] at linked
    cases linked
  | some found =>
    have foundIn := stays found (mem_objectVersions_of_previous inside linked)
    unfold previousVersion at linked ⊢
    split at linked
    · cases linked
    rename_i some
    obtain ⟨⟨_, inSync, changes⟩, same⟩ := findObjectVersion_eq_some_iff.mp linked
    rw [if_neg some, findObjectVersion_eq_some_iff]
    exact ⟨⟨foundIn, inSync, changes⟩, same⟩

theorem mem_objectIds (version : records.IsVersion oid row) : oid ∈ records.objectIds := by
  obtain ⟨change, changeIn, rfl⟩ : ∃ change ∈ row.objects, change.id = oid := by
    simpa [Row.changesObject] using version.changes
  rw [objectIds, List.mem_eraseDups, List.mem_flatMap]
  exact ⟨row, List.mem_filter.mpr ⟨version.mem, by simp [version.inSync]⟩, List.mem_map_of_mem changeIn⟩

/-- The retained tags are those of the versions below the cut. -/
theorem mem_objectChainTagsBelow_iff {below : SequenceNumber} :
    tag ∈ records.objectChainTagsBelow below ↔
      ∃ oid, ∃ row ∈ records.objectVersions oid, row.sequence < below ∧ row.tag = tag := by
  unfold objectChainTagsBelow
  simp only [List.mem_eraseDups, List.mem_flatMap, List.mem_map, List.mem_filter, decide_eq_true_eq, and_assoc]
  constructor
  · intro found
    obtain ⟨oid, _, row, inside, before, same⟩ := found
    exact ⟨oid, row, inside, before, same⟩
  · intro found
    obtain ⟨oid, row, inside, before, same⟩ := found
    exact ⟨oid, mem_objectIds (isVersion_of_mem inside), row, inside, before, same⟩

end SpSync.RecordStorage
