import SpSync.Construction.Core.DataIndex
import SpSync.Proof.Core.ObjectVersions

namespace SpSync.DataIndex

open Foundation RecordStorage

variable {lib : Securepath} (index : DataIndex lib) (below : SequenceNumber) (keptVersions : Nat)

/-- The version of the object carries a data and lies below the cut. -/
def carries (oid : ObjectId) (row : Row lib) : Bool :=
  row.sequence < below && (index.dataRef row.tag oid).isSome

/-- The row is a version of the object below the cut, with at least the kept number of newer versions below the
cut that carry a data. -/
def Superseded (oid : ObjectId) (row : Row lib) : Prop :=
  row.sequence < below ∧ ∃ newer older, index.records.objectVersions oid = newer ++ row :: older ∧
    keptVersions ≤ newer.countP (index.carries below oid)

/-- The versions of the object below the cut that carry a data, without the newest ones that are kept. -/
def supersededVersions (oid : ObjectId) : List (Row lib) :=
  ((index.records.objectVersions oid).filter (index.carries below oid)).drop keptVersions

/-- The references to the data, by the record and the object. -/
def references (ref : DataRef) : List (RecordTag × ObjectId) :=
  index.records.rows.flatMap fun row =>
    (row.objects.filter fun change => index.dataRef row.tag change.id = some ref).map fun change =>
      (row.tag, change.id)

/-- The references to the data that superseded versions make. -/
def supersededReferencesTo (ref : DataRef) : List (RecordTag × ObjectId) :=
  index.records.objectIds.flatMap fun oid =>
    ((index.supersededVersions below keptVersions oid).filter fun row => index.dataRef row.tag oid = some ref).map
      fun row => (row.tag, oid)

/-- No record names one object twice. -/
def NamesOnce : Prop :=
  ∀ row ∈ index.records.rows, (row.objects.map PlainSingleChangeData.id).Nodup

instance : Decidable index.NamesOnce :=
  inferInstanceAs (Decidable (∀ row ∈ index.records.rows, _))

variable {index below keptVersions} {ref : DataRef} {oid : ObjectId} {data : DataStateRow} {tag : RecordTag}
  {row : Row lib}

/-- The walk over the versions counts those that carry a data below the cut and notes the data of the ones
after the kept number. -/
theorem foldl_noteVersion (oid : ObjectId) (rows : List (Row lib)) (count : Nat) (tally : Tally DataRef) :
    (rows.foldl (index.noteVersion below keptVersions oid) (count, tally)).2 =
      (((rows.filter (index.carries below oid)).drop (keptVersions - count)).filterMap fun row =>
        index.dataRef row.tag oid).foldl Tally.increment tally := by
  induction rows generalizing count tally with
  | nil => simp
  | cons row rest ih =>
    rw [List.foldl_cons, noteVersion]
    cases named : index.dataRef row.tag oid with
    | none =>
      rw [List.filter_cons_of_neg (by simp [carries, named])]
      exact ih count tally
    | some ref =>
      by_cases before : row.sequence < below
      · rw [List.filter_cons_of_pos (by simp [carries, named, before])]
        simp only [before, if_true]
        rw [ih]
        by_cases full : keptVersions < count + 1
        · have none : keptVersions - count = 0 := by omega
          have still : keptVersions - (count + 1) = 0 := by omega
          simp [full, none, still, named]
        · have more : keptVersions - count = keptVersions - (count + 1) + 1 := by omega
          rw [if_neg full, more, List.drop_succ_cons]
      · rw [List.filter_cons_of_neg (by simp [carries, before])]
        simp only [before, if_false]
        exact ih count tally

/-- The data that superseded versions name, once for each reference. -/
theorem supersededReferences_eq : index.supersededReferences below keptVersions =
    (index.records.objectIds.flatMap fun oid =>
      (index.supersededVersions below keptVersions oid).filterMap fun row => index.dataRef row.tag oid).foldl
      Tally.increment ∅ := by
  unfold supersededReferences
  rw [List.foldl_flatMap]
  congr 1
  funext tally oid
  rw [foldl_noteVersion, Nat.sub_zero]
  rfl

theorem count_filterMap_dataRef (ref : DataRef) (oid : ObjectId) (rows : List (Row lib)) :
    (rows.filterMap fun row => index.dataRef row.tag oid).count ref =
      (rows.filter fun row => index.dataRef row.tag oid = some ref).length := by
  induction rows with
  | nil => rfl
  | cons row rest ih =>
    cases named : index.dataRef row.tag oid with
    | none => simp [named, ih]
    | some other =>
      by_cases same : other = ref
      · simp [named, same, ih]
      · simp [named, same, ih]

/-- The superseded references to a data are counted one by one. -/
theorem lookup_supersededReferences (ref : DataRef) (count : Nat) :
    (index.supersededReferences below keptVersions).lookup ref = some count ↔
      0 < count ∧ (index.supersededReferencesTo below keptVersions ref).length = count := by
  have counted : (index.records.objectIds.flatMap fun oid =>
      (index.supersededVersions below keptVersions oid).filterMap fun row => index.dataRef row.tag oid).count ref =
        (index.supersededReferencesTo below keptVersions ref).length := by
    rw [supersededReferencesTo, List.count_flatMap, List.length_flatMap]
    congr 1
    apply List.map_congr_left
    intro oid _
    rw [Function.comp, count_filterMap_dataRef, List.length_map]
  rw [supersededReferences_eq, Tally.lookup_foldl_increment, counted]

theorem length_references (ref : DataRef) : (index.references ref).length = index.referenceCount ref := by
  unfold references referenceCount
  simp only [List.length_flatMap, List.length_map]

theorem mem_references_iff : (tag, oid) ∈ index.references ref ↔
    ∃ row ∈ index.records.rows, row.tag = tag ∧ row.changesObject oid = true ∧ index.dataRef tag oid = some ref := by
  simp only [references, List.mem_flatMap, List.mem_map, List.mem_filter, decide_eq_true_eq, Prod.mk.injEq,
    Row.changesObject, List.any_eq_true]
  constructor
  · rintro ⟨row, inside, change, ⟨changeIn, named⟩, rfl, rfl⟩
    exact ⟨row, inside, rfl, ⟨change, changeIn, rfl⟩, named⟩
  · rintro ⟨row, inside, rfl, ⟨change, changeIn, rfl⟩, named⟩
    exact ⟨row, inside, change, ⟨changeIn, named⟩, rfl, rfl⟩

theorem mem_supersededVersions_iff (named : index.dataRef row.tag oid = some ref) :
    row ∈ index.supersededVersions below keptVersions oid ↔ index.Superseded below keptVersions oid row := by
  rw [supersededVersions, Tally.mem_drop_filter_iff, Superseded, carries, named]
  simp

theorem isVersion_of_supersededVersions (inside : row ∈ index.supersededVersions below keptVersions oid) :
    index.records.IsVersion oid row :=
  isVersion_of_mem (List.mem_of_mem_filter (List.mem_of_mem_drop inside))

theorem mem_supersededReferencesTo_iff :
    (tag, oid) ∈ index.supersededReferencesTo below keptVersions ref ↔
      ∃ row ∈ index.supersededVersions below keptVersions oid, row.tag = tag ∧ index.dataRef tag oid = some ref := by
  simp only [supersededReferencesTo, List.mem_flatMap, List.mem_map, List.mem_filter, decide_eq_true_eq,
    Prod.mk.injEq]
  constructor
  · rintro ⟨other, _, row, ⟨inside, named⟩, rfl, rfl⟩
    exact ⟨row, inside, rfl, named⟩
  · rintro ⟨row, inside, rfl, named⟩
    exact ⟨oid, mem_objectIds (isVersion_of_supersededVersions inside), row, ⟨inside, named⟩, rfl, rfl⟩

theorem supersededReferencesTo_subset (ref : DataRef) :
    index.supersededReferencesTo below keptVersions ref ⊆ index.references ref := by
  rintro ⟨tag, oid⟩ listed
  obtain ⟨row, inside, rfl, named⟩ := mem_supersededReferencesTo_iff.mp listed
  have version := isVersion_of_supersededVersions inside
  exact mem_references_iff.mpr ⟨row, version.mem, rfl, version.changes, named⟩

theorem references_nodup (once : index.NamesOnce) (ref : DataRef) : (index.references ref).Nodup := by
  rw [references, List.nodup_flatMap]
  constructor
  · intro row inside
    have ids := (once row inside).sublist ((List.filter_sublist
      (p := fun change => decide (index.dataRef row.tag change.id = some ref))).map PlainSingleChangeData.id)
    have pairs := ids.map (f := fun oid => (row.tag, oid)) fun _ _ same => (Prod.mk.inj same).2
    rwa [List.map_map] at pairs
  · apply index.records.unique.tags.imp
    intro left right apart reference first second
    obtain ⟨_, _, rfl⟩ := List.mem_map.mp first
    obtain ⟨_, _, same⟩ := List.mem_map.mp second
    exact apart (Prod.mk.inj same).1.symm

theorem supersededReferencesTo_nodup (ref : DataRef) :
    (index.supersededReferencesTo below keptVersions ref).Nodup := by
  rw [supersededReferencesTo, List.nodup_flatMap]
  constructor
  · intro oid _
    have sub : ((index.supersededVersions below keptVersions oid).filter fun row =>
        index.dataRef row.tag oid = some ref).Sublist (index.records.objectVersions oid) :=
      List.filter_sublist.trans ((List.drop_sublist _ _).trans List.filter_sublist)
    have tags := (index.records.objectVersions_tags_nodup oid).sublist (sub.map Row.tag)
    have pairs := tags.map (f := fun tag => (tag, oid)) fun _ _ same => (Prod.mk.inj same).1
    rwa [List.map_map] at pairs
  · have distinct : index.records.objectIds.Nodup := Tally.nodup_eraseDups _
    apply distinct.imp
    intro left right apart reference first second
    obtain ⟨_, _, rfl⟩ := List.mem_map.mp first
    obtain ⟨_, _, same⟩ := List.mem_map.mp second
    exact apart (Prod.mk.inj same).2.symm

theorem find_eq_some_iff : index.find ref = some data ↔ data ∈ index.datas ∧ data.localId = ref := by
  exact Table.find?_eq_some_iff (List.pairwise_map.mp index.distinctIds)

theorem mem_onlyReferencedBy_iff {tally : Tally DataRef} :
    data ∈ index.onlyReferencedBy tally ↔ data ∈ index.datas ∧ data.state ≠ .pruned ∧
      tally.lookup data.localId = some (index.referenceCount data.localId) := by
  simp only [onlyReferencedBy, List.mem_filterMap, List.mem_insertionSort, Option.filter_eq_some_iff,
    find_eq_some_iff, Bool.and_eq_true, decide_eq_true_eq]
  constructor
  · rintro ⟨⟨ref, count⟩, inside, ⟨dataIn, rfl⟩, unpruned, same⟩
    exact ⟨dataIn, unpruned, same ▸ AList.mem_lookup_iff.mpr inside⟩
  · rintro ⟨dataIn, unpruned, found⟩
    exact ⟨⟨data.localId, index.referenceCount data.localId⟩, AList.mem_lookup_iff.mp found, ⟨dataIn, rfl⟩, unpruned, rfl⟩

/-- The count of the superseded references is the count of all references exactly when there is one and all are
superseded. -/
theorem lookup_eq_referenceCount_iff (once : index.NamesOnce) (ref : DataRef) :
    (index.supersededReferences below keptVersions).lookup ref = some (index.referenceCount ref) ↔
      index.references ref ≠ [] ∧ index.references ref ⊆ index.supersededReferencesTo below keptVersions ref := by
  rw [lookup_supersededReferences, ← length_references, List.length_pos_iff]
  refine and_congr_right fun _ => ?_
  apply Tally.length_eq_iff
  · exact supersededReferencesTo_nodup ref
  · exact references_nodup once ref
  · exact supersededReferencesTo_subset ref

/-- Some object row names the data, and every object row that does belongs to a superseded version. -/
def OnlySuperseded (index : DataIndex lib) (below : SequenceNumber) (keptVersions : Nat) (ref : DataRef) : Prop :=
  (∃ row ∈ index.records.rows, ∃ change ∈ row.objects, index.dataRef row.tag change.id = some ref) ∧
    ∀ row ∈ index.records.rows, ∀ change ∈ row.objects, index.dataRef row.tag change.id = some ref →
      index.Superseded below keptVersions change.id row

theorem onlySuperseded_iff (ref : DataRef) : index.OnlySuperseded below keptVersions ref ↔
    index.references ref ≠ [] ∧ index.references ref ⊆ index.supersededReferencesTo below keptVersions ref := by
  have listed {row : Row lib} {change : PlainSingleChangeData} (rowIn : row ∈ index.records.rows)
      (changeIn : change ∈ row.objects) (named : index.dataRef row.tag change.id = some ref) :
      (row.tag, change.id) ∈ index.references ref :=
    mem_references_iff.mpr ⟨row, rowIn, rfl, List.any_eq_true.mpr ⟨change, changeIn, decide_eq_true rfl⟩, named⟩
  constructor
  · rintro ⟨⟨row, rowIn, change, changeIn, named⟩, all⟩
    refine ⟨List.ne_nil_of_mem (listed rowIn changeIn named), ?_⟩
    rintro ⟨tag, oid⟩ inside
    obtain ⟨other, otherIn, rfl, changes, otherNamed⟩ := mem_references_iff.mp inside
    obtain ⟨otherChange, otherChangeIn, same⟩ := List.any_eq_true.mp changes
    obtain rfl := of_decide_eq_true same
    have superseded := all other otherIn otherChange otherChangeIn otherNamed
    exact mem_supersededReferencesTo_iff.mpr
      ⟨other, (mem_supersededVersions_iff otherNamed).mpr superseded, rfl, otherNamed⟩
  · rintro ⟨some, all⟩
    constructor
    · obtain ⟨⟨tag, oid⟩, inside⟩ := List.exists_mem_of_ne_nil _ some
      obtain ⟨row, rowIn, rfl, changes, named⟩ := mem_references_iff.mp inside
      obtain ⟨change, changeIn, same⟩ := List.any_eq_true.mp changes
      obtain rfl := of_decide_eq_true same
      exact ⟨row, rowIn, change, changeIn, named⟩
    · intro row rowIn change changeIn named
      obtain ⟨other, otherIn, same, _⟩ := mem_supersededReferencesTo_iff.mp (all (listed rowIn changeIn named))
      rw [row_eq_of_tag (isVersion_of_supersededVersions otherIn).mem rowIn same] at otherIn
      exact (mem_supersededVersions_iff named).mp otherIn

theorem mem_supersededRows_iff (once : index.NamesOnce) (some : keptVersions ≠ 0)
    (notAll : keptVersions ≠ keepAllDataVersions) :
    data ∈ index.supersededRows below keptVersions ↔
      data ∈ index.datas ∧ data.state ≠ .pruned ∧ index.OnlySuperseded below keptVersions data.localId := by
  rw [supersededRows, if_pos (by simp [some, notAll]), mem_onlyReferencedBy_iff,
    lookup_eq_referenceCount_iff once, onlySuperseded_iff]

/-- Pruning marks the given rows and leaves the others. -/
theorem mem_prune_iff {rows : List DataStateRow} (known : rows ⊆ index.datas) :
    data ∈ (index.prune rows).1.datas ↔
      (data ∈ index.datas ∧ data ∉ rows) ∨ ∃ old ∈ rows, data = { old with state := .pruned } := by
  have marked {old : DataStateRow} (inside : old ∈ index.datas) :
      old.localId ∈ rows.map DataStateRow.localId ↔ old ∈ rows := by
    constructor
    · intro listed
      obtain ⟨other, otherIn, same⟩ := List.mem_map.mp listed
      rwa [← List.inj_on_of_nodup_map index.distinctIds (known otherIn) inside same]
    · exact List.mem_map_of_mem
  have datas : (index.prune rows).1.datas = index.datas.map fun data =>
      if data.localId ∈ rows.map DataStateRow.localId then { data with state := .pruned } else data := rfl
  rw [datas, List.mem_map]
  constructor
  · rintro ⟨old, inside, rfl⟩
    by_cases listed : old ∈ rows
    · exact Or.inr ⟨old, listed, if_pos ((marked inside).mpr listed)⟩
    · rw [if_neg ((marked inside).not.mpr listed)]
      exact Or.inl ⟨inside, listed⟩
  · rintro (⟨inside, unlisted⟩ | ⟨old, listed, rfl⟩)
    · exact ⟨data, inside, if_neg ((marked inside).not.mpr unlisted)⟩
    · exact ⟨old, known listed, if_pos ((marked (known listed)).mpr listed)⟩

/-- The retention policy lets go exactly the data that are not pruned yet and that superseded versions and
nothing else name, and prunes no others. -/
theorem supersededDataBelow_exact (index : DataIndex lib) (below : SequenceNumber) {keptVersions : Nat}
    (once : index.NamesOnce) (some : keptVersions ≠ 0) (notAll : keptVersions ≠ keepAllDataVersions) :
    (∀ id, id ∈ index.supersededDataBelow below keptVersions ↔
      ∃ data ∈ index.datas, data.descriptor.manifestDigest = id ∧ data.state ≠ .pruned ∧
        index.OnlySuperseded below keptVersions data.localId) ∧
    ∀ data ∈ (index.pruneSupersededData below keptVersions).1.datas, data ∈ index.datas ∨
      (data.state = .pruned ∧ index.OnlySuperseded below keptVersions data.localId) := by
  constructor
  · intro id
    simp only [supersededDataBelow, List.mem_map, mem_supersededRows_iff once some notAll]
    constructor
    · rintro ⟨data, ⟨inside, unpruned, superseded⟩, same⟩
      exact ⟨data, inside, same, unpruned, superseded⟩
    · rintro ⟨data, inside, same, unpruned, superseded⟩
      exact ⟨data, ⟨inside, unpruned, superseded⟩, same⟩
  · intro data inside
    have known : index.supersededRows below keptVersions ⊆ index.datas := fun other otherIn =>
      ((mem_supersededRows_iff once some notAll).mp otherIn).1
    obtain ⟨old, _⟩ | ⟨old, listed, rfl⟩ := (mem_prune_iff known).mp inside
    · exact Or.inl old
    · exact Or.inr ⟨rfl, ((mem_supersededRows_iff once some notAll).mp listed).2.2⟩

/-- One version of an object. -/
def versionRow (sequence : SequenceNumber) (tag previous : RecordTag) : Row .sample where
  key := sequence
  tag := tag
  sequence := sequence
  hash := tag
  parentHash := previous
  state := .inSync
  block := ⟨(1, ⟨{ opId := tag }, .dataChange [⟨[5], previous, none⟩], []⟩), ⟨tag, none⟩,
    sequence, previous⟩
  type := .dataChange
  opId := tag

/-- Two versions of an object with a data each. -/
def twoVersions : DataIndex .sample where
  records := ⟨[versionRow 1 [1] [], versionRow 2 [2] [1]], by decide⟩
  dataRef tag _ := if tag = [1] then some 1 else if tag = [2] then some 2 else none
  datas := [⟨1, ⟨1, 1, [7]⟩, .inSync⟩, ⟨2, ⟨1, 1, [8]⟩, .inSync⟩]
  distinctIds := by decide

theorem supersededDataBelow_exact_two : twoVersions.supersededDataBelow 3 1 = [[7]] ∧
    (∃ data ∈ twoVersions.datas, data.descriptor.manifestDigest = [7] ∧ data.state ≠ .pruned ∧
      twoVersions.OnlySuperseded 3 1 data.localId) ∧ ¬ twoVersions.OnlySuperseded 3 1 2 := by
  have exact := (supersededDataBelow_exact twoVersions 3 (show twoVersions.NamesOnce by decide +kernel)
    Nat.one_ne_zero (by decide)).1
  have result : twoVersions.supersededDataBelow 3 1 = [[7]] := by decide +kernel
  refine ⟨result, (exact [7]).mp (by simp [result]), fun superseded => ?_⟩
  have listed := (exact [8]).mpr ⟨⟨2, ⟨1, 1, [8]⟩, .inSync⟩, by decide, rfl, by decide, superseded⟩
  simp [result] at listed

end SpSync.DataIndex
