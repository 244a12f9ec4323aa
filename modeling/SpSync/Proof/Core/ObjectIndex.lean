import SpSync.Foundation.Run
import SpSync.Proof.Core.DataReferences

namespace SpSync

open Foundation

variable {lib : Securepath}

/-- The row of the object table that belongs to a change of a record. -/
def PlainSingleChangeData.objectRow (datas : DataTable lib) (tag : RecordTag) (change : PlainSingleChangeData) :
    RecordObject :=
  ⟨tag, change.previousOidRecordTag, change.id,
    (change.data.filter (DataDescriptor.usable lib)).bind fun descriptor => datas.refOf descriptor.manifestDigest⟩

/-- The data that the change names with a usable descriptor has a row. -/
def PlainSingleChangeData.Known (datas : DataTable lib) (change : PlainSingleChangeData) : Prop :=
  ∀ descriptor, change.data.filter (DataDescriptor.usable lib) = some descriptor →
    ∃ ref, datas.refOf descriptor.manifestDigest = some ref

/-- The object rows that belong to a record. -/
def Row.objectRows (datas : DataTable lib) (row : Row lib) : List RecordObject :=
  row.objects.map (PlainSingleChangeData.objectRow datas row.tag)

section Changes

variable {datas later : DataTable lib} {change : PlainSingleChangeData}

theorem PlainSingleChangeData.Known.extend (known : change.Known datas) (extended : later.Extends datas) :
    change.Known later := by
  intro descriptor named
  obtain ⟨ref, found⟩ := known descriptor named
  exact ⟨ref, extended.refOf found⟩

/-- The object row of a known data does not change with the data table. -/
theorem PlainSingleChangeData.Known.objectRow_eq (known : change.Known datas) (extended : later.Extends datas)
    (tag : RecordTag) : change.objectRow later tag = change.objectRow datas tag := by
  unfold objectRow
  cases named : change.data.filter (DataDescriptor.usable lib) with
  | none => rfl
  | some descriptor =>
    obtain ⟨ref, found⟩ := known descriptor named
    rw [Option.bind_some, Option.bind_some, found, extended.refOf found]

namespace RecordTables

theorem createObjectRecord_ok (tag : RecordTag) (objects : List RecordObject) (datas : DataTable lib)
    (change : PlainSingleChangeData) : ∃ later : DataTable lib, createObjectRecord tag (objects, datas) change =
      .ok (objects ++ [change.objectRow later tag], later) ∧ later.Extends datas ∧ change.Known later := by
  unfold createObjectRecord PlainSingleChangeData.Known PlainSingleChangeData.objectRow
  cases named : change.data.filter (DataDescriptor.usable lib) with
  | none => exact ⟨datas, rfl, .refl datas, nofun⟩
  | some descriptor =>
    obtain ⟨later, ref, referenced, extended, found⟩ := datas.reference_ok (Option.filter_eq_some_iff.mp named).2
    refine ⟨later, ?_, extended, ?_⟩
    · rw [Option.bind_some, found]
      dsimp only
      rw [referenced]
      rfl
    · rintro _ ⟨⟩
      exact ⟨ref, found⟩

/-- Every change of a record gets one object row. -/
theorem createObjectRecords_ok (tag : RecordTag) (changes : List PlainSingleChangeData) (objects : List RecordObject)
    (datas : DataTable lib) : ∃ later : DataTable lib, createObjectRecords tag changes (objects, datas) =
      .ok (objects ++ changes.map (PlainSingleChangeData.objectRow later tag), later) ∧ later.Extends datas ∧
      ∀ change ∈ changes, change.Known later := by
  induction changes generalizing objects datas with
  | nil => exact ⟨datas, by rw [List.map_nil, List.append_nil]; rfl, .refl datas, nofun⟩
  | cons change rest ih =>
    obtain ⟨middle, first, extended, known⟩ := createObjectRecord_ok tag objects datas change
    obtain ⟨later, others, further, all⟩ := ih (objects ++ [change.objectRow middle tag]) middle
    refine ⟨later, ?_, further.trans extended, List.forall_mem_cons.mpr ⟨known.extend further, all⟩⟩
    unfold createObjectRecords at others ⊢
    rw [List.foldlM_cons, first]
    refine others.trans ?_
    rw [List.map_cons, known.objectRow_eq further, List.append_assoc, List.singleton_append]

end RecordTables

end Changes

namespace Constrained

variable {rows : List (SelectedRow lib)} {left right : SelectedRow lib}

theorem distinctKeys (constrained : Constrained rows) : rows.Pairwise fun left right => left.key ≠ right.key :=
  constrained.keys.imp Nat.ne_of_lt

theorem eq_of_key (constrained : Constrained rows) (leftIn : left ∈ rows) (rightIn : right ∈ rows)
    (same : left.key = right.key) : left = right :=
  Table.eq_of_column constrained.distinctKeys leftIn rightIn same

theorem eq_of_tag (constrained : Constrained rows) (leftIn : left ∈ rows) (rightIn : right ∈ rows)
    (same : left.tag = right.tag) : left = right :=
  Table.eq_of_column constrained.tags leftIn rightIn same

end Constrained

namespace RecordTables

/-- The object rows are those of the stored records under their tags. -/
structure Indexed (rows : List (SelectedRow lib)) (objects : List RecordObject) (datas : DataTable lib) : Prop where
  tagged : ∀ row ∈ rows, row.tag = row.block.tag
  selected : ∀ row ∈ rows, row.selector = row.state.isServerConfirmed
  known : ∀ row ∈ rows, ∀ change ∈ row.objects, change.Known datas
  exact : objects.Perm (rows.flatMap fun row => row.objectRows datas)

/-- Every record has at most one handle that the storage gives out, and it says what the row says. -/
structure Held (rows : List (SelectedRow lib)) (handles : List RecordHandle) : Prop where
  stored : ∀ handle ∈ handles, handle.cached = true →
    ∃ row ∈ rows, row.key = handle.key ∧ row.tag = handle.tag ∧ row.state = handle.state
  single : handles.Pairwise fun left right => left.cached = true → right.cached = true → left.key ≠ right.key

variable {tables : RecordTables lib} {rows later : List (SelectedRow lib)} {handles : List RecordHandle}

section Handles

theorem Held.sublist {kept : List RecordHandle} (held : Held rows handles) (sub : kept.Sublist handles) :
    Held rows kept :=
  ⟨fun handle inside => held.stored handle (sub.subset inside), held.single.sublist sub⟩

/-- Handles stay good when their rows stay. -/
theorem Held.mono (held : Held rows handles) (stay : ∀ row ∈ rows, row ∈ later) : Held later handles := by
  refine ⟨fun handle inside cached => ?_, held.single⟩
  obtain ⟨row, rowIn, same⟩ := held.stored handle inside cached
  exact ⟨row, stay row rowIn, same⟩

theorem Held.loadRecord (held : Held tables.rows tables.handles) {row : SelectedRow lib} (inside : row ∈ tables.rows) :
    Held tables.rows (tables.loadRecord row).handles := by
  unfold RecordTables.loadRecord
  split
  · exact held
  rename_i absent
  refine ⟨fun handle here cached => ?_, ?_⟩
  · obtain old | new := List.mem_append.mp here
    · exact held.stored handle old cached
    · rw [List.mem_singleton.mp new]
      exact ⟨row, inside, rfl, rfl, rfl⟩
  · refine List.pairwise_append.mpr ⟨held.single, List.pairwise_singleton _ _, fun handle old new only => ?_⟩
    rw [List.mem_singleton.mp only]
    intro cached _ same
    refine absent (List.any_eq_true.mpr ⟨handle, old, ?_⟩)
    rw [cached, Bool.true_and]
    exact decide_eq_true same

/-- One handle and its row change together. -/
theorem Held.change {place : Nat} {handle next : RecordHandle} {change : SelectedRow lib → SelectedRow lib}
    (held : Held rows handles) (found : handles[place]? = some handle) (cached : handle.cached = true)
    (sameKey : next.key = handle.key)
    (follows : ∀ row : SelectedRow lib, row.key = handle.key → row.tag = handle.tag → row.state = handle.state →
      (change row).key = next.key ∧ (change row).tag = next.tag ∧ (change row).state = next.state) :
    Held (rows.map fun row => if row.key = handle.key then change row else row) (handles.set place next) := by
  obtain ⟨front, back, rfl, replaced⟩ := Table.split_at found
  rw [replaced]
  obtain ⟨frontSingle, backSingle, between⟩ := List.pairwise_append.mp held.single
  obtain ⟨handleSingle, backSingle⟩ := List.pairwise_cons.mp backSingle
  have stays : ∀ other ∈ front ++ handle :: back, other.cached = true → other.key ≠ handle.key →
      ∃ row ∈ rows.map fun row => if row.key = handle.key then change row else row,
        row.key = other.key ∧ row.tag = other.tag ∧ row.state = other.state := by
    intro other inside otherCached differs
    obtain ⟨row, rowIn, rowKey, same⟩ := held.stored other inside otherCached
    exact ⟨row, List.mem_map.mpr ⟨row, rowIn, if_neg (by rw [rowKey]; exact differs)⟩, rowKey, same⟩
  constructor
  · intro other inside otherCached
    obtain inFront | rest := List.mem_append.mp inside
    · exact stays other (List.mem_append_left _ inFront) otherCached
        (between other inFront handle List.mem_cons_self otherCached cached)
    obtain rfl | inBack := List.mem_cons.mp rest
    · obtain ⟨row, rowIn, key, tag, state⟩ := held.stored handle (List.mem_append_right _ List.mem_cons_self) cached
      refine ⟨_, List.mem_map_of_mem rowIn, ?_⟩
      rw [if_pos key]
      exact follows row key tag state
    · exact stays other (List.mem_append_right _ (List.mem_cons_of_mem _ inBack)) otherCached
        (Ne.symm (handleSingle other inBack cached otherCached))
  · refine List.pairwise_append.mpr ⟨frontSingle, List.pairwise_cons.mpr ⟨?_, backSingle⟩, ?_⟩
    · intro other inBack _ otherCached
      rw [sameKey]
      exact handleSingle other inBack cached otherCached
    · intro other inFront last inRest otherCached lastCached
      obtain rfl | inBack := List.mem_cons.mp inRest
      · rw [sameKey]
        exact between other inFront handle List.mem_cons_self otherCached cached
      · exact between other inFront last (List.mem_cons_of_mem _ inBack) otherCached lastCached

end Handles

section Index

variable {objects : List RecordObject} {datas : DataTable lib} {row : SelectedRow lib} {record : Record}

theorem objectRows_congr {left right : Row lib} (tag : left.tag = right.tag) (block : left.block = right.block) :
    left.objectRows datas = right.objectRows datas := by
  unfold Row.objectRows Row.objects
  rw [tag, block]

/-- The object rows of a record whose block parses are those of its changes. -/
theorem objectRows_of_parsed {row : Row lib} (parsed : lib.deserialise row.block.record = some record) :
    row.objects = record.changes := by
  unfold Row.objects Record.changes
  rw [parsed, Option.map_some]
  cases record.body with
  | dataChange changes => rfl
  | userChange data => rfl
  | segment data => rfl

theorem flatMap_objectRows_extend {later : DataTable lib} (known : ∀ row ∈ rows, ∀ change ∈ row.objects, change.Known datas)
    (extended : later.Extends datas) :
    (rows.flatMap fun row => row.objectRows later) = rows.flatMap fun row => row.objectRows datas :=
  List.flatMap_congr fun row inside =>
    List.map_congr_left fun change here => (known row inside change here).objectRow_eq extended row.tag

theorem mem_objectRows {row : Row lib} {object : RecordObject} (inside : object ∈ row.objectRows datas) :
    object.tag = row.tag := by
  obtain ⟨change, _, rfl⟩ := List.mem_map.mp inside
  rfl

/-- A record that comes in brings its object rows. -/
theorem Indexed.append {data : DataTable lib} (indexed : Indexed rows objects datas)
    (parsed : lib.deserialise row.block.record = some record) (tagged : row.tag = row.block.tag)
    (selected : row.selector = row.state.isServerConfirmed) (extended : data.Extends datas)
    (known : ∀ change ∈ record.changes, change.Known data) :
    Indexed (rows ++ [row])
      (objects ++ record.changes.map (PlainSingleChangeData.objectRow data row.block.tag)) data := by
  have changes := objectRows_of_parsed parsed
  refine ⟨?_, ?_, ?_, ?_⟩
  · exact List.forall_mem_append.mpr ⟨indexed.tagged, List.forall_mem_singleton.mpr tagged⟩
  · exact List.forall_mem_append.mpr ⟨indexed.selected, List.forall_mem_singleton.mpr selected⟩
  · refine List.forall_mem_append.mpr ⟨?_, List.forall_mem_singleton.mpr (changes ▸ known)⟩
    exact fun old inside change here => (indexed.known old inside change here).extend extended
  · rw [List.flatMap_append, flatMap_objectRows_extend indexed.known extended, List.flatMap_singleton]
    refine indexed.exact.append (.of_eq ?_)
    unfold Row.objectRows
    rw [changes, tagged]

/-- The row of a key may change what the object rows do not show. -/
theorem Indexed.change {key : Nat} {change : SelectedRow lib → SelectedRow lib} (indexed : Indexed rows objects datas)
    (keeps : ∀ row, (change row).tag = row.tag ∧ (change row).block = row.block ∧
      (change row).selector = (change row).state.isServerConfirmed) :
    Indexed (rows.map fun row => if row.key = key then change row else row) objects datas := by
  have same (row : SelectedRow lib) : (if row.key = key then change row else row).tag = row.tag ∧
      (if row.key = key then change row else row).block = row.block := by
    split
    · exact ⟨(keeps row).1, (keeps row).2.1⟩
    · exact ⟨rfl, rfl⟩
  refine ⟨?_, ?_, ?_, ?_⟩
  · refine List.forall_mem_map.mpr fun row inside => ?_
    rw [(same row).1, (same row).2]
    exact indexed.tagged row inside
  · refine List.forall_mem_map.mpr fun row inside => ?_
    split
    · exact (keeps row).2.2
    · exact indexed.selected row inside
  · refine List.forall_mem_map.mpr fun row inside => ?_
    unfold Row.objects
    rw [(same row).2]
    exact indexed.known row inside
  · rw [List.flatMap_map]
    refine indexed.exact.trans (.of_eq (List.flatMap_congr fun row _ => ?_))
    exact (objectRows_congr (same row).1 (same row).2).symm

theorem restated_same (state : RecordState) (id : ChainBlockId) (parentHash : Octets) (row : SelectedRow lib) :
    (row.restated state id parentHash).key = row.key ∧ (row.restated state id parentHash).tag = row.tag ∧
      (row.restated state id parentHash).block = row.block ∧ (row.restated state id parentHash).state = state ∧
      (row.restated state id parentHash).selector = state.isServerConfirmed := by
  unfold SelectedRow.restated
  split
  · exact ⟨rfl, rfl, rfl, rfl, rfl⟩
  · exact ⟨rfl, rfl, rfl, rfl, rfl⟩

theorem Indexed.perm (indexed : Indexed rows objects datas) (same : rows.Perm later) : Indexed later objects datas where
  tagged row inside := indexed.tagged row (same.mem_iff.mpr inside)
  selected row inside := indexed.selected row (same.mem_iff.mpr inside)
  known row inside := indexed.known row (same.mem_iff.mpr inside)
  exact := indexed.exact.trans (same.flatMap_right _)

/-- In a table of unique tags and keys the rows with other keys are those with other tags. -/
theorem filter_key_eq (constrained : Constrained rows) (inside : row ∈ rows) :
    (rows.filter fun other => other.key ≠ row.key) = rows.filter fun other => other.tag ≠ row.tag := by
  refine List.filter_congr fun other here => ?_
  rw [decide_eq_decide, not_iff_not]
  constructor
  · intro same
    rw [constrained.eq_of_key here inside same]
  · intro same
    rw [constrained.eq_of_tag here inside same]

/-- A record that goes takes its object rows along. -/
theorem Indexed.remove (indexed : Indexed rows objects datas) (constrained : Constrained rows) (inside : row ∈ rows) :
    Indexed (rows.filter fun other => other.key ≠ row.key)
      (objects.filter fun object => object.tag ≠ row.tag) datas where
  tagged other here := indexed.tagged other (List.mem_of_mem_filter here)
  selected other here := indexed.selected other (List.mem_of_mem_filter here)
  known other here := indexed.known other (List.mem_of_mem_filter here)
  exact := by
    refine (indexed.exact.filter _).trans (.of_eq ?_)
    rw [filter_key_eq constrained inside]
    exact Table.filter_flatMap (fun other _ object here => mem_objectRows here) fun tag => decide (tag ≠ row.tag)

end Index

section Steps

variable {next : RecordTables lib} {block : lib.Block} {state : RecordState} {place : Nat}

/-- The index and the handles follow the records. -/
structure Sound (tables : RecordTables lib) : Prop where
  indexed : Indexed tables.rows tables.objects tables.datas
  held : Held tables.rows tables.handles

/-- The record table without the column of the selectors. -/
def records (tables : RecordTables lib) : List (Row lib) :=
  tables.rows.map SelectedRow.toRow

/-- Without the selectors the rows meet the constraints of a record table. -/
theorem Sound.unique (sound : tables.Sound) : Unique tables.records where
  keys := List.pairwise_map.mpr tables.constrained.keys
  tags := List.pairwise_map.mpr tables.constrained.tags
  hashes := List.pairwise_map.mpr tables.constrained.hashes
  opIds := List.pairwise_map.mpr tables.constrained.opIds
  sequences := by
    refine List.pairwise_map.mpr (tables.constrained.sequences.imp_of_mem fun left right differ => ?_)
    rw [← sound.indexed.selected _ left, ← sound.indexed.selected _ right]
    exact differ

/-- A handle is used only as long as its record is stored, and a record is replaced only by a block that parses. -/
def Upholds (tables : RecordTables lib) : RecordCall lib → Prop
  | .setState place _ _ _ => ∀ handle, tables.handles[place]? = some handle → handle.cached = true
  | .setRecord place block => (∀ handle, tables.handles[place]? = some handle → handle.cached = true) ∧
      (lib.deserialise block.record).isSome = true
  | _ => True

theorem writeRows_ok (written : tables.writeRows rows = .ok next) :
    next.rows = rows ∧ next.objects = tables.objects ∧ next.datas = tables.datas ∧ next.handles = tables.handles := by
  unfold writeRows at written
  split at written
  · cases written
    exact ⟨rfl, rfl, rfl, rfl⟩
  · cases written

/-- A handle that is given out leaves the tables. -/
theorem loadRecord_same (tables : RecordTables lib) (row : SelectedRow lib) :
    (tables.loadRecord row).rows = tables.rows ∧ (tables.loadRecord row).objects = tables.objects ∧
      (tables.loadRecord row).datas = tables.datas := by
  unfold loadRecord
  split
  · exact ⟨rfl, rfl, rfl⟩
  · exact ⟨rfl, rfl, rfl⟩

theorem Sound.load (sound : tables.Sound) {row : SelectedRow lib} (inside : row ∈ tables.rows) :
    (tables.loadRecord row).Sound := by
  have same := tables.loadRecord_same row
  constructor
  · rw [same.1, same.2.1, same.2.2]
    exact sound.indexed
  · rw [same.1]
    exact sound.held.loadRecord inside

theorem Sound.create (sound : tables.Sound) (created : tables.create block state = .ok next) : next.Sound := by
  unfold RecordTables.create at created
  split at created
  · cases created
  rename_i record parsed
  simp only [bind, Except.bind] at created
  cases written : tables.writeRows (tables.rows ++ [tables.newRow block state record]) with
  | error err =>
    rw [written] at created
    cases created
  | ok inserted =>
    obtain ⟨later, filed, extended, known⟩ :=
      createObjectRecords_ok block.tag record.changes tables.objects tables.datas
    rw [written] at created
    rw [filed] at created
    cases created
    obtain ⟨rows, objects, datas, handles⟩ := writeRows_ok written
    have inside : tables.newRow block state record ∈ inserted.rows := by
      rw [rows]
      exact List.mem_append_right _ List.mem_cons_self
    have held : Held inserted.rows inserted.handles := by
      rw [rows, handles]
      exact sound.held.mono fun row => List.mem_append_left _
    have loaded := (inserted.loadRecord_same (tables.newRow block state record)).1
    constructor
    · show Indexed (inserted.loadRecord (tables.newRow block state record)).rows
        (tables.objects ++ record.changes.map (PlainSingleChangeData.objectRow later block.tag)) later
      rw [loaded, rows]
      exact sound.indexed.append parsed rfl rfl extended known
    · show Held (inserted.loadRecord (tables.newRow block state record)).rows
        (inserted.loadRecord (tables.newRow block state record)).handles
      rw [loaded]
      exact held.loadRecord inside

theorem Sound.setState (sound : tables.Sound) {id : ChainBlockId} {parentHash : Octets}
    (upheld : tables.Upholds (.setState place state id parentHash))
    (done : tables.setState place state id parentHash = .ok next) : next.Sound := by
  unfold RecordTables.setState at done
  cases found : tables.handles[place]? with
  | none =>
    rw [found] at done
    cases done
    exact sound
  | some handle =>
    rw [found] at done
    simp only [bind, Except.bind] at done
    split at done
    · cases done
    rename_i updated written
    cases done
    obtain ⟨rows, objects, datas, -⟩ := writeRows_ok written
    constructor
    · show Indexed updated.rows updated.objects updated.datas
      rw [rows, objects, datas]
      refine sound.indexed.change fun row => ?_
      obtain ⟨_, tag, block, same, selector⟩ := restated_same state id parentHash row
      exact ⟨tag, block, by rw [selector, same]⟩
    · show Held updated.rows (tables.handles.set place { handle with state })
      rw [rows]
      refine sound.held.change found (upheld handle found) rfl fun row key tag _ => ?_
      obtain ⟨sameKey, sameTag, _, same, _⟩ := restated_same state id parentHash row
      exact ⟨sameKey.trans key, sameTag.trans tag, same⟩

/-- A record that is replaced exchanges its object rows. -/
theorem Sound.setRecord (sound : tables.Sound) (upheld : tables.Upholds (.setRecord place block)) :
    (tables.setRecord place block).Sound := by
  unfold RecordTables.setRecord
  cases found : tables.handles[place]? with
  | none => exact sound
  | some handle =>
    dsimp only
    split
    · exact sound
    rename_i unconfirmed
    split
    · exact sound
    rename_i updated written
    obtain ⟨record, parsed⟩ := Option.isSome_iff_exists.mp upheld.2
    obtain ⟨later, filed, extended, known⟩ := createObjectRecords_ok block.tag record.changes
      (tables.objects.filter fun object => object.tag ≠ handle.tag) tables.datas
    rw [parsed]
    dsimp only
    rw [filed]
    obtain ⟨rows, -, -, -⟩ := writeRows_ok written
    have cached := upheld.1 handle found
    obtain ⟨row, inside, key, tag, state⟩ := sound.held.stored handle (List.mem_of_getElem? found) cached
    constructor
    · show Indexed updated.rows ((tables.objects.filter fun object => object.tag ≠ handle.tag) ++
        record.changes.map (PlainSingleChangeData.objectRow later block.tag)) later
      rw [rows, ← tag, ← key]
      refine Indexed.perm ?_ (Table.map_replace_perm tables.constrained.distinctKeys inside _).symm
      refine (sound.indexed.remove tables.constrained inside).append parsed rfl ?_ extended known
      rw [← state] at unconfirmed
      exact (Bool.eq_false_iff.mpr unconfirmed).symm
    · show Held updated.rows (tables.handles.set place { handle with tag := block.tag })
      rw [rows]
      exact sound.held.change found cached rfl fun row key _ state => ⟨key, rfl, state⟩

end Steps

section Truncation

variable {row : SelectedRow lib}

/-- What a truncation leaves of a row in its range. -/
def outcome (demoteAcked : Bool) (row : SelectedRow lib) : Option (SelectedRow lib) :=
  if demoteAcked && row.state = .acked then some (demoted row) else none

theorem key_of_outcome {demoteAcked : Bool} {next : SelectedRow lib} (left : outcome demoteAcked row = some next) :
    next.key = row.key := by
  unfold outcome at left
  split at left
  · cases left
    rfl
  · cases left

/-- One row of a truncation is settled, and the others stay. -/
theorem truncateRow_rows (demoteAcked : Bool) (inside : row ∈ tables.rows) :
    (tables.truncateRow demoteAcked row).rows = tables.rows.filterMap fun other =>
      if other.key = row.key then outcome demoteAcked other else some other := by
  unfold truncateRow
  split
  · rename_i acked
    show (tables.rows.map fun other => if other.key = row.key then demoted other else other) = _
    rw [← List.filterMap_eq_map]
    refine List.filterMap_congr fun other otherIn => ?_
    by_cases same : other.key = row.key
    · rw [if_pos same, tables.constrained.eq_of_key otherIn inside same, outcome, if_pos acked, Function.comp, if_pos rfl]
    · rw [if_neg same, Function.comp, if_neg same]
  · rename_i gone
    show (tables.rows.filter fun other => other.key ≠ row.key) = _
    rw [← List.filterMap_eq_filter]
    refine List.filterMap_congr fun other otherIn => ?_
    by_cases same : other.key = row.key
    · rw [if_pos same, tables.constrained.eq_of_key otherIn inside same, outcome, if_neg gone]
      simp
    · rw [if_neg same]
      simp [same]

theorem Sound.truncateRow (sound : tables.Sound) (demoteAcked : Bool) (inside : row ∈ tables.rows) :
    (tables.truncateRow demoteAcked row).Sound := by
  unfold RecordTables.truncateRow
  split
  · obtain ⟨rows, objects, datas⟩ := tables.loadRecord_same row
    have held : Held tables.rows (tables.loadRecord row).handles := sound.held.loadRecord inside
    constructor
    · show Indexed (tables.rows.map fun other => if other.key = row.key then demoted other else other)
        (tables.loadRecord row).objects (tables.loadRecord row).datas
      rw [objects, datas]
      exact sound.indexed.change fun _ => ⟨rfl, rfl, rfl⟩
    · refine ⟨List.forall_mem_map.mpr fun handle handleIn => ?_, List.pairwise_map.mpr (held.single.imp ?_)⟩
      · split
        · rename_i mine
          intro cached
          obtain ⟨other, otherIn, key, tag, _⟩ := held.stored handle handleIn cached
          rw [Bool.and_eq_true, decide_eq_true_eq] at mine
          refine ⟨_, List.mem_map_of_mem otherIn, ?_⟩
          rw [if_pos (key.trans mine.2)]
          exact ⟨key, tag, rfl⟩
        · rename_i other
          intro cached
          obtain ⟨stored, storedIn, key, same⟩ := held.stored handle handleIn cached
          refine ⟨_, List.mem_map_of_mem storedIn, ?_⟩
          rw [cached, Bool.true_and, decide_eq_true_eq, ← key] at other
          rw [if_neg other]
          exact ⟨key, same⟩
      · intro left right differ
        split
        · split
          · exact differ
          · exact differ
        · split
          · exact differ
          · exact differ
  · constructor
    · show Indexed (tables.rows.filter fun other => other.key ≠ row.key)
        (tables.objects.filter fun object => object.tag ≠ row.block.tag) tables.datas
      rw [← sound.indexed.tagged row inside]
      exact sound.indexed.remove tables.constrained inside
    · refine ⟨List.forall_mem_map.mpr fun handle handleIn => ?_, List.pairwise_map.mpr (sound.held.single.imp ?_)⟩
      · split
        · exact nofun
        rename_i other
        intro cached
        obtain ⟨stored, storedIn, key, same⟩ := sound.held.stored handle handleIn cached
        rw [cached, Bool.true_and, decide_eq_true_eq, ← key] at other
        exact ⟨stored, List.mem_filter.mpr ⟨storedIn, decide_eq_true other⟩, key, same⟩
      · intro left right differ
        split
        · exact nofun
        · split
          · exact fun _ => nofun
          · exact differ

/-- Rows that are truncated one after the other are settled in one pass, and the index follows. -/
theorem foldl_truncateRow (demoteAcked : Bool) (settled : List (SelectedRow lib))
    (distinct : (settled.map fun row => row.key).Nodup) (inside : ∀ row ∈ settled, row ∈ tables.rows) :
    (settled.foldl (truncateRow demoteAcked) tables).rows = (settled.map fun row => row.key).foldl (fun rows key =>
      rows.filterMap fun row => if row.key = key then outcome demoteAcked row else some row) tables.rows ∧
      (tables.Sound → (settled.foldl (truncateRow demoteAcked) tables).Sound) := by
  induction settled generalizing tables with
  | nil => exact ⟨rfl, id⟩
  | cons row rest ih =>
    rw [List.map_cons, List.nodup_cons] at distinct
    obtain ⟨here, others⟩ := List.forall_mem_cons.mp inside
    have stay : ∀ other ∈ rest, other ∈ (tables.truncateRow demoteAcked row).rows := by
      intro other otherIn
      rw [truncateRow_rows demoteAcked here]
      refine List.mem_filterMap.mpr ⟨other, others other otherIn, if_neg fun same => ?_⟩
      exact distinct.1 (List.mem_map.mpr ⟨other, otherIn, same⟩)
    obtain ⟨rows, sound⟩ := ih distinct.2 stay
    refine ⟨?_, fun before => sound (before.truncateRow demoteAcked here)⟩
    rw [List.foldl_cons, rows, truncateRow_rows demoteAcked here]
    rfl

/-- The rows of the range are settled, all other rows stay as they are. -/
theorem truncate_rows (demoteAcked : Bool) (range : SelectedRow lib → Bool) :
    ((bySequence (tables.rows.filter range)).foldl (truncateRow demoteAcked) tables).rows =
      tables.rows.filterMap (fun row => if range row then outcome demoteAcked row else some row) ∧
      (tables.Sound → ((bySequence (tables.rows.filter range)).foldl (truncateRow demoteAcked) tables).Sound) := by
  have sorted : (bySequence (tables.rows.filter range)).Perm (tables.rows.filter range) := List.perm_insertionSort _ _
  have distinct : ((bySequence (tables.rows.filter range)).map fun row => row.key).Nodup := by
    refine (sorted.map _).nodup_iff.mpr (List.pairwise_map.mpr ?_)
    exact tables.constrained.distinctKeys.sublist List.filter_sublist
  obtain ⟨rows, sound⟩ := foldl_truncateRow demoteAcked (bySequence (tables.rows.filter range)) distinct
    fun row inside => List.mem_of_mem_filter (sorted.mem_iff.mp inside)
  refine ⟨?_, sound⟩
  rw [rows, Table.foldl_filterMap (fun _ _ => key_of_outcome) _ distinct]
  refine List.filterMap_congr fun row inside => ?_
  have member : row.key ∈ ((bySequence (tables.rows.filter range)).map fun row => row.key) ↔ range row = true := by
    constructor
    · intro found
      obtain ⟨other, otherIn, same⟩ := List.mem_map.mp found
      obtain ⟨stored, inRange⟩ := List.mem_filter.mp (sorted.mem_iff.mp otherIn)
      rwa [← tables.constrained.eq_of_key stored inside same]
    · intro inRange
      exact List.mem_map.mpr ⟨row, sorted.mem_iff.mpr (List.mem_filter.mpr ⟨inside, inRange⟩), rfl⟩
  by_cases inRange : range row = true
  · rw [if_pos (member.mpr inRange), if_pos inRange]
  · rw [if_neg fun found => inRange (member.mp found), if_neg inRange]

end Truncation

theorem Sound.step (sound : tables.Sound) {call : RecordCall lib} (upheld : tables.Upholds call) :
    (tables.step call).Sound := by
  cases call with
  | create block state =>
    show ((tables.create block state).toOption.getD tables).Sound
    cases created : tables.create block state with
    | error err => exact sound
    | ok next => exact sound.create created
  | find key =>
    show ((tables.rows.find? fun row => row.key = key).elim tables tables.loadRecord).Sound
    cases found : tables.rows.find? fun row => row.key = key with
    | none => exact sound
    | some row => exact sound.load (List.mem_of_find?_eq_some found)
  | release place => exact ⟨sound.indexed, sound.held.sublist (List.eraseIdx_sublist _ _)⟩
  | setState place state id parentHash =>
    show ((tables.setState place state id parentHash).toOption.getD tables).Sound
    cases done : tables.setState place state id parentHash with
    | error err => exact sound
    | ok next => exact sound.setState upheld done
  | setRecord place block => exact sound.setRecord upheld
  | truncateFrom firstRemoved demoteAcked =>
    show (((tables.truncateFrom firstRemoved demoteAcked).toOption.map Prod.fst).getD tables).Sound
    unfold truncateFrom
    split
    · exact sound
    · exact (truncate_rows demoteAcked _).2 sound
  | truncatePrefix firstKept retained =>
    show (((tables.truncatePrefix firstKept retained).toOption.map Prod.fst).getD tables).Sound
    unfold truncatePrefix
    split
    · exact sound
    · exact (truncate_rows false _).2 sound

end RecordTables

/-- The change names the data with a usable descriptor. -/
def PlainSingleChangeData.names (lib : Securepath) (change : PlainSingleChangeData) (id : Octets) : Bool :=
  (change.data.filter (DataDescriptor.usable lib)).any fun descriptor => descriptor.manifestDigest = id

namespace RecordTables

variable {tables : RecordTables lib} {datas : DataTable lib} {data : DataRow lib}

/-- What the users of a record storage rely on. -/
structure Consistent (tables : RecordTables lib) : Prop where
  /-- There is one object row for each change of each stored record, under the tag of the record. -/
  objects : tables.objects.Perm (tables.rows.flatMap fun row => row.objectRows tables.datas)
  /-- The data that a stored change names with a usable descriptor has a row. -/
  known : ∀ row ∈ tables.rows, ∀ change ∈ row.objects, change.Known tables.datas
  references : ∀ data ∈ tables.datas.rows, tables.dataReferenceCount data.localId =
    (tables.rows.flatMap fun row => row.objects).countP fun change => change.names lib data.dataId
  confirmed : tables.rows.Pairwise fun left right => left.state.isServerConfirmed = true →
    right.state.isServerConfirmed = true → left.sequence ≠ right.sequence
  /-- A truncation removes or demotes the received records of its range, and leaves all others as they are. -/
  truncates : ∀ firstRemoved ≠ 0, ∀ demoteAcked, ∃ next removed,
    tables.truncateFrom firstRemoved demoteAcked = .ok (next, removed) ∧
      next.rows = tables.rows.filterMap fun row =>
        if RecordStorage.isReceived row.toRow && firstRemoved ≤ row.sequence then
          if demoteAcked && row.state = .acked then some (demoted row) else none
        else some row

/-- An object row points to the data exactly when its change names it. -/
theorem objectRow_dataRef_eq (inside : data ∈ datas.rows) (tag : RecordTag) (change : PlainSingleChangeData) :
    decide ((change.objectRow datas tag).dataRef = some data.localId) = change.names lib data.dataId := by
  have found : datas.refOf data.dataId = some data.localId :=
    DataTable.refOf_eq_some_iff.mpr ⟨data, inside, rfl, rfl⟩
  unfold PlainSingleChangeData.objectRow PlainSingleChangeData.names
  cases named : change.data.filter (DataDescriptor.usable lib) with
  | none => rfl
  | some descriptor =>
    rw [Option.bind_some, Option.any_some, decide_eq_decide]
    constructor
    · exact fun same => DataTable.refOf_inj same found
    · intro same
      rw [same]
      exact found

theorem countP_objectRows (inside : data ∈ datas.rows) (rows : List (SelectedRow lib)) :
    ((rows.flatMap fun row => row.objectRows datas).countP fun object => object.dataRef = some data.localId) =
      (rows.flatMap fun row => row.objects).countP fun change => change.names lib data.dataId := by
  induction rows with
  | nil => rfl
  | cons row rest ih =>
    rw [List.flatMap_cons, List.flatMap_cons, List.countP_append, List.countP_append, ih]
    unfold Row.objectRows
    rw [List.countP_map]
    refine congrArg (· + _) (List.countP_congr fun change _ => ?_)
    rw [Function.comp, objectRow_dataRef_eq inside]

theorem Sound.consistent (sound : tables.Sound) : tables.Consistent where
  objects := sound.indexed.exact
  known := sound.indexed.known
  references data inside := by
    unfold dataReferenceCount
    rw [sound.indexed.exact.countP_eq]
    exact countP_objectRows inside tables.rows
  confirmed := List.pairwise_map.mp sound.unique.sequences
  truncates firstRemoved valid demoteAcked := by
    unfold truncateFrom
    rw [if_neg valid]
    exact ⟨_, _, rfl, (truncate_rows demoteAcked _).1⟩

/-- The tables of a new storage in a database that may know data already. -/
def opened (datas : DataTable lib) : RecordTables lib :=
  { datas }

theorem Sound.opened (datas : DataTable lib) : (opened datas).Sound :=
  ⟨⟨List.forall_mem_nil _, List.forall_mem_nil _, List.forall_mem_nil _, .refl _⟩, ⟨List.forall_mem_nil _, .nil⟩⟩

/-- In every run that uses handles only of stored records, and replaces records only by blocks that parse, the object
rows follow the records. -/
theorem objects_follow_records (datas : DataTable lib) (tables : RecordTables lib)
    (run : Runs step Upholds (opened datas) tables) : tables.Consistent := by
  exact (run.keeps (Sound.opened datas) fun _ _ sound upheld => sound.step upheld).consistent

/-- A record that changes one object and names a data. -/
def objectChange (oid : ObjectId) : Record :=
  ⟨{}, .dataChange [⟨oid, [], some ⟨32, 16, [5]⟩⟩], [[]]⟩

/-- The block of the record under a tag. -/
def blockOf (tag : RecordTag) (sequence : SequenceNumber) (oid : ObjectId) : Securepath.sample.Block :=
  ⟨(1, objectChange oid), ⟨tag, none⟩, sequence, []⟩

/-- The tables of a new storage in a new database. -/
def newTables (lib : Securepath) : RecordTables lib :=
  opened (.empty lib)

/-- A storage with one pending record. -/
def createdTables : RecordTables .sample :=
  (newTables .sample).step (.create (blockOf [1] 1 [8]) .pendingCommit)

/-- The record is rebased onto another tag and object. -/
def rebasedTables : RecordTables .sample :=
  createdTables.step (.setRecord 0 (blockOf [2] 1 [9]))

/-- The record is acknowledged. -/
def ackedTables : RecordTables .sample :=
  rebasedTables.step (.setState 0 .acked {} [])

theorem objects_follow_records_rebased :
    ackedTables.Consistent ∧ ackedTables.objects = [⟨[2], [], [9], some 1⟩] := by
  have created : Runs step Upholds (newTables .sample) createdTables := .tail (.refl _) trivial
  have rebased : Runs step Upholds (newTables .sample) rebasedTables := by
    apply created.tail
    constructor
    · intro handle found
      have first : createdTables.handles[0]? = some ⟨1, [1], .pendingCommit, true⟩ := by decide +kernel
      cases found.symm.trans first
      rfl
    · rfl
  have acked : Runs step Upholds (newTables .sample) ackedTables := by
    apply rebased.tail
    intro handle found
    have first : rebasedTables.handles[0]? = some ⟨1, [2], .pendingCommit, true⟩ := by decide +kernel
    cases found.symm.trans first
    rfl
  exact ⟨objects_follow_records {} ackedTables acked, by decide +kernel⟩

/-- A record is truncated, and then replaced through the handle that its creation returned. -/
def staleCalls : List (RecordCall .sample) :=
  [.create (blockOf [1] 1 [8]) .pendingSync, .truncateFrom 1 false, .setRecord 0 (blockOf [2] 1 [9])]

/-- A library in which a record of size zero does not parse. -/
def strictSample : Securepath :=
  { Securepath.sample with deserialise := fun blob => if blob.1 = 0 then none else some blob.2 }

/-- The block of a record of the size. -/
def sizedBlock (size : Nat) (tag : RecordTag) (oid : ObjectId) : strictSample.Block :=
  ⟨(size, objectChange oid), ⟨tag, none⟩, 1, []⟩

/-- A record is to be replaced by a block that does not parse, and then by one that does. -/
def unparsedCalls : List (RecordCall strictSample) :=
  [.create (sizedBlock 1 [1] [8]) .pendingCommit, .setRecord 0 (sizedBlock 0 [2] [9]),
    .setRecord 0 (sizedBlock 1 [3] [9])]

/-- The handle of a removed record leaves object rows without a record; the handle of a record that a block did not
replace forgets the tag under which the object rows stand. -/
theorem not_consistent_handles :
    ¬ (staleCalls.foldl step (newTables _)).Consistent ∧ ¬ (unparsedCalls.foldl step (newTables _)).Consistent := by
  constructor
  · intro consistent
    have lengths := consistent.objects.length_eq
    exact absurd lengths (by decide +kernel)
  · intro consistent
    have lengths := consistent.objects.length_eq
    exact absurd lengths (by decide +kernel)

end RecordTables

end SpSync
