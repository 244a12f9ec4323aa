import SpSync.Proof.Server.CommittedLog
import SpSync.Proof.Server.SignedAssignments

namespace SpSync.ChainSync

open Foundation RecordStorage

variable {lib : Securepath}

/-- The calls that change the log of a storage. -/
inductive LogCall (lib : Securepath)
  | commitBlock (block : lib.Block)
  | commitForeign (block : lib.Block)
  | truncateFrom (firstRemoved : SequenceNumber)
  | cutBefore (segmentTag : RecordTag)

/-- A call that throws leaves the storage as it was. -/
def call (sync : ChainSync lib) : LogCall lib → ChainSync lib
  | .commitBlock block => (sync.commitBlock block).1
  | .commitForeign block => (sync.commitForeign block).1
  | .truncateFrom firstRemoved =>
      match sync.truncateFrom firstRemoved with
      | .ok (truncated, _) => truncated
      | .error _ => sync
  | .cutBefore segmentTag =>
      match sync.log.cutBefore segmentTag with
      | .ok (log, _) => { sync with log }
      | .error _ => sync

/-- The head and the cursors are those that the records give. -/
structure Derived (sync : ChainSync lib) : Prop where
  head : sync.log.head = sync.log.records.lastBlock
  adds : sync.lastDataAddRemove = sync.log.records.lastDataAddSequence
  special : sync.lastUserChangeOrSegment = sync.log.records.lastSpecialSequence

theorem derived_load (config : ChainSyncConfig) (keys : Option (List PublicKeyId)) (records : RecordStorage lib) :
    Derived (load config keys records) :=
  ⟨rfl, rfl, rfl⟩

/-- A derived storage is opened again as it was. -/
theorem Derived.load_eq {sync : ChainSync lib} (derived : sync.Derived) :
    load sync.config sync.keys sync.log.records = sync := by
  obtain ⟨config, keys, ⟨records, head⟩, adds, special⟩ := sync
  have last : head = records.lastBlock := derived.head
  have newestAdd : adds = records.lastDataAddSequence := derived.adds
  have newestSpecial : special = records.lastSpecialSequence := derived.special
  subst last newestAdd newestSpecial
  rfl

/-- The record adds an object. -/
def Adds (row : Row lib) : Prop :=
  (row.objects.any fun change => change.previousOidRecordTag = []) = true

instance (row : Row lib) : Decidable (Adds row) :=
  inferInstanceAs (Decidable (_ = true))

/-- A commit names no object whose newest record has an empty tag, and a cut leaves the newest add. -/
def KeepsCursors (sync : ChainSync lib) : LogCall lib → Prop
  | .commitBlock block => ∀ record, lib.deserialise block.record = some record → ∀ changes,
      record.body = .dataChange changes → ∀ change ∈ changes, ∀ row,
        sync.log.records.findLastObject change.id = some row → row.tag ≠ []
  | .cutBefore segmentTag => ∀ segment, sync.log.records.findTag segmentTag = some segment →
      ∀ row ∈ sync.log.records.rows, row.state = .inSync → Adds row →
        row.sequence = sync.log.records.lastDataAddSequence →
          segment.sequence ≤ row.sequence ∨
            row.block.tag ∈ sync.log.records.objectChainTagsBelow segment.sequence
  | _ => True

section Step

variable {sync saved : ChainSync lib} {block placed : lib.Block} {record : Record} {type : RecType}
  {base : RecordBase} {result : RuleResult} {removed : List lib.Block}

/-- The content of a record determines its kind. -/
structure ExactKind (record : Record) (type : RecType) : Prop extends Kind record type where
  added : ∀ changes, record.body = .dataChange changes →
    (changes.any fun change => change.previousOidRecordTag = []) = true → type = .dataAddRemove

/-- An accepted change without a previous record is an add, unless the newest record of its object has an empty
tag. -/
theorem checkChange_adds {change : PlainSingleChangeData}
    (tagged : ∀ row, sync.log.records.findLastObject change.id = some row → row.tag ≠ [])
    (accepted : (sync.checkChange base result change).err = none) (add : change.previousOidRecordTag = []) :
    (sync.checkChange base result change).type = .dataAddRemove := by
  unfold checkChange at accepted ⊢
  split at accepted
  · rename_i refused
    simp [accepted] at refused
  split at accepted
  · cases accepted
  split at accepted
  · cases accepted
  cases found : sync.log.records.findLastObject change.id with
  | none => simp_all
  | some row =>
    have apart : row.tag ≠ change.previousOidRecordTag := add ▸ tagged row found
    simp [found, apart] at accepted

theorem foldl_checkChange_adds {changes : List PlainSingleChangeData}
    (tagged : ∀ change ∈ changes, ∀ row, sync.log.records.findLastObject change.id = some row → row.tag ≠ [])
    (accepted : (changes.foldl (sync.checkChange base) result).err = none)
    (some : (changes.any fun change => change.previousOidRecordTag = []) = true) :
    (changes.foldl (sync.checkChange base) result).type = .dataAddRemove := by
  induction changes generalizing result with
  | nil => simp at some
  | cons change rest ih =>
    rw [List.foldl_cons] at accepted ⊢
    rw [List.any_cons, Bool.or_eq_true, decide_eq_true_eq] at some
    obtain add | later := some
    · have first := checkChange_adds (tagged change (by simp)) (foldl_checkChange_accepted accepted) add
      obtain kept | ⟨adds, _⟩ := sync.checkRulesDataChange_type base rest (sync.checkChange base result change)
      · exact kept.trans first
      · exact adds
    · exact ih (fun other inside => tagged other (by simp [inside])) accepted later

/-- The kind of an accepted record is the one that its content determines. -/
theorem exactKind_of_checkRules
    (tagged : ∀ changes, record.body = .dataChange changes → ∀ change ∈ changes, ∀ row,
      sync.log.records.findLastObject change.id = some row → row.tag ≠ [])
    (accepted : sync.checkRules record = .ok ⟨none, type⟩) : ExactKind record type := by
  refine ⟨kind_of_checkRules accepted, fun changes body some => ?_⟩
  rw [checkRules, body] at accepted
  have result := Except.ok.inj accepted
  have adds := foldl_checkChange_adds (tagged changes body) (congrArg RuleResult.err result) some
  exact (congrArg RuleResult.type result).symm.trans adds

theorem exactKind_of_classifyForeign (accepted : classifyForeign lib record = ⟨none, type⟩) :
    ExactKind record type := by
  have result := (congrArg RuleResult.type accepted).symm
  unfold classifyForeign at result
  cases body : record.body with
  | dataChange changes =>
    rw [body] at result
    dsimp only at result
    refine ⟨⟨?_, fun add => ⟨changes, body, ?_⟩⟩, fun others same some => ?_⟩
    · rw [body, RecordBody.type, result]
      split <;> simp
    · by_contra none
      rw [add, if_neg none] at result
      cases result
    · obtain rfl : changes = others := by
        rw [body] at same
        exact RecordBody.dataChange.inj same
      rw [result, if_pos some]
  | userChange data | segment data =>
    rw [body] at result
    subst result
    exact ⟨⟨by simp [body, RecordBody.type], by simp⟩, by simp [body]⟩

/-- A saved block of the kind that its content determines keeps the cursors derived. -/
theorem Derived.setAndSaveBlock (derived : sync.Derived) (parsed : lib.deserialise block.record = some record)
    (kind : ExactKind record type) (done : sync.setAndSaveBlock block type = .ok (saved, placed)) : saved.Derived := by
  obtain ⟨_, _, _, _, adds, special⟩ := setAndSaveBlock_appended done
  have cursor := setAndSaveBlock_newest derived.head.symm parsed done
  refine ⟨?_, ?_, ?_⟩
  · obtain ⟨place, ⟨_, _, rows⟩, head, _, _⟩ := setAndSaveBlock_ok done
    rw [RecordStorage.lastBlock_eq, newest_append rows rfl fun other inside inSync => ?_, if_pos rfl, head]
    · rfl
    have above : placed.sequence = sync.log.head.sequence + 1 := by rw [place]; rfl
    change other.sequence ≤ placed.sequence
    rw [above, derived.head]
    exact Nat.le_succ_of_le (sequence_le_lastBlock inside inSync)
  · rw [adds, derived.adds, lastDataAddSequence_eq, lastDataAddSequence_eq, cursor]
    by_cases add : type = .dataAddRemove
    · obtain ⟨changes, body, some⟩ := kind.adds add
      rw [if_pos add, ChainEntry.objects, parsed, Option.map_some, body, if_pos some]
    rw [if_neg add, if_neg]
    intro some
    cases body : record.body with
    | dataChange changes =>
      rw [ChainEntry.objects, parsed, Option.map_some, body] at some
      exact add (kind.added changes body some)
    | userChange data | segment data => simp [ChainEntry.objects, parsed, body] at some
  · rw [special, derived.special, lastSpecialSequence_eq, lastSpecialSequence_eq, cursor]
    simp only [kind.special]

theorem Derived.commitBlock (derived : sync.Derived) (keeps : sync.KeepsCursors (.commitBlock block)) :
    (sync.commitBlock block).1.Derived := by
  apply commitWith_keeps derived
  intro type saved placed verdict done
  obtain ⟨_, _, _, record, parsed, _, accepted⟩ := evaluateWith_accepted verdict
  exact derived.setAndSaveBlock parsed (exactKind_of_checkRules (keeps record parsed) accepted) done

theorem Derived.commitForeign (derived : sync.Derived) (block : lib.Block) : (sync.commitForeign block).1.Derived := by
  apply commitWith_keeps derived
  intro type saved placed verdict done
  obtain ⟨_, _, _, record, parsed, _, accepted⟩ := evaluateWith_accepted verdict
  exact derived.setAndSaveBlock parsed (exactKind_of_classifyForeign (Except.ok.inj accepted)) done

/-- The cursors are read again after a truncation. -/
theorem Derived.truncateFrom {firstRemoved : SequenceNumber}
    (done : sync.truncateFrom firstRemoved = .ok (saved, removed)) : saved.Derived := by
  unfold ChainSync.truncateFrom ChainLog.truncateFrom at done
  split at done
  · cases done
  · cases done
    exact ⟨rfl, rfl, rfl⟩

/-- A cut leaves the segment and all later records, hence the head and the special cursor. -/
theorem Derived.cutBefore {segmentTag : RecordTag} {log : ChainLog lib} (derived : sync.Derived)
    (keeps : sync.KeepsCursors (.cutBefore segmentTag)) (done : sync.log.cutBefore segmentTag = .ok (log, removed)) :
    Derived { sync with log } := by
  obtain ⟨segment, found, special, inSync, rows, head⟩ := ChainLog.cutBefore_ok done
  have segmentIn := (findTag_eq_some_iff.mp found).1
  have sub : ∀ row ∈ log.records.rows, row ∈ sync.log.records.rows := by
    rw [rows]
    exact fun row inside => (List.mem_filter.mp inside).1
  have stays : ∀ row ∈ sync.log.records.rows, segment.sequence ≤ row.sequence → row ∈ log.records.rows := by
    intro row inside later
    rw [rows, List.mem_filter]
    have notBefore : ¬ row.sequence < segment.sequence := Nat.not_lt.mpr later
    exact ⟨inside, by simp [isCut, notBefore]⟩
  -- A newest record of a condition that the segment meets is not before the segment.
  have newest (condition : ChainEntry lib → Bool) (meets : condition segment.entry = true) :
      log.records.newest condition = sync.log.records.newest condition := by
    apply newest_of_kept sub
    intro row last
    obtain ⟨⟨inside, _, _⟩, above⟩ := newest_eq_some_iff.mp last
    exact stays row inside (above segment segmentIn inSync meets)
  refine ⟨?_, ?_, ?_⟩
  · rw [head, derived.head, RecordStorage.lastBlock_eq, RecordStorage.lastBlock_eq, newest _ rfl]
  · rw [derived.adds, lastDataAddSequence_eq, lastDataAddSequence_eq, newest_of_kept sub]
    intro row last
    obtain ⟨⟨inside, rowInSync, adds⟩, _⟩ := newest_eq_some_iff.mp last
    have sequence : row.sequence = sync.log.records.lastDataAddSequence := by
      rw [lastDataAddSequence_eq, last]
      rfl
    obtain later | retained := keeps segment found row inside rowInSync adds sequence
    · exact stays row inside later
    · rw [rows, List.mem_filter]
      exact ⟨inside, by simp [isCut, retained]⟩
  · rw [derived.special, lastSpecialSequence_eq, lastSpecialSequence_eq, newest]
    simp [Row.entry, special]

theorem Derived.call (derived : sync.Derived) {input : LogCall lib} (keeps : sync.KeepsCursors input) :
    (sync.call input).Derived := by
  cases input with
  | commitBlock block => exact derived.commitBlock keeps
  | commitForeign block => exact derived.commitForeign block
  | truncateFrom firstRemoved =>
    cases done : sync.truncateFrom firstRemoved with
    | error err =>
      rw [ChainSync.call, done]
      exact derived
    | ok outcome =>
      rw [ChainSync.call, done]
      exact Derived.truncateFrom done
  | cutBefore segmentTag =>
    cases done : sync.log.cutBefore segmentTag with
    | error err =>
      rw [ChainSync.call, done]
      exact derived
    | ok outcome =>
      rw [ChainSync.call, done]
      exact derived.cutBefore keeps done

end Step

/-- In a run whose commits and cuts keep the cursors, a storage that is opened on the same records is the one
that runs, and gives every block the same verdict. -/
theorem restart_of_run {config : ChainSyncConfig} {keys : Option (List PublicKeyId)} {records : RecordStorage lib}
    {sync : ChainSync lib} (run : Runs call KeepsCursors (load config keys records) sync) :
    load sync.config sync.keys sync.log.records = sync ∧
      ∀ block, (load sync.config sync.keys sync.log.records).validate block = sync.validate block := by
  have derived : sync.Derived :=
    run.keeps (derived_load config keys records) fun _ _ derived keeps => derived.call keeps
  exact ⟨derived.load_eq, fun block => by rw [derived.load_eq]⟩

/-- A block of a data change with one operation for each tag. -/
def dataBlock (tag : RecordTag) (seen : ChainBlockId) (special : RecordTag) (changes : List PlainSingleChangeData) :
    Securepath.sample.Block :=
  ⟨(1, ⟨{ opId := tag, lastSeenBlock := seen, lastSeenSpecialTag := special }, .dataChange changes, []⟩),
    ⟨tag, none⟩, 0, []⟩

def forkedObject : ObjectId :=
  List.replicate objectIdSize 5

/-- An object is added here and on another replica, whose clients then change the version from here. -/
def forkedStorage : ChainSync .sample :=
  (((load { mode := .requireDataAddRemoveSeen } none (.empty .sample)).call
    (.commitBlock (dataBlock [1] {} [] [⟨forkedObject, [], none⟩]))).call
    (.commitForeign (dataBlock [2] {} [] [⟨forkedObject, [], none⟩]))).call
    (.commitForeign (dataBlock [3] {} [] [⟨forkedObject, [1], none⟩]))

/-- The segment that covers the three records. -/
def forkedSegment : Securepath.sample.Block :=
  ⟨(1, ⟨{ opId := [4], lastSeenBlock := forkedStorage.log.head }, .segment ⟨1, 4, [[1], [2], [3]], []⟩, []⟩),
    ⟨[4], none⟩, 0, []⟩

theorem forkedStorage_run :
    Runs call KeepsCursors (load { mode := .requireDataAddRemoveSeen } none (.empty .sample)) forkedStorage := by
  unfold forkedStorage
  refine .tail (.tail (.tail (.refl _) ?_) trivial) trivial
  rintro record _ changes _ change _ row found
  simp [load, ChainLog.load, RecordStorage.empty, findLastObject, bySequence] at found

theorem restart_of_run_forked :
    load forkedStorage.config forkedStorage.keys forkedStorage.log.records = forkedStorage ∧
      ∀ block, (load forkedStorage.config forkedStorage.keys forkedStorage.log.records).validate block =
        forkedStorage.validate block :=
  restart_of_run forkedStorage_run

/-- The cut removes the newest add, which only the running storage still asks its clients to have seen. -/
theorem not_restart_cut :
    let cut := (forkedStorage.call (.commitBlock forkedSegment)).call (.cutBefore [4])
    let late := dataBlock [6] ⟨1, [1, 1]⟩ [4] [⟨List.replicate objectIdSize 6, [], none⟩]
    Runs call (fun _ _ => True) (load { mode := .requireDataAddRemoveSeen } none (.empty .sample)) cut ∧
      cut.lastDataAddRemove = 2 ∧ cut.log.records.lastDataAddSequence = 1 ∧
      cut.validate late = some ⟨.recordOutOfSync, ""⟩ ∧
      (load cut.config cut.keys cut.log.records).validate late = none := by
  refine ⟨?_, ?_⟩
  · unfold forkedStorage
    exact .tail (.tail (.tail (.tail (.tail (.refl _) trivial) trivial) trivial) trivial) trivial
  · decide +kernel

end SpSync.ChainSync
