import SpSync.Proof.Engine.DraftedRecords
import SpSync.Proof.Server.Verdicts

namespace SpSync.Engine

open Foundation RecordStorage

variable {lib : Securepath} {engine : Engine lib} {sync : ChainSync lib} {record content : Record}
  {data : PlainSegmentData}

/-- The records in sync of the client are the log of the storage. -/
structure Follows (engine : Engine lib) (sync : ChainSync lib) : Prop where
  mirrors : engine.records.Mirrors sync.log.records
  mode : engine.config.mode = sync.config.mode

/-- A record that is sent as it is names the newest special record, also when that one has an empty tag. -/
def NamesSpecial (engine : Engine lib) (record : Record) : Prop :=
  engine.Ready record → engine.config.mode ≠ .requireAllSeen → engine.config.mode.requiresSpecialSeen = true →
    engine.records.lastSpecialSequence ≠ 0 → engine.lastSpecialTag = [] → record.base.lastSeenSpecialTag = []

/-- The segment starts and points where the records say, and lists every record up to the one it has seen. -/
structure Continues (engine : Engine lib) (data : PlainSegmentData) (lastSeen : SequenceNumber) : Prop where
  backbone : engine.records.segmentBackbone = some (data.segmentStart, data.previousSegmentTag)
  listed : ∀ row ∈ engine.records.rows, row.state = .inSync → data.segmentStart ≤ row.sequence →
    row.sequence ≤ lastSeen → row.tag ∈ data.tags

/-- An add is of an object without a record, the identifiers and descriptors of the changes are valid, and
a segment that is not rebuilt still continues the log. -/
def Committable (engine : Engine lib) (record : Record) : Prop :=
  match record.body with
  | .dataChange changes => engine.NamesSpecial record ∧ ∀ change ∈ changes, validObjectId change.id = true ∧
      (change.data.any fun descriptor => !descriptor.valid lib) = false ∧
      (change.previousOidRecordTag = [] → (engine.records.findLastObject change.id).elim [] Row.tag = [])
  | .userChange _ => engine.NamesSpecial record
  | .segment data =>
      (engine.config.mode.requiresSpecialSeen = true ∧ record.base.lastSeenBlock ≠ engine.records.lastBlock) ∨
        engine.Continues data record.base.lastSeenBlock.sequence

namespace Follows

variable (follows : engine.Follows sync) (tidy : sync.Tidy) {base : RecordBase}

include follows tidy

theorem lastBlock_eq : engine.records.lastBlock = sync.log.head :=
  follows.mirrors.lastBlock_eq.trans tidy.linked.lastBlock_eq_head

/-- The client knows the newest special record of the storage. -/
theorem checkRulesSpecialSeen_none_iff {ref : RecordTag} : sync.checkRulesSpecialSeen ref = none ↔
    (engine.config.mode.requiresSpecialSeen = true → engine.records.lastSpecialSequence ≠ 0 →
      ref = engine.lastSpecialTag) := by
  rw [ChainSync.checkRulesSpecialSeen_none_iff tidy, follows.mode]
  have entries := follows.mirrors.newest_eq fun entry => entry.type = .userChange || entry.type = .segment
  unfold lastSpecialTag
  rw [lastSpecialSequence_eq]
  cases found : sync.log.records.newest fun entry => entry.type = .userChange || entry.type = .segment with
  | none =>
    rw [found, Option.map_none, Option.map_eq_none_iff] at entries
    simp [entries]
  | some row =>
    rw [found] at entries
    obtain ⟨own, ownFound, same⟩ := Option.map_eq_some_iff.mp entries
    obtain ⟨⟨inside, _, _⟩, _⟩ := newest_eq_some_iff.mp found
    obtain ⟨⟨ownIn, ownInSync, _⟩, _⟩ := newest_eq_some_iff.mp ownFound
    have sequence : own.sequence = row.sequence := congrArg ChainEntry.sequence same
    have tag : own.tag = row.tag := congrArg ChainEntry.tag same
    have positive : own.sequence ≠ 0 := by
      rw [sequence]
      exact Nat.ne_of_gt (tidy.linked.bounds inside).1
    have atSequence : engine.records.find own.sequence .inSync = some own := by
      rw [find_inSync_eq]
      refine newest_eq_some_iff.mpr ⟨⟨ownIn, ownInSync, decide_eq_true rfl⟩, ?_⟩
      intro other _ _ equal
      exact Nat.le_of_eq (of_decide_eq_true equal)
    simp [ownFound, positive, atSequence, tag]

/-- A record that has seen the head in the strict mode only has to name the newest special record. -/
theorem checkRulesExisting_none_iff
    (head : engine.config.mode = .requireAllSeen → base.lastSeenBlock = engine.records.lastBlock) :
    sync.checkRulesExisting base = none ↔ (engine.config.mode ≠ .requireAllSeen →
      engine.config.mode.requiresSpecialSeen = true → engine.records.lastSpecialSequence ≠ 0 →
        base.lastSeenSpecialTag = engine.lastSpecialTag) := by
  unfold ChainSync.checkRulesExisting
  rw [← follows.mode]
  by_cases strict : engine.config.mode = .requireAllSeen
  · simp [strict, ChainSync.checkHeadSeen, head strict, follows.lastBlock_eq tidy]
  · rw [if_neg strict, follows.checkRulesSpecialSeen_none_iff tidy]
    simp [strict]

/-- An add that has seen the newest add is judged like a change of a known object. -/
theorem checkRulesAdd_eq
    (adds : engine.config.mode = .requireDataAddRemoveSeen →
      engine.records.lastDataAddSequence ≤ base.lastSeenBlock.sequence) :
    sync.checkRulesAdd base = sync.checkRulesExisting base := by
  unfold ChainSync.checkRulesAdd ChainSync.checkRulesExisting
  split
  · rfl
  cases sync.checkRulesSpecialSeen base.lastSeenSpecialTag with
  | some err => rfl
  | none =>
    rw [if_neg]
    simp only [Bool.and_eq_true, decide_eq_true_eq, not_and, Nat.not_lt]
    intro both
    have seen := adds (follows.mode.trans both.1)
    rw [follows.mirrors.lastDataAddSequence_eq] at seen
    exact tidy.adds.trans seen

end Follows

theorem Ready.head (ready : engine.Ready record) (strict : engine.config.mode = .requireAllSeen) :
    record.base.lastSeenBlock = engine.records.lastBlock := by
  have current := ready.current
  unfold pendingNeedsRebase needsRebase at current
  simpa [strict] using current

theorem Ready.special (ready : engine.Ready record) (weak : engine.config.mode ≠ .requireAllSeen)
    (plain : record.body.type ≠ .segment) (requires : engine.config.mode.requiresSpecialSeen = true)
    (named : engine.lastSpecialTag ≠ []) : record.base.lastSeenSpecialTag = engine.lastSpecialTag := by
  have current := ready.current
  unfold pendingNeedsRebase needsRebase RebaseState.specialBehind at current
  by_contra behind
  cases type : record.body.type with
  | segment => exact plain type
  | userChange | dataChange => simp [weak, type, requires, named, behind] at current

theorem Ready.adds (ready : engine.Ready record) {changes : List PlainSingleChangeData}
    (body : record.body = .dataChange changes)
    (some : (changes.any fun change => change.previousOidRecordTag = []) = true)
    (mode : engine.config.mode = .requireDataAddRemoveSeen) :
    engine.records.lastDataAddSequence ≤ record.base.lastSeenBlock.sequence := by
  have current := ready.current
  unfold pendingNeedsRebase needsRebase at current
  simp only [mode, reduceCtorEq, if_false, body, RecordBody.type, some, decide_true, Bool.and_true, if_true] at current
  split at current
  · cases current
  · by_contra below
    have positive : engine.records.lastDataAddSequence ≠ 0 := fun zero => below (zero ▸ Nat.zero_le _)
    simp [positive, Nat.not_le.mp below] at current

/-- The form in which a record is sent. -/
def FormOf (engine : Engine lib) (record content : Record) : Prop :=
  (engine.Ready record ∧ content = record) ∨ (¬ engine.Ready record ∧ engine.Rebuilt record content)

theorem rebaseChange_id (engine : Engine lib) (change : PlainSingleChangeData) :
    (engine.rebaseChange change).id = change.id ∧ (engine.rebaseChange change).data = change.data := by
  unfold rebaseChange
  split <;> exact ⟨rfl, rfl⟩

/-- A rebased change names the newest record of its object, unless it adds the object again. -/
theorem rebaseChange_names_iff {change : PlainSingleChangeData}
    (known : change.previousOidRecordTag ≠ [] → (engine.records.findLastObject change.id).isSome = true) :
    (engine.rebaseChange change).previousOidRecordTag = (engine.records.findLastObject change.id).elim [] Row.tag ↔
      (change.previousOidRecordTag = [] → (engine.records.findLastObject change.id).elim [] Row.tag = []) := by
  unfold rebaseChange conflictOf
  by_cases add : change.previousOidRecordTag = []
  · rw [if_pos add]
    rw [add]
    exact ⟨fun same _ => same.symm, fun empty => (empty rfl).symm⟩
  · obtain ⟨row, found⟩ := Option.isSome_iff_exists.mp (known add)
    by_cases same : row.tag = change.previousOidRecordTag <;> simp [add, found, same]

/-- What a new segment says. -/
theorem makeSegmentData_ok {base : ChainBlockId} (made : engine.makeSegmentData base = .ok data) :
    engine.records.segmentBackbone = some (data.segmentStart, data.previousSegmentTag) ∧
      data.segmentEnd = base.sequence + 1 ∧
      data.tags = engine.records.tagsInRange data.segmentStart base.sequence := by
  unfold makeSegmentData at made
  unfold segmentBackbone
  cases found : engine.records.findLastOfType .segment with
  | none =>
    simp only [found, Except.ok.injEq] at made
    subst made
    exact ⟨rfl, rfl, rfl⟩
  | some previous =>
    simp only [found] at made
    dsimp only
    split at made
    · rename_i earlier parsed
      have stated : previous.segment = some earlier := by rw [Row.segment, parsed]
      cases made
      rw [stated]
      exact ⟨rfl, rfl, rfl⟩
    · cases made

theorem pendingNeedsRebase_segment (body : record.body = .segment data) :
    engine.pendingNeedsRebase record = (engine.config.mode.requiresSpecialSeen &&
      record.base.lastSeenBlock ≠ engine.records.lastBlock) := by
  unfold pendingNeedsRebase needsRebase
  by_cases strict : engine.config.mode = .requireAllSeen
  · simp [strict, SyncMode.requiresSpecialSeen]
  · simp [strict, body, RecordBody.type]

theorem ready_segment_iff (body : record.body = .segment data) :
    engine.Ready record ↔ ¬ (engine.config.mode.requiresSpecialSeen = true ∧
      record.base.lastSeenBlock ≠ engine.records.lastBlock) := by
  have unconflicted : engine.findOidConflicts record = [] := by rw [findOidConflicts, body]
  have current := engine.pendingNeedsRebase_segment body
  constructor
  · intro ready behind
    rw [ready.current] at current
    simp [behind.1, behind.2] at current
  · intro fresh
    refine ⟨unconflicted, current.trans ?_⟩
    simpa using fresh

/-- The content of a segment on a block of the log is what the storage expects, where it continues it. -/
theorem covers_iff (follows : engine.Follows sync) (tidy : sync.Tidy) {base : RecordBase}
    (room : base.lastSeenBlock.sequence + 1 < SequenceNumber.limit)
    (seen : engine.config.mode.requiresSpecialSeen = true → base.lastSeenBlock = engine.records.lastBlock)
    (ends : data.segmentEnd = base.lastSeenBlock.sequence + 1) :
    sync.Covers base data ↔
      engine.records.segmentBackbone = some (data.segmentStart, data.previousSegmentTag) ∧
      data.tags = engine.records.tagsInRange data.segmentStart base.lastSeenBlock.sequence := by
  have next := ChainSync.next_eq room
  have back : SequenceNumber.previous data.segmentEnd = base.lastSeenBlock.sequence := by
    rw [ends, ← next, ChainSync.previous_next room, next, Nat.add_sub_cancel]
  rw [follows.mirrors.segmentBackbone_eq, follows.mirrors.tagsInRange_eq, ← back]
  constructor
  · intro covers
    exact ⟨covers.backbone, covers.tags⟩
  rintro ⟨backbone, tags⟩
  refine ⟨?_, ends.trans next.symm, backbone, tags⟩
  rw [← follows.mode, ← follows.lastBlock_eq tidy]
  exact seen

section

variable (form : engine.FormOf record content)
include form

theorem FormOf.head (strict : engine.config.mode = .requireAllSeen) :
    content.base.lastSeenBlock = engine.records.lastBlock := by
  obtain ⟨ready, rfl⟩ | ⟨_, rebuilt⟩ := form
  · exact ready.head strict
  · exact rebuilt.lastSeen

/-- A change or a delta has seen the log in the form in which it is sent, up to an empty special tag. -/
theorem FormOf.seen_iff (follows : engine.Follows sync) (tidy : sync.Tidy) (plain : record.body.type ≠ .segment) :
    sync.checkRulesExisting content.base = none ↔ engine.NamesSpecial record := by
  rw [follows.checkRulesExisting_none_iff tidy form.head]
  obtain ⟨ready, rfl⟩ | ⟨unready, rebuilt⟩ := form
  · constructor
    · intro seen _ weak requires positive empty
      rw [seen weak requires positive, empty]
    intro names weak requires positive
    by_cases empty : engine.lastSpecialTag = []
    · rw [names ready weak requires positive empty, empty]
    · exact ready.special weak plain requires empty
  · exact ⟨fun _ ready => absurd ready unready, fun _ _ _ _ => rebuilt.special⟩

/-- The change in the form in which it is sent. -/
theorem FormOf.change {change : PlainSingleChangeData} (body : record.body = .dataChange [change]) :
    content.body = .dataChange [engine.rebaseChange change] := by
  obtain ⟨ready, rfl⟩ | ⟨_, rebuilt⟩ := form
  · have unconflicted := ready.unconflicted
    unfold findOidConflicts at unconflicted
    rw [body] at unconflicted
    have none : engine.conflictOf change = none := by simpa using unconflicted
    rw [body, rebaseChange, none]
  · have rebased := rebuilt.body
    rw [body] at rebased
    exact (Except.ok.inj rebased).symm

theorem FormOf.adds {change : PlainSingleChangeData} (body : record.body = .dataChange [change])
    (add : change.previousOidRecordTag = []) (mode : engine.config.mode = .requireDataAddRemoveSeen) :
    engine.records.lastDataAddSequence ≤ content.base.lastSeenBlock.sequence := by
  obtain ⟨ready, rfl⟩ | ⟨_, rebuilt⟩ := form
  · exact ready.adds body (by simp [add]) mode
  · rw [rebuilt.lastSeen, lastDataAddSequence_eq]
    exact newest_le_lastBlock _ _

section

variable (follows : engine.Follows sync) (tidy : sync.Tidy)
include follows tidy

/-- A change passes in the form in which it is sent exactly when it is well formed and no repeated add. -/
theorem FormOf.passes_change_iff {change : PlainSingleChangeData} (body : record.body = .dataChange [change])
    (known : change.previousOidRecordTag ≠ [] → (engine.records.findLastObject change.id).isSome = true) :
    sync.Passes content ↔ engine.Committable record := by
  have plain : record.body.type ≠ .segment := by simp [body, RecordBody.type]
  obtain ⟨id, data⟩ := engine.rebaseChange_id change
  have tags : (engine.records.findLastObject change.id).elim [] Row.tag =
      (sync.log.records.findLastObject change.id).elim [] Row.tag := by
    rw [findLastObject_eq, findLastObject_eq]
    exact follows.mirrors.newest_elim_eq _ _ ChainEntry.tag
  rw [ChainSync.passes_dataChange_iff (form.change body), id, data]
  unfold Committable
  rw [body]
  simp only [List.mem_singleton, forall_eq]
  rw [← rebaseChange_names_iff known, ← form.seen_iff follows tidy plain, tags]
  cases found : sync.log.records.findLastObject change.id with
  | some row =>
    dsimp only [Option.elim_some]
    constructor
    · rintro ⟨valid, bounded, named, seen⟩
      exact ⟨seen, valid, bounded, named.symm⟩
    · rintro ⟨seen, valid, bounded, named⟩
      exact ⟨valid, bounded, named.symm, seen⟩
  | none =>
    dsimp only [Option.elim_none]
    -- An object without a record is added, so the change has no previous record.
    have add : change.previousOidRecordTag = [] := by
      by_contra later
      have entries := follows.mirrors.findLastObject_eq change.id
      rw [found, Option.map_none, Option.map_eq_none_iff] at entries
      simpa [entries] using known later
    rw [follows.checkRulesAdd_eq tidy (form.adds body add)]
    constructor
    · rintro ⟨valid, bounded, named, seen⟩
      exact ⟨seen, valid, bounded, named⟩
    · rintro ⟨seen, valid, bounded, named⟩
      exact ⟨valid, bounded, named, seen⟩

/-- A segment passes when it is rebuilt, or when it still continues the log. -/
theorem FormOf.passes_segment_iff (room : sync.log.head.sequence + 1 < SequenceNumber.limit) {old : Engine lib}
    (body : record.body = .segment data) (older : engine.records.Includes old.records)
    (lastSeen : record.base.lastSeenBlock = old.records.lastBlock)
    (made : old.makeSegmentData old.records.lastBlock = .ok data) :
    sync.Passes content ↔ engine.Committable record := by
  rw [← follows.lastBlock_eq tidy] at room
  have committable : engine.Committable record ↔ ¬ engine.Ready record ∨
      engine.Continues data record.base.lastSeenBlock.sequence := by
    rw [ready_segment_iff body, not_not, Committable, body]
  rw [committable]
  obtain ⟨ready, rfl⟩ | ⟨unready, rebuilt⟩ := form
  · obtain ⟨_, ends, tags⟩ := makeSegmentData_ok made
    rw [← lastSeen] at ends tags
    have inside : content.base.lastSeenBlock.sequence + 1 < SequenceNumber.limit := by
      rw [lastSeen]
      exact Nat.lt_of_le_of_lt (Nat.succ_le_succ older.lastBlock_le) room
    have seen : engine.config.mode.requiresSpecialSeen = true →
        content.base.lastSeenBlock = engine.records.lastBlock := by
      intro requires
      by_contra apart
      exact (ready_segment_iff body).mp ready ⟨requires, apart⟩
    have listed : data.tags = engine.records.tagsInRange data.segmentStart content.base.lastSeenBlock.sequence ↔
        ∀ row ∈ engine.records.rows, row.state = .inSync → data.segmentStart ≤ row.sequence →
          row.sequence ≤ content.base.lastSeenBlock.sequence → row.tag ∈ data.tags := by
      rw [tags]
      exact older.tagsInRange_eq_iff_listed _ _
    rw [ChainSync.passes_segment_iff tidy.linked body, covers_iff follows tidy inside seen ends, listed]
    exact ⟨fun both => Or.inr ⟨both.1, both.2⟩, fun either => either.elim (absurd ready) fun on => ⟨on.backbone, on.listed⟩⟩
  · have rebased := rebuilt.body
    rw [body, rebasedBody] at rebased
    cases again : engine.makeSegmentData engine.records.lastBlock with
    | error err => simp [again, Except.map] at rebased
    | ok fresh =>
      rw [again] at rebased
      obtain ⟨backbone, ends, tags⟩ := makeSegmentData_ok again
      rw [← rebuilt.lastSeen] at ends tags room
      rw [ChainSync.passes_segment_iff tidy.linked (Except.ok.inj rebased).symm,
        covers_iff follows tidy room (fun _ => rebuilt.lastSeen) ends]
      exact ⟨fun _ => Or.inl unready, fun _ => ⟨backbone, tags⟩⟩

/-- The form of a created record passes exactly under the condition. -/
theorem FormOf.passes_iff (room : sync.log.head.sequence + 1 < SequenceNumber.limit)
    (shape : Shape engine.records record) : sync.Passes content ↔ engine.Committable record := by
  cases shape with
  | data body known => exact form.passes_change_iff follows tidy body known
  | segment body older lastSeen made => exact form.passes_segment_iff follows tidy room body older lastSeen made
  | @user data body delta =>
    have plain : record.body.type ≠ .segment := by simp [body, RecordBody.type]
    have kept : content.body = .userChange data := by
      obtain ⟨_, rfl⟩ | ⟨_, rebuilt⟩ := form
      · exact body
      · have rebased := rebuilt.body
        rw [body] at rebased
        exact (Except.ok.inj rebased).symm
    rw [ChainSync.passes_userChange_iff kept delta, form.seen_iff follows tidy plain, Committable, body]

end

end

/-- Of a storage that only took commits and a client with the same records in sync: a pending record that the
client created on an older state is, in the form in which the commit pump sends it, not rejected as out of
sync or invalid exactly when it is committable. -/
theorem not_rejects_iff_committable (law : lib.RoundTrips) {config : ChainSyncConfig}
    {keys : Option (List PublicKeyId)} (log : sync.Committed config keys) (follows : engine.Follows sync)
    (room : sync.log.head.sequence + 1 < SequenceNumber.limit) (policy : engine.config.conflicts = .rebaseOnTop)
    {row current : Row lib} {handle : Nat} (inside : row ∈ engine.records.rows)
    (drafted : Drafted engine.records row.block) (parsed : lib.deserialise row.block.record = some record)
    (pushed : engine.Pushed (tryCommitPending.final engine) row current handle)
    (presentable : sync.Presentable current.block) :
    ¬ sync.Rejects current.block ↔ engine.Committable record := by
  obtain ⟨again, sent⟩ := sentAs_of_pushed law policy inside pushed
  obtain rfl : record = again := Option.some.inj (parsed.symm.trans sent.parsed)
  obtain ⟨shaped, shapedParsed, shape⟩ := drafted.shape law
  obtain rfl : record = shaped := Option.some.inj (parsed.symm.trans shapedParsed)
  obtain ⟨content, contentParsed, form⟩ : ∃ content, lib.deserialise current.block.record = some content ∧
      engine.FormOf record content := by
    by_cases ready : engine.Ready record
    · exact ⟨record, by rw [sent.decided ready]; exact parsed, Or.inl ⟨ready, rfl⟩⟩
    · obtain ⟨content, contentParsed, rebuilt⟩ := sent.rebuilt ready
      exact ⟨content, contentParsed, Or.inr ⟨ready, rebuilt⟩⟩
  have tidy := log.tidy
  rw [presentable.rejects_iff tidy.linked contentParsed, not_not]
  exact form.passes_iff follows tidy room shape

/-- A client with one key, which makes the first record of the storage. -/
def creator : Engine .sample where
  config := { mode := .requireSpecialSeen }
  keys := ⟨[⟨2, [7]⟩]⟩
  random drawn := [Fin.ofNat 256 drawn, 1]

def openingChange : Securepath.sample.Block :=
  (createRecord .sample ⟨⟨2, [7]⟩, {}, none, [0, 1], [1, 1], []⟩ (.userChange ⟨⟨.delta, []⟩, []⟩) [[]]).setSequenceAndParentHash
    1 []

def openedLog : ChainSync .sample :=
  ChainSync.commitStep (.load { mode := .requireSpecialSeen } none (.empty .sample)) openingChange

def openedClient : Engine .sample :=
  (creator.step (.syncUserChange ⟨⟨.delta, []⟩, []⟩ [])).step (.commitResponse 1 { data := .ok openingChange })

/-- The one object of the storage. -/
def onlyObject : ObjectId :=
  List.replicate 16 1

/-- The add of the object behind a user change, with the drawn octets. -/
def objectAdd (seen : Securepath.sample.Block) (iv opId : Fin 256) : Securepath.sample.Block :=
  createRecord .sample ⟨⟨2, [7]⟩, Securepath.sample.blockId seen, none, [iv, 1], [opId, 1], seen.tag⟩
    (.dataChange [⟨onlyObject, [], none⟩]) [[]]

/-- The row in which the add waits. -/
def waitingRow (key : Nat) (opId : Fin 256) (block : Securepath.sample.Block) : Row .sample where
  key := key
  tag := block.tag
  sequence := block.sequence
  hash := Securepath.sample.hash block
  parentHash := block.parentHash
  state := .pendingCommit
  block := block
  type := .dataChange
  opId := [opId, 1]

/-- The user change of another member. -/
def otherChange : Securepath.sample.Block :=
  (createRecord .sample ⟨⟨2, [7]⟩, Securepath.sample.blockId openingChange, none, [5], [6], openingChange.tag⟩
    (.userChange ⟨⟨.delta, []⟩, []⟩) [[]]).setSequenceAndParentHash 2 (Securepath.sample.hash openingChange)

def movedLog : ChainSync .sample :=
  openedLog.commitStep otherChange

/-- The client added the object, received the other change before an answer, and lost the connection. -/
def movedClient : Engine .sample :=
  ((openedClient.step (.syncObjectChange onlyObject [] none)).step (.recordReceived otherChange none)).step .disconnected

theorem openedLog_committed : openedLog.Committed { mode := .requireSpecialSeen } none :=
  .tail (.refl _) trivial

/-- A block is presentable where its content says so. -/
theorem presentable_objectAdd (sync : ChainSync .sample) (seen : Securepath.sample.Block) (iv opId : Fin 256)
    (fits : sync.tooBig (objectAdd seen iv opId) = false)
    (newTag : sync.log.records.findTag (objectAdd seen iv opId).tag = none)
    (unsigned : sync.config.authMode ≠ .signRecords) (newOp : sync.log.records.findOpId [opId, 1] = none) :
    sync.Presentable (objectAdd seen iv opId) := by
  refine ⟨fits, newTag, fun signed => absurd signed unsigned, ?_⟩
  intro record parsed
  cases parsed
  exact Or.inr newOp

/-- The pump rebuilds the add on the other change. -/
theorem not_rejects_iff_committable_rebuilt :
    movedLog.Rejects (objectAdd openingChange 2 3) ∧ ¬ movedLog.Rejects (objectAdd otherChange 4 3) := by
  have mirrors : movedClient.records.chain = movedLog.log.records.chain := by decide +kernel
  have older : movedClient.records.Includes openedClient.records := by
    have part : ∀ entry ∈ openedClient.records.chain, entry ∈ movedClient.records.chain := by decide +kernel
    exact part
  have drafted : Drafted movedClient.records (objectAdd openingChange 2 3) :=
    .made older (.objectChange onlyObject [] none) (by decide +kernel)
  have pushed : movedClient.Pushed (tryCommitPending.final movedClient) (waitingRow 2 3 (objectAdd openingChange 2 3))
      (waitingRow 2 3 (objectAdd otherChange 4 3)) 3 :=
    ⟨by decide +kernel, by decide +kernel, by decide +kernel, by decide +kernel⟩
  have presentable := presentable_objectAdd movedLog otherChange 4 3 (by decide +kernel) (by decide +kernel)
    (by decide +kernel) (by decide +kernel)
  have committed : movedLog.Committed { mode := .requireSpecialSeen } none := .tail openedLog_committed trivial
  refine ⟨⟨⟨some ⟨.recordOutOfSync, ""⟩, .dataAddRemove⟩, _, by decide +kernel, rfl, Or.inl rfl⟩, ?_⟩
  refine (not_rejects_iff_committable (fun _ => rfl) committed
    ⟨fun entry => by rw [mirrors], by decide +kernel⟩ (by decide +kernel) (by decide +kernel) (by decide +kernel) drafted
    rfl pushed presentable).mpr ⟨?_, ?_⟩
  · intro _ _ _ _ empty
    exact absurd empty (by decide +kernel)
  · intro change inside
    obtain rfl := List.mem_singleton.mp inside
    exact ⟨by decide, by decide, fun _ => by decide +kernel⟩

def grownLog : ChainSync .sample :=
  openedLog.commitStep (objectAdd openingChange 2 3)

/-- The client made two changes of the new object; the first one is committed, and the connection is lost. -/
def repeatingClient : Engine .sample :=
  (((openedClient.step (.syncObjectChange onlyObject [] none)).step (.syncObjectChange onlyObject [] none)).step
    (.commitResponse 2 { data := .ok ((objectAdd openingChange 2 3).setSequenceAndParentHash 2
      (Securepath.sample.hash openingChange)) })).step
      .disconnected

def repeatedRow : Row .sample :=
  waitingRow 3 5 (objectAdd openingChange 4 5)

/-- The second change of a new object still adds it, and the storage rejects it. -/
theorem rejects_repeated_add : grownLog.Committed { mode := .requireSpecialSeen } none ∧
    repeatingClient.Follows grownLog ∧ Drafted repeatingClient.records (objectAdd openingChange 4 5) ∧
    repeatingClient.Pushed (tryCommitPending.final repeatingClient) repeatedRow repeatedRow 4 ∧
    repeatedRow ∈ repeatingClient.records.rows ∧ repeatingClient.config.conflicts = .rebaseOnTop ∧
    grownLog.Presentable (objectAdd openingChange 4 5) ∧ grownLog.Rejects (objectAdd openingChange 4 5) := by
  have mirrors : repeatingClient.records.chain = grownLog.log.records.chain := by decide +kernel
  have older : repeatingClient.records.Includes
      (openedClient.step (.syncObjectChange onlyObject [] none)).records := by
    have part : ∀ entry ∈ (openedClient.step (.syncObjectChange onlyObject [] none)).records.chain,
        entry ∈ repeatingClient.records.chain := by decide +kernel
    exact part
  have drafted : Drafted repeatingClient.records (objectAdd openingChange 4 5) :=
    .made older (.objectChange onlyObject [] none) (by decide +kernel)
  refine ⟨.tail openedLog_committed trivial, ⟨fun entry => by rw [mirrors], by decide +kernel⟩, drafted,
    ⟨by decide +kernel, by decide +kernel, by decide +kernel, by decide +kernel⟩, by decide +kernel, by decide +kernel,
    presentable_objectAdd grownLog openingChange 4 5 (by decide +kernel) (by decide +kernel) (by decide +kernel)
      (by decide +kernel), ?_⟩
  exact ⟨⟨some ⟨.recordOutOfSync, ""⟩, .none⟩, ⟨.recordOutOfSync, ""⟩, by decide +kernel, rfl, Or.inl rfl⟩

end SpSync.Engine
