import SpSync.Proof.Server.CommittedLog
import SpSync.Proof.Server.Segments

namespace SpSync

open Foundation RecordStorage

variable {lib : Securepath}

namespace RecordStorage

/-- Where the next segment has to start, and the segment that it has to name. -/
def segmentBackbone (records : RecordStorage lib) : Option (SequenceNumber × RecordTag) :=
  match records.findLastOfType .segment with
  | none => some (1, [])
  | some previous => previous.segment.map fun data => (data.segmentEnd, previous.tag)

theorem Mirrors.segmentBackbone_eq {left right : RecordStorage lib} (mirrors : left.Mirrors right) :
    left.segmentBackbone = right.segmentBackbone := by
  unfold segmentBackbone
  obtain ⟨none, otherNone⟩ | ⟨previous, other, found, otherFound, tag, record⟩ :=
    Row.entry_cases (mirrors.findLastOfType_eq .segment)
  · rw [none, otherNone]
  · have segment : other.segment = previous.segment := by rw [Row.segment, Row.segment, record]
    rw [found, otherFound]
    dsimp only
    rw [segment, tag]

end RecordStorage

/-- The error is one of a record that does not fit the log. -/
def Error.Unfit (err : Error) : Prop :=
  err.code = .recordOutOfSync ∨ err.code = .invalidRecord

namespace ChainSync

/-- The rules accept the record. -/
def Passes (sync : ChainSync lib) (record : Record) : Prop :=
  ∃ type, sync.checkRules record = .ok ⟨none, type⟩

/-- The storage rejects the block because it does not fit the log. -/
def Rejects (sync : ChainSync lib) (block : lib.Block) : Prop :=
  ∃ result err, sync.evaluate block = .ok result ∧ result.err = some err ∧ err.Unfit

/-- The block is within the size limit, authentic, and neither it nor its operation is committed. -/
structure Presentable (sync : ChainSync lib) (block : lib.Block) : Prop where
  fits : sync.tooBig block = false
  newTag : sync.log.records.findTag block.tag = none
  authentic : sync.config.authMode = .signRecords → sync.verifySignature block = none
  newOp : ∀ record, lib.deserialise block.record = some record →
    record.base.opId = [] ∨ sync.log.records.findOpId record.base.opId = none

variable {sync : ChainSync lib} {block : lib.Block} {record : Record} {base : RecordBase} {err : Error}
  {ref : RecordTag} {result : RuleResult} {data : PlainUserChangeData}

/-- Nothing but the rules decides on a presentable block. -/
theorem Presentable.evaluate (presentable : sync.Presentable block)
    (parsed : lib.deserialise block.record = some record) : sync.evaluate block = sync.checkRules record := by
  have signed : (if sync.config.authMode = .signRecords then sync.verifySignature block else none) = none := by
    split
    · exact presentable.authentic ‹_›
    · rfl
  unfold ChainSync.evaluate evaluateWith
  rw [presentable.fits, presentable.newTag, signed, parsed]
  obtain none | missing := presentable.newOp record parsed
  · simp [none]
  · simp [missing]

theorem unfit_checkRulesSpecialSeen (refused : sync.checkRulesSpecialSeen ref = some err) : err.Unfit := by
  unfold checkRulesSpecialSeen at refused
  split at refused
  · split at refused
    · cases refused
      exact Or.inl rfl
    split at refused
    · cases refused
      exact Or.inr rfl
    split at refused
    · cases refused
      exact Or.inl rfl
    · cases refused
  · cases refused

theorem unfit_checkHeadSeen (refused : sync.checkHeadSeen base = some err) : err.Unfit := by
  unfold checkHeadSeen at refused
  split at refused
  · cases refused
    exact Or.inl rfl
  · cases refused

theorem unfit_checkRulesExisting (refused : sync.checkRulesExisting base = some err) : err.Unfit := by
  unfold checkRulesExisting at refused
  split at refused
  · exact unfit_checkHeadSeen refused
  · exact unfit_checkRulesSpecialSeen refused

theorem unfit_checkRulesAdd (refused : sync.checkRulesAdd base = some err) : err.Unfit := by
  unfold checkRulesAdd at refused
  split at refused
  · exact unfit_checkHeadSeen refused
  split at refused
  · rename_i special
    cases refused
    exact unfit_checkRulesSpecialSeen special
  · split at refused
    · cases refused
      exact Or.inl rfl
    · cases refused

theorem unfit_checkChange (earlier : ∀ err, result.err = some err → err.Unfit) (change : PlainSingleChangeData) :
    ∀ err, (sync.checkChange base result change).err = some err → err.Unfit := by
  intro err refused
  unfold checkChange at refused
  split at refused
  · exact earlier err refused
  split at refused
  · cases refused
    exact Or.inr rfl
  split at refused
  · cases refused
    exact Or.inr rfl
  split at refused
  · split at refused
    · exact unfit_checkRulesAdd refused
    · cases refused
      exact Or.inl rfl
  · split at refused
    · exact unfit_checkRulesExisting refused
    · cases refused
      exact Or.inl rfl

theorem unfit_checkRulesDataChange (changes : List PlainSingleChangeData)
    (earlier : ∀ err, result.err = some err → err.Unfit) :
    ∀ err, (changes.foldl (sync.checkChange base) result).err = some err → err.Unfit := by
  induction changes generalizing result with
  | nil => exact earlier
  | cons change rest ih => exact ih (unfit_checkChange earlier change)

theorem unfit_checkRulesUserChange (refused : (sync.checkRulesUserChange base data).err = some err) : err.Unfit := by
  unfold checkRulesUserChange at refused
  split at refused
  · cases refused
    exact Or.inr rfl
  · split at refused
    · exact unfit_checkHeadSeen refused
    · exact unfit_checkRulesSpecialSeen refused

/-- The segment continues the backbone exactly when it starts and points where the records say. -/
theorem checkSegmentBackbone_eq (linked : sync.log.Linked) (data : PlainSegmentData) :
    sync.checkSegmentBackbone data =
      .ok (if sync.log.records.segmentBackbone = some (data.segmentStart, data.previousSegmentTag) then none
        else some ⟨.recordOutOfSync, ""⟩) := by
  have verdict (start : SequenceNumber) (tag : RecordTag) :
      (if data.segmentStart ≠ start ∨ data.previousSegmentTag ≠ tag then .ok (some ⟨.recordOutOfSync, ""⟩)
        else .ok none : Except Error (Option Error)) =
      .ok (if some (start, tag) = some (data.segmentStart, data.previousSegmentTag) then none
        else some ⟨.recordOutOfSync, ""⟩) := by
    by_cases same : some (start, tag) = some (data.segmentStart, data.previousSegmentTag)
    · cases same
      simp
    rw [if_neg same, if_pos]
    by_contra both
    simp only [not_or, not_not] at both
    exact same (by rw [both.1, both.2])
  unfold checkSegmentBackbone
  cases found : sync.log.records.findLastOfType .segment with
  | none =>
    have backbone : sync.log.records.segmentBackbone = some (1, []) := by rw [segmentBackbone, found]
    rw [backbone]
    exact verdict 1 []
  | some previous =>
    obtain ⟨⟨inside, _, type⟩, _⟩ := newest_eq_some_iff.mp (findLastOfType_eq _ _ ▸ found)
    obtain ⟨record, parsed, typed, _⟩ := (linked.faithful previous inside).parsed
    have segment : record.body.type = .segment := typed.symm.trans (of_decide_eq_true type)
    obtain ⟨earlier, body⟩ : ∃ earlier, record.body = .segment earlier := by
      cases body : record.body with
      | segment earlier => exact ⟨earlier, rfl⟩
      | dataChange changes | userChange data => simp [body, RecordBody.type] at segment
    have backbone : sync.log.records.segmentBackbone = some (earlier.segmentEnd, previous.tag) := by
      rw [segmentBackbone, found]
      dsimp only
      rw [Row.segment_eq parsed, body, Option.map_some]
    rw [backbone]
    dsimp only
    rw [parsed, Option.map_some, body]
    exact verdict earlier.segmentEnd previous.tag

/-- What the rules ask of a segment. -/
structure Covers (sync : ChainSync lib) (base : RecordBase) (data : PlainSegmentData) : Prop where
  seen : sync.config.mode.requiresSpecialSeen = true → base.lastSeenBlock = sync.log.head
  ends : data.segmentEnd = SequenceNumber.next base.lastSeenBlock.sequence
  backbone : sync.log.records.segmentBackbone = some (data.segmentStart, data.previousSegmentTag)
  tags : data.tags = sync.log.records.tagsInRange data.segmentStart (SequenceNumber.previous data.segmentEnd)

/-- The verdict on a segment. -/
theorem checkRulesSegment_judged (linked : sync.log.Linked) (base : RecordBase) (data : PlainSegmentData) :
    (sync.Covers base data ∧ sync.checkRulesSegment base data = .ok ⟨none, .special⟩) ∨
      (¬ sync.Covers base data ∧
        ∃ err, err.Unfit ∧ sync.checkRulesSegment base data = .ok ⟨some err, .special⟩) := by
  unfold checkRulesSegment
  by_cases seen : (sync.config.mode.requiresSpecialSeen && base.lastSeenBlock ≠ sync.log.head) = true
  · rw [if_pos seen]
    simp only [Bool.and_eq_true, decide_eq_true_eq] at seen
    exact Or.inr ⟨fun covers => seen.2 (covers.seen seen.1), _, Or.inl rfl, rfl⟩
  · rw [if_neg seen]
    unfold checkRulesSegmentCoverage
    by_cases ends : data.segmentEnd = SequenceNumber.next base.lastSeenBlock.sequence
    · rw [if_neg (not_not.mpr ends), checkSegmentBackbone_eq linked]
      by_cases backbone :
          sync.log.records.segmentBackbone = some (data.segmentStart, data.previousSegmentTag)
      · rw [if_pos backbone]
        by_cases tags :
            data.tags = sync.log.records.tagsInRange data.segmentStart (SequenceNumber.previous data.segmentEnd)
        · refine Or.inl ⟨⟨?_, ends, backbone, tags⟩, ?_⟩
          · intro requires
            by_contra apart
            exact seen (by simp [requires, apart])
          · simp only [bind, Except.bind, pure, Except.pure, ne_eq, tags, not_true, if_false]
        · refine Or.inr ⟨fun covers => tags covers.tags, ⟨.invalidRecord, "segment tag list does not match the chain"⟩,
            Or.inr rfl, ?_⟩
          simp only [bind, Except.bind, pure, Except.pure, ne_eq, tags, not_false_eq_true, if_true]
      · rw [if_neg backbone]
        exact Or.inr ⟨fun covers => backbone covers.backbone, _, Or.inl rfl, rfl⟩
    · rw [if_pos ends]
      exact Or.inr ⟨fun covers => ends covers.ends, _, Or.inr rfl, rfl⟩

/-- The rules accept a record or refuse it as unfit. -/
theorem checkRules_judged (linked : sync.log.Linked) (record : Record) :
    sync.Passes record ∨ ∃ err type, err.Unfit ∧ sync.checkRules record = .ok ⟨some err, type⟩ := by
  have decided (result : RuleResult) (judged : sync.checkRules record = .ok result)
      (unfit : ∀ err, result.err = some err → err.Unfit) :
      sync.Passes record ∨ ∃ err type, err.Unfit ∧ sync.checkRules record = .ok ⟨some err, type⟩ := by
    obtain ⟨verdict, type⟩ := result
    cases verdict with
    | none => exact Or.inl ⟨type, judged⟩
    | some err => exact Or.inr ⟨err, type, unfit err rfl, judged⟩
  cases body : record.body with
  | dataChange changes =>
    refine decided (sync.checkRulesDataChange record.base changes) ?_ (unfit_checkRulesDataChange changes (by simp))
    simp only [checkRules, body]
  | userChange data =>
    refine decided (sync.checkRulesUserChange record.base data) ?_ fun _ => unfit_checkRulesUserChange
    simp only [checkRules, body]
  | segment data =>
    obtain ⟨_, accepted⟩ | ⟨_, err, unfit, refused⟩ := checkRulesSegment_judged linked record.base data
    · exact Or.inl ⟨.special, by rw [checkRules, body]; exact accepted⟩
    · exact Or.inr ⟨err, .special, unfit, by rw [checkRules, body]; exact refused⟩

/-- A presentable block is rejected exactly when its record does not pass the rules. -/
theorem Presentable.rejects_iff (presentable : sync.Presentable block) (linked : sync.log.Linked)
    (parsed : lib.deserialise block.record = some record) : sync.Rejects block ↔ ¬ sync.Passes record := by
  constructor
  · intro rejects passes
    obtain ⟨result, err, judged, refused, _⟩ := rejects
    obtain ⟨type, accepted⟩ := passes
    rw [presentable.evaluate parsed, accepted] at judged
    cases judged
    cases refused
  · intro fails
    obtain passes | ⟨err, type, unfit, refused⟩ := checkRules_judged linked record
    · exact absurd passes fails
    · exact ⟨_, err, (presentable.evaluate parsed).trans refused, rfl, unfit⟩

theorem passes_segment_iff (linked : sync.log.Linked) {data : PlainSegmentData} (body : record.body = .segment data) :
    sync.Passes record ↔ sync.Covers record.base data := by
  unfold Passes checkRules
  rw [body]
  obtain ⟨covers, accepted⟩ | ⟨fails, err, _, refused⟩ := checkRulesSegment_judged linked record.base data
  · exact ⟨fun _ => covers, fun _ => ⟨.special, accepted⟩⟩
  · refine ⟨fun passes => ?_, fun covers => absurd covers fails⟩
    obtain ⟨type, accepted⟩ := passes
    cases refused.symm.trans accepted

/-- A delta of users only has to have seen the log. -/
theorem passes_userChange_iff (body : record.body = .userChange data) (delta : data.access.mode = .delta) :
    sync.Passes record ↔ sync.checkRulesExisting record.base = none := by
  unfold Passes checkRules
  rw [body]
  have verdict : sync.checkRulesUserChange record.base data = ⟨sync.checkRulesExisting record.base, .special⟩ := by
    unfold checkRulesUserChange checkRulesExisting
    rw [if_neg (by simp [delta])]
    split <;> rfl
  simp only [verdict, Except.ok.injEq, RuleResult.mk.injEq]
  exact ⟨fun ⟨_, accepted, _⟩ => accepted, fun accepted => ⟨.special, accepted, rfl⟩⟩

/-- One change passes when it is well formed, names the newest record of its object and has seen the log. -/
theorem passes_dataChange_iff {change : PlainSingleChangeData} (body : record.body = .dataChange [change]) :
    sync.Passes record ↔ validObjectId change.id = true ∧
      (change.data.any fun descriptor => !descriptor.valid lib) = false ∧
      match sync.log.records.findLastObject change.id with
      | none => change.previousOidRecordTag = [] ∧ sync.checkRulesAdd record.base = none
      | some row => row.tag = change.previousOidRecordTag ∧ sync.checkRulesExisting record.base = none := by
  have single : sync.Passes record ↔ (sync.checkChange record.base {} change).err = none := by
    unfold Passes checkRules
    rw [body]
    constructor
    · intro passes
      obtain ⟨type, accepted⟩ := passes
      exact congrArg RuleResult.err (Except.ok.inj accepted)
    · intro accepted
      change ∃ type, Except.ok (sync.checkChange record.base {} change) = Except.ok ⟨none, type⟩
      generalize sync.checkChange record.base {} change = result at accepted
      obtain ⟨err, type⟩ := result
      cases accepted
      exact ⟨type, rfl⟩
  rw [single]
  unfold checkChange
  simp only [Option.isSome_none, Bool.false_eq_true, if_false, Bool.not_eq_true']
  cases validObjectId change.id with
  | false => simp
  | true =>
    cases change.data.any fun descriptor => !descriptor.valid lib with
    | true => simp
    | false =>
      cases sync.log.records.findLastObject change.id with
      | none => by_cases add : change.previousOidRecordTag = [] <;> simp [add]
      | some row => by_cases same : row.tag = change.previousOidRecordTag <;> simp [same]

/-- The reference must be the newest special record, if there is one. -/
theorem checkRulesSpecialSeen_none_iff (tidy : sync.Tidy) :
    sync.checkRulesSpecialSeen ref = none ↔ (sync.config.mode.requiresSpecialSeen = true → ∀ row,
      (sync.log.records.newest fun entry => entry.type = .userChange || entry.type = .segment) = some row →
        ref = row.tag) := by
  unfold checkRulesSpecialSeen
  rw [tidy.special, lastSpecialSequence_eq]
  cases found : sync.log.records.newest fun entry => entry.type = .userChange || entry.type = .segment with
  | none => simp
  | some row =>
    obtain ⟨⟨inside, _, special⟩, top⟩ := newest_eq_some_iff.mp found
    have positive : row.sequence ≠ 0 := Nat.ne_of_gt (tidy.linked.bounds inside).1
    cases sync.config.mode.requiresSpecialSeen with
    | false => simp
    | true =>
      simp only [Option.elim_some, Bool.true_and, decide_eq_true_eq, ne_eq, positive, not_false_eq_true, if_true,
        true_imp_iff, Option.some.injEq, forall_eq']
      cases tagged : sync.log.records.findTag ref with
      | none => simpa using fun same => findTag_eq_none_iff.mp tagged row inside same.symm
      | some other =>
        obtain ⟨otherIn, rfl⟩ := findTag_eq_some_iff.mp tagged
        have same_iff : other.tag = row.tag ↔ other = row :=
          ⟨row_eq_of_tag otherIn inside, fun same => by rw [same]⟩
        rw [same_iff]
        by_cases kind : other.isSpecial = true
        · have below := top other otherIn (tidy.linked.inSync other otherIn) kind
          simp only [kind, Bool.not_true, Bool.false_eq_true, if_false]
          constructor
          · intro judged
            by_cases older : other.sequence < row.sequence
            · simp [older] at judged
            · exact tidy.linked.row_eq_of_sequence otherIn inside (Nat.le_antisymm below (Nat.not_lt.mp older))
          · rintro rfl
            simp
        · simp only [kind, Bool.not_false, if_true, reduceCtorEq, false_iff]
          rintro rfl
          exact kind special

end ChainSync

end SpSync
