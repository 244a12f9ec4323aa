import SpSync.Proof.Core.Mirror
import SpSync.Proof.Engine.PumpTurns

namespace SpSync

open Foundation RecordStorage

variable {lib : Securepath}

/-- A serialised record can be read again. -/
def Securepath.RoundTrips (lib : Securepath) : Prop :=
  ∀ record, lib.deserialise (lib.serialise record) = some record

namespace Engine

/-- The record is sent as it is. -/
structure Ready (engine : Engine lib) (record : Record) : Prop where
  unconflicted : engine.findOidConflicts record = []
  current : engine.pendingNeedsRebase record = false

/-- The second record is the first one on the head of the engine. -/
structure Rebuilt (engine : Engine lib) (record rebuilt : Record) : Prop where
  lastSeen : rebuilt.base.lastSeenBlock = engine.records.lastBlock
  special : rebuilt.base.lastSeenSpecialTag = engine.lastSpecialTag
  body : engine.rebasedBody record.body = .ok rebuilt.body

section View

variable {left right : Engine lib} (mirrors : left.records.Mirrors right.records)
include mirrors

theorem lastSpecialTag_view : left.lastSpecialTag = right.lastSpecialTag := by
  have tags : ∀ (records : RecordStorage lib) sequence, (records.find sequence .inSync).elim [] Row.tag =
      ((records.find sequence .inSync).map Row.entry).elim [] ChainEntry.tag := by
    intro records sequence
    cases records.find sequence .inSync <;> rfl
  unfold lastSpecialTag
  rw [mirrors.lastSpecialSequence_eq]
  dsimp only
  rw [tags, tags, mirrors.find_eq]

/-- The tag of the newest record of an object that changed underneath the change. -/
theorem conflictOf_view (change : PlainSingleChangeData) :
    (left.conflictOf change).map Row.tag = (right.conflictOf change).map Row.tag := by
  unfold conflictOf
  split
  · rfl
  obtain ⟨none, otherNone⟩ | ⟨row, other, found, otherFound, tag, _⟩ :=
    Row.entry_cases (mirrors.findLastObject_eq change.id)
  · rw [none, otherNone]
  · rw [found, otherFound]
    dsimp only
    rw [tag]
    split
    · exact congrArg some tag.symm
    · rfl

theorem rebaseChange_view (change : PlainSingleChangeData) : left.rebaseChange change = right.rebaseChange change := by
  have tags := conflictOf_view mirrors change
  have form : ∀ engine : Engine lib, engine.rebaseChange change =
      ((engine.conflictOf change).map Row.tag).elim change fun tag => { change with previousOidRecordTag := tag } := by
    intro engine
    unfold rebaseChange
    cases engine.conflictOf change <;> rfl
  rw [form, form, tags]

theorem findOidConflicts_view (record : Record) :
    left.findOidConflicts record = [] ↔ right.findOidConflicts record = [] := by
  unfold findOidConflicts
  cases record.body with
  | dataChange changes =>
    have none (change : PlainSingleChangeData) : left.conflictOf change = none ↔ right.conflictOf change = none := by
      rw [← Option.map_eq_none_iff (f := Row.tag), conflictOf_view mirrors change, Option.map_eq_none_iff]
    simp only [List.filterMap_eq_nil_iff, none]
  | userChange data => exact Iff.rfl
  | segment data => exact Iff.rfl

theorem makeSegmentData_view (base : ChainBlockId) : left.makeSegmentData base = right.makeSegmentData base := by
  unfold makeSegmentData
  obtain ⟨none, otherNone⟩ | ⟨previous, other, found, otherFound, tag, record⟩ :=
    Row.entry_cases (mirrors.findLastOfType_eq .segment)
  · rw [none, otherNone]
    rw [mirrors.tagsInRange_eq]
  · rw [found, otherFound]
    dsimp only
    rw [record, tag]
    split
    · rw [mirrors.tagsInRange_eq]
    · rfl

theorem rebasedBody_view (body : RecordBody) : left.rebasedBody body = right.rebasedBody body := by
  cases body with
  | dataChange changes => simp only [rebasedBody, funext (rebaseChange_view mirrors)]
  | userChange data => rfl
  | segment data => simp only [rebasedBody, makeSegmentData_view mirrors, mirrors.lastBlock_eq]

theorem pendingNeedsRebase_view (mode : left.config.mode = right.config.mode) (record : Record) :
    left.pendingNeedsRebase record = right.pendingNeedsRebase record := by
  unfold pendingNeedsRebase
  rw [mode, mirrors.lastBlock_eq, lastSpecialTag_view mirrors, mirrors.lastDataAddSequence_eq]

theorem ready_view (mode : left.config.mode = right.config.mode) (record : Record) :
    left.Ready record ↔ right.Ready record := by
  constructor
  · rintro ⟨unconflicted, current⟩
    exact ⟨(findOidConflicts_view mirrors record).mp unconflicted, by rwa [← pendingNeedsRebase_view mirrors mode]⟩
  · rintro ⟨unconflicted, current⟩
    exact ⟨(findOidConflicts_view mirrors record).mpr unconflicted, by rwa [pendingNeedsRebase_view mirrors mode]⟩

theorem Rebuilt.view {record rebuilt : Record} (form : left.Rebuilt record rebuilt) : right.Rebuilt record rebuilt :=
  ⟨by rw [← mirrors.lastBlock_eq]; exact form.lastSeen, by rw [← lastSpecialTag_view mirrors]; exact form.special,
    by rw [← rebasedBody_view mirrors]; exact form.body⟩

end View

variable {engine : Engine lib} {block : lib.Block} {reached : Engine lib} {body : RecordBody} {hasConflicts : Bool}
  {record : Record}

theorem lastSpecialTag_congr {next : Engine lib} (same : next.records = engine.records) :
    next.lastSpecialTag = engine.lastSpecialTag := by
  rw [lastSpecialTag, lastSpecialTag, same]

/-- A record can always be made, and only its random octets are not given. -/
theorem run_makeRecord (engine : Engine lib) (key : EncryptionKey) (lastSeen : ChainBlockId) (opId : Octets)
    (body : RecordBody) (headers : List Octets) : ∃ drawn signer iv operation,
      let block := createRecord lib ⟨key, lastSeen, signer, iv, operation, engine.lastSpecialTag⟩ body headers
      (makeRecord key lastSeen opId body headers).run engine =
        .ok block { engine with drawn, created := engine.created ++ [block] } := by
  by_cases fresh : opId = []
  · subst fresh
    exact ⟨_, _, _, _, rfl⟩
  have operation (state : Engine lib) : (operationId opId).run state = .ok opId state := by
    unfold operationId
    rw [if_neg fresh, Effect.run_pure]
  unfold makeRecord
  simp only [Effect.run_bind, operation]
  exact ⟨_, _, _, _, rfl⟩

theorem makeRecord_parsed (law : lib.RoundTrips) {key : EncryptionKey} {lastSeen : ChainBlockId} {opId : Octets}
    {headers : List Octets} (done : (makeRecord key lastSeen opId body headers).run engine = .ok block reached) :
    ∃ record, lib.deserialise block.record = some record ∧ record.base.lastSeenBlock = lastSeen ∧
      record.base.lastSeenSpecialTag = engine.lastSpecialTag ∧ record.body = body := by
  obtain ⟨drawn, signer, iv, operation, ran⟩ := run_makeRecord engine key lastSeen opId body headers
  rw [ran] at done
  cases done
  exact ⟨_, law _, rfl, rfl, rfl⟩

/-- A rebuilt record is the old one on the head. -/
theorem updatePendingCommit_rebuilt (law : lib.RoundTrips) {rebuilt : lib.Block}
    (done : (updatePendingCommit block hasConflicts).run engine = .ok (some rebuilt) reached) :
    ∃ record content, lib.deserialise block.record = some record ∧
      lib.deserialise rebuilt.record = some content ∧ engine.Rebuilt record content := by
  obtain ⟨record, middle, parses, rest⟩ := Effect.run_bind_ok done
  obtain ⟨parsed, rfl⟩ := deserialiseRecord_ok parses
  rw [Effect.run_bind, Effect.run_get] at rest
  dsimp only at rest
  split at rest
  · cases rest
  split at rest
  · cases rest
  split at rest
  · cases rest
  obtain ⟨body, before, computed, making⟩ := Effect.run_bind_ok rest
  obtain ⟨made, after, makes, last⟩ := Effect.run_bind_ok making
  cases last
  have calm := ((drafting_ofExcept _).reaches computed).calm
  obtain ⟨content, contentParsed, lastSeen, special, same⟩ := makeRecord_parsed law makes
  refine ⟨record, content, parsed, contentParsed, lastSeen, ?_, ?_⟩
  · rw [special, lastSpecialTag_congr calm.records]
  cases rebased : middle.rebasedBody record.body with
  | error err =>
    rw [rebased] at computed
    cases computed
  | ok result =>
    rw [rebased] at computed
    cases computed
    rw [same]

/-- A record that is not rebuilt is on the head already. -/
theorem updatePendingCommit_none (done : (updatePendingCommit block hasConflicts).run engine = .ok none reached) :
    ∃ record, lib.deserialise block.record = some record ∧ record.base.lastSeenBlock = engine.records.lastBlock ∧
      record.base.lastSeenSpecialTag = engine.lastSpecialTag ∧ hasConflicts = false := by
  obtain ⟨record, middle, parses, rest⟩ := Effect.run_bind_ok done
  obtain ⟨parsed, rfl⟩ := deserialiseRecord_ok parses
  rw [Effect.run_bind, Effect.run_get] at rest
  dsimp only at rest
  split at rest
  · rename_i onHead
    simp only [Bool.and_eq_true, decide_eq_true_eq, Bool.not_eq_true'] at onHead
    exact ⟨record, parsed, onHead.1.1, onHead.1.2, onHead.2⟩
  · split at rest
    · cases rest
    split at rest
    · cases rest
    · obtain ⟨body, before, _, making⟩ := Effect.run_bind_ok rest
      obtain ⟨made, after, _, last⟩ := Effect.run_bind_ok making
      cases last

/-- A record on the head needs no rebase. -/
theorem pendingNeedsRebase_of_onHead (lastSeen : record.base.lastSeenBlock = engine.records.lastBlock)
    (special : record.base.lastSeenSpecialTag = engine.lastSpecialTag) : engine.pendingNeedsRebase record = false := by
  have adds : ¬ engine.records.lastBlock.sequence < engine.records.lastDataAddSequence := by
    rw [lastDataAddSequence_eq]
    exact Nat.not_lt.mpr (newest_le_lastBlock _ _)
  unfold pendingNeedsRebase needsRebase RebaseState.specialBehind
  rw [lastSeen, special]
  simp [adds]
  split <;> simp

theorem rebaseChange_idem (engine : Engine lib) (change : PlainSingleChangeData) :
    engine.rebaseChange (engine.rebaseChange change) = engine.rebaseChange change := by
  cases found : engine.conflictOf change with
  | none => simp [rebaseChange, found]
  | some current =>
    have again : engine.conflictOf { change with previousOidRecordTag := current.tag } = none := by
      unfold conflictOf at found ⊢
      split at found
      · cases found
      split
      · rfl
      cases newest : engine.records.findLastObject change.id with
      | none => simp [newest] at found
      | some row =>
        simp only [newest] at found ⊢
        split at found
        · cases found
          simp
        · cases found
    have once : engine.rebaseChange change = { change with previousOidRecordTag := current.tag } := by
      simp [rebaseChange, found]
    rw [once, rebaseChange, again]

/-- A second rebuild leaves the content. -/
theorem rebasedBody_idem {rebased : RecordBody} (done : engine.rebasedBody body = .ok rebased) :
    engine.rebasedBody rebased = .ok rebased := by
  cases body with
  | dataChange changes =>
    cases done
    simp [rebasedBody, rebaseChange_idem]
  | userChange data =>
    cases done
    rfl
  | segment data =>
    cases made : engine.makeSegmentData engine.records.lastBlock with
    | error err => simp [rebasedBody, made, Except.map] at done
    | ok plain =>
      simp only [rebasedBody, made, Except.map, Except.ok.injEq] at done
      subst done
      simp [rebasedBody, made, Except.map]

/-- The record is sent as it is or on the head, or it is dropped. -/
inductive Rebased (engine : Engine lib) (row : Row lib) (record : Record) : Bool → Engine lib → Prop
  | ready (ready : engine.Ready record) : Rebased engine row record true engine
  | rebuilt {middle : Engine lib} {records : RecordStorage lib} {block : lib.Block} {content : Record}
      (unready : ¬ engine.Ready record) (drafts : engine.Drafts middle)
      (parsed : lib.deserialise block.record = some content) (form : engine.Rebuilt record content)
      (replaces : Replaces engine.records records row (row.withBlock block)) :
      Rebased engine row record true { middle with records }
  | dropped {middle : Engine lib} {records : RecordStorage lib} (drafts : engine.Drafts middle)
      (replaces : Replaces engine.records records row { row with state := .invalid }) :
      Rebased engine row record false { middle with records }

/-- A record is ready, or is rebuilt, or is dropped. -/
theorem rebaseIfNeeded_rebased (law : lib.RoundTrips) {row : Row lib} (pending : engine.Pending row)
    (parsed : lib.deserialise row.block.record = some record) :
    ∃ usable reached, (rebaseIfNeeded row record !(engine.findOidConflicts record).isEmpty).run engine =
      .ok usable reached ∧ engine.Rebased row record usable reached := by
  generalize conflicting : (!(engine.findOidConflicts record).isEmpty) = hasConflicts
  have ready_iff : engine.Ready record ↔ (hasConflicts || engine.pendingNeedsRebase record) = false := by
    rw [Bool.or_eq_false_iff, ← conflicting, Bool.not_eq_false', List.isEmpty_iff]
    exact ⟨fun ready => ⟨ready.unconflicted, ready.current⟩, fun both => ⟨both.1, both.2⟩⟩
  obtain ⟨usable, reached, ran, rebase⟩ := rebaseIfNeeded_rebase pending record hasConflicts
  refine ⟨usable, reached, ran, ?_⟩
  cases rebase with
  | current current => exact .ready (ready_iff.mpr current)
  | dropped drafts replaces => exact .dropped drafts replaces
  | onHead behind updated =>
    obtain ⟨again, parsedAgain, lastSeen, special, free⟩ := updatePendingCommit_none updated
    obtain rfl : record = again := Option.some.inj (parsed.symm.trans parsedAgain)
    rw [free, pendingNeedsRebase_of_onHead lastSeen special] at behind
    cases behind
  | rebuilt behind updated drafts replaces =>
    have unready : ¬ engine.Ready record := by
      rw [ready_iff, behind]
      decide
    obtain ⟨again, content, parsedAgain, contentParsed, form⟩ := updatePendingCommit_rebuilt law updated
    obtain rfl : record = again := Option.some.inj (parsed.symm.trans parsedAgain)
    exact .rebuilt unready drafts contentParsed form replaces

/-- The current row is the pending one of the start, as it was or rebuilt because it was not ready. -/
structure Stems (start : Engine lib) (row current : Row lib) (record : Record) : Prop where
  pending : start.Pending row
  key : current.key = row.key
  parsed : lib.deserialise row.block.record = some record
  form : current.block = row.block ∨
    (¬ start.Ready record ∧ ∃ content, lib.deserialise current.block.record = some content ∧
      start.Rebuilt record content)

/-- The current row is the form in which the pending one of the start is sent. -/
structure SentAs (start : Engine lib) (row current : Row lib) (record : Record) : Prop
    extends Stems start row current record where
  decided : start.Ready record → current.block = row.block
  rebuilt : ¬ start.Ready record → ∃ content, lib.deserialise current.block.record = some content ∧
    start.Rebuilt record content

/-- The pump has only changed pending records of the start, and sent none. -/
structure Pumped (start engine : Engine lib) : Prop where
  config : engine.config = start.config
  requests : engine.requests = start.requests
  inFlight : engine.inFlightCommits = start.inFlightCommits
  mirrors : engine.records.Mirrors start.records
  stems : ∀ row record, engine.Pending row → lib.deserialise row.block.record = some record →
    ∃ origin first, start.Stems origin row first

/-- The pump has sent the pending record of the start. -/
structure Pushed (start final : Engine lib) (row current : Row lib) (handle : Nat) : Prop where
  stored : current ∈ final.records.rows
  key : current.key = row.key
  asked : final.requests = start.requests ++ [(handle, .commit current.block)]
  noted : final.inFlightCommits = start.inFlightCommits ++ [(handle, current.tag)]

theorem Pumped.refl (start : Engine lib) : start.Pumped start where
  config := rfl
  requests := rfl
  inFlight := rfl
  mirrors := .refl _
  stems row record pending parsed := ⟨row, record, pending, rfl, parsed, Or.inl rfl⟩

variable {start : Engine lib} {row : Row lib} {record : Record}

section

variable (pumped : start.Pumped engine) {origin : Row lib} {first : Record}

include pumped

theorem Pumped.ready_iff (record : Record) : engine.Ready record ↔ start.Ready record :=
  ready_view pumped.mirrors (congrArg EngineConfig.mode pumped.config) record

/-- A ready record is sent in the form that it has. -/
theorem Pumped.sentAs_of_ready (parsed : lib.deserialise row.block.record = some record) (ready : engine.Ready record)
    (stems : start.Stems origin row first) : start.SentAs origin row first := by
  obtain same | ⟨unready, rebuilt⟩ := stems.form
  · have parsedFirst := stems.parsed
    rw [← same, parsed] at parsedFirst
    obtain rfl := Option.some.inj parsedFirst
    exact ⟨stems, fun _ => same, fun unready => absurd ((pumped.ready_iff record).mp ready) unready⟩
  · exact ⟨stems, fun ready => absurd ready unready, fun _ => rebuilt⟩

/-- A record that is rebuilt, also for the second time, is the first one on the head. -/
theorem Pumped.sentAs_of_rebuilt {content : Record} (parsed : lib.deserialise row.block.record = some record)
    (unready : ¬ engine.Ready record) (contentParsed : lib.deserialise block.record = some content)
    (form : engine.Rebuilt record content) (stems : start.Stems origin row first) :
    start.SentAs origin (row.withBlock block) first := by
  have onStart := form.view pumped.mirrors
  have rebuilt : ¬ start.Ready first ∧ start.Rebuilt first content := by
    obtain same | ⟨unreadyFirst, again, parsedAgain, formFirst⟩ := stems.form
    · have parsedFirst := stems.parsed
      rw [← same, parsed] at parsedFirst
      obtain rfl := Option.some.inj parsedFirst
      exact ⟨fun ready => unready ((pumped.ready_iff record).mpr ready), onStart⟩
    · obtain rfl : record = again := Option.some.inj (parsed.symm.trans parsedAgain)
      have body := onStart.body
      rw [rebasedBody_idem formFirst.body] at body
      exact ⟨unreadyFirst, onStart.lastSeen, onStart.special, formFirst.body.trans body⟩
  exact ⟨⟨stems.pending, stems.key, stems.parsed, Or.inr ⟨rebuilt.1, content, contentParsed, rebuilt.2⟩⟩,
    fun ready => absurd ready rebuilt.1, fun _ => ⟨content, contentParsed, rebuilt.2⟩⟩

/-- A change of a pending row that still stems from the start. -/
theorem Pumped.replace (pending : engine.Pending row) {middle : Engine lib} {records : RecordStorage lib}
    {next : Row lib} (drafts : engine.Drafts middle) (replaces : Replaces engine.records records row next)
    (outside : next.state ≠ .inSync)
    (stems : next.state = .pendingCommit → ∃ origin first, start.Stems origin next first) :
    start.Pumped { middle with records } := by
  obtain ⟨drawn, made, rfl, _⟩ := drafts
  refine ⟨pumped.config, pumped.requests, pumped.inFlight, ?_, ?_⟩
  · exact (replaces.mirrors (by rw [pending.2]; decide) outside).trans pumped.mirrors
  intro other record otherPending parsed
  obtain ⟨before, _⟩ | rfl := replaces.mem_iff.mp otherPending.1
  · exact pumped.stems other record ⟨before, otherPending.2⟩ parsed
  · exact stems otherPending.2

/-- The pump goes on from a rebased record, and may send it. -/
theorem Pumped.rebased (pending : engine.Pending row) (parsed : lib.deserialise row.block.record = some record)
    {usable : Bool} (rebased : engine.Rebased row record usable reached) : start.Pumped reached ∧ (usable = true →
      ∃ origin first current, reached.records.findKey row.key = some current ∧ start.SentAs origin current first) := by
  obtain ⟨origin, first, stems⟩ := pumped.stems row record pending parsed
  cases rebased with
  | ready ready =>
    exact ⟨pumped, fun _ => ⟨origin, first, row, findKey_eq_some_iff.mpr ⟨pending.1, rfl⟩,
      pumped.sentAs_of_ready parsed ready stems⟩⟩
  | rebuilt unready drafts contentParsed form replaces =>
    have sent := pumped.sentAs_of_rebuilt parsed unready contentParsed form stems
    refine ⟨pumped.replace pending drafts replaces ?_ fun _ => ⟨origin, first, sent.toStems⟩, fun _ =>
      ⟨origin, first, _, findKey_eq_some_iff.mpr ⟨replaces.mem_iff.mpr (Or.inr rfl), rfl⟩, sent⟩⟩
    rw [Row.withBlock, pending.2]
    decide
  | dropped drafts replaces =>
    refine ⟨pumped.replace pending drafts replaces ?_ ?_, ?_⟩
    · intro inSync
      cases inSync
    · intro waiting
      cases waiting
    · intro usable
      cases usable

end

/-- The pump sends at most one record, in the form that the start gives it. -/
theorem pushed_commitPendingFrom (law : lib.RoundTrips) (policy : start.config.conflicts = .rebaseOnTop) (fuel : Nat)
    (first : Option (Row lib)) (engine : Engine lib) (pumped : start.Pumped engine)
    (pending : ∀ row, first = some row → engine.Pending row) :
    start.Pumped ((commitPendingFrom fuel first).final engine) ∨ ∃ row current record handle,
      start.SentAs row current record ∧ start.Pushed ((commitPendingFrom fuel first).final engine) row current handle := by
  induction fuel generalizing first engine with
  | zero => exact Or.inl pumped
  | succ fuel ih =>
    cases first with
    | none => exact Or.inl pumped
    | some row =>
      have rowPending := pending row rfl
      unfold commitPendingFrom
      cases parses : lib.deserialise row.block.record with
      | none =>
        have failed : (deserialiseRecord row.block).run engine = .error ⟨.invalidData, ""⟩ engine := by
          unfold deserialiseRecord
          rw [parses]
          rfl
        rw [Effect.final_bind_error failed]
        exact Or.inl pumped
      | some record =>
        have done : (deserialiseRecord row.block).run engine = .ok record engine := by
          unfold deserialiseRecord
          rw [parses]
          rfl
        rw [Effect.final_bind_ok done, Effect.final_bind_ok (Effect.run_get engine),
          Effect.final_bind_ok (Effect.run_get engine)]
        have lastWriter : ¬ engine.config.conflicts = .ask := by
          rw [pumped.config, policy]
          decide
        rw [if_neg (by simp [lastWriter])]
        obtain ⟨usable, reached, ran, rebased⟩ := rebaseIfNeeded_rebased law rowPending parses
        obtain ⟨on, send⟩ := pumped.rebased rowPending parses rebased
        rw [Effect.final_bind_ok ran]
        cases usable with
        | false =>
          rw [if_pos (by decide), Effect.final_bind_ok (Effect.run_get reached)]
          exact ih _ reached on fun _ => pending_of_findFirst
        | true =>
          obtain ⟨origin, first, current, found, sent⟩ := send rfl
          rw [if_neg (by decide), Effect.final_bind_ok (Effect.run_get reached)]
          dsimp only
          rw [found, Option.getD_some]
          split
          · exact ih _ reached on fun _ => pending_of_findNext
          obtain same | ⟨records, requests, inFlight⟩ := commitRecord_pushed reached current
          · rw [same]
            exact Or.inl on
          refine Or.inr ⟨origin, current, first, reached.callId + 1, sent, ?_⟩
          refine ⟨?_, sent.key, by rw [requests, on.requests], by rw [inFlight, on.inFlight]⟩
          rw [records]
          exact (findKey_eq_some_iff.mp found).1

/-- Whatever the commit pump sends has the form that the engine gives it before. -/
theorem sentAs_of_pushed (law : lib.RoundTrips) (policy : engine.config.conflicts = .rebaseOnTop) {current : Row lib}
    {handle : Nat} (inside : row ∈ engine.records.rows)
    (pushed : engine.Pushed (tryCommitPending.final engine) row current handle) :
    ∃ record, engine.SentAs row current record := by
  have either : engine.Pumped (tryCommitPending.final engine) ∨ ∃ row current record handle,
      engine.SentAs row current record ∧ engine.Pushed (tryCommitPending.final engine) row current handle := by
    unfold tryCommitPending
    rw [Effect.final_bind_ok (Effect.run_get engine)]
    split
    · exact pushed_commitPendingFrom law policy _ _ engine (.refl engine) fun _ => pending_of_findFirst
    · exact Or.inl (.refl engine)
  obtain pumped | ⟨other, stored, record, again, sent, pushedAgain⟩ := either
  · have noted := pushed.noted
    rw [pumped.inFlight] at noted
    exact absurd noted (by simp)
  · -- The commit in flight tells which row was sent.
    have noted := pushed.noted
    rw [pushedAgain.noted] at noted
    have tag : stored.tag = current.tag := by simpa using congrArg (fun flight => flight.map Prod.snd) noted
    obtain rfl := row_eq_of_tag pushedAgain.stored pushed.stored tag
    obtain rfl := row_eq_of_key sent.pending.1 inside (pushedAgain.key.symm.trans pushed.key)
    exact ⟨record, sent⟩

end Engine

end SpSync
