import SpSync.Foundation.Intervals
import SpSync.Proof.Server.SeenRules

namespace SpSync

open Foundation RecordStorage

variable {lib : Securepath}

/-- The plain data of the segment in the row. -/
def Row.segment (row : Row lib) : Option PlainSegmentData :=
  match (lib.deserialise row.block.record).map Record.body with
  | some (.segment data) => some data
  | _ => none

theorem Row.segment_eq {row : Row lib} {record : Record} (parsed : lib.deserialise row.block.record = some record) :
    row.segment = match record.body with
      | .segment data => some data
      | _ => none := by
  unfold segment
  rw [parsed, Option.map_some]
  cases record.body <;> rfl

/-- An accepted segment and its own sequence. -/
structure PlacedSegment where
  own : SequenceNumber
  data : PlainSegmentData
deriving DecidableEq, Repr

def PlacedSegment.start (segment : PlacedSegment) : SequenceNumber :=
  segment.data.segmentStart

def PlacedSegment.stop (segment : PlacedSegment) : SequenceNumber :=
  segment.data.segmentEnd

def Row.placedSegment (row : Row lib) : Option PlacedSegment :=
  row.segment.map (PlacedSegment.mk row.sequence)

namespace ChainLog

variable {row : Row lib} {records : RecordStorage lib} {first last : SequenceNumber}

/-- The accepted segments in log order. -/
def segments (log : ChainLog lib) : List PlacedSegment :=
  log.records.rows.filterMap Row.placedSegment

/-- The end that the newest segment states. -/
def newestEnd (log : ChainLog lib) : SequenceNumber :=
  Intervals.finish PlacedSegment.stop 1 log.segments

/-- The segments begin at one and each at the end of the one before, none is empty or reaches beyond
itself, and each lists the records of its range; so every record below the newest end is listed once. -/
structure Partitioned (log : ChainLog lib) : Prop where
  consecutive : Intervals.Consecutive PlacedSegment.start PlacedSegment.stop 1 log.segments
  proper : ∀ segment ∈ log.segments, segment.start < segment.stop
  within : ∀ segment ∈ log.segments, segment.stop ≤ segment.own
  tags : ∀ segment ∈ log.segments,
    segment.data.tags = log.records.tagsInRange segment.start (segment.stop - 1)
  listed : ∀ row ∈ log.records.rows, row.sequence < log.newestEnd →
    log.segments.countP (fun segment => row.tag ∈ segment.data.tags) = 1

/-- The newest segment row states the newest end. -/
def Backbone (log : ChainLog lib) : Prop :=
  match log.records.findLastOfType .segment with
  | none => log.segments = []
  | some row => ∃ data, row.segment = some data ∧ log.newestEnd = data.segmentEnd

/-- The range of every segment is below the segment and lists its records. -/
structure Covered (log : ChainLog lib) : Prop where
  linked : log.Linked
  consecutive : Intervals.Consecutive PlacedSegment.start PlacedSegment.stop 1 log.segments
  proper : ∀ segment ∈ log.segments, segment.start < segment.stop
  within : ∀ segment ∈ log.segments, segment.stop ≤ segment.own
  placed : ∀ segment ∈ log.segments, segment.own ≤ log.head.sequence
  tags : ∀ segment ∈ log.segments,
    segment.data.tags = log.records.tagsInRange segment.start (segment.stop - 1)
  backbone : log.Backbone

theorem covered_empty (lib : Securepath) : Covered (load (.empty lib)) where
  linked := linked_empty lib
  consecutive := trivial
  proper := by simp [segments, load, RecordStorage.empty]
  within := by simp [segments, load, RecordStorage.empty]
  placed := by simp [segments, load, RecordStorage.empty]
  tags := by simp [segments, load, RecordStorage.empty]
  backbone := rfl

theorem mem_tagsInRange {tag : RecordTag} :
    tag ∈ records.tagsInRange first last ↔ ∃ row ∈ records.rows, row.state = .inSync ∧ first ≤ row.sequence ∧
      row.sequence ≤ last ∧ row.tag = tag := by
  unfold tagsInRange bySequence
  rw [List.mem_map]
  constructor
  · intro found
    obtain ⟨row, inside, rfl⟩ := found
    rw [List.mem_insertionSort, List.mem_filter] at inside
    simp only [Bool.and_eq_true, decide_eq_true_eq] at inside
    exact ⟨row, inside.1, inside.2.1.1, inside.2.1.2, inside.2.2, rfl⟩
  · intro found
    obtain ⟨row, inside, inSync, low, high, rfl⟩ := found
    refine ⟨row, ?_, rfl⟩
    rw [List.mem_insertionSort, List.mem_filter]
    exact ⟨inside, by simp [inSync, low, high]⟩

/-- A row above the range does not change the tags in it. -/
theorem tagsInRange_append {grown : RecordStorage lib} (rows : grown.rows = records.rows ++ [row])
    (above : last < row.sequence) : grown.tagsInRange first last = records.tagsInRange first last := by
  unfold tagsInRange
  rw [rows, List.filter_append]
  have outside : ¬ row.sequence ≤ last := Nat.not_le.mpr above
  simp [outside]

namespace Covered

variable {log : ChainLog lib} (covered : log.Covered)
include covered

/-- A segment lists a record exactly when the record is in its range. -/
theorem mem_tags_iff {segment : PlacedSegment} (segmentIn : segment ∈ log.segments) (inside : row ∈ log.records.rows) :
    row.tag ∈ segment.data.tags ↔ segment.start ≤ row.sequence ∧ row.sequence < segment.stop := by
  rw [covered.tags segment segmentIn, mem_tagsInRange]
  have proper := covered.proper segment segmentIn
  constructor
  · intro found
    obtain ⟨other, otherIn, _, low, high, same⟩ := found
    rw [row_eq_of_tag inside otherIn same.symm]
    exact ⟨low, Nat.lt_of_le_pred (Nat.zero_lt_of_lt proper) high⟩
  · intro range
    exact ⟨row, inside, covered.linked.inSync row inside, range.1, Nat.le_pred_of_lt range.2, rfl⟩

theorem partitioned : log.Partitioned where
  consecutive := covered.consecutive
  proper := covered.proper
  within := covered.within
  tags := covered.tags
  listed := by
    intro row inside below
    have once := covered.consecutive.countP_eq covered.proper row.sequence
    rw [if_pos ⟨(covered.linked.bounds inside).1, below⟩] at once
    rw [← once]
    apply List.countP_congr
    intro segment segmentIn
    simp only [decide_eq_true_eq, Bool.and_eq_true]
    exact covered.mem_tags_iff segmentIn inside

end Covered

section Extend

variable {log grown : ChainLog lib} (covered : log.Covered) (linked : grown.Linked)
  (rows : grown.records.rows = log.records.rows ++ [row]) (above : row.sequence = log.head.sequence + 1)
  (top : grown.head.sequence = log.head.sequence + 1)
include covered linked rows above

theorem Covered.newest_eq (condition : ChainEntry lib → Bool) : grown.records.newest condition =
    if condition row.entry = true then some row else log.records.newest condition :=
  newest_append rows (linked.inSync row (by simp [rows])) (fun other otherIn _ => by
    rw [above]
    exact Nat.le_succ_of_le (covered.linked.bounds otherIn).2) condition

include top

/-- Segments that continue the others and list the records of their ranges keep the cover. -/
theorem Covered.extend {more : List PlacedSegment} (segments : grown.segments = log.segments ++ more)
    (consecutive : Intervals.Consecutive PlacedSegment.start PlacedSegment.stop 1 (log.segments ++ more))
    (new : ∀ segment ∈ more, segment.start < segment.stop ∧ segment.stop ≤ segment.own ∧ segment.own = row.sequence ∧
      segment.data.tags = log.records.tagsInRange segment.start (segment.stop - 1))
    (backbone : grown.Backbone) : grown.Covered := by
  have each : ∀ segment ∈ grown.segments, segment.start < segment.stop ∧ segment.stop ≤ segment.own ∧
      segment.own ≤ row.sequence ∧ segment.data.tags = log.records.tagsInRange segment.start (segment.stop - 1) := by
    intro segment inside
    rw [segments, List.mem_append] at inside
    obtain old | added := inside
    · refine ⟨covered.proper segment old, covered.within segment old, ?_, covered.tags segment old⟩
      rw [above]
      exact Nat.le_succ_of_le (covered.placed segment old)
    · obtain ⟨proper, within, own, tags⟩ := new segment added
      exact ⟨proper, within, Nat.le_of_eq own, tags⟩
  refine ⟨linked, segments ▸ consecutive, fun segment inside => (each segment inside).1,
    fun segment inside => (each segment inside).2.1, fun segment inside => ?_, fun segment inside => ?_, backbone⟩
  · rw [top, ← above]
    exact (each segment inside).2.2.1
  · obtain ⟨proper, within, placed, tags⟩ := each segment inside
    rw [tags, tagsInRange_append rows]
    exact Nat.lt_of_lt_of_le (Nat.pred_lt (Nat.ne_zero_of_lt proper)) (within.trans placed)

/-- A record that is no segment keeps the cover. -/
theorem Covered.extend_other (plain : row.segment = none) (kind : row.entry.type ≠ .segment) : grown.Covered := by
  have same : grown.segments = log.segments ++ [] := by
    simp [segments, rows, Row.placedSegment, plain]
  refine covered.extend linked rows above top same ?_ (by simp) ?_
  · rw [List.append_nil]
    exact covered.consecutive
  · have backbone := covered.backbone
    unfold Backbone newestEnd at backbone ⊢
    rw [findLastOfType_eq] at backbone ⊢
    rw [covered.newest_eq linked rows above, if_neg fun holds => kind (of_decide_eq_true holds), same, List.append_nil]
    exact backbone

/-- A segment from the newest end on, with the tags of its range, keeps the cover. -/
theorem Covered.extend_segment {data : PlainSegmentData} (content : row.segment = some data)
    (kind : row.entry.type = .segment) (next : data.segmentStart = log.newestEnd)
    (proper : data.segmentStart < data.segmentEnd) (within : data.segmentEnd ≤ log.head.sequence + 1)
    (tags : data.tags = log.records.tagsInRange data.segmentStart (data.segmentEnd - 1)) : grown.Covered := by
  have more : grown.segments = log.segments ++ [⟨row.sequence, data⟩] := by
    simp [segments, rows, Row.placedSegment, content]
  refine covered.extend linked rows above top more (covered.consecutive.append next) ?_ ?_
  · intro segment inside
    rw [List.mem_singleton.mp inside]
    exact ⟨proper, above ▸ within, rfl, tags⟩
  · unfold Backbone newestEnd
    rw [findLastOfType_eq, covered.newest_eq linked rows above, if_pos (decide_eq_true kind), more,
      Intervals.finish_append]
    exact ⟨data, content, rfl⟩

end Extend

end ChainLog

namespace ChainSync

variable {sync saved : ChainSync lib} {block placed : lib.Block} {data : PlainSegmentData} {base : RecordBase}
  {type : RecType} {sequence : SequenceNumber}

theorem checkRulesSegment_accepted (accepted : sync.checkRulesSegment base data = .ok ⟨none, type⟩) :
    data.segmentEnd = SequenceNumber.next base.lastSeenBlock.sequence ∧
      sync.checkSegmentBackbone data = .ok none ∧
      data.tags = sync.log.records.tagsInRange data.segmentStart (SequenceNumber.previous data.segmentEnd) := by
  unfold checkRulesSegment checkRulesSegmentCoverage at accepted
  split at accepted
  · cases accepted
  by_cases ends : data.segmentEnd = SequenceNumber.next base.lastSeenBlock.sequence
  · rw [if_neg (not_not.mpr ends)] at accepted
    cases backbone : sync.checkSegmentBackbone data with
    | error err => simp [backbone, bind, Except.bind] at accepted
    | ok verdict =>
      cases verdict with
      | some err => simp [backbone, bind, Except.bind, pure, Except.pure] at accepted
      | none =>
        refine ⟨ends, rfl, ?_⟩
        by_cases tags : data.tags =
            sync.log.records.tagsInRange data.segmentStart (SequenceNumber.previous data.segmentEnd)
        · exact tags
        · simp [backbone, tags, bind, Except.bind, pure, Except.pure] at accepted
  · simp [ends, bind, Except.bind, pure, Except.pure] at accepted

/-- A segment that continues the backbone starts at the newest end. -/
theorem start_of_backbone (covered : sync.log.Covered) (continues : sync.checkSegmentBackbone data = .ok none) :
    data.segmentStart = sync.log.newestEnd := by
  have backbone := covered.backbone
  unfold ChainLog.Backbone at backbone
  unfold checkSegmentBackbone at continues
  cases found : sync.log.records.findLastOfType .segment with
  | none =>
    simp only [found] at backbone continues
    rw [ChainLog.newestEnd, backbone]
    by_cases start : data.segmentStart = 1
    · exact start
    · simp [start, bind, Except.bind, pure, Except.pure] at continues
  | some previous =>
    simp only [found] at backbone continues
    obtain ⟨earlier, content, newest⟩ := backbone
    rw [newest]
    unfold Row.segment at content
    split at content
    · rename_i stated parsed
      cases content
      by_cases start : data.segmentStart = earlier.segmentEnd
      · exact start
      · simp [parsed, start, bind, Except.bind, pure, Except.pure] at continues
    · cases content

/-- An accepted segment names a last seen block inside the log that is not below its start. -/
def SeenInside (sync : ChainSync lib) (block : lib.Block) : Prop :=
  ∀ type record data, sync.evaluate block = .ok ⟨none, type⟩ → lib.deserialise block.record = some record →
    record.body = .segment data →
    data.segmentStart ≤ record.base.lastSeenBlock.sequence ∧
      record.base.lastSeenBlock.sequence ≤ sync.log.head.sequence ∧
      record.base.lastSeenBlock.sequence + 1 < SequenceNumber.limit

theorem next_eq (bounded : sequence + 1 < SequenceNumber.limit) : SequenceNumber.next sequence = sequence + 1 :=
  Nat.mod_eq_of_lt bounded

theorem previous_next (bounded : sequence + 1 < SequenceNumber.limit) :
    SequenceNumber.previous (SequenceNumber.next sequence) = SequenceNumber.next sequence - 1 := by
  rw [next_eq bounded, SequenceNumber.previous]
  unfold SequenceNumber.limit at bounded ⊢
  have wraps : sequence + 1 + (18446744073709551616 - 1) = sequence + 18446744073709551616 := Nat.add_assoc _ _ _
  rw [wraps, Nat.add_mod_right, Nat.mod_eq_of_lt (Nat.lt_of_succ_lt bounded)]
  rfl

/-- An accepted block that has seen the log keeps the cover. -/
theorem covered_setAndSaveBlock (covered : sync.log.Covered) (seen : sync.SeenInside block)
    (accepted : sync.evaluate block = .ok ⟨none, type⟩) (done : sync.setAndSaveBlock block type = .ok (saved, placed)) :
    saved.log.Covered := by
  have linked := linked_setAndSaveBlock covered.linked done
  obtain ⟨_, _, _, record, parsed, _, passed⟩ := evaluateWith_accepted accepted
  obtain ⟨place, ⟨again, parsedAgain, rows⟩, head, _, _⟩ := setAndSaveBlock_ok done
  obtain rfl : record = again := Option.some.inj (parsed.symm.trans parsedAgain)
  have content : lib.deserialise placed.record = some record := by
    rw [place]
    exact parsed
  have above : placed.sequence = sync.log.head.sequence + 1 := by
    rw [place]
    rfl
  have top : saved.log.head.sequence = sync.log.head.sequence + 1 := by
    rw [head]
    exact above
  have segment : (sync.log.records.newRow placed .inSync record).segment = _ := Row.segment_eq content
  cases body : record.body with
  | segment data =>
    rw [body] at segment
    obtain ⟨low, high, bounded⟩ := seen type record data accepted parsed body
    rw [checkRules, body] at passed
    obtain ⟨ends, continues, tags⟩ := checkRulesSegment_accepted passed
    rw [ends, previous_next bounded, ← ends] at tags
    rw [next_eq bounded] at ends
    refine covered.extend_segment linked rows above top segment ?_ (start_of_backbone covered continues) ?_ ?_ tags
    · exact congrArg RecordBody.type body
    · rw [ends]
      exact Nat.lt_succ_of_le low
    · rw [ends]
      exact Nat.succ_le_succ high
  | dataChange changes | userChange data =>
    rw [body] at segment
    refine covered.extend_other linked rows above top segment ?_
    simp [Row.entry, newRow, body, RecordBody.type]

theorem covered_commitStep (covered : sync.log.Covered) (seen : sync.SeenInside block) :
    (sync.commitStep block).log.Covered :=
  commitWith_keeps covered fun _ _ _ => covered_setAndSaveBlock covered seen

/-- In every mode the accepted segments partition the log, as long as every accepted segment names a
last seen block inside the log that is not below its start. -/
theorem partitioned_of_run {config : ChainSyncConfig} {keys : Option (List PublicKeyId)}
    (run : Runs commitStep SeenInside (load config keys (.empty lib)) sync) : sync.log.Partitioned := by
  have covered : sync.log.Covered := by
    induction run with
    | refl => exact ChainLog.covered_empty lib
    | tail _ step ih =>
      obtain ⟨block, seen, rfl⟩ := step
      exact covered_commitStep ih seen
  exact covered.partitioned

/-- A storage without seen rules that holds one user change. -/
def looseStorage : ChainSync .sample :=
  commitStep (load { mode := .allowAll } none (.empty .sample))
    ⟨(1, ⟨{}, .userChange ⟨⟨.delta, []⟩, []⟩, [[]]⟩), ⟨[1], none⟩, 1, []⟩

/-- The first segment, from the first record to the sequence that it names as seen. -/
def segmentUpTo (seen : SequenceNumber) : Securepath.sample.Block :=
  ⟨(1, ⟨{ lastSeenBlock := ⟨seen, [4]⟩ }, .segment ⟨1, seen + 1, [[1]], []⟩, [[]]⟩), ⟨[2], none⟩, 2, []⟩

theorem partitioned_of_run_first : (looseStorage.commitStep (segmentUpTo 1)).log.Partitioned ∧
    (looseStorage.commitStep (segmentUpTo 1)).log.segments.length = 1 := by
  refine ⟨partitioned_of_run (.tail (.tail (.refl _) ?_) ?_), by decide +kernel⟩
  · intro type record data _ parsed body
    cases parsed
    cases body
  · intro type record data _ parsed body
    cases parsed
    cases body
    decide

/-- A segment that names a block beyond the log reaches beyond itself. -/
theorem not_partitioned_beyond : ¬ (looseStorage.commitStep (segmentUpTo 5)).log.Partitioned := by
  intro partitioned
  have segments : (looseStorage.commitStep (segmentUpTo 5)).log.segments = [⟨2, ⟨1, 6, [[1]], []⟩⟩] := by
    decide +kernel
  have within := partitioned.within ⟨2, ⟨1, 6, [[1]], []⟩⟩ (by rw [segments]; exact List.mem_cons_self)
  exact absurd within (by decide)

end ChainSync

end SpSync
