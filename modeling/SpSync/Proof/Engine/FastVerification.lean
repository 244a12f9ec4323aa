import Mathlib.Data.List.ProdSigma
import SpSync.Foundation.Incidence
import SpSync.Foundation.Looping
import SpSync.Proof.Engine.HistoryScan

namespace SpSync.HistoryVerifier

open Foundation RecordStorage HistoryVerifyReport

variable {lib : Securepath}

/-- The segments that the previous tags name one after the other, each with its data, down to the start of the
chain or to the anchor. -/
inductive Backbone (records : RecordStorage lib) (anchor : Octets) :
    Row lib → List (Row lib × PlainSegmentData) → Option (Row lib) → Prop
  | anchor {row : Row lib} (trusted : isAnchor anchor row = true) : Backbone records anchor row [] (some row)
  | first {row : Row lib} {data : PlainSegmentData} (beyond : isAnchor anchor row = false)
      (parsed : segmentData row.block = .ok data) (ends : data.previousSegmentTag = []) :
      Backbone records anchor row [(row, data)] none
  | step {row older : Row lib} {data : PlainSegmentData} {listed : List (Row lib × PlainSegmentData)}
      {stop : Option (Row lib)} (beyond : isAnchor anchor row = false) (parsed : segmentData row.block = .ok data)
      (named : data.previousSegmentTag ≠ []) (found : records.findTag data.previousSegmentTag = some older)
      (rest : Backbone records anchor older listed stop) : Backbone records anchor row ((row, data) :: listed) stop

/-- The segments of a backbone with the anchor at its end. -/
def visited (listed : List (Row lib × PlainSegmentData)) (stop : Option (Row lib)) : List (Row lib) :=
  listed.map Prod.fst ++ stop.toList

/-- The data states a range that joins the expected one and lists its records. -/
structure Covers (records : RecordStorage lib) (expectedEnd : SequenceNumber) (data : PlainSegmentData) : Prop where
  proper : data.segmentStart < data.segmentEnd
  joined : expectedEnd = 0 ∨ data.segmentEnd = expectedEnd
  tags : data.tags = records.tagsInRange data.segmentStart (data.segmentEnd - 1)

/-- A walk along the backbone in which every check passes. -/
inductive Passes (records : RecordStorage lib) (keys : KeyStorage) (boundary : SequenceNumber) (anchor : Octets) :
    SequenceNumber → Row lib → List (Row lib × PlainSegmentData) → Option (Row lib) → Prop
  | anchor {expectedEnd : SequenceNumber} {row : Row lib} {data : PlainSegmentData}
      (parsed : segmentData row.block = .ok data) (checked : row.sequence < boundary → Authentic keys row)
      (trusted : isAnchor anchor row = true) : Passes records keys boundary anchor expectedEnd row [] (some row)
  | first {expectedEnd : SequenceNumber} {row : Row lib} {data : PlainSegmentData}
      (parsed : segmentData row.block = .ok data) (checked : row.sequence < boundary → Authentic keys row)
      (beyond : isAnchor anchor row = false) (covers : Covers records expectedEnd data)
      (ends : data.previousSegmentTag = []) (begins : data.segmentStart = 1) :
      Passes records keys boundary anchor expectedEnd row [(row, data)] none
  | step {expectedEnd : SequenceNumber} {row older : Row lib} {data : PlainSegmentData}
      {listed : List (Row lib × PlainSegmentData)} {stop : Option (Row lib)}
      (parsed : segmentData row.block = .ok data) (checked : row.sequence < boundary → Authentic keys row)
      (beyond : isAnchor anchor row = false) (covers : Covers records expectedEnd data)
      (named : data.previousSegmentTag ≠ []) (found : records.findTag data.previousSegmentTag = some older)
      (segment : older.type = .segment) (inSync : older.state = .inSync)
      (rest : Passes records keys boundary anchor data.segmentStart older listed stop) :
      Passes records keys boundary anchor expectedEnd row ((row, data) :: listed) stop

section Visit

variable {records : RecordStorage lib} {keys : KeyStorage} {boundary : SequenceNumber} {anchor : Octets}
  {row : Row lib} {walk next : BackboneWalk lib} {data : PlainSegmentData} {expectedEnd : SequenceNumber}
  {found : Option (Row lib)}

theorem checkSegmentCoverage_ok (covers : Covers records expectedEnd data) (report : HistoryVerifyReport) :
    checkSegmentCoverage records data expectedEnd report =
      .ok { report with coveredRecords := report.coveredRecords + data.tags.length } := by
  have joins : ¬ (expectedEnd ≠ 0 ∧ data.segmentEnd ≠ expectedEnd) := by
    have joined := covers.joined
    tauto
  unfold checkSegmentCoverage
  rw [if_neg (Nat.not_le.mpr covers.proper), if_neg joins, if_neg (not_not.mpr covers.tags)]

theorem of_checkSegmentCoverage {report counted : HistoryVerifyReport}
    (done : checkSegmentCoverage records data expectedEnd report = .ok counted) :
    Covers records expectedEnd data ∧
      counted = { report with coveredRecords := report.coveredRecords + data.tags.length } := by
  unfold checkSegmentCoverage at done
  split at done
  · cases done
  rename_i proper
  split at done
  · cases done
  rename_i joined
  split at done
  · cases done
  · rename_i tags
    cases done
    exact ⟨⟨Nat.not_le.mp proper, by tauto, not_not.mp tags⟩, rfl⟩

theorem nextBackboneSegment_ok {older : Row lib} (named : data.previousSegmentTag ≠ [])
    (found : records.findTag data.previousSegmentTag = some older) (segment : older.type = .segment)
    (inSync : older.state = .inSync) : nextBackboneSegment records data = .ok (some older) := by
  simp [nextBackboneSegment, named, found, segment, inSync]

theorem nextBackboneSegment_none (ends : data.previousSegmentTag = []) (begins : data.segmentStart = 1) :
    nextBackboneSegment records data = .ok none := by
  simp [nextBackboneSegment, ends, begins]

theorem of_nextBackboneSegment (done : nextBackboneSegment records data = .ok found) :
    (found = none ∧ data.previousSegmentTag = [] ∧ data.segmentStart = 1) ∨
    ∃ older, found = some older ∧ data.previousSegmentTag ≠ [] ∧
      records.findTag data.previousSegmentTag = some older ∧ older.type = .segment ∧ older.state = .inSync := by
  unfold nextBackboneSegment at done
  split at done
  · rename_i named
    split at done
    · rename_i older present
      split at done
      · rename_i valid
        cases done
        exact Or.inr ⟨older, rfl, named, present, valid⟩
      · cases done
    · cases done
  · rename_i ends
    split at done
    · cases done
    · rename_i begins
      cases done
      exact Or.inl ⟨rfl, not_not.mp ends, not_not.mp begins⟩

/-- How many records below the boundary a visit of the row verifies. -/
def below (boundary : SequenceNumber) (row : Row lib) : Nat :=
  if row.sequence < boundary then 1 else 0

theorem verifyBelow_ok (checked : row.sequence < boundary → Authentic keys row) (walk : BackboneWalk lib) :
    ∃ report, verifyBelow keys boundary row walk = .ok { walk with walked := walk.walked + below boundary row, report } ∧
      Adds (below boundary row) walk.report report := by
  unfold verifyBelow below
  split
  · rename_i lower
    obtain ⟨report, done⟩ := verifyStored_ok (checked lower) walk.report
    exact ⟨report, by rw [done], (of_verifyStored done).2⟩
  · exact ⟨walk.report, rfl, .none _⟩

theorem of_verifyBelow (done : verifyBelow keys boundary row walk = .ok next) :
    (row.sequence < boundary → Authentic keys row) ∧
      next = { walk with walked := walk.walked + below boundary row, report := next.report } ∧
      Adds (below boundary row) walk.report next.report := by
  unfold verifyBelow at done
  split at done
  · rename_i lower
    split at done
    · cases done
    rename_i report stored
    cases done
    obtain ⟨authentic, adds⟩ := of_verifyStored stored
    rw [below, if_pos lower]
    exact ⟨fun _ => authentic, rfl, adds⟩
  · rename_i higher
    cases done
    rw [below, if_neg higher]
    exact ⟨fun lower => absurd lower higher, rfl, .none _⟩

/-- What a visit that passes finds and counts. -/
structure Visit (records : RecordStorage lib) (keys : KeyStorage) (boundary : SequenceNumber) (anchor : Octets)
    (row : Row lib) (walk next : BackboneWalk lib) (data : PlainSegmentData) : Prop where
  parsed : segmentData row.block = .ok data
  checked : row.sequence < boundary → Authentic keys row
  walked : next.walked = walk.walked + below boundary row
  verified : next.report.verified = walk.report.verified + below boundary row
  goes : (isAnchor anchor row = true ∧ next.row = none ∧
      next.report.coveredRecords = walk.report.coveredRecords) ∨
    (isAnchor anchor row = false ∧ Covers records walk.expectedEnd data ∧
      nextBackboneSegment records data = .ok next.row ∧ next.expectedEnd = data.segmentStart ∧
      next.report.coveredRecords = walk.report.coveredRecords + data.tags.length)

theorem of_visitSegment (done : visitSegment records keys boundary anchor row walk = .ok next) :
    ∃ data, Visit records keys boundary anchor row walk next data := by
  unfold visitSegment at done
  split at done
  · cases done
  rename_i data parsed
  refine ⟨data, ?_⟩
  split at done
  · cases done
  rename_i counted stored
  obtain ⟨checked, same, adds⟩ := of_verifyBelow stored
  have expected : counted.expectedEnd = walk.expectedEnd := by rw [same]
  have walked : counted.walked = walk.walked + below boundary row := by rw [same]
  split at done
  · rename_i trusted
    cases done
    exact ⟨parsed, checked, walked, adds.verified, Or.inl ⟨trusted, rfl, adds.covered⟩⟩
  · rename_i beyond
    split at done
    · cases done
    rename_i report covered
    obtain ⟨covers, rfl⟩ := of_checkSegmentCoverage covered
    split at done
    · cases done
    rename_i found moved
    cases done
    rw [expected] at covers
    refine ⟨parsed, checked, walked, adds.verified,
      Or.inr ⟨by simpa using beyond, covers, moved, rfl, ?_⟩⟩
    exact congrArg (· + data.tags.length) adds.covered

theorem visitSegment_anchor (parsed : segmentData row.block = .ok data)
    (checked : row.sequence < boundary → Authentic keys row) (trusted : isAnchor anchor row = true)
    (walk : BackboneWalk lib) :
    ∃ next, visitSegment records keys boundary anchor row walk = .ok next ∧ next.row = none := by
  obtain ⟨report, stored, _⟩ := verifyBelow_ok checked walk
  have same : segmentData (committedBlock row) = .ok data := parsed
  unfold visitSegment
  simp only [same, stored, trusted, if_true]
  exact ⟨_, rfl, rfl⟩

theorem visitSegment_ok (parsed : segmentData row.block = .ok data)
    (checked : row.sequence < boundary → Authentic keys row) (beyond : isAnchor anchor row = false)
    (covers : Covers records walk.expectedEnd data) (moved : nextBackboneSegment records data = .ok found) :
    ∃ next, visitSegment records keys boundary anchor row walk = .ok next ∧ next.row = found ∧
      next.expectedEnd = data.segmentStart := by
  obtain ⟨report, stored, _⟩ := verifyBelow_ok checked walk
  have same : segmentData (committedBlock row) = .ok data := parsed
  unfold visitSegment
  simp only [same, stored, beyond, checkSegmentCoverage_ok covers, moved]
  exact ⟨_, rfl, rfl, rfl⟩

end Visit

section Walk

variable {records : RecordStorage lib} {keys : KeyStorage} {boundary : SequenceNumber} {anchor : Octets}
  {row : Row lib} {walk final : BackboneWalk lib} {fuel : Nat}

theorem walkBackbone_ended (ended : walk.row = none) (fuel : Nat) :
    walkBackbone records keys boundary anchor fuel walk = some (.ok walk) := by
  unfold walkBackbone
  simp only [ended]

theorem walkBackbone_zero (here : walk.row = some row) : walkBackbone records keys boundary anchor 0 walk = none := by
  unfold walkBackbone
  simp only [here]

theorem walkBackbone_error {err : Error} (here : walk.row = some row)
    (visit : visitSegment records keys boundary anchor row walk = .error err) (fuel : Nat) :
    walkBackbone records keys boundary anchor (fuel + 1) walk = some (.error err) := by
  rw [walkBackbone]
  simp only [here, visit]

theorem walkBackbone_next {next : BackboneWalk lib} (here : walk.row = some row)
    (visit : visitSegment records keys boundary anchor row walk = .ok next) (fuel : Nat) :
    walkBackbone records keys boundary anchor (fuel + 1) walk =
      walkBackbone records keys boundary anchor fuel next := by
  rw [walkBackbone]
  simp only [here, visit]

/-- How many records the visits of a backbone verify. -/
def walkedBelow (boundary : SequenceNumber) (listed : List (Row lib × PlainSegmentData)) (stop : Option (Row lib)) :
    Nat :=
  ((visited listed stop).map (below boundary)).sum

/-- How many tags the segments of a backbone list. -/
def listedTags (listed : List (Row lib × PlainSegmentData)) : Nat :=
  (listed.map fun entry => entry.2.tags.length).sum

/-- A walk that ends without an error passed every check, and counted what it visited. -/
theorem of_walkBackbone (here : walk.row = some row)
    (done : walkBackbone records keys boundary anchor fuel walk = some (.ok final)) :
    ∃ listed stop, Passes records keys boundary anchor walk.expectedEnd row listed stop ∧
      final.walked = walk.walked + walkedBelow boundary listed stop ∧
      final.report.verified = walk.report.verified + walkedBelow boundary listed stop ∧
      final.report.coveredRecords = walk.report.coveredRecords + listedTags listed := by
  induction fuel generalizing row walk with
  | zero =>
    rw [walkBackbone_zero here] at done
    cases done
  | succ fuel ih =>
    cases visit : visitSegment records keys boundary anchor row walk with
    | error err =>
      rw [walkBackbone_error here visit] at done
      cases done
    | ok next =>
      rw [walkBackbone_next here visit] at done
      obtain ⟨data, parsed, checked, walked, verified, goes⟩ := of_visitSegment visit
      obtain ⟨trusted, ended, covered⟩ | ⟨beyond, covers, moved, expected, covered⟩ := goes
      · rw [walkBackbone_ended ended] at done
        cases done
        refine ⟨[], some row, .anchor parsed checked trusted, ?_, ?_, covered⟩ <;>
          simpa [walkedBelow, visited]
      · obtain ⟨ended, ends, begins⟩ | ⟨older, found, named, present, segment, inSync⟩ :=
          of_nextBackboneSegment moved
        · rw [walkBackbone_ended ended] at done
          cases done
          refine ⟨[(row, data)], none, .first parsed checked beyond covers ends begins, ?_, ?_, ?_⟩ <;>
            simpa [walkedBelow, visited, listedTags]
        · obtain ⟨listed, stop, rest, laterWalked, laterVerified, laterCovered⟩ := ih found done
          rw [expected] at rest
          refine ⟨(row, data) :: listed, stop, .step parsed checked beyond covers named present segment inSync rest,
            ?_, ?_, ?_⟩
          · rw [laterWalked, walked, Nat.add_assoc]
            rfl
          · rw [laterVerified, verified, Nat.add_assoc]
            rfl
          · rw [laterCovered, covered, Nat.add_assoc]
            rfl

/-- A walk in which every check passes comes to its end. -/
theorem Passes.walk_ok {expectedEnd : SequenceNumber} {listed : List (Row lib × PlainSegmentData)}
    {stop : Option (Row lib)} (passes : Passes records keys boundary anchor expectedEnd row listed stop)
    (here : walk.row = some row) (expected : walk.expectedEnd = expectedEnd) :
    ∃ fuel final, walkBackbone records keys boundary anchor fuel walk = some (.ok final) := by
  induction passes generalizing walk with
  | anchor parsed checked trusted =>
    obtain ⟨next, visit, ended⟩ := visitSegment_anchor parsed checked trusted walk
    exact ⟨1, next, by rw [walkBackbone_next here visit, walkBackbone_ended ended]⟩
  | first parsed checked beyond covers ends begins =>
    rw [← expected] at covers
    obtain ⟨next, visit, ended, _⟩ :=
      visitSegment_ok parsed checked beyond covers (nextBackboneSegment_none ends begins)
    exact ⟨1, next, by rw [walkBackbone_next here visit, walkBackbone_ended ended]⟩
  | step parsed checked beyond covers named found segment inSync _ ih =>
    rw [← expected] at covers
    obtain ⟨next, visit, there, follows⟩ :=
      visitSegment_ok parsed checked beyond covers (nextBackboneSegment_ok named found segment inSync)
    obtain ⟨fuel, final, done⟩ := ih there follows
    exact ⟨fuel + 1, final, by rw [walkBackbone_next here visit, done]⟩

end Walk

section Termination

variable {records : RecordStorage lib} {keys : KeyStorage} {boundary : SequenceNumber} {anchor : Octets}
  {row : Row lib} {walk : BackboneWalk lib} {state next : Row lib × SequenceNumber}

/-- The walk goes from one segment, with the end that it should have, to the next. -/
def Moves (records : RecordStorage lib) (keys : KeyStorage) (boundary : SequenceNumber) (anchor : Octets)
    (state next : Row lib × SequenceNumber) : Prop :=
  ∃ data, segmentData state.1.block = .ok data ∧ (state.1.sequence < boundary → Authentic keys state.1) ∧
    isAnchor anchor state.1 = false ∧ Covers records state.2 data ∧
    nextBackboneSegment records data = .ok (some next.1) ∧ next.2 = data.segmentStart

theorem walkBackbone_eq_none_iff (here : walk.row = some row) (fuel : Nat) :
    walkBackbone records keys boundary anchor fuel walk = none ↔
      Looping.HasPath (Moves records keys boundary anchor) fuel (row, walk.expectedEnd) := by
  induction fuel generalizing row walk with
  | zero => simp [walkBackbone_zero here, Looping.HasPath]
  | succ fuel ih =>
    constructor
    · intro endless
      cases visit : visitSegment records keys boundary anchor row walk with
      | error err =>
        rw [walkBackbone_error here visit] at endless
        cases endless
      | ok next =>
        rw [walkBackbone_next here visit] at endless
        cases there : next.row with
        | none =>
          rw [walkBackbone_ended there] at endless
          cases endless
        | some older =>
          obtain ⟨data, parsed, checked, _, _, goes⟩ := of_visitSegment visit
          obtain ⟨_, ended, _⟩ | ⟨beyond, covers, moved, expected, _⟩ := goes
          · rw [there] at ended
            cases ended
          · rw [there] at moved
            exact ⟨(older, next.expectedEnd), ⟨data, parsed, checked, beyond, covers, moved, expected⟩,
              (ih there).mp endless⟩
    · rintro ⟨⟨older, start⟩, ⟨data, parsed, checked, beyond, covers, moved, same⟩, path⟩
      obtain ⟨next, visit, there, expected⟩ := visitSegment_ok parsed checked beyond covers moved
      rw [walkBackbone_next here visit, ih there, expected, ← same]
      exact path

/-- The start that the segment in the row states. -/
def statedStart (row : Row lib) : SequenceNumber :=
  (segmentData row.block).toOption.elim 0 PlainSegmentData.segmentStart

/-- The walk comes to an end exactly where no segment leads back to itself. -/
theorem walkBackbone_ends_iff (here : walk.row = some row) :
    (∃ fuel result, walkBackbone records keys boundary anchor fuel walk = some result) ↔
      ¬ Looping.Loops (Moves records keys boundary anchor) (row, walk.expectedEnd) := by
  have rows : ∃ states : List (Row lib × SequenceNumber), (row, walk.expectedEnd) ∈ states ∧
      ∀ state ∈ states, ∀ next, Moves records keys boundary anchor state next → next ∈ states := by
    refine ⟨(row :: records.rows).product (walk.expectedEnd :: (row :: records.rows).map statedStart),
      List.pair_mem_product.mpr (by simp), ?_⟩
    rintro ⟨current, expected⟩ inside ⟨older, start⟩ ⟨data, parsed, _, _, _, moved, rfl⟩
    obtain ⟨ended, _⟩ | ⟨found, same, _, present, _⟩ := of_nextBackboneSegment moved
    · cases ended
    cases same
    rw [List.pair_mem_product] at inside ⊢
    refine ⟨List.mem_cons_of_mem _ (findTag_eq_some_iff.mp present).1, List.mem_cons_of_mem _ ?_⟩
    exact List.mem_map.mpr ⟨current, inside.1, by simp [statedStart, parsed, Except.toOption]⟩
  obtain ⟨states, initial, closed⟩ := rows
  rw [← Looping.hasPath_iff_loops initial closed, not_forall]
  refine exists_congr fun fuel => ?_
  rw [← walkBackbone_eq_none_iff here, ← ne_eq, Option.ne_none_iff_exists']

/-- No segment in sync begins at zero and names another one. -/
def Founded (records : RecordStorage lib) : Prop :=
  ∀ row ∈ records.synced, ∀ data, segmentData row.block = .ok data → data.segmentStart = 0 → data.previousSegmentTag = []

theorem Moves.target (moves : Moves records keys boundary anchor state next) : next.1 ∈ records.synced := by
  obtain ⟨data, _, _, _, _, moved, _⟩ := moves
  obtain ⟨ended, _⟩ | ⟨older, same, _, present, _, inSync⟩ := of_nextBackboneSegment moved
  · cases ended
  · cases same
    exact mem_synced.mpr ⟨(findTag_eq_some_iff.mp present).1, inSync⟩

/-- From a segment in sync on, the ends that the segments should have become smaller. -/
theorem Founded.descends (founded : Founded records) (inside : state.1 ∈ records.synced)
    (path : Relation.TransGen (Moves records keys boundary anchor) state next) :
    next.2 ≠ 0 ∧ (state.2 ≠ 0 → next.2 < state.2) := by
  have step {state next : Row lib × SequenceNumber} (inside : state.1 ∈ records.synced)
      (moves : Moves records keys boundary anchor state next) : next.2 ≠ 0 ∧ (state.2 ≠ 0 → next.2 < state.2) := by
    obtain ⟨data, parsed, _, _, covers, moved, start⟩ := moves
    obtain ⟨ended, _⟩ | ⟨_, _, named, _⟩ := of_nextBackboneSegment moved
    · cases ended
    rw [start]
    refine ⟨fun zero => named (founded _ inside data parsed zero), fun expected => ?_⟩
    rw [← covers.joined.resolve_left expected]
    exact covers.proper
  induction path with
  | single moves => exact step inside moves
  | tail before moves ih =>
    obtain ⟨_, _, last⟩ := Relation.TransGen.tail'_iff.mp before
    obtain ⟨positive, less⟩ := step last.target moves
    exact ⟨positive, fun expected => (less ih.1).trans (ih.2 expected)⟩

theorem Founded.not_loops (founded : Founded records) (state : Row lib × SequenceNumber) :
    ¬ Looping.Loops (Moves records keys boundary anchor) state := by
  rintro ⟨again, _, cycle⟩
  obtain ⟨_, _, last⟩ := Relation.TransGen.tail'_iff.mp cycle
  obtain ⟨positive, less⟩ := founded.descends last.target cycle
  exact Nat.lt_irrefl _ (less positive)

end Termination

/-- The range of the retained records below a trusted anchor. -/
def retainedSpans (records : RecordStorage lib) (anchor : Octets) : List Span :=
  if anchor = [] then []
  else (records.findHash anchor .inSync).elim [] fun row => [(1, SequenceNumber.before row.sequence)]

/-- The ranges that a fast verification looks at: the retained records, the records from the boundary on, and
those that the segments list. -/
def spans (records : RecordStorage lib) (anchor : Octets) (boundary : SequenceNumber)
    (listed : List (Row lib × PlainSegmentData)) : List Span :=
  retainedSpans records anchor ++ (boundary, records.lastBlock.sequence) ::
    listed.map fun entry => (entry.2.segmentStart, entry.2.segmentEnd - 1)

/-- Every record in sync lies in exactly one of the ranges, and the segments below the boundary are no more than
the listed records. -/
def Seamless (records : RecordStorage lib) (anchor : Octets) : Prop :=
  ∀ newest data listed stop, records.findLastOfType .segment = some newest → isAnchor anchor newest = false →
    segmentData newest.block = .ok data → Backbone records anchor newest listed stop →
      (∀ row ∈ records.synced, (spans records anchor data.segmentEnd listed).countP (fun span => span.holds row) = 1) ∧
        walkedBelow data.segmentEnd listed stop ≤ listedTags listed

/-- The record is in the range of the segment and in its list, behind the earlier records of the range. -/
structure Lists (records : RecordStorage lib) (data : PlainSegmentData) (row : Row lib) : Prop where
  low : data.segmentStart ≤ row.sequence
  high : row.sequence < data.segmentEnd
  position : data.tags[records.synced.countP fun other =>
    data.segmentStart ≤ other.sequence && other.sequence < row.sequence]? = some row.tag

/-- Every record is authenticated by itself or listed by an authenticated segment of the backbone, and the
counters add up to the number of records. -/
structure Complete (records : RecordStorage lib) (keys : KeyStorage) (anchor : Octets) (report : HistoryVerifyReport) :
    Prop where
  checked : ∀ row ∈ records.synced, Authentic keys row ∨ ∃ newest listed stop segment data,
    records.findLastOfType .segment = some newest ∧ Backbone records anchor newest listed stop ∧
      (segment, data) ∈ listed ∧ Authentic keys segment ∧ Lists records data row
  counted : report.verifiedRecords + report.verifiedSegments + report.coveredRecords = records.synced.length
  corrected : ∀ newest data fuel walk, records.findLastOfType .segment = some newest →
    isAnchor anchor newest = false → segmentData newest.block = .ok data →
      walkBackbone records keys data.segmentEnd anchor fuel { row := some newest, report := {} } = some (.ok walk) →
        walk.walked ≤ walk.report.coveredRecords

theorem Backbone.unique {records : RecordStorage lib} {anchor : Octets} {row : Row lib}
    {listed others : List (Row lib × PlainSegmentData)} {stop final : Option (Row lib)}
    (first : Backbone records anchor row listed stop) (second : Backbone records anchor row others final) :
    listed = others ∧ stop = final := by
  induction first generalizing others final with
  | anchor trusted =>
    cases second with
    | anchor _ => exact ⟨rfl, rfl⟩
    | first beyond | step beyond => simp [trusted] at beyond
  | first beyond parsed ends =>
    cases second with
    | anchor trusted => simp [trusted] at beyond
    | first _ parsedAgain =>
      cases parsed.symm.trans parsedAgain
      exact ⟨rfl, rfl⟩
    | step _ parsedAgain named =>
      cases parsed.symm.trans parsedAgain
      exact absurd ends named
  | step beyond parsed named found _ ih =>
    cases second with
    | anchor trusted => simp [trusted] at beyond
    | first _ parsedAgain ends =>
      cases parsed.symm.trans parsedAgain
      exact absurd ends named
    | step _ parsedAgain _ foundAgain rest =>
      cases parsed.symm.trans parsedAgain
      cases found.symm.trans foundAgain
      obtain ⟨rfl, rfl⟩ := ih rest
      exact ⟨rfl, rfl⟩

namespace Passes

variable {records : RecordStorage lib} {keys : KeyStorage} {boundary expectedEnd : SequenceNumber} {anchor : Octets}
  {row : Row lib} {listed : List (Row lib × PlainSegmentData)} {stop : Option (Row lib)}

section

variable (passes : Passes records keys boundary anchor expectedEnd row listed stop)
include passes

theorem backbone : Backbone records anchor row listed stop := by
  induction passes with
  | anchor _ _ trusted => exact .anchor trusted
  | first parsed _ beyond _ ends => exact .first beyond parsed ends
  | step parsed _ beyond _ named found _ _ _ ih => exact .step beyond parsed named found ih

theorem descends :
    Intervals.Descends PlainSegmentData.segmentStart PlainSegmentData.segmentEnd expectedEnd (listed.map Prod.snd) := by
  induction passes with
  | anchor => trivial
  | first _ _ _ covers => exact ⟨covers.joined, covers.proper, trivial⟩
  | step _ _ _ covers _ _ _ _ _ ih => exact ⟨covers.joined, covers.proper, ih⟩

theorem tags :
    ∀ entry ∈ listed, entry.2.tags = records.tagsInRange entry.2.segmentStart (entry.2.segmentEnd - 1) := by
  induction passes with
  | anchor => simp
  | first _ _ _ covers => simpa using covers.tags
  | step _ _ _ covers _ _ _ _ _ ih => exact List.forall_mem_cons.mpr ⟨covers.tags, ih⟩

/-- The walk lists the segment that it starts at, unless that is the anchor. -/
theorem head {data : PlainSegmentData} (beyond : isAnchor anchor row = false)
    (parsed : segmentData row.block = .ok data) : ∃ rest, listed = (row, data) :: rest := by
  cases passes with
  | anchor _ _ trusted => simp [trusted] at beyond
  | first parsedAgain =>
    cases parsed.symm.trans parsedAgain
    exact ⟨[], rfl⟩
  | step parsedAgain =>
    cases parsed.symm.trans parsedAgain
    exact ⟨_, rfl⟩

/-- The listing segments are in sync, and verified when they are below the boundary. -/
theorem segments (inside : row ∈ records.synced) :
    ∀ entry ∈ listed, entry.1 ∈ records.synced ∧ (entry.1.sequence < boundary → Authentic keys entry.1) := by
  induction passes with
  | anchor => simp
  | first _ checked => simpa using ⟨inside, checked⟩
  | step _ checked _ _ _ found _ inSync _ ih =>
    exact List.forall_mem_cons.mpr
      ⟨⟨inside, checked⟩, ih (mem_synced.mpr ⟨(findTag_eq_some_iff.mp found).1, inSync⟩)⟩

/-- The walk ends at the start of the chain or at the anchor. -/
theorem ends (inside : row ∈ records.synced) :
    (∃ data ∈ (listed.map Prod.snd).getLast?, data.segmentStart = 1) ∨
      ∃ last ∈ records.synced, isAnchor anchor last = true := by
  induction passes with
  | anchor _ _ trusted => exact Or.inr ⟨_, inside, trusted⟩
  | first _ _ _ _ _ begins => exact Or.inl ⟨_, rfl, begins⟩
  | @step _ _ _ _ listed _ _ _ _ _ _ found _ inSync _ ih =>
    obtain ⟨data, isLast, one⟩ | trusted := ih (mem_synced.mpr ⟨(findTag_eq_some_iff.mp found).1, inSync⟩)
    · refine Or.inl ⟨data, ?_, one⟩
      rw [List.map_cons, List.getLast?_cons, Option.mem_def.mp isLast]
      rfl
    · exact Or.inr trusted

end

end Passes

section Spans

variable {records : RecordStorage lib} {keys : KeyStorage} {boundary : SequenceNumber} {anchor : Octets}
  {newest row : Row lib} {data : PlainSegmentData} {listed : List (Row lib × PlainSegmentData)}
  {stop : Option (Row lib)} {report : HistoryVerifyReport}

/-- The sequence of the anchor. -/
def anchorSequence (records : RecordStorage lib) (anchor : Octets) : Option SequenceNumber :=
  if anchor = [] then none else (records.findHash anchor .inSync).map Row.sequence

theorem countP_retainedSpans (valid : Valid records) (row : Row lib) :
    (retainedSpans records anchor).countP (fun span => span.holds row) = (anchorSequence records anchor).elim 0
      fun limit => if 1 ≤ row.sequence ∧ row.sequence ≤ limit - 1 then 1 else 0 := by
  unfold retainedSpans anchorSequence
  split
  · rfl
  cases found : records.findHash anchor .inSync with
  | none => rfl
  | some last =>
    rw [Option.elim_some, Option.map_some, Option.elim_some,
      before_of_ne_zero (valid last (findHash_eq_some_iff.mp found).1)]
    simp [Span.holds]

/-- How often a record lies in the ranges. -/
theorem countP_spans (valid : Valid records) (inside : row ∈ records.synced)
    (proper : ∀ entry ∈ listed, entry.2.segmentStart < entry.2.segmentEnd) :
    (spans records anchor boundary listed).countP (fun span => span.holds row) =
      Intervals.meets PlainSegmentData.segmentStart PlainSegmentData.segmentEnd (anchorSequence records anchor) boundary
        (listed.map Prod.snd) row.sequence := by
  have bound := sequence_le_lastBlock (mem_synced.mp inside).1 (mem_synced.mp inside).2
  have lists : (listed.map fun entry => (entry.2.segmentStart, entry.2.segmentEnd - 1)).countP
      (fun span => Span.holds span row) = (listed.map Prod.snd).countP fun data =>
        data.segmentStart ≤ row.sequence && row.sequence < data.segmentEnd := by
    rw [List.countP_map, List.countP_map]
    refine List.countP_congr fun entry entryIn => ?_
    have positive : 0 < entry.2.segmentEnd := Nat.zero_lt_of_lt (proper entry entryIn)
    simp only [Function.comp_apply, Span.holds, Bool.and_eq_true, decide_eq_true_eq, Nat.le_sub_one_iff_lt positive]
  unfold spans Intervals.meets
  rw [List.countP_append, countP_retainedSpans valid, List.countP_cons, lists]
  have tail : Span.holds (boundary, records.lastBlock.sequence) row = decide (boundary ≤ row.sequence) := by
    simp [Span.holds, bound]
  rw [tail, Nat.add_assoc, Nat.add_comm (List.countP _ _)]
  simp only [decide_eq_true_eq]

/-- A walk that passes leaves no record out of the ranges, or puts none into two. -/
theorem Passes.sided (valid : Valid records) (newestIn : newest ∈ records.synced)
    (beyond : isAnchor anchor newest = false) (parsed : segmentData newest.block = .ok data)
    (passes : Passes records keys data.segmentEnd anchor 0 newest listed stop) :
    (∀ row ∈ records.synced, 1 ≤ (spans records anchor data.segmentEnd listed).countP fun span => span.holds row) ∨
      ∀ row ∈ records.synced, (spans records anchor data.segmentEnd listed).countP (fun span => span.holds row) ≤ 1 := by
  have descends := passes.descends
  have proper : ∀ entry ∈ listed, entry.2.segmentStart < entry.2.segmentEnd := by
    intro entry inside
    exact descends.proper entry.2 (List.mem_map_of_mem inside)
  obtain ⟨later, isHead⟩ := passes.head beyond parsed
  obtain ⟨rest, shape⟩ : ∃ rest, listed.map Prod.snd = data :: rest :=
    ⟨later.map Prod.snd, by rw [isHead, List.map_cons]⟩
  have ends : (∃ last ∈ (listed.map Prod.snd).getLast?, last.segmentStart = 1) ∨
      (anchorSequence records anchor).isSome = true := by
    refine (passes.ends newestIn).imp_right ?_
    rintro ⟨last, lastIn, trusted⟩
    simp only [isAnchor, Bool.and_eq_true, decide_eq_true_eq] at trusted
    simp [anchorSequence, trusted.1, findHash_eq_some_iff.mpr ⟨lastIn, trusted.2⟩]
  rw [shape] at descends ends
  refine (descends.sided ends).imp ?_ ?_ <;>
  · intro each row inside
    rw [countP_spans valid inside proper, shape]
    exact each row.sequence (Nat.pos_of_ne_zero (valid row inside))

/-- The records of the ranges add up to the retained, the verified and the listed ones. -/
theorem Passes.sum_spans (passes : Passes records keys data.segmentEnd anchor 0 newest listed stop) :
    ((spans records anchor data.segmentEnd listed).map fun span => (records.between span.1 span.2).length).sum =
      ((retainedSpans records anchor).map fun span => (records.between span.1 span.2).length).sum +
        ((records.between data.segmentEnd records.lastBlock.sequence).length + listedTags listed) := by
  unfold spans listedTags
  rw [List.map_append, List.sum_append, List.map_cons, List.sum_cons, List.map_map]
  congr 3
  refine List.map_congr_left fun entry inside => ?_
  rw [passes.tags entry inside, tagsInRange_eq_map, List.length_map]
  rfl

theorem of_verifyRetained (done : verifyRetained records keys anchor = .ok report) :
    (∀ span ∈ retainedSpans records anchor, ∀ row ∈ records.synced, span.holds row = true → Authentic keys row) ∧
      Adds (((retainedSpans records anchor).map fun span => (records.between span.1 span.2).length).sum) {} report := by
  unfold verifyRetained at done
  unfold retainedSpans
  split at done
  · rename_i none
    cases done
    rw [if_pos none]
    exact ⟨by simp, .none _⟩
  · rename_i anchored
    rw [if_neg anchored]
    split at done
    · cases done
    rename_i last found
    obtain ⟨authentic, adds⟩ := of_verifyDetached done
    rw [found, Option.elim_some]
    refine ⟨?_, by simpa using adds⟩
    intro span spanIn row inside holds
    rw [List.mem_singleton] at spanIn
    subst spanIn
    simp only [Span.holds, Bool.and_eq_true, decide_eq_true_eq] at holds
    exact authentic row (mem_between.mpr ⟨inside, holds⟩)

theorem of_verifyTail {next : HistoryVerifyReport} (done : verifyTail records keys boundary report = .ok next) :
    (∀ row ∈ records.synced, boundary ≤ row.sequence → Authentic keys row) ∧
      Adds (records.between boundary records.lastBlock.sequence).length report next := by
  unfold verifyTail at done
  split at done
  · cases done
  · obtain ⟨authentic, adds⟩ := of_verifyRange done
    refine ⟨fun row inside high => authentic row (mem_between.mpr ⟨inside, high, ?_⟩), adds⟩
    exact sequence_le_lastBlock (mem_synced.mp inside).1 (mem_synced.mp inside).2

/-- A record in the range of a segment stands in its list. -/
theorem lists_of_holds (tags : data.tags = records.tagsInRange data.segmentStart (data.segmentEnd - 1))
    (proper : data.segmentStart < data.segmentEnd) (inside : row ∈ records.synced)
    (holds : Span.holds (data.segmentStart, data.segmentEnd - 1) row = true) : Lists records data row := by
  simp only [Span.holds, Bool.and_eq_true, decide_eq_true_eq] at holds
  obtain ⟨low, high⟩ := holds
  have below : row.sequence < data.segmentEnd :=
    (Nat.le_sub_one_iff_lt (Nat.zero_lt_of_lt proper)).mp high
  refine ⟨low, below, ?_⟩
  have distinct : ((records.synced.filter fun other =>
      data.segmentStart ≤ other.sequence && other.sequence ≤ data.segmentEnd - 1).map Row.sequence).Nodup :=
    (List.filter_sublist.map Row.sequence).nodup records.synced_nodup
  have place := Ranking.getElem?_inOrder distinct
    (List.mem_filter.mpr ⟨inside, by simp only [Bool.and_eq_true, decide_eq_true_eq]; exact ⟨low, high⟩⟩)
  rw [tags, tagsInRange_eq_map, between_eq, List.getElem?_map]
  have same : (records.synced.countP fun other =>
      data.segmentStart ≤ other.sequence && other.sequence < row.sequence) =
      (records.synced.filter fun other => data.segmentStart ≤ other.sequence &&
        other.sequence ≤ data.segmentEnd - 1).countP fun other => other.sequence < row.sequence := by
    rw [List.countP_filter]
    refine List.countP_congr fun other _ => ?_
    simp only [Bool.and_eq_true, decide_eq_true_eq]
    constructor
    · rintro ⟨start, less⟩
      exact ⟨less, start, (Nat.le_of_lt less).trans high⟩
    · rintro ⟨less, start, _⟩
      exact ⟨start, less⟩
  rw [same, place]
  rfl

end Spans

section Report

variable {records : RecordStorage lib} {keys : KeyStorage} {anchor : Octets} {newest : Row lib}
  {data : PlainSegmentData} {report : HistoryVerifyReport} {fuel : Nat} {listed : List (Row lib × PlainSegmentData)}
  {stop : Option (Row lib)}

theorem of_findLastOfType (found : records.findLastOfType .segment = some newest) :
    newest ∈ records.synced ∧ newest.type = .segment ∧
      ∀ other ∈ records.synced, other.type = .segment → other.sequence ≤ newest.sequence := by
  rw [findLastOfType_eq] at found
  obtain ⟨⟨inside, inSync, segment⟩, last⟩ := newest_eq_some_iff.mp found
  refine ⟨mem_synced.mpr ⟨inside, inSync⟩, of_decide_eq_true segment, fun other otherIn otherSegment => ?_⟩
  obtain ⟨otherRow, otherInSync⟩ := mem_synced.mp otherIn
  exact last other otherRow otherInSync (decide_eq_true otherSegment)

theorem newest_synced (found : records.findLastOfType .segment = some newest) : newest ∈ records.synced :=
  (of_findLastOfType found).1

/-- Without a segment behind the anchor a fast verification is a full one. -/
theorem fastVerify_eq_full (none : ∀ newest, records.findLastOfType .segment = some newest → isAnchor anchor newest = true)
    (fuel : Nat) : fastVerify records keys anchor fuel = some (fullVerify records keys anchor) := by
  unfold fastVerify
  cases found : records.findLastOfType .segment with
  | none => rfl
  | some newest =>
    have trusted := none newest found
    have same : anchor ≠ [] ∧ newest.hash = anchor := by simpa [isAnchor] using trusted
    have present := findHash_eq_some_iff.mpr ⟨newest_synced found, same.2⟩
    simp only [trusted, if_true]
    rw [fullVerify, if_neg same.1]
    cases anchored : verifyAnchor records keys anchor {} with
    | error err => rfl
    | ok result =>
      obtain ⟨pivot, counted⟩ := result
      obtain rfl : newest = pivot := Option.some.inj (present.symm.trans (of_verifyAnchor anchored).1)
      rfl

/-- The parts of a fast verification along the segments. -/
structure Parts (records : RecordStorage lib) (keys : KeyStorage) (anchor : Octets) (newest : Row lib)
    (data : PlainSegmentData) (fuel : Nat) (report : HistoryVerifyReport) : Prop where
  found : records.findLastOfType .segment = some newest
  beyond : isAnchor anchor newest = false
  parsed : segmentData newest.block = .ok data
  walked : ∃ retained tail walk, verifyRetained records keys anchor = .ok retained ∧
    verifyTail records keys data.segmentEnd retained = .ok tail ∧
    walkBackbone records keys data.segmentEnd anchor fuel { row := some newest, report := tail } = some (.ok walk) ∧
    report = { walk.report with coveredRecords := takeAway walk.report.coveredRecords walk.walked }

theorem of_fastVerify (done : fastVerify records keys anchor fuel = some (.ok report)) :
    (fullVerify records keys anchor = .ok report ∧
      ∀ newest, records.findLastOfType .segment = some newest → isAnchor anchor newest = true) ∨
    ∃ newest data, Parts records keys anchor newest data fuel report := by
  by_cases none : ∀ newest, records.findLastOfType .segment = some newest → isAnchor anchor newest = true
  · rw [fastVerify_eq_full none] at done
    exact Or.inl ⟨Option.some.inj done, none⟩
  push Not at none
  obtain ⟨newest, found, beyond⟩ := none
  have outside : isAnchor anchor newest = false := by simpa using beyond
  right
  unfold fastVerify at done
  simp only [found, outside, Bool.false_eq_true, if_false] at done
  split at done
  · cases done
  rename_i retained below
  split at done
  · cases done
  rename_i data parsed
  split at done
  · cases done
  rename_i tail verified
  unfold verifyBackbone at done
  cases walk : walkBackbone records keys data.segmentEnd anchor fuel { row := some newest, report := tail } with
  | none => simp [walk] at done
  | some result =>
    cases result with
    | error err => simp [walk, Except.map] at done
    | ok final =>
      simp only [walk, Option.map_some, Except.map, Option.some.injEq, Except.ok.injEq] at done
      exact ⟨newest, data, found, outside, parsed, retained, tail, final, below, verified, walk, done.symm⟩

/-- A verification whose segments lead back to one of them never returns. -/
theorem fastVerify_endless {retained tail : HistoryVerifyReport}
    (found : records.findLastOfType .segment = some newest) (beyond : isAnchor anchor newest = false)
    (below : verifyRetained records keys anchor = .ok retained) (parsed : segmentData newest.block = .ok data)
    (verified : verifyTail records keys data.segmentEnd retained = .ok tail)
    (loops : Looping.Loops (Moves records keys data.segmentEnd anchor) (newest, 0)) (fuel : Nat) :
    fastVerify records keys anchor fuel = none := by
  have endless : walkBackbone records keys data.segmentEnd anchor fuel { row := some newest, report := tail } = none :=
    (walkBackbone_eq_none_iff rfl fuel).mpr (loops.hasPath fuel)
  unfold fastVerify
  simp only [found, beyond, below, parsed, verified, verifyBackbone, endless, Bool.false_eq_true, if_false,
    Option.map_none]

/-- A walk from an empty report counts the same. -/
theorem Passes.count {boundary : SequenceNumber} (passes : Passes records keys boundary anchor 0 newest listed stop)
    {walk : BackboneWalk lib}
    (done : walkBackbone records keys boundary anchor fuel { row := some newest, report := {} } = some (.ok walk)) :
    walk.walked = walkedBelow boundary listed stop ∧ walk.report.coveredRecords = listedTags listed := by
  obtain ⟨others, final, again, walked, _, covered⟩ := of_walkBackbone rfl done
  obtain ⟨rfl, rfl⟩ := passes.backbone.unique again.backbone
  simpa using And.intro walked covered

/-- What a fast verification along the segments found and counted. -/
structure Outcome (records : RecordStorage lib) (keys : KeyStorage) (anchor : Octets) (newest : Row lib)
    (data : PlainSegmentData) (report : HistoryVerifyReport) (listed : List (Row lib × PlainSegmentData))
    (stop : Option (Row lib)) : Prop where
  passes : Passes records keys data.segmentEnd anchor 0 newest listed stop
  retained : ∀ span ∈ retainedSpans records anchor, ∀ row ∈ records.synced, span.holds row = true → Authentic keys row
  tail : ∀ row ∈ records.synced, data.segmentEnd ≤ row.sequence → Authentic keys row
  total : walkedBelow data.segmentEnd listed stop ≤ listedTags listed → report.total =
    ((spans records anchor data.segmentEnd listed).map fun span => (records.between span.1 span.2).length).sum

theorem Parts.outcome (parts : Parts records keys anchor newest data fuel report) :
    ∃ listed stop, Outcome records keys anchor newest data report listed stop := by
  obtain ⟨found, beyond, parsed, retained, tail, walk, below, verified, walked, rfl⟩ := parts
  obtain ⟨kept, first⟩ := of_verifyRetained below
  obtain ⟨last, second⟩ := of_verifyTail verified
  obtain ⟨listed, stop, passes, steps, counted, covered⟩ := of_walkBackbone rfl walked
  refine ⟨listed, stop, passes, kept, last, fun enough => ?_⟩
  have both := first.trans second
  have empty : ({} : HistoryVerifyReport).verified = 0 := rfl
  have before := both.verified
  rw [empty] at before
  dsimp only at steps counted covered
  rw [both.covered] at covered
  dsimp only at covered
  rw [passes.sum_spans]
  change walk.report.verified + takeAway walk.report.coveredRecords walk.walked = _
  rw [takeAway, if_pos (by omega), counted, covered, steps, before]
  omega

/-- A verification along the segments is complete exactly where the ranges have no seam. -/
theorem Outcome.complete_iff (valid : Valid records) (found : records.findLastOfType .segment = some newest)
    (beyond : isAnchor anchor newest = false) (parsed : segmentData newest.block = .ok data)
    (outcome : Outcome records keys anchor newest data report listed stop) :
    Complete records keys anchor report ↔ Seamless records anchor := by
  have newestIn := newest_synced found
  have passes := outcome.passes
  have sided := passes.sided valid newestIn beyond parsed
  constructor
  · intro complete other otherData otherListed otherStop foundAgain _ parsedAgain backbone
    cases found.symm.trans foundAgain
    cases parsed.symm.trans parsedAgain
    obtain ⟨rfl, rfl⟩ := passes.backbone.unique backbone
    obtain ⟨fuel, walk, done⟩ : ∃ fuel walk, walkBackbone records keys data.segmentEnd anchor fuel
        { row := some newest, report := {} } = some (.ok walk) := passes.walk_ok rfl rfl
    obtain ⟨walked, covered⟩ := passes.count done
    have enough := complete.corrected newest data fuel walk found beyond parsed done
    rw [walked, covered] at enough
    refine ⟨(Incidence.sum_eq_length_iff sided).mp ?_, enough⟩
    rw [← sum_between, ← outcome.total enough]
    exact complete.counted
  · intro seamless
    obtain ⟨ones, enough⟩ := seamless newest data listed stop found beyond parsed passes.backbone
    refine ⟨fun row inside => ?_, ?_, ?_⟩
    · have one := ones row inside
      obtain ⟨span, spanIn, holds⟩ := List.countP_pos_iff.mp (Nat.lt_of_lt_of_eq Nat.zero_lt_one one.symm)
      rw [spans, List.mem_append, List.mem_cons] at spanIn
      obtain kept | rfl | covered := spanIn
      · exact Or.inl (outcome.retained span kept row inside holds)
      · simp only [Span.holds, Bool.and_eq_true, decide_eq_true_eq] at holds
        exact Or.inl (outcome.tail row inside holds.1)
      · obtain ⟨⟨segment, ranged⟩, entryIn, rfl⟩ := List.mem_map.mp covered
        obtain ⟨segmentIn, below⟩ := passes.segments newestIn _ entryIn
        have authentic : Authentic keys segment := by
          by_cases low : segment.sequence < data.segmentEnd
          · exact below low
          · exact outcome.tail segment segmentIn (Nat.not_lt.mp low)
        have proper := passes.descends.proper ranged (List.mem_map.mpr ⟨_, entryIn, rfl⟩)
        exact Or.inr ⟨newest, listed, stop, segment, ranged, found, passes.backbone, entryIn, authentic,
          lists_of_holds (passes.tags _ entryIn) proper inside holds⟩
    · rw [← (Incidence.sum_eq_length_iff sided).mpr ones, ← sum_between, ← outcome.total enough]
      rfl
    · intro other otherData fuel walk foundAgain _ parsedAgain done
      cases found.symm.trans foundAgain
      cases parsed.symm.trans parsedAgain
      obtain ⟨walked, covered⟩ := passes.count done
      rw [walked, covered]
      exact enough

/-- The walk along the segments ends exactly where none leads back to itself, and so wherever no stored segment begins
at zero and names another one. With valid sequences, a fast verification that
returns a report has checked and counted every record exactly where the ranges it looks at have no seam. -/
theorem fastVerify_complete_iff (valid : Valid records) :
    (∀ boundary row (walk : BackboneWalk lib), walk.row = some row →
      ((∃ fuel result, walkBackbone records keys boundary anchor fuel walk = some result) ↔
        ¬ Looping.Loops (Moves records keys boundary anchor) (row, walk.expectedEnd))) ∧
    (Founded records → ∀ boundary state, ¬ Looping.Loops (Moves records keys boundary anchor) state) ∧
    ∀ fuel report, fastVerify records keys anchor fuel = some (.ok report) →
      (Complete records keys anchor report ↔ Seamless records anchor) := by
  refine ⟨fun _ _ _ here => walkBackbone_ends_iff here, fun founded _ => founded.not_loops, fun fuel report done => ?_⟩
  obtain ⟨full, none⟩ | ⟨newest, data, parts⟩ := of_fastVerify done
  · obtain ⟨authentic, counted⟩ := of_fullVerify valid full
    constructor
    · intro _ newest data listed stop found beyond
      simp [none newest found] at beyond
    intro _
    refine ⟨fun row inside => Or.inl (authentic row inside), counted, ?_⟩
    intro newest data fuel walk found beyond
    simp [none newest found] at beyond
  · obtain ⟨listed, stop, outcome⟩ := parts.outcome
    exact outcome.complete_iff valid parts.found parts.beyond parts.parsed

end Report

/-- A record of one chain, with its sequence as operation. -/
def chainRow (sequence : Nat) (parentHash : Octets) (tag : RecordTag) (body : RecordBody) : Row .sample :=
  let opId : Octets := [Fin.ofNat 256 sequence]
  let block : Securepath.sample.Block :=
    ⟨(1, ⟨{ encryptionKey := 1, opId }, body, []⟩), ⟨tag, none⟩, sequence, parentHash⟩
  { key := sequence, tag, sequence, hash := Securepath.sample.hash block, parentHash, state := .inSync, block,
    type := body.type, opId }

/-- A record, the segment that becomes the anchor, a forged record and another one. -/
def firstRows : List (Row .sample) :=
  let first := chainRow 1 [] [7, 1] (.dataChange [])
  let anchor := chainRow 2 first.hash [7, 2] (.segment ⟨1, 2, [[7, 1]], []⟩)
  let forged := chainRow 3 anchor.hash [9, 9] (.dataChange [])
  [first, anchor, forged, chainRow 4 forged.hash [7, 4] (.dataChange [])]

def newestRow (data : PlainSegmentData) : Row .sample :=
  chainRow 5 [4, 7, 4, 3, 9, 9, 2, 7, 2, 1, 7, 1] [7, 5] (.segment data)

/-- The records with a newest segment. -/
def segmentRecords (data : PlainSegmentData) : RecordStorage .sample :=
  (write (firstRows ++ [newestRow data])).toOption.getD (.empty .sample)

def segmentKeys : KeyStorage :=
  ⟨[⟨1, [7]⟩]⟩

def trustedSegment : Octets :=
  [2, 7, 2, 1, 7, 1]

/-- A segment that begins at the anchor. -/
def joinedData : PlainSegmentData :=
  ⟨2, 5, [[7, 2], [9, 9], [7, 4]], [7, 2]⟩

theorem fastVerify_complete_iff_joined :
    fastVerify (segmentRecords joinedData) segmentKeys trustedSegment 2 = some (.ok ⟨1, 2, 2⟩) ∧
      Complete (segmentRecords joinedData) segmentKeys trustedSegment ⟨1, 2, 2⟩ := by
  have done : fastVerify (segmentRecords joinedData) segmentKeys trustedSegment 2 = some (.ok ⟨1, 2, 2⟩) := by
    decide +kernel
  have valid : Valid (segmentRecords joinedData) := by
    unfold Valid
    decide +kernel
  refine ⟨done, ((fastVerify_complete_iff valid).2.2 2 _ done).mpr ?_⟩
  intro newest data listed stop found _ parsed backbone
  have newestIs : (segmentRecords joinedData).findLastOfType .segment = some (newestRow joinedData) := by
    decide +kernel
  cases newestIs.symm.trans found
  cases (show segmentData (newestRow joinedData).block = .ok joinedData from rfl).symm.trans parsed
  have older : Backbone (segmentRecords joinedData) trustedSegment (newestRow joinedData)
      [(newestRow joinedData, joinedData)] (some (chainRow 2 [1, 7, 1] [7, 2] (.segment ⟨1, 2, [[7, 1]], []⟩))) :=
    .step (by decide +kernel) rfl (by decide) (by decide +kernel) (.anchor (by decide +kernel))
  obtain ⟨rfl, rfl⟩ := older.unique backbone
  decide +kernel

/-- A segment that begins behind the anchor leaves the forged record to nobody, and a segment that begins at zero
and names itself keeps the walk going. -/
theorem not_complete_gap :
    let records := segmentRecords ⟨4, 5, [[7, 4]], [7, 2]⟩
    let endless := segmentRecords ⟨0, 5, [[7, 1], [7, 2], [9, 9], [7, 4]], [7, 5]⟩
    fastVerify records segmentKeys trustedSegment 2 = some (.ok ⟨1, 2, 0⟩) ∧
      records.synced.length = 5 ∧ ¬ Complete records segmentKeys trustedSegment ⟨1, 2, 0⟩ ∧
      fullVerify records segmentKeys trustedSegment = .error ⟨.notAuthentic, "record is not authentic"⟩ ∧
      ∀ fuel, fastVerify endless segmentKeys [] fuel = none := by
  refine ⟨by decide +kernel, by decide +kernel, fun complete => ?_, by decide +kernel, fun fuel => ?_⟩
  · exact absurd complete.counted (by decide +kernel)
  let data : PlainSegmentData := ⟨0, 5, [[7, 1], [7, 2], [9, 9], [7, 4]], [7, 5]⟩
  have again : Moves (segmentRecords data) segmentKeys 5 [] (newestRow data, 0) (newestRow data, 0) :=
    ⟨data, rfl, fun low => absurd low (by decide), rfl, ⟨by decide, Or.inl rfl, by decide +kernel⟩,
      by decide +kernel, rfl⟩
  refine fastVerify_endless (by decide +kernel) rfl rfl (show segmentData (newestRow data).block = .ok data from rfl)
    (show verifyTail _ _ 5 {} = .ok ⟨0, 1, 0⟩ from by decide +kernel) ⟨_, .refl, .single again⟩ fuel

end SpSync.HistoryVerifier
