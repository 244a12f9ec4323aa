import SpSync.Proof.Engine.FastVerification

namespace SpSync.HistoryVerifier

open Foundation RecordStorage HistoryVerifyReport

variable {lib : Securepath} {records : RecordStorage lib} {keys : KeyStorage} {anchor : Octets}
  {data : PlainSegmentData} {report : HistoryVerifyReport} {newest : Row lib}
  {listed : List (Row lib × PlainSegmentData)} {stop : Option (Row lib)}

/-- Where the chain begins: at the anchor, or at one. -/
def base (records : RecordStorage lib) (anchor : Octets) : SequenceNumber :=
  (anchorSequence records anchor).getD 1

/-- The newest segment below another record. -/
structure Previous (records : RecordStorage lib) (row older : Row lib) : Prop where
  synced : older ∈ records.synced
  segment : older.type = .segment
  less : older.sequence < row.sequence
  next : ∀ other ∈ records.synced, other.type = .segment →
    other.sequence ≤ older.sequence ∨ row.sequence ≤ other.sequence

/-- The segment ends at its own sequence, begins at the previous segment, or at one as the first segment, and lists
the records between. -/
structure Names (records : RecordStorage lib) (row : Row lib) (data : PlainSegmentData) : Prop where
  ends : data.segmentEnd = row.sequence
  proper : data.segmentStart < data.segmentEnd
  tags : data.tags = records.tagsInRange data.segmentStart (data.segmentEnd - 1)
  follows : (data.previousSegmentTag = [] ∧ data.segmentStart = 1 ∧
      ∀ other ∈ records.synced, other.type = .segment → row.sequence ≤ other.sequence) ∨
    ∃ older, Previous records row older ∧ data.previousSegmentTag = older.tag ∧ older.tag ≠ [] ∧
      data.segmentStart = older.sequence

/-- A history whose anchor is a segment or the root, and whose segments behind the anchor are as above. What the
anchor itself lists may be cut. -/
structure Regular (records : RecordStorage lib) (anchor : Octets) : Prop where
  valid : Valid records
  anchored : ∀ pivot ∈ records.synced, isAnchor anchor pivot = true → pivot.type = .segment ∨ pivot.sequence = 1
  segments : ∀ row ∈ records.synced, row.type = .segment → base records anchor ≤ row.sequence →
    ∃ data, segmentData row.block = .ok data ∧ (isAnchor anchor row = false → Names records row data)

section Chain

variable {row : Row lib}

theorem eq_of_sequence {other : Row lib} (rowIn : row ∈ records.synced) (otherIn : other ∈ records.synced)
    (same : row.sequence = other.sequence) : row = other :=
  row_eq_of_sequence (mem_synced.mp rowIn).1 (mem_synced.mp otherIn).1 (mem_synced.mp rowIn).2 (mem_synced.mp otherIn).2
    same

/-- The records behind one of a linked range are linked to it. -/
theorem Linked.behind {first count : Nat} {parent : Octets}
    (linked : Linked records keys (List.range' first count) parent) (inside : row ∈ records.synced)
    (low : first ≤ row.sequence) (high : row.sequence < first + count) :
    Linked records keys (List.range' (row.sequence + 1) (first + count - (row.sequence + 1))) row.hash := by
  induction count generalizing first parent with
  | zero => exact absurd (Nat.lt_of_le_of_lt low high) (Nat.lt_irrefl _)
  | succ count ih =>
    obtain ⟨head, found, _, _, later⟩ := linked
    obtain ⟨headIn, headSequence⟩ := find_eq_some_iff.mp found
    obtain equal | less := Nat.eq_or_lt_of_le low
    · obtain rfl := eq_of_sequence headIn inside (headSequence.trans equal)
      have rest : first + (count + 1) - (head.sequence + 1) = count := by
        rw [headSequence, ← Nat.add_assoc, Nat.add_right_comm, Nat.add_sub_cancel_left]
      rw [rest, headSequence]
      exact later
    · have rest : first + (count + 1) = first + 1 + count := Nat.add_right_comm first count 1
      rw [rest] at high ⊢
      exact ih later less high

/-- From the anchor on, or from one, there is a record at every sequence, and the later ones are linked to it. -/
structure Traced (records : RecordStorage lib) (keys : KeyStorage) (low : SequenceNumber) : Prop where
  present : ∀ sequence, low ≤ sequence → sequence ≤ records.lastBlock.sequence →
    ∃ row ∈ records.synced, row.sequence = sequence
  linked : ∀ row ∈ records.synced, low ≤ row.sequence →
    Linked records keys (List.range' (row.sequence + 1) (records.lastBlock.sequence + 1 - (row.sequence + 1))) row.hash

theorem anchorSequence_eq {pivot : Row lib} (pivotIn : pivot ∈ records.synced) (trusted : isAnchor anchor pivot = true) :
    anchorSequence records anchor = some pivot.sequence := by
  have same : anchor ≠ [] ∧ pivot.hash = anchor := by simpa [isAnchor] using trusted
  rw [anchorSequence, if_neg same.1, findHash_eq_some_iff.mpr ⟨pivotIn, same.2⟩]
  rfl

theorem fullVerify_traced (done : fullVerify records keys anchor = .ok report) :
    Traced records keys (base records anchor) := by
  unfold fullVerify at done
  split at done
  · rename_i none
    have start : base records anchor = 1 := by rw [base, anchorSequence, if_pos none]; rfl
    obtain ⟨linked, _⟩ := of_verifyChain done
    have size : 1 + (records.lastBlock.sequence + 1 - 1) = records.lastBlock.sequence + 1 := Nat.add_comm _ _
    rw [start]
    refine ⟨fun sequence low high => ?_, fun row inside low => ?_⟩
    · obtain ⟨row, found, _⟩ := linked.present sequence (Intervals.mem_range'_iff.mpr ⟨low, high⟩)
      exact ⟨row, find_eq_some_iff.mp found⟩
    · have bound := sequence_le_lastBlock (mem_synced.mp inside).1 (mem_synced.mp inside).2
      have later := linked.behind inside low (by rw [size]; exact Nat.lt_succ_of_le bound)
      rwa [size] at later
  · rename_i anchored
    split at done
    · cases done
    rename_i pivot counted trusted
    obtain ⟨found, _⟩ := of_verifyAnchor trusted
    obtain ⟨pivotIn, same⟩ := findHash_eq_some_iff.mp found
    have start : base records anchor = pivot.sequence := by
      rw [base, anchorSequence_eq pivotIn (by simp [isAnchor, anchored, same])]
      rfl
    obtain ⟨linked, _⟩ := of_verifyChain done
    rw [start]
    refine ⟨fun sequence low high => ?_, fun row inside low => ?_⟩
    · obtain equal | less := Nat.eq_or_lt_of_le low
      · exact ⟨pivot, pivotIn, equal⟩
      · obtain ⟨row, present, _⟩ := linked.present sequence (Intervals.mem_range'_iff.mpr ⟨less, high⟩)
        exact ⟨row, find_eq_some_iff.mp present⟩
    · have bound := sequence_le_lastBlock (mem_synced.mp inside).1 (mem_synced.mp inside).2
      obtain equal | less := Nat.eq_or_lt_of_le low
      · obtain rfl := eq_of_sequence pivotIn inside equal
        exact linked
      have size : pivot.sequence + 1 + (records.lastBlock.sequence + 1 - (pivot.sequence + 1)) =
          records.lastBlock.sequence + 1 :=
        Nat.add_sub_cancel' (Nat.succ_le_succ (Nat.le_of_lt (Nat.lt_of_lt_of_le less bound)))
      have later := linked.behind inside less (by rw [size]; exact Nat.lt_succ_of_le bound)
      rwa [size] at later

/-- The records from the end of a range in the chain on are linked to the last one of the range. -/
theorem Traced.verifyTail_ok {low first boundary : SequenceNumber} (traced : Traced records keys low)
    (begins : low ≤ first) (proper : first < boundary) (bound : boundary ≤ records.lastBlock.sequence)
    (report : HistoryVerifyReport) : ∃ tail, verifyTail records keys boundary report = .ok tail := by
  have positive : 0 < boundary := Nat.zero_lt_of_lt proper
  have high : low ≤ boundary - 1 := begins.trans (Nat.le_sub_one_of_lt proper)
  obtain ⟨row, inside, same⟩ := traced.present (boundary - 1) high ((Nat.sub_le _ _).trans bound)
  have next : boundary = row.sequence + 1 := by
    rw [same]
    exact (Nat.sub_add_cancel positive).symm
  unfold verifyTail
  rw [before_of_ne_zero (Nat.ne_of_gt positive), ← same, find_eq_some_iff.mpr ⟨inside, rfl⟩, next]
  exact verifyChain_ok (traced.linked row inside (high.trans_eq same.symm)) report

theorem verifyRetained_ok (authentic : ∀ row ∈ records.synced, Authentic keys row)
    (full : fullVerify records keys anchor = .ok report) :
    ∃ retained, verifyRetained records keys anchor = .ok retained := by
  unfold fullVerify at full
  unfold verifyRetained
  split
  · exact ⟨{}, rfl⟩
  rename_i anchored
  rw [if_neg anchored] at full
  split at full
  · cases full
  rename_i trusted
  obtain ⟨found, _⟩ := of_verifyAnchor trusted
  rw [found]
  exact verifyEach_ok (fun row inside => authentic row (mem_between.mp inside).1) {}

end Chain

namespace Regular

variable {row newest : Row lib} {boundary : SequenceNumber}

/-- The chain begins at the anchor when it is a segment, and at one otherwise. -/
theorem base_cases (regular : Regular records anchor) :
    base records anchor = 1 ∨ ∃ pivot ∈ records.synced, isAnchor anchor pivot = true ∧ pivot.type = .segment ∧
      base records anchor = pivot.sequence := by
  by_cases trusted : ∃ pivot ∈ records.synced, isAnchor anchor pivot = true
  · obtain ⟨pivot, pivotIn, isPivot⟩ := trusted
    have start : base records anchor = pivot.sequence := by
      rw [base, anchorSequence_eq pivotIn isPivot]
      rfl
    obtain segment | root := regular.anchored pivot pivotIn isPivot
    · exact Or.inr ⟨pivot, pivotIn, isPivot, segment, start⟩
    · exact Or.inl (start.trans root)
  · left
    unfold base anchorSequence
    split
    · rfl
    rename_i anchored
    cases found : records.findHash anchor .inSync with
    | none => rfl
    | some pivot =>
      obtain ⟨pivotIn, same⟩ := findHash_eq_some_iff.mp found
      exact absurd ⟨pivot, pivotIn, by simp [isAnchor, anchored, same]⟩ trusted

section

variable (regular : Regular records anchor) (inside : row ∈ records.synced) (beyond : isAnchor anchor row = false)
  (low : base records anchor ≤ row.sequence)
include regular inside beyond low

/-- A record that no earlier segment precedes begins the chain. -/
theorem base_of_first (first : ∀ other ∈ records.synced, other.type = .segment → row.sequence ≤ other.sequence) :
    base records anchor = 1 := by
  obtain one | ⟨pivot, pivotIn, trusted, segment, start⟩ := regular.base_cases
  · exact one
  · rw [start] at low
    obtain rfl := eq_of_sequence inside pivotIn (Nat.le_antisymm (first pivot pivotIn segment) low)
    simp [trusted] at beyond

/-- The previous segment is not below the start of the chain. -/
theorem base_le_previous {older : Row lib} (previous : Previous records row older) :
    base records anchor ≤ older.sequence := by
  obtain one | ⟨pivot, pivotIn, trusted, segment, start⟩ := regular.base_cases
  · rw [one]
    exact Nat.pos_of_ne_zero (regular.valid older previous.synced)
  rw [start] at low ⊢
  obtain before | behind := previous.next pivot pivotIn segment
  · exact before
  · obtain rfl := eq_of_sequence inside pivotIn (Nat.le_antisymm behind low)
    simp [trusted] at beyond

/-- No segment begins below the start of the chain. -/
theorem base_le_start (names : Names records row data) : base records anchor ≤ data.segmentStart := by
  obtain ⟨_, begins, first⟩ | ⟨older, previous, _, _, begins⟩ := names.follows
  · rw [begins]
    exact Nat.le_of_eq (regular.base_of_first inside beyond low first)
  · rw [begins]
    exact regular.base_le_previous inside beyond low previous

end

/-- The newest segment is not below the start of the chain. -/
theorem base_le_newest (regular : Regular records anchor) (found : records.findLastOfType .segment = some newest) :
    base records anchor ≤ newest.sequence := by
  obtain one | ⟨pivot, pivotIn, _, segment, start⟩ := regular.base_cases
  · rw [one]
    exact Nat.pos_of_ne_zero (regular.valid newest (newest_synced found))
  · rw [start]
    exact (of_findLastOfType found).2.2 pivot pivotIn segment

/-- The walk from a segment of a regular history passes every check, over ranges that follow one another from the
start of the chain on. -/
theorem passes (regular : Regular records anchor) (authentic : ∀ row ∈ records.synced, Authentic keys row)
    (boundary : SequenceNumber) (size : Nat) (inside : row ∈ records.synced) (segment : row.type = .segment)
    (low : base records anchor ≤ row.sequence) (bound : row.sequence ≤ size) {expectedEnd : SequenceNumber}
    (joined : expectedEnd = 0 ∨ row.sequence = expectedEnd) :
    ∃ listed stop, Passes records keys boundary anchor expectedEnd row listed stop ∧
      Intervals.Consecutive PlainSegmentData.segmentStart PlainSegmentData.segmentEnd (base records anchor)
        (listed.map Prod.snd).reverse ∧
      Intervals.finish PlainSegmentData.segmentEnd (base records anchor) (listed.map Prod.snd).reverse =
        row.sequence := by
  induction size generalizing row expectedEnd with
  | zero => exact absurd (Nat.le_zero.mp bound) (regular.valid row inside)
  | succ size ih =>
    obtain ⟨data, parsed, named⟩ := regular.segments row inside segment low
    have checked : row.sequence < boundary → Authentic keys row := fun _ => authentic row inside
    cases beyond : isAnchor anchor row with
    | true =>
      refine ⟨[], some row, .anchor parsed checked beyond, trivial, ?_⟩
      rw [base, anchorSequence_eq inside beyond]
      rfl
    | false =>
      obtain ⟨ends, proper, tags, follows⟩ := named beyond
      have covers : Covers records expectedEnd data := ⟨proper, by rwa [ends], tags⟩
      obtain ⟨last, begins, first⟩ | ⟨older, previous, tag, nonempty, begins⟩ := follows
      · have start := regular.base_of_first inside beyond low first
        exact ⟨[(row, data)], none, .first parsed checked beyond covers last begins,
          ⟨begins.trans start.symm, trivial⟩, ends⟩
      · have olderBound : older.sequence ≤ size := Nat.le_of_lt_succ (Nat.lt_of_lt_of_le previous.less bound)
        obtain ⟨listed, stop, rest, chain, finished⟩ := ih previous.synced previous.segment
          (regular.base_le_previous inside beyond low previous) olderBound (Or.inr begins.symm)
        obtain ⟨olderIn, inSync⟩ := mem_synced.mp previous.synced
        refine ⟨(row, data) :: listed, stop, .step parsed checked beyond covers (by rwa [tag])
          (findTag_eq_some_iff.mpr ⟨olderIn, tag.symm⟩) previous.segment inSync rest, ?_, ?_⟩
        · rw [List.map_cons, List.reverse_cons]
          exact chain.append (begins.trans finished.symm)
        · rw [List.map_cons, List.reverse_cons, Intervals.finish_append]
          exact ends

end Regular

/-- A verification whose parts all pass returns their report. -/
theorem Parts.fastVerify_eq {fuel : Nat} (parts : Parts records keys anchor newest data fuel report) :
    fastVerify records keys anchor fuel = some (.ok report) := by
  obtain ⟨found, beyond, parsed, retained, tail, walk, below, verified, walked, rfl⟩ := parts
  unfold fastVerify
  simp only [found, beyond, below, parsed, verified, verifyBackbone, walked, Bool.false_eq_true, if_false,
    Option.map_some, Except.map]

/-- The walked segments are no more than the listed records when every segment lists one. -/
theorem walkedBelow_le {boundary : SequenceNumber} {row : Row lib} (high : boundary ≤ row.sequence)
    (nonempty : ∀ entry ∈ (row, data) :: listed, 1 ≤ entry.2.tags.length) :
    walkedBelow boundary ((row, data) :: listed) stop ≤ listedTags ((row, data) :: listed) := by
  have walked : ((visited listed stop).map (below boundary)).sum ≤ (visited listed stop).length := by
    refine Incidence.sum_le_length fun other _ => ?_
    unfold below
    split <;> omega
  have stops : (visited listed stop).length ≤ listed.length + 1 := by
    cases stop <;> simp [visited]
  have tags : listed.length + 1 ≤ listedTags ((row, data) :: listed) := Incidence.length_le_sum nonempty
  have all : walkedBelow boundary ((row, data) :: listed) stop =
      below boundary row + ((visited listed stop).map (below boundary)).sum := rfl
  have first : below boundary row = 0 := if_neg (Nat.not_lt.mpr high)
  rw [all, first]
  omega

/-- A segment whose range lies in the chain lists a record. -/
theorem Traced.nonempty {low : SequenceNumber} (traced : Traced records keys low) (begins : low ≤ data.segmentStart)
    (proper : data.segmentStart < data.segmentEnd) (bound : data.segmentEnd ≤ records.lastBlock.sequence)
    (tags : data.tags = records.tagsInRange data.segmentStart (data.segmentEnd - 1)) : 1 ≤ data.tags.length := by
  obtain ⟨row, inside, same⟩ := traced.present data.segmentStart begins (Nat.le_of_lt (Nat.lt_of_lt_of_le proper bound))
  rw [tags, tagsInRange_eq_map, List.length_map]
  refine List.length_pos_of_mem (mem_between.mpr ⟨inside, Nat.le_of_eq same.symm, ?_⟩)
  rw [same]
  exact Nat.le_sub_one_of_lt proper

/-- Ranges that follow one another up to the boundary count every record once. -/
theorem Outcome.total_eq (valid : Valid records)
    (outcome : Outcome records keys anchor newest data report listed stop)
    (chain : Intervals.Consecutive PlainSegmentData.segmentStart PlainSegmentData.segmentEnd (base records anchor)
      (listed.map Prod.snd).reverse)
    (finished : Intervals.finish PlainSegmentData.segmentEnd (base records anchor) (listed.map Prod.snd).reverse =
      data.segmentEnd) (enough : walkedBelow data.segmentEnd listed stop ≤ listedTags listed) :
    report.total = records.synced.length := by
  have proper := outcome.passes.descends.proper
  have ones : ∀ row ∈ records.synced,
      (spans records anchor data.segmentEnd listed).countP (fun span => span.holds row) = 1 := by
    intro row inside
    rw [countP_spans valid inside fun entry entryIn => proper entry.2 (List.mem_map_of_mem entryIn), ← finished]
    exact chain.meets_eq_one proper (Nat.pos_of_ne_zero (valid row inside))
  rw [outcome.total enough, sum_between]
  exact (Incidence.sum_eq_length_iff (Or.inl fun row inside => Nat.le_of_eq (ones row inside).symm)).mpr ones

/-- A full verification of a regular history that succeeds makes a fast one succeed, with the same total. -/
theorem fastVerify_of_fullVerify (regular : Regular records anchor)
    (full : fullVerify records keys anchor = .ok report) :
    ∃ fuel fast, fastVerify records keys anchor fuel = some (.ok fast) ∧ fast.total = report.total := by
  by_cases none : ∀ newest, records.findLastOfType .segment = some newest → isAnchor anchor newest = true
  · exact ⟨0, report, by rw [fastVerify_eq_full none, full], rfl⟩
  push Not at none
  obtain ⟨newest, found, outside⟩ := none
  have beyond : isAnchor anchor newest = false := by simpa using outside
  obtain ⟨newestIn, segment, _⟩ := of_findLastOfType found
  have low := regular.base_le_newest found
  obtain ⟨data, parsed, named⟩ := regular.segments newest newestIn segment low
  have names := named beyond
  obtain ⟨authentic, counted⟩ := of_fullVerify regular.valid full
  have traced := fullVerify_traced full
  obtain ⟨listed, stop, passes, chain, finished⟩ :=
    regular.passes authentic data.segmentEnd newest.sequence newestIn segment low (Nat.le_refl _) (Or.inl rfl)
  have head := sequence_le_lastBlock (mem_synced.mp newestIn).1 (mem_synced.mp newestIn).2
  obtain ⟨fuel, fast, parts⟩ : ∃ fuel fast, Parts records keys anchor newest data fuel fast := by
    obtain ⟨retained, below⟩ := verifyRetained_ok authentic full
    obtain ⟨tail, verified⟩ := traced.verifyTail_ok (regular.base_le_start newestIn beyond low names) names.proper
      (names.ends.trans_le head) retained
    obtain ⟨fuel, walk, walked⟩ : ∃ fuel walk, walkBackbone records keys data.segmentEnd anchor fuel
        { row := some newest, report := tail } = some (.ok walk) := passes.walk_ok rfl rfl
    exact ⟨fuel, _, found, beyond, parsed, retained, tail, walk, below, verified, walked, rfl⟩
  refine ⟨fuel, fast, parts.fastVerify_eq, ?_⟩
  obtain ⟨others, final, outcome⟩ := parts.outcome
  obtain ⟨rfl, rfl⟩ := passes.backbone.unique outcome.passes.backbone
  have proper : ∀ ranged ∈ (listed.map Prod.snd).reverse, ranged.segmentStart < ranged.segmentEnd :=
    fun ranged inside => passes.descends.proper ranged (List.mem_reverse.mp inside)
  have nonempty : ∀ entry ∈ listed, 1 ≤ entry.2.tags.length := by
    intro entry entryIn
    have inside : entry.2 ∈ (listed.map Prod.snd).reverse := List.mem_reverse.mpr (List.mem_map_of_mem entryIn)
    obtain ⟨above, below⟩ := (chain.bounds proper).2 entry.2 inside
    exact traced.nonempty above (proper entry.2 inside) (below.trans (finished.trans_le head)) (passes.tags entry entryIn)
  obtain ⟨rest, rfl⟩ := passes.head beyond parsed
  have enough : walkedBelow data.segmentEnd ((newest, data) :: rest) stop ≤ listedTags ((newest, data) :: rest) :=
    walkedBelow_le (Nat.le_of_eq names.ends) nonempty
  rw [outcome.total_eq regular.valid chain (finished.trans names.ends.symm) enough, counted]

def anchorRow : Row .sample :=
  chainRow 2 [1, 7, 1] [7, 2] (.segment ⟨1, 2, [[7, 1]], []⟩)

def middleRow : Row .sample :=
  chainRow 4 [3, 7, 3, 2, 7, 2, 1, 7, 1] [7, 4] (.segment ⟨2, 4, [[7, 2], [7, 3]], [7, 2]⟩)

def lastRow : Row .sample :=
  chainRow 6 [5, 7, 5, 4, 7, 4, 3, 7, 3, 2, 7, 2, 1, 7, 1] [7, 6] (.segment ⟨4, 6, [[7, 4], [7, 5]], [7, 4]⟩)

/-- A retained record, the anchor, and two segments with a record before each. -/
def cutStorage : RecordStorage .sample :=
  (write [chainRow 1 [] [7, 1] (.dataChange []), anchorRow, chainRow 3 anchorRow.hash [7, 3] (.dataChange []),
    middleRow, chainRow 5 middleRow.hash [7, 5] (.dataChange []), lastRow]).toOption.getD (.empty .sample)

theorem fastVerify_of_fullVerify_cut :
    fullVerify cutStorage segmentKeys trustedSegment = .ok ⟨3, 3, 0⟩ ∧
      ∃ fuel fast, fastVerify cutStorage segmentKeys trustedSegment fuel = some (.ok fast) ∧ fast.total = 6 := by
  have full : fullVerify cutStorage segmentKeys trustedSegment = .ok ⟨3, 3, 0⟩ := by decide +kernel
  have middle : Previous cutStorage middleRow anchorRow :=
    ⟨by decide +kernel, rfl, by decide, by decide +kernel⟩
  have last : Previous cutStorage lastRow middleRow :=
    ⟨by decide +kernel, rfl, by decide, by decide +kernel⟩
  have segments : ∀ row ∈ cutStorage.synced, row.type = .segment → row = anchorRow ∨ row = middleRow ∨ row = lastRow := by
    decide +kernel
  have regular : Regular cutStorage trustedSegment := by
    refine ⟨?_, by decide +kernel, fun row inside segment _ => ?_⟩
    · unfold Valid
      decide +kernel
    obtain rfl | rfl | rfl := segments row inside segment
    · exact ⟨_, rfl, fun beyond => absurd beyond (by decide)⟩
    · exact ⟨_, rfl, fun _ => ⟨rfl, by decide, by decide +kernel, Or.inr ⟨_, middle, rfl, by decide, rfl⟩⟩⟩
    · exact ⟨_, rfl, fun _ => ⟨rfl, by decide, by decide +kernel, Or.inr ⟨_, last, rfl, by decide, rfl⟩⟩⟩
  exact ⟨full, fastVerify_of_fullVerify regular full⟩

end SpSync.HistoryVerifier
