import SpSync.Construction.Engine.HistoryVerifier
import SpSync.Foundation.Incidence
import SpSync.Foundation.Intervals
import SpSync.Proof.Core.Mirror

namespace SpSync

open Foundation RecordStorage

variable {lib : Securepath}

namespace HistoryVerifyReport

/-- The records and segments that were verified one by one. -/
def verified (report : HistoryVerifyReport) : Nat :=
  report.verifiedRecords + report.verifiedSegments

/-- The total of the three counters. -/
def total (report : HistoryVerifyReport) : Nat :=
  report.verifiedRecords + report.verifiedSegments + report.coveredRecords

/-- That many more records are verified one by one. -/
structure Adds (amount : Nat) (before after : HistoryVerifyReport) : Prop where
  verified : after.verified = before.verified + amount
  covered : after.coveredRecords = before.coveredRecords

theorem Adds.none (report : HistoryVerifyReport) : Adds 0 report report :=
  ⟨rfl, rfl⟩

theorem Adds.trans {first second : Nat} {before between after : HistoryVerifyReport} (left : Adds first before between)
    (right : Adds second between after) : Adds (first + second) before after :=
  ⟨by rw [right.verified, left.verified, Nat.add_assoc], by rw [right.covered, left.covered]⟩

theorem adds_count (report : HistoryVerifyReport) (type : RecordType) : Adds 1 report (report.count type) := by
  unfold count
  split
  · exact ⟨rfl, rfl⟩
  · exact ⟨Nat.add_right_comm _ _ _, rfl⟩

end HistoryVerifyReport

open HistoryVerifyReport

namespace RecordStorage

variable {records : RecordStorage lib} {row : Row lib} {first last : SequenceNumber}

/-- The records in sync. -/
def synced (records : RecordStorage lib) : List (Row lib) :=
  records.rows.filter fun row => row.state = .inSync

theorem mem_synced : row ∈ records.synced ↔ row ∈ records.rows ∧ row.state = .inSync := by
  simp [synced]

/-- The records in sync from one sequence to another, in order. -/
def between (records : RecordStorage lib) (first last : SequenceNumber) : List (Row lib) :=
  records.findAllInRange first (some last) .inSync

theorem between_eq (records : RecordStorage lib) (first last : SequenceNumber) : records.between first last =
    Ranking.inOrder Row.sequence (records.synced.filter fun row => first ≤ row.sequence && row.sequence ≤ last) := by
  unfold between findAllInRange bySequence Ranking.inOrder synced
  rw [List.filter_filter]
  congr 1
  refine List.filter_congr fun row _ => ?_
  rw [Option.all_some, Bool.and_assoc, Bool.and_comm]

/-- A range holds the synced rows inside it. -/
theorem mem_between : row ∈ records.between first last ↔
    row ∈ records.synced ∧ first ≤ row.sequence ∧ row.sequence ≤ last := by
  rw [between_eq, Ranking.mem_inOrder, List.mem_filter, Bool.and_eq_true, decide_eq_true_eq, decide_eq_true_eq]

variable (records)

theorem length_between (first last : SequenceNumber) :
    (records.between first last).length =
      records.synced.countP fun row => first ≤ row.sequence && row.sequence ≤ last := by
  rw [between_eq, List.countP_eq_length_filter]
  exact List.length_insertionSort _ _

theorem tagsInRange_eq_map (first last : SequenceNumber) :
    records.tagsInRange first last = (records.between first last).map Row.tag := by
  unfold tagsInRange between findAllInRange
  simp only [Option.all_some]

/-- No two synced rows share a sequence number. -/
theorem synced_nodup : (records.synced.map Row.sequence).Nodup :=
  sequence_nodup List.filter_sublist fun _ inside => (mem_synced.mp inside).2

variable {records}

theorem find_eq_some_iff {sequence : SequenceNumber} :
    records.find sequence .inSync = some row ↔ row ∈ records.synced ∧ row.sequence = sequence := by
  rw [find, Table.find?_eq_some_iff_of_unique, mem_synced] <;> simp only [Bool.and_eq_true, decide_eq_true_eq]
  · tauto
  · intro left leftIn right rightIn first second
    exact row_eq_of_sequence leftIn rightIn first.2 second.2 (first.1.trans second.1.symm)

theorem findHash_eq_some_iff {hash : Octets} :
    records.findHash hash .inSync = some row ↔ row ∈ records.synced ∧ row.hash = hash := by
  rw [findHash, Table.find?_eq_some_iff_of_unique, mem_synced] <;> simp only [Bool.and_eq_true, decide_eq_true_eq]
  · tauto
  · intro left leftIn right rightIn first second
    exact Table.eq_of_column records.unique.hashes leftIn rightIn (first.1.trans second.1.symm)

/-- A range with a record at every sequence has as many records as sequences. -/
theorem length_between_of_present
    (present : ∀ sequence ∈ List.range' first (last + 1 - first), ∃ row, records.find sequence .inSync = some row) :
    (records.between first last).length = last + 1 - first := by
  have nodup : ((records.between first last).map Row.sequence).Nodup := by
    rw [between_eq]
    refine (((List.perm_insertionSort _ _).map Row.sequence).nodup_iff).mpr ?_
    exact (List.filter_sublist.map Row.sequence).nodup records.synced_nodup
  have perm : ((records.between first last).map Row.sequence).Perm (List.range' first (last + 1 - first)) := by
    refine (List.perm_ext_iff_of_nodup nodup List.nodup_range').mpr fun sequence => ?_
    rw [List.mem_map]
    constructor
    · rintro ⟨row, inside, rfl⟩
      exact Intervals.mem_range'_iff.mpr (mem_between.mp inside).2
    intro inside
    obtain ⟨row, found⟩ := present sequence inside
    obtain ⟨rowIn, rfl⟩ := find_eq_some_iff.mp found
    exact ⟨row, mem_between.mpr ⟨rowIn, Intervals.mem_range'_iff.mp inside⟩, rfl⟩
  simpa using perm.length_eq

end RecordStorage

namespace HistoryVerifier

variable {records : RecordStorage lib} {keys : KeyStorage} {row : Row lib} {report next : HistoryVerifyReport}
  {parent : Octets} {sequences : List SequenceNumber} {block : lib.Block} {rows : List (Row lib)}
  {first last : SequenceNumber} {anchor : Octets}

/-- The stored hash is the one of the content, and the first key of its sequence authenticates the record. -/
structure Authentic (keys : KeyStorage) (row : Row lib) : Prop where
  hash : lib.hash (committedBlock row) = row.hash
  verified : ∃ record key, lib.deserialise row.block.record = some record ∧
    keys.find record.base.encryptionKey = some key ∧
    (SpSync.verifyRecord lib key record row.block.auth).isSome = true

theorem verifyRecord_ok {record : Record} {key : EncryptionKey} (parsed : lib.deserialise block.record = some record)
    (found : keys.find record.base.encryptionKey = some key)
    (authentic : (SpSync.verifyRecord lib key record block.auth).isSome = true) (report : HistoryVerifyReport) :
    verifyRecord keys block report = .ok (report.count record.body.type) := by
  have readable : (lib.decrypt key record.base record.body record.headers).isSome = true := by
    unfold SpSync.verifyRecord at authentic
    split at authentic
    · cases authentic
    split at authentic
    · rename_i opened
      rw [opened]
      rfl
    · cases authentic
  unfold verifyRecord
  simp only [parsed, found]
  rw [if_neg (by simp [Option.isSome_iff_ne_none.mp readable]), if_neg]
  simpa [Option.isSome_iff_ne_none] using authentic

/-- A verified record was read and opened. -/
theorem of_verifyRecord (done : verifyRecord keys block report = .ok next) :
    (∃ record key, lib.deserialise block.record = some record ∧ keys.find record.base.encryptionKey = some key ∧
      (SpSync.verifyRecord lib key record block.auth).isSome = true) ∧ Adds 1 report next := by
  unfold verifyRecord at done
  split at done
  · cases done
  rename_i record parsed
  split at done
  · cases done
  rename_i key found
  split at done
  · cases done
  split at done
  · cases done
  rename_i authentic
  cases done
  exact ⟨⟨record, key, parsed, found, by simpa [Option.isSome_iff_ne_none] using authentic⟩,
    adds_count report record.body.type⟩

theorem checkStoredHash_ok (same : lib.hash (committedBlock row) = row.hash) :
    checkStoredHash row (committedBlock row) = .ok () := by
  simp [checkStoredHash, same]

theorem of_checkStoredHash (done : checkStoredHash row (committedBlock row) = .ok ()) :
    lib.hash (committedBlock row) = row.hash := by
  unfold checkStoredHash at done
  split at done
  · cases done
  · rename_i same
    exact not_not.mp same

/-- An authentic row verifies. -/
theorem verifyStored_ok (authentic : Authentic keys row) (report : HistoryVerifyReport) :
    ∃ next, verifyStored keys row report = .ok next := by
  obtain ⟨hash, record, key, parsed, found, verified⟩ := authentic
  refine ⟨report.count record.body.type, ?_⟩
  rw [verifyStored, checkStoredHash_ok hash]
  exact verifyRecord_ok parsed found verified report

/-- Only an authentic row verifies. -/
theorem of_verifyStored (done : verifyStored keys row report = .ok next) :
    Authentic keys row ∧ Adds 1 report next := by
  unfold verifyStored at done
  split at done
  · cases done
  · rename_i checked
    obtain ⟨verified, adds⟩ := of_verifyRecord done
    exact ⟨⟨of_checkStoredHash checked, verified⟩, adds⟩

theorem verifyEach_ok (authentic : ∀ row ∈ rows, Authentic keys row) (report : HistoryVerifyReport) :
    ∃ next, verifyEach keys rows report = .ok next := by
  induction rows generalizing report with
  | nil => exact ⟨report, rfl⟩
  | cons row rest ih =>
    obtain ⟨counted, done⟩ := verifyStored_ok (authentic row List.mem_cons_self) report
    rw [verifyEach, done]
    exact ih (fun other inside => authentic other (List.mem_cons_of_mem _ inside)) counted

theorem of_verifyEach (done : verifyEach keys rows report = .ok next) :
    (∀ row ∈ rows, Authentic keys row) ∧ Adds rows.length report next := by
  induction rows generalizing report with
  | nil =>
    cases done
    exact ⟨by simp, .none _⟩
  | cons row rest ih =>
    rw [verifyEach] at done
    split at done
    · cases done
    rename_i counted stored
    obtain ⟨authentic, adds⟩ := of_verifyStored stored
    obtain ⟨others, more⟩ := ih done
    refine ⟨List.forall_mem_cons.mpr ⟨authentic, others⟩, ?_⟩
    rw [List.length_cons, Nat.add_comm]
    exact adds.trans more

/-- There is an authentic record at each of the sequences, and each follows the one before. -/
def Linked (records : RecordStorage lib) (keys : KeyStorage) : List SequenceNumber → Octets → Prop
  | [], _ => True
  | sequence :: rest, parent => ∃ row, records.find sequence .inSync = some row ∧ Authentic keys row ∧
      row.parentHash = parent ∧ Linked records keys rest row.hash

theorem Linked.present (linked : Linked records keys sequences parent) :
    ∀ sequence ∈ sequences, ∃ row, records.find sequence .inSync = some row ∧ Authentic keys row := by
  induction sequences generalizing parent with
  | nil => simp
  | cons sequence rest ih =>
    obtain ⟨row, found, authentic, _, later⟩ := linked
    exact List.forall_mem_cons.mpr ⟨⟨row, found, authentic⟩, ih later⟩

/-- A linked chain verifies. -/
theorem verifyChain_ok (linked : Linked records keys sequences parent) (report : HistoryVerifyReport) :
    ∃ next, verifyChain records keys sequences parent report = .ok next := by
  induction sequences generalizing parent report with
  | nil => exact ⟨report, rfl⟩
  | cons sequence rest ih =>
    obtain ⟨row, found, ⟨hash, record, key, parsed, known, verified⟩, link, later⟩ := linked
    have follows : ¬ (committedBlock row).parentHash ≠ parent := not_not.mpr link
    rw [verifyChain]
    simp only [found, checkStoredHash_ok hash]
    rw [if_neg follows, hash]
    have counted : verifyRecord keys (committedBlock row) report = .ok (report.count record.body.type) :=
      verifyRecord_ok parsed known verified report
    rw [counted]
    exact ih later _

/-- Only a linked chain verifies. -/
theorem of_verifyChain (done : verifyChain records keys sequences parent report = .ok next) :
    Linked records keys sequences parent ∧ Adds sequences.length report next := by
  induction sequences generalizing parent report with
  | nil =>
    cases done
    exact ⟨trivial, .none _⟩
  | cons sequence rest ih =>
    rw [verifyChain] at done
    split at done
    · cases done
    rename_i row found
    split at done
    · cases done
    rename_i checked
    split at done
    · cases done
    rename_i link
    split at done
    · cases done
    rename_i counted recorded
    have hash := of_checkStoredHash checked
    rw [hash] at done
    obtain ⟨verified, adds⟩ := of_verifyRecord recorded
    obtain ⟨later, more⟩ := ih done
    refine ⟨⟨row, found, ⟨hash, verified⟩, not_not.mp link, later⟩, ?_⟩
    rw [List.length_cons, Nat.add_comm]
    exact adds.trans more

/-- A verified range holds as many records as were counted, all of them authentic. -/
theorem of_verifyRange (done : verifyRange records keys first last parent report = .ok next) :
    (∀ row ∈ records.between first last, Authentic keys row) ∧
      Adds (records.between first last).length report next := by
  obtain ⟨linked, adds⟩ := of_verifyChain done
  have present := linked.present
  constructor
  · intro row inside
    obtain ⟨rowIn, within⟩ := mem_between.mp inside
    obtain ⟨other, found, authentic⟩ := present row.sequence (Intervals.mem_range'_iff.mpr within)
    rw [find_eq_some_iff.mpr ⟨rowIn, rfl⟩] at found
    cases found
    exact authentic
  · rw [length_between_of_present fun sequence inside => (present sequence inside).imp fun _ both => both.1]
    rwa [List.length_range'] at adds

theorem of_verifyDetached (done : verifyDetached records keys first last report = .ok next) :
    (∀ row ∈ records.between first last, Authentic keys row) ∧
      Adds (records.between first last).length report next :=
  of_verifyEach done

/-- A range of sequences, with both ends. -/
abbrev Span := SequenceNumber × SequenceNumber

/-- The record lies in the range. -/
def Span.holds (span : Span) (row : Row lib) : Bool :=
  span.1 ≤ row.sequence && row.sequence ≤ span.2

/-- The records in each range add up to the ranges around each record. -/
theorem sum_between (records : RecordStorage lib) (spans : List Span) :
    (spans.map fun span => (records.between span.1 span.2).length).sum =
      (records.synced.map fun row => spans.countP fun span => span.holds row).sum := by
  rw [← Incidence.sum_countP_comm fun (span : Span) (row : Row lib) => span.holds row]
  simp only [length_between]
  rfl

/-- Every record in sync has a valid sequence. -/
def Valid (records : RecordStorage lib) : Prop :=
  ∀ row ∈ records.synced, row.sequence ≠ 0

theorem before_of_ne_zero {sequence : SequenceNumber} (valid : sequence ≠ 0) :
    SequenceNumber.before sequence = sequence - 1 :=
  if_neg valid

/-- A verified anchor is a synced row, authentic and found by its hash. -/
theorem of_verifyAnchor (done : verifyAnchor records keys anchor report = .ok (row, next)) :
    records.findHash anchor .inSync = some row ∧ Authentic keys row ∧
      (∀ other ∈ records.between 1 (SequenceNumber.before row.sequence), Authentic keys other) ∧
      Adds ((records.between 1 (SequenceNumber.before row.sequence)).length + 1) report next := by
  unfold verifyAnchor at done
  split at done
  · cases done
  rename_i found present
  split at done
  · cases done
  rename_i detached below
  split at done
  · cases done
  rename_i stored verified
  cases done
  obtain ⟨others, adds⟩ := of_verifyDetached below
  obtain ⟨authentic, one⟩ := of_verifyStored verified
  exact ⟨present, authentic, others, adds.trans one⟩

/-- The ranges below a record, at the record and behind it hold every record once. -/
theorem countP_around {pivot : SequenceNumber} (valid : Valid records) (pivotValid : pivot ≠ 0) :
    ∀ row ∈ records.synced, ([(1, pivot - 1), (pivot, pivot), (pivot + 1, records.lastBlock.sequence)] : List Span).countP
      (fun span => span.holds row) = 1 := by
  intro row inside
  exact Intervals.countP_around (Nat.pos_of_ne_zero pivotValid) (Nat.pos_of_ne_zero (valid row inside))
    (sequence_le_lastBlock (mem_synced.mp inside).1 (mem_synced.mp inside).2)

/-- A full verification authenticates every record and counts it once. -/
theorem of_fullVerify (valid : Valid records) (done : fullVerify records keys anchor = .ok report) :
    (∀ row ∈ records.synced, Authentic keys row) ∧ report.total = records.synced.length := by
  unfold fullVerify at done
  split at done
  · obtain ⟨authentic, adds⟩ := of_verifyRange done
    have all : ∀ row ∈ records.synced, 1 ≤ row.sequence ∧ row.sequence ≤ records.lastBlock.sequence := by
      intro row inside
      exact ⟨Nat.pos_of_ne_zero (valid row inside),
        sequence_le_lastBlock (mem_synced.mp inside).1 (mem_synced.mp inside).2⟩
    refine ⟨fun row inside => authentic row (mem_between.mpr ⟨inside, all row inside⟩), ?_⟩
    have counted : (records.between 1 records.lastBlock.sequence).length = records.synced.length := by
      rw [length_between, List.countP_eq_length]
      exact fun row inside => by simpa using all row inside
    rw [total, adds.covered, ← verified, adds.verified, counted]
    exact Nat.zero_add _
  · split at done
    · cases done
    rename_i pivot counted anchored
    obtain ⟨found, authentic, below, adds⟩ := of_verifyAnchor anchored
    obtain ⟨behind, more⟩ := of_verifyRange done
    have pivotIn := (findHash_eq_some_iff.mp found).1
    have pivotValid := valid pivot pivotIn
    rw [before_of_ne_zero pivotValid] at below adds
    constructor
    · intro row inside
      have bound := sequence_le_lastBlock (mem_synced.mp inside).1 (mem_synced.mp inside).2
      obtain less | equal | greater := Nat.lt_trichotomy row.sequence pivot.sequence
      · exact below row (mem_between.mpr ⟨inside, Nat.pos_of_ne_zero (valid row inside), Nat.le_sub_one_of_lt less⟩)
      · have same := find_eq_some_iff.mpr ⟨inside, equal⟩
        rw [find_eq_some_iff.mpr ⟨pivotIn, rfl⟩] at same
        cases same
        exact authentic
      · exact behind row (mem_between.mpr ⟨inside, greater, bound⟩)
    · have ones := countP_around valid pivotValid
      have sums := sum_between records
        [(1, pivot.sequence - 1), (pivot.sequence, pivot.sequence), (pivot.sequence + 1, records.lastBlock.sequence)]
      rw [(Incidence.sum_eq_length_iff (Or.inl fun row inside => Nat.le_of_eq (ones row inside).symm)).mpr ones] at sums
      have alone : (records.between pivot.sequence pivot.sequence).length = 1 := by
        have present : (records.between pivot.sequence pivot.sequence).length =
            pivot.sequence + 1 - pivot.sequence := by
          apply length_between_of_present
          intro sequence inside
          obtain rfl : sequence = pivot.sequence := Nat.le_antisymm (Intervals.mem_range'_iff.mp inside).2
            (Intervals.mem_range'_iff.mp inside).1
          exact ⟨pivot, find_eq_some_iff.mpr ⟨pivotIn, rfl⟩⟩
        rw [present]
        exact Nat.add_sub_cancel_left _ _
      have all := adds.trans more
      rw [← sums, total, all.covered, ← verified, all.verified]
      simp only [List.map_cons, List.map_nil, List.sum_cons, List.sum_nil, alone, verified]
      omega

end HistoryVerifier

end SpSync
