import SpSync.Proof.Core.Rows

namespace SpSync

open Foundation

variable {lib : Securepath}

/-- What a record in sync is on every server and client that holds it. -/
structure ChainEntry (lib : Securepath) where
  tag : RecordTag
  sequence : SequenceNumber
  hash : Octets
  record : lib.Blob
  type : RecordType
deriving DecidableEq

def ChainEntry.objects (entry : ChainEntry lib) : List PlainSingleChangeData :=
  match (lib.deserialise entry.record).map Record.body with
  | some (.dataChange changes) => changes
  | _ => []

def Row.entry (row : Row lib) : ChainEntry lib :=
  ⟨row.tag, row.sequence, row.hash, row.block.record, row.type⟩

/-- Rows with one entry have one tag and one record. -/
theorem Row.entry_cases {left right : Option (Row lib)} (same : left.map Row.entry = right.map Row.entry) :
    (left = none ∧ right = none) ∨
      ∃ row other, left = some row ∧ right = some other ∧ other.tag = row.tag ∧ other.block.record = row.block.record := by
  cases left with
  | none => exact Or.inl ⟨rfl, Option.map_eq_none_iff.mp same.symm⟩
  | some row =>
    obtain ⟨other, found, entry⟩ := Option.map_eq_some_iff.mp same.symm
    exact Or.inr ⟨row, other, rfl, found, congrArg ChainEntry.tag entry, congrArg ChainEntry.record entry⟩

namespace RecordStorage

/-- The rows in sync that satisfy the condition. -/
def inSyncRows (records : RecordStorage lib) (condition : ChainEntry lib → Bool) : List (Row lib) :=
  records.rows.filter fun row => row.state = .inSync && condition row.entry

/-- The records in sync. -/
def chain (records : RecordStorage lib) : List (ChainEntry lib) :=
  (records.rows.filter fun row => row.state = .inSync).map Row.entry

/-- Both tables hold the same records in sync. -/
def Mirrors (left right : RecordStorage lib) : Prop :=
  ∀ entry, entry ∈ left.chain ↔ entry ∈ right.chain

/-- The newest record in sync that satisfies the condition. -/
def newest (records : RecordStorage lib) (condition : ChainEntry lib → Bool) : Option (Row lib) :=
  Ranking.newest Row.sequence (records.inSyncRows condition)

variable {left right records : RecordStorage lib} {condition : ChainEntry lib → Bool} {row : Row lib}

theorem mem_inSyncRows :
    row ∈ records.inSyncRows condition ↔ row ∈ records.rows ∧ row.state = .inSync ∧ condition row.entry = true := by
  simp [inSyncRows]

theorem mem_chain {entry : ChainEntry lib} :
    entry ∈ records.chain ↔ ∃ row ∈ records.rows, row.state = .inSync ∧ row.entry = entry := by
  simp [chain, and_assoc]

theorem inSyncRows_nodup (records : RecordStorage lib) (condition : ChainEntry lib → Bool) :
    ((records.inSyncRows condition).map Row.sequence).Nodup :=
  sequence_nodup List.filter_sublist fun _ inside => (mem_inSyncRows.mp inside).2.1

/-- The newest row that meets the condition is the highest of them. -/
theorem newest_eq_some_iff : records.newest condition = some row ↔
    (row ∈ records.rows ∧ row.state = .inSync ∧ condition row.entry = true) ∧
      ∀ other ∈ records.rows, other.state = .inSync → condition other.entry = true →
        other.sequence ≤ row.sequence := by
  unfold newest
  rw [Ranking.newest_eq_some_iff (records.inSyncRows_nodup condition)]
  simp only [mem_inSyncRows, and_imp]

/-- There is none when no synced row meets it. -/
theorem newest_eq_none_iff : records.newest condition = none ↔
    ∀ row ∈ records.rows, row.state = .inSync → condition row.entry = false := by
  unfold newest
  rw [Ranking.newest_eq_none_iff, List.eq_nil_iff_forall_not_mem]
  simp only [mem_inSyncRows, not_and, Bool.not_eq_true]

variable (records)

theorem maxSequence_eq (condition : ChainEntry lib → Bool) :
    maxSequence records.rows (fun row => row.state = .inSync && condition row.entry) =
      (records.newest condition).elim 0 Row.sequence :=
  Ranking.highest_eq _

theorem findLast_eq : records.findLast = records.newest fun _ => true := by
  have candidates : (isHeadCandidate false : Row lib → Bool) = fun row => row.state = .inSync && true := by
    funext row
    simp [isHeadCandidate]
  unfold findLast
  rw [candidates, records.maxSequence_eq fun _ => true]
  cases found : records.newest fun _ => true with
  | none =>
    rw [List.getLast?_eq_none_iff, List.filter_eq_nil_iff]
    intro row inside
    have outside := newest_eq_none_iff.mp found row inside
    by_cases inSync : row.state = .inSync
    · exact absurd (outside inSync) (by simp)
    · simp [inSync]
  | some top =>
    obtain ⟨⟨topIn, topInSync, _⟩, _⟩ := newest_eq_some_iff.mp found
    cases last : (records.rows.filter fun row => (row.state = .inSync && true) &&
        row.sequence = (some top).elim 0 Row.sequence).getLast? with
    | none =>
      rw [List.getLast?_eq_none_iff, List.filter_eq_nil_iff] at last
      exact absurd (by simp [topInSync]) (last top topIn)
    | some row =>
      have inside := List.mem_filter.mp (List.mem_of_getLast? last)
      simp only [Bool.and_true, Bool.and_eq_true, decide_eq_true_eq, Option.elim_some] at inside
      rw [row_eq_of_sequence inside.1 topIn inside.2.1 topInSync (of_decide_eq_true inside.2.2)]

theorem lastBlock_eq : records.lastBlock = (records.newest fun _ => true).elim {} Row.blockId := by
  rw [lastBlock, findLast_eq]

variable {records}

/-- No record in sync is beyond the last block. -/
theorem sequence_le_lastBlock (inside : row ∈ records.rows) (inSync : row.state = .inSync) :
    row.sequence ≤ records.lastBlock.sequence := by
  rw [lastBlock_eq]
  cases last : records.newest fun _ => true with
  | none => simpa using newest_eq_none_iff.mp last row inside inSync
  | some top => exact (newest_eq_some_iff.mp last).2 row inside inSync rfl

variable (records)

theorem newest_le_lastBlock (condition : ChainEntry lib → Bool) :
    (records.newest condition).elim 0 Row.sequence ≤ records.lastBlock.sequence := by
  cases found : records.newest condition with
  | none => exact Nat.zero_le _
  | some row =>
    obtain ⟨⟨inside, inSync, _⟩, _⟩ := newest_eq_some_iff.mp found
    exact sequence_le_lastBlock inside inSync

theorem lastSpecialSequence_eq : records.lastSpecialSequence =
    (records.newest fun entry => entry.type = .userChange || entry.type = .segment).elim 0 Row.sequence :=
  records.maxSequence_eq fun entry => entry.type = .userChange || entry.type = .segment

theorem lastDataAddSequence_eq : records.lastDataAddSequence =
    (records.newest fun entry => entry.objects.any fun change => change.previousOidRecordTag = []).elim 0
      Row.sequence :=
  records.maxSequence_eq fun entry => entry.objects.any fun change => change.previousOidRecordTag = []

theorem findLastObject_eq (oid : ObjectId) : records.findLastObject oid =
    records.newest fun entry => entry.objects.any fun change => change.id = oid := rfl

theorem findLastOfType_eq (type : RecordType) :
    records.findLastOfType type = records.newest fun entry => entry.type = type := rfl

theorem find_inSync_eq (sequence : SequenceNumber) :
    records.find sequence .inSync = records.newest fun entry => entry.sequence = sequence := by
  symm
  cases found : records.find sequence .inSync with
  | none =>
    rw [newest_eq_none_iff]
    intro row inside inSync
    have apart := List.find?_eq_none.mp found row inside
    simp only [inSync, decide_true, Bool.and_true, decide_eq_true_eq] at apart
    exact decide_eq_false apart
  | some row =>
    have holds := List.find?_some found
    simp only [Bool.and_eq_true, decide_eq_true_eq] at holds
    refine newest_eq_some_iff.mpr ⟨⟨List.mem_of_find?_eq_some found, holds.2, decide_eq_true holds.1⟩, ?_⟩
    intro other _ _ same
    exact Nat.le_of_eq ((of_decide_eq_true same).trans holds.1.symm)

variable {records}

/-- A new row above all others is the newest one where it satisfies the condition. -/
theorem newest_append {grown : RecordStorage lib} (rows : grown.rows = records.rows ++ [row])
    (inSync : row.state = .inSync)
    (above : ∀ other ∈ records.rows, other.state = .inSync → other.sequence ≤ row.sequence)
    (condition : ChainEntry lib → Bool) :
    grown.newest condition = if condition row.entry = true then some row else records.newest condition := by
  split
  · rename_i meets
    refine newest_eq_some_iff.mpr ⟨⟨by simp [rows], inSync, meets⟩, ?_⟩
    intro other otherIn otherInSync _
    rw [rows, List.mem_append, List.mem_singleton] at otherIn
    obtain old | rfl := otherIn
    · exact above other old otherInSync
    · exact Nat.le_refl _
  · rename_i misses
    unfold newest inSyncRows
    rw [rows, List.filter_append]
    simp [misses]

/-- Rows that go while the newest one stays leave the newest one. -/
theorem newest_of_kept {kept : RecordStorage lib} (sub : ∀ row ∈ kept.rows, row ∈ records.rows)
    (stays : ∀ row, records.newest condition = some row → row ∈ kept.rows) :
    kept.newest condition = records.newest condition := by
  cases found : records.newest condition with
  | none =>
    rw [newest_eq_none_iff] at found ⊢
    exact fun row inside => found row (sub row inside)
  | some row =>
    obtain ⟨⟨_, inSync, meets⟩, above⟩ := newest_eq_some_iff.mp found
    exact newest_eq_some_iff.mpr ⟨⟨stays row found, inSync, meets⟩, fun other inside => above other (sub other inside)⟩

/-- The records in sync of the older table are in sync in the newer one. -/
def Includes (newer older : RecordStorage lib) : Prop :=
  ∀ entry ∈ older.chain, entry ∈ newer.chain

theorem mem_inSyncRows_map {entry : ChainEntry lib} :
    entry ∈ (records.inSyncRows condition).map Row.entry ↔ entry ∈ records.chain ∧ condition entry = true := by
  rw [List.mem_map, mem_chain]
  constructor
  · intro found
    obtain ⟨row, inside, rfl⟩ := found
    obtain ⟨rowIn, inSync, meets⟩ := mem_inSyncRows.mp inside
    exact ⟨⟨row, rowIn, inSync, rfl⟩, meets⟩
  · intro found
    obtain ⟨⟨row, rowIn, inSync, rfl⟩, meets⟩ := found
    exact ⟨row, mem_inSyncRows.mpr ⟨rowIn, inSync, meets⟩, rfl⟩

/-- The records in sync that satisfy the condition, in the order of their sequences. -/
def ordered (records : RecordStorage lib) (condition : ChainEntry lib → Bool) : List (ChainEntry lib) :=
  (Ranking.inOrder Row.sequence (records.inSyncRows condition)).map Row.entry

theorem mem_ordered {entry : ChainEntry lib} :
    entry ∈ records.ordered condition ↔ entry ∈ records.chain ∧ condition entry = true := by
  rw [← mem_inSyncRows_map]
  simp only [ordered, List.mem_map, Ranking.mem_inOrder]

/-- The ordered entries rise strictly. -/
theorem ordered_strict (records : RecordStorage lib) (condition : ChainEntry lib → Bool) :
    (records.ordered condition).Pairwise fun first second => first.sequence < second.sequence :=
  Ranking.strict_inOrder (fun _ => rfl) (records.inSyncRows_nodup condition)

theorem tagsInRange_eq (records : RecordStorage lib) (first last : SequenceNumber) :
    records.tagsInRange first last = (records.ordered fun entry =>
      first ≤ entry.sequence && entry.sequence ≤ last).map ChainEntry.tag := by
  unfold ordered
  rw [List.map_map]
  unfold tagsInRange bySequence Ranking.inOrder inSyncRows
  simp only [Bool.and_assoc]
  rfl

/-- Two records in sync with one tag are the same record. -/
theorem entry_eq_of_tag {first second : ChainEntry lib} (firstIn : first ∈ records.chain)
    (secondIn : second ∈ records.chain) (same : first.tag = second.tag) : first = second := by
  obtain ⟨row, rowIn, _, rfl⟩ := mem_chain.mp firstIn
  obtain ⟨other, otherIn, _, rfl⟩ := mem_chain.mp secondIn
  rw [row_eq_of_tag rowIn otherIn same]

/-- An older table lists a record of the newer one exactly when it has it. -/
theorem Includes.mem_tagsInRange_iff (includes : right.Includes left) {entry : ChainEntry lib} {first last : SequenceNumber}
    (inside : entry ∈ right.chain) (low : first ≤ entry.sequence) (high : entry.sequence ≤ last) :
    entry.tag ∈ left.tagsInRange first last ↔ entry ∈ left.chain := by
  rw [tagsInRange_eq, List.mem_map]
  constructor
  · intro found
    obtain ⟨other, otherIn, same⟩ := found
    have old := (mem_ordered.mp otherIn).1
    rwa [← entry_eq_of_tag (includes _ old) inside same]
  · intro old
    exact ⟨entry, mem_ordered.mpr ⟨old, by simp [low, high]⟩, rfl⟩

/-- An older table lists the same tags exactly where it has all records of the range. -/
theorem Includes.tagsInRange_eq_iff (includes : right.Includes left) (first last : SequenceNumber) :
    left.tagsInRange first last = right.tagsInRange first last ↔
      ∀ entry ∈ right.chain, first ≤ entry.sequence → entry.sequence ≤ last → entry ∈ left.chain := by
  constructor
  · intro same entry inside low high
    have itself : right.Includes right := fun _ => id
    rw [← includes.mem_tagsInRange_iff inside low high, same, itself.mem_tagsInRange_iff inside low high]
    exact inside
  · intro covered
    rw [tagsInRange_eq, tagsInRange_eq]
    congr 1
    refine Ranking.eq_of_strict (left.ordered_strict _) (right.ordered_strict _) fun entry => ?_
    rw [mem_ordered, mem_ordered]
    constructor
    · intro old
      exact ⟨includes entry old.1, old.2⟩
    intro inside
    have bounds := inside.2
    simp only [Bool.and_eq_true, decide_eq_true_eq] at bounds
    exact ⟨covered entry inside.1 bounds.1 bounds.2, inside.2⟩

/-- The same, by the tags that the older table lists. -/
theorem Includes.tagsInRange_eq_iff_listed (includes : right.Includes left) (first last : SequenceNumber) :
    left.tagsInRange first last = right.tagsInRange first last ↔ ∀ row ∈ right.rows, row.state = .inSync →
      first ≤ row.sequence → row.sequence ≤ last → row.tag ∈ left.tagsInRange first last := by
  rw [includes.tagsInRange_eq_iff]
  constructor
  · intro covered row inside inSync low high
    have known := mem_chain.mpr ⟨row, inside, inSync, rfl⟩
    exact (includes.mem_tagsInRange_iff known low high).mpr (covered row.entry known low high)
  · intro covered entry known low high
    refine (includes.mem_tagsInRange_iff known low high).mp ?_
    obtain ⟨row, inside, inSync, rfl⟩ := mem_chain.mp known
    exact covered row inside inSync low high

/-- The last block does not go back. -/
theorem Includes.lastBlock_le (includes : right.Includes left) : left.lastBlock.sequence ≤ right.lastBlock.sequence := by
  rw [lastBlock_eq left]
  cases last : left.newest fun _ => true with
  | none => exact Nat.zero_le _
  | some row =>
    obtain ⟨⟨inside, inSync, _⟩, _⟩ := newest_eq_some_iff.mp last
    obtain ⟨kept, keptIn, keptInSync, same⟩ := mem_chain.mp (includes _ (mem_chain.mpr ⟨row, inside, inSync, rfl⟩))
    have sequence : kept.sequence = row.sequence := congrArg ChainEntry.sequence same
    have below := sequence_le_lastBlock keptIn keptInSync
    rw [sequence] at below
    exact below

theorem Mirrors.refl (records : RecordStorage lib) : records.Mirrors records :=
  fun _ => Iff.rfl

theorem Mirrors.trans {middle : RecordStorage lib} (first : left.Mirrors middle) (second : middle.Mirrors right) :
    left.Mirrors right :=
  fun entry => (first entry).trans (second entry)

/-- A change of a row outside the chain leaves the chain. -/
theorem Replaces.mirrors {before after : RecordStorage lib} {next : Row lib}
    (replaces : Replaces before after row next) (rowOutside : row.state ≠ .inSync)
    (nextOutside : next.state ≠ .inSync) : after.Mirrors before := by
  intro entry
  rw [mem_chain, mem_chain]
  constructor
  · intro found
    obtain ⟨other, inside, inSync, same⟩ := found
    obtain ⟨before, _⟩ | rfl := replaces.mem_iff.mp inside
    · exact ⟨other, before, inSync, same⟩
    · exact absurd inSync nextOutside
  · intro found
    obtain ⟨other, inside, inSync, same⟩ := found
    refine ⟨other, replaces.mem_iff.mpr (Or.inl ⟨inside, ?_⟩), inSync, same⟩
    rintro rfl
    exact rowOutside inSync

namespace Mirrors

variable (mirrors : left.Mirrors right)
include mirrors

theorem includes : right.Includes left :=
  fun entry => (mirrors entry).mp

/-- Mirrors have the same newest entry. -/
theorem newest_eq (condition : ChainEntry lib → Bool) :
    (left.newest condition).map Row.entry = (right.newest condition).map Row.entry := by
  have ranks : ∀ row : Row lib, row.sequence = ChainEntry.sequence row.entry := fun _ => rfl
  refine Ranking.newest_view_eq ranks (left.inSyncRows_nodup condition) (right.inSyncRows_nodup condition) ?_
  intro entry
  rw [mem_inSyncRows_map, mem_inSyncRows_map, mirrors entry]

theorem newest_elim_eq {A : Type} (condition : ChainEntry lib → Bool) (absent : A) (view : ChainEntry lib → A) :
    (left.newest condition).elim absent (fun row => view row.entry) =
      (right.newest condition).elim absent fun row => view row.entry := by
  have views : ∀ records : RecordStorage lib, (records.newest condition).elim absent (fun row => view row.entry) =
      ((records.newest condition).map Row.entry).elim absent view := by
    intro records
    cases records.newest condition <;> rfl
  rw [views, views, mirrors.newest_eq condition]

theorem lastBlock_eq : left.lastBlock = right.lastBlock := by
  rw [left.lastBlock_eq, right.lastBlock_eq]
  exact mirrors.newest_elim_eq (fun _ => true) {} fun entry => ChainBlockId.mk entry.sequence entry.hash

theorem find_eq (sequence : SequenceNumber) :
    (left.find sequence .inSync).map Row.entry = (right.find sequence .inSync).map Row.entry := by
  rw [find_inSync_eq, find_inSync_eq]
  exact mirrors.newest_eq _

theorem lastSpecialSequence_eq : left.lastSpecialSequence = right.lastSpecialSequence := by
  rw [left.lastSpecialSequence_eq, right.lastSpecialSequence_eq]
  exact mirrors.newest_elim_eq _ _ ChainEntry.sequence

theorem lastDataAddSequence_eq : left.lastDataAddSequence = right.lastDataAddSequence := by
  rw [left.lastDataAddSequence_eq, right.lastDataAddSequence_eq]
  exact mirrors.newest_elim_eq _ _ ChainEntry.sequence

theorem findLastObject_eq (oid : ObjectId) :
    (left.findLastObject oid).map Row.entry = (right.findLastObject oid).map Row.entry := by
  rw [left.findLastObject_eq, right.findLastObject_eq]
  exact mirrors.newest_eq _

theorem findLastOfType_eq (type : RecordType) :
    (left.findLastOfType type).map Row.entry = (right.findLastOfType type).map Row.entry := by
  rw [left.findLastOfType_eq, right.findLastOfType_eq]
  exact mirrors.newest_eq _

theorem tagsInRange_eq (first last : SequenceNumber) : left.tagsInRange first last = right.tagsInRange first last :=
  (mirrors.includes.tagsInRange_eq_iff first last).mpr fun entry inside _ _ => (mirrors entry).mpr inside

end Mirrors

end RecordStorage

end SpSync
