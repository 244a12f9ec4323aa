import SpSync.Construction.Core.RecordStorage
import SpSync.Foundation.Gaps
import SpSync.Foundation.Ranking

namespace SpSync

open Foundation

namespace RecordStorage

variable {lib : Securepath} {storage : RecordStorage lib} {start sequence : Nat}

/-- The sequence was not received although it is not above the highest received one. -/
def Missing (storage : RecordStorage lib) (sequence : SequenceNumber) : Prop :=
  (∃ row ∈ storage.rows, isReceived row = true ∧ sequence ≤ row.sequence) ∧
    ∀ row ∈ storage.rows, isReceived row = true → row.sequence ≠ sequence

theorem receives_eq_true_iff {sequence : SequenceNumber} :
    storage.receives sequence = true ↔ ∃ row ∈ storage.rows, isReceived row = true ∧ row.sequence = sequence := by
  unfold receives
  rw [List.any_eq_true]
  simp only [Bool.and_eq_true, decide_eq_true_eq]

/-- The highest sequence of some rows bounds exactly what one of them bounds. -/
theorem le_maxSequence_iff {rows : List (Row lib)} {condition : Row lib → Bool} (positive : sequence ≠ 0) :
    sequence ≤ maxSequence rows condition ↔ ∃ row ∈ rows, condition row = true ∧ sequence ≤ row.sequence := by
  have highest : maxSequence rows condition = Ranking.highest Row.sequence (rows.filter condition) := rfl
  rw [highest]
  constructor
  · intro below
    rw [Ranking.highest_eq] at below
    cases found : Ranking.newest Row.sequence (rows.filter condition) with
    | none =>
      rw [found] at below
      exact absurd (Nat.le_zero.mp below) positive
    | some row =>
      rw [found] at below
      obtain ⟨inside, holds⟩ := List.mem_filter.mp (Ranking.mem_of_newest found)
      exact ⟨row, inside, holds, below⟩
  · rintro ⟨row, inside, holds, below⟩
    exact Nat.le_trans below (Ranking.le_highest (List.mem_filter.mpr ⟨inside, holds⟩))

/-- The gaps from the start up to the highest received sequence. -/
def gaps (storage : RecordStorage lib) (start : Nat) : Set Nat :=
  Gaps.missing (fun sequence => storage.receives sequence = true) start (maxSequence storage.rows isReceived)

theorem mem_gaps_iff (valid : start ≠ 0) :
    sequence ∈ storage.gaps start ↔ start ≤ sequence ∧ storage.Missing sequence := by
  refine and_congr_right fun above => and_congr (le_maxSequence_iff (by omega)) ?_
  dsimp only
  rw [receives_eq_true_iff]
  push Not
  rfl

/-- The rows after which a sequence is missing. -/
def runEnds (storage : RecordStorage lib) (start : SequenceNumber) : List (Row lib) :=
  storage.rows.filter fun row => isReceived row && start ≤ row.sequence &&
    row.sequence < maxSequence storage.rows isReceived && !storage.receives (row.sequence + 1)

theorem mem_runEnds {start : SequenceNumber} {row : Row lib} :
    row ∈ storage.runEnds start ↔ row ∈ storage.rows ∧ isReceived row = true ∧ start ≤ row.sequence ∧
      row.sequence < maxSequence storage.rows isReceived ∧ storage.receives (row.sequence + 1) ≠ true := by
  simp only [runEnds, List.mem_filter, Bool.and_eq_true, decide_eq_true_eq, Bool.not_eq_true', ne_eq,
    Bool.not_eq_true, and_assoc]

/-- The sequences of these rows are the ends of the received runs. -/
theorem mem_ends_iff :
    sequence ∈ Gaps.ends (fun sequence => storage.receives sequence = true) start
        (maxSequence storage.rows isReceived) ↔
      ∃ row ∈ storage.runEnds start, row.sequence = sequence := by
  constructor
  · rintro ⟨above, below, there, gone⟩
    obtain ⟨row, inside, received, rfl⟩ := receives_eq_true_iff.mp there
    exact ⟨row, mem_runEnds.mpr ⟨inside, received, above, below, gone⟩, rfl⟩
  · rintro ⟨row, isEnd, rfl⟩
    obtain ⟨inside, received, above, below, gone⟩ := mem_runEnds.mp isEnd
    exact ⟨above, below, receives_eq_true_iff.mpr ⟨row, inside, received, rfl⟩, gone⟩

/-- The search from a received sequence ends at the first row after which one is missing. -/
theorem runEnds_search (begins : storage.receives start = true) :
    IsLeast (storage.gaps start)
      ((Ranking.inOrder Row.sequence (storage.runEnds start)).head?.elim 0 fun row => row.sequence + 1) ∨
    storage.gaps start = ∅ ∧
      ((Ranking.inOrder Row.sequence (storage.runEnds start)).head?.elim 0 fun row => row.sequence + 1) = 0 := by
  cases found : (Ranking.inOrder Row.sequence (storage.runEnds start)).head? with
  | none =>
    refine .inr ⟨Gaps.missing_empty begins (Set.eq_empty_of_forall_notMem fun sequence isEnd => ?_), rfl⟩
    obtain ⟨row, inside, -⟩ := mem_ends_iff.mp isEnd
    have ordered : row ∈ Ranking.inOrder Row.sequence (storage.runEnds start) := Ranking.mem_inOrder.mpr inside
    rw [List.head?_eq_none_iff.mp found] at ordered
    exact absurd ordered List.not_mem_nil
  | some row =>
    obtain ⟨inside, lowest⟩ := Ranking.lowest_of_head found
    refine .inl (Gaps.isLeast_missing begins ⟨mem_ends_iff.mpr ⟨row, inside, rfl⟩, fun sequence isEnd => ?_⟩)
    obtain ⟨other, among, rfl⟩ := mem_ends_iff.mp isEnd
    exact lowest other among

/-- The search finds the first gap, or there is none. -/
theorem firstMissingSequence_cases (storage : RecordStorage lib) (valid : start ≠ 0) :
    IsLeast (storage.gaps start) (storage.firstMissingSequence start) ∨
      storage.gaps start = ∅ ∧ storage.firstMissingSequence start = 0 := by
  unfold firstMissingSequence
  by_cases below : start ≤ maxSequence storage.rows isReceived
  · rw [if_pos (by simp [valid, below])]
    by_cases begins : storage.receives start = true
    · rw [if_pos begins]
      exact runEnds_search begins
    · rw [if_neg begins]
      exact .inl ⟨⟨Nat.le_refl start, below, begins⟩, fun sequence absent => absent.1⟩
  · rw [if_neg (by simp [below])]
    refine .inr ⟨Set.eq_empty_of_forall_notMem fun sequence absent => ?_, rfl⟩
    exact below (Nat.le_trans absent.1 absent.2.1)

/-- The search from a valid sequence finds the least missing one, and is invalid when there is none. -/
theorem firstMissingSequence_exact (storage : RecordStorage lib) (start : SequenceNumber) (valid : start ≠ 0) :
    ((∃ sequence ≥ start, storage.Missing sequence) →
      IsLeast { sequence | start ≤ sequence ∧ storage.Missing sequence } (storage.firstMissingSequence start)) ∧
    ((∀ sequence ≥ start, ¬ storage.Missing sequence) → storage.firstMissingSequence start = 0) ∧
    ((∀ row ∈ storage.rows, isReceived row = true → row.sequence < start) →
      storage.firstMissingSequence start = 0) := by
  have same : storage.gaps start = { sequence | start ≤ sequence ∧ storage.Missing sequence } := by
    ext sequence
    exact mem_gaps_iff valid
  have search := storage.firstMissingSequence_cases valid
  rw [same] at search
  have invalid : (∀ sequence ≥ start, ¬ storage.Missing sequence) → storage.firstMissingSequence start = 0 := by
    intro complete
    obtain ⟨⟨above, absent⟩, -⟩ | ⟨-, zero⟩ := search
    · exact absurd absent (complete _ above)
    · exact zero
  refine ⟨fun ⟨sequence, above, absent⟩ => ?_, invalid, fun early => invalid fun sequence above absent => ?_⟩
  · refine search.resolve_right fun ⟨empty, _⟩ => ?_
    exact Set.eq_empty_iff_forall_notMem.mp empty sequence ⟨above, absent⟩
  · obtain ⟨⟨row, inside, received, below⟩, -⟩ := absent
    exact absurd (Nat.le_trans above below) (Nat.not_le_of_lt (early row inside received))

/-- A record that was received, or waits to be sent, at a sequence. -/
def rowAt (key sequence : Nat) (state : RecordState) : Row .sample where
  key := key
  tag := [Fin.ofNat 256 key]
  sequence := sequence
  hash := [Fin.ofNat 256 key]
  parentHash := []
  state := state
  block := ⟨(1, ⟨{}, .dataChange [], [[]]⟩), ⟨[Fin.ofNat 256 key], none⟩, sequence, []⟩
  type := .dataChange
  opId := []

/-- Sequence two is there twice, four only as a pending commit, and six is the highest. -/
def sparseStorage : RecordStorage .sample where
  rows := [rowAt 1 1 .inSync, rowAt 2 2 .inSync, rowAt 3 2 .pendingSync, rowAt 4 3 .acked, rowAt 5 4 .pendingCommit,
    rowAt 6 6 .pendingSync]
  unique := by decide

theorem firstMissingSequence_exact_sparse :
    sparseStorage.firstMissingSequence 1 = 4 ∧
      IsLeast { sequence | 1 ≤ sequence ∧ sparseStorage.Missing sequence } 4 := by
  have found : sparseStorage.firstMissingSequence 1 = 4 := by decide +kernel
  have absent : sparseStorage.Missing 4 := ⟨⟨rowAt 6 6 .pendingSync, by decide, by decide, by decide⟩, by decide⟩
  obtain ⟨least, -⟩ := sparseStorage.firstMissingSequence_exact 1 (by decide)
  rw [found] at least
  exact ⟨found, least ⟨4, by decide, absent⟩⟩

end RecordStorage

end SpSync
