import SpSync.Construction.Server.ChainLog
import SpSync.Proof.Core.Rows
import SpSync.Foundation.Budget

namespace SpSync.ChainLog

open Foundation

variable {lib : Securepath} {origin : PublicKeyId}

/-- The envelopes of the records in sync in the range, in sequence order. -/
def matching (log : ChainLog lib) (start stop : SequenceNumber) : List lib.Envelope :=
  let first := if start = 0 then 1 else start
  let last := if stop = 0 then log.head.sequence else stop
  (RecordStorage.bySequence (log.records.rows.filter fun row =>
    row.state = .inSync && first ≤ row.sequence && row.sequence ≤ last)).map envelopeOf

/-- The held assignments of the origin in the range, in origin sequence order. -/
def assigned (log : ChainLog lib) (origin : PublicKeyId) (first last : SequenceNumber) : List lib.Envelope :=
  (RecordStorage.byOriginSeq ((log.records.ofOrigin origin).filter fun row =>
    first ≤ row.originSeq && row.originSeq ≤ last)).filterMap Row.indexed

/-- A batch of the held envelopes: a prefix with at least two entries where there are two, in which
every entry from the third on stays within the budget. -/
structure WithoutHoles (held : List lib.Envelope) (max maxBytes : Nat) (batch : List lib.Envelope) : Prop where
  isPrefix : batch <+: held
  enough : min 2 (min max held.length) ≤ batch.length
  within : ∀ count, 2 < count → count ≤ batch.length → Budget.total envelopeCost (batch.take count) ≤ maxBytes

/-- The first records that fit and the first that does not leave no room for a later record. -/
def Tapers (held : List lib.Envelope) (max maxBytes : Nat) : Prop :=
  Budget.TaperedFrom envelopeCost maxBytes 2 (held.take max)

theorem foldl_appendWithinBudget (maxBytes : Nat) (envelopes : List lib.Envelope) :
    (envelopes.foldl (appendWithinBudget maxBytes) ([], 0)).1 = Budget.batch envelopeCost maxBytes 2 envelopes :=
  rfl

theorem get_eq (log : ChainLog lib) (start stop : SequenceNumber) (max maxBytes : Nat) :
    log.get start stop max maxBytes = Budget.batch envelopeCost maxBytes 2 ((log.matching start stop).take max) := by
  simp only [get, foldl_appendWithinBudget, RecordStorage.findRange, matching, List.map_take]

theorem indexed_of_mem_ofOrigin {storage : RecordStorage lib} {row : Row lib} (inside : row ∈ storage.ofOrigin origin) :
    ∃ envelope, row.indexed = some envelope := by
  simp only [RecordStorage.ofOrigin, List.mem_filter, Bool.and_eq_true, decide_eq_true_eq] at inside
  obtain ⟨-, ⟨-, same⟩, valid⟩ := inside
  cases indexed : row.indexed with
  | none => simp [Row.origin, indexed] at same; simp [← same] at valid
  | some envelope => exact ⟨envelope, rfl⟩

theorem filterMap_take {Item Value : Type} {value : Item → Option Value} {items : List Item}
    (present : ∀ item ∈ items, ∃ found, value item = some found) (count : Nat) :
    (items.take count).filterMap value = (items.filterMap value).take count := by
  induction items generalizing count with
  | nil => simp
  | cons item rest ih =>
    obtain ⟨found, valueEq⟩ := present item (by simp)
    cases count with
    | zero => simp
    | succ count =>
      simp only [List.take_succ_cons, List.filterMap_cons, valueEq, List.take_succ_cons]
      rw [ih fun other inside => present other (by simp [inside])]

theorem getByOrigin_eq (log : ChainLog lib) (origin : PublicKeyId) (first last : SequenceNumber)
    (max maxBytes : Nat) : log.getByOrigin origin first last max maxBytes =
      Budget.batch envelopeCost maxBytes 2 ((log.assigned origin first last).take max) := by
  rw [getByOrigin, foldl_appendWithinBudget, RecordStorage.findOriginAssignments, filterMap_take, assigned]
  intro row inside
  rw [RecordStorage.byOriginSeq, List.mem_insertionSort] at inside
  exact indexed_of_mem_ofOrigin (List.mem_of_mem_filter inside)

theorem mem_assigned_iff {log : ChainLog lib} {first last : SequenceNumber} {envelope : lib.Envelope} :
    envelope ∈ log.assigned origin first last ↔
      ∃ row ∈ log.records.ofOrigin origin, row.indexed = some envelope ∧ first ≤ envelope.block.sequence ∧
        envelope.block.sequence ≤ last := by
  simp only [assigned, List.mem_filterMap, RecordStorage.byOriginSeq, List.mem_insertionSort, List.mem_filter,
    Bool.and_eq_true, decide_eq_true_eq]
  constructor
  · intro found
    obtain ⟨row, ⟨inside, least, most⟩, indexed⟩ := found
    simp only [Row.originSeq, indexed, Option.elim_some] at least most
    exact ⟨row, inside, indexed, least, most⟩
  · intro found
    obtain ⟨row, inside, indexed, least, most⟩ := found
    exact ⟨row, ⟨inside, by simpa [Row.originSeq, indexed] using least, by simpa [Row.originSeq, indexed] using most⟩,
      indexed⟩

theorem sorted_assigned (log : ChainLog lib) (origin : PublicKeyId) (first last : SequenceNumber) :
    (log.assigned origin first last).Pairwise fun left right => left.block.sequence ≤ right.block.sequence := by
  unfold assigned
  rw [List.pairwise_filterMap]
  apply (RecordStorage.sorted_byOriginSeq _).imp
  intro left right ordered envelope indexed other otherIndexed
  simpa [Row.originSeq, indexed, otherIndexed] using ordered

/-- A batch has no holes exactly when the envelopes taper off where the budget ends. -/
theorem withoutHoles_batch_iff (held : List lib.Envelope) (max maxBytes : Nat) :
    WithoutHoles held max maxBytes (Budget.batch envelopeCost maxBytes 2 (held.take max)) ↔
      Tapers held max maxBytes := by
  have short : (Budget.batch envelopeCost maxBytes 2 (held.take max)).length ≤ max := by
    have taken := Budget.length_batch_le envelopeCost maxBytes 2 (held.take max)
    exact taken.trans (List.length_take_le max held)
  rw [Tapers, ← Budget.batch_prefix_iff, List.prefix_take_iff]
  constructor
  · intro holes
    exact ⟨holes.isPrefix, short⟩
  · rintro ⟨isPrefix, -⟩
    refine ⟨isPrefix, ?_, fun count after inside => Budget.batch_within 2 _ count after inside⟩
    simpa using Budget.length_batch envelopeCost maxBytes 2 (held.take max)

/-- The batches of a log have no holes exactly when no record fits after the first that does not. -/
theorem withoutHoles_iff (log : ChainLog lib) (start stop : SequenceNumber) (origin : PublicKeyId)
    (first last : SequenceNumber) (max maxBytes : Nat) :
    (WithoutHoles (log.matching start stop) max maxBytes (log.get start stop max maxBytes) ↔
      Tapers (log.matching start stop) max maxBytes) ∧
    (WithoutHoles (log.assigned origin first last) max maxBytes (log.getByOrigin origin first last max maxBytes) ↔
      Tapers (log.assigned origin first last) max maxBytes) := by
  rw [get_eq, getByOrigin_eq]
  exact ⟨withoutHoles_batch_iff _ max maxBytes, withoutHoles_batch_iff _ max maxBytes⟩

/-- The block of a record of the given length at the sequence. -/
def sizedBlock (size sequence : Nat) : Securepath.sample.Block :=
  ⟨(size, ⟨{}, .dataChange [], []⟩), ⟨[Fin.ofNat 256 sequence], none⟩, sequence, []⟩

/-- The row of a record of the given length, assigned by the server with key identifier 7. -/
def sizedRow (size sequence : Nat) : Row Securepath.sample where
  key := sequence
  tag := [Fin.ofNat 256 sequence]
  sequence := sequence
  hash := Securepath.sample.hash (sizedBlock size sequence)
  parentHash := []
  state := .inSync
  block := sizedBlock size sequence
  type := .dataChange
  opId := []
  assignment := some { envelope := ⟨sizedBlock size sequence, [7], 0, none⟩ }

/-- Two small records, a large one and a small one. -/
def unevenLog : ChainLog Securepath.sample :=
  load ⟨[sizedRow 0 1, sizedRow 0 2, sizedRow 100000 3, sizedRow 0 4], by decide⟩

/-- The third record exceeds the budget and the fourth is served without it. -/
theorem get_unevenLog_skips :
    (unevenLog.matching 1 4).map (fun envelope => envelope.block.sequence) = [1, 2, 3, 4] ∧
    (unevenLog.get 1 4 30 24576).map (fun envelope => envelope.block.sequence) = [1, 2, 4] ∧
    (unevenLog.getByOrigin [7] 1 4 30 24576).map (fun envelope => envelope.block.sequence) = [1, 2, 4] ∧
    ¬ unevenLog.get 1 4 30 24576 <+: unevenLog.matching 1 4 ∧
    ¬ unevenLog.getByOrigin [7] 1 4 30 24576 <+: unevenLog.assigned [7] 1 4 := by
  decide

end SpSync.ChainLog
