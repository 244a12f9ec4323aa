import Mathlib.Data.Finset.Card
import SpSync.Proof.Engine.PumpTurns

namespace SpSync

open Foundation RecordStorage

variable {lib : Securepath}

namespace RecordStorage

/-- The keys of the rows that wait for their commit. -/
def pendingKeys (records : RecordStorage lib) : Finset Nat :=
  ((records.rows.filter fun row => row.state = .pendingCommit).map Row.key).toFinset

variable {records updated : RecordStorage lib} {row next other : Row lib}

theorem card_pendingKeys_le (records : RecordStorage lib) : records.pendingKeys.card ≤ records.rows.length := by
  apply (List.toFinset_card_le _).trans
  rw [List.length_map]
  exact List.length_filter_le _ _

theorem mem_pendingKeys {key : Nat} :
    key ∈ records.pendingKeys ↔ ∃ row ∈ records.rows, row.state = .pendingCommit ∧ row.key = key := by
  simp [pendingKeys, and_assoc]

/-- A row that still waits leaves the keys. -/
theorem Replaces.pendingKeys_eq (replaces : Replaces records updated row next) (key : next.key = row.key)
    (waited : row.state = .pendingCommit) (waits : next.state = .pendingCommit) :
    updated.pendingKeys = records.pendingKeys := by
  ext place
  rw [mem_pendingKeys, mem_pendingKeys]
  constructor
  · rintro ⟨other, inside, waiting, rfl⟩
    obtain ⟨before, -⟩ | rfl := replaces.mem_iff.mp inside
    · exact ⟨other, before, waiting, rfl⟩
    · exact ⟨row, replaces.inside, waited, key.symm⟩
  · rintro ⟨other, inside, waiting, rfl⟩
    by_cases same : other = row
    · exact ⟨next, replaces.mem_iff.mpr (.inr rfl), waits, by rw [same, key]⟩
    · exact ⟨other, replaces.mem_iff.mpr (.inl ⟨inside, same⟩), waiting, rfl⟩

/-- A dropped row loses its key. -/
theorem Replaces.card_pendingKeys_lt (replaces : Replaces records updated row { row with state := .invalid })
    (waited : row.state = .pendingCommit) : updated.pendingKeys.card < records.pendingKeys.card := by
  apply Finset.card_lt_card
  refine (Finset.ssubset_iff_of_subset ?_).mpr ⟨row.key, mem_pendingKeys.mpr ⟨row, replaces.inside, waited, rfl⟩, ?_⟩
  · intro place there
    obtain ⟨other, inside, waiting, rfl⟩ := mem_pendingKeys.mp there
    obtain ⟨before, -⟩ | rfl := replaces.mem_iff.mp inside
    · exact mem_pendingKeys.mpr ⟨other, before, waiting, rfl⟩
    · cases waiting
  · intro there
    obtain ⟨other, inside, waiting, same⟩ := mem_pendingKeys.mp there
    obtain ⟨before, apart⟩ | rfl := replaces.mem_iff.mp inside
    · exact apart (row_eq_of_key before replaces.inside same)
    · cases waiting

/-- A row that is found by its place in the table is the first of its kind. -/
theorem le_of_find {condition : Row lib → Bool} (found : records.rows.find? condition = some row)
    (inside : other ∈ records.rows) (holds : condition other = true) : row.key ≤ other.key := by
  obtain ⟨-, before, after, split, none⟩ := List.find?_eq_some_iff_append.mp found
  have ordered := records.unique.keys
  rw [split] at inside ordered
  obtain early | late := List.mem_append.mp inside
  · exact absurd holds (by simpa using none other early)
  · obtain rfl | later := List.mem_cons.mp late
    · exact Nat.le_refl _
    · exact ((List.pairwise_cons.mp (List.pairwise_append.mp ordered).2.1).1 other later).le

end RecordStorage

namespace Engine

variable {start engine reached : Engine lib} {row current : Row lib} {next : Option (Row lib)} {bound : Nat}

/-- The pending rows before the handle, or all of them, were refused in the form that they have. -/
def Refused (engine : Engine lib) (first : Option (Row lib)) : Prop :=
  ∀ other, engine.Pending other → (∀ row, first = some row → other.key < row.key) →
    engine.isRejectedUnchanged other = true

theorem refused_findFirst (engine : Engine lib) : engine.Refused engine.records.findFirstPendingCommit := by
  intro other pending before
  exfalso
  cases found : engine.records.findFirstPendingCommit with
  | none => exact List.find?_eq_none.mp found other pending.1 (decide_eq_true pending.2)
  | some row =>
    have lowest := le_of_find found pending.1 (decide_eq_true pending.2)
    have below := before row found
    omega

/-- The pump has sent nothing yet, and all that it went past was refused. -/
structure Unsent (start : Engine lib) (first : Option (Row lib)) (engine : Engine lib) : Prop where
  pending : ∀ row, first = some row → engine.Pending row
  refused : engine.Refused first
  requests : engine.requests = start.requests
  marks : engine.rejectedPending = start.rejectedPending
  unsuspected : engine.forkSuspected = false

/-- The pump has sent the row. -/
structure Sent (start final : Engine lib) (handle : Nat) (row : Row lib) : Prop where
  asked : final.requests = start.requests ++ [(handle, .commit row.block)]
  pending : final.Pending row
  fresh : final.isRejectedUnchanged row = false
  refused : final.Refused (some row)
  marks : final.rejectedPending = start.rejectedPending

theorem isRejectedUnchanged_congr (marks : reached.rejectedPending = engine.rejectedPending) (row : Row lib) :
    reached.isRejectedUnchanged row = engine.isRejectedUnchanged row := by
  unfold isRejectedUnchanged
  rw [marks]

/-- The rows before a reworked one keep their form and their marks. -/
theorem Reworks.refused (reworks : engine.Reworks row current reached) (key : current.key = row.key)
    (refused : engine.Refused (some row)) : reached.Refused (some current) := by
  rintro other ⟨inside, waiting⟩ before
  have below := before current rfl
  obtain ⟨otherIn, -⟩ | rfl := reworks.replaces.mem_iff.mp inside
  · rw [isRejectedUnchanged_congr reworks.marks]
    apply refused other ⟨otherIn, waiting⟩
    intro next found
    rwa [← Option.some.inj found, ← key]
  · exact absurd below (Nat.lt_irrefl _)

/-- The pump goes past a refused row. -/
theorem Refused.skip (refused : engine.Refused (some row)) (inside : row ∈ engine.records.rows)
    (rejected : engine.isRejectedUnchanged row = true) :
    engine.Refused (engine.records.findNextPendingCommit row.key) := by
  rintro other ⟨otherIn, waiting⟩ before
  obtain below | same | above := Nat.lt_trichotomy other.key row.key
  · exact refused other ⟨otherIn, waiting⟩ fun next found => Option.some.inj found ▸ below
  · rwa [row_eq_of_key otherIn inside same]
  · exfalso
    have holds : (decide (other.state = .pendingCommit) && decide (row.key < other.key)) = true := by
      rw [decide_eq_true waiting, decide_eq_true above]
      rfl
    cases found : engine.records.findNextPendingCommit row.key with
    | none => exact List.find?_eq_none.mp found other otherIn holds
    | some next =>
      have lowest := le_of_find found otherIn holds
      have below := before next found
      omega

/-- What one turn keeps: nothing is sent, or the pump is done. -/
theorem Unsent.turn (unsent : start.Unsent (some row) engine) (turned : engine.Turned row next reached) :
    start.Unsent next reached ∨ next = none ∧ ∃ handle sent, start.Sent reached handle sent := by
  cases turned with
  | drop reworks =>
    exact .inl ⟨fun _ => pending_of_findFirst, refused_findFirst reached, reworks.requests.trans unsent.requests,
      reworks.marks.trans unsent.marks, reworks.suspected.trans unsent.unsuspected⟩
  | skip reworks key waits rejected =>
    have inside := reworks.replaces.mem_iff.mpr (.inr rfl)
    exact .inl ⟨fun _ => pending_of_findNext, (reworks.refused key unsent.refused).skip inside rejected,
      reworks.requests.trans unsent.requests, reworks.marks.trans unsent.marks,
      reworks.suspected.trans unsent.unsuspected⟩
  | send reworks key waits fresh =>
    rename_i current middle
    have inside := reworks.replaces.mem_iff.mpr (.inr rfl)
    rw [final_commitRecord (reworks.suspected.trans unsent.unsuspected)]
    refine .inr ⟨rfl, middle.callId + 1, current, ?_, ⟨inside, waits⟩, fresh, ?_, ?_⟩
    · rw [← unsent.requests, ← reworks.requests]
    · exact reworks.refused key unsent.refused
    · exact reworks.marks.trans unsent.marks

/-- The dropped rows weigh more than all places that the pump can come to again. -/
def weight (bound : Nat) (row : Row lib) (engine : Engine lib) : Nat :=
  engine.records.pendingKeys.card * (bound + 1) + (engine.records.pendingKeys.filter fun key => row.key ≤ key).card

theorem weight_lt_of_card_lt (engine : Engine lib) (row : Row lib) {cards : Nat}
    (bounded : engine.records.pendingKeys.card ≤ bound) (fewer : engine.records.pendingKeys.card < cards) :
    engine.weight bound row < cards * (bound + 1) := by
  have behind := (Finset.card_filter_le engine.records.pendingKeys fun key => row.key ≤ key).trans bounded
  calc
    engine.weight bound row < engine.records.pendingKeys.card * (bound + 1) + (bound + 1) :=
      Nat.add_lt_add_left (Nat.lt_succ_of_le behind) _
    _ = (engine.records.pendingKeys.card + 1) * (bound + 1) := (Nat.succ_mul _ _).symm
    _ ≤ cards * (bound + 1) := Nat.mul_le_mul_right _ fewer

/-- A row of the bounded table waits for the pump. -/
def Waiting (bound : Nat) (first : Option (Row lib)) (engine : Engine lib) : Prop :=
  ∀ row, first = some row → engine.Pending row ∧ engine.records.pendingKeys.card ≤ bound

/-- Every turn after which the pump goes on makes it lighter. -/
theorem Turned.lighter (turned : engine.Turned row next reached) (waiting : Waiting bound (some row) engine) :
    Waiting bound next reached ∧
      ∀ following, next = some following → reached.weight bound following < engine.weight bound row := by
  obtain ⟨pending, bounded⟩ := waiting row rfl
  cases turned with
  | drop reworks =>
    have fewer := reworks.replaces.card_pendingKeys_lt pending.2
    have still := fewer.le.trans bounded
    refine ⟨fun following found => ⟨pending_of_findFirst found, still⟩, fun following _ => ?_⟩
    exact (weight_lt_of_card_lt reached following still fewer).trans_le (Nat.le_add_right _ _)
  | skip reworks key waits rejected =>
    have same := reworks.replaces.pendingKeys_eq key pending.2 waits
    refine ⟨fun following found => ⟨pending_of_findNext found, same ▸ bounded⟩, fun following found => ?_⟩
    have later : row.key < following.key := by
      have holds := List.find?_some found
      rw [Bool.and_eq_true, decide_eq_true_iff, decide_eq_true_iff, key] at holds
      exact holds.2
    rw [weight, weight, same]
    apply Nat.add_lt_add_left
    apply Finset.card_lt_card
    -- The place that the pump goes past is no longer ahead of it.
    refine (Finset.ssubset_iff_of_subset ?_).mpr ⟨row.key, ?_, ?_⟩
    · intro place ahead
      rw [Finset.mem_filter] at ahead ⊢
      exact ⟨ahead.1, later.le.trans ahead.2⟩
    · exact Finset.mem_filter.mpr ⟨mem_pendingKeys.mpr ⟨row, pending.1, pending.2, rfl⟩, Nat.le_refl _⟩
    · intro ahead
      exact absurd (Finset.mem_filter.mp ahead).2 (Nat.not_le.mpr later)
  | send =>
    constructor
    · intro following done
      exact absurd done.symm (Option.some_ne_none following)
    · intro following done
      exact absurd done.symm (Option.some_ne_none following)

/-- A turn that does not fail is one of the three. -/
theorem turned_of_run (pending : engine.Pending row) (ran : (pumpTurn row).run engine = .ok next reached) :
    engine.Turned row next reached := by
  obtain ⟨err, failed⟩ | ⟨other, last, done, turned⟩ := pumpTurn_turned pending
  · rw [failed] at ran
    cases ran
  · rw [done] at ran
    cases ran
    exact turned

/-- The loop of the pump ends by itself. -/
theorem pump_ends (engine : Engine lib) :
    Effect.LoopEnds pumpTurn engine.records.findFirstPendingCommit engine
      ((commitPendingFrom (pumpFuel engine.records) engine.records.findFirstPendingCommit).run engine) := by
  rw [commitPendingFrom_eq_loop]
  have bounded := card_pendingKeys_le engine.records
  apply Effect.loopEnds_of_weight (Waiting engine.records.rows.length) (weight engine.records.rows.length)
  · intro row before next reached waiting ran
    exact (turned_of_run (waiting row rfl).1 ran).lighter waiting
  · exact fun row found => ⟨pending_of_findFirst found, bounded⟩
  · exact fun row _ => weight_lt_of_card_lt engine row bounded (Nat.lt_succ_of_le bounded)

/-- The pump ends with everything refused, or after it has sent one record, or at one that cannot be read. -/
theorem pump_result {result : EStateM.Result Error (Engine lib) Unit} (unsuspected : engine.forkSuspected = false)
    (ends : Effect.LoopEnds pumpTurn engine.records.findFirstPendingCommit engine result) :
    (∃ reached, result = .ok () reached ∧
      (engine.Unsent none reached ∨ ∃ handle sent, engine.Sent reached handle sent)) ∨
    ∃ row err reached, result = .error err reached ∧ engine.Unsent (some row) reached := by
  have start : engine.Unsent engine.records.findFirstPendingCommit engine :=
    ⟨fun _ => pending_of_findFirst, refused_findFirst engine, rfl, rfl, unsuspected⟩
  obtain ⟨reached, rfl, done⟩ | ⟨row, before, err, reached, waiting, failed, rfl⟩ :=
    ends.keeps (fun first state => engine.Unsent first state ∨ first = none ∧ ∃ handle sent, engine.Sent state handle sent)
      (fun row before next reached waiting ran => by
        obtain unsent | ⟨none, -⟩ := waiting
        · exact unsent.turn (turned_of_run (unsent.pending row rfl) ran)
        · exact absurd none (Option.some_ne_none row))
      (.inl start)
  · exact .inl ⟨reached, rfl, done.imp_right And.right⟩
  · obtain unsent | ⟨none, -⟩ := waiting
    · obtain ⟨err', same⟩ | ⟨next, last, done, -⟩ := pumpTurn_turned (unsent.pending row rfl)
      · rw [same] at failed
        cases failed
        exact .inr ⟨row, _, _, rfl, unsent⟩
      · rw [done] at failed
        cases failed
    · exact absurd none (Option.some_ne_none row)

/-- The commit pump ends; it sends nothing, or one record that was not refused in this form, and every record that
waits before that one was. -/
theorem tryCommitPending_ends (engine : Engine lib) :
    ((engine.pushingPendingCommit ≠ 0 ∨ engine.forkSuspected = true) ∧ tryCommitPending.run engine = .ok () engine ∨
      Effect.LoopEnds pumpTurn engine.records.findFirstPendingCommit engine (tryCommitPending.run engine)) ∧
    ((tryCommitPending.final engine).requests = engine.requests ∨
      ∃ handle row, engine.Sent (tryCommitPending.final engine) handle row) := by
  by_cases free : (decide (engine.pushingPendingCommit = 0) && !engine.forkSuspected) = true
  · have run : tryCommitPending.run engine =
        (commitPendingFrom (pumpFuel engine.records) engine.records.findFirstPendingCommit).run engine := by
      unfold tryCommitPending
      rw [Effect.run_bind, Effect.run_get]
      dsimp only
      rw [if_pos free]
    have ends := pump_ends engine
    rw [← run] at ends
    refine ⟨.inr ends, ?_⟩
    rw [Bool.and_eq_true, Bool.not_eq_true'] at free
    obtain ⟨reached, done, unsent | sent⟩ | ⟨row, err, reached, failed, unsent⟩ := pump_result free.2 ends
    · rw [Effect.final_of_ok done]
      exact .inl unsent.requests
    · rw [Effect.final_of_ok done]
      exact .inr sent
    · rw [Effect.final_of_error failed]
      exact .inl unsent.requests
  · have run : tryCommitPending.run engine = .ok () engine := by
      unfold tryCommitPending
      rw [Effect.run_bind, Effect.run_get]
      dsimp only
      rw [if_neg free]
      rfl
    refine ⟨.inl ⟨?_, run⟩, .inl (by rw [Effect.final_of_ok run])⟩
    by_contra both
    apply free
    rw [not_or, not_not, Bool.not_eq_true] at both
    rw [decide_eq_true both.1, both.2]
    rfl

end Engine

end SpSync
