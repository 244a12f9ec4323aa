import SpSync.Foundation.Loop
import SpSync.Proof.Engine.Moves

namespace SpSync

open Foundation RecordStorage

variable {lib : Securepath}

namespace Engine

/-- What becomes of a pending record before it is sent. -/
inductive Rebase (engine : Engine lib) (row : Row lib) (record : Record) (hasConflicts : Bool) :
    Bool → Engine lib → Prop
  | current (current : (hasConflicts || engine.pendingNeedsRebase record) = false) :
      Rebase engine row record hasConflicts true engine
  | onHead {middle : Engine lib} (behind : (hasConflicts || engine.pendingNeedsRebase record) = true)
      (updated : (updatePendingCommit row.block hasConflicts).run engine = .ok none middle)
      (drafts : engine.Drafts middle) : Rebase engine row record hasConflicts true middle
  | rebuilt {middle : Engine lib} {records : RecordStorage lib} {block : lib.Block}
      (behind : (hasConflicts || engine.pendingNeedsRebase record) = true)
      (updated : (updatePendingCommit row.block hasConflicts).run engine = .ok (some block) middle)
      (drafts : engine.Drafts middle) (replaces : Replaces engine.records records row (row.withBlock block)) :
      Rebase engine row record hasConflicts true { middle with records }
  | dropped {middle : Engine lib} {records : RecordStorage lib} (drafts : engine.Drafts middle)
      (replaces : Replaces engine.records records row { row with state := .invalid }) :
      Rebase engine row record hasConflicts false { middle with records }

variable {engine : Engine lib} {row : Row lib} {middle : Engine lib}

/-- A pending row can always be dropped. -/
theorem run_dropRow (pending : engine.Pending row) (same : middle.records = engine.records) :
    ∃ records, (dropRow row).run middle = .ok () { middle with records } ∧
      Replaces engine.records records row { row with state := .invalid } := by
  have unconfirmed : RecordState.invalid.isServerConfirmed = false := rfl
  obtain ⟨records, done⟩ := setState_ok engine.records row.key unconfirmed
  refine ⟨records, ?_, setState_replaces pending.1 done⟩
  unfold dropRow
  rw [run_writeRecords, same, done]

/-- The rebase of a pending record does not fail. -/
theorem rebaseIfNeeded_rebase (pending : engine.Pending row) (record : Record) (hasConflicts : Bool) :
    ∃ usable reached, (rebaseIfNeeded row record hasConflicts).run engine = .ok usable reached ∧
      engine.Rebase row record hasConflicts usable reached := by
  unfold rebaseIfNeeded
  rw [Effect.run_bind, Effect.run_get]
  dsimp only
  split
  · rename_i behind
    rw [Effect.run_tryCatch]
    cases built : (rebuild row hasConflicts).run engine with
    | error err reached =>
      -- The exception handler drops the row, which always works.
      have drafts := rebuild_error built
      obtain ⟨records, dropped, replaces⟩ := run_dropRow pending drafts.calm.records
      refine ⟨false, { reached with records }, ?_, .dropped drafts replaces⟩
      simp only [Effect.run_bind, dropped, Effect.run_pure]
    | ok usable reached =>
      have drafting : Drafting _ engine := drafting_updatePendingCommit row.block hasConflicts
      obtain ⟨rebuilt, middle, updated, rest⟩ := Effect.run_bind_ok built
      have drafts := drafting.reaches updated
      cases rebuilt with
      | none =>
        cases rest
        exact ⟨true, _, rfl, .onHead behind updated drafts⟩
      | some block =>
        obtain ⟨_, written, writes, last⟩ := Effect.run_bind_ok rest
        obtain ⟨records, done, rfl⟩ := writeRecords_ok writes
        cases last
        rw [drafts.calm.records] at done
        exact ⟨true, _, rfl, .rebuilt behind updated drafts (setRecord_ok pending.1 done).2.2⟩
  · rename_i current
    exact ⟨true, engine, rfl, .current (Bool.eq_false_of_not_eq_true current)⟩

/-- One turn of the pump: where it goes on, or nothing when it has sent a record or has none left. -/
def pumpTurn (row : Row lib) : EngineEffect lib (Option (Row lib)) := do
  let record ← deserialiseRecord row.block
  let hasConflicts := !((← get).findOidConflicts record).isEmpty
  if hasConflicts && (← get).config.conflicts = .ask then
    dropRow row
    return (← get).records.findFirstPendingCommit
  else if !(← rebaseIfNeeded row record hasConflicts) then
    return (← get).records.findFirstPendingCommit
  else
    let engine ← get
    let current := (engine.records.findKey row.key).getD row
    if engine.isRejectedUnchanged current then
      return engine.records.findNextPendingCommit current.key
    else
      commitRecord current
      return none

/-- The pump is the loop of its turns. -/
theorem commitPendingFrom_eq_loop (fuel : Nat) (first : Option (Row lib)) :
    commitPendingFrom fuel first = Effect.loop pumpTurn fuel first := by
  induction fuel generalizing first with
  | zero => rfl
  | succ fuel ih =>
    cases first with
    | none => rfl
    | some row =>
      rw [commitPendingFrom, Effect.loop, pumpTurn]
      simp only [ih, bind_assoc]
      refine bind_congr fun record => bind_congr fun engine => bind_congr fun _ => ?_
      split
      · simp only [bind_assoc, pure_bind]
      simp only [bind_assoc]
      refine bind_congr fun usable => ?_
      split
      · simp only [bind_assoc, pure_bind]
      simp only [bind_assoc]
      refine bind_congr fun reached => ?_
      split
      · simp only [pure_bind]
      · simp only [bind_assoc, pure_bind, Effect.loop_none]
        exact bind_pure_unit.symm

/-- The commit of a record is a request with a new handle, unless a fork is suspected. -/
theorem commitRecord_pushed (engine : Engine lib) (current : Row lib) :
    (commitRecord current).final engine = engine ∨
      ((commitRecord current).final engine).records = engine.records ∧
      ((commitRecord current).final engine).requests =
        engine.requests ++ [(engine.callId + 1, .commit current.block)] ∧
      ((commitRecord current).final engine).inFlightCommits =
        engine.inFlightCommits ++ [(engine.callId + 1, current.tag)] := by
  unfold commitRecord
  rw [Effect.final_bind_ok (Effect.run_get engine)]
  split
  · exact Or.inl rfl
  · exact Or.inr ⟨rfl, rfl, rfl⟩

theorem run_commitRecord (engine : Engine lib) (current : Row lib) :
    (commitRecord current).run engine = .ok () ((commitRecord current).final engine) := by
  unfold commitRecord Effect.final
  rw [Effect.run_bind, Effect.run_get]
  dsimp only
  split <;> rfl

theorem final_commitRecord (unsuspected : engine.forkSuspected = false) (current : Row lib) :
    (commitRecord current).final engine = { engine with
      callId := engine.callId + 1
      requests := engine.requests ++ [(engine.callId + 1, .commit current.block)]
      pushingPendingCommit := engine.callId + 1
      inFlightCommits := engine.inFlightCommits ++ [(engine.callId + 1, current.tag)] } := by
  unfold commitRecord
  rw [Effect.final_bind_ok (Effect.run_get engine), if_neg (by rw [unsuspected]; exact Bool.false_ne_true)]
  rfl

/-- Only the row and the drafts of the engine change. -/
structure Reworks (engine : Engine lib) (row current : Row lib) (reached : Engine lib) : Prop where
  replaces : Replaces engine.records reached.records row current
  requests : reached.requests = engine.requests
  marks : reached.rejectedPending = engine.rejectedPending
  suspected : reached.forkSuspected = engine.forkSuspected

theorem Drafts.reworks (drafts : engine.Drafts middle) {records : RecordStorage lib} {current : Row lib}
    (replaces : Replaces engine.records records row current) :
    engine.Reworks row current { middle with records } := by
  obtain ⟨drawn, made, rfl, _⟩ := drafts
  exact ⟨replaces, rfl, rfl, rfl⟩

/-- A drafting engine leaves its rows. -/
theorem Drafts.reworks_self (drafts : engine.Drafts middle) (inside : row ∈ engine.records.rows) :
    engine.Reworks row row middle := by
  obtain ⟨drawn, made, rfl, _⟩ := drafts
  exact ⟨.refl inside, rfl, rfl, rfl⟩

/-- The record is usable in its current form, or its row is dropped. -/
theorem Rebase.reworks {record : Record} {hasConflicts usable : Bool} {reached : Engine lib}
    (rebase : engine.Rebase row record hasConflicts usable reached) (pending : engine.Pending row) :
    (usable = true ∧ ∃ current, engine.Reworks row current reached ∧ current.key = row.key ∧
      current.state = .pendingCommit) ∨
    (usable = false ∧ engine.Reworks row { row with state := .invalid } reached) := by
  cases rebase with
  | current => exact .inl ⟨rfl, row, (Drafts.refl engine).reworks_self pending.1, rfl, pending.2⟩
  | onHead behind updated drafts => exact .inl ⟨rfl, row, drafts.reworks_self pending.1, rfl, pending.2⟩
  | rebuilt behind updated drafts replaces => exact .inl ⟨rfl, _, drafts.reworks replaces, rfl, pending.2⟩
  | dropped drafts replaces => exact .inr ⟨rfl, drafts.reworks replaces⟩

/-- Everything that a turn can do when it does not fail. -/
inductive Turned (engine : Engine lib) (row : Row lib) : Option (Row lib) → Engine lib → Prop
  | drop {reached : Engine lib} (reworks : engine.Reworks row { row with state := .invalid } reached) :
      Turned engine row reached.records.findFirstPendingCommit reached
  | skip {current : Row lib} {reached : Engine lib} (reworks : engine.Reworks row current reached)
      (key : current.key = row.key) (waits : current.state = .pendingCommit)
      (rejected : reached.isRejectedUnchanged current = true) :
      Turned engine row (reached.records.findNextPendingCommit current.key) reached
  | send {current : Row lib} {middle : Engine lib} (reworks : engine.Reworks row current middle)
      (key : current.key = row.key) (waits : current.state = .pendingCommit)
      (fresh : middle.isRejectedUnchanged current = false) :
      Turned engine row none ((commitRecord current).final middle)

/-- A turn fails only on a record that cannot be read, and then it has changed nothing. -/
theorem pumpTurn_turned (pending : engine.Pending row) :
    (∃ err, (pumpTurn row).run engine = .error err engine) ∨
      ∃ next reached, (pumpTurn row).run engine = .ok next reached ∧ engine.Turned row next reached := by
  unfold pumpTurn
  rw [Effect.run_bind]
  cases parses : lib.deserialise row.block.record with
  | none =>
    left
    refine ⟨⟨.invalidData, ""⟩, ?_⟩
    unfold deserialiseRecord
    rw [parses]
    rfl
  | some record =>
    right
    have parsed : (deserialiseRecord row.block).run engine = .ok record engine := by
      unfold deserialiseRecord
      rw [parses]
      rfl
    rw [parsed]
    dsimp only
    rw [Effect.run_bind, Effect.run_get]
    dsimp only
    rw [Effect.run_bind, Effect.run_get]
    dsimp only
    split
    · obtain ⟨records, dropped, replaces⟩ := run_dropRow pending rfl
      refine ⟨_, _, ?_, .drop ((Drafts.refl engine).reworks replaces)⟩
      rw [Effect.run_bind, dropped]
      rfl
    · obtain ⟨usable, reached, ran, rebase⟩ :=
        rebaseIfNeeded_rebase pending record !(engine.findOidConflicts record).isEmpty
      rw [Effect.run_bind, ran]
      dsimp only
      obtain ⟨rfl, current, reworks, key, waits⟩ | ⟨rfl, reworks⟩ := rebase.reworks pending
      · have found : reached.records.findKey row.key = some current :=
          findKey_eq_some_iff.mpr ⟨reworks.replaces.mem_iff.mpr (.inr rfl), key⟩
        rw [if_neg (by decide), Effect.run_bind, Effect.run_get]
        dsimp only
        rw [found, Option.getD_some]
        split
        · rename_i rejected
          exact ⟨_, _, rfl, .skip reworks key waits rejected⟩
        rename_i fresh
        refine ⟨none, _, ?_, .send reworks key waits (Bool.eq_false_of_not_eq_true fresh)⟩
        rw [Effect.run_bind, run_commitRecord]
        rfl
      · exact ⟨_, _, rfl, .drop reworks⟩

end Engine

end SpSync
