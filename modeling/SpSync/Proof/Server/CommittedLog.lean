import SpSync.Proof.Server.SeenRules

namespace SpSync.ChainSync

open Foundation RecordStorage

variable {lib : Securepath}

/-- The log is a chain, the special cursor is the one that its records give, and the cursor of the adds
does not pass theirs: a change of an object whose newest record has an empty tag looks like an add. -/
structure Tidy (sync : ChainSync lib) : Prop where
  linked : sync.log.Linked
  special : sync.lastUserChangeOrSegment = sync.log.records.lastSpecialSequence
  adds : sync.lastDataAddRemove ≤ sync.log.records.lastDataAddSequence

variable {sync saved : ChainSync lib} {block placed : lib.Block} {record : Record} {type : RecType}

theorem tidy_empty (config : ChainSyncConfig) (keys : Option (List PublicKeyId)) :
    Tidy (load config keys (.empty lib)) where
  linked := ChainLog.linked_empty lib
  special := rfl
  adds := Nat.zero_le _

/-- The check of a change keeps the kind of the record, or makes it an add. -/
theorem checkChange_type (sync : ChainSync lib) (base : RecordBase) (result : RuleResult)
    (change : PlainSingleChangeData) : (sync.checkChange base result change).type = result.type ∨
      ((sync.checkChange base result change).type = .dataAddRemove ∧ change.previousOidRecordTag = []) := by
  unfold checkChange
  split
  · exact Or.inl rfl
  split
  · exact Or.inl rfl
  split
  · exact Or.inl rfl
  split
  · split
    · rename_i add
      exact Or.inr ⟨rfl, add⟩
    · exact Or.inl rfl
  · split <;> exact Or.inl rfl

theorem checkRulesDataChange_type (sync : ChainSync lib) (base : RecordBase) (changes : List PlainSingleChangeData)
    (result : RuleResult) : (changes.foldl (sync.checkChange base) result).type = result.type ∨
      ((changes.foldl (sync.checkChange base) result).type = .dataAddRemove ∧
        (changes.any fun change => change.previousOidRecordTag = []) = true) := by
  induction changes generalizing result with
  | nil => exact Or.inl rfl
  | cons change rest ih =>
    rw [List.foldl_cons, List.any_cons, Bool.or_eq_true, decide_eq_true_eq]
    obtain same | ⟨add, some⟩ := ih (sync.checkChange base result change)
    · obtain kept | ⟨add, empty⟩ := sync.checkChange_type base result change
      · exact Or.inl (same.trans kept)
      · exact Or.inr ⟨same.trans add, Or.inl empty⟩
    · exact Or.inr ⟨add, Or.inr some⟩

/-- The content of a record allows its kind. -/
structure Kind (record : Record) (type : RecType) : Prop where
  special : type = .special ↔ (record.body.type = .userChange || record.body.type = .segment) = true
  adds : type = .dataAddRemove → ∃ changes, record.body = .dataChange changes ∧
    (changes.any fun change => change.previousOidRecordTag = []) = true

/-- The kind of an accepted record is one that its content allows. -/
theorem kind_of_checkRules {result : RuleResult} (judged : sync.checkRules record = .ok result) :
    Kind record result.type := by
  unfold checkRules at judged
  cases body : record.body with
  | dataChange changes =>
    rw [body] at judged
    cases judged
    obtain none | ⟨add, some⟩ := sync.checkRulesDataChange_type record.base changes {}
    · exact ⟨by simp [checkRulesDataChange, none, body, RecordBody.type], by simp [checkRulesDataChange, none]⟩
    · exact ⟨by simp [checkRulesDataChange, add, body, RecordBody.type], fun _ => ⟨changes, body, some⟩⟩
  | userChange data =>
    rw [body] at judged
    have special : result.type = .special := by
      simp only [checkRulesUserChange, Except.ok.injEq] at judged
      split at judged
      · exact (congrArg RuleResult.type judged).symm
      · split at judged <;> exact (congrArg RuleResult.type judged).symm
    exact ⟨by simp [special, body, RecordBody.type], by simp [special]⟩
  | segment data =>
    rw [body] at judged
    have special : result.type = .special := by
      simp only [checkRulesSegment] at judged
      split at judged
      · cases judged
        rfl
      cases covered : sync.checkRulesSegmentCoverage record.base data with
      | error err => simp [covered, bind, Except.bind] at judged
      | ok verdict =>
        simp only [covered, bind, Except.bind, pure, Except.pure, Except.ok.injEq] at judged
        exact (congrArg RuleResult.type judged).symm
    exact ⟨by simp [special, body, RecordBody.type], by simp [special]⟩

/-- A saved block is the newest one of the conditions that it meets, when the head is the last block. -/
theorem setAndSaveBlock_newest (last : sync.log.records.lastBlock = sync.log.head)
    (parsed : lib.deserialise block.record = some record)
    (done : sync.setAndSaveBlock block type = .ok (saved, placed)) (condition : ChainEntry lib → Bool) :
    (saved.log.records.newest condition).elim 0 Row.sequence =
      if condition ⟨block.tag, placed.sequence, lib.hash placed, block.record, record.body.type⟩ = true
      then placed.sequence else (sync.log.records.newest condition).elim 0 Row.sequence := by
  obtain ⟨place, ⟨content, again, rows⟩, _, _, _⟩ := setAndSaveBlock_ok done
  obtain rfl : record = content := Option.some.inj (parsed.symm.trans again)
  generalize newRow : sync.log.records.newRow placed .inSync record = row at rows
  have entry : row.entry = ⟨block.tag, placed.sequence, lib.hash placed, block.record, record.body.type⟩ := by
    subst newRow place
    rfl
  have inSync : row.state = .inSync := by
    rw [← newRow]
    rfl
  have sequence : row.sequence = placed.sequence := congrArg ChainEntry.sequence entry
  have newest := newest_append rows inSync fun other otherIn otherInSync => by
    have above : placed.sequence = sync.log.head.sequence + 1 := by rw [place]; rfl
    rw [sequence, above, ← last]
    exact Nat.le_succ_of_le (sequence_le_lastBlock otherIn otherInSync)
  rw [newest, entry]
  split
  · exact sequence
  · rfl

/-- A saved block of an allowed kind keeps the cursors in line. -/
theorem Tidy.setAndSaveBlock (tidy : sync.Tidy) (parsed : lib.deserialise block.record = some record)
    (kind : Kind record type) (done : sync.setAndSaveBlock block type = .ok (saved, placed)) : saved.Tidy := by
  obtain ⟨place, _, _, _, adds, special⟩ := setAndSaveBlock_appended done
  have cursor := setAndSaveBlock_newest tidy.linked.lastBlock_eq_head parsed done
  refine ⟨linked_setAndSaveBlock tidy.linked done, ?_, ?_⟩
  · rw [special, tidy.special, lastSpecialSequence_eq, lastSpecialSequence_eq, cursor]
    simp only [kind.special]
  have older := tidy.adds
  rw [lastDataAddSequence_eq] at older ⊢
  rw [adds, cursor]
  split
  · rename_i add
    obtain ⟨changes, body, some⟩ := kind.adds add
    rw [ChainEntry.objects, parsed, Option.map_some, body, if_pos some]
  · split
    · rw [place]
      exact Nat.le_succ_of_le (older.trans (tidy.linked.newest_le _))
    · exact older

/-- A commit keeps the cursors in line. -/
theorem Tidy.commitBlock (tidy : sync.Tidy) (block : lib.Block) : (sync.commitStep block).Tidy := by
  apply commitWith_keeps tidy
  intro type saved placed verdict done
  obtain ⟨_, _, _, record, parsed, _, accepted⟩ := evaluateWith_accepted verdict
  exact tidy.setAndSaveBlock parsed (kind_of_checkRules accepted) done

theorem Committed.tidy {config : ChainSyncConfig} {keys : Option (List PublicKeyId)}
    (run : Committed config keys sync) : sync.Tidy :=
  run.keeps (tidy_empty config keys) fun _ block tidy _ => tidy.commitBlock block

end SpSync.ChainSync
