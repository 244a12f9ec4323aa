import SpSync.Foundation.Run
import SpSync.Proof.Server.LinkedLog

namespace SpSync.ChainSync

open Foundation

variable {lib : Securepath}

/-- The server commits one block after the other. -/
def commitStep (sync : ChainSync lib) (block : lib.Block) : ChainSync lib :=
  (sync.commitBlock block).1

/-- The record at the sequence names the block that the log holds before it; the first record names
no block. -/
def NamesParent (log : ChainLog lib) (base : RecordBase) (sequence : SequenceNumber) : Prop :=
  (sequence = 1 → base.lastSeenBlock = {}) ∧
    (1 < sequence → ∃ row ∈ log.records.rows, row.sequence + 1 = sequence ∧ base.lastSeenBlock = row.blockId)

instance (log : ChainLog lib) (base : RecordBase) (sequence : SequenceNumber) :
    Decidable (NamesParent log base sequence) :=
  inferInstanceAs (Decidable ((sequence = 1 → base.lastSeenBlock = {}) ∧
    (1 < sequence → ∃ row ∈ log.records.rows, row.sequence + 1 = sequence ∧ base.lastSeenBlock = row.blockId)))

/-- The block does not carry a data change without changes. -/
def HasContent (block : lib.Block) : Prop :=
  ∀ record, lib.deserialise block.record = some record → record.body ≠ .dataChange []

variable {sync saved : ChainSync lib} {block placed : lib.Block} {base : RecordBase} {result : RuleResult}
  {record : Record} {type : RecType}

theorem checkHeadSeen_none (seen : sync.checkHeadSeen base = none) : base.lastSeenBlock = sync.log.head := by
  unfold checkHeadSeen at seen
  split at seen
  · cases seen
  · rename_i same
    exact not_not.mp same

/-- The record has seen the head, or in a weaker mode the newest special record as far as the mode asks for it. -/
def Sees (sync : ChainSync lib) (base : RecordBase) : Prop :=
  base.lastSeenBlock = sync.log.head ∨
    sync.config.mode ≠ .requireAllSeen ∧ sync.checkRulesSpecialSeen base.lastSeenSpecialTag = none

theorem sees_of_accepted {refused : Option Error}
    (accepted : (if sync.config.mode = .requireAllSeen then sync.checkHeadSeen base else refused) = none)
    (special : refused = none → sync.checkRulesSpecialSeen base.lastSeenSpecialTag = none) : sync.Sees base := by
  split at accepted
  · exact Or.inl (checkHeadSeen_none accepted)
  · rename_i weak
    exact Or.inr ⟨weak, special accepted⟩

theorem checkChange_sees {change : PlainSingleChangeData}
    (accepted : (sync.checkChange base result change).err = none) : sync.Sees base := by
  unfold checkChange at accepted
  split at accepted
  · rename_i refused
    simp [accepted] at refused
  split at accepted
  · cases accepted
  split at accepted
  · cases accepted
  split at accepted
  · split at accepted
    · refine sees_of_accepted accepted fun passed => ?_
      split at passed
      · cases passed
      · assumption
    · cases accepted
  · split at accepted
    · exact sees_of_accepted accepted id
    · cases accepted

/-- An error stays the verdict of the whole record. -/
theorem foldl_checkChange_accepted {changes : List PlainSingleChangeData}
    (accepted : (changes.foldl (sync.checkChange base) result).err = none) : result.err = none := by
  induction changes generalizing result with
  | nil => exact accepted
  | cons change rest ih =>
    by_contra refused
    have kept : sync.checkChange base result change = result := by
      rw [checkChange, if_pos (Option.isSome_iff_ne_none.mpr refused)]
    exact refused (kept ▸ ih accepted)

/-- An accepted record with content has seen what its mode asks for. -/
theorem checkRules_sees (content : record.body ≠ .dataChange [])
    (accepted : sync.checkRules record = .ok ⟨none, type⟩) : sync.Sees record.base := by
  unfold checkRules at accepted
  cases body : record.body with
  | dataChange changes =>
    rw [body] at accepted content
    have verdict := congrArg RuleResult.err (Except.ok.inj accepted)
    cases changes with
    | nil => exact absurd rfl content
    | cons change rest => exact checkChange_sees (foldl_checkChange_accepted verdict)
  | userChange data =>
    rw [body] at accepted
    have verdict := congrArg RuleResult.err (Except.ok.inj accepted)
    unfold checkRulesUserChange at verdict
    split at verdict
    · cases verdict
    · rw [apply_ite RuleResult.err] at verdict
      exact sees_of_accepted verdict id
  | segment data =>
    rw [body] at accepted
    dsimp only at accepted
    unfold checkRulesSegment at accepted
    split at accepted
    · cases accepted
    · rename_i current
      by_cases ruled : sync.config.mode.requiresSpecialSeen = true
      · exact Or.inl (by simpa [ruled] using current)
      · refine Or.inr ⟨fun strict => ruled (by rw [strict]; rfl), ?_⟩
        rw [checkRulesSpecialSeen, if_neg (by simp [ruled])]

theorem checkRules_seen (strict : sync.config.mode = .requireAllSeen) (content : record.body ≠ .dataChange [])
    (accepted : sync.checkRules record = .ok ⟨none, type⟩) : record.base.lastSeenBlock = sync.log.head :=
  (checkRules_sees content accepted).resolve_right fun weak => weak.1 strict

/-- The storage only took commits. -/
abbrev Committed (config : ChainSyncConfig) (keys : Option (List PublicKeyId)) : ChainSync lib → Prop :=
  Runs commitStep (fun _ _ => True) (load config keys (.empty lib))

variable {config : ChainSyncConfig} {keys : Option (List PublicKeyId)}

theorem Committed.linked (run : Committed config keys sync) : sync.log.Linked := by
  induction run with
  | refl => exact ChainLog.linked_empty lib
  | tail _ step ih =>
    obtain ⟨block, _, rfl⟩ := step
    exact linked_commitWith ih _ block

theorem Committed.config_eq (run : Committed config keys sync) : sync.config = config := by
  induction run with
  | refl => rfl
  | tail _ step ih =>
    obtain ⟨block, _, rfl⟩ := step
    exact (setting_commitWith _ _ block).1.trans ih

/-- A record that a strict storage accepts names the block before it, unless it is a data change without
changes. -/
theorem namesParent_of_commit (strict : config.mode = .requireAllSeen) (run : Committed config keys sync)
    (content : HasContent block) (accepted : sync.commitBlock block = (saved, .ok placed)) :
    ∃ record, lib.deserialise block.record = some record ∧ NamesParent sync.log record.base placed.sequence := by
  obtain ⟨err, refused, _⟩ | ⟨type, next, at_, verdict, done, committed⟩ :=
    commitWith_cases sync (sync.evaluate block) block
  · rw [commitBlock, refused] at accepted
    cases accepted
  · rw [commitBlock, committed] at accepted
    cases accepted
    obtain ⟨rfl, _⟩ := setAndSaveBlock_ok done
    obtain ⟨_, _, _, record, parsed, _, passed⟩ := evaluateWith_accepted verdict
    have seen := checkRules_seen (by rw [run.config_eq, strict]) (content record parsed) passed
    refine ⟨record, parsed, ?_, ?_⟩
    · intro first
      have empty : sync.log.head.sequence = 0 := Nat.succ.inj first
      rw [seen, run.linked.head_of_empty empty]
    · intro later
      obtain ⟨row, inside, last⟩ := run.linked.exists_row (Nat.lt_succ_iff.mp later) (Nat.le_refl _)
      exact ⟨row, inside, congrArg Nat.succ last, by rw [seen, run.linked.blockId_of_head inside last]⟩

/-- A strict storage that holds one user change. -/
def openedStorage : ChainSync .sample :=
  commitStep (load {} none (.empty .sample)) ⟨(1, ⟨{}, .userChange ⟨⟨.delta, []⟩, []⟩, [[]]⟩), ⟨[1], none⟩, 1, []⟩

/-- A data change without changes that names no block, or the block it follows. -/
def changeAfter (seen : ChainBlockId) (changes : List PlainSingleChangeData) : Securepath.sample.Block :=
  ⟨(1, ⟨{ lastSeenBlock := seen }, .dataChange changes, []⟩), ⟨[2], none⟩, 2, []⟩

/-- An add of one object. -/
def oneAdd : List PlainSingleChangeData :=
  [⟨List.replicate objectIdSize 5, [], none⟩]

theorem openedStorage_committed : Committed {} none openedStorage :=
  .tail (.refl _) trivial

theorem namesParent_of_commit_add : ∃ record, Securepath.sample.deserialise
      (changeAfter openedStorage.log.head oneAdd).record = some record ∧
    NamesParent openedStorage.log record.base 2 := by
  have accepted : openedStorage.commitBlock (changeAfter openedStorage.log.head oneAdd) =
      ((openedStorage.commitBlock (changeAfter openedStorage.log.head oneAdd)).1,
        .ok ((changeAfter openedStorage.log.head oneAdd).setSequenceAndParentHash 2 openedStorage.log.head.hash)) := by
    rfl
  refine namesParent_of_commit rfl openedStorage_committed ?_ accepted
  intro record parsed
  cases parsed
  exact fun empty => by cases empty

/-- A strict storage accepts a data change without changes behind a record that it has not seen. -/
theorem not_namesParent_without_changes : ∃ saved placed record,
    openedStorage.commitBlock (changeAfter {} []) = (saved, .ok placed) ∧ placed.sequence = 2 ∧
      Securepath.sample.deserialise (changeAfter {} []).record = some record ∧
      ¬ NamesParent openedStorage.log record.base placed.sequence := by
  refine ⟨(openedStorage.commitBlock (changeAfter {} [])).1,
    (changeAfter {} []).setSequenceAndParentHash 2 openedStorage.log.head.hash, (changeAfter {} []).record.2,
    rfl, rfl, rfl, ?_⟩
  decide +kernel

end SpSync.ChainSync
