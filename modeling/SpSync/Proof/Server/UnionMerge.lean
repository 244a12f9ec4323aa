import SpSync.Proof.Server.LinkedLog

namespace SpSync

open Foundation

variable {lib : Securepath}

/-- Blocks at different positions have different hashes, as for every hash without collisions. -/
def Securepath.HashesPosition (lib : Securepath) : Prop :=
  ∀ left right : lib.Block, lib.hash left = lib.hash right → left.sequence = right.sequence

/-- A library whose hashes only tell positions apart. -/
def Securepath.counting : Securepath :=
  { Securepath.sample with hash := fun block => List.replicate block.sequence 0 }

theorem Securepath.hashesPosition_counting : Securepath.counting.HashesPosition := by
  intro left right same
  have lengths := congrArg List.length same
  simpa [Securepath.counting] using lengths

/-- A record without an operation identifier is known by its tag. -/
inductive Operation
  | named (opId : Octets)
  | tagged (tag : RecordTag)
deriving DecidableEq, Repr

def operationOf (tag : RecordTag) (opId : Octets) : Operation :=
  if opId = [] then .tagged tag else .named opId

/-- Equal operations have the same identifier, and the same tag where there is none. -/
theorem operationOf_eq_iff {leftTag rightTag : RecordTag} {leftOp rightOp : Octets} :
    operationOf leftTag leftOp = operationOf rightTag rightOp ↔
      leftOp = rightOp ∧ (leftOp = [] → leftTag = rightTag) := by
  unfold operationOf
  by_cases leftNull : leftOp = [] <;> by_cases rightNull : rightOp = []
  · simp [leftNull, rightNull]
  · simp [leftNull, rightNull, Ne.symm rightNull]
  · simp [leftNull, rightNull]
  · simp [leftNull, rightNull]

def Row.operation (row : Row lib) : Operation :=
  operationOf row.tag row.opId

def ChainLog.operations (log : ChainLog lib) : List Operation :=
  log.records.rows.map Row.operation

def ChainLog.tags (log : ChainLog lib) : List RecordTag :=
  log.records.rows.map Row.tag

/-- No operation occurs in two rows. -/
theorem ChainLog.operations_nodup (log : ChainLog lib) : log.operations.Nodup := by
  refine List.pairwise_map.mpr ((log.records.unique.tags.and log.records.unique.opIds).imp ?_)
  intro left right apart same
  obtain ⟨sameOp, sameTag⟩ := operationOf_eq_iff.mp same
  obtain null | other := apart.2
  · exact apart.1 (sameTag null)
  · exact other sameOp

namespace ChainSync

/-- The checks of a foreign block that do not look at the log. -/
structure Admissible (sync : ChainSync lib) (block : lib.Block) (record : Record) : Prop where
  small : sync.tooBig block = false
  authentic : sync.config.authMode = .signRecords → sync.verifySignature block = none
  parsed : lib.deserialise block.record = some record
  bounded : (classifyForeign lib record).err = none

/-- The log holds the tag of the block or its operation identifier. -/
def HoldsBlock (sync : ChainSync lib) (block : lib.Block) (record : Record) : Prop :=
  ∃ row ∈ sync.log.records.rows, row.tag = block.tag ∨ row.opId ≠ [] ∧ row.opId = record.base.opId

variable {sync : ChainSync lib} {block : lib.Block} {record : Record} {left right blocks : List lib.Block}

theorem Admissible.congr {other : ChainSync lib} (config : other.config = sync.config) (keys : other.keys = sync.keys)
    (admissible : sync.Admissible block record) : other.Admissible block record := by
  obtain ⟨small, authentic, parsed, bounded⟩ := admissible
  refine ⟨?_, ?_, parsed, bounded⟩
  · rw [tooBig, config]
    exact small
  intro signs
  rw [config] at signs
  rw [verifySignature, keys]
  exact authentic signs

/-- The next position is free for an admissible block that the log does not hold. -/
theorem setAndSaveBlock_ok_of_new (positions : lib.HashesPosition) (linked : sync.log.Linked)
    (parsed : lib.deserialise block.record = some record) (unheld : ¬ sync.HoldsBlock block record) (type : RecType) :
    ∃ saved placed, sync.setAndSaveBlock block type = .ok (saved, placed) := by
  have later {row : Row lib} (inside : row ∈ sync.log.records.rows) : row.sequence ≠ sync.log.head.sequence + 1 :=
    Nat.ne_of_lt (Nat.lt_succ_of_le (linked.bounds inside).2)
  obtain ⟨records, created⟩ : ∃ records, sync.log.records.create
      (block.setSequenceAndParentHash (sync.log.head.sequence + 1) sync.log.head.hash) .inSync = .ok records := by
    refine RecordStorage.create_ok_of_new parsed ?_ ?_ ?_ ?_
    · intro row inside same
      exact unheld ⟨row, inside, Or.inl same⟩
    · intro row inside same
      rw [(linked.faithful row inside).hash] at same
      exact later inside ((linked.faithful row inside).sequence.trans (positions _ _ same))
    · intro row inside
      by_contra repeated
      obtain ⟨named, same⟩ := not_or.mp repeated
      exact unheld ⟨row, inside, Or.inr ⟨named, not_not.mp same⟩⟩
    · intro row inside
      exact later inside
  obtain ⟨log, appended⟩ : ∃ log, sync.log.append
      ⟨block.setSequenceAndParentHash (sync.log.head.sequence + 1) sync.log.head.hash, [], 0, none⟩ = .ok log := by
    unfold ChainLog.append
    rw [if_neg (by simp [ChainBlock.setSequenceAndParentHash]), created]
    exact ⟨_, rfl⟩
  unfold setAndSaveBlock
  dsimp only
  rw [appended]
  exact ⟨_, _, rfl⟩

/-- An admissible block that the log does not hold is accepted. -/
theorem evaluateForeign_of_new (admissible : sync.Admissible block record) (unheld : ¬ sync.HoldsBlock block record) :
    ∃ type, sync.evaluateForeign block = .ok ⟨none, type⟩ := by
  have newTag : sync.log.records.findTag block.tag = none :=
    RecordStorage.findTag_eq_none_iff.mpr fun row inside same => unheld ⟨row, inside, Or.inl same⟩
  have newOp : ¬ (record.base.opId ≠ [] && (sync.log.records.findOpId record.base.opId).isSome) = true := by
    intro found
    simp only [Bool.and_eq_true, decide_eq_true_eq, RecordStorage.findOpId, List.find?_isSome] at found
    obtain ⟨named, row, inside, same, _⟩ := found
    exact unheld ⟨row, inside, Or.inr ⟨same ▸ named, same⟩⟩
  have signed : (if sync.config.authMode = .signRecords then sync.verifySignature block else none) = none := by
    split
    · exact admissible.authentic ‹_›
    · rfl
  refine ⟨(classifyForeign lib record).type, ?_⟩
  unfold evaluateForeign evaluateWith
  rw [if_neg (by simp [admissible.small]), newTag]
  rw [signed, admissible.parsed]
  dsimp only
  rw [if_neg newOp, ← admissible.bounded]

/-- What a foreign block does to a linked log. -/
inductive Merges (sync : ChainSync lib) (block : lib.Block) : ChainSync lib → Prop
  | kept (known : ∀ record, sync.Admissible block record → sync.HoldsBlock block record) : Merges sync block sync
  | joined {saved : ChainSync lib} {record : Record} {row : Row lib} (admissible : sync.Admissible block record)
      (rows : saved.log.records.rows = sync.log.records.rows ++ [row]) (tag : row.tag = block.tag)
      (opId : row.opId = record.base.opId) (config : saved.config = sync.config) (keys : saved.keys = sync.keys)
      (linked : saved.log.Linked) : Merges sync block saved

theorem commitForeign_merges (positions : lib.HashesPosition) (linked : sync.log.Linked) (block : lib.Block) :
    Merges sync block (sync.commitForeign block).1 := by
  unfold commitForeign
  obtain ⟨err, refused, why⟩ | ⟨type, saved, placed, verdict, done, committed⟩ :=
    commitWith_cases sync (sync.evaluateForeign block) block
  · rw [refused]
    refine .kept fun record admissible => ?_
    by_contra unheld
    obtain ⟨type, accepted⟩ := evaluateForeign_of_new admissible unheld
    obtain ⟨saved, placed, done⟩ := setAndSaveBlock_ok_of_new positions linked admissible.parsed unheld type
    obtain failed | ⟨other, failed⟩ | ⟨other, verdict, failed⟩ := why
    · rw [accepted] at failed
      cases failed
    · rw [accepted] at failed
      cases failed
    · rw [accepted] at verdict
      cases verdict
      rw [done] at failed
      cases failed
  · rw [committed]
    obtain ⟨small, _, authentic, record, parsed, _, passed⟩ := evaluateWith_accepted verdict
    obtain ⟨rfl, ⟨stored, again, rows⟩, _, config, keys⟩ := setAndSaveBlock_ok done
    have bounded : (classifyForeign lib record).err = none := by
      rw [Except.ok.inj passed]
    rw [parsed] at again
    cases again
    exact .joined ⟨small, authentic, parsed, bounded⟩ rows rfl rfl config keys (linked_setAndSaveBlock linked done)

/-- A new replica takes the blocks one after the other. -/
def mergeForeign (config : ChainSyncConfig) (keys : Option (List PublicKeyId)) (blocks : List lib.Block) :
    ChainSync lib :=
  blocks.foldl (fun sync block => (sync.commitForeign block).1) (load config keys (.empty lib))

/-- The rows are the admissible ones among the blocks, by operation. -/
structure Merged (sync : ChainSync lib) (blocks : List lib.Block) : Prop where
  linked : sync.log.Linked
  sound : ∀ row ∈ sync.log.records.rows, ∃ block ∈ blocks, ∃ record, sync.Admissible block record ∧
    row.tag = block.tag ∧ row.opId = record.base.opId
  complete : ∀ block ∈ blocks, ∀ record, sync.Admissible block record →
    operationOf block.tag record.base.opId ∈ sync.log.operations

/-- No two different records share a tag. -/
def RecordPerTag (blocks : List lib.Block) : Prop :=
  ∀ left ∈ blocks, ∀ right ∈ blocks, left.tag = right.tag → left.record = right.record

instance (blocks : List lib.Block) : Decidable (RecordPerTag blocks) :=
  inferInstanceAs (Decidable (∀ left ∈ blocks, ∀ right ∈ blocks, left.tag = right.tag → left.record = right.record))

/-- No operation identifier occurs under two tags. -/
def TagPerOperation (blocks : List lib.Block) : Prop :=
  ∀ left ∈ blocks, ∀ right ∈ blocks, ∀ leftRecord rightRecord, lib.deserialise left.record = some leftRecord →
    lib.deserialise right.record = some rightRecord → leftRecord.base.opId ≠ [] →
    leftRecord.base.opId = rightRecord.base.opId → left.tag = right.tag

theorem Merged.empty (config : ChainSyncConfig) (keys : Option (List PublicKeyId)) :
    Merged (load config keys (.empty lib)) [] where
  linked := ChainLog.linked_empty lib
  sound := by simp [load, ChainLog.load, RecordStorage.empty]
  complete := by simp

/-- A held block's operation is in the log. -/
theorem Merged.operation_of_held (merged : Merged sync blocks) (distinct : RecordPerTag (blocks ++ [block]))
    (parsed : lib.deserialise block.record = some record) (held : sync.HoldsBlock block record) :
    operationOf block.tag record.base.opId ∈ sync.log.operations := by
  obtain ⟨row, inside, sameTag | ⟨named, sameOp⟩⟩ := held
  · -- the row's own record is the record of the block, since they share the tag
    obtain ⟨source, sourceIn, sourceRecord, admissible, tag, opId⟩ := merged.sound row inside
    have same := distinct source (List.mem_append_left _ sourceIn) block (by simp) (tag.symm.trans sameTag)
    have sameRecord : sourceRecord = record := by
      have again := admissible.parsed
      rw [same, parsed] at again
      exact (Option.some.inj again).symm
    refine List.mem_map.mpr ⟨row, inside, ?_⟩
    rw [Row.operation, sameTag, opId, sameRecord]
  · refine List.mem_map.mpr ⟨row, inside, ?_⟩
    exact operationOf_eq_iff.mpr ⟨sameOp, fun null => absurd null named⟩

/-- One more block keeps the log merged. -/
theorem Merged.step (positions : lib.HashesPosition) (merged : Merged sync blocks)
    (distinct : RecordPerTag (blocks ++ [block])) : Merged (sync.commitForeign block).1 (blocks ++ [block]) := by
  have merges := commitForeign_merges positions merged.linked block
  generalize (sync.commitForeign block).1 = next at merges ⊢
  cases merges with
  | kept known =>
    refine ⟨merged.linked, ?_, ?_⟩
    · intro row inside
      obtain ⟨source, sourceIn, rest⟩ := merged.sound row inside
      exact ⟨source, List.mem_append_left _ sourceIn, rest⟩
    · intro other otherIn record admissible
      obtain old | rfl := List.mem_append.mp otherIn |>.imp_right List.mem_singleton.mp
      · exact merged.complete other old record admissible
      · exact merged.operation_of_held distinct admissible.parsed (known record admissible)
  | joined fresh rows tag opId config keys linked =>
    refine ⟨linked, ?_, ?_⟩
    · intro row inside
      rw [rows] at inside
      obtain old | rfl := List.mem_append.mp inside |>.imp_right List.mem_singleton.mp
      · obtain ⟨source, sourceIn, record, admissible, same⟩ := merged.sound row old
        exact ⟨source, List.mem_append_left _ sourceIn, record, admissible.congr config keys, same⟩
      · exact ⟨block, by simp, _, fresh.congr config keys, tag, opId⟩
    · intro other otherIn record admissible
      have before : sync.Admissible other record := admissible.congr config.symm keys.symm
      rw [ChainLog.operations, rows, List.map_append, List.mem_append]
      obtain old | rfl := List.mem_append.mp otherIn |>.imp_right List.mem_singleton.mp
      · exact Or.inl (merged.complete other old record before)
      · have same := before.parsed.symm.trans fresh.parsed
        cases same
        exact Or.inr (by simp [Row.operation, tag, opId])

theorem merged_foldl {done rest : List lib.Block} (positions : lib.HashesPosition) (merged : Merged sync done)
    (distinct : RecordPerTag (done ++ rest)) :
    Merged (rest.foldl (fun sync block => (sync.commitForeign block).1) sync) (done ++ rest) := by
  induction rest generalizing sync done with
  | nil => simpa using merged
  | cons block rest ih =>
    have sublist : ∀ other ∈ done ++ [block], other ∈ done ++ block :: rest := by
      intro other inside
      simp only [List.mem_append, List.mem_cons] at inside ⊢
      tauto
    have next := merged.step positions fun left leftIn right rightIn =>
      distinct left (sublist left leftIn) right (sublist right rightIn)
    have all := ih next (by simpa using distinct)
    simpa using all

variable {config : ChainSyncConfig} {keys : Option (List PublicKeyId)}

theorem merged_mergeForeign (positions : lib.HashesPosition) (distinct : RecordPerTag blocks) :
    Merged (mergeForeign config keys blocks) blocks :=
  merged_foldl positions (.empty config keys) distinct

theorem setting_mergeForeign (blocks : List lib.Block) :
    (mergeForeign config keys blocks).config = config ∧ (mergeForeign config keys blocks).keys = keys := by
  unfold mergeForeign
  induction blocks using List.reverseRecOn with
  | nil => exact ⟨rfl, rfl⟩
  | append_singleton blocks block ih =>
    rw [List.foldl_append]
    obtain ⟨sameConfig, sameKeys⟩ := setting_commitWith
      (blocks.foldl (fun sync block => (sync.commitForeign block).1) (load config keys (.empty lib)))
      (evaluateForeign _ block) block
    exact ⟨sameConfig.trans ih.1, sameKeys.trans ih.2⟩

/-- Replicas agree on what is admissible. -/
theorem admissible_mergeForeign (admissible : (mergeForeign config keys left).Admissible block record) :
    (mergeForeign config keys right).Admissible block record := by
  obtain ⟨leftConfig, leftKeys⟩ := setting_mergeForeign left
  obtain ⟨rightConfig, rightKeys⟩ := setting_mergeForeign right
  exact admissible.congr (rightConfig.trans leftConfig.symm) (rightKeys.trans leftKeys.symm)

section Subset

variable (positions : lib.HashesPosition) (leftDistinct : RecordPerTag left) (rightDistinct : RecordPerTag right)
  (sub : left ⊆ right)
include positions leftDistinct rightDistinct sub

/-- Every operation of one replica is an operation of a replica with the same blocks. -/
theorem operations_subset :
    (mergeForeign config keys left).log.operations ⊆ (mergeForeign config keys right).log.operations := by
  intro operation inside
  obtain ⟨row, rowIn, rfl⟩ := List.mem_map.mp inside
  obtain ⟨block, blockIn, record, admissible, tag, opId⟩ := (merged_mergeForeign positions leftDistinct).sound row rowIn
  rw [Row.operation, tag, opId]
  exact (merged_mergeForeign positions rightDistinct).complete block (sub blockIn) record
    (admissible_mergeForeign admissible)

/-- A replica holds the tag of an operation that occurs under one tag only. -/
theorem tags_subset (single : TagPerOperation right) :
    (mergeForeign config keys left).log.tags ⊆ (mergeForeign config keys right).log.tags := by
  intro tag inside
  obtain ⟨row, rowIn, rfl⟩ := List.mem_map.mp inside
  have rightMerged : Merged (mergeForeign config keys right) right := merged_mergeForeign positions rightDistinct
  obtain ⟨block, blockIn, record, admissible, tag, opId⟩ := (merged_mergeForeign positions leftDistinct).sound row rowIn
  have found := rightMerged.complete block (sub blockIn) record (admissible_mergeForeign admissible)
  obtain ⟨other, otherIn, same⟩ := List.mem_map.mp found
  obtain ⟨source, sourceIn, sourceRecord, sourceAdmissible, sourceTag, sourceOp⟩ := rightMerged.sound other otherIn
  obtain ⟨sameOp, sameTag⟩ := operationOf_eq_iff.mp same
  refine List.mem_map.mpr ⟨other, otherIn, ?_⟩
  rw [tag]
  by_cases null : other.opId = []
  · exact sameTag null
  · rw [sourceTag]
    rw [sourceOp] at sameOp null
    exact single source sourceIn block (sub blockIn) _ _ sourceAdmissible.parsed admissible.parsed null sameOp

end Subset

/-- Two new replicas that take the same blocks, in any order and with any repetitions, hold the operations of the
admissible ones and no others, each once, in a chain of their own; they hold the same tags where no operation has two. -/
theorem mergeForeign_converges (positions : lib.HashesPosition) (same : ∀ block, block ∈ left ↔ block ∈ right)
    (distinct : RecordPerTag left) :
    (∀ operation, operation ∈ (mergeForeign config keys left).log.operations ↔
        operation ∈ (mergeForeign config keys right).log.operations) ∧
      ((mergeForeign config keys left).log.operations.Nodup ∧ Merged (mergeForeign config keys left) left) ∧
      ((mergeForeign config keys right).log.operations.Nodup ∧ Merged (mergeForeign config keys right) right) ∧
      (TagPerOperation left → ∀ tag, tag ∈ (mergeForeign config keys left).log.tags ↔
        tag ∈ (mergeForeign config keys right).log.tags) := by
  have into : left ⊆ right := fun block => (same block).mp
  have back : right ⊆ left := fun block => (same block).mpr
  have other : RecordPerTag right := fun first firstIn second secondIn =>
    distinct first (back firstIn) second (back secondIn)
  refine ⟨fun operation => ⟨?_, ?_⟩, ⟨ChainLog.operations_nodup _, merged_mergeForeign positions distinct⟩,
    ⟨ChainLog.operations_nodup _, merged_mergeForeign positions other⟩, fun single tag => ⟨?_, ?_⟩⟩
  · exact fun inside => operations_subset positions distinct other into inside
  · exact fun inside => operations_subset positions other distinct back inside
  · refine fun inside => tags_subset positions distinct other into ?_ inside
    exact fun first firstIn second secondIn => single first (back firstIn) second (back secondIn)
  · exact fun inside => tags_subset positions other distinct back single inside

/-- A user change and an add that share no operation. -/
def userBlock : Securepath.counting.Block :=
  ⟨(1, ⟨{}, .userChange ⟨⟨.delta, []⟩, []⟩, [[]]⟩), ⟨[1], none⟩, 1, []⟩

def addBlock : Securepath.counting.Block :=
  ⟨(1, ⟨{ opId := [7] }, .dataChange [⟨List.replicate objectIdSize 5, [], none⟩], [[]]⟩), ⟨[2], none⟩, 1, []⟩

/-- Both operations are held, whatever the order of the blocks. -/
theorem mergeForeign_converges_two :
    (∀ operation, operation ∈ (mergeForeign {} none [userBlock, addBlock]).log.operations ↔
        operation ∈ (mergeForeign {} none [addBlock, userBlock, addBlock]).log.operations) ∧
      (.tagged [1] ∈ (mergeForeign {} none [addBlock, userBlock, addBlock]).log.operations ∧
        .named [7] ∈ (mergeForeign {} none [addBlock, userBlock, addBlock]).log.operations) ∧
      ∀ tag, tag ∈ (mergeForeign {} none [userBlock, addBlock]).log.tags ↔
        tag ∈ (mergeForeign {} none [addBlock, userBlock, addBlock]).log.tags := by
  have same : ∀ block, block ∈ [userBlock, addBlock] ↔ block ∈ [addBlock, userBlock, addBlock] := by
    intro block
    simp only [List.mem_cons, List.not_mem_nil, or_false]
    tauto
  have distinct : RecordPerTag [userBlock, addBlock] := by decide +kernel
  have single : TagPerOperation [userBlock, addBlock] := by
    have named : ∀ left ∈ [userBlock, addBlock], ∀ right ∈ [userBlock, addBlock],
        left.record.2.base.opId ≠ [] → left.record.2.base.opId = right.record.2.base.opId → left.tag = right.tag := by
      decide +kernel
    intro left leftIn right rightIn leftRecord rightRecord leftParsed rightParsed
    cases leftParsed
    cases rightParsed
    exact named left leftIn right rightIn
  obtain ⟨operations, _, ⟨_, merged⟩, tags⟩ :=
    mergeForeign_converges Securepath.hashesPosition_counting same distinct
  have held (block : Securepath.counting.Block) (inside : block ∈ [addBlock, userBlock, addBlock])
      (small : tooBig (mergeForeign {} none [addBlock, userBlock, addBlock]) block = false)
      (bounded : (classifyForeign .counting block.record.2).err = none) :=
    merged.complete block inside block.record.2 ⟨small, fun signs => absurd signs (by decide +kernel), rfl, bounded⟩
  exact ⟨operations, ⟨held userBlock (by simp) (by decide +kernel) (by decide +kernel),
    held addBlock (by simp) (by decide +kernel) (by decide +kernel)⟩, tags single⟩

end ChainSync

end SpSync
