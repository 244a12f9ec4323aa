import SpSync.Proof.Server.Restarts
import SpSync.Proof.Server.Settled

namespace SpSync

open Foundation RecordStorage

variable {lib : Securepath}

/-- The operation of the record. -/
def ChainEntry.opId (entry : ChainEntry lib) : Octets :=
  (lib.deserialise entry.record).elim [] fun record => record.base.opId

/-- The record names the block as the one it saw last, or as the special record it saw last. -/
def ChainEntry.Names (entry : ChainEntry lib) (id : ChainBlockId) (tag : RecordTag) : Prop :=
  ∃ record, lib.deserialise entry.record = some record ∧
    (record.base.lastSeenBlock = id ∨ record.base.lastSeenSpecialTag = tag)

/-- One record that was appended to the log, with the head of the origin that a peer sent it under. -/
structure Appended (lib : Securepath) where
  entry : ChainEntry lib
  source : Option OriginHead

/-- The appended record has the tag or the operation. -/
def Appended.Repeats (item : Appended lib) (tag : RecordTag) (opId : Octets) : Prop :=
  item.entry.tag = tag ∨ (opId ≠ [] ∧ item.entry.opId = opId)

/-- A storage with everything that was ever appended to its log. -/
structure History (lib : Securepath) where
  storage : Storage lib
  appended : List (Appended lib) := []

inductive HistoryCall (lib : Securepath)
  | commitBlock (block : lib.Block)
  | applyForeign (envelope : lib.Envelope)
  | cutHistory (segmentTag : RecordTag)

namespace History

/-- The rows that are new after a call come at the end of the table. -/
def grow (history : History lib) (storage : Storage lib) (source : Option OriginHead) : History lib where
  storage := storage
  appended := history.appended ++
    (storage.sync.log.records.rows.drop history.storage.sync.log.records.rows.length).map fun row =>
      ⟨row.entry, source⟩

def call (history : History lib) : HistoryCall lib → History lib
  | .commitBlock block => history.grow (history.storage.commitBlock block).1 none
  | .applyForeign envelope =>
      history.grow (history.storage.applyForeign envelope).1 (some (Storage.headOf envelope))
  | .cutHistory segmentTag =>
      { history with storage := (history.storage.cutHistory segmentTag).toOption.elim history.storage Prod.fst }

/-- The record was appended and is no longer in the log. -/
structure Removed (history : History lib) (item : Appended lib) : Prop where
  appended : item ∈ history.appended
  gone : ∀ row ∈ history.storage.sync.log.records.rows, row.tag ≠ item.entry.tag

/-- No appended record names the block at the position that it would get. -/
def Unnamed (history : History lib) (block : lib.Block) : Prop :=
  ∀ item ∈ history.appended, ¬ item.entry.Names (lib.blockId (block.setSequenceAndParentHash
    (history.storage.sync.log.head.sequence + 1) history.storage.sync.log.head.hash)) block.tag

/-- No appended record names a block before it is there. A client repeats a removed record only as it was, in a
mode with rules on what a record has seen; a peer repeats one only under the assignment that it came with, and beyond
the head of its origin or while its tag is in the log. -/
def Timely (history : History lib) : HistoryCall lib → Prop
  | .commitBlock block => history.Unnamed block ∧ ∀ item, history.Removed item →
      item.Repeats block.tag (lib.opIdOf block) → history.storage.sync.config.mode ≠ .allowAll ∧
        item.entry.record = block.record ∧ ChainSync.HasContent block
  | .applyForeign envelope => history.Unnamed envelope.block ∧
      envelope.origin ≠ [] ∧ (lib.blockId envelope.block).isValid = true ∧
      ∀ item, history.Removed item → item.Repeats envelope.block.tag (lib.opIdOf envelope.block) →
        item.source = some (Storage.headOf envelope) ∧ (history.storage.heads.newer (Storage.headOf envelope) = true ∨
          ∃ row ∈ history.storage.sync.log.records.rows, row.tag = envelope.block.tag)
  | .cutHistory _ => True

/-- The log, the heads of the origins and the special cursor agree with what was appended. -/
structure Kept (history : History lib) : Prop where
  topped : history.storage.sync.log.Topped
  rows : ∀ row ∈ history.storage.sync.log.records.rows, row.opId = row.entry.opId ∧
    ∃ item ∈ history.appended, item.entry = row.entry
  special : ∀ row ∈ history.storage.sync.log.records.rows, row.isSpecial = true →
    row.sequence ≤ history.storage.sync.lastUserChangeOrSegment
  cursor : history.storage.sync.lastUserChangeOrSegment ≤ history.storage.sync.log.head.sequence
  placed : ∀ item ∈ history.appended, item.entry.sequence ≤ history.storage.sync.log.head.sequence
  once : history.appended.Pairwise fun earlier later => ¬ earlier.Repeats later.entry.tag later.entry.opId
  causal : ∀ earlier ∈ history.appended, ∀ later ∈ history.appended,
    earlier.entry.sequence < later.entry.sequence →
      ¬ earlier.entry.Names ⟨later.entry.sequence, later.entry.hash⟩ later.entry.tag
  removed : ∀ item, history.Removed item →
    item.entry.sequence < history.storage.sync.lastUserChangeOrSegment
  heads : ∀ item ∈ history.appended, ∀ head, item.source = some head → history.storage.heads.newer head = false

end History

namespace ChainSync

variable {sync : ChainSync lib} {record : Record} {type : RecType}

theorem checkRulesSpecialSeen_none {tag : RecordTag} (ruled : sync.config.mode.requiresSpecialSeen = true)
    (started : sync.lastUserChangeOrSegment ≠ 0) (seen : sync.checkRulesSpecialSeen tag = none) :
    ∃ row, sync.log.records.findTag tag = some row ∧ sync.lastUserChangeOrSegment ≤ row.sequence := by
  unfold checkRulesSpecialSeen at seen
  rw [if_pos (by simp [ruled, started])] at seen
  cases found : sync.log.records.findTag tag with
  | none => simp [found] at seen
  | some row =>
    simp only [found] at seen
    split at seen
    · cases seen
    split at seen
    · cases seen
    · rename_i later
      exact ⟨row, rfl, Nat.not_lt.mp later⟩

/-- Outside the mode without rules, an accepted record has seen the head or a special record that no other one
follows. -/
theorem checkRules_sawNewest (ruled : sync.config.mode ≠ .allowAll) (content : record.body ≠ .dataChange [])
    (started : sync.lastUserChangeOrSegment ≠ 0) (accepted : sync.checkRules record = .ok ⟨none, type⟩) :
    record.base.lastSeenBlock = sync.log.head ∨ ∃ row,
      sync.log.records.findTag record.base.lastSeenSpecialTag = some row ∧
        sync.lastUserChangeOrSegment ≤ row.sequence := by
  obtain seen | ⟨weak, special⟩ := checkRules_sees content accepted
  · exact Or.inl seen
  have asked : sync.config.mode.requiresSpecialSeen = true := by
    cases mode : sync.config.mode <;> simp_all [SyncMode.requiresSpecialSeen]
  exact Or.inr (checkRulesSpecialSeen_none asked started special)

/-- An accepted block has neither the tag nor the operation of a row. -/
theorem unseen_of_accepted {rules : Record → Except Error RuleResult} {block : lib.Block}
    (accepted : sync.evaluateWith rules block = .ok ⟨none, type⟩) :
    ∀ row ∈ sync.log.records.rows,
      row.tag ≠ block.tag ∧ (lib.opIdOf block ≠ [] → row.opId ≠ lib.opIdOf block) := by
  obtain ⟨_, newTag, _, record, parsed, newOp, _⟩ := evaluateWith_accepted accepted
  intro row inside
  refine ⟨findTag_eq_none_iff.mp newTag row inside, fun named => ?_⟩
  have operation : lib.opIdOf block = record.base.opId := by rw [Securepath.opIdOf, parsed]; rfl
  rw [operation] at named ⊢
  have missing := List.find?_eq_none.mp (newOp named) row inside
  simpa [named] using missing

/-- A commit changes nothing, or moves the special cursor to a user change or a segment. -/
theorem commitWith_cursor (sync : ChainSync lib) (rules : Record → Except Error RuleResult) (block : lib.Block)
    (kind : ∀ record type, rules record = .ok ⟨none, type⟩ → Kind record type) :
    (∃ err, sync.commitWith (sync.evaluateWith rules block) block = (sync, .error err)) ∨
    ∃ saved placed, sync.commitWith (sync.evaluateWith rules block) block = (saved, .ok placed) ∧
      ∀ record, lib.deserialise block.record = some record → saved.lastUserChangeOrSegment =
        if (record.body.type = .userChange || record.body.type = .segment) = true then sync.log.head.sequence + 1
        else sync.lastUserChangeOrSegment := by
  obtain ⟨err, refused, _⟩ | ⟨type, saved, placed, verdict, done, committed⟩ :=
    commitWith_cases sync (sync.evaluateWith rules block) block
  · exact Or.inl ⟨err, refused⟩
  refine Or.inr ⟨saved, placed, committed, fun record parsed => ?_⟩
  obtain ⟨_, _, _, content, parsedAgain, _, accepted⟩ := evaluateWith_accepted verdict
  obtain rfl : record = content := Option.some.inj (parsed.symm.trans parsedAgain)
  obtain ⟨rfl, _, _, _, _, special⟩ := setAndSaveBlock_appended done
  rw [special]
  simp only [(kind record type accepted).special]
  rfl

end ChainSync

namespace Storage

variable {storage : Storage lib}

/-- The special cursor moves to a block that is a user change or a segment. -/
def MovesCursor (before after : Storage lib) (block : lib.Block) : Prop :=
  ∀ record, lib.deserialise block.record = some record → after.sync.lastUserChangeOrSegment =
    if (record.body.type = .userChange || record.body.type = .segment) = true then before.sync.log.head.sequence + 1
    else before.sync.lastUserChangeOrSegment

theorem commitBlock_cursor (storage : Storage lib) (block : lib.Block) :
    (storage.commitBlock block).1.sync = storage.sync ∨
      MovesCursor storage (storage.commitBlock block).1 block := by
  unfold commitBlock ChainSync.commitBlock
  obtain ⟨err, refused⟩ | ⟨saved, placed, committed, cursor⟩ := storage.sync.commitWith_cursor
    storage.sync.checkRules block fun _ _ accepted => ChainSync.kind_of_checkRules accepted
  · left
    rw [ChainSync.evaluate, refused]
  · right
    rw [ChainSync.evaluate, committed]
    dsimp only
    split
    · exact cursor
    · split <;> exact cursor

theorem applyForeign_cursor {envelope : lib.Envelope} (admitted : storage.admitForeign envelope = (storage, none))
    (foreign : envelope.origin ≠ storage.ownId)
    (fresh : ∀ row ∈ storage.sync.log.records.rows, row.tag ≠ envelope.block.tag) :
    (storage.applyForeign envelope).1.sync = storage.sync ∨
      MovesCursor storage (storage.applyForeign envelope).1 envelope.block := by
  have unheld : ¬ (storage.sync.log.records.findTag envelope.block.tag).isSome = true := by
    simp [findTag_eq_none_iff.mpr fresh]
  have advances (moved : Storage lib) (head : OriginHead) : (moved.advanceHead head).1.sync = moved.sync := by
    unfold advanceHead
    split <;> rfl
  rw [applyForeign, admitted]
  unfold applyAdmitted ChainSync.commitForeign
  dsimp only
  rw [if_neg foreign, if_neg unheld, ChainSync.evaluateForeign]
  obtain ⟨err, refused⟩ | ⟨saved, placed, committed, cursor⟩ := storage.sync.commitWith_cursor
    (fun record => .ok (ChainSync.classifyForeign lib record)) envelope.block
    fun _ _ accepted => (ChainSync.exactKind_of_classifyForeign (Except.ok.inj accepted)).toKind
  · left
    rw [refused]
    dsimp only
    split
    · rw [advances]
    · rfl
  · right
    rw [committed]
    have moved := advances { storage with sync := saved }
      ⟨envelope.origin, envelope.term, lib.blockId envelope.block⟩
    dsimp only
    split
    · rename_i advanced err failed
      rw [failed] at moved
      rw [MovesCursor, moved]
      exact cursor
    · rename_i advanced succeeded
      rw [succeeded] at moved
      have same : MovesCursor storage advanced envelope.block := by
        rw [MovesCursor, moved]
        exact cursor
      split <;> exact same

end Storage

/-- An advance passes the given head and takes none back. -/
theorem StorageHeads.newer_advance {heads advanced : StorageHeads} {head : OriginHead}
    (done : heads.advance head = .ok advanced) :
    advanced.newer head = false ∧ ∀ other, heads.newer other = false → advanced.newer other = false := by
  obtain ⟨_, ⟨isNewer, rfl⟩ | ⟨isOlder, rfl⟩⟩ := advance_ok done
  · have found (origin : PublicKeyId) : StorageHeads.find ⟨put head heads.entries⟩ origin =
        if head.origin = origin then some head else heads.find origin := find?_put head heads.entries origin
    constructor
    · simp [newer, found]
    intro other older
    unfold newer at isNewer older ⊢
    rw [found]
    by_cases same : head.origin = other.origin
    · rw [if_pos same]
      rw [same] at isNewer
      cases held : heads.find other.origin with
      | none => simp [held] at older
      | some existing =>
        simp only [held, Bool.or_eq_true, Bool.or_eq_false_iff, Bool.and_eq_true, Bool.and_eq_false_iff,
          decide_eq_true_eq, decide_eq_false_iff_not] at isNewer older ⊢
        obtain ⟨notLater, term | sequence⟩ := older
        · omega
        · obtain later | ⟨sameTerm, later⟩ := isNewer
          · omega
          · exact ⟨by omega, Or.inr fun beyond => sequence (Nat.lt_trans later beyond)⟩
    · rw [if_neg same]
      exact older
  · exact ⟨isOlder, fun _ older => older⟩

namespace History

variable {history : History lib} {after : Storage lib} {source : Option OriginHead}

theorem grow_saved {newest : Row lib}
    (rows : after.sync.log.records.rows = history.storage.sync.log.records.rows ++ [newest]) :
    (history.grow after source).appended = history.appended ++ [⟨newest.entry, source⟩] := by
  simp [grow, rows]

namespace Kept

variable (kept : history.Kept) {block : lib.Block} {assignment : Option (Assignment lib)} {item : Appended lib}

include kept

theorem eq_of_tag {left right : Appended lib} (leftIn : left ∈ history.appended) (rightIn : right ∈ history.appended)
    (same : left.entry.tag = right.entry.tag) : left = right :=
  Table.eq_of_column (kept.once.imp fun apart equal => apart (Or.inl equal)) leftIn rightIn same

/-- A tag and an operation that are not in the log, and in no removed record, were never appended. -/
theorem fresh {tag : RecordTag} {opId : Octets}
    (unseen : ∀ row ∈ history.storage.sync.log.records.rows, row.tag ≠ tag ∧ (opId ≠ [] → row.opId ≠ opId))
    (gone : ∀ item, history.Removed item → ¬ item.Repeats tag opId) :
    ∀ item ∈ history.appended, ¬ item.Repeats tag opId := by
  intro item inside repeats
  by_cases removed : ∀ row ∈ history.storage.sync.log.records.rows, row.tag ≠ item.entry.tag
  · exact gone item ⟨inside, removed⟩ repeats
  push Not at removed
  obtain ⟨row, rowIn, sameTag⟩ := removed
  obtain ⟨operation, other, otherIn, entry⟩ := kept.rows row rowIn
  obtain rfl : other = item := kept.eq_of_tag otherIn inside (by rw [entry]; exact sameTag)
  obtain ⟨newTag, newOp⟩ := unseen row rowIn
  obtain tag | ⟨some, sameOp⟩ := repeats
  · exact newTag (sameTag.trans tag)
  · apply newOp some
    rw [operation, ← entry]
    exact sameOp

/-- Nothing is appended and no head is taken back. -/
theorem hold (sync : after.sync = history.storage.sync)
    (heads : ∀ head, history.storage.heads.newer head = false → after.heads.newer head = false) :
    (history.grow after source).Kept := by
  have same : history.grow after source = ⟨after, history.appended⟩ := by simp [grow, sync]
  rw [same]
  cases after
  cases sync
  exact { kept with
    removed := fun item gone => kept.removed item ⟨gone.appended, gone.gone⟩
    heads := fun item inside head sent => heads head (kept.heads item inside head sent) }

/-- A new record is appended at the next position. -/
theorem append {newest : Row lib} (saved : Storage.Saved history.storage after block assignment)
    (row : Storage.SavedRow history.storage after block assignment newest)
    (operation : newest.opId = newest.entry.opId)
    (cursor : after.sync.lastUserChangeOrSegment =
      if newest.isSpecial = true then newest.sequence else history.storage.sync.lastUserChangeOrSegment)
    (fresh : ∀ item ∈ history.appended, ¬ item.Repeats newest.tag newest.entry.opId)
    (unnamed : ∀ item ∈ history.appended, ¬ item.entry.Names newest.blockId newest.tag)
    (heads : ∀ head, history.storage.heads.newer head = false → after.heads.newer head = false)
    (passed : ∀ head, source = some head → after.heads.newer head = false) : (history.grow after source).Kept := by
  have appended : (history.grow after source).appended = history.appended ++ [⟨newest.entry, source⟩] :=
    grow_saved row.rows
  have mem {item : Appended lib} (inside : item ∈ (history.grow after source).appended) :
      item ∈ history.appended ∨ item = ⟨newest.entry, source⟩ := by
    rw [appended] at inside
    simpa using inside
  have moves : history.storage.sync.lastUserChangeOrSegment ≤ after.sync.lastUserChangeOrSegment := by
    rw [cursor]
    split
    · rw [row.sequence]
      exact Nat.le_succ_of_le kept.cursor
    · exact Nat.le_refl _
  have top : after.sync.log.head.sequence = history.storage.sync.log.head.sequence + 1 := saved.head_sequence
  constructor
  · exact saved.topped kept.topped
  · intro other inside
    obtain old | rfl := row.mem inside
    · obtain ⟨op, item, itemIn, entry⟩ := kept.rows other old
      exact ⟨op, item, by simp [appended, itemIn], entry⟩
    · exact ⟨operation, ⟨other.entry, source⟩, by simp [appended], rfl⟩
  · intro other inside special
    obtain old | rfl := row.mem inside
    · exact (kept.special other old special).trans moves
    · change _ ≤ after.sync.lastUserChangeOrSegment
      rw [cursor, if_pos special]
  · change after.sync.lastUserChangeOrSegment ≤ after.sync.log.head.sequence
    rw [cursor, top]
    split
    · exact Nat.le_of_eq row.sequence
    · exact Nat.le_succ_of_le kept.cursor
  · intro item inside
    change _ ≤ after.sync.log.head.sequence
    rw [top]
    obtain old | rfl := mem inside
    · exact Nat.le_succ_of_le (kept.placed item old)
    · exact Nat.le_of_eq row.sequence
  · rw [appended, List.pairwise_append]
    refine ⟨kept.once, List.pairwise_singleton _ _, fun item inside later same => ?_⟩
    obtain rfl := List.mem_singleton.mp same
    exact fresh item inside
  · intro earlier earlierIn later laterIn before
    obtain old | rfl := mem earlierIn
    · obtain also | rfl := mem laterIn
      · exact kept.causal earlier old later also before
      · exact unnamed earlier old
    · -- Nothing stands behind the new record.
      have bound : later.entry.sequence ≤ history.storage.sync.log.head.sequence + 1 := by
        obtain also | rfl := mem laterIn
        · exact Nat.le_succ_of_le (kept.placed later also)
        · exact Nat.le_of_eq row.sequence
      exact absurd (Nat.lt_of_lt_of_le before bound) (Nat.not_lt.mpr (Nat.le_of_eq row.sequence.symm))
  · intro item gone
    obtain ⟨inside, missing⟩ := gone
    obtain old | rfl := mem inside
    · exact (kept.removed item ⟨old, fun other otherIn => missing other (row.mem_of_mem otherIn)⟩).trans_le moves
    · exact absurd rfl (missing newest row.mem_newest)
  · intro item inside head sent
    obtain old | rfl := mem inside
    · exact heads head (kept.heads item old head sent)
    · exact passed head sent

/-- A saved block that was never appended is appended. -/
theorem save (saved : Storage.Saved history.storage after block assignment)
    (moved : after.sync = history.storage.sync ∨ Storage.MovesCursor history.storage after block)
    (unnamed : history.Unnamed block) (fresh : ∀ item ∈ history.appended, ¬ item.Repeats block.tag (lib.opIdOf block))
    (heads : ∀ head, history.storage.heads.newer head = false → after.heads.newer head = false)
    (passed : ∀ head, source = some head → after.heads.newer head = false) : (history.grow after source).Kept := by
  obtain ⟨newest, row⟩ := saved.exists_row
  obtain ⟨record, parsed, opId, type⟩ := row.content
  have operation : newest.entry.opId = lib.opIdOf newest.block := rfl
  have sameOp : lib.opIdOf newest.block = lib.opIdOf block := by rw [row.block]; rfl
  refine kept.append saved row ?_ ?_ ?_ ?_ heads passed
  · rw [operation, Securepath.opIdOf, parsed, opId]
    rfl
  · obtain same | cursor := moved
    · -- The table has grown, so the storage is not the same.
      have longer := congrArg List.length row.rows
      simp [same] at longer
    · rw [row.block] at parsed
      rw [cursor record parsed, row.sequence, Row.isSpecial, type]
  · rw [row.tag, operation, sameOp]
    exact fresh
  · rw [row.blockId, saved.head, row.tag]
    exact unnamed

/-- A record that follows a removed one was not seen by it. -/
theorem unseen_later (removed : history.Removed item) {row : Row lib}
    (inside : row ∈ history.storage.sync.log.records.rows)
    (later : history.storage.sync.lastUserChangeOrSegment ≤ row.sequence) :
    ¬ item.entry.Names row.blockId row.tag := by
  obtain ⟨_, other, otherIn, entry⟩ := kept.rows row inside
  have before : item.entry.sequence < other.entry.sequence := by
    rw [entry]
    exact Nat.lt_of_lt_of_le (kept.removed item removed) later
  have notNamed := kept.causal item removed.appended other otherIn before
  rwa [entry] at notNamed

/-- The rules on what a record has seen refuse a removed record. -/
theorem refuses (removed : history.Removed item) {type : RecType}
    (ruled : history.storage.sync.config.mode ≠ .allowAll) (same : item.entry.record = block.record)
    (content : ChainSync.HasContent block) : history.storage.sync.evaluate block ≠ .ok ⟨none, type⟩ := by
  intro verdict
  obtain ⟨_, _, _, record, parsed, _, accepted⟩ := ChainSync.evaluateWith_accepted verdict
  have below := kept.removed item removed
  have parsedItem : lib.deserialise item.entry.record = some record := same ▸ parsed
  have started : history.storage.sync.lastUserChangeOrSegment ≠ 0 := Nat.ne_of_gt (Nat.zero_lt_of_lt below)
  obtain head | ⟨row, found, later⟩ :=
    ChainSync.checkRules_sawNewest ruled (content record parsed) started accepted
  · obtain ⟨_, empty⟩ | ⟨row, inside, last⟩ := kept.topped.top
    · have bound := kept.cursor
      rw [empty] at bound
      exact started (Nat.le_zero.mp bound)
    · have sequence : row.sequence = history.storage.sync.log.head.sequence := congrArg ChainBlockId.sequence last
      exact kept.unseen_later removed inside (sequence ▸ kept.cursor)
        ⟨record, parsedItem, Or.inl (head.trans last.symm)⟩
  · obtain ⟨inside, tag⟩ := findTag_eq_some_iff.mp found
    exact kept.unseen_later removed inside later ⟨record, parsedItem, Or.inr tag.symm⟩

theorem commitBlock (timely : history.Timely (.commitBlock block)) : (history.call (.commitBlock block)).Kept := by
  obtain ⟨unnamed, repeated⟩ := timely
  obtain ⟨err, refused⟩ | ⟨placed, type, _, verdict, _, saved, heads⟩ :=
    Storage.commitBlock_saved history.storage block
  · rw [call, refused]
    exact kept.hold rfl fun _ older => older
  · refine kept.save saved (Storage.commitBlock_cursor _ _) unnamed ?_ (fun head older => heads ▸ older) (by simp)
    refine kept.fresh (ChainSync.unseen_of_accepted verdict) fun item removed repeats => ?_
    obtain ⟨ruled, same, content⟩ := repeated item removed repeats
    exact kept.refuses removed ruled same content verdict

theorem applyForeign {envelope : lib.Envelope} (timely : history.Timely (.applyForeign envelope)) :
    (history.call (.applyForeign envelope)).Kept := by
  obtain ⟨unnamed, origin, valid, repeated⟩ := timely
  rw [call]
  obtain ⟨evidence, err, refused⟩ | ⟨after, report, result, admitted, applied⟩ :=
    Storage.applyForeign_cases history.storage envelope
  · rw [refused]
    exact kept.hold rfl fun _ older => older
  have cursor := Storage.applyForeign_cursor admitted
  rw [result] at cursor ⊢
  cases applied with
  | own => exact kept.hold rfl fun _ older => older
  | skipped _ _ advanced => exact kept.hold rfl (StorageHeads.newer_advance advanced).2
  | refused => exact kept.hold rfl fun _ older => older
  | unassigned err _ invalid =>
    unfold StorageHeads.advance at invalid
    rw [if_neg (by simp [Storage.headOf, origin, valid])] at invalid
    split at invalid <;> cases invalid
  | committed foreign fresh accepted saved advanced =>
    obtain ⟨type, verdict⟩ := accepted
    obtain ⟨passed, keeps⟩ := StorageHeads.newer_advance advanced
    refine kept.save saved (cursor foreign fresh) unnamed ?_ keeps ?_
    · refine kept.fresh (ChainSync.unseen_of_accepted verdict) fun item removed repeats => ?_
      obtain ⟨source, beyond⟩ := repeated item removed repeats
      have older := kept.heads item removed.appended _ source
      obtain newer | ⟨row, inside, tag⟩ := beyond
      · rw [older] at newer
        cases newer
      · exact fresh row inside tag
    · rintro head ⟨rfl⟩
      exact passed

/-- A cut removes what is below a segment, hence below the special cursor. -/
theorem cutHistory (segmentTag : RecordTag) : (history.call (.cutHistory segmentTag)).Kept := by
  rw [History.call]
  cases done : history.storage.cutHistory segmentTag with
  | error err => exact kept
  | ok outcome =>
    obtain ⟨log, cut, result⟩ := Storage.cutHistory_ok done
    obtain ⟨segment, found, isSegment, _, rows, _⟩ := ChainLog.cutBefore_ok cut
    obtain ⟨topped, head⟩ := kept.topped.cutBefore cut
    have sub : ∀ row ∈ log.records.rows, row ∈ history.storage.sync.log.records.rows := by
      rw [rows]
      exact fun row inside => (List.mem_filter.mp inside).1
    change History.Kept { history with storage := outcome.1 }
    rw [result]
    refine { kept with
      topped
      rows := fun row inside => kept.rows row (sub row inside)
      special := fun row inside => kept.special row (sub row inside)
      cursor := head ▸ kept.cursor
      placed := head ▸ kept.placed
      removed := ?_ }
    rintro item ⟨inside, missing⟩
    by_cases before : ∀ row ∈ history.storage.sync.log.records.rows, row.tag ≠ item.entry.tag
    · exact kept.removed item ⟨inside, before⟩
    push Not at before
    obtain ⟨row, rowIn, tag⟩ := before
    obtain ⟨_, other, otherIn, entry⟩ := kept.rows row rowIn
    obtain rfl : other = item := kept.eq_of_tag otherIn inside (by rw [entry]; exact tag)
    have isCut : row ∉ log.records.rows := fun still => missing row still tag
    rw [rows, List.mem_filter] at isCut
    simp only [rowIn, true_and, Bool.not_eq_true', Bool.not_eq_false, RecordStorage.isCut, Bool.and_eq_true,
      decide_eq_true_eq] at isCut
    have special := kept.special segment (findTag_eq_some_iff.mp found).1 (by simp [Row.isSpecial, isSegment])
    rw [entry]
    exact Nat.lt_of_lt_of_le isCut.1.2 special

theorem call (input : HistoryCall lib) (timely : history.Timely input) : (history.call input).Kept := by
  cases input with
  | commitBlock block => exact kept.commitBlock timely
  | applyForeign envelope => exact kept.applyForeign timely
  | cutHistory segmentTag => exact kept.cutHistory segmentTag

end Kept

/-- A new storage to which nothing was appended. -/
def opened (storage : Storage lib) : History lib where
  storage := storage

section Run

variable {id : Octets} {ownId : PublicKeyId} {keys : Option (List PublicKeyId)} {modes : StorageModes}
  {defaults : StorageLimits} {start : Storage lib}

theorem kept_opened : (opened (.ofModes id ownId keys modes) : History lib).Kept where
  topped := ChainLog.topped_empty lib
  rows := by simp [opened, Storage.ofModes, ChainSync.load, ChainLog.load, RecordStorage.empty]
  special := by simp [opened, Storage.ofModes, ChainSync.load, ChainLog.load, RecordStorage.empty]
  cursor := Nat.le_refl 0
  placed := by simp [opened]
  once := by simp [opened]
  causal := by simp [opened]
  removed := fun item gone => by simpa [opened] using gone.appended
  heads := by simp [opened]

/-- In a run of timely calls every tag and every operation is appended once. -/
theorem appended_once (created : Storage.create id ownId keys modes defaults = .ok start)
    (run : Runs call Timely (opened start) history) :
    history.appended.Pairwise fun earlier later => earlier.entry.tag ≠ later.entry.tag ∧
      (later.entry.opId ≠ [] → earlier.entry.opId ≠ later.entry.opId) := by
  obtain ⟨limits, rfl⟩ := Storage.create_ok created
  have kept : history.Kept := run.keeps kept_opened fun _ input kept timely => kept.call input timely
  refine kept.once.imp fun {earlier later} apart => ⟨fun same => apart (Or.inl same), fun named same => ?_⟩
  exact apart (Or.inr ⟨named, same⟩)

end Run

end History

instance (entry : ChainEntry lib) (id : ChainBlockId) (tag : RecordTag) : Decidable (entry.Names id tag) :=
  match parsed : lib.deserialise entry.record with
  | none => isFalse (by simp [ChainEntry.Names, parsed])
  | some record => decidable_of_iff
      (record.base.lastSeenBlock = id ∨ record.base.lastSeenSpecialTag = tag) (by simp [ChainEntry.Names, parsed])

instance (item : Appended lib) (tag : RecordTag) (opId : Octets) : Decidable (item.Repeats tag opId) :=
  inferInstanceAs (Decidable (_ ∨ _))

instance (history : History lib) (block : lib.Block) : Decidable (history.Unnamed block) :=
  inferInstanceAs (Decidable (∀ item ∈ history.appended, _))

namespace History

/-- A user change of the client 6, signed by another server for the first sequence of its log. -/
def resentChange : Securepath.sample.Envelope :=
  ⟨⟨(1, ⟨{ opId := [7] }, .userChange ⟨⟨.delta, []⟩, []⟩, [[]]⟩), ⟨[1], some ⟨[6], [1]⟩⟩, 1, []⟩,
    [4], 0, some ⟨[4], [9, 1]⟩⟩

/-- The segment that covers the user change. -/
def coveringSegment : Securepath.sample.Block :=
  ⟨(1, ⟨{ lastSeenBlock := ⟨1, [1, 1]⟩ }, .segment ⟨1, 2, [[1]], []⟩, []⟩), ⟨[2], some ⟨[6], [2]⟩⟩, 0, []⟩

def replicated : History .sample :=
  opened (.ofModes [9] [3] (some [[4], [6]]) (Storage.weakModes .requireAllSeen))

/-- The storage after the user change was applied, covered by a segment and cut. -/
def cutReplicated : History .sample :=
  ((replicated.call (.applyForeign resentChange)).call (.commitBlock coveringSegment)).call (.cutHistory [2])

/-- A client that sends the cut user change again is refused. -/
theorem appended_once_resent :
    let later := cutReplicated.call (.commitBlock resentChange.block)
    later.appended.Pairwise (fun earlier later => earlier.entry.tag ≠ later.entry.tag ∧
      (later.entry.opId ≠ [] → earlier.entry.opId ≠ later.entry.opId)) ∧
      later.appended.map (fun item => item.entry.tag) = [[1], [2]] ∧
      later.storage.sync.log.records.rows.map Row.tag = [[2]] := by
  have run : Runs call Timely replicated (cutReplicated.call (.commitBlock resentChange.block)) := by
    refine .tail (.tail (.tail (.tail (.refl _) ?_) ?_) trivial) ?_
    · refine ⟨by decide +kernel, by decide, by decide +kernel, ?_⟩
      exact fun item removed => absurd removed.appended (List.not_mem_nil)
    · refine ⟨by decide +kernel, fun item removed repeats => ?_⟩
      have none : ∀ item ∈ (replicated.call (.applyForeign resentChange)).appended,
        ¬ item.Repeats coveringSegment.tag (Securepath.sample.opIdOf coveringSegment) := by decide +kernel
      exact absurd repeats (none item removed.appended)
    · refine ⟨by decide +kernel, fun item removed repeats => ⟨by decide +kernel, ?_, ?_⟩⟩
      · have same : ∀ item ∈ cutReplicated.appended, item.Repeats resentChange.block.tag
            (Securepath.sample.opIdOf resentChange.block) → item.entry.record = resentChange.block.record := by
          decide +kernel
        exact same item removed.appended repeats
      · rintro record ⟨rfl⟩
        simp [resentChange]
  exact ⟨appended_once (Storage.create_weakModes _ _ _ _) run, by decide +kernel, by decide +kernel⟩

/-- The peer sends the cut user change again, and it is appended a second time. -/
theorem not_appended_once_resent :
    let later := cutReplicated.call (.applyForeign resentChange)
    Runs call (fun _ _ => True) replicated later ∧
      later.appended.map (fun item => item.entry.tag) = [[1], [2], [1]] ∧
      later.appended.map (fun item => item.entry.opId) = [[7], [], [7]] ∧
      later.storage.sync.log.records.rows.map Row.tag = [[2], [1]] := by
  refine ⟨?_, by decide +kernel, by decide +kernel, by decide +kernel⟩
  exact .tail (.tail (.tail (.tail (.refl _) trivial) trivial) trivial) trivial

end History

end SpSync
