import Mathlib.Order.MinMax
import SpSync.Construction.Server.PeerConnection
import SpSync.Foundation.Cursor
import SpSync.Proof.Server.StorageSteps

namespace SpSync

open Foundation

/-- The operation of the record inside a block, empty when it has none. -/
def Securepath.opIdOf (lib : Securepath) (block : lib.Block) : Octets :=
  (lib.deserialise block.record).elim [] fun record => record.base.opId

variable {lib : Securepath} {row : Row lib}

/-- The row keeps the record of the envelope under the envelope's assignment. -/
structure RowOf (row : Row lib) (envelope : lib.Envelope) : Prop where
  assignment : row.assignment = some { envelope }
  state : row.state = .inSync
  tag : row.tag = envelope.block.tag
  opId : row.opId = lib.opIdOf envelope.block

theorem RowOf.indexed {envelope : lib.Envelope} (kept : RowOf row envelope) : row.indexed = some envelope := by
  simp [Row.indexed, kept.assignment]

theorem RowOf.eq {left right : lib.Envelope} (keptLeft : RowOf row left) (keptRight : RowOf row right) :
    left = right := by
  simpa using keptLeft.assignment.symm.trans keptRight.assignment

/-- The envelopes assign one record: they share the tag or the operation. -/
def SameRecord (left right : lib.Envelope) : Prop :=
  left.block.tag = right.block.tag ∨
    lib.opIdOf left.block ≠ [] ∧ lib.opIdOf left.block = lib.opIdOf right.block

/-- One assignment of an origin lies before another. -/
def Before (left right : lib.Envelope) : Prop :=
  left.origin = right.origin ∧ left.block.sequence < right.block.sequence

/-- What honest origins assign: every record once, every sequence of an origin once. -/
structure Honest (assigned : lib.Envelope → Prop) : Prop where
  origin : ∀ envelope, assigned envelope → envelope.origin ≠ []
  term : ∀ envelope, assigned envelope → envelope.term = 0
  sequence : ∀ envelope, assigned envelope → 0 < envelope.block.sequence
  oneRecord : ∀ left right, assigned left → assigned right → SameRecord left right → left = right
  oneSequence : ∀ left right, assigned left → assigned right → left.origin = right.origin →
    left.block.sequence = right.block.sequence → left = right

namespace StorageHeads

variable {heads : StorageHeads} {head : OriginHead}

/-- The sequence up to which the origin is known. -/
def reach (heads : StorageHeads) (origin : PublicKeyId) : SequenceNumber :=
  (heads.find origin).elim 0 fun head => head.block.sequence

theorem find?_put (head : OriginHead) (entries : List OriginHead) (origin : PublicKeyId) :
    (put head entries).find? (fun other => other.origin = origin) =
      if head.origin = origin then some head else entries.find? fun other => other.origin = origin := by
  induction entries with
  | nil => by_cases same : head.origin = origin <;> simp [put, same]
  | cons first rest ih =>
    unfold put
    split
    · rename_i same
      by_cases wanted : head.origin = origin
      · simp [wanted]
      · have other : ¬ first.origin = origin := by rwa [same]
        simp [wanted, other]
    · rename_i different
      split
      · by_cases wanted : head.origin = origin <;> simp [wanted]
      by_cases wanted : first.origin = origin
      · have other : ¬ head.origin = origin := fun same => different (wanted.trans same.symm)
        simp [wanted, other]
      · simp [wanted, ih]

/-- A head of the first term is newer exactly when it is beyond the sequence that is reached. -/
theorem newer_iff (terms : ∀ kept ∈ heads.entries, kept.term = 0) (term : head.term = 0)
    (valid : 0 < head.block.sequence) : heads.newer head = true ↔ heads.reach head.origin < head.block.sequence := by
  unfold newer reach
  cases found : heads.find head.origin with
  | none => simpa using valid
  | some existing =>
    have first : existing.term = 0 := terms existing (List.mem_of_find?_eq_some found)
    simp [first, term]

/-- Heads of the first term reach as far as the newest head put. -/
theorem reach_advance {advanced : StorageHeads} (done : heads.advance head = .ok advanced)
    (terms : ∀ kept ∈ heads.entries, kept.term = 0) (term : head.term = 0) (origin : PublicKeyId) :
    advanced.reach origin = if head.origin = origin then max (heads.reach origin) head.block.sequence
      else heads.reach origin := by
  obtain ⟨⟨-, valid⟩, change⟩ := advance_ok done
  have positive : 0 < head.block.sequence := by
    simp only [ChainBlockId.isValid, Bool.and_eq_true, decide_eq_true_eq] at valid
    exact Nat.pos_of_ne_zero valid.1
  have beyond := newer_iff terms term positive
  rcases change with ⟨isNewer, rfl⟩ | ⟨isOlder, rfl⟩
  · rw [isNewer] at beyond
    unfold reach find at beyond ⊢
    rw [find?_put]
    split
    · rename_i same
      rw [same] at beyond
      exact (Nat.max_eq_right (Nat.le_of_lt (beyond.mp rfl))).symm
    · rfl
  · split
    · rename_i same
      rw [isOlder, same] at beyond
      have least : ¬ advanced.reach origin < head.block.sequence := fun less => by simpa using beyond.mpr less
      exact (Nat.max_eq_left (Nat.le_of_not_lt least)).symm
    · rfl

end StorageHeads

/-- A foreign block that counts as committed already is held by its tag or its operation. -/
theorem ChainSync.held_of_alreadyCommitted {sync : ChainSync lib} {block : lib.Block} {err : Error} {type : RecType}
    (verdict : sync.evaluateForeign block = .ok ⟨some err, type⟩) (code : err.code = .recordAlreadyCommitted) :
    (sync.log.records.findTag block.tag).isSome = true ∨
      lib.opIdOf block ≠ [] ∧ (sync.log.records.findOpId (lib.opIdOf block)).isSome = true := by
  unfold evaluateForeign evaluateWith at verdict
  split at verdict
  · simp only [Except.ok.injEq, RuleResult.mk.injEq, Option.some.injEq] at verdict
    rw [← verdict.1] at code
    cases code
  · split at verdict
    · rename_i found
      exact Or.inl (by simp [found])
    split at verdict
    · rename_i signature
      simp only [Except.ok.injEq, RuleResult.mk.injEq, Option.some.injEq] at verdict
      rw [verdict.1] at signature
      split at signature
      · rcases sync.verifySignature_code signature with other | other <;> rw [other] at code <;> cases code
      · cases signature
    · split at verdict
      · cases verdict
      rename_i record parsed
      split at verdict
      · rename_i operation
        simp only [Bool.and_eq_true, decide_eq_true_eq] at operation
        exact Or.inr (by simpa [Securepath.opIdOf, parsed] using operation)
      · simp only [Except.ok.injEq] at verdict
        have refused := classifyForeign_code verdict
        rw [refused] at code
        cases code

namespace Storage

variable {before after : Storage lib} {envelope : lib.Envelope} {one two : List lib.Envelope} {block : lib.Block}

/-- The storage holds the record of the envelope under the envelope's assignment. -/
def HoldsAssignment (storage : Storage lib) (envelope : lib.Envelope) : Prop :=
  ∃ row ∈ storage.sync.log.records.rows, RowOf row envelope

/-- The record is held, rejected here for good, or lost on the way here. -/
def Settled (lost : lib.Envelope → Prop) (storage : Storage lib) (rejected : List lib.Envelope)
    (envelope : lib.Envelope) : Prop :=
  storage.HoldsAssignment envelope ∨ envelope ∈ rejected ∨ lost envelope

/-- A replica of honest origins: its rows and heads are theirs, its heads reach its rows, and what
its heads reach is settled. -/
structure Replicates (assigned lost : lib.Envelope → Prop) (storage : Storage lib) (rejected : List lib.Envelope) :
    Prop where
  rows : ∀ row ∈ storage.sync.log.records.rows, ∃ envelope, RowOf row envelope ∧ assigned envelope
  heads : ∀ head ∈ storage.heads.entries, ∃ envelope, assigned envelope ∧ head = headOf envelope
  own : ∀ envelope, assigned envelope → envelope.origin = storage.ownId → storage.HoldsAssignment envelope
  within : ∀ envelope, storage.HoldsAssignment envelope → envelope.origin ≠ storage.ownId →
    envelope.block.sequence ≤ storage.heads.reach envelope.origin
  covered : ∀ envelope, assigned envelope → envelope.origin ≠ storage.ownId →
    envelope.block.sequence ≤ storage.heads.reach envelope.origin → Settled lost storage rejected envelope
  heights : ∀ row ∈ storage.sync.log.records.rows, row.sequence ≤ storage.sync.log.head.sequence

/-- The new row of a saved block keeps the record under the given assignment. -/
theorem Saved.rowOf (saved : Saved before after block (some { envelope })) (tag : envelope.block.tag = block.tag)
    (record : envelope.block.record = block.record) :
    ∃ newest : Row lib, RowOf newest envelope ∧
      newest.sequence = before.sync.log.head.sequence + 1 ∧
      after.sync.log.records.rows = before.sync.log.records.rows ++ [newest] := by
  obtain ⟨parsed, deserialised, rows⟩ := saved.row
  refine ⟨_, ⟨rfl, rfl, tag.symm, ?_⟩, rfl, rows⟩
  simp [Securepath.opIdOf, record, deserialised, RecordStorage.newRow]

/-- A saved block stays below the new head of the log. -/
theorem Saved.heights {assignment : Option (Assignment lib)} (saved : Saved before after block assignment)
    (old : ∀ row ∈ before.sync.log.records.rows, row.sequence ≤ before.sync.log.head.sequence) :
    ∀ row ∈ after.sync.log.records.rows, row.sequence ≤ after.sync.log.head.sequence := by
  obtain ⟨record, -, rows⟩ := saved.row
  rw [saved.head, rows]
  exact List.forall_mem_append.mpr ⟨fun row earlier => Nat.le_succ_of_le (old row earlier),
    List.forall_mem_singleton.mpr (Nat.le_refl _)⟩

/-- One state of a replica holds and rejected everything that an earlier one did, and nothing new of
the own origin. -/
structure Extends (before after : Storage lib) (rejectedBefore rejectedAfter : List lib.Envelope) : Prop where
  ownId : after.ownId = before.ownId
  rows : ∀ row ∈ before.sync.log.records.rows, row ∈ after.sync.log.records.rows
  foreign : ∀ row ∈ after.sync.log.records.rows, row ∈ before.sync.log.records.rows ∨ row.origin ≠ before.ownId
  reach : ∀ origin, before.heads.reach origin ≤ after.heads.reach origin
  rejected : ∀ envelope ∈ rejectedBefore, envelope ∈ rejectedAfter

theorem Extends.refl (storage : Storage lib) (rejected : List lib.Envelope) :
    Extends storage storage rejected rejected :=
  ⟨rfl, fun _ inside => inside, fun _ => Or.inl, fun _ => Nat.le_refl _, fun _ inside => inside⟩

theorem Extends.trans {first second third : Storage lib} {three : List lib.Envelope}
    (earlier : Extends first second one two) (later : Extends second third two three) :
    Extends first third one three where
  ownId := later.ownId.trans earlier.ownId
  rows row inside := later.rows row (earlier.rows row inside)
  foreign row inside := by
    rcases later.foreign row inside with old | new
    · exact earlier.foreign row old
    · exact Or.inr (by rwa [earlier.ownId] at new)
  reach origin := Nat.le_trans (earlier.reach origin) (later.reach origin)
  rejected envelope inside := later.rejected envelope (earlier.rejected envelope inside)

theorem Extends.holds (extension : Extends before after one two) (holds : before.HoldsAssignment envelope) :
    after.HoldsAssignment envelope := by
  obtain ⟨row, inside, kept⟩ := holds
  exact ⟨row, extension.rows row inside, kept⟩

theorem Extends.settled (extension : Extends before after one two) {lost : lib.Envelope → Prop}
    (settled : Settled lost before one envelope) : Settled lost after two envelope := by
  rcases settled with holds | rejected | gone
  · exact Or.inl (extension.holds holds)
  · exact Or.inr (Or.inl (extension.rejected envelope rejected))
  · exact Or.inr (Or.inr gone)

section Apply

variable {assigned lost : lib.Envelope → Prop} {storage : Storage lib} {rejected : List lib.Envelope}
  {envelope : lib.Envelope}

section

variable (replica : Replicates assigned lost storage rejected)
include replica

theorem Replicates.assigned_of_holds (holds : storage.HoldsAssignment envelope) : assigned envelope := by
  obtain ⟨row, inside, kept⟩ := holds
  obtain ⟨other, keptOther, known⟩ := replica.rows row inside
  rwa [kept.eq keptOther]

theorem Replicates.terms (honest : Honest assigned) : ∀ head ∈ storage.heads.entries, head.term = 0 := by
  intro head inside
  obtain ⟨envelope, known, rfl⟩ := replica.heads head inside
  exact honest.term envelope known

/-- A row of the same record keeps the same assignment. -/
theorem Replicates.holds_of_sameRecord (honest : Honest assigned) (known : assigned envelope) {row : Row lib}
    (inside : row ∈ storage.sync.log.records.rows)
    (same : row.tag = envelope.block.tag ∨ lib.opIdOf envelope.block ≠ [] ∧ row.opId = lib.opIdOf envelope.block) :
    storage.HoldsAssignment envelope := by
  obtain ⟨other, kept, knownOther⟩ := replica.rows row inside
  have sameRecord : SameRecord envelope other := by
    rcases same with tag | ⟨operation, opId⟩
    · exact Or.inl (by rw [← tag, kept.tag])
    · exact Or.inr ⟨operation, by rw [← opId, kept.opId]⟩
  rw [honest.oneRecord envelope other known knownOther sameRecord]
  exact ⟨row, inside, kept⟩

/-- A change that touches no row and no head keeps a replica. -/
theorem Replicates.of_same (after : Storage lib) {rejectedAfter : List lib.Envelope}
    (ownId : after.ownId = storage.ownId) (log : after.sync.log = storage.sync.log)
    (heads : after.heads = storage.heads) (more : ∀ other ∈ rejected, other ∈ rejectedAfter) :
    Extends storage after rejected rejectedAfter ∧ Replicates assigned lost after rejectedAfter := by
  have extension : Extends storage after rejected rejectedAfter :=
    ⟨ownId, by simp [log], by simp +contextual [log], by simp [heads], more⟩
  refine ⟨extension, ?_, ?_, ?_, ?_, ?_, ?_⟩
  · rw [log]
    exact replica.rows
  · rw [heads]
    exact replica.heads
  · rw [ownId]
    exact fun other known own => extension.holds (replica.own other known own)
  · unfold HoldsAssignment
    rw [ownId, heads, log]
    exact replica.within
  · rw [ownId, heads]
    exact fun other known foreign reached => extension.settled (replica.covered other known foreign reached)
  · rw [log]
    exact replica.heights

end

section

variable (replica : Replicates assigned lost storage rejected) (honest : Honest assigned) (known : assigned envelope)
  {heads : StorageHeads}

include replica honest known

theorem Replicates.reach_advance (advanced : storage.heads.advance (headOf envelope) = .ok heads)
    (origin : PublicKeyId) :
    heads.reach origin = if envelope.origin = origin then max (storage.heads.reach origin) envelope.block.sequence
      else storage.heads.reach origin :=
  StorageHeads.reach_advance advanced (replica.terms honest) (honest.term envelope known) origin

theorem Replicates.reach_le (advanced : storage.heads.advance (headOf envelope) = .ok heads) (origin : PublicKeyId) :
    storage.heads.reach origin ≤ heads.reach origin := by
  rw [replica.reach_advance honest known advanced]
  split
  · exact Nat.le_max_left _ _
  · exact Nat.le_refl _

/-- A replica that settles an envelope and moves the head of its origin to it stays a replica. -/
theorem Replicates.advance
    (ready : ∀ other, assigned other → Before other envelope → Settled lost storage rejected other)
    {rejectedAfter : List lib.Envelope} (extension : Extends storage after rejected rejectedAfter)
    (advanced : storage.heads.advance (headOf envelope) = .ok after.heads)
    (rows : ∀ row ∈ after.sync.log.records.rows, row ∈ storage.sync.log.records.rows ∨ RowOf row envelope)
    (heights : ∀ row ∈ after.sync.log.records.rows, row.sequence ≤ after.sync.log.head.sequence)
    (settled : Settled lost after rejectedAfter envelope) : Replicates assigned lost after rejectedAfter where
  rows row inside := by
    rcases rows row inside with old | new
    · exact replica.rows row old
    · exact ⟨envelope, new, known⟩
  heads head inside := by
    obtain ⟨-, ⟨-, put⟩ | ⟨-, same⟩⟩ := StorageHeads.advance_ok advanced
    · rw [put] at inside
      rcases StorageHeads.mem_put inside with rfl | old
      · exact ⟨envelope, known, rfl⟩
      · exact replica.heads head old
    · rw [same] at inside
      exact replica.heads head inside
  own other assigned own := by
    rw [extension.ownId] at own
    exact extension.holds (replica.own other assigned own)
  within other holds foreign := by
    obtain ⟨row, inside, kept⟩ := holds
    rcases rows row inside with old | new
    · rw [extension.ownId] at foreign
      exact Nat.le_trans (replica.within other ⟨row, old, kept⟩ foreign) (extension.reach other.origin)
    · rw [kept.eq new, replica.reach_advance honest known advanced, if_pos rfl]
      exact Nat.le_max_right _ _
  covered other assigned foreign reached := by
    rw [extension.ownId] at foreign
    by_cases earlier : other.block.sequence ≤ storage.heads.reach other.origin
    · exact extension.settled (replica.covered other assigned foreign earlier)
    rw [replica.reach_advance honest known advanced] at reached
    split at reached
    · rename_i same
      have least : other.block.sequence ≤ envelope.block.sequence :=
        (le_max_iff.mp reached).resolve_left earlier
      rcases Nat.lt_or_eq_of_le least with less | equal
      · exact extension.settled (ready other assigned ⟨same.symm, less⟩)
      · rwa [honest.oneSequence other envelope assigned known same.symm equal]
    · exact absurd reached earlier
  heights := heights

end

/-- The log of rejections after the envelope was applied. -/
def rejectedAfter (storage : Storage lib) (rejected : List lib.Envelope) (envelope : lib.Envelope) :
    List lib.Envelope :=
  if storage.rejectsForGood envelope then rejected ++ [envelope] else rejected

theorem mem_rejectedAfter {other : lib.Envelope} (inside : other ∈ rejected) :
    other ∈ storage.rejectedAfter rejected envelope := by
  unfold rejectedAfter
  split
  · exact List.mem_append_left _ inside
  · exact inside

/-- What a replica skips it holds or rejects for good. -/
theorem Replicates.settled_of_skips (replica : Replicates assigned lost storage rejected)
    (honest : Honest assigned) (known : assigned envelope) (admitted : (storage.admitForeign envelope).2 = none)
    (foreign : envelope.origin ≠ storage.ownId) (skips : Skips storage envelope) :
    storage.HoldsAssignment envelope ∨ envelope ∈ storage.rejectedAfter rejected envelope := by
  have heldByTag : (storage.sync.log.records.findTag envelope.block.tag).isSome = true →
      storage.HoldsAssignment envelope := by
    intro found
    obtain ⟨row, rowFound⟩ := Option.isSome_iff_exists.mp found
    obtain ⟨inside, tag⟩ := RecordStorage.findTag_eq_some_iff.mp rowFound
    exact replica.holds_of_sameRecord honest known inside (Or.inl tag)
  by_cases found : (storage.sync.log.records.findTag envelope.block.tag).isSome = true
  · exact Or.inl (heldByTag found)
  obtain ⟨err, type, verdict, skipped⟩ := skips.resolve_left found
  by_cases permanent : permanentRejection err = true
  · right
    have rejects : storage.rejectsForGood envelope = true := by
      simp only [Option.not_isSome_iff_eq_none] at found
      simp [rejectsForGood, admitted, foreign, found, verdict, permanent]
    simp [rejectedAfter, rejects]
  · left
    simp only [foreignRecordSkipped, permanent, Bool.or_false, decide_eq_true_eq] at skipped
    rcases ChainSync.held_of_alreadyCommitted verdict skipped with tag | ⟨operation, opId⟩
    · exact heldByTag tag
    obtain ⟨row, rowFound⟩ := Option.isSome_iff_exists.mp opId
    have inside := List.mem_of_find?_eq_some rowFound
    have same := List.find?_some rowFound
    simp only [Bool.and_eq_true, decide_eq_true_eq] at same
    exact replica.holds_of_sameRecord honest known inside (Or.inr ⟨operation, same.1⟩)

/-- The head of an honest assignment is valid. -/
theorem advance_headOf (digest : ∀ block, lib.hash block ≠ []) (honest : Honest assigned) (known : assigned envelope)
    (heads : StorageHeads) : ∃ advanced, heads.advance (headOf envelope) = .ok advanced := by
  have valid : (headOf envelope).block.isValid = true := by
    simp [headOf, Securepath.blockId, ChainBlockId.isValid, digest, Nat.ne_of_gt (honest.sequence envelope known)]
  have origin : (headOf envelope).origin ≠ [] := honest.origin envelope known
  unfold StorageHeads.advance
  simp only [origin, valid, Bool.not_true, Bool.false_eq_true, or_self, if_false]
  split
  · exact ⟨_, rfl⟩
  · exact ⟨_, rfl⟩

/-- An honest envelope whose predecessors are settled keeps a replica, and is settled unless it fails. -/
theorem Replicates.applyForeign (replica : Replicates assigned lost storage rejected)
    (digest : ∀ block, lib.hash block ≠ []) (honest : Honest assigned) (known : assigned envelope)
    (ready : ∀ other, assigned other → Before other envelope → Settled lost storage rejected other) :
    Extends storage (storage.applyForeign envelope).1 rejected (storage.rejectedAfter rejected envelope) ∧
    Replicates assigned lost (storage.applyForeign envelope).1 (storage.rejectedAfter rejected envelope) ∧
    ((storage.applyForeign envelope).2 = none →
      Settled lost (storage.applyForeign envelope).1 (storage.rejectedAfter rejected envelope) envelope) := by
  have more : ∀ other ∈ rejected, other ∈ storage.rejectedAfter rejected envelope :=
    fun other inside => mem_rejectedAfter inside
  obtain ⟨evidence, err, refused⟩ | ⟨after, report, result, admitted, applied⟩ := applyForeign_cases storage envelope
  · rw [refused]
    obtain ⟨extension, kept⟩ := replica.of_same { storage with evidence } rfl rfl rfl more
    exact ⟨extension, kept, fun success => by cases success⟩
  · rw [result]
    cases applied with
    | own returned =>
      obtain ⟨extension, kept⟩ := replica.of_same storage rfl rfl rfl more
      exact ⟨extension, kept, fun _ => Or.inl (replica.own envelope known returned)⟩
    | refused err foreign =>
      obtain ⟨extension, kept⟩ := replica.of_same storage rfl rfl rfl more
      exact ⟨extension, kept, fun success => by cases success⟩
    | unassigned err foreign invalid saved heads =>
      obtain ⟨advanced, done⟩ := advance_headOf digest honest known storage.heads
      rw [done] at invalid
      cases invalid
    | skipped foreign skips advanced =>
      rename_i heads
      have settled : Settled lost storage (storage.rejectedAfter rejected envelope) envelope :=
        (replica.settled_of_skips honest known (by rw [admitted]) foreign skips).imp_right Or.inl
      have extension : Extends storage { storage with heads } rejected (storage.rejectedAfter rejected envelope) :=
        ⟨rfl, fun _ inside => inside, fun _ => Or.inl, replica.reach_le honest known advanced, more⟩
      refine ⟨extension, ?_, fun _ => settled⟩
      exact replica.advance honest known ready extension advanced (fun _ => Or.inl) replica.heights settled
    | committed foreign fresh accepted saved advanced =>
      obtain ⟨newest, kept, -, rows⟩ := saved.rowOf rfl rfl
      have inside : newest ∈ after.sync.log.records.rows := by simp [rows]
      have settled : Settled lost after (storage.rejectedAfter rejected envelope) envelope :=
        Or.inl ⟨newest, inside, kept⟩
      have split : ∀ row ∈ after.sync.log.records.rows, row ∈ storage.sync.log.records.rows ∨ row = newest := by
        simp [rows]
      have extension : Extends storage after rejected (storage.rejectedAfter rejected envelope) := by
        refine ⟨saved.setting.ownId, ?_, ?_, replica.reach_le honest known advanced, more⟩
        · intro row old
          simp [rows, old]
        intro row present
        rcases split row present with old | rfl
        · exact Or.inl old
        · exact Or.inr (by simpa [Row.origin, kept.indexed] using foreign)
      refine ⟨extension, ?_, fun _ => settled⟩
      apply replica.advance honest known ready extension advanced _ (saved.heights replica.heights) settled
      intro row present
      exact (split row present).imp_right fun same => by rwa [same]

end Apply

end Storage

end SpSync
