import SpSync.Construction.Server.HistoryCut
import SpSync.Foundation.Run
import SpSync.Proof.Core.Mirror
import SpSync.Proof.Server.StorageSteps

namespace SpSync

open Foundation RecordStorage

variable {lib : Securepath}

namespace ChainLog

/-- The head is the newest record, also when older records were cut. -/
structure Topped (log : ChainLog lib) : Prop where
  inSync : ∀ row ∈ log.records.rows, row.state = .inSync
  below : ∀ row ∈ log.records.rows, row.sequence ≤ log.head.sequence
  top : (log.records.rows = [] ∧ log.head = {}) ∨ ∃ row ∈ log.records.rows, row.blockId = log.head

theorem topped_empty (lib : Securepath) : Topped (load (.empty lib)) where
  inSync := by simp [load, RecordStorage.empty]
  below := by simp [load, RecordStorage.empty]
  top := Or.inl ⟨rfl, rfl⟩

/-- A cut removes received rows before a segment and leaves the head. -/
theorem cutBefore_ok {log changed : ChainLog lib} {segmentTag : RecordTag} {removed : List lib.Block}
    (done : log.cutBefore segmentTag = .ok (changed, removed)) :
    ∃ segment, log.records.findTag segmentTag = some segment ∧ segment.type = .segment ∧ segment.state = .inSync ∧
      changed.records.rows = log.records.rows.filter (fun row =>
        !isCut segment.sequence (log.records.objectChainTagsBelow segment.sequence) row) ∧ changed.head = log.head := by
  unfold ChainLog.cutBefore at done
  split at done
  · cases done
  rename_i segment found
  split at done
  · rename_i valid
    unfold truncatePrefix at done
    split at done
    · cases done
    · cases done
      exact ⟨segment, found, valid.1, valid.2, rfl, rfl⟩
  · cases done

namespace Topped

variable {log changed : ChainLog lib} (topped : log.Topped) {removed : List lib.Block}

include topped

/-- A log that is opened again has the same head. -/
theorem lastBlock_eq : log.records.lastBlock = log.head := by
  rw [RecordStorage.lastBlock_eq]
  obtain ⟨empty, head⟩ | ⟨row, inside, last⟩ := topped.top
  · have none : log.records.newest (fun _ => true) = none :=
      newest_eq_none_iff.mpr fun row inside => by simp [empty] at inside
    rw [none, head]
    rfl
  · have sequence : row.sequence = log.head.sequence := congrArg ChainBlockId.sequence last
    have newest : log.records.newest (fun _ => true) = some row := by
      refine newest_eq_some_iff.mpr ⟨⟨inside, topped.inSync row inside, rfl⟩, fun other otherIn _ _ => ?_⟩
      rw [sequence]
      exact topped.below other otherIn
    rw [newest]
    exact last

theorem load : Topped (ChainLog.load log.records) where
  inSync := topped.inSync
  below row inside := by
    rw [ChainLog.load, topped.lastBlock_eq]
    exact topped.below row inside
  top := by
    rw [ChainLog.load, topped.lastBlock_eq]
    exact topped.top

/-- Rows that go while the newest one stays leave the head. -/
theorem thin (sub : changed.records.rows.Sublist log.records.rows) (head : changed.head = log.head)
    (kept : ∀ row ∈ log.records.rows, row.sequence = log.head.sequence → row ∈ changed.records.rows) :
    changed.Topped where
  inSync row inside := topped.inSync row (sub.subset inside)
  below row inside := by
    rw [head]
    exact topped.below row (sub.subset inside)
  top := by
    rw [head]
    obtain ⟨empty, none⟩ | ⟨row, inside, last⟩ := topped.top
    · rw [empty] at sub
      exact Or.inl ⟨List.eq_nil_of_sublist_nil sub, none⟩
    · exact Or.inr ⟨row, kept row inside (congrArg ChainBlockId.sequence last), last⟩

/-- A cut keeps the segment and everything after it, hence the head. -/
theorem cutBefore {segmentTag : RecordTag} (done : log.cutBefore segmentTag = .ok (changed, removed)) :
    changed.Topped ∧ changed.head = log.head := by
  obtain ⟨segment, found, _, _, rows, head⟩ := cutBefore_ok done
  have anchor := topped.below segment (findTag_eq_some_iff.mp found).1
  refine ⟨topped.thin (rows ▸ List.filter_sublist) head fun row inside last => ?_, head⟩
  rw [rows]
  refine List.mem_filter.mpr ⟨inside, ?_⟩
  have notBefore : ¬ row.sequence < segment.sequence := by
    rw [last]
    exact Nat.not_lt.mpr anchor
  simp [isCut, notBefore]

/-- A truncation above the head removes nothing. -/
theorem truncateFrom {firstRemoved : SequenceNumber} (above : log.head.sequence < firstRemoved)
    (done : log.truncateFrom firstRemoved = .ok (changed, removed)) : changed = log := by
  unfold ChainLog.truncateFrom at done
  split at done
  · cases done
  cases done
  have kept : log.records.truncateFrom firstRemoved = log.records := by
    refine eq_of_rows (List.filter_eq_self.mpr fun row inside => ?_)
    have before : ¬ firstRemoved ≤ row.sequence :=
      Nat.not_le.mpr (Nat.lt_of_le_of_lt (topped.below row inside) above)
    simp [before]
  rw [kept, topped.lastBlock_eq]

end Topped

end ChainLog

namespace Storage

variable {storage after : Storage lib} {block : lib.Block} {assignment : Option (Assignment lib)}
  {outcome : Storage lib × List lib.Block}

theorem Saved.head_sequence (saved : Saved storage after block assignment) :
    after.sync.log.head.sequence = storage.sync.log.head.sequence + 1 := by
  rw [saved.head]
  rfl

theorem Saved.topped (saved : Saved storage after block assignment) (topped : storage.sync.log.Topped) :
    after.sync.log.Topped := by
  obtain ⟨newest, savedRow⟩ := saved.exists_row
  refine ⟨?_, ?_, Or.inr ⟨newest, savedRow.mem_newest, savedRow.blockId⟩⟩
  · intro row inside
    obtain old | rfl := savedRow.mem inside
    · exact topped.inSync row old
    · exact savedRow.state
  · intro row inside
    rw [saved.head_sequence]
    obtain old | rfl := savedRow.mem inside
    · exact Nat.le_succ_of_le (topped.below row old)
    · exact Nat.le_of_eq savedRow.sequence

/-- Every assignment that a call signs is the one of the block it saves. -/
inductive Signs (before after : Storage lib) : Option lib.Envelope → Prop
  | nothing (log : after.sync.log = before.sync.log) : Signs before after none
  | saved {block : lib.Block} {assignment : Option (Assignment lib)} {signed : Option lib.Envelope}
      (saved : Saved before after block assignment)
      (assigns : ∀ envelope ∈ signed, lib.blockId envelope.block = after.sync.log.head) : Signs before after signed

/-- A commit signs the assignment of the block that it saves. -/
theorem signs_commitBlock (storage : Storage lib) (block : lib.Block) :
    Signs storage (storage.commitBlock block).1 (storage.commitEnvelope block) := by
  unfold commitBlock commitEnvelope ChainSync.commitBlock
  obtain ⟨err, refused, _⟩ | ⟨type, sync, placed, _, done, committed⟩ :=
    ChainSync.commitWith_cases storage.sync (storage.sync.evaluate block) block
  · rw [refused]
    exact .nothing rfl
  · rw [committed]
    obtain ⟨rfl, row, head, config, keys⟩ := ChainSync.setAndSaveBlock_ok done
    dsimp only
    cases signed : storage.makeEnvelope _ with
    | none =>
      have saved : Saved storage { storage with sync } block none := ⟨⟨rfl, rfl, rfl, config, keys⟩, row, head⟩
      exact .saved saved (by simp)
    | some envelope =>
      obtain ⟨records, stored, savedRow⟩ := saved_storeAssignment done envelope
      simp only [stored]
      refine .saved savedRow fun other same => ?_
      cases same
      rw [(makeEnvelope_eq_some signed).1]
      exact head.symm

/-- A notice is signed for a block that was committed with nothing else in the way. -/
theorem noticeEnvelope_eq_some {envelope signed : lib.Envelope} (admitted : storage.admitForeign envelope = (storage, none))
    (noticed : storage.noticeEnvelope envelope = some signed) :
    envelope.origin ≠ storage.ownId ∧ storage.sync.log.records.findTag envelope.block.tag = none ∧
      (storage.applyAdmitted envelope).2 = none ∧
      (storage.sync.commitForeign envelope.block).2 = .ok signed.block := by
  unfold noticeEnvelope at noticed
  rw [admitted] at noticed
  dsimp only at noticed
  split at noticed
  · cases noticed
  rename_i fresh
  obtain ⟨foreign, unheld⟩ := not_or.mp fresh
  split at noticed
  · cases noticed
  rename_i sync placed committed
  split at noticed
  · cases noticed
  · rename_i applied
    refine ⟨foreign, by simpa using unheld, by simpa using applied, ?_⟩
    rw [committed, (makeEnvelope_eq_some noticed).1]

/-- A foreign envelope is answered with the own assignment of the block that it saves. -/
theorem signs_applyForeign (storage : Storage lib) (envelope : lib.Envelope) :
    Signs storage (storage.applyForeign envelope).1 (storage.noticeEnvelope envelope) := by
  obtain ⟨evidence, err, refused⟩ | ⟨admitted, _⟩ := admitForeign_cases storage envelope
  · unfold applyForeign noticeEnvelope
    rw [refused]
    exact .nothing rfl
  · have same : storage.applyForeign envelope = storage.applyAdmitted envelope := by
      rw [applyForeign, admitted]
    have applied := applyAdmitted_applied storage envelope
    rw [same]
    cases noticed : storage.noticeEnvelope envelope with
    | none =>
      generalize storage.applyAdmitted envelope = outcome at applied ⊢
      obtain ⟨after, result⟩ := outcome
      cases applied with
      | own | skipped | refused => exact .nothing rfl
      | unassigned _ _ _ saved | committed _ _ _ saved => exact .saved saved (by simp)
    | some signed =>
      obtain ⟨foreign, unheld, finished, committed⟩ := noticeEnvelope_eq_some admitted noticed
      rw [finished] at applied
      generalize (storage.applyAdmitted envelope).1 = after at applied ⊢
      obtain ⟨err, failed, _⟩ | ⟨type, sync, placed, verdict, done, accepted⟩ :=
        ChainSync.commitWith_cases storage.sync (storage.sync.evaluateForeign envelope.block) envelope.block
      · rw [ChainSync.commitForeign, failed] at committed
        cases committed
      · rw [ChainSync.commitForeign, accepted] at committed
        cases committed
        cases applied with
        | own returned => exact absurd returned foreign
        | skipped _ skips =>
          obtain held | ⟨err, other, refusal, _⟩ := skips
          · simp [unheld] at held
          · rw [verdict] at refusal
            cases refusal
        | committed _ _ _ saved =>
          refine .saved saved fun other same => ?_
          cases same
          rw [saved.head, (ChainSync.setAndSaveBlock_ok done).1]

theorem cutHistory_ok {segmentTag : RecordTag} (done : storage.cutHistory segmentTag = .ok outcome) :
    ∃ log, storage.sync.log.cutBefore segmentTag = .ok (log, outcome.2) ∧
      outcome.1 = { storage with sync := { storage.sync with log } } := by
  unfold cutHistory at done
  cases cut : storage.sync.log.cutBefore segmentTag with
  | error err => simp [cut, bind, Except.bind] at done
  | ok result =>
    simp only [cut, bind, Except.bind, pure, Except.pure, Except.ok.injEq] at done
    rw [← done]
    exact ⟨result.1, rfl, rfl⟩

theorem truncateFrom_ok {firstRemoved : SequenceNumber} (done : storage.truncateFrom firstRemoved = .ok outcome) :
    ∃ log, storage.sync.log.truncateFrom firstRemoved = .ok (log, outcome.2) ∧ outcome.1.sync.log = log := by
  unfold truncateFrom ChainSync.truncateFrom at done
  cases cut : storage.sync.log.truncateFrom firstRemoved with
  | error err => simp [cut, bind, Except.bind] at done
  | ok result =>
    simp only [cut, bind, Except.bind, pure, Except.pure, Except.ok.injEq] at done
    rw [← done]
    exact ⟨result.1, rfl, rfl⟩

end Storage

/-- A server that serves one storage, with every assignment it has signed for it. -/
structure Signer (lib : Securepath) where
  storage : Storage lib
  signed : List lib.Envelope := []

/-- The calls that read or change the log of a storage. -/
inductive ServerCall (lib : Securepath)
  | commitBlock (block : lib.Block)
  | applyForeign (envelope : lib.Envelope)
  | cutHistory (segmentTag : RecordTag)
  | truncateFrom (firstRemoved : SequenceNumber)
  | restart (keys : Option (List PublicKeyId))

namespace Signer

/-- One call; a call that throws leaves the storage as it was. -/
def serve (signer : Signer lib) : ServerCall lib → Signer lib
  | .commitBlock block =>
      ⟨(signer.storage.commitBlock block).1, signer.signed ++ (signer.storage.commitEnvelope block).toList⟩
  | .applyForeign envelope =>
      ⟨(signer.storage.applyForeign envelope).1, signer.signed ++ (signer.storage.noticeEnvelope envelope).toList⟩
  | .cutHistory segmentTag =>
      { signer with storage := (signer.storage.cutHistory segmentTag).toOption.elim signer.storage Prod.fst }
  | .truncateFrom firstRemoved =>
      { signer with storage := (signer.storage.truncateFrom firstRemoved).toOption.elim signer.storage Prod.fst }
  | .restart keys => { signer with storage := signer.storage.reopen keys }

/-- A truncation is refused or starts above the head, so that it removes nothing. -/
def KeepsRecords (signer : Signer lib) : ServerCall lib → Prop
  | .truncateFrom firstRemoved => firstRemoved = 0 ∨ signer.storage.sync.log.head.sequence < firstRemoved
  | _ => True

/-- No two assignments give one sequence of one term to different blocks. -/
def Consistent (signed : List lib.Envelope) : Prop :=
  ∀ left ∈ signed, ∀ right ∈ signed, left.term = right.term → left.block.sequence = right.block.sequence →
    lib.hash left.block = lib.hash right.block

/-- Everything signed is at or below the head. -/
structure Honest (signer : Signer lib) : Prop where
  topped : signer.storage.sync.log.Topped
  below : ∀ envelope ∈ signer.signed, envelope.block.sequence ≤ signer.storage.sync.log.head.sequence
  consistent : Consistent signer.signed

variable {signer : Signer lib} {after : Storage lib}

/-- A call that signs at most the block it saves keeps the signer honest. -/
theorem Honest.sign (honest : signer.Honest) {signed : Option lib.Envelope}
    (signs : Storage.Signs signer.storage after signed) : Honest ⟨after, signer.signed ++ signed.toList⟩ := by
  obtain ⟨topped, below, consistent⟩ := honest
  cases signs with
  | nothing log =>
    rw [Option.toList_none, List.append_nil]
    exact ⟨log ▸ topped, fun envelope inside => log ▸ below envelope inside, consistent⟩
  | saved saved assigns =>
    have next := saved.head_sequence
    have above {envelope : lib.Envelope} (new : envelope ∈ signed) :
        envelope.block.sequence = signer.storage.sync.log.head.sequence + 1 :=
      (congrArg ChainBlockId.sequence (assigns envelope new)).trans next
    refine ⟨saved.topped topped, ?_, ?_⟩
    · intro envelope inside
      rw [next]
      obtain old | new := List.mem_append.mp inside
      · exact Nat.le_succ_of_le (below envelope old)
      · exact Nat.le_of_eq (above (Option.mem_toList.mp new))
    · intro left leftIn right rightIn terms same
      obtain leftOld | leftNew := List.mem_append.mp leftIn <;>
        obtain rightOld | rightNew := List.mem_append.mp rightIn
      · exact consistent left leftOld right rightOld terms same
      · have less := below left leftOld
        rw [same, above (Option.mem_toList.mp rightNew)] at less
        exact absurd less (Nat.not_succ_le_self _)
      · have less := below right rightOld
        rw [← same, above (Option.mem_toList.mp leftNew)] at less
        exact absurd less (Nat.not_succ_le_self _)
      · have one := assigns left (Option.mem_toList.mp leftNew)
        rw [← assigns right (Option.mem_toList.mp rightNew)] at one
        exact congrArg ChainBlockId.hash one

/-- A storage whose log only lost older records keeps the signer honest. -/
theorem Honest.replace (honest : signer.Honest) (topped : after.sync.log.Topped)
    (head : after.sync.log.head = signer.storage.sync.log.head) : Honest { signer with storage := after } where
  topped := topped
  below envelope inside := by
    rw [head]
    exact honest.below envelope inside
  consistent := honest.consistent

/-- One call keeps the signer honest, unless it truncates. -/
theorem Honest.serve (honest : signer.Honest) {call : ServerCall lib} (keeps : signer.KeepsRecords call) :
    (signer.serve call).Honest := by
  cases call with
  | commitBlock block => exact honest.sign (Storage.signs_commitBlock signer.storage block)
  | applyForeign envelope => exact honest.sign (Storage.signs_applyForeign signer.storage envelope)
  | restart keys => exact honest.replace honest.topped.load honest.topped.lastBlock_eq
  | cutHistory segmentTag =>
    show Honest { signer with storage := (signer.storage.cutHistory segmentTag).toOption.elim signer.storage Prod.fst }
    cases done : signer.storage.cutHistory segmentTag with
    | error err => exact honest
    | ok outcome =>
      obtain ⟨log, cut, after⟩ := Storage.cutHistory_ok done
      obtain ⟨topped, head⟩ := honest.topped.cutBefore cut
      have changed : outcome.1.sync.log = log := by rw [after]
      rw [← changed] at topped head
      exact honest.replace topped head
  | truncateFrom firstRemoved =>
    show Honest
      { signer with storage := (signer.storage.truncateFrom firstRemoved).toOption.elim signer.storage Prod.fst }
    cases done : signer.storage.truncateFrom firstRemoved with
    | error err => exact honest
    | ok outcome =>
      obtain ⟨log, cut, after⟩ := Storage.truncateFrom_ok done
      obtain zero | above := keeps
      · rw [ChainLog.truncateFrom, if_pos zero] at cut
        cases cut
      · have same := after.trans (honest.topped.truncateFrom above cut)
        exact honest.replace (same ▸ honest.topped) (congrArg ChainLog.head same)

/-- Every assignment of the server that verifies is one that it has signed; the signature covers the
storage, the origin, the term, the sequence and the hash of the block. -/
def Unforged (signer : Signer lib) : Prop :=
  ∀ (envelope : lib.Envelope) (signature : Signature), envelope.origin = signer.storage.ownId →
    signature.issuer = signer.storage.ownId → lib.verifyAssignment signer.storage.id envelope signature = true →
    ∃ made ∈ signer.signed, made.term = envelope.term ∧ made.block.sequence = envelope.block.sequence ∧
      lib.hash made.block = lib.hash envelope.block

/-- An envelope that verifies as the server's own is one that it has signed. -/
theorem Unforged.exists_signed (unforged : signer.Unforged) {verifier : Storage lib} {keys : List PublicKeyId}
    {envelope : lib.Envelope} (place : verifier.id = signer.storage.id)
    (origin : envelope.origin = signer.storage.ownId) (verified : verifier.verifyEnvelope keys envelope = none) :
    ∃ made ∈ signer.signed, made.term = envelope.term ∧ made.block.sequence = envelope.block.sequence ∧
      lib.hash made.block = lib.hash envelope.block := by
  unfold Storage.verifyEnvelope at verified
  split at verified
  · cases verified
  rename_i signature _
  split at verified
  · cases verified
  rename_i issuer
  split at verified
  · cases verified
  split at verified
  · rename_i authentic
    rw [place] at authentic
    exact unforged envelope signature origin ((not_not.mp issuer).trans origin) authentic
  · cases verified

/-- The storage of a signer that has signed nothing yet. -/
def opened (storage : Storage lib) : Signer lib :=
  ⟨storage, []⟩

variable {id : Octets} {ownId : PublicKeyId} {keys : Option (List PublicKeyId)} {modes : StorageModes}
  {defaults : StorageLimits} {start : Storage lib} (created : Storage.create id ownId keys modes defaults = .ok start)
include created

theorem honest_of_run (run : Runs serve KeepsRecords (opened start) signer) : signer.Honest := by
  induction run with
  | refl =>
    obtain ⟨limits, rfl⟩ := Storage.create_ok created
    exact ⟨ChainLog.topped_empty lib, by simp [opened], by simp [opened, Consistent]⟩
  | tail _ step ih =>
    obtain ⟨call, keeps, rfl⟩ := step
    exact ih.serve keeps

/-- A server that never truncates a record away signs no sequence twice, and no proof against it
verifies unless its signature is forged. -/
theorem consistent_of_run (run : Runs serve KeepsRecords (opened start) signer) :
    Consistent signer.signed ∧ (signer.Unforged → ∀ (verifier : Storage lib) (known : List PublicKeyId)
      (proof : EquivocationProof lib), verifier.id = signer.storage.id →
        proof.first.origin = signer.storage.ownId → verifier.verifyProof known proof = false) := by
  have consistent := (honest_of_run created run).consistent
  refine ⟨consistent, fun unforged verifier known proof place origin => ?_⟩
  by_contra accepted
  simp only [Storage.verifyProof, Bool.not_eq_false, Bool.and_eq_true, Option.isNone_iff_eq_none,
    decide_eq_true_eq] at accepted
  obtain ⟨⟨⟨⟨⟨first, second⟩, sameOrigin⟩, sameTerm⟩, sameSequence⟩, different⟩ := accepted
  obtain ⟨left, leftIn, leftTerm, leftSequence, leftHash⟩ := unforged.exists_signed place origin first
  obtain ⟨right, rightIn, rightTerm, rightSequence, rightHash⟩ :=
    unforged.exists_signed place (sameOrigin ▸ origin) second
  apply different
  rw [← leftHash, ← rightHash]
  exact consistent left leftIn right rightIn (by rw [leftTerm, sameTerm, rightTerm])
    (by rw [leftSequence, sameSequence, rightSequence])

omit created

/-- A library in which only one assignment verifies. -/
def sealedLibrary : Securepath :=
  { Securepath.sample with
    verifyAssignment := fun _ envelope _ =>
      envelope.term = 0 && envelope.block.sequence = 1 && Securepath.sample.hash envelope.block = [1, 1] }

/-- A signed user change with the given tag. -/
def changeTagged (tag : RecordTag) : ChainBlock (Nat × Record) :=
  ⟨(1, ⟨{}, .userChange ⟨⟨.delta, []⟩, []⟩, [[]]⟩), ⟨tag, some ⟨[6], tag⟩⟩, 1, []⟩

/-- A new weak storage of the server 3. -/
def newSigner (lib : Securepath) : Signer lib :=
  opened (.ofModes [9] [3] none (Storage.weakModes .allowAll))

/-- A server that committed one record and was restarted after a truncation that removed nothing. -/
def restartedSigner : Signer sealedLibrary :=
  (((newSigner _).serve (.commitBlock (changeTagged [1]))).serve
    (.truncateFrom 2)).serve (.restart none)

theorem restartedSigner_run : Runs serve KeepsRecords (newSigner _) restartedSigner :=
  .tail (.tail (.tail (.refl _) trivial) (Or.inr (by decide +kernel))) trivial

theorem restartedSigner_unforged : restartedSigner.Unforged := by
  intro envelope signature _ _ accepted
  have facts : (envelope.term = 0 ∧ envelope.block.sequence = 1) ∧ sealedLibrary.hash envelope.block = [1, 1] := by
    simpa [sealedLibrary] using accepted
  refine ⟨⟨(changeTagged [1]).setSequenceAndParentHash 1 [], [3], 0, some ⟨[3], [9, 1]⟩⟩, ?_, ?_⟩
  · decide +kernel
  · rw [facts.1.1, facts.1.2, facts.2]
    exact ⟨rfl, rfl, rfl⟩

theorem consistent_of_run_restarted : Consistent restartedSigner.signed ∧
    ∀ (verifier : Storage sealedLibrary) (known : List PublicKeyId) (proof : EquivocationProof sealedLibrary),
      verifier.id = restartedSigner.storage.id → proof.first.origin = restartedSigner.storage.ownId →
        verifier.verifyProof known proof = false := by
  obtain ⟨consistent, refuted⟩ := consistent_of_run (Storage.create_weakModes _ _ _ _) restartedSigner_run
  exact ⟨consistent, refuted restartedSigner_unforged⟩

/-- A server that committed one record, truncated it and committed another. -/
def truncatedSigner : Signer .sample :=
  (((newSigner _).serve (.commitBlock (changeTagged [1]))).serve
    (.truncateFrom 1)).serve (.commitBlock (changeTagged [2]))

/-- Behind a truncation the server signs a sequence again for another block, and a proof of that verifies. -/
theorem not_consistent_truncated :
    Runs serve (fun _ _ => True) (newSigner _) truncatedSigner ∧
      ¬ Consistent truncatedSigner.signed ∧
      ∃ first ∈ truncatedSigner.signed, ∃ second ∈ truncatedSigner.signed,
        truncatedSigner.storage.verifyProof [[3]] ⟨first, second⟩ = true := by
  have verified : ∃ first ∈ truncatedSigner.signed, ∃ second ∈ truncatedSigner.signed,
      truncatedSigner.storage.verifyProof [[3]] ⟨first, second⟩ = true := by
    decide +kernel
  refine ⟨.tail (.tail (.tail (.refl _) trivial) trivial) trivial, fun consistent => ?_, verified⟩
  have twice : ∃ first ∈ truncatedSigner.signed, ∃ second ∈ truncatedSigner.signed, first.term = second.term ∧
      first.block.sequence = second.block.sequence ∧
      Securepath.sample.hash first.block ≠ Securepath.sample.hash second.block := by
    decide +kernel
  obtain ⟨first, firstIn, second, secondIn, terms, sequences, different⟩ := twice
  exact different (consistent first firstIn second secondIn terms sequences)

end Signer

end SpSync
