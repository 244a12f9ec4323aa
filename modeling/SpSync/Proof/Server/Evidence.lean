import SpSync.Proof.Server.ServableHeads

namespace SpSync

open Foundation

variable {lib : Securepath}

namespace ChainLog

/-- The assignment that an origin's sequence is compared with. -/
def heldAssignment (log : ChainLog lib) (origin : PublicKeyId) (sequence : SequenceNumber) : Option lib.Envelope :=
  ((log.records.ofOrigin origin).find? fun row => row.originSeq = sequence).bind Row.indexed

variable {log : ChainLog lib} {origin : PublicKeyId} {sequence : SequenceNumber} {kept : lib.Envelope}
  {grown : ChainLog lib} {newest : Row lib}

theorem originBlockHash_eq (log : ChainLog lib) (origin : PublicKeyId) (sequence : SequenceNumber) :
    log.records.originBlockHash origin sequence =
      (log.heldAssignment origin sequence).elim [] fun envelope => lib.hash envelope.block := by
  unfold RecordStorage.originBlockHash heldAssignment
  cases (log.records.ofOrigin origin).find? fun row => row.originSeq = sequence with
  | none => rfl
  | some row => rfl

/-- The held assignment is the one of a row. -/
theorem heldAssignment_eq_some (held : log.heldAssignment origin sequence = some kept) :
    ∃ row ∈ log.records.rows, row.indexed = some kept ∧ kept.origin = origin ∧ kept.block.sequence = sequence := by
  obtain ⟨row, found, indexed⟩ := Option.bind_eq_some_iff.mp held
  have inside := List.mem_of_find?_eq_some found
  have same : row.originSeq = sequence := by simpa using List.find?_some found
  simp only [RecordStorage.ofOrigin, List.mem_filter, Bool.and_eq_true, decide_eq_true_eq] at inside
  obtain ⟨rowIn, ⟨_, rowOrigin⟩, _⟩ := inside
  exact ⟨row, rowIn, indexed, by simpa [Row.origin, indexed] using rowOrigin,
    by simpa [Row.originSeq, indexed] using same⟩

/-- A request for one sequence is answered with the held assignment. -/
theorem getByOrigin_single (log : ChainLog lib) (origin : PublicKeyId) (sequence : SequenceNumber) (maxBytes : Nat) :
    log.getByOrigin origin sequence sequence 1 maxBytes = (log.heldAssignment origin sequence).toList := by
  let rows := (log.records.ofOrigin origin).filter fun row => sequence ≤ row.originSeq && row.originSeq ≤ sequence
  have equal : ∀ row ∈ rows, row.originSeq = sequence := by
    intro row inside
    have bounds := (List.mem_filter.mp inside).2
    simp only [Bool.and_eq_true, decide_eq_true_eq] at bounds
    exact Nat.le_antisymm bounds.2 bounds.1
  have sorted : RecordStorage.byOriginSeq rows = rows := by
    refine List.Pairwise.insertionSort_eq (List.pairwise_of_forall_mem_list fun left leftIn right rightIn => ?_)
    rw [equal left leftIn, equal right rightIn]
  have first : rows.head? = (log.records.ofOrigin origin).find? fun row => row.originSeq = sequence := by
    rw [List.head?_filter]
    congr 1
    funext row
    rw [Bool.eq_iff_iff]
    simp only [Bool.and_eq_true, decide_eq_true_eq]
    exact ⟨fun bounds => Nat.le_antisymm bounds.2 bounds.1, fun same => ⟨same.ge, same.le⟩⟩
  unfold getByOrigin heldAssignment RecordStorage.findOriginAssignments
  rw [sorted, List.take_one, first]
  cases (log.records.ofOrigin origin).find? fun row => row.originSeq = sequence with
  | none => rfl
  | some row =>
    cases indexed : row.indexed with
    | none => simp [indexed]
    | some envelope => simp [indexed, appendWithinBudget]

/-- New rows are compared with only where nothing was held. -/
theorem heldAssignment_append (rows : grown.records.rows = log.records.rows ++ [newest])
    (held : log.heldAssignment origin sequence = some kept) : grown.heldAssignment origin sequence = some kept := by
  unfold heldAssignment RecordStorage.ofOrigin at held ⊢
  obtain ⟨row, found, indexed⟩ := Option.bind_eq_some_iff.mp held
  rw [rows, List.filter_append, List.find?_append, found]
  exact indexed

/-- The assignment of a new row is held where nothing was. -/
theorem heldAssignment_of_new (rows : grown.records.rows = log.records.rows ++ [newest])
    (inSync : newest.state = .inSync) (indexed : newest.indexed = some kept) (valid : kept.origin ≠ [])
    (free : log.heldAssignment kept.origin kept.block.sequence = none) :
    grown.heldAssignment kept.origin kept.block.sequence = some kept := by
  have absent : ((log.records.ofOrigin kept.origin).find? fun row => row.originSeq = kept.block.sequence) = none := by
    cases found : (log.records.ofOrigin kept.origin).find? fun row => row.originSeq = kept.block.sequence with
    | none => rfl
    | some row =>
      obtain ⟨envelope, stored⟩ := indexed_of_mem_ofOrigin (List.mem_of_find?_eq_some found)
      simp [heldAssignment, found, stored] at free
  have joins : grown.records.ofOrigin kept.origin = log.records.ofOrigin kept.origin ++ [newest] := by
    simp [RecordStorage.ofOrigin, rows, inSync, Row.origin, indexed, valid]
  unfold heldAssignment
  rw [joins, List.find?_append, absent]
  simp [Row.originSeq, indexed]

end ChainLog

namespace Storage

variable {storage : Storage lib} {envelope : lib.Envelope} {origin : PublicKeyId} {after : Storage lib}
  {kept : lib.Envelope} {before : Storage lib} {condition : lib.Envelope → Prop}

/-- The envelope is signed by its origin with a key that the server knows. -/
def Verifies (storage : Storage lib) (envelope : lib.Envelope) : Prop :=
  ∃ keys, storage.sync.keys = some keys ∧ storage.verifyEnvelope keys envelope = none

theorem Verifies.congr {other : Storage lib} (verified : storage.Verifies envelope) (setting : SameSetting storage other) :
    other.Verifies envelope := by
  obtain ⟨keys, known, accepted⟩ := verified
  refine ⟨keys, setting.keys.trans known, ?_⟩
  unfold verifyEnvelope at accepted ⊢
  rw [setting.id]
  exact accepted

/-- Nothing of a condemned origin is admitted. -/
theorem applyForeign_condemned (condemned : storage.condemned envelope.origin = true) :
    (storage.applyForeign envelope).1 = storage := by
  have refused : ∃ err, storage.admitForeign envelope = (storage, some err) := by
    unfold admitForeign
    split
    · exact ⟨_, rfl⟩
    split
    · exact ⟨_, rfl⟩
    · split
      · exact ⟨_, rfl⟩
      · exact ⟨_, rfl⟩
  obtain ⟨err, refused⟩ := refused
  rw [applyForeign, refused]

/-- Only a verified proof of the held assignment and the envelope becomes evidence. -/
theorem admitForeign_evidence (storage : Storage lib) (envelope : lib.Envelope) :
    (storage.admitForeign envelope).1 = storage ∨
    ∃ kept keys, storage.sync.log.heldAssignment envelope.origin envelope.block.sequence = some kept ∧
      storage.verifyProof keys ⟨kept, envelope⟩ = true ∧
      (storage.admitForeign envelope).1 = { storage with evidence := storage.evidence ++ [⟨kept, envelope⟩] } := by
  unfold admitForeign
  split
  · exact Or.inl rfl
  split
  · exact Or.inl rfl
  rename_i keys _
  split
  · exact Or.inl rfl
  split
  · exact Or.inl rfl
  dsimp only
  split
  · rw [ChainLog.getByOrigin_single]
    cases held : storage.sync.log.heldAssignment envelope.origin envelope.block.sequence with
    | none => exact Or.inl rfl
    | some kept =>
      dsimp only [Option.toList_some]
      unfold noteEvidence
      split
      · rename_i noted
        exact Or.inr ⟨kept, keys, rfl, (Bool.and_eq_true_iff.mp noted).1, rfl⟩
      · exact Or.inl rfl
  · exact Or.inl rfl

theorem condemned_iff :
    storage.condemned origin = true ↔ ∃ proof ∈ storage.evidence, proof.first.origin = origin := by
  simp [condemned]

/-- A second assignment of a sequence in one term condemns the origin. -/
theorem applyForeign_detects (weak : storage.replication = .weak) (verified : storage.Verifies envelope)
    (keptVerified : storage.Verifies kept)
    (held : storage.sync.log.heldAssignment envelope.origin envelope.block.sequence = some kept)
    (digest : lib.hash kept.block ≠ []) (terms : kept.term = envelope.term)
    (different : lib.hash kept.block ≠ lib.hash envelope.block) :
    (storage.applyForeign envelope).1.condemned envelope.origin = true := by
  obtain ⟨keys, known, accepted⟩ := verified
  obtain ⟨again, knownAgain, keptAccepted⟩ := keptVerified
  obtain rfl : keys = again := Option.some.inj (known.symm.trans knownAgain)
  obtain ⟨_, _, _, origin, sequence⟩ := ChainLog.heldAssignment_eq_some held
  have heldHash : storage.sync.log.records.originBlockHash envelope.origin envelope.block.sequence =
      lib.hash kept.block := by
    rw [ChainLog.originBlockHash_eq, held]
    rfl
  by_cases before : storage.condemned envelope.origin = true
  · rw [applyForeign_condemned before]
    exact before
  have proven : storage.verifyProof keys ⟨kept, envelope⟩ = true := by
    simp [verifyProof, keptAccepted, accepted, origin, terms, sequence, different]
  have admitted : storage.admitForeign envelope =
      (storage.noteEvidence keys ⟨kept, envelope⟩, some ⟨.originDiverged, ""⟩) := by
    unfold admitForeign
    rw [if_neg (not_not.mpr weak), known]
    dsimp only
    rw [accepted]
    rw [if_neg before, heldHash, if_pos ⟨digest, different⟩, ChainLog.getByOrigin_single, held]
    rfl
  rw [applyForeign, admitted]
  unfold noteEvidence
  by_cases found : storage.holdsProof ⟨kept, envelope⟩ = true
  · obtain ⟨proof, inside, same⟩ := List.any_eq_true.mp found
    simp only [Bool.and_eq_true, decide_eq_true_eq] at same
    exact absurd (condemned_iff.mpr ⟨proof, inside, same.1.1.trans origin⟩) before
  · rw [if_pos (by simp [proven, found])]
    exact condemned_iff.mpr ⟨⟨kept, envelope⟩, by simp, origin⟩

variable (storage)

theorem evidence_advanceHead (head : OriginHead) : (storage.advanceHead head).1.evidence = storage.evidence := by
  unfold advanceHead
  split <;> rfl

theorem evidence_commitBlock (block : lib.Block) : (storage.commitBlock block).1.evidence = storage.evidence := by
  unfold commitBlock
  split
  · rfl
  · split
    · rfl
    · split <;> rfl

theorem evidence_applyAdmitted (envelope : lib.Envelope) :
    (storage.applyAdmitted envelope).1.evidence = storage.evidence := by
  unfold applyAdmitted
  dsimp only
  split
  · rfl
  split
  · exact evidence_advanceHead storage _
  split
  · split
    · exact evidence_advanceHead _ _
    · rfl
  · rename_i sync _ _
    have kept := evidence_advanceHead { storage with sync } (headOf envelope)
    split
    · rename_i advanced err moved
      rw [headOf, moved] at kept
      exact kept
    · rename_i advanced moved
      rw [headOf, moved] at kept
      split
      · exact kept
      · exact kept

/-- A foreign envelope adds at most one proof to the evidence. -/
theorem applyForeign_evidence (envelope : lib.Envelope) :
    (storage.applyForeign envelope).1.evidence = storage.evidence ∨
    ∃ kept keys, storage.sync.log.heldAssignment envelope.origin envelope.block.sequence = some kept ∧
      storage.verifyProof keys ⟨kept, envelope⟩ = true ∧
      (storage.applyForeign envelope).1.evidence = storage.evidence ++ [⟨kept, envelope⟩] := by
  have same : (storage.applyForeign envelope).1.evidence = (storage.admitForeign envelope).1.evidence := by
    unfold applyForeign
    split
    · rename_i refused
      rw [refused]
    · rename_i admitted
      rw [admitted]
      exact evidence_applyAdmitted _ envelope
  rw [same]
  obtain unchanged | ⟨kept, keys, held, proven, noted⟩ := admitForeign_evidence storage envelope
  · exact Or.inl (by rw [unchanged])
  · exact Or.inr ⟨kept, keys, held, proven, by rw [noted]⟩

/-- The storage keeps its log or gains one row whose assignment, if any, meets the condition. -/
structure Gains (before after : Storage lib) (condition : lib.Envelope → Prop) : Prop where
  setting : SameSetting before after
  rows : after.sync.log.records.rows = before.sync.log.records.rows ∨
    ∃ newest, after.sync.log.records.rows = before.sync.log.records.rows ++ [newest] ∧
      ∀ kept, newest.indexed = some kept → condition kept

theorem Saved.gains {block : lib.Block} {assignment : Option (Assignment lib)}
    (saved : Saved before after block assignment) (meets : ∀ stored ∈ assignment, condition stored.envelope) :
    Gains before after condition := by
  obtain ⟨newest, savedRow⟩ := saved.exists_row
  refine ⟨saved.setting, Or.inr ⟨newest, savedRow.rows, fun kept indexed => ?_⟩⟩
  obtain ⟨stored, inside, rfl⟩ := savedRow.indexed indexed
  exact meets stored inside

theorem commitBlock_gains (block : lib.Block) :
    Gains storage (storage.commitBlock block).1 fun kept => kept.origin = storage.ownId := by
  obtain ⟨err, refused⟩ | ⟨placed, _, _, _, _, saved, _⟩ := commitBlock_saved storage block
  · rw [refused]
    exact ⟨.refl storage, Or.inl rfl⟩
  · refine saved.gains fun stored inside => ?_
    obtain ⟨envelope, signed, rfl⟩ := Option.map_eq_some_iff.mp inside
    exact (makeEnvelope_eq_some signed).2

theorem applyForeign_gains (envelope : lib.Envelope) :
    Gains storage (storage.applyForeign envelope).1 fun kept => kept = envelope ∧ lib.hash envelope.block ≠ [] := by
  obtain ⟨evidence, err, refused⟩ | ⟨after, report, result, -, applied⟩ := applyForeign_cases storage envelope
  · rw [refused]
    exact ⟨⟨rfl, rfl, rfl, rfl, rfl⟩, Or.inl rfl⟩
  rw [result]
  cases applied with
  | own | refused => exact ⟨.refl _, Or.inl rfl⟩
  | skipped => exact ⟨⟨rfl, rfl, rfl, rfl, rfl⟩, Or.inl rfl⟩
  | unassigned _ _ _ saved => exact saved.gains (by simp)
  | committed _ _ _ saved advanced =>
    refine saved.gains fun stored same => ?_
    cases same
    have valid := (StorageHeads.advance_ok advanced).1.2
    simp only [headOf, Securepath.blockId, ChainBlockId.isValid, Bool.and_eq_true] at valid
    exact ⟨rfl, of_decide_eq_true valid.2⟩

variable {storage}

/-- The record of the envelope is new, passes the checks and is committed under the envelope's assignment. -/
def Takes (storage : Storage lib) (envelope : lib.Envelope) : Prop :=
  storage.sync.log.records.findTag envelope.block.tag = none ∧
    (∃ placed, (storage.sync.commitForeign envelope.block).2 = .ok placed) ∧
    ∃ heads, storage.heads.advance (headOf envelope) = .ok heads

theorem Takes.saved (takes : storage.Takes envelope) (foreign : envelope.origin ≠ storage.ownId) :
    Saved storage (storage.applyAdmitted envelope).1 envelope.block (some { envelope }) := by
  obtain ⟨unheld, ⟨placed, commits⟩, heads, advanced⟩ := takes
  have moved : storage.heads.advance ⟨envelope.origin, envelope.term, lib.blockId envelope.block⟩ = .ok heads := advanced
  unfold applyAdmitted
  rw [if_neg foreign, if_neg (by simp [unheld])]
  unfold ChainSync.commitForeign at commits ⊢
  obtain ⟨err, refused, _⟩ | ⟨type, sync, placed, _, done, committed⟩ :=
    ChainSync.commitWith_cases storage.sync (storage.sync.evaluateForeign envelope.block) envelope.block
  · rw [refused] at commits
    cases commits
  · obtain ⟨placedEq, _, _, config, keys⟩ := ChainSync.setAndSaveBlock_ok done
    obtain ⟨records, stored, saved⟩ := saved_storeAssignment done envelope
    have sameTag : envelope.block.tag = placed.tag := by
      rw [placedEq]
      rfl
    rw [committed]
    simp only [advanceHead, moved, sameTag, stored]
    exact ⟨⟨rfl, rfl, rfl, config, keys⟩, saved.row, saved.head⟩

/-- What keeps an equivocation from going unnoticed: the storage replicates, and after the envelope it
holds an assignment of its sequence in its term. -/
def Recorded (storage : Storage lib) (envelope : lib.Envelope) : Prop :=
  storage.replication = .weak ∧ (storage.condemned envelope.origin = true ∨
    (∃ kept, storage.sync.log.heldAssignment envelope.origin envelope.block.sequence = some kept ∧
      kept.term = envelope.term) ∨
    (storage.sync.log.heldAssignment envelope.origin envelope.block.sequence = none ∧ storage.Takes envelope))

/-- An envelope that is taken for a free sequence is held afterwards. -/
theorem Takes.held (takes : storage.Takes envelope) (weak : storage.replication = .weak)
    (foreign : envelope.origin ≠ storage.ownId) (verified : storage.Verifies envelope)
    (trusted : ¬ storage.condemned envelope.origin = true)
    (free : storage.sync.log.heldAssignment envelope.origin envelope.block.sequence = none) :
    (storage.applyForeign envelope).1.sync.log.heldAssignment envelope.origin envelope.block.sequence =
      some envelope := by
  obtain ⟨keys, known, accepted⟩ := verified
  have admitted : storage.admitForeign envelope = (storage, none) := by
    unfold admitForeign
    rw [if_neg (not_not.mpr weak), known]
    dsimp only
    rw [accepted]
    rw [if_neg trusted, ChainLog.originBlockHash_eq, free, if_neg (fun parted => parted.1 rfl)]
  rw [applyForeign, admitted]
  obtain ⟨newest, rows, _, _, inSync, _, _, assignment⟩ := (takes.saved foreign).exists_row
  obtain ⟨_, _, heads, advanced⟩ := takes
  refine ChainLog.heldAssignment_of_new rows inSync ?_ (StorageHeads.advance_ok advanced).1.1 free
  simp [Row.indexed, assignment]

/-- What is held stays held. -/
theorem Gains.held (gains : Gains before after condition) {sequence : SequenceNumber}
    (held : before.sync.log.heldAssignment origin sequence = some kept) :
    after.sync.log.heldAssignment origin sequence = some kept := by
  obtain same | ⟨newest, rows, _⟩ := gains.rows
  · unfold ChainLog.heldAssignment RecordStorage.ofOrigin at held ⊢
    rwa [same]
  · exact ChainLog.heldAssignment_append rows held

theorem condemned_of_subset (sub : storage.evidence ⊆ after.evidence) (condemned : storage.condemned origin = true) :
    after.condemned origin = true := by
  obtain ⟨proof, inside, same⟩ := condemned_iff.mp condemned
  exact condemned_iff.mpr ⟨proof, sub inside, same⟩

theorem evidence_subset_step (storage : Storage lib) (event : Event lib) :
    storage.evidence ⊆ (storage.step event).evidence := by
  cases event with
  | commit block =>
    rw [step, evidence_commitBlock]
    exact List.Subset.refl _
  | foreign envelope =>
    rw [step]
    obtain same | ⟨_, _, _, _, grown⟩ := applyForeign_evidence storage envelope
    · rw [same]
      exact List.Subset.refl _
    · rw [grown]
      exact List.subset_append_left _ _
  | knowKeys keys => exact List.Subset.refl _

end Storage

/-- A storage with every foreign envelope that it was given. -/
structure Hearing (lib : Securepath) where
  storage : Storage lib
  heard : List lib.Envelope := []

namespace Hearing

open Storage

variable {origin : PublicKeyId} {condition : lib.Envelope → Prop} {envelope : lib.Envelope}

def hear (hearing : Hearing lib) : Event lib → Hearing lib
  | .foreign envelope => ⟨hearing.storage.step (.foreign envelope), hearing.heard ++ [envelope]⟩
  | event => { hearing with storage := hearing.storage.step event }

/-- The storage only takes commits and envelopes that verify. -/
def Authentic (hearing : Hearing lib) : Event lib → Prop
  | .commit _ => True
  | .foreign envelope => hearing.storage.Verifies envelope
  | .knowKeys _ => False

/-- The origin signed one sequence in one term for two blocks. -/
def Equivocates (heard : List lib.Envelope) (origin : PublicKeyId) : Prop :=
  ∃ first ∈ heard, ∃ second ∈ heard, first.origin = origin ∧ second.origin = origin ∧ first.term = second.term ∧
    first.block.sequence = second.block.sequence ∧ lib.hash first.block ≠ lib.hash second.block

theorem Equivocates.append {heard : List lib.Envelope} (twice : Equivocates heard origin) (more : List lib.Envelope) :
    Equivocates (heard ++ more) origin := by
  obtain ⟨first, firstIn, second, secondIn, rest⟩ := twice
  exact ⟨first, List.mem_append_left _ firstIn, second, List.mem_append_left _ secondIn, rest⟩

/-- Everything that the storage keeps of other origins was heard, verified and has a valid position. -/
structure Sound (hearing : Hearing lib) : Prop where
  rows : ∀ row ∈ hearing.storage.sync.log.records.rows, ∀ kept, row.indexed = some kept →
    kept.origin ≠ hearing.storage.ownId → kept ∈ hearing.heard ∧ lib.hash kept.block ≠ []
  verified : ∀ envelope ∈ hearing.heard, hearing.storage.Verifies envelope
  evidence : ∀ proof ∈ hearing.storage.evidence, proof.first.origin ≠ hearing.storage.ownId →
    Equivocates hearing.heard proof.first.origin

variable {hearing : Hearing lib} {event : Event lib}

/-- A step that adds what it heard and proves what it condemns keeps the storage sound. -/
theorem Sound.extend (sound : hearing.Sound) {after : Storage lib} {more : List lib.Envelope}
    (gains : Gains hearing.storage after condition)
    (meets : ∀ kept, condition kept → kept.origin ≠ hearing.storage.ownId → kept ∈ more ∧ lib.hash kept.block ≠ [])
    (verified : ∀ envelope ∈ more, hearing.storage.Verifies envelope)
    (evidence : ∀ proof ∈ after.evidence, proof ∈ hearing.storage.evidence ∨
      (proof.first.origin ≠ hearing.storage.ownId → Equivocates (hearing.heard ++ more) proof.first.origin)) :
    Sound ⟨after, hearing.heard ++ more⟩ := by
  refine ⟨?_, ?_, ?_⟩
  · intro row inside kept indexed foreign
    rw [gains.setting.ownId] at foreign
    have old (before : row ∈ hearing.storage.sync.log.records.rows) :
        kept ∈ hearing.heard ++ more ∧ lib.hash kept.block ≠ [] := by
      obtain ⟨heard, digest⟩ := sound.rows row before kept indexed foreign
      exact ⟨List.mem_append_left _ heard, digest⟩
    obtain same | ⟨newest, rows, assigned⟩ := gains.rows
    · exact old (same ▸ inside)
    rw [rows] at inside
    obtain before | rfl := List.mem_append.mp inside |>.imp_right List.mem_singleton.mp
    · exact old before
    · obtain ⟨new, digest⟩ := meets kept (assigned kept indexed) foreign
      exact ⟨List.mem_append_right _ new, digest⟩
  · intro envelope inside
    obtain old | new := List.mem_append.mp inside
    · exact (sound.verified envelope old).congr gains.setting
    · exact (verified envelope new).congr gains.setting
  · intro proof inside foreign
    rw [gains.setting.ownId] at foreign
    obtain old | new := evidence proof inside
    · exact (sound.evidence proof old foreign).append more
    · exact new foreign

/-- One authentic step keeps the storage sound. -/
theorem Sound.hear (sound : hearing.Sound) (authentic : hearing.Authentic event) : (hearing.hear event).Sound := by
  cases event with
  | knowKeys => exact authentic.elim
  | commit block =>
    have extended : Sound ⟨(hearing.storage.commitBlock block).1, hearing.heard ++ []⟩ :=
      sound.extend (commitBlock_gains hearing.storage block) (fun kept own foreign => absurd own foreign) (by simp)
        fun proof inside => Or.inl (by rwa [evidence_commitBlock] at inside)
    rw [List.append_nil] at extended
    exact extended
  | foreign envelope =>
    refine sound.extend (applyForeign_gains hearing.storage envelope) ?_ ?_ ?_
    · intro kept meets _
      exact ⟨by simp [meets.1], meets.1 ▸ meets.2⟩
    · intro other inside
      rw [List.mem_singleton.mp inside]
      exact authentic
    · intro proof inside
      change proof ∈ (hearing.storage.applyForeign envelope).1.evidence at inside
      obtain same | ⟨kept, keys, held, proven, grown⟩ := applyForeign_evidence hearing.storage envelope
      · exact Or.inl (same ▸ inside)
      rw [grown] at inside
      obtain old | rfl := List.mem_append.mp inside |>.imp_right List.mem_singleton.mp
      · exact Or.inl old
      refine Or.inr fun foreign => ?_
      obtain ⟨row, rowIn, indexed, origin, sequence⟩ := ChainLog.heldAssignment_eq_some held
      simp only [verifyProof, Bool.and_eq_true, decide_eq_true_eq] at proven
      exact ⟨kept, List.mem_append_left _ (sound.rows row rowIn kept indexed foreign).1, envelope, by simp, rfl,
        origin.symm, proven.1.1.2, sequence, proven.2⟩

/-- The storage would notice a second assignment of every sequence of the origin that it heard of. -/
def Complete (origin : PublicKeyId) (hearing : Hearing lib) : Prop :=
  ∀ envelope ∈ hearing.heard, envelope.origin = origin →
    hearing.storage.condemned envelope.origin = true ∨
    ∃ kept, hearing.storage.sync.log.heldAssignment envelope.origin envelope.block.sequence = some kept ∧
      kept.term = envelope.term ∧ lib.hash kept.block = lib.hash envelope.block

/-- The step is authentic and leaves nothing of the origin unrecorded. -/
def Watchful (origin : PublicKeyId) (hearing : Hearing lib) (event : Event lib) : Prop :=
  hearing.Authentic event ∧ ∀ envelope, event = .foreign envelope → envelope.origin = origin →
    hearing.storage.Recorded envelope

/-- What was noticed stays noticed. -/
theorem Complete.keep (complete : hearing.Complete origin)
    (gains : Gains hearing.storage (hearing.storage.step event) condition) (inside : envelope ∈ hearing.heard)
    (same : envelope.origin = origin) :
    (hearing.storage.step event).condemned envelope.origin = true ∨
    ∃ kept, (hearing.storage.step event).sync.log.heldAssignment envelope.origin envelope.block.sequence = some kept ∧
      kept.term = envelope.term ∧ lib.hash kept.block = lib.hash envelope.block := by
  obtain condemned | ⟨kept, held, rest⟩ := complete envelope inside same
  · exact Or.inl (condemned_of_subset (evidence_subset_step _ _) condemned)
  · exact Or.inr ⟨kept, gains.held held, rest⟩

/-- A recorded envelope is noticed. -/
theorem Sound.notice (sound : hearing.Sound) (verified : hearing.storage.Verifies envelope)
    (foreign : envelope.origin ≠ hearing.storage.ownId) (recorded : hearing.storage.Recorded envelope) :
    (hearing.storage.step (.foreign envelope)).condemned envelope.origin = true ∨
    ∃ kept, (hearing.storage.step (.foreign envelope)).sync.log.heldAssignment envelope.origin
        envelope.block.sequence = some kept ∧
      kept.term = envelope.term ∧ lib.hash kept.block = lib.hash envelope.block := by
  by_cases condemned : hearing.storage.condemned envelope.origin = true
  · exact Or.inl (condemned_of_subset (evidence_subset_step _ _) condemned)
  obtain ⟨weak, before | ⟨kept, held, terms⟩ | ⟨free, takes⟩⟩ := recorded
  · exact absurd before condemned
  · by_cases same : lib.hash kept.block = lib.hash envelope.block
    · exact Or.inr ⟨kept, (applyForeign_gains hearing.storage envelope).held held, terms, same⟩
    · obtain ⟨row, rowIn, indexed, origin, _⟩ := ChainLog.heldAssignment_eq_some held
      obtain ⟨heard, digest⟩ := sound.rows row rowIn kept indexed (origin ▸ foreign)
      exact Or.inl (applyForeign_detects weak verified (sound.verified kept heard) held digest terms same)
  · exact Or.inr ⟨envelope, takes.held weak foreign verified condemned free, rfl, rfl⟩

theorem Complete.hear (complete : hearing.Complete origin) (sound : hearing.Sound)
    (foreign : origin ≠ hearing.storage.ownId) (watchful : hearing.Watchful origin event) :
    (hearing.hear event).Complete origin := by
  cases event with
  | knowKeys => exact watchful.1.elim
  | commit block =>
    have gains : Gains hearing.storage (hearing.storage.step (.commit block)) _ :=
      commitBlock_gains hearing.storage block
    exact fun envelope inside same => complete.keep gains inside same
  | foreign envelope =>
    have gains : Gains hearing.storage (hearing.storage.step (.foreign envelope)) _ :=
      applyForeign_gains hearing.storage envelope
    intro other inside same
    obtain old | rfl := List.mem_append.mp inside |>.imp_right List.mem_singleton.mp
    · exact complete.keep gains old same
    · exact sound.notice watchful.1 (same ▸ foreign) (watchful.2 other rfl same)

/-- A new storage that has heard nothing. -/
def opened (storage : Storage lib) : Hearing lib :=
  ⟨storage, []⟩

section Run

variable {id : Octets} {ownId : PublicKeyId} {keys : Option (List PublicKeyId)} {modes : StorageModes}
  {defaults : StorageLimits} {start : Storage lib} {later : Hearing lib} {origin : PublicKeyId}

theorem sound_of_run (created : create id ownId keys modes defaults = .ok start)
    (run : Runs hear Authentic (opened start) hearing) : hearing.Sound := by
  induction run with
  | refl =>
    obtain ⟨limits, rfl⟩ := create_ok created
    exact ⟨by simp [opened, ofModes, ChainSync.load, ChainLog.load, RecordStorage.empty], by simp [opened],
      by simp [opened, ofModes]⟩
  | tail _ step ih =>
    obtain ⟨event, authentic, rfl⟩ := step
    exact ih.hear authentic

/-- The steps of a watchful run are authentic. -/
theorem authentic_of_watchful (run : Runs hear (Watchful origin) hearing later) : Runs hear Authentic hearing later := by
  induction run with
  | refl => exact .refl _
  | tail _ step ih =>
    obtain ⟨event, watchful, rfl⟩ := step
    exact ih.tail watchful.1

theorem ownId_of_run (run : Runs hear Authentic hearing later) : later.storage.ownId = hearing.storage.ownId := by
  induction run with
  | refl => rfl
  | tail _ step ih =>
    obtain ⟨event, authentic, rfl⟩ := step
    cases event with
    | commit block => exact (commitBlock_gains _ block).setting.ownId.trans ih
    | foreign envelope => exact (applyForeign_gains _ envelope).setting.ownId.trans ih
    | knowKeys => exact authentic.elim

theorem complete_of_run (created : create id ownId keys modes defaults = .ok start)
    (foreign : origin ≠ (opened start).storage.ownId) (run : Runs hear (Watchful origin) (opened start) hearing) :
    hearing.Complete origin := by
  induction run with
  | refl => simp [opened, Complete]
  | tail before step ih =>
    obtain ⟨event, watchful, rfl⟩ := step
    have authentic := authentic_of_watchful before
    exact ih.hear (sound_of_run created authentic) (ownId_of_run authentic ▸ foreign) watchful

/-- A condemned origin stays condemned. -/
theorem condemned_of_run (run : Runs hear Authentic hearing later)
    (condemned : hearing.storage.condemned origin = true) : later.storage.condemned origin = true := by
  induction run with
  | refl => exact condemned
  | tail _ step ih =>
    obtain ⟨event, _, rfl⟩ := step
    have storage : ∀ state : Hearing lib, (state.hear event).storage = state.storage.step event := by
      intro state
      cases event <;> rfl
    rw [storage]
    exact condemned_of_subset (evidence_subset_step _ _) ih

/-- An origin is condemned only when it equivocated. It is condemned as soon as it did, and nothing of it
changes the log any more, unless one of its envelopes went unrecorded. -/
theorem condemned_of_runs (created : create id ownId keys modes defaults = .ok start) :
    (∀ hearing : Hearing lib, Runs hear Authentic (opened start) hearing → ∀ origin, origin ≠ ownId →
        hearing.storage.condemned origin = true → Equivocates hearing.heard origin) ∧
      ∀ (hearing : Hearing lib) origin, origin ≠ ownId → Runs hear (Watchful origin) (opened start) hearing →
        Equivocates hearing.heard origin → ∀ later, Runs hear Authentic hearing later → later.storage.condemned origin = true ∧
          ∀ envelope, envelope.origin = origin → (later.storage.applyForeign envelope).1 = later.storage := by
  have same : (opened start).storage.ownId = ownId := by
    obtain ⟨limits, rfl⟩ := create_ok created
    rfl
  refine ⟨fun hearing run origin foreign condemned => ?_, fun hearing origin foreign run twice later after => ?_⟩
  · obtain ⟨proof, inside, rfl⟩ := condemned_iff.mp condemned
    exact (sound_of_run created run).evidence proof inside (by rwa [ownId_of_run run, same])
  obtain ⟨first, firstIn, second, secondIn, firstOrigin, secondOrigin, terms, sequences, different⟩ := twice
  have complete := complete_of_run created (same ▸ foreign) run
  have condemned : hearing.storage.condemned origin = true := by
    obtain found | ⟨one, oneHeld, _, oneHash⟩ := complete first firstIn firstOrigin
    · rwa [firstOrigin] at found
    obtain found | ⟨two, twoHeld, _, twoHash⟩ := complete second secondIn secondOrigin
    · rwa [secondOrigin] at found
    -- both envelopes are compared with one held assignment, which cannot have both hashes
    rw [firstOrigin, sequences] at oneHeld
    rw [secondOrigin, oneHeld] at twoHeld
    cases twoHeld
    exact absurd (oneHash.symm.trans twoHash) different
  have still := condemned_of_run after condemned
  exact ⟨still, fun envelope same => applyForeign_condemned (by rwa [same])⟩

end Run

/-- A user change of the client 6, signed by another server for the first sequence of its log. -/
def assignedFirst (tag : RecordTag) : Securepath.sample.Envelope :=
  ⟨⟨(1, ⟨{}, .userChange ⟨⟨.delta, []⟩, []⟩, [[]]⟩), ⟨tag, some ⟨[6], tag⟩⟩, 1, []⟩, [4], 0, some ⟨[4], 9 :: tag⟩⟩

/-- The storage of a server that knows the other one and the client. -/
def listening : Hearing .sample :=
  opened (ofModes [9] [3] (some [[4], [6]]) (weakModes .allowAll))

theorem verifies_assignedFirst {hearing : Hearing .sample} (id : hearing.storage.id = [9])
    (keys : hearing.storage.sync.keys = some [[4], [6]]) (tag : RecordTag) :
    hearing.storage.Verifies (assignedFirst tag) := by
  refine ⟨[[4], [6]], keys, ?_⟩
  unfold verifyEnvelope
  rw [id]
  simp [assignedFirst, Securepath.sample, ChainBlock.tag]

theorem condemned_of_runs_twice : (((listening.hear (.foreign (assignedFirst [1]))).hear
    (.foreign (assignedFirst [2]))).storage.condemned [4]) = true := by
  have run : Runs hear (Watchful [4]) listening
      ((listening.hear (.foreign (assignedFirst [1]))).hear (.foreign (assignedFirst [2]))) := by
    refine .tail (.tail (.refl _) ⟨verifies_assignedFirst rfl rfl [1], ?_⟩)
      ⟨verifies_assignedFirst rfl rfl [2], ?_⟩
    · rintro envelope ⟨rfl⟩ _
      exact ⟨rfl, Or.inr (Or.inr ⟨rfl, rfl, ⟨_, rfl⟩, _, rfl⟩)⟩
    · rintro envelope ⟨rfl⟩ _
      exact ⟨rfl, Or.inr (Or.inl ⟨assignedFirst [1], by decide +kernel, rfl⟩)⟩
  have twice : Equivocates ((listening.hear (.foreign (assignedFirst [1]))).hear
      (.foreign (assignedFirst [2]))).heard [4] :=
    ⟨assignedFirst [1], by decide +kernel, assignedFirst [2], by decide +kernel, rfl, rfl, rfl, rfl, by decide⟩
  exact ((condemned_of_runs (create_weakModes _ _ _ _)).2 _ [4] (by decide) run twice _ (.refl _)).1

/-- A server that committed the first record itself before it heard both envelopes. -/
def deafened : Hearing .sample :=
  ((listening.hear (.commit (assignedFirst [1]).block)).hear (.foreign (assignedFirst [1]))).hear
    (.foreign (assignedFirst [2]))

/-- An envelope whose record is held already leaves nothing to compare the second one with. -/
theorem not_condemned_held : Runs hear Authentic listening deafened ∧ Equivocates deafened.heard [4] ∧
    deafened.storage.condemned [4] = false ∧
    (deafened.storage.sync.log.records.findTag [2]).isSome = true := by
  refine ⟨?_, ⟨assignedFirst [1], by decide +kernel, assignedFirst [2], by decide +kernel, rfl, rfl, rfl, rfl,
    by decide⟩, by decide +kernel, by decide +kernel⟩
  exact .tail (.tail (.tail (.refl _) trivial) (verifies_assignedFirst rfl rfl [1]))
    (verifies_assignedFirst rfl rfl [2])

end Hearing

end SpSync
