import SpSync.Foundation.Rooted
import SpSync.Proof.Engine.EventMoves

namespace SpSync

open Foundation RecordStorage

variable {lib : Securepath} {sequence : SequenceNumber} {parentHash : Octets}

/-- The records in sync have the sequences from one on, and each names the hash of the one before. -/
structure StrictChain (records : RecordStorage lib) : Prop where
  sequences : ∃ count, ((records.rows.filter fun row => row.state = .inSync).map Row.sequence).Perm
    (List.range' 1 count)
  root : ∀ row ∈ records.rows, row.state = .inSync → row.sequence = 1 → row.parentHash = []
  linked : ∀ row ∈ records.rows, ∀ next ∈ records.rows, row.state = .inSync → next.state = .inSync →
    next.sequence = row.sequence + 1 → next.parentHash = row.hash

/-- The position starts the chain or follows a row in sync. -/
def Chained (records : RecordStorage lib) (sequence : SequenceNumber) (parentHash : Octets) : Prop :=
  (sequence = 1 ∧ parentHash = []) ∨
    ∃ parent ∈ records.rows, parent.state = .inSync ∧ parent.sequence + 1 = sequence ∧ parent.hash = parentHash

/-- The rows in sync keep their positions. -/
def KeepsChain (before after : RecordStorage lib) : Prop :=
  ∀ row ∈ before.rows, row.state = .inSync →
    ∃ kept ∈ after.rows, kept.state = .inSync ∧ kept.sequence = row.sequence ∧ kept.hash = row.hash

theorem Chained.mono {before after : RecordStorage lib} (chained : Chained before sequence parentHash)
    (keeps : KeepsChain before after) : Chained after sequence parentHash := by
  obtain root | ⟨parent, parentIn, inSync, next, hash⟩ := chained
  · exact Or.inl root
  · obtain ⟨kept, keptIn, keptInSync, sameSequence, sameHash⟩ := keeps parent parentIn inSync
    exact Or.inr ⟨kept, keptIn, keptInSync, by rw [sameSequence, next], by rw [sameHash, hash]⟩

theorem Chained.positive {records : RecordStorage lib} (chained : Chained records sequence parentHash) :
    1 ≤ sequence := by
  obtain ⟨rfl, _⟩ | ⟨parent, _, _, rfl, _⟩ := chained
  · exact Nat.le_refl 1
  · exact Nat.le_add_left 1 _

/-- The stored form of the row is at the position of the row, or is a form of this client that is not
the first record. -/
def Row.Placed (row : Row lib) (sequence : SequenceNumber) (parentHash : Octets) : Prop :=
  (row.block.sequence = sequence ∧ row.block.parentHash = parentHash) ∨
    (row.block.sequence ≠ 1 ∧ row.block.parentHash = [])

/-- An answer that lets a record wait keeps it where its stored form is. -/
def KeepsPlace : Entry lib → Prop
  | .confirm row block state => state = .pendingSync → row.Placed block.sequence block.parentHash
  | _ => True

namespace Engine

/-- The invariant of a strict client without an anchor. -/
structure Linear (engine : Engine lib) : Prop where
  strict : engine.config.mode = .requireAllSeen
  unanchored : engine.config.trustedAnchor.isValid = false
  chained : ∀ row ∈ engine.records.rows, row.state = .inSync → Chained engine.records row.sequence row.parentHash
  hashed : ∀ row ∈ engine.records.rows, row.state = .inSync ∨ row.state = .pendingSync → row.hash ≠ []
  placed : ∀ row ∈ engine.records.rows, row.state = .pendingSync → row.Placed row.sequence row.parentHash

variable {engine : Engine lib} {brings : lib.Block → Prop} {row : Row lib} {block : lib.Block}

theorem chainState_strict (strict : engine.config.mode = .requireAllSeen)
    (unanchored : engine.config.trustedAnchor.isValid = false) (block : lib.Block) :
    engine.chainState block = if engine.anchorContradicted then .invalid else engine.checkChainBlockStrict block := by
  simp [chainState, anchorGate, strict, unanchored]

/-- The row may stand in the table of the engine. -/
structure Fits (engine : Engine lib) (row : Row lib) : Prop where
  chained : row.state = .inSync → Chained engine.records row.sequence row.parentHash
  hashed : row.state = .inSync ∨ row.state = .pendingSync → row.hash ≠ []
  placed : row.state = .pendingSync → row.Placed row.sequence row.parentHash

/-- A row that does not count for the chain fits. -/
theorem Fits.of_idle (outside : row.state ≠ .inSync) (idle : row.state ≠ .pendingSync) : engine.Fits row :=
  ⟨fun inSync => absurd inSync outside, fun either => either.elim (absurd · outside) (absurd · idle),
    fun waiting => absurd waiting idle⟩

theorem hash_ne_nil (valid : (lib.blockId block).isValid = true) : lib.hash block ≠ [] := by
  simp only [ChainBlockId.isValid, Bool.and_eq_true, decide_eq_true_eq] at valid
  exact valid.2

section

variable (linear : engine.Linear)
include linear

/-- A block that a strict client accepts follows a row in sync. -/
theorem Linear.accepts (accepted : engine.chainState block = .inSync) :
    Chained engine.records block.sequence block.parentHash := by
  rw [chainState_strict linear.strict linear.unanchored] at accepted
  split at accepted
  · cases accepted
  have unanchored : engine.checkAnchorChainBlock block = none := by
    simp [checkAnchorChainBlock, linear.unanchored]
  unfold checkChainBlockStrict at accepted
  rw [unanchored] at accepted
  dsimp only at accepted
  split at accepted
  · split at accepted
    · rename_i root
      simp only [Bool.and_eq_true, decide_eq_true_eq] at root
      exact Or.inl root
    · split at accepted
      · rename_i parent found
        split at accepted
        · rename_i next
          have holds := List.find?_some found
          simp only [Bool.and_eq_true, decide_eq_true_eq] at holds
          exact Or.inr ⟨parent, List.mem_of_find?_eq_some found, holds.2, next, holds.1⟩
        · cases accepted
      · split at accepted <;> cases accepted
  · cases accepted

/-- The stored form of a waiting row is accepted only at the position of the row. -/
theorem Linear.reads (inside : row ∈ engine.records.rows) (waiting : row.state = .pendingSync)
    (accepted : engine.chainState row.block = .inSync) : Chained engine.records row.sequence row.parentHash := by
  have chained := linear.accepts accepted
  obtain ⟨sameSequence, sameParent⟩ | ⟨notFirst, noParent⟩ := linear.placed row inside waiting
  · rwa [sameSequence, sameParent] at chained
  · obtain ⟨first, _⟩ | ⟨parent, parentIn, inSync, _, hash⟩ := chained
    · exact absurd first notFirst
    · exact absurd (hash.trans noParent) (linear.hashed parent parentIn (Or.inl inSync))

theorem Linear.fits (inside : row ∈ engine.records.rows) : engine.Fits row :=
  ⟨linear.chained row inside, linear.hashed row inside, linear.placed row inside⟩

theorem Linear.update {records : RecordStorage lib} (keeps : KeepsChain engine.records records)
    (each : ∀ row ∈ records.rows, engine.Fits row) : ({ engine with records } : Engine lib).Linear where
  strict := linear.strict
  unanchored := linear.unanchored
  chained row inside inSync := ((each row inside).chained inSync).mono keeps
  hashed row inside := (each row inside).hashed
  placed row inside := (each row inside).placed

/-- A row at the position of a judged block fits when its stored form is in place. -/
theorem Linear.fits_at (valid : (lib.blockId block).isValid = true)
    (placed : engine.chainState block = .pendingSync → row.Placed block.sequence block.parentHash) :
    engine.Fits (row.at block (engine.chainState block)) :=
  ⟨linear.accepts, fun _ => hash_ne_nil valid, placed⟩

/-- The changes of a strict client leave rows that fit. -/
theorem Linear.fits_change {next : Row lib} (inside : row ∈ engine.records.rows)
    (change : Change KeepsPlace engine row next) : engine.Fits next := by
  cases change with
  | confirm _ valid _ _ permitted => exact linear.fits_at valid permitted
  | refuse => exact .of_idle (by simp) (by simp)
  | replace pending => exact .of_idle (by simp [Row.withBlock, pending]) (by simp [Row.withBlock, pending])
  | adopt _ valid => exact linear.fits_at valid fun _ => Or.inl ⟨rfl, rfl⟩
  | follow waiting parentIn parentInSync next link =>
    have hashed := linear.hashed row inside (Or.inr waiting)
    exact ⟨fun _ => Or.inr ⟨_, parentIn, parentInSync, next.symm, link.symm⟩, fun _ => hashed,
      fun again => by cases again⟩
  | retain _ anchored => simp [linear.unanchored] at anchored
  | read waiting _ _ accepted =>
    have chained := linear.reads inside waiting accepted
    have hashed := linear.hashed row inside (Or.inr waiting)
    exact ⟨fun _ => chained, fun _ => hashed, fun again => by cases again⟩
  | rebase pending => exact .of_idle (by simp [Row.withBlock, pending]) (by simp [Row.withBlock, pending])
  | assign => exact ⟨linear.chained row inside, linear.hashed row inside, linear.placed row inside⟩
  | demote _ weak => exact absurd linear.strict weak

theorem Linear.fits_arrival {state : RecordState} {record : Record} (arrival : Arrival brings engine block state) :
    engine.Fits (engine.records.newRow block state record) := by
  cases arrival with
  | own => exact .of_idle (by simp [newRow]) (by simp [newRow])
  | verified valid => exact ⟨linear.accepts, fun _ => hash_ne_nil valid, fun _ => Or.inl ⟨rfl, rfl⟩⟩
  | unread valid => exact ⟨fun inSync => (by cases inSync), fun _ => hash_ne_nil valid, fun _ => Or.inl ⟨rfl, rfl⟩⟩

theorem Linear.congr {next : Engine lib} (records : next.records = engine.records)
    (config : next.config = engine.config) : next.Linear :=
  ⟨by rw [config]; exact linear.strict, by rw [config]; exact linear.unanchored,
    by rw [records]; exact linear.chained, by rw [records]; exact linear.hashed, by rw [records]; exact linear.placed⟩

end

/-- Every move of a strict client keeps the chain. -/
theorem guarded_linear : Guarded (fun _ : Engine lib => KeepsPlace) (fun _ => True) Linear := by
  intro start before after _ move linear
  cases move with
  | quiet quiet => exact linear.congr quiet.records quiet.config
  | send sends => exact linear.congr sends.records sends.config
  | change change replaces =>
    refine linear.update (fun other => change.keeps_inSync replaces (absurd linear.strict)) ?_
    exact replaces.forall_rows (fun _ => linear.fits) (linear.fits_change replaces.inside change)
  | arrive arrival done =>
    refine linear.update ?_ (forall_created done (fun _ => linear.fits) fun _ => linear.fits_arrival arrival)
    exact fun row inside inSync => ⟨row, mem_created done inside, inSync, rfl, rfl⟩
  | truncate weak => exact absurd linear.strict weak

theorem Linear.strictChain (linear : engine.Linear) : StrictChain engine.records where
  sequences := by
    refine Rooted.perm_range ?_
      (sequence_nodup List.filter_sublist fun row inside => by simpa using (List.mem_filter.mp inside).2)
    intro sequence inside
    obtain ⟨row, rowIn, rfl⟩ := List.mem_map.mp inside
    rw [List.mem_filter, decide_eq_true_eq] at rowIn
    obtain ⟨first, _⟩ | ⟨parent, parentIn, inSync, next, _⟩ := linear.chained row rowIn.1 rowIn.2
    · exact Or.inl first
    · exact Or.inr ⟨_, List.mem_map.mpr ⟨parent, List.mem_filter.mpr ⟨parentIn, by simp [inSync]⟩, rfl⟩, next⟩
  root := by
    intro row inside inSync first
    obtain ⟨_, noParent⟩ | ⟨parent, parentIn, parentInSync, next, _⟩ := linear.chained row inside inSync
    · exact noParent
    have zero : parent.sequence = 0 := Nat.succ.inj (next.trans first)
    have positive := (linear.chained parent parentIn parentInSync).positive
    rw [zero] at positive
    cases positive
  linked := by
    intro row inside next nextIn inSync nextInSync follows
    obtain ⟨first, _⟩ | ⟨parent, parentIn, parentInSync, above, hash⟩ := linear.chained next nextIn nextInSync
    · have zero : row.sequence = 0 := Nat.succ.inj (follows.symm.trans first)
      have positive := (linear.chained row inside inSync).positive
      rw [zero] at positive
      cases positive
    · have same : row.sequence = parent.sequence := Nat.succ.inj (follows.symm.trans above.symm)
      rw [row_eq_of_sequence inside parentIn inSync parentInSync same, hash]

/-- A strict client that starts empty holds one chain in every state that it reaches, as long as no
answer lets a record wait away from its stored form. -/
theorem strictChain_of_run {reached : Engine lib} (strict : engine.config.mode = .requireAllSeen)
    (unanchored : engine.config.trustedAnchor.isValid = false) (fresh : engine.records.rows = [])
    (run : Runs step (AdmitsEvent fun _ => KeepsPlace) engine reached) : StrictChain reached.records := by
  refine (guarded_linear.run run ⟨strict, unanchored, ?_, ?_, ?_⟩).strictChain <;> simp [fresh]

/-- A strict client with one key and no records. -/
def newClient : Engine .sample where
  config := {}
  keys := ⟨[⟨2, [7]⟩]⟩
  random drawn := [Fin.ofNat 256 drawn, 1]

/-- The first user change that this client makes. -/
def firstChange : Securepath.sample.Block :=
  createRecord .sample ⟨⟨2, [7]⟩, {}, none, [0, 1], [1, 1], []⟩ (.userChange ⟨⟨.delta, []⟩, []⟩) [[]]

/-- A user change with a key that the client did not have. -/
def keyChange : Securepath.sample.Block :=
  ⟨(1, ⟨{ encryptionKey := 1 }, .userChange ⟨⟨.delta, []⟩, [8]⟩, [[]]⟩), ⟨[3], none⟩, 9, [6]⟩

/-- The client makes its first change, and the server answers with the position. -/
def answeredAt (sequence : SequenceNumber) (parentHash : Octets) : Engine .sample :=
  (newClient.step (.syncUserChange ⟨⟨.delta, []⟩, []⟩ [])).step
    (.commitResponse 1 { data := .ok (firstChange.setSequenceAndParentHash sequence parentHash) })

/-- The change of another member that follows the first one. -/
def secondChange : Securepath.sample.Block :=
  let first := Securepath.sample.blockId (firstChange.setSequenceAndParentHash 1 [])
  (createRecord .sample ⟨⟨2, [7]⟩, first, none, [5], [6], firstChange.tag⟩ (.userChange ⟨⟨.delta, []⟩, []⟩)
    [[]]).setSequenceAndParentHash 2 first.hash

/-- The client receives the second change and reads it with its key. -/
def pushedClient : Engine .sample :=
  (answeredAt 1 []).step (.recordReceived secondChange none)

theorem findTag_secondChange : (answeredAt 1 []).records.findTag secondChange.tag = none := by
  decide +kernel

theorem strictChain_of_run_pushed : StrictChain pushedClient.records ∧
    (pushedClient.records.rows.filter fun row => row.state = .inSync).map Row.sequence = [1, 2] := by
  have run : Runs step (AdmitsEvent fun _ => KeepsPlace) newClient pushedClient := by
    refine .tail (.tail (.tail (.refl _) trivial) ?_) ⟨fun row found => ?_, fun _ _ _ _ _ => trivial, fun _ _ => ?_⟩
    · intro block row answer _ _ _ _ waiting
      cases answer
      exact absurd waiting (by decide +kernel)
    · cases findTag_secondChange.symm.trans found
    · exact ⟨fun _ _ => trivial, fun _ _ _ _ _ _ => trivial⟩
  exact ⟨strictChain_of_run rfl rfl rfl run, by decide +kernel⟩

theorem inSync_misplaced :
    (((answeredAt 5 [9]).step (.recordReceived keyChange none)).records.rows.filter fun row =>
      row.state = .inSync).map Row.sequence = [5] := by
  decide +kernel

/-- An answer that puts the first record at five lets it wait there; once another record brings a key,
the client takes it for the first record and holds a chain without a beginning. -/
theorem not_strictChain_misplaced :
    ¬ StrictChain ((answeredAt 5 [9]).step (.recordReceived keyChange none)).records := by
  intro chain
  obtain ⟨count, sequences⟩ := chain.sequences
  rw [inSync_misplaced] at sequences
  have one : 1 = count := by simpa using sequences.length_eq
  subst one
  exact absurd (sequences.mem_iff.mp List.mem_cons_self) (by decide)

end Engine

end SpSync
