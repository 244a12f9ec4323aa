import Mathlib.Data.List.Induction
import SpSync.Construction.Server.ChainLog
import SpSync.Foundation.Ranking

namespace SpSync

open Foundation

variable {lib : Securepath}

/-- We hold the sampled sequence with another block. -/
def Contradicts (held : SequenceNumber → Octets) (sample : ChainBlockId) : Prop :=
  sample.sequence ≠ 0 ∧ held sample.sequence ≠ [] ∧ held sample.sequence ≠ sample.hash

/-- We hold the sampled sequence with the same block. -/
def Confirms (held : SequenceNumber → Octets) (sample : ChainBlockId) : Prop :=
  sample.sequence ≠ 0 ∧ held sample.sequence ≠ [] ∧ held sample.sequence = sample.hash

/-- The result has the newest confirmed sample and the oldest contradicting one, and zero where there is none. -/
structure Summary (held : SequenceNumber → Octets) (samples : List ChainBlockId) (result : Divergence) : Prop where
  common : result.lastCommon = 0 ∨ ∃ sample ∈ samples, Confirms held sample ∧ sample.sequence = result.lastCommon
  newest : ∀ sample ∈ samples, Confirms held sample → sample.sequence ≤ result.lastCommon
  divergent : result.firstDivergent = 0 ∨
    ∃ sample ∈ samples, Contradicts held sample ∧ sample.sequence = result.firstDivergent
  oldest : ∀ sample ∈ samples, Contradicts held sample →
    result.firstDivergent ≠ 0 ∧ result.firstDivergent ≤ sample.sequence

/-- A sample is confirmed, or contradicts what we hold, or says nothing. -/
theorem compareSample_cases (held : SequenceNumber → Octets) (result : Divergence) (sample : ChainBlockId) :
    (Confirms held sample ∧ ¬ Contradicts held sample ∧
      compareSample held result sample = { result with lastCommon := max result.lastCommon sample.sequence }) ∨
    (Contradicts held sample ∧ ¬ Confirms held sample ∧ compareSample held result sample =
      { result with firstDivergent :=
          if result.firstDivergent = 0 ∨ sample.sequence < result.firstDivergent then sample.sequence
          else result.firstDivergent }) ∨
    (¬ Confirms held sample ∧ ¬ Contradicts held sample ∧ compareSample held result sample = result) := by
  unfold compareSample
  by_cases valid : sample.sequence ≠ 0
  · rw [if_pos valid]
    by_cases known : held sample.sequence = []
    · rw [if_pos known]
      exact .inr (.inr ⟨fun confirms => confirms.2.1 known, fun contradicts => contradicts.2.1 known, rfl⟩)
    rw [if_neg known]
    by_cases same : held sample.sequence = sample.hash
    · rw [if_pos same]
      exact .inl ⟨⟨valid, known, same⟩, fun contradicts => contradicts.2.2 same, rfl⟩
    · rw [if_neg same]
      refine .inr (.inl ⟨⟨valid, known, same⟩, fun confirms => same confirms.2.2, ?_⟩)
      split <;> rfl
  · rw [if_neg valid]
    exact .inr (.inr ⟨fun confirms => valid confirms.1, fun contradicts => valid contradicts.1, rfl⟩)

namespace Summary

variable {held : SequenceNumber → Octets} {samples : List ChainBlockId} {result : Divergence} {sample : ChainBlockId}
  {property : ChainBlockId → Prop}

/-- A statement about the samples so far and one more. -/
theorem forall_mem_append (before : ∀ sample ∈ samples, property sample) (last : property sample) :
    ∀ each ∈ samples ++ [sample], property each :=
  List.forall_mem_append.mpr ⟨before, List.forall_mem_singleton.mpr last⟩

theorem exists_mem_append (found : ∃ sample ∈ samples, property sample) :
    ∃ each ∈ samples ++ [sample], property each := by
  obtain ⟨each, inside, holds⟩ := found
  exact ⟨each, List.mem_append_left _ inside, holds⟩

/-- One more sample is compared. -/
theorem compare (summary : Summary held samples result) (sample : ChainBlockId) :
    Summary held (samples ++ [sample]) (compareSample held result sample) := by
  obtain ⟨confirms, consistent, step⟩ | ⟨contradicts, unconfirmed, step⟩ | ⟨unconfirmed, consistent, step⟩ :=
    compareSample_cases held result sample
  · rw [step]
    refine ⟨?_, forall_mem_append (fun each inside holds => ?_) fun _ => Nat.le_max_right _ _,
      summary.divergent.imp_right exists_mem_append,
      forall_mem_append summary.oldest fun contradicts => absurd contradicts consistent⟩
    · obtain low | high := Nat.le_total sample.sequence result.lastCommon
      · rw [Nat.max_eq_left low]
        exact summary.common.imp_right exists_mem_append
      · rw [Nat.max_eq_right high]
        exact .inr ⟨sample, List.mem_append_right _ List.mem_cons_self, confirms, rfl⟩
    · exact Nat.le_trans (summary.newest each inside holds) (Nat.le_max_left _ _)
  · rw [step]
    refine ⟨summary.common.imp_right exists_mem_append,
      forall_mem_append summary.newest fun confirms => absurd confirms unconfirmed, ?_, ?_⟩
    · split
      · exact .inr ⟨sample, List.mem_append_right _ List.mem_cons_self, contradicts, rfl⟩
      · exact summary.divergent.imp_right exists_mem_append
    · refine forall_mem_append (fun each inside holds => ?_) fun _ => ?_
      · obtain ⟨found, least⟩ := summary.oldest each inside holds
        split
        · rename_i first
          exact ⟨contradicts.1, Nat.le_trans (Nat.le_of_lt (first.resolve_left found)) least⟩
        · exact ⟨found, least⟩
      · split
        · exact ⟨contradicts.1, Nat.le_refl _⟩
        · rename_i later
          obtain ⟨found, least⟩ := not_or.mp later
          exact ⟨found, Nat.le_of_not_lt least⟩
  · rw [step]
    exact ⟨summary.common.imp_right exists_mem_append,
      forall_mem_append summary.newest fun confirms => absurd confirms unconfirmed,
      summary.divergent.imp_right exists_mem_append,
      forall_mem_append summary.oldest fun contradicts => absurd contradicts consistent⟩

end Summary

/-- The comparison of all samples is their summary. -/
theorem summary_findDivergence (samples : List ChainBlockId) (held : SequenceNumber → Octets) :
    Summary held samples (findDivergence samples held) := by
  unfold findDivergence
  induction samples using List.reverseRecOn with
  | nil => exact ⟨.inl rfl, List.forall_mem_nil _, .inl rfl, List.forall_mem_nil _⟩
  | append_singleton samples sample ih =>
    rw [List.foldl_append]
    exact ih.compare sample

/-- The histories part exactly when a sample contradicts what we hold. -/
theorem findDivergence_diverged (samples : List ChainBlockId) (held : SequenceNumber → Octets) :
    (findDivergence samples held).diverged = true ↔ ∃ sample ∈ samples, Contradicts held sample := by
  have summary := summary_findDivergence samples held
  have shown : (findDivergence samples held).diverged = true ↔ (findDivergence samples held).firstDivergent ≠ 0 :=
    decide_eq_true_iff
  rw [shown]
  constructor
  · intro diverged
    obtain ⟨sample, inside, contradicts, -⟩ := summary.divergent.resolve_left diverged
    exact ⟨sample, inside, contradicts⟩
  · rintro ⟨sample, inside, contradicts⟩
    exact (summary.oldest sample inside contradicts).1

/-- What both hold is at most what we hold. -/
theorem lastCommon_le {samples : List ChainBlockId} {held : SequenceNumber → Octets} {bound : Nat}
    (within : ∀ sequence, held sequence ≠ [] → sequence ≤ bound) :
    (findDivergence samples held).lastCommon ≤ bound := by
  obtain zero | ⟨sample, -, confirms, same⟩ := (summary_findDivergence samples held).common
  · rw [zero]
    exact Nat.zero_le bound
  · rw [← same]
    exact within sample.sequence confirms.2.1

/-- The longest start of a range that satisfies a downward closed condition is all of it that does. -/
theorem mem_takeWhile_range' {condition : Nat → Bool}
    (downward : ∀ lower upper, lower ≤ upper → condition upper = true → condition lower = true)
    (start count value : Nat) :
    value ∈ (List.range' start count).takeWhile condition ↔
      value ∈ List.range' start count ∧ condition value = true := by
  induction count generalizing start with
  | zero => simp
  | succ count ih =>
    rw [List.range'_succ, List.takeWhile_cons]
    split
    · rename_i holds
      rw [List.mem_cons, List.mem_cons, ih]
      constructor
      · intro either
        obtain rfl | later := either
        · exact ⟨Or.inl rfl, holds⟩
        · exact ⟨Or.inr later.1, later.2⟩
      · intro both
        obtain rfl | later := both.1
        · exact Or.inl rfl
        · exact Or.inr ⟨later, both.2⟩
    · rename_i fails
      simp only [List.not_mem_nil, false_iff, not_and]
      intro inside holds
      have above : start ≤ value := by
        rw [← List.range'_succ, List.mem_range'_1] at inside
        exact inside.1
      exact fails (downward start value above holds)

/-- The samples are the head, the sequences at doubling distances behind it, and the first one. -/
theorem mem_sampleSequences {head sequence : Nat} (positive : head ≠ 0) :
    sequence ∈ sampleSequences head ↔ sequence = head ∨ sequence = 1 ∨
      ∃ shift < 63, 1 <<< shift < head ∧ sequence = head - 1 <<< shift := by
  have downward : ∀ lower upper, lower ≤ upper → decide (1 <<< upper < head) = true →
      decide (1 <<< lower < head) = true := by
    intro lower upper below holds
    simp only [Nat.one_shiftLeft, decide_eq_true_eq] at holds ⊢
    exact Nat.lt_of_le_of_lt (Nat.pow_le_pow_right (by decide) below) holds
  have closed (spaced : List Nat) :
      sequence ∈ (if spaced.getLast? = some 1 then spaced else spaced ++ [1]) ↔
        sequence ∈ spaced ∨ sequence = 1 := by
    split
    · rename_i last
      constructor
      · exact Or.inl
      intro either
      obtain inside | rfl := either
      · exact inside
      · exact List.mem_of_getLast? last
    · simp
  unfold sampleSequences
  rw [if_neg positive]
  rw [closed, List.mem_cons, List.mem_map, List.range_eq_range']
  simp only [mem_takeWhile_range' downward, List.mem_range'_1, Nat.zero_le, true_and, Nat.zero_add,
    decide_eq_true_eq]
  constructor
  · intro found
    obtain (rfl | ⟨shift, ⟨small, below⟩, rfl⟩) | rfl := found
    · exact Or.inl rfl
    · exact Or.inr (Or.inr ⟨shift, small, below, rfl⟩)
    · exact Or.inr (Or.inl rfl)
  · intro found
    obtain rfl | rfl | ⟨shift, small, below, rfl⟩ := found
    · exact Or.inl (Or.inl rfl)
    · exact Or.inr rfl
    · exact Or.inl (Or.inr ⟨shift, ⟨small, below⟩, rfl⟩)

namespace ChainLog

variable {origin : PublicKeyId} {log ours theirs : ChainLog lib} {fork : Nat} {sequence head : Nat}

/-- The log holds every block of the origin up to the head. -/
structure CompleteHistory (log : ChainLog lib) (origin : PublicKeyId) (head : Nat) : Prop where
  last : log.records.lastOriginSeq origin = head
  held : ∀ sequence : Nat, 1 ≤ sequence → sequence ≤ head → log.records.originBlockHash origin sequence ≠ []

/-- The logs hold the same blocks of the origin below the fork and other blocks from it on. -/
structure PartedAt (ours theirs : ChainLog lib) (origin : PublicKeyId) (fork : Nat) : Prop where
  common : ∀ sequence : Nat, 1 ≤ sequence → sequence < fork → ours.records.originBlockHash origin sequence =
    theirs.records.originBlockHash origin sequence
  parted : ∀ sequence : Nat, fork ≤ sequence → ours.records.originBlockHash origin sequence ≠ [] →
    theirs.records.originBlockHash origin sequence ≠ [] → ours.records.originBlockHash origin sequence ≠
      theirs.records.originBlockHash origin sequence

/-- No block of the origin is held beyond its last sequence. -/
theorem le_lastOriginSeq {records : RecordStorage lib} (held : records.originBlockHash origin sequence ≠ []) :
    sequence ≤ records.lastOriginSeq origin := by
  unfold RecordStorage.originBlockHash at held
  split at held
  · rename_i row found
    have inside : row ∈ records.ofOrigin origin := List.mem_of_find?_eq_some found
    have same : row.originSeq = sequence := by simpa using List.find?_some found
    have last : records.lastOriginSeq origin = Ranking.highest Row.originSeq (records.ofOrigin origin) :=
      (Ranking.highest_eq _).symm
    rw [last, ← same]
    exact Ranking.le_highest inside
  · exact absurd rfl held

theorem CompleteHistory.held_iff (complete : log.CompleteHistory origin head) (positive : 1 ≤ sequence) :
    log.records.originBlockHash origin sequence ≠ [] ↔ sequence ≤ head := by
  constructor
  · intro held
    rw [← complete.last]
    exact le_lastOriginSeq held
  · exact complete.held sequence positive

theorem mem_samplesOf {sample : ChainBlockId} :
    sample ∈ (log.samplesOf origin).blocks ↔ sample.sequence ∈ sampleSequences (log.records.lastOriginSeq origin) ∧
      sample.hash ≠ [] ∧ sample.hash = log.records.originBlockHash origin sample.sequence := by
  unfold samplesOf
  rw [List.mem_filterMap]
  constructor
  · intro found
    obtain ⟨sequence, inside, shown⟩ := found
    dsimp only at shown
    split at shown
    · cases shown
    · rename_i held
      cases shown
      exact ⟨inside, held, rfl⟩
  · intro shown
    obtain ⟨inside, held, same⟩ := shown
    refine ⟨sample.sequence, inside, ?_⟩
    rw [if_neg (by rwa [← same]), ← same]

/-- The samples contradict our log exactly when one of them is between the fork and our head. -/
theorem diverged_iff {ourHead theirHead : Nat} (oursComplete : ours.CompleteHistory origin ourHead)
    (theirsComplete : theirs.CompleteHistory origin theirHead) (parted : PartedAt ours theirs origin fork)
    (positive : 1 ≤ fork) (theirsFork : fork ≤ theirHead) :
    (ours.findDivergence (theirs.samplesOf origin)).diverged = true ↔
      ∃ sequence : Nat, sequence ∈ sampleSequences theirHead ∧ fork ≤ sequence ∧ sequence ≤ ourHead := by
  unfold findDivergence
  rw [findDivergence_diverged]
  constructor
  · intro found
    obtain ⟨sample, inside, notZero, held, differs⟩ := found
    obtain ⟨sampled, _, same⟩ := mem_samplesOf.mp inside
    rw [theirsComplete.last] at sampled
    have known := (oursComplete.held_iff (Nat.one_le_iff_ne_zero.mpr notZero)).mp held
    refine ⟨sample.sequence, sampled, ?_, known⟩
    apply Nat.le_of_not_lt
    intro below
    exact differs ((parted.common _ (Nat.one_le_iff_ne_zero.mpr notZero) below).trans same.symm)
  · intro found
    obtain ⟨sequence, sampled, above, known⟩ := found
    have low : 1 ≤ sequence := positive.trans above
    have high : sequence ≤ theirHead := by
      obtain rfl | rfl | ⟨shift, _, _, rfl⟩ := (mem_sampleSequences (by omega)).mp sampled
      · exact Nat.le_refl _
      · omega
      · exact Nat.sub_le _ _
    have oursHeld := (oursComplete.held_iff low).mpr known
    have theirsHeld := (theirsComplete.held_iff low).mpr high
    refine ⟨⟨sequence, theirs.records.originBlockHash origin sequence⟩, mem_samplesOf.mpr ⟨?_, theirsHeld, rfl⟩,
      Nat.one_le_iff_ne_zero.mp low, oursHeld, parted.parted sequence above oursHeld theirsHeld⟩
    rwa [theirsComplete.last]

/-- A parted history is not pulled exactly when the peer is not ahead or one of its samples falls between
the fork and our head. -/
theorem planPull_unwanted_iff {ourHead theirHead : Nat} (oursComplete : ours.CompleteHistory origin ourHead)
    (theirsComplete : theirs.CompleteHistory origin theirHead) (parted : PartedAt ours theirs origin fork)
    (positive : 1 ≤ fork) (oursFork : fork ≤ ourHead) (theirsFork : fork ≤ theirHead) :
    (planPull ourHead theirHead (ours.findDivergence (theirs.samplesOf origin))).wanted = false ↔
      theirHead ≤ ourHead ∨ fork = 1 ∨ ∃ shift < 63, 1 <<< shift < theirHead ∧
        fork ≤ theirHead - 1 <<< shift ∧ theirHead - 1 <<< shift ≤ ourHead := by
  have unwanted : (planPull ourHead theirHead (ours.findDivergence (theirs.samplesOf origin))).wanted = false ↔
      (ours.findDivergence (theirs.samplesOf origin)).diverged = true ∨ theirHead ≤ ourHead := by
    have common : (ours.findDivergence (theirs.samplesOf origin)).lastCommon ≤ ourHead :=
      lastCommon_le fun sequence held => oursComplete.last ▸ le_lastOriginSeq held
    unfold planPull PullRange.wanted
    by_cases diverged : (ours.findDivergence (theirs.samplesOf origin)).diverged = true
    · simp [diverged]
    by_cases ahead : ourHead < theirHead
    · have peer : theirHead ≠ 0 := by omega
      simp [diverged, peer, Nat.max_eq_left common, ahead]
    · simp [Nat.max_eq_left common, ahead, Nat.le_of_not_lt ahead]
  rw [unwanted, diverged_iff oursComplete theirsComplete parted positive theirsFork]
  constructor
  · intro either
    obtain ⟨sequence, sampled, above, known⟩ | behind := either
    · obtain rfl | rfl | ⟨shift, small, below, rfl⟩ := (mem_sampleSequences (by omega)).mp sampled
      · exact Or.inl known
      · exact Or.inr (Or.inl (Nat.le_antisymm above positive))
      · exact Or.inr (Or.inr ⟨shift, small, below, above, known⟩)
    · exact Or.inl behind
  · intro either
    obtain behind | rfl | ⟨shift, small, below, above, known⟩ := either
    · exact Or.inr behind
    · exact Or.inl ⟨1, (mem_sampleSequences (by omega)).mpr (Or.inr (Or.inl rfl)), Nat.le_refl 1, oursFork⟩
    · exact Or.inl ⟨_, (mem_sampleSequences (by omega)).mpr (Or.inr (Or.inr ⟨shift, small, below, rfl⟩)), above, known⟩

/-- The log with one more record that the server with identifier eight assigned. -/
def withAssigned (log : ChainLog .sample) (tag : RecordTag) : ChainLog .sample :=
  let block : Securepath.sample.Block := ⟨(1, ⟨{}, .userChange ⟨⟨.delta, []⟩, []⟩, [[]]⟩), ⟨tag, none⟩,
    log.head.sequence + 1, log.head.hash⟩
  match log.append ⟨block, [8], 0, some ⟨[8], []⟩⟩ with
  | .ok appended => appended
  | .error _ => log

/-- The history of that server with records of these tags. -/
def historyOf (tags : List RecordTag) : ChainLog .sample :=
  tags.foldl withAssigned (load (.empty .sample))

/-- Finitely many blocks decide whether a history is complete. -/
theorem completeHistory_of_range (last : log.records.lastOriginSeq origin = head)
    (held : ∀ sequence ∈ List.range' 1 head, log.records.originBlockHash origin sequence ≠ []) :
    log.CompleteHistory origin head := by
  refine ⟨last, fun sequence low high => held sequence (List.mem_range'_1.mpr ⟨low, ?_⟩)⟩
  omega

/-- Finitely many blocks decide where two histories part. -/
theorem partedAt_of_range
    (common : ∀ sequence ∈ List.range' 1 (fork - 1), ours.records.originBlockHash origin sequence =
      theirs.records.originBlockHash origin sequence)
    (parted : ∀ sequence ∈ List.range' fork (ours.records.lastOriginSeq origin + 1 - fork),
      ours.records.originBlockHash origin sequence ≠ theirs.records.originBlockHash origin sequence) :
    PartedAt ours theirs origin fork := by
  constructor
  · intro sequence low high
    exact common sequence (List.mem_range'_1.mpr ⟨low, by omega⟩)
  intro sequence low held _
  have high := le_lastOriginSeq held
  generalize ours.records.lastOriginSeq origin = last at parted high
  exact parted sequence (List.mem_range'_1.mpr ⟨low, by omega⟩)

theorem planPull_unwanted_iff_two :
    (planPull 2 2 ((historyOf [[1], [2]]).findDivergence ((historyOf [[1], [3]]).samplesOf [8]))).wanted = false :=
  (planPull_unwanted_iff (completeHistory_of_range (by decide +kernel) (by decide +kernel))
    (completeHistory_of_range (by decide +kernel) (by decide +kernel))
    (partedAt_of_range (by decide +kernel) (by decide +kernel))
    (by decide : 1 ≤ 2) (by decide) (by decide)).mpr (by decide)

/-- The peer is ahead of a fork at the second record, and none of its samples is that record. -/
theorem planPull_wanted_between_samples :
    (historyOf [[1], [2]]).CompleteHistory [8] 2 ∧
      (historyOf [[1], [3], [4], [5], [6]]).CompleteHistory [8] 5 ∧
      PartedAt (historyOf [[1], [2]]) (historyOf [[1], [3], [4], [5], [6]]) [8] 2 ∧
      planPull 2 5 ((historyOf [[1], [2]]).findDivergence
        ((historyOf [[1], [3], [4], [5], [6]]).samplesOf [8])) = ⟨3, 5⟩ :=
  ⟨completeHistory_of_range (by decide +kernel) (by decide +kernel),
    completeHistory_of_range (by decide +kernel) (by decide +kernel),
    partedAt_of_range (by decide +kernel) (by decide +kernel), by decide +kernel⟩

end ChainLog

end SpSync
