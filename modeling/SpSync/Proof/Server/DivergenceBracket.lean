import Mathlib.Data.List.TakeWhile
import SpSync.Proof.Server.PartedHistory

namespace SpSync

open Foundation

variable {lib : Securepath} {head : Nat} {shift sequence : Nat}

/-- The distances of the samples behind the head. -/
def sampledShifts (head : Nat) : List Nat :=
  (List.range 63).takeWhile fun shift => 1 <<< shift < head

/-- The head and the samples behind it. -/
def spacedSamples (head : Nat) : List Nat :=
  head :: (sampledShifts head).map fun shift => head - 1 <<< shift

theorem sampleSequences_eq (positive : head ≠ 0) : sampleSequences head =
    if (spacedSamples head).getLast? = some 1 then spacedSamples head else spacedSamples head ++ [1] := by
  unfold sampleSequences
  rw [if_neg positive]
  rfl

theorem lt_of_sampledShifts (sampled : shift ∈ sampledShifts head) : 1 <<< shift < head := by
  have condition := List.mem_takeWhile_imp sampled
  exact of_decide_eq_true condition

theorem spacedSamples_decreasing (positive : head ≠ 0) :
    (spacedSamples head).Pairwise fun newer older => older < newer := by
  have distance (shift : Nat) : 0 < 1 <<< shift := by
    rw [Nat.one_shiftLeft]
    exact Nat.two_pow_pos shift
  refine List.pairwise_cons.mpr ⟨fun sequence inside => ?_, List.pairwise_map.mpr ?_⟩
  · obtain ⟨shift, -, rfl⟩ := List.mem_map.mp inside
    have behind := distance shift
    omega
  · have shifts : (sampledShifts head).Pairwise (· < ·) :=
      List.pairwise_lt_range.sublist (List.takeWhile_sublist _)
    refine shifts.imp_of_mem fun {near far} _ sampled less => ?_
    have below := lt_of_sampledShifts sampled
    have further : 1 <<< near < 1 <<< far := by
      rw [Nat.one_shiftLeft, Nat.one_shiftLeft]
      exact Nat.pow_lt_pow_right (by decide) less
    omega

theorem spacedSamples_pos (positive : head ≠ 0) (inside : sequence ∈ spacedSamples head) : 1 ≤ sequence := by
  obtain rfl | behind := List.mem_cons.mp inside
  · omega
  · obtain ⟨shift, sampled, rfl⟩ := List.mem_map.mp behind
    have below := lt_of_sampledShifts sampled
    omega

theorem length_spacedSamples_le (head : Nat) : (spacedSamples head).length ≤ 64 := by
  have few : (sampledShifts head).length ≤ (List.range 63).length := (List.takeWhile_sublist _).length_le
  rw [List.length_range] at few
  rw [spacedSamples, List.length_cons, List.length_map]
  omega

/-- Only the last of numbers that go down can be one. -/
theorem one_lt_of_decreasing {sequences : List Nat} (decreasing : sequences.Pairwise fun newer older => older < newer)
    (positive : ∀ sequence ∈ sequences, 1 ≤ sequence) (opened : sequences.getLast? ≠ some 1) :
    ∀ sequence ∈ sequences, 1 < sequence := by
  obtain rfl | ⟨newer, oldest, rfl⟩ := List.eq_nil_or_concat' sequences
  · exact List.forall_mem_nil _
  rw [List.getLast?_concat] at opened
  have low : 1 < oldest := by
    have above := positive oldest (List.mem_append_right _ List.mem_cons_self)
    have other : oldest ≠ 1 := fun same => opened (congrArg Option.some same)
    omega
  refine List.forall_mem_append.mpr ⟨fun sequence before => ?_, List.forall_mem_singleton.mpr low⟩
  exact Nat.lt_trans low ((List.pairwise_append.mp decreasing).2.2 sequence before oldest List.mem_cons_self)

/-- The samples go down from the head to the first sequence. -/
theorem sampleSequences_decreasing (positive : head ≠ 0) :
    ((sampleSequences head).Pairwise fun newer older => older < newer) ∧ (sampleSequences head).head? = some head ∧
      (sampleSequences head).getLast? = some 1 ∧ (sampleSequences head).length ≤ 66 := by
  have decreasing := spacedSamples_decreasing positive
  have short := length_spacedSamples_le head
  rw [sampleSequences_eq positive]
  split
  · rename_i closed
    exact ⟨decreasing, rfl, closed, by omega⟩
  rename_i opened
  refine ⟨List.pairwise_append.mpr ⟨decreasing, List.pairwise_singleton _ _, fun sequence inside first only => ?_⟩,
    rfl, List.getLast?_concat, ?_⟩
  · rw [List.mem_singleton.mp only]
    exact one_lt_of_decreasing decreasing (fun _ => spacedSamples_pos positive) opened sequence inside
  · rw [List.length_append, List.length_singleton]
    omega

theorem toNat_distance (small : shift < 63) : ((1 : UInt64) <<< UInt64.ofNat shift).toNat = 1 <<< shift := by
  have width : (UInt64.ofNat shift).toNat % 64 = shift := by
    rw [UInt64.toNat_ofNat_of_lt' (Nat.lt_trans small (by decide))]
    omega
  have below : 2 ^ shift < 2 ^ 64 := Nat.pow_lt_pow_right (by decide) (by omega)
  rw [UInt64.toNat_shiftLeft, width]
  show 1 <<< shift % 2 ^ 64 = 1 <<< shift
  rw [Nat.one_shiftLeft, Nat.mod_eq_of_lt below]

/-- No distance and no difference wraps around. -/
theorem map_samplesBehind64 (head : UInt64) {left : Nat} (few : left ≤ 63) :
    (samplesBehind64 head left).map UInt64.toNat =
      ((List.range' (63 - left) left).takeWhile fun shift => 1 <<< shift < head.toNat).map fun shift =>
        head.toNat - 1 <<< shift := by
  induction left with
  | zero => rfl
  | succ left ih =>
    have shift : 63 - (left + 1) = 62 - left := by omega
    have next : 62 - left + 1 = 63 - left := by omega
    have distance := toNat_distance (show 62 - left < 63 by omega)
    rw [List.range'_succ, shift, next, List.takeWhile_cons]
    unfold samplesBehind64
    by_cases below : (1 : UInt64) <<< UInt64.ofNat (62 - left) < head
    · have within : 1 <<< (62 - left) < head.toNat := by
        rw [← distance]
        exact UInt64.lt_iff_toNat_lt.mp below
      rw [if_pos below, if_pos (decide_eq_true within), List.map_cons, List.map_cons, ih (by omega),
        UInt64.toNat_sub_of_le _ _ (UInt64.le_of_lt below), distance]
    · have beyond : ¬ 1 <<< (62 - left) < head.toNat := by
        rw [← distance]
        exact fun within => below (UInt64.lt_iff_toNat_lt.mpr within)
      rw [if_neg below, if_neg (by simpa using beyond)]
      rfl

/-- The samples in unsigned numbers are those of the model. -/
theorem map_sampleSequences64 (head : UInt64) :
    (sampleSequences64 head).map UInt64.toNat = sampleSequences head.toNat := by
  unfold sampleSequences64
  by_cases zero : head = 0
  · rw [if_pos zero, zero]
    rfl
  have positive : head.toNat ≠ 0 := fun same => zero (UInt64.toNat_inj.mp same)
  have spaced : (head :: samplesBehind64 head 63).map UInt64.toNat = spacedSamples head.toNat := by
    rw [List.map_cons, map_samplesBehind64 head (Nat.le_refl 63), spacedSamples, sampledShifts,
      List.range_eq_range']
  have closed : (spacedSamples head.toNat).getLast? = some 1 ↔ (head :: samplesBehind64 head 63).getLast? = some 1 := by
    rw [← spaced, List.getLast?_map, Option.map_eq_some_iff]
    constructor
    · rintro ⟨last, there, same⟩
      have one : last = 1 := UInt64.toNat_inj.mp same
      rw [there, one]
    · intro there
      exact ⟨1, there, rfl⟩
  rw [if_neg zero, sampleSequences_eq positive]
  by_cases last : (head :: samplesBehind64 head 63).getLast? = some 1
  · rw [if_pos last, if_pos (closed.mpr last), spaced]
  · rw [if_neg last, if_neg (mt closed.mp last), List.map_append, spaced]
    rfl

/-- Some sample lies below the fork and not much further behind the head. -/
theorem exists_sample_near {fork : Nat} (late : 1 < fork) (reached : fork ≤ head) (small : head ≤ 2 ^ 63) :
    ∃ sequence : Nat, sequence ∈ sampleSequences head ∧ sequence < fork ∧
      head - sequence ≤ max 1 (2 * (head - fork)) := by
  have positive : head ≠ 0 := by omega
  obtain ⟨shift, beyond, near⟩ : ∃ shift, head - fork < 2 ^ shift ∧ 2 ^ shift ≤ max 1 (2 * (head - fork)) := by
    by_cases top : head - fork = 0
    · exact ⟨0, by omega, by omega⟩
    refine ⟨(head - fork).log2 + 1, Nat.lt_log2_self, ?_⟩
    have power := Nat.log2_self_le top
    rw [Nat.pow_succ]
    omega
  by_cases inside : 2 ^ shift < head
  · have few : shift < 63 := (Nat.pow_lt_pow_iff_right (by decide)).mp (Nat.lt_of_lt_of_le inside small)
    refine ⟨head - 1 <<< shift, (mem_sampleSequences positive).mpr (.inr (.inr ⟨shift, few, ?_, rfl⟩)), ?_⟩
    · rw [Nat.one_shiftLeft]
      exact inside
    · rw [Nat.one_shiftLeft]
      omega
  · refine ⟨1, (mem_sampleSequences positive).mpr (.inr (.inl rfl)), late, ?_⟩
    omega

theorem sampled_range (positive : head ≠ 0) (sampled : sequence ∈ sampleSequences head) :
    1 ≤ sequence ∧ sequence ≤ head := by
  obtain rfl | rfl | ⟨shift, -, below, rfl⟩ := (mem_sampleSequences positive).mp sampled
  · exact ⟨by omega, Nat.le_refl _⟩
  · exact ⟨Nat.le_refl 1, by omega⟩
  · exact ⟨by omega, Nat.sub_le _ _⟩

/-- The result has the newest sampled sequence on which two histories agree and the oldest on which they do not. -/
structure Bracket (head : Nat) (agree : Nat → Prop) (result : Divergence) : Prop where
  common : result.lastCommon = 0 ∨ result.lastCommon ∈ sampleSequences head ∧ agree result.lastCommon
  newest : ∀ sequence : Nat, sequence ∈ sampleSequences head → agree sequence → sequence ≤ result.lastCommon
  divergent : result.firstDivergent = 0 ∨ result.firstDivergent ∈ sampleSequences head ∧ ¬ agree result.firstDivergent
  oldest : ∀ sequence : Nat, sequence ∈ sampleSequences head → ¬ agree sequence → result.firstDivergent ≠ 0

namespace Bracket

variable {head fork : Nat} {agree : Nat → Prop} {result : Divergence}

/-- The head itself is sampled, so that a fork up to it shows. -/
theorem diverged_iff (bracket : Bracket head agree result) (positive : head ≠ 0)
    (parted : ∀ sequence : Nat, 1 ≤ sequence → sequence ≤ head → (agree sequence ↔ sequence < fork)) :
    result.diverged = true ↔ fork ≤ head := by
  have shown : result.diverged = true ↔ result.firstDivergent ≠ 0 := decide_eq_true_iff
  rw [shown]
  constructor
  · intro diverged
    obtain ⟨sampled, differs⟩ := bracket.divergent.resolve_left diverged
    obtain ⟨low, high⟩ := sampled_range positive sampled
    exact Nat.le_trans (Nat.le_of_not_lt fun less => differs ((parted _ low high).mpr less)) high
  · intro reached
    refine bracket.oldest head ((mem_sampleSequences positive).mpr (.inl rfl)) fun same => ?_
    exact absurd ((parted head (by omega) (Nat.le_refl _)).mp same) (Nat.not_lt_of_le reached)

/-- The fork lies between the two bounds, and the lower one is near. -/
theorem encloses (bracket : Bracket head agree result) (late : 1 < fork) (reached : fork ≤ head)
    (parted : ∀ sequence : Nat, 1 ≤ sequence → sequence ≤ head → (agree sequence ↔ sequence < fork)) :
    result.lastCommon < fork ∧ fork ≤ result.firstDivergent ∧
      (head ≤ 2 ^ 63 → head - result.lastCommon ≤ max 1 (2 * (head - fork))) := by
  have positive : head ≠ 0 := by omega
  have diverged : result.firstDivergent ≠ 0 :=
    decide_eq_true_iff.mp ((bracket.diverged_iff positive parted).mpr reached)
  refine ⟨?_, ?_, fun small => ?_⟩
  · obtain zero | ⟨sampled, same⟩ := bracket.common
    · rw [zero]
      exact Nat.lt_trans Nat.zero_lt_one late
    · obtain ⟨low, high⟩ := sampled_range positive sampled
      exact (parted _ low high).mp same
  · obtain ⟨sampled, differs⟩ := bracket.divergent.resolve_left diverged
    obtain ⟨low, high⟩ := sampled_range positive sampled
    exact Nat.le_of_not_lt fun less => differs ((parted _ low high).mpr less)
  · obtain ⟨sequence, sampled, below, near⟩ := exists_sample_near late reached small
    obtain ⟨low, high⟩ := sampled_range positive sampled
    have newest := bracket.newest sequence sampled ((parted sequence low high).mpr below)
    exact Nat.le_trans (Nat.sub_le_sub_left newest head) near

theorem lastCommon_eq (bracket : Bracket head agree result) (positive : head ≠ 0)
    (same : agree head) : result.lastCommon = head := by
  have newest := bracket.newest head ((mem_sampleSequences positive).mpr (.inl rfl)) same
  obtain zero | ⟨sampled, -⟩ := bracket.common
  · rw [zero] at newest
    exact absurd newest (by omega)
  · exact Nat.le_antisymm (sampled_range positive sampled).2 newest

end Bracket

namespace ChainLog

variable {ours theirs : ChainLog lib} {origin : PublicKeyId} {ourHead head : Nat}

/-- The samples of a complete history, compared with a complete history that reaches as far. -/
theorem bracket_findDivergence (oursComplete : ours.CompleteHistory origin ourHead)
    (theirsComplete : theirs.CompleteHistory origin head) (positive : head ≠ 0) (shared : head ≤ ourHead) :
    Bracket head (fun sequence => ours.records.originBlockHash origin sequence =
      theirs.records.originBlockHash origin sequence) (ours.findDivergence (theirs.samplesOf origin)) := by
  have summary : Summary (ours.records.originBlockHash origin) (theirs.samplesOf origin).blocks
      (ours.findDivergence (theirs.samplesOf origin)) := summary_findDivergence _ _
  have listed {sequence : Nat} (sampled : sequence ∈ sampleSequences head) :
      ⟨sequence, theirs.records.originBlockHash origin sequence⟩ ∈ (theirs.samplesOf origin).blocks := by
    obtain ⟨low, high⟩ := sampled_range positive sampled
    rw [mem_samplesOf, theirsComplete.last]
    exact ⟨sampled, theirsComplete.held sequence low high, rfl⟩
  have known {sequence : Nat} (sampled : sequence ∈ sampleSequences head) :
      sequence ≠ 0 ∧ ours.records.originBlockHash origin sequence ≠ [] := by
    obtain ⟨low, high⟩ := sampled_range positive sampled
    exact ⟨by omega, oursComplete.held sequence low (Nat.le_trans high shared)⟩
  have read {sample : ChainBlockId} (inside : sample ∈ (theirs.samplesOf origin).blocks) :
      sample.sequence ∈ sampleSequences head ∧
        sample.hash = theirs.records.originBlockHash origin sample.sequence := by
    obtain ⟨sampled, -, same⟩ := mem_samplesOf.mp inside
    rw [theirsComplete.last] at sampled
    exact ⟨sampled, same⟩
  refine ⟨?_, fun sequence sampled same => ?_, ?_, fun sequence sampled differs => ?_⟩
  · refine summary.common.imp_right fun ⟨sample, inside, confirms, same⟩ => ?_
    obtain ⟨sampled, hash⟩ := read inside
    rw [same] at sampled hash
    refine ⟨sampled, ?_⟩
    rw [← hash, ← confirms.2.2, same]
  · exact summary.newest _ (listed sampled) ⟨(known sampled).1, (known sampled).2, same⟩
  · refine summary.divergent.imp_right fun ⟨sample, inside, contradicts, same⟩ => ?_
    obtain ⟨sampled, hash⟩ := read inside
    rw [same] at sampled hash
    refine ⟨sampled, fun agreed => contradicts.2.2 ?_⟩
    rw [hash, same]
    exact agreed
  · exact (summary.oldest _ (listed sampled) ⟨(known sampled).1, (known sampled).2, differs⟩).1

/-- The samples of a peer whose head we hold bracket a fork of the two histories, and they go down from the head to
the first sequence. -/
theorem findDivergence_brackets (oursComplete : ours.CompleteHistory origin ourHead)
    (theirsComplete : theirs.CompleteHistory origin head) (positive : 1 ≤ head) (fits : head < 2 ^ 64)
    (shared : head ≤ ourHead) :
    (∀ fork > 1, PartedAt ours theirs origin fork →
      ((ours.findDivergence (theirs.samplesOf origin)).diverged = true ↔ fork ≤ head) ∧
      (fork ≤ head → (ours.findDivergence (theirs.samplesOf origin)).lastCommon < fork ∧
        fork ≤ (ours.findDivergence (theirs.samplesOf origin)).firstDivergent ∧
        (head ≤ 2 ^ 63 → head - (ours.findDivergence (theirs.samplesOf origin)).lastCommon ≤
          max 1 (2 * (head - fork))))) ∧
    ((∀ sequence : Nat, 1 ≤ sequence → sequence ≤ head → ours.records.originBlockHash origin sequence =
      theirs.records.originBlockHash origin sequence) →
      (ours.findDivergence (theirs.samplesOf origin)).lastCommon = head) ∧
    (sampleSequences64 (UInt64.ofNat head)).map UInt64.toNat = sampleSequences head ∧
    ((sampleSequences head).Pairwise fun newer older => older < newer) ∧
    (sampleSequences head).head? = some head ∧ (sampleSequences head).getLast? = some 1 ∧
    (sampleSequences head).length ≤ 66 := by
  have nonzero : head ≠ 0 := by omega
  have bracket := bracket_findDivergence oursComplete theirsComplete nonzero shared
  refine ⟨fun fork late parted => ?_, fun agreed => bracket.lastCommon_eq nonzero (agreed head positive (Nat.le_refl _)),
    ?_, sampleSequences_decreasing nonzero⟩
  · have forked (sequence : Nat) (low : 1 ≤ sequence) (high : sequence ≤ head) :
        ours.records.originBlockHash origin sequence = theirs.records.originBlockHash origin sequence ↔
          sequence < fork := by
      refine ⟨fun same => ?_, parted.common sequence low⟩
      apply Nat.lt_of_not_le
      intro above
      exact parted.parted sequence above (oursComplete.held sequence low (Nat.le_trans high shared))
        (theirsComplete.held sequence low high) same
    exact ⟨bracket.diverged_iff nonzero forked, fun reached => bracket.encloses late reached forked⟩
  · rw [map_sampleSequences64, UInt64.toNat_ofNat_of_lt' fits]

/-- Our five records part from the four of a peer at the third. -/
theorem findDivergence_brackets_four :
    ((historyOf [[1], [2], [3], [4], [5]]).findDivergence ((historyOf [[1], [2], [6], [7]]).samplesOf [8])).lastCommon
      < 3 ∧ 3 ≤ ((historyOf [[1], [2], [3], [4], [5]]).findDivergence
        ((historyOf [[1], [2], [6], [7]]).samplesOf [8])).firstDivergent := by
  have ours : (historyOf [[1], [2], [3], [4], [5]]).CompleteHistory [8] 5 :=
    completeHistory_of_range (by decide +kernel) (by decide +kernel)
  have theirs : (historyOf [[1], [2], [6], [7]]).CompleteHistory [8] 4 :=
    completeHistory_of_range (by decide +kernel) (by decide +kernel)
  obtain ⟨brackets, -⟩ := findDivergence_brackets ours theirs (by decide) (by decide) (by decide)
  obtain ⟨-, encloses⟩ := brackets 3 (by decide) (partedAt_of_range (by decide +kernel) (by decide +kernel))
  obtain ⟨below, above, -⟩ := encloses (by decide)
  exact ⟨below, above⟩

end ChainLog

end SpSync
