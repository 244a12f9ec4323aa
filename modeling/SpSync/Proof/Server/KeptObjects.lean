import SpSync.Proof.Core.ObjectVersions
import SpSync.Proof.Server.Restarts

namespace SpSync.ChainLog

open Foundation RecordStorage

variable {lib : Securepath}

/-- The log after a cut; a cut that throws leaves the log as it was. -/
def afterCut (log : ChainLog lib) (segmentTag : RecordTag) : ChainLog lib :=
  match log.cutBefore segmentTag with
  | .ok (cut, _) => cut
  | .error _ => log

/-- The rows of the object table, each with the tag of its record. -/
def objectRows (log : ChainLog lib) : List (RecordTag × PlainSingleChangeData) :=
  log.records.rows.flatMap fun row => row.objects.map fun change => (row.tag, change)

/-- The record came from a server, lies before the sequence and is no version of any object. -/
def Outdated (log : ChainLog lib) (below : SequenceNumber) (row : Row lib) : Prop :=
  isReceived row = true ∧ row.sequence < below ∧ ∀ oid, row ∉ log.records.objectVersions oid

/-- The rows of the log that are not outdated are those that stay. -/
structure KeepsCurrent (log cut : ChainLog lib) (below : SequenceNumber) : Prop where
  head : cut.head = log.head
  sublist : cut.records.rows.Sublist log.records.rows
  rows : ∀ row, row ∈ cut.records.rows ↔ row ∈ log.records.rows ∧ ¬ log.Outdated below row

variable {log cut : ChainLog lib} {below : SequenceNumber}

/-- A record that the cut removes is tagged as its block, so the retained tags are those of the versions. -/
theorem isCut_iff_outdated {row : Row lib} (tagged : ∀ row ∈ log.records.rows, row.block.tag = row.tag)
    (inside : row ∈ log.records.rows) :
    isCut below (log.records.objectChainTagsBelow below) row = true ↔ log.Outdated below row := by
  simp only [isCut, Outdated, Bool.and_eq_true, decide_eq_true_eq, and_assoc]
  refine and_congr_right fun _ => and_congr_right fun before => ?_
  rw [tagged row inside, mem_objectChainTagsBelow_iff]
  constructor
  · intro outside oid listed
    exact outside ⟨oid, row, listed, before, rfl⟩
  intro outside found
  obtain ⟨oid, other, listed, _, same⟩ := found
  rw [row_eq_of_tag (isVersion_of_mem listed).mem inside same] at listed
  exact outside oid listed

/-- A cut at a committed segment removes the outdated records and nothing else. -/
theorem keepsCurrent_afterCut {segmentTag : RecordTag} {segment : Row lib}
    (found : log.records.findTag segmentTag = some segment) (isSegment : segment.type = .segment)
    (committed : segment.state = .inSync) (tagged : ∀ row ∈ log.records.rows, row.block.tag = row.tag) :
    log.KeepsCurrent (log.afterCut segmentTag) segment.sequence := by
  cases done : log.cutBefore segmentTag with
  | ok outcome =>
    obtain ⟨cut, removed⟩ := outcome
    obtain ⟨other, again, _, _, rows, head⟩ := cutBefore_ok done
    obtain rfl : segment = other := Option.some.inj (found.symm.trans again)
    have after : log.afterCut segmentTag = cut := by rw [afterCut, done]
    rw [after]
    refine ⟨head, rows ▸ List.filter_sublist, fun row => ?_⟩
    rw [rows, List.mem_filter]
    refine and_congr_right fun inside => ?_
    rw [Bool.not_eq_true', ← Bool.not_eq_true, isCut_iff_outdated tagged inside]
  | error err =>
    -- Only a segment without a sequence is refused, and then there is nothing before it.
    have nothing : segment.sequence = 0 := by
      rw [cutBefore, found] at done
      simp only [isSegment, committed, and_self, if_true, truncatePrefix] at done
      by_contra valid
      rw [if_neg valid] at done
      cases done
    have after : log.afterCut segmentTag = log := by rw [afterCut, done]
    rw [after]
    refine ⟨rfl, List.Sublist.refl _, fun row => ?_⟩
    have current : ¬ log.Outdated segment.sequence row := by
      rintro ⟨_, before, _⟩
      rw [nothing] at before
      exact Nat.not_lt_zero _ before
    exact ⟨fun inside => ⟨inside, current⟩, And.left⟩

namespace KeepsCurrent

variable (keeps : log.KeepsCurrent cut below) {row : Row lib}

include keeps

theorem mem_of_mem (inside : row ∈ cut.records.rows) : row ∈ log.records.rows :=
  ((keeps.rows row).mp inside).1

theorem objectVersions_eq (oid : ObjectId) : cut.records.objectVersions oid = log.records.objectVersions oid := by
  apply objectVersions_of_kept fun row inside => keeps.mem_of_mem inside
  intro row listed
  exact (keeps.rows row).mpr ⟨(isVersion_of_mem listed).mem, fun outdated => outdated.2.2 oid listed⟩

theorem mem_of_le (inside : row ∈ log.records.rows) (later : below ≤ row.sequence) : row ∈ cut.records.rows :=
  (keeps.rows row).mpr ⟨inside, fun outdated => Nat.not_lt.mpr later outdated.2.1⟩

/-- A record in sync from the sequence on keeps the last block. -/
theorem lastBlock_eq (inside : row ∈ log.records.rows) (inSync : row.state = .inSync) (later : below ≤ row.sequence) :
    cut.records.lastBlock = log.records.lastBlock := by
  rw [RecordStorage.lastBlock_eq, RecordStorage.lastBlock_eq, newest_of_kept fun row inside => keeps.mem_of_mem inside]
  intro last found
  obtain ⟨⟨lastIn, _, _⟩, above⟩ := newest_eq_some_iff.mp found
  exact keeps.mem_of_le lastIn (later.trans (above row inside inSync rfl))

/-- The object rows go with their records. -/
theorem mem_objectRows_iff (object : RecordTag × PlainSingleChangeData) : object ∈ cut.objectRows ↔
    object ∈ log.objectRows ∧ ∀ row ∈ log.records.rows, row.tag = object.1 → ¬ log.Outdated below row := by
  simp only [objectRows, List.mem_flatMap, List.mem_map]
  constructor
  · intro found
    obtain ⟨row, inside, change, changeIn, rfl⟩ := found
    obtain ⟨rowIn, current⟩ := (keeps.rows row).mp inside
    refine ⟨⟨row, rowIn, change, changeIn, rfl⟩, fun other otherIn same => ?_⟩
    rwa [row_eq_of_tag otherIn rowIn same]
  · intro found
    obtain ⟨⟨row, rowIn, change, changeIn, rfl⟩, current⟩ := found
    exact ⟨row, (keeps.rows row).mpr ⟨rowIn, current row rowIn rfl⟩, change, changeIn, rfl⟩

theorem pendingCommit_eq : cut.records.rows.filter (fun row => row.state = .pendingCommit) =
    log.records.rows.filter fun row => row.state = .pendingCommit := by
  have distinct : log.records.rows.Nodup :=
    log.records.unique.tags.imp fun apart same => apart (congrArg Row.tag same)
  apply (keeps.sublist.filter _).eq_of_length_le
  apply (List.Nodup.subperm _ _).length_le
  · exact distinct.filter _
  intro row inside
  obtain ⟨rowIn, pending⟩ := List.mem_filter.mp inside
  rw [decide_eq_true_eq] at pending
  refine List.mem_filter.mpr ⟨(keeps.rows row).mpr ⟨rowIn, fun outdated => ?_⟩, decide_eq_true pending⟩
  have received := outdated.1
  simp [isReceived, pending] at received

end KeepsCurrent

/-- A cut at a committed segment keeps the versions of every object, the head, the records from the segment on
and the pending ones; the records before the segment that a server gave and that are no versions of any object
go with their object rows, and no others do. -/
theorem afterCut_keepsObjects {segmentTag : RecordTag} {segment : Row lib}
    (found : log.records.findTag segmentTag = some segment) (isSegment : segment.type = .segment)
    (committed : segment.state = .inSync) (tagged : ∀ row ∈ log.records.rows, row.block.tag = row.tag) :
    (∀ oid, (log.afterCut segmentTag).records.objectVersions oid = log.records.objectVersions oid) ∧
    (log.afterCut segmentTag).head = log.head ∧
    (log.afterCut segmentTag).records.lastBlock = log.records.lastBlock ∧
    (∀ row ∈ log.records.rows, segment.sequence ≤ row.sequence → row ∈ (log.afterCut segmentTag).records.rows) ∧
    (∀ row, row ∈ (log.afterCut segmentTag).records.rows ↔
      row ∈ log.records.rows ∧ ¬ log.Outdated segment.sequence row) ∧
    (∀ object, object ∈ (log.afterCut segmentTag).objectRows ↔ object ∈ log.objectRows ∧
      ∀ row ∈ log.records.rows, row.tag = object.1 → ¬ log.Outdated segment.sequence row) ∧
    (log.afterCut segmentTag).records.rows.filter (fun row => row.state = .pendingCommit) =
      log.records.rows.filter fun row => row.state = .pendingCommit := by
  have keeps := keepsCurrent_afterCut found isSegment committed tagged
  have segmentIn := (findTag_eq_some_iff.mp found).1
  exact ⟨keeps.objectVersions_eq, keeps.head, keeps.lastBlock_eq segmentIn committed (Nat.le_refl _),
    fun row inside later => keeps.mem_of_le inside later, keeps.rows, keeps.mem_objectRows_iff, keeps.pendingCommit_eq⟩

/-- The log with the forked object and its segment. -/
def forkedLog : ChainLog .sample :=
  (ChainSync.forkedStorage.call (.commitBlock ChainSync.forkedSegment)).log

theorem afterCut_keepsObjects_forked :
    (forkedLog.afterCut [4]).records.objectVersions ChainSync.forkedObject =
      forkedLog.records.objectVersions ChainSync.forkedObject ∧
    (forkedLog.afterCut [4]).head = forkedLog.head := by
  have found : ∃ segment, forkedLog.records.findTag [4] = some segment ∧ segment.type = .segment ∧
      segment.state = .inSync := by
    refine ⟨(forkedLog.records.findTag [4]).get (by decide +kernel), by simp, by decide +kernel, by decide +kernel⟩
  obtain ⟨segment, found, isSegment, committed⟩ := found
  have kept := afterCut_keepsObjects found isSegment committed (by decide +kernel)
  exact ⟨kept.1 _, kept.2.1⟩

end SpSync.ChainLog
