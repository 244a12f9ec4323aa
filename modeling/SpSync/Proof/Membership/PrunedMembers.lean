import SpSync.Construction.Client.Members
import SpSync.Proof.Engine.StrictChain
import SpSync.Proof.Core.ObjectVersions
import SpSync.Proof.Membership.CutMerge
import SpSync.Proof.Server.SignedAssignments

namespace SpSync

open Foundation UserMerge

variable {lib : Securepath}

namespace ChainEntry

/-- The special record that the record saw last. -/
def lastSeenSpecial (entry : ChainEntry lib) : RecordTag :=
  (lib.deserialise entry.record).elim [] fun record => record.base.lastSeenSpecialTag

/-- The access rights that a user change states. -/
def users (entry : ChainEntry lib) : Users :=
  match (lib.deserialise entry.record).map Record.body with
  | some (.userChange data) => data.access
  | _ => {}

def userChange (entry : ChainEntry lib) : UserChangeEntry :=
  ⟨entry.users, entry.tag, entry.lastSeenSpecial⟩

def isSpecial (entry : ChainEntry lib) : Bool :=
  entry.type = .userChange || entry.type = .segment

end ChainEntry

/-- The map after the records are assigned the ones that they saw last. -/
def UserMerge.ParentMap.note (map : ParentMap) (entries : List (ChainEntry lib)) : ParentMap :=
  entries.foldl (fun map entry => map.assign entry.tag entry.lastSeenSpecial) map

namespace RecordStorage

/-- The special records with the ones that they saw last, segments first. -/
def specialParents (records : RecordStorage lib) : ParentMap :=
  (ParentMap.note ⟨[], List.nodup_nil⟩ (records.ordered fun entry => entry.type = .segment)).note
    (records.ordered fun entry => entry.type = .userChange)

/-- The special records from the sequence on with the ones that they saw last, segments first. -/
def specialParentsFrom (records : RecordStorage lib) (anchor : SequenceNumber) : ParentMap :=
  (ParentMap.note ⟨[], List.nodup_nil⟩ (records.ordered fun entry => entry.type = .segment && anchor ≤ entry.sequence)).note
    (records.ordered fun entry => entry.type = .userChange && anchor ≤ entry.sequence)

/-- The user changes below the sequence. -/
def userChangesBelow (records : RecordStorage lib) (anchor : SequenceNumber) : List UserChangeEntry :=
  (records.ordered fun entry => entry.type = .userChange && entry.sequence < anchor).map ChainEntry.userChange

/-- The user changes from the sequence on. -/
def userChangesFrom (records : RecordStorage lib) (anchor : SequenceNumber) : List UserChangeEntry :=
  (records.ordered fun entry => entry.type = .userChange && anchor ≤ entry.sequence).map ChainEntry.userChange

/-- A stored key verifies the user change in the block. -/
def hasUserChangeKey (keys : KeyStorage) (block : lib.Block) : Bool :=
  match deserialiseUserChange lib block with
  | .ok (record, _) => (findRecordKey lib keys record block.auth).isSome
  | .error _ => false

/-- The special records in sync are what their columns say, and a key verifies each user change. -/
structure Verified (records : RecordStorage lib) (keys : KeyStorage) : Prop where
  tagged : ∀ row ∈ records.rows, row.state = .inSync → row.tag = row.block.tag
  segments : ∀ row ∈ records.rows, row.state = .inSync → row.type = .segment →
    (deserialiseSegment lib row.block).isOk = true
  userChanges : ∀ row ∈ records.rows, row.state = .inSync → row.type = .userChange →
    hasUserChangeKey keys row.block = true

/-- The user changes from the sequence on tell about each user what they tell in the whole table. -/
def ComparableFrom (records : RecordStorage lib) (anchor : SequenceNumber) : Prop :=
  ∀ kid, Comparable records.specialParents (records.specialParentsFrom anchor) (records.userChangesBelow anchor)
    (records.userChangesFrom anchor) kid

/-- The table holds the special records of the whole one from the sequence on. -/
def HoldsSpecialsFrom (records whole : RecordStorage lib) (anchor : SequenceNumber) : Prop :=
  ∀ entry : ChainEntry lib, entry.isSpecial = true →
    (entry ∈ records.chain ↔ entry ∈ whole.chain ∧ anchor ≤ entry.sequence)

variable {records whole : RecordStorage lib} {keys : KeyStorage} {anchor : SequenceNumber} {block : lib.Block}

theorem findAllOfType_eq (records : RecordStorage lib) (type : RecordType) : records.findAllOfType type =
    Ranking.inOrder Row.sequence (records.inSyncRows fun entry => entry.type = type) := rfl

theorem mem_findAllOfType {type : RecordType} {row : Row lib} :
    row ∈ records.findAllOfType type ↔ row ∈ records.rows ∧ row.state = .inSync ∧ row.type = type := by
  rw [findAllOfType_eq, Ranking.mem_inOrder, mem_inSyncRows, decide_eq_true_eq]
  rfl

theorem parses_of_isOk (parsed : (deserialiseSegment lib block).isOk = true) :
    ∃ base data headers, lib.deserialise block.record = some ⟨base, .segment data, headers⟩ := by
  unfold deserialiseSegment at parsed
  split at parsed
  · rename_i base data headers parses
    exact ⟨base, data, headers, parses⟩
  · cases parsed

theorem parses_of_key (verified : hasUserChangeKey keys block = true) :
    ∃ base data headers, lib.deserialise block.record = some ⟨base, .userChange data, headers⟩ ∧
      (findRecordKey lib keys ⟨base, .userChange data, headers⟩ block.auth).isSome = true := by
  unfold hasUserChangeKey deserialiseUserChange at verified
  split at verified
  · rename_i record data change
    split at change
    · rename_i base data headers parses
      cases change
      exact ⟨base, data, headers, parses, verified⟩
    · cases change
  · cases verified

end RecordStorage

namespace UserHistory

variable {row : Row lib}

/-- A segment that parses is noted with its parent. -/
theorem noteSegment_eq (history : UserHistory) (tagged : row.tag = row.block.tag)
    (parsed : (deserialiseSegment lib row.block).isOk = true) : history.noteSegment row =
      .ok ⟨history.entries ++ [], history.parentSpecial.assign row.entry.tag row.entry.lastSeenSpecial⟩ := by
  obtain ⟨base, data, headers, parses⟩ := RecordStorage.parses_of_isOk parsed
  have segment : deserialiseSegment lib row.block = .ok (base, data) := by
    simp [deserialiseSegment, parses]
  have special : row.entry.lastSeenSpecial = base.lastSeenSpecialTag := by
    simp [ChainEntry.lastSeenSpecial, Row.entry, parses]
  unfold noteSegment
  rw [segment, special, List.append_nil, Row.entry, tagged]
  rfl

/-- A verified user change is noted with its access rights. -/
theorem noteUserChange_eq {keys : KeyStorage} (history : UserHistory) (tagged : row.tag = row.block.tag)
    (keyed : RecordStorage.hasUserChangeKey keys row.block = true) : history.noteUserChange keys row =
      .ok ⟨history.entries ++ [row.entry.userChange],
        history.parentSpecial.assign row.entry.tag row.entry.lastSeenSpecial⟩ := by
  obtain ⟨base, data, headers, parses, verified⟩ := RecordStorage.parses_of_key keyed
  have change : deserialiseUserChange lib row.block = .ok (⟨base, .userChange data, headers⟩, data) := by
    simp [deserialiseUserChange, parses]
  have special : row.entry.lastSeenSpecial = base.lastSeenSpecialTag := by
    simp [ChainEntry.lastSeenSpecial, Row.entry, parses]
  have users : row.entry.users = data.access := by
    simp [ChainEntry.users, Row.entry, parses]
  have tag : row.entry.tag = row.block.tag := tagged
  unfold noteUserChange
  rw [change, ChainEntry.userChange, special, users, tag]
  exact if_pos verified

/-- Rows that are noted one by one are noted in turn. -/
theorem foldlM_note {note : UserHistory → Row lib → Except Error UserHistory}
    (entriesOf : ChainEntry lib → List UserChangeEntry) (rows : List (Row lib))
    (noted : ∀ row ∈ rows, ∀ history, note history row = .ok ⟨history.entries ++ entriesOf row.entry,
      history.parentSpecial.assign row.entry.tag row.entry.lastSeenSpecial⟩) (history : UserHistory) :
    rows.foldlM note history = .ok ⟨history.entries ++ (rows.map Row.entry).flatMap entriesOf,
      history.parentSpecial.note (rows.map Row.entry)⟩ := by
  induction rows generalizing history with
  | nil =>
    rw [List.map_nil, List.flatMap_nil, List.append_nil]
    rfl
  | cons row rest ih =>
    have later := ih (fun other inside => noted other (List.mem_cons_of_mem _ inside))
      ⟨history.entries ++ entriesOf row.entry, history.parentSpecial.assign row.entry.tag row.entry.lastSeenSpecial⟩
    rw [List.append_assoc] at later
    rw [List.foldlM_cons, noted row List.mem_cons_self]
    exact later

end UserHistory

namespace RecordStorage

variable {records whole : RecordStorage lib} {keys : KeyStorage} {anchor : SequenceNumber}

/-- What a verified table says about its users. -/
theorem Verified.userHistory_eq (verified : records.Verified keys) : userHistory keys records = .ok
    ⟨(records.ordered fun entry => entry.type = .userChange).map ChainEntry.userChange, records.specialParents⟩ := by
  have segments := UserHistory.foldlM_note (fun _ => []) (records.findAllOfType .segment) (fun row inside history => by
    obtain ⟨rowIn, inSync, type⟩ := mem_findAllOfType.mp inside
    exact history.noteSegment_eq (verified.tagged row rowIn inSync) (verified.segments row rowIn inSync type)) {}
  have changes := UserHistory.foldlM_note (fun entry => [entry.userChange]) (records.findAllOfType .userChange)
    fun row inside history => by
      obtain ⟨rowIn, inSync, type⟩ := mem_findAllOfType.mp inside
      exact history.noteUserChange_eq (verified.tagged row rowIn inSync) (verified.userChanges row rowIn inSync type)
  rw [List.flatMap_eq_nil_iff.mpr fun _ _ => rfl] at segments
  unfold userHistory
  rw [segments]
  refine (changes _).trans ?_
  rw [← List.map_eq_flatMap]
  rfl

theorem Verified.derivedMembers_eq (verified : records.Verified keys) : derivedMembers keys records = .ok
    ((mergeUserChanges ((records.ordered fun entry => entry.type = .userChange).map ChainEntry.userChange)
      records.specialParents).map UserAccess.user) := by
  unfold derivedMembers
  rw [verified.userHistory_eq]
  rfl

/-- The user changes in order are those below the sequence and then the others. -/
theorem userChanges_eq (records : RecordStorage lib) (anchor : SequenceNumber) :
    (records.ordered fun entry => entry.type = .userChange).map ChainEntry.userChange =
      records.userChangesBelow anchor ++ records.userChangesFrom anchor := by
  unfold userChangesBelow userChangesFrom
  rw [← List.map_append]
  congr 1
  refine Ranking.eq_of_strict (records.ordered_strict _) (List.pairwise_append.mpr
    ⟨records.ordered_strict _, records.ordered_strict _, ?_⟩) fun entry => ?_
  · intro low lowIn high highIn
    have below := (mem_ordered.mp lowIn).2
    have above := (mem_ordered.mp highIn).2
    simp only [Bool.and_eq_true, decide_eq_true_eq] at below above
    exact Nat.lt_of_lt_of_le below.2 above.2
  · simp only [List.mem_append, mem_ordered, Bool.and_eq_true, decide_eq_true_eq]
    constructor
    · intro inside
      obtain low | high := Nat.lt_or_ge entry.sequence anchor
      · exact Or.inl ⟨inside.1, inside.2, low⟩
      · exact Or.inr ⟨inside.1, inside.2, high⟩
    · intro inside
      obtain ⟨chained, type, _⟩ | ⟨chained, type, _⟩ := inside
      · exact ⟨chained, type⟩
      · exact ⟨chained, type⟩

section Cut

variable (holds : records.HoldsSpecialsFrom whole anchor)
include holds

theorem HoldsSpecialsFrom.ordered_eq {type : RecordType} (special : type = .userChange ∨ type = .segment) :
    (records.ordered fun entry => entry.type = type) =
      whole.ordered fun entry => entry.type = type && anchor ≤ entry.sequence := by
  refine Ranking.eq_of_strict (records.ordered_strict _) (whole.ordered_strict _) fun entry => ?_
  simp only [mem_ordered, Bool.and_eq_true, decide_eq_true_eq]
  constructor
  · intro inside
    obtain ⟨chained, high⟩ := (holds entry (by simpa [ChainEntry.isSpecial, inside.2] using special)).mp inside.1
    exact ⟨chained, inside.2, high⟩
  · intro inside
    exact ⟨(holds entry (by simpa [ChainEntry.isSpecial, inside.2.1] using special)).mpr ⟨inside.1, inside.2.2⟩,
      inside.2.1⟩

theorem HoldsSpecialsFrom.specialParents_eq : records.specialParents = whole.specialParentsFrom anchor := by
  rw [specialParents, holds.ordered_eq (Or.inr rfl), holds.ordered_eq (Or.inl rfl), specialParentsFrom]

/-- The rest derives the users that the whole table derives exactly when its user changes keep the members. -/
theorem HoldsSpecialsFrom.derivedMembers_iff {wholeKeys : KeyStorage} (wholeVerified : whole.Verified wholeKeys)
    (verified : records.Verified keys) (comparable : whole.ComparableFrom anchor) :
    derivedMembers keys records = derivedMembers wholeKeys whole ↔
      KeepsMembers whole.specialParents (whole.userChangesBelow anchor) (whole.userChangesFrom anchor) := by
  rw [wholeVerified.derivedMembers_eq, verified.derivedMembers_eq, holds.ordered_eq (Or.inl rfl),
    holds.specialParents_eq, whole.userChanges_eq anchor, Except.ok.injEq]
  exact users_eq_iff comparable

end Cut

/-- A retained tag is the one of a record that changes an object. -/
theorem mem_objectChainTagsBelow {below : SequenceNumber} {tag : RecordTag}
    (inside : tag ∈ records.objectChainTagsBelow below) :
    ∃ row ∈ records.rows, row.tag = tag ∧ row.objects ≠ [] := by
  obtain ⟨oid, row, versionIn, _, same⟩ := mem_objectChainTagsBelow_iff.mp inside
  have version := isVersion_of_mem versionIn
  refine ⟨row, version.mem, same, fun empty => ?_⟩
  have changes := version.changes
  simp [Row.changesObject, empty] at changes

/-- The special records in sync are tagged as their blocks and change no object. -/
structure Plain (records : RecordStorage lib) : Prop where
  tagged : ∀ row ∈ records.rows, row.state = .inSync → row.tag = row.block.tag
  objects : ∀ row ∈ records.rows, row.state = .inSync → row.isSpecial = true → row.objects = []

theorem Verified.plain (verified : records.Verified keys) : records.Plain := by
  refine ⟨verified.tagged, fun row inside inSync special => ?_⟩
  simp only [Row.isSpecial, Bool.or_eq_true, decide_eq_true_eq] at special
  obtain change | segment := special
  · obtain ⟨base, data, headers, parses, _⟩ := parses_of_key (verified.userChanges row inside inSync change)
    simp [Row.objects, parses]
  · obtain ⟨base, data, headers, parses⟩ := parses_of_isOk (verified.segments row inside inSync segment)
    simp [Row.objects, parses]

/-- A special record in sync goes with a cut exactly when it stands before the anchor. -/
theorem Plain.isCut_iff (plain : records.Plain) {row : Row lib} (inside : row ∈ records.rows)
    (inSync : row.state = .inSync) (special : row.isSpecial = true) :
    isCut anchor (records.objectChainTagsBelow anchor) row = true ↔ row.sequence < anchor := by
  have dropped : row.block.tag ∉ records.objectChainTagsBelow anchor := by
    intro retained
    obtain ⟨other, otherIn, same, changes⟩ := mem_objectChainTagsBelow retained
    rw [← plain.tagged row inside inSync] at same
    rw [row_eq_of_tag otherIn inside same] at changes
    exact changes (plain.objects row inside inSync special)
  simp [isCut, isReceived, inSync, dropped]

/-- A cut leaves the special records from the anchor on. -/
theorem Plain.holdsSpecialsFrom (plain : whole.Plain) (rows : records.rows = whole.rows.filter fun row =>
    !isCut anchor (whole.objectChainTagsBelow anchor) row) : records.HoldsSpecialsFrom whole anchor := by
  intro entry special
  rw [mem_chain, mem_chain, rows]
  constructor
  · intro found
    obtain ⟨row, inside, inSync, rfl⟩ := found
    obtain ⟨rowIn, kept⟩ := List.mem_filter.mp inside
    refine ⟨⟨row, rowIn, inSync, rfl⟩, Nat.not_lt.mp fun low => ?_⟩
    simp [(plain.isCut_iff rowIn inSync special).mpr low] at kept
  · intro found
    obtain ⟨⟨row, rowIn, inSync, rfl⟩, high⟩ := found
    refine ⟨row, List.mem_filter.mpr ⟨rowIn, ?_⟩, inSync, rfl⟩
    have kept : ¬ isCut anchor (whole.objectChainTagsBelow anchor) row = true :=
      (plain.isCut_iff rowIn inSync special).not.mpr (Nat.not_lt.mpr high)
    simpa using kept

theorem Verified.of_subset (verified : whole.Verified keys) (part : records.rows ⊆ whole.rows) :
    records.Verified keys :=
  ⟨fun row inside => verified.tagged row (part inside), fun row inside => verified.segments row (part inside),
    fun row inside => verified.userChanges row (part inside)⟩

/-- A table that mirrors a verified one is plain where it is tagged as its blocks. -/
theorem Verified.plain_of_mirrors (verified : whole.Verified keys) (mirrors : whole.Mirrors records)
    (tagged : ∀ row ∈ records.rows, row.state = .inSync → row.tag = row.block.tag) : records.Plain := by
  refine ⟨tagged, fun row inside inSync special => ?_⟩
  obtain ⟨other, otherIn, otherInSync, same⟩ := mem_chain.mp ((mirrors _).mpr (mem_chain.mpr ⟨row, inside, inSync, rfl⟩))
  have objects : row.objects = other.objects := by
    have record : other.block.record = row.block.record := congrArg ChainEntry.record same
    simp only [Row.objects, record]
  have type : other.type = row.type := congrArg ChainEntry.type same
  rw [objects]
  exact verified.plain.objects other otherIn otherInSync (by rwa [Row.isSpecial, type])

end RecordStorage

/-- A prune removes received rows before the segment. -/
theorem Engine.pruneHistory_ok {engine pruned : Engine lib} {segmentTag : RecordTag} {anchor : ChainBlockId}
    (done : (pruneHistory segmentTag).run engine = .ok anchor pruned) :
    pruned.config.trustedAnchor = anchor ∧ pruned.keys = engine.keys ∧
      pruned.records.rows = engine.records.rows.filter fun row =>
        !RecordStorage.isCut anchor.sequence (engine.records.objectChainTagsBelow anchor.sequence) row := by
  obtain ⟨_, _, got, done⟩ := Effect.run_bind_ok done
  cases got
  generalize (if segmentTag = [] then engine.records.findLastOfType .segment
    else engine.records.findTag segmentTag) = found at done
  cases found with
  | none => cases done
  | some segment =>
    dsimp only at done
    split at done
    · obtain ⟨_, _, written, done⟩ := Effect.run_bind_ok done
      obtain ⟨records, cut, rfl⟩ := writeRecords_ok written
      cases done
      unfold RecordStorage.truncatePrefix at cut
      split at cut
      · cases cut
      · cases cut
        exact ⟨rfl, rfl, rfl⟩
    · cases done

/-- The local changes stay, so the members are rebuilt the same when the same users are derived. -/
theorem recomputeMembers_of_cut {records whole : RecordStorage lib} {keys : KeyStorage} {anchor : SequenceNumber}
    {retained : List RecordTag}
    (rows : records.rows = whole.rows.filter fun row => !RecordStorage.isCut anchor retained row)
    (same : derivedMembers keys records = derivedMembers keys whole) :
    recomputeMembers keys records = recomputeMembers keys whole := by
  have pending : (records.rows.filter fun row => row.state = .pendingCommit) =
      whole.rows.filter fun row => row.state = .pendingCommit := by
    rw [rows, List.filter_filter]
    refine List.filter_congr fun row _ => ?_
    by_cases waits : row.state = .pendingCommit
    · simp [waits, RecordStorage.isCut, RecordStorage.isReceived]
    · simp [waits]
  unfold recomputeMembers
  rw [same, pending]

/-- A local prune keeps the derived users exactly when the user changes from its anchor on keep the members,
and then the members table is rebuilt as before; likewise a client that fetched a storage cut before a segment
derives the users that a client of the whole storage derives exactly then. -/
theorem derivedMembers_cut_iff :
    (∀ (engine pruned : Engine lib) (segmentTag : RecordTag) (anchor : ChainBlockId),
      engine.records.Verified engine.keys → engine.records.ComparableFrom anchor.sequence →
      (Engine.pruneHistory segmentTag).run engine = .ok anchor pruned →
      (derivedMembers pruned.keys pruned.records = derivedMembers engine.keys engine.records ↔
        KeepsMembers engine.records.specialParents (engine.records.userChangesBelow anchor.sequence)
          (engine.records.userChangesFrom anchor.sequence)) ∧
      (derivedMembers pruned.keys pruned.records = derivedMembers engine.keys engine.records →
        recomputeMembers pruned.keys pruned.records = recomputeMembers engine.keys engine.records)) ∧
    ∀ (log cut : ChainLog lib) (segmentTag : RecordTag) (segment : Row lib) (removed : List lib.Block)
      (whole joined : RecordStorage lib) (wholeKeys joinedKeys : KeyStorage),
      (∀ row ∈ log.records.rows, row.state = .inSync → row.tag = row.block.tag) →
      log.records.findTag segmentTag = some segment → log.cutBefore segmentTag = .ok (cut, removed) →
      whole.Mirrors log.records → joined.Mirrors cut.records → whole.Verified wholeKeys → joined.Verified joinedKeys →
      whole.ComparableFrom segment.sequence →
      (derivedMembers joinedKeys joined = derivedMembers wholeKeys whole ↔
        KeepsMembers whole.specialParents (whole.userChangesBelow segment.sequence)
          (whole.userChangesFrom segment.sequence)) := by
  refine ⟨?_, ?_⟩
  · intro engine pruned segmentTag anchor verified comparable done
    obtain ⟨_, keys, rows⟩ := Engine.pruneHistory_ok done
    have left : pruned.records.Verified pruned.keys := by
      rw [keys]
      exact verified.of_subset (by rw [rows]; exact List.filter_sublist.subset)
    refine ⟨(verified.plain.holdsSpecialsFrom rows).derivedMembers_iff verified left comparable, ?_⟩
    rw [keys]
    exact recomputeMembers_of_cut rows
  · intro log cut segmentTag segment removed whole joined wholeKeys joinedKeys tagged found done mirrors joins verified
      joinedVerified comparable
    obtain ⟨anchor, anchorFound, _, _, rows, _⟩ := ChainLog.cutBefore_ok done
    obtain rfl : anchor = segment := Option.some.inj (anchorFound.symm.trans found)
    have rest := (verified.plain_of_mirrors mirrors tagged).holdsSpecialsFrom rows
    have holds : joined.HoldsSpecialsFrom whole anchor.sequence := by
      intro entry special
      rw [joins entry, mirrors entry]
      exact rest entry special
    exact holds.derivedMembers_iff verified joinedVerified comparable

namespace Engine

/-- The server commits the last request at the next position. -/
def confirmed (engine : Engine .sample) : Engine .sample :=
  match engine.requests.getLast? with
  | some (handle, .commit block) => engine.step (.commitResponse handle { data := .ok (block.setSequenceAndParentHash
      (engine.records.lastBlock.sequence + 1) engine.records.lastBlock.hash) })
  | _ => engine

/-- The server commits a change of one user. -/
def changed (engine : Engine .sample) (user : UserId) (access : AccessType) : Engine .sample :=
  (engine.step (.syncUserChange ⟨⟨.delta, [⟨user, access⟩]⟩, []⟩ [])).confirmed

/-- The users 1 and 2 are given access, and the segment that closes this is committed. -/
def segmentedClient : Engine .sample :=
  (((newClient.changed [1] AccessType.allAccess).changed [2] AccessType.allAccess).step (.syncSegmentEnd [])).confirmed

/-- Behind the segment the user 1 is given access again and the user 2 is removed. -/
def restatedClient : Engine .sample :=
  (segmentedClient.changed [1] AccessType.allAccess).changed [2] AccessType.noAccess

def segmentTag : RecordTag :=
  (restatedClient.records.findLastOfType .segment).elim [] Row.tag

theorem comparableFrom_restated : restatedClient.records.ComparableFrom 3 := by
  refine comparable_of_inOrder ?_ ?_ ?_
  · decide +kernel
  · decide +kernel
  · decide +kernel

/-- The changes behind the segment tell about both users, so a prune keeps the members, and so does a cut of the
server before the segment for the clients that fetch the rest. -/
theorem derivedMembers_cut_iff_restated :
    (∃ anchor pruned, (pruneHistory []).run restatedClient = .ok anchor pruned ∧
      KeepsMembers restatedClient.records.specialParents (restatedClient.records.userChangesBelow anchor.sequence)
        (restatedClient.records.userChangesFrom anchor.sequence)) ∧
    ∃ cut removed, (ChainLog.load restatedClient.records).cutBefore segmentTag = .ok (cut, removed) ∧
      derivedMembers restatedClient.keys cut.records = derivedMembers restatedClient.keys restatedClient.records := by
  have verified : restatedClient.records.Verified restatedClient.keys :=
    ⟨by decide +kernel, by decide +kernel, by decide +kernel⟩
  have success : (pruneHistory []).succeeds restatedClient = true := by decide +kernel
  obtain ⟨anchor, done⟩ := Effect.exists_run_of_succeeds success
  have third : anchor.sequence = 3 := by
    rw [← (pruneHistory_ok done).1]
    decide +kernel
  have comparable : restatedClient.records.ComparableFrom anchor.sequence := by
    rw [third]
    exact comparableFrom_restated
  have keeps := (derivedMembers_cut_iff.1 _ _ _ anchor verified comparable done).1.mp (by decide +kernel)
  refine ⟨⟨anchor, _, done, keeps⟩, ?_⟩
  have loaded (table : RecordStorage .sample) : (ChainLog.load table).records = table := rfl
  cases result : (ChainLog.load restatedClient.records).cutBefore segmentTag with
  | error err =>
    have success : ((ChainLog.load restatedClient.records).cutBefore segmentTag).isOk = true := by decide +kernel
    rw [result] at success
    cases success
  | ok changed =>
    obtain ⟨cut, removed⟩ := changed
    obtain ⟨segment, found, _, _, rows, _⟩ := ChainLog.cutBefore_ok result
    have place : ((ChainLog.load restatedClient.records).records.findTag segmentTag).map Row.sequence = some 3 := by
      decide +kernel
    have same : segment.sequence = anchor.sequence := by
      rw [found] at place
      exact (Option.some.inj place).trans third.symm
    have joined : cut.records.Verified restatedClient.keys :=
      verified.of_subset (by rw [rows, loaded]; exact List.filter_sublist.subset)
    have half := derivedMembers_cut_iff.2 (ChainLog.load restatedClient.records) cut segmentTag segment removed
      restatedClient.records cut.records restatedClient.keys restatedClient.keys
      (by rw [loaded]; exact verified.tagged) found result (fun _ => by rw [loaded]) (fun _ => Iff.rfl) verified joined
    rw [same] at half
    exact ⟨cut, removed, rfl, (half comparable).mpr keeps⟩

/-- A prune at the segment leaves no members to derive, although there were two before. -/
theorem derivedMembers_pruned_empty :
    segmentedClient.records.Verified segmentedClient.keys ∧
      derivedMembers segmentedClient.keys segmentedClient.records = .ok [[1], [2]] ∧
      ∃ anchor pruned, (pruneHistory []).run segmentedClient = .ok anchor pruned ∧
        derivedMembers pruned.keys pruned.records = .ok [] := by
  have success : (pruneHistory []).succeeds segmentedClient = true := by decide +kernel
  obtain ⟨anchor, done⟩ := Effect.exists_run_of_succeeds success
  exact ⟨⟨by decide +kernel, by decide +kernel, by decide +kernel⟩, by decide +kernel, anchor, _, done, by decide +kernel⟩

end Engine

end SpSync
