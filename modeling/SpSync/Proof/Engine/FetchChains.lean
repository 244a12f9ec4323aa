import Mathlib.Data.List.Basic
import SpSync.Foundation.Ranking
import SpSync.Foundation.Run
import SpSync.Proof.Engine.FetchRequests

namespace SpSync

open Foundation

variable {lib : Securepath}

/-- The last sequence of an answer that leaves records of the requested range out. -/
def RecordResponse.continues (response : RecordResponse lib) : Option SequenceNumber :=
  match response.data with
  | .error _ => none
  | .ok blocks => (blocks.getLast?.map ChainBlock.sequence).filter response.more

/-- The sequences that an answer names. -/
def RecordResponse.named (response : RecordResponse lib) : List SequenceNumber :=
  response.requestedMax :: response.serverMaxSequence :: (response.data.toOption.getD []).map ChainBlock.sequence

/-- The answers to fetches name no sequence above the bound. -/
def EngineEvent.NamesAtMost (largest : SequenceNumber) : EngineEvent lib → Prop
  | .recordResponse _ response => ∀ sequence ∈ response.named, sequence ≤ largest
  | _ => True

namespace Engine

variable {engine : Engine lib} {A : Type} {last : SequenceNumber}

section Events

variable {next : Engine lib} {effect : EngineEffect lib A}

/-- What the step remembers about fetches is old, or about a fetch that it sends. -/
structure Onward (engine next : Engine lib) : Prop where
  later : engine.callId ≤ next.callId
  starts : ∀ entry ∈ next.fetchStarts, entry ∈ engine.fetchStarts ∨ engine.callId < entry.1

theorem Unasked.onward (unasked : engine.Unasked next) : engine.Onward next :=
  ⟨unasked.later, fun _ inside => Or.inl (unasked.starts ▸ inside)⟩

theorem Onward.of_same (requests : next.requests = engine.requests) (starts : next.fetchStarts = engine.fetchStarts)
    (callId : next.callId = engine.callId) : engine.Onward next :=
  (Unasked.of_same requests starts callId).onward

theorem Onward.trans {middle last : Engine lib} (first : engine.Onward middle) (second : middle.Onward last) :
    engine.Onward last where
  later := Nat.le_trans first.later second.later
  starts entry inside := (second.starts entry inside).elim (first.starts entry) fun new =>
    Or.inr (Nat.lt_of_le_of_lt first.later new)

/-- The effect goes on, from whatever engine it starts. -/
abbrev GoesOn (effect : EngineEffect lib A) : Prop :=
  Effect.Always Onward effect

theorem AsksNothing.goesOn (asks : AsksNothing effect) : GoesOn effect :=
  asks.mono fun _ _ => Unasked.onward

theorem GoesOn.final (goes : GoesOn effect) (engine : Engine lib) : engine.Onward (effect.final engine) :=
  (goes engine).keeps engine.Onward (fun _ _ step before => before.trans step) (Unasked.refl engine).onward

/-- The engine with one more fetch. -/
def withFetch (engine : Engine lib) (first last : SequenceNumber) : Engine lib :=
  { engine with
    callId := engine.callId + 1
    requests := engine.requests ++ [(engine.callId + 1, .fetch first last)]
    fetchStarts := engine.fetchStarts ++ [(engine.callId + 1, first)] }

theorem fetches_withFetch (engine : Engine lib) (first last : SequenceNumber) :
    (engine.withFetch first last).fetches = engine.fetches ++ [(engine.callId + 1, first)] :=
  List.filterMap_append

theorem goesOn_fetchFrom (first last : SequenceNumber) : GoesOn (fetchFrom first last : EngineEffect lib Unit) := by
  intro engine
  refine Relation.ReflTransGen.single ⟨Nat.le_succ _, fun entry inside => ?_⟩
  refine (List.mem_append.mp inside).imp_right fun new => ?_
  rw [List.mem_singleton.mp new]
  exact Nat.lt_succ_self _

theorem goesOn_fetchMissing : GoesOn (fetchMissing : EngineEffect lib Bool) :=
  .get_bind fun _ => .ite (.bind (goesOn_fetchFrom _ _) fun _ => .pure _) (.pure _)

/-- The engine without the start of a fetch. -/
def forgetFetch (engine : Engine lib) (handle : Nat) : Engine lib :=
  { engine with fetchStarts := engine.fetchStarts.filter fun entry => entry.1 ≠ handle }

theorem run_fetchProgressed (engine : Engine lib) (handle : Nat) (lastReceived : SequenceNumber) :
    (fetchProgressed handle lastReceived).run engine =
      .ok (decide ((engine.fetchStarts.lookup handle).getD 0 = 0) ||
        decide ((engine.fetchStarts.lookup handle).getD 0 < lastReceived)) (engine.forgetFetch handle) := rfl

theorem onward_forgetFetch (engine : Engine lib) (handle : Nat) : engine.Onward (engine.forgetFetch handle) :=
  ⟨Nat.le_refl _, fun _ inside => Or.inl (List.mem_of_mem_filter inside)⟩

theorem asksNothing_markRejected (tag : RecordTag) (duplicate : Bool) :
    AsksNothing (markRejected tag duplicate : EngineEffect lib Unit) := by
  refine .modify fun engine => ?_
  split
  · exact .refl engine
  · split
    · exact .refl engine
    · exact .of_same rfl rfl rfl

theorem asksNothing_resolveRejectedDuplicates :
    AsksNothing (resolveRejectedDuplicates : EngineEffect lib Unit) := by
  refine .get_bind fun engine => .forM (fun entry => .bind ?_ fun _ => .ite (asksNothing_eraseRejection _) (.pure _)) _
  refine .get_bind fun reached => ?_
  split
  · exact .pure _
  refine .ite (.pure _) (.ite (.pure _) ?_)
  refine .bind (asksNothing_drafting (drafting_deserialiseRecord _)) fun record => .get_bind fun _ => ?_
  split
  · exact .pure _
  · exact .ite (.bind (asksNothing_dropRow _) fun _ => .pure _) (.pure _)

theorem asksNothing_dropPending (tag : RecordTag) : AsksNothing (dropPending tag : EngineEffect lib Unit) := by
  refine .get_bind fun engine => ?_
  split
  · exact .ite (asksNothing_dropRow _) (.pure _)
  · exact .pure _

/-- A rejected commit may start a fetch. -/
theorem goesOn_onCommitRejected (tag : RecordTag) (err : Error) (serverMaxSequence : SequenceNumber) :
    GoesOn (onCommitRejected tag err serverMaxSequence : EngineEffect lib Unit) := by
  have held : AsksNothing (holdRejected tag : EngineEffect lib Unit) :=
    .bind (asksNothing_markRejected tag false) fun _ => asksNothing_tryCommitPending
  refine .bind (asksNothing_updateServerSeq _).goesOn fun _ => .ite ?_ (.ite ?_ (.ite ?_ held.goesOn))
  · exact .bind goesOn_fetchMissing fun _ => .ite held.goesOn (.pure _)
  · refine .bind (asksNothing_markRejected tag true).goesOn fun _ => .bind goesOn_fetchMissing fun _ => .ite ?_ (.pure _)
    exact .bind asksNothing_resolveRejectedDuplicates.goesOn fun _ => asksNothing_tryCommitPending.goesOn
  · exact .bind (asksNothing_dropPending tag).goesOn fun _ => asksNothing_tryCommitPending.goesOn

theorem goesOn_onCommitResponse (handle : Nat) (response : CommitResponse lib) :
    GoesOn (onCommitResponse handle response) := by
  have cleared : AsksNothing (clearPushing handle : EngineEffect lib Unit) := by
    refine .modify fun engine => ?_
    split
    · exact .of_same rfl rfl rfl
    · exact .refl engine
  have taken : AsksNothing (takeInFlight handle : EngineEffect lib RecordTag) :=
    .get_set (fun _ => .of_same rfl rfl rfl) fun _ => .pure _
  refine .bind cleared.goesOn fun _ => .bind taken.goesOn fun tag => ?_
  split
  · exact goesOn_onCommitRejected _ _ _
  refine .ite (.get_bind fun engine => ?_) (.pure _)
  split
  · exact .pure _
  · refine .bind (asksNothing_updateRecordCommitState _ _ _).goesOn fun _ => ?_
    exact .bind (asksNothing_storeAssignment _ _).goesOn fun _ => asksNothing_tryCommitPending.goesOn

theorem asksNothing_checkCursorOwner (serverId : PublicKeyId) :
    AsksNothing (checkCursorOwner serverId : EngineEffect lib Unit) := by
  intro engine
  have resync : AsksNothing (beginReplicaResync serverId : EngineEffect lib Unit) := by
    refine .get_bind fun _ => .bind (.forM (fun _ => asksNothing_writeRecords _) _) fun _ => .get_bind fun _ => ?_
    refine .bind (.forM (fun _ => asksNothing_writeRecords _) _) fun _ => ?_
    exact .modify fun _ => .of_same rfl rfl rfl
  refine Effect.Steps.get_bind ?_
  split
  · exact .pure _
  split
  · exact .set (.of_same rfl rfl rfl)
  · split
    · exact resync engine
    · exact .pure _

theorem goesOn_onSequenceNumberResponse (result : Except Error SequenceInfo) :
    GoesOn (onSequenceNumberResponse result : EngineEffect lib Unit) := by
  have learned (reported : StorageLimits) : AsksNothing (learnLimits reported : EngineEffect lib Unit) := by
    refine .modify fun engine => ?_
    split
    · exact .of_same rfl rfl rfl
    · exact .refl engine
  cases result with
  | error err => exact .pure _
  | ok info =>
    refine .bind (asksNothing_checkCursorOwner _).goesOn fun _ => .bind (asksNothing_updateServerSeq _).goesOn fun _ => ?_
    refine .bind (learned _).goesOn fun _ => .bind goesOn_fetchMissing fun _ => ?_
    exact .ite asksNothing_tryCommitPending.goesOn (.pure _)

theorem goesOn_onRecordResponse (handle : Nat) (response : RecordResponse lib) :
    GoesOn (onRecordResponse handle response) := by
  have progressed (last : SequenceNumber) : GoesOn (fetchProgressed handle last : EngineEffect lib Bool) :=
    .get_set (fun engine => onward_forgetFetch engine handle) fun _ => .pure _
  unfold onRecordResponse
  split
  · exact .pure _
  split
  · exact asksNothing_onFetchComplete.goesOn
  · refine .bind (.forM (fun _ => (asksNothing_handleIncomingRecord _ _).goesOn) _) fun _ => ?_
    refine .ite (.bind (progressed _) fun _ => ?_) asksNothing_onFetchComplete.goesOn
    exact .ite (goesOn_fetchFrom _ _) asksNothing_onFetchComplete.goesOn

/-- Every event remembers the starts of new fetches only. -/
theorem onward_step (engine : Engine lib) (event : EngineEvent lib) : engine.Onward (engine.step event) := by
  suffices goes : GoesOn (handle event) from goes.final engine
  cases event with
  | connected =>
    have asked : AsksNothing (request (.sequenceNumber : Request lib)) := asksNothing_request nofun
    refine .bind (.modify fun _ => .of_same rfl rfl rfl) fun _ => ?_
    refine .bind asksNothing_clearRejections.goesOn fun _ => ?_
    exact .bind asked.goesOn fun _ => .pure _
  | disconnected => exact .modify fun _ => ⟨Nat.le_refl _, fun _ inside => absurd inside List.not_mem_nil⟩
  | sequenceNumberResponse result => exact goesOn_onSequenceNumberResponse result
  | recordResponse handle response => exact goesOn_onRecordResponse handle response
  | commitResponse handle response => exact goesOn_onCommitResponse handle response
  | recordReceived block envelope => exact (asksNothing_handleIncomingRecord block envelope).goesOn
  | equivocation verifies =>
    refine .modify fun engine => ?_
    split
    · exact .of_same rfl rfl rfl
    · exact (Unasked.refl engine).onward
  | syncObjectChange oid header data =>
    exact .get_bind fun _ => .ite (.throw _) (asksNothing_createAndCommit _ _ _).goesOn
  | syncUserChange data header => exact .get_bind fun _ => (asksNothing_createAndCommit _ _ _).goesOn
  | syncSegmentEnd header =>
    refine .get_bind fun _ => .ite (.throw _) (.ite (.throw _) ?_)
    exact .bind (asksNothing_drafting (drafting_ofExcept _)).goesOn fun _ => (asksNothing_createAndCommit _ _ _).goesOn
  | insertKey key => exact .modify fun _ => .of_same rfl rfl rfl
  | called => exact .modify fun _ => ⟨Nat.le_succ _, fun _ => .inl⟩

end Events

/-- The step sends a follow-up from the last sequence of an answer that got past the remembered start, and forgets
the answered fetch. -/
structure FollowsUp (engine : Engine lib) (handle : Nat) (last : SequenceNumber) (next : Engine lib) : Prop where
  progressed : (engine.fetchStarts.lookup handle).getD 0 = 0 ∨ (engine.fetchStarts.lookup handle).getD 0 < last
  later : engine.callId < next.callId
  fetches : next.fetches = engine.fetches ++ [(next.callId, last)]
  starts : next.fetchStarts = (engine.fetchStarts.filter fun entry => entry.1 ≠ handle) ++ [(next.callId, last)]

theorem Unasked.followsUp {reached : Engine lib} {handle : Nat} (unasked : engine.Unasked reached)
    (progressed : (engine.fetchStarts.lookup handle).getD 0 = 0 ∨ (engine.fetchStarts.lookup handle).getD 0 < last)
    (requestedMax : SequenceNumber) :
    engine.FollowsUp handle last ((reached.forgetFetch handle).withFetch last requestedMax) where
  progressed := progressed
  later := Nat.lt_succ_of_le unasked.later
  fetches := by
    rw [fetches_withFetch, ← unasked.fetches]
    rfl
  starts := by
    rw [← unasked.starts]
    rfl

/-- The answer sends a follow-up only when it leaves records out. -/
theorem step_recordResponse (engine : Engine lib) (handle : Nat) (response : RecordResponse lib) :
    (engine.step (.recordResponse handle response)).fetches = engine.fetches ∨
      ∃ last, response.continues = some last ∧
        engine.FollowsUp handle last (engine.step (.recordResponse handle response)) := by
  have asks (blocks : List lib.Block) : AsksNothing (blocks.forM fun block => handleIncomingRecord block none) :=
    .forM (fun _ => asksNothing_handleIncomingRecord _ _) blocks
  show ((onRecordResponse handle response).final engine).fetches = _ ∨
    ∃ last, _ ∧ engine.FollowsUp handle last ((onRecordResponse handle response).final engine)
  unfold onRecordResponse
  cases answer : response.data with
  | error err => exact Or.inl rfl
  | ok blocks =>
    dsimp only
    cases ends : blocks.getLast? with
    | none => exact Or.inl (asksNothing_onFetchComplete.final engine).fetches
    | some last =>
      have unasked := (asks blocks).final engine
      cases loop : (blocks.forM fun block => handleIncomingRecord block none).run engine with
      | error err reached =>
        rw [Effect.final_of_error loop] at unasked
        rw [Effect.final_bind_error loop]
        exact Or.inl unasked.fetches
      | ok value reached =>
        rw [Effect.final_of_ok loop] at unasked
        rw [Effect.final_bind_ok loop]
        by_cases more : response.more last.sequence = true
        · rw [if_pos more, Effect.final_bind_ok (run_fetchProgressed reached handle last.sequence), unasked.starts]
          split
          · rename_i progressed
            simp only [Bool.or_eq_true, decide_eq_true_eq] at progressed
            refine Or.inr ⟨last.sequence, ?_, unasked.followsUp progressed response.requestedMax⟩
            simp [RecordResponse.continues, answer, ends, Option.filter, more]
          · exact Or.inl ((asksNothing_onFetchComplete.final _).fetches.trans unasked.fetches)
        · rw [if_neg more]
          exact Or.inl ((asksNothing_onFetchComplete.final reached).fetches.trans unasked.fetches)

theorem le_of_continues {response : RecordResponse lib} {largest : SequenceNumber}
    (continues : response.continues = some last) (named : ∀ sequence ∈ response.named, sequence ≤ largest) :
    last ≤ largest := by
  unfold RecordResponse.continues at continues
  cases answer : response.data with
  | error err => simp [answer] at continues
  | ok blocks =>
    simp only [answer, Option.filter_eq_some_iff, Option.map_eq_some_iff] at continues
    obtain ⟨⟨block, ends, rfl⟩, -⟩ := continues
    refine named _ (List.mem_cons_of_mem _ (List.mem_cons_of_mem _ (List.mem_map_of_mem ?_)))
    rw [answer]
    exact List.mem_of_getLast? ends

end Engine

/-- An engine with one of its fetches and the follow-ups that it sent in answer to it, in answer to them, and so on;
each with its handle and its start. -/
structure FetchChain (lib : Securepath) where
  engine : Engine lib
  first : Nat × SequenceNumber
  followUps : List (Nat × SequenceNumber) := []

namespace FetchChain

def sent (chain : FetchChain lib) : List (Nat × SequenceNumber) :=
  chain.first :: chain.followUps

/-- What the engine fetches when it handles the answer to a fetch of the chain joins the chain. -/
def step (chain : FetchChain lib) (event : EngineEvent lib) : FetchChain lib :=
  let next := chain.engine.step event
  { chain with
    engine := next
    followUps := match event with
      | .recordResponse handle _ =>
          if handle ∈ chain.sent.map Prod.fst then
            chain.followUps ++ next.fetches.drop chain.engine.fetches.length
          else chain.followUps
      | _ => chain.followUps }

/-- An answer to a fetch of the chain that leaves records out comes while the start of the fetch is remembered, and
has a last sequence other than zero when that start is zero. -/
def Answerable (chain : FetchChain lib) : EngineEvent lib → Prop
  | .recordResponse handle response => ∀ start last, (handle, start) ∈ chain.sent → response.continues = some last →
      chain.engine.fetchStarts.lookup handle = some start ∧ (start = 0 → last ≠ 0)
  | _ => True

/-- The starts climb up to the bound, and only the newest fetch may be remembered. -/
structure Climbs (largest : SequenceNumber) (chain : FetchChain lib) : Prop where
  issued : ∀ fetch ∈ chain.sent, fetch.1 ≤ chain.engine.callId
  climbing : chain.sent.Pairwise fun earlier later => earlier.2 < later.2
  bounded : ∀ fetch ∈ chain.followUps, fetch.2 ≤ largest
  forgotten : ∀ fetch ∈ chain.sent.dropLast, ∀ entry ∈ chain.engine.fetchStarts, entry.1 ≠ fetch.1

variable {chain : FetchChain lib} {largest : SequenceNumber} {handle : Nat}

section

variable (climbs : chain.Climbs largest) {next : Engine lib} {start : SequenceNumber}

include climbs

theorem Climbs.onward (onward : chain.engine.Onward next) : Climbs largest { chain with engine := next } where
  issued fetch inside := Nat.le_trans (climbs.issued fetch inside) onward.later
  climbing := climbs.climbing
  bounded := climbs.bounded
  forgotten fetch inside entry remembered same := by
    obtain old | new := onward.starts entry remembered
    · exact climbs.forgotten fetch inside entry old same
    · exact Nat.not_lt_of_le (climbs.issued fetch (List.dropLast_subset _ inside)) (same ▸ new)

/-- Only the newest fetch of the chain may be remembered, so a remembered fetch is the highest. -/
theorem Climbs.newest (inside : (handle, start) ∈ chain.sent)
    (remembered : chain.engine.fetchStarts.lookup handle = some start) :
    chain.sent = chain.sent.dropLast ++ [(handle, start)] := by
  have parts : chain.sent = chain.sent.dropLast ++ [chain.sent.getLast (List.cons_ne_nil _ _)] :=
    (List.dropLast_append_getLast _).symm
  rw [parts] at inside
  obtain earlier | newest := List.mem_append.mp inside
  · obtain ⟨front, back, same, -⟩ := List.lookup_eq_some_iff.mp remembered
    have stored : (handle, start) ∈ chain.engine.fetchStarts := by
      rw [same]
      exact List.mem_append_right _ List.mem_cons_self
    exact absurd rfl (climbs.forgotten _ earlier _ stored)
  · rw [List.mem_singleton.mp newest]
    exact parts

/-- A follow-up to the remembered fetch joins at the top of the chain. -/
theorem Climbs.followUp {last : SequenceNumber} (inside : (handle, start) ∈ chain.sent)
    (remembered : chain.engine.fetchStarts.lookup handle = some start) (past : start = 0 → last ≠ 0)
    (small : last ≤ largest) (follows : chain.engine.FollowsUp handle last next) :
    Climbs largest { chain with engine := next, followUps := chain.followUps ++ [(next.callId, last)] } := by
  have newest := climbs.newest inside remembered
  have higher : start < last := by
    have progressed := follows.progressed
    rw [remembered, Option.getD_some] at progressed
    exact progressed.elim (fun zero => zero ▸ Nat.pos_of_ne_zero (past zero)) id
  have below : ∀ fetch ∈ chain.sent, fetch.2 < last := by
    intro fetch sent
    have climbing := climbs.climbing
    rw [newest] at sent climbing
    obtain earlier | same := List.mem_append.mp sent
    · exact Nat.lt_trans ((List.pairwise_append.mp climbing).2.2 fetch earlier _ (List.mem_singleton_self _)) higher
    · rw [List.mem_singleton.mp same]
      exact higher
  constructor
  · intro fetch sent
    obtain old | new := List.mem_append.mp (show fetch ∈ chain.sent ++ [(next.callId, last)] from sent)
    · exact Nat.le_trans (climbs.issued fetch old) (Nat.le_of_lt follows.later)
    · rw [List.mem_singleton.mp new]
  · refine List.pairwise_append.mpr ⟨climbs.climbing, List.pairwise_singleton _ _, fun fetch sent new only => ?_⟩
    rw [List.mem_singleton.mp only]
    exact below fetch sent
  · intro fetch joined
    obtain old | new := List.mem_append.mp joined
    · exact climbs.bounded fetch old
    · rw [List.mem_singleton.mp new]
      exact small
  · intro fetch sent entry stored same
    replace sent : fetch ∈ (chain.sent ++ [(next.callId, last)]).dropLast := sent
    rw [List.dropLast_concat] at sent
    rw [follows.starts] at stored
    obtain old | new := List.mem_append.mp stored
    · obtain ⟨stored, other⟩ := List.mem_filter.mp old
      rw [newest] at sent
      obtain earlier | answered := List.mem_append.mp sent
      · exact climbs.forgotten fetch earlier entry stored same
      · rw [List.mem_singleton.mp answered] at same
        exact of_decide_eq_true other same
    · rw [List.mem_singleton.mp new] at same
      exact Nat.ne_of_gt (Nat.lt_of_le_of_lt (climbs.issued fetch sent) follows.later) same

theorem Climbs.step {event : EngineEvent lib} (answerable : chain.Answerable event)
    (names : event.NamesAtMost largest) : (chain.step event).Climbs largest := by
  have onward := chain.engine.onward_step event
  cases event with
  | recordResponse handle response =>
    by_cases member : handle ∈ chain.sent.map Prod.fst
    · obtain ⟨⟨_, start⟩, inside, rfl⟩ := List.mem_map.mp member
      unfold FetchChain.step
      dsimp only
      rw [if_pos member]
      obtain same | ⟨last, continues, follows⟩ := chain.engine.step_recordResponse _ response
      · rw [same, List.drop_length, List.append_nil]
        exact climbs.onward onward
      · rw [follows.fetches, List.drop_left]
        obtain ⟨remembered, past⟩ := answerable start last inside continues
        exact climbs.followUp inside remembered past (Engine.le_of_continues continues names) follows
    · unfold FetchChain.step
      dsimp only
      rw [if_neg member]
      exact climbs.onward onward
  | _ => exact climbs.onward onward

end

theorem climbs_first {engine : Engine lib} (sent : handle ≤ engine.callId) (start : SequenceNumber) :
    Climbs largest (⟨engine, (handle, start), []⟩ : FetchChain lib) where
  issued fetch inside := by
    rw [List.mem_singleton.mp inside]
    exact sent
  climbing := List.pairwise_singleton _ _
  bounded fetch inside := absurd inside List.not_mem_nil
  forgotten fetch inside := absurd inside List.not_mem_nil

/-- As long as the answers come to remembered fetches, each follow-up starts after all fetches of its chain, so there
are no more follow-ups than the largest sequence that the server names. -/
theorem followUps_climb (engine : Engine lib) (handle : Nat) (sent : handle ≤ engine.callId) (start : SequenceNumber)
    (largest : SequenceNumber) (chain : FetchChain lib)
    (run : Runs step (fun chain event => chain.Answerable event ∧ event.NamesAtMost largest)
      ⟨engine, (handle, start), []⟩ chain) :
    (chain.sent.Pairwise fun earlier later => earlier.2 < later.2) ∧ chain.followUps.length ≤ largest := by
  have climbs := run.keeps (climbs_first sent start) fun _ _ climbs meets => climbs.step meets.1 meets.2
  obtain ⟨above, climbing⟩ := List.pairwise_cons.mp climbs.climbing
  exact ⟨climbs.climbing, Nat.le_trans (Ranking.length_le_of_climbing climbing above climbs.bounded) (Nat.sub_le _ _)⟩

/-- A new client that learned of two records on the server and asked for them. -/
def newChain : FetchChain .sample :=
  let client : Engine .sample := { config := {}, random := fun _ => [] }
  ⟨(client.step .connected).step (.sequenceNumberResponse (.ok ⟨2, [], {}⟩)), (2, 0), []⟩

/-- The server answers the fetch with one block at the sequence. -/
def answerAt (handle : Nat) (sequence serverMaxSequence : SequenceNumber) : EngineEvent .sample :=
  .recordResponse handle { data := .ok [⟨(0, ⟨{}, .dataChange [], []⟩), ⟨[], none⟩, sequence, []⟩], serverMaxSequence }

theorem namesAtMost_answerAt {sequence serverMaxSequence : SequenceNumber} (low : sequence ≤ largest)
    (high : serverMaxSequence ≤ largest) : (answerAt handle sequence serverMaxSequence).NamesAtMost largest := by
  intro named inside
  obtain rfl | rest := List.mem_cons.mp inside
  · exact Nat.zero_le _
  obtain rfl | last := List.mem_cons.mp rest
  · exact high
  · rw [List.mem_singleton.mp last]
    exact low

theorem followUps_climb_answered :
    ((newChain.step (answerAt 2 1 2)).sent.Pairwise fun earlier later => earlier.2 < later.2) ∧
      (newChain.step (answerAt 2 1 2)).followUps = [(3, 1)] := by
  refine ⟨(followUps_climb newChain.engine 2 (by decide +kernel) 0 2 _ ?_).1, by decide +kernel⟩
  refine Runs.tail (.refl _) ⟨?_, namesAtMost_answerAt (by decide) (by decide)⟩
  rintro start last inside ⟨⟩
  obtain ⟨-, rfl⟩ := Prod.mk.inj (List.mem_singleton.mp inside)
  exact ⟨by decide +kernel, by decide⟩

/-- The server answers the first fetch and its follow-up with a block that has no sequence. -/
def unnumberedAnswers : List (EngineEvent .sample) :=
  [answerAt 2 0 1, answerAt 3 0 1]

/-- The server answers the second fetch twice. -/
def repeatedAnswers : List (EngineEvent .sample) :=
  [answerAt 2 2 9, answerAt 3 3 9, answerAt 3 1 9]

/-- A block without a sequence in the answer to the first fetch makes the client fetch from the same place again, as
often as the server likes; and the second answer to a fetch sends the client back. -/
theorem not_followUps_climb :
    ((∀ event ∈ unnumberedAnswers, event.NamesAtMost 1) ∧
      (unnumberedAnswers.foldl step newChain).followUps = [(3, 0), (4, 0)] ∧
      ¬ (unnumberedAnswers.foldl step newChain).followUps.length ≤ 1 ∧
      ¬ (unnumberedAnswers.foldl step newChain).sent.Pairwise fun earlier later => earlier.2 < later.2) ∧
    (repeatedAnswers.foldl step newChain).followUps = [(3, 2), (4, 3), (5, 1)] ∧
      ¬ (repeatedAnswers.foldl step newChain).sent.Pairwise fun earlier later => earlier.2 < later.2 := by
  have sent : (unnumberedAnswers.foldl step newChain).sent = [(2, 0), (3, 0), (4, 0)] := by decide +kernel
  have repeated : (repeatedAnswers.foldl step newChain).sent = [(2, 0), (3, 2), (4, 3), (5, 1)] := by decide +kernel
  refine ⟨⟨?_, List.tail_eq_of_cons_eq sent, ?_, ?_⟩, List.tail_eq_of_cons_eq repeated, ?_⟩
  · intro event inside
    obtain rfl | rest := List.mem_cons.mp inside
    · exact namesAtMost_answerAt (by decide) (by decide)
    · rw [List.mem_singleton.mp rest]
      exact namesAtMost_answerAt (by decide) (by decide)
  · rw [List.tail_eq_of_cons_eq sent]
    decide
  · rw [sent]
    decide
  · rw [repeated]
    decide

end FetchChain

end SpSync
