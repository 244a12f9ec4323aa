import SpSync.Construction.Engine.DataSync
import SpSync.Foundation.Run
import SpSync.Proof.Core.DataTable

namespace SpSync.DataSync

open Foundation

variable {lib : Securepath} {sync : DataSync lib} {direction : Direction} {id : Octets}
  {running longer : List (Octets × Nat)} {waiting : List (Nat × Octets)} {events extended : List CommEvent}
  {callId later call limit : Nat} {event : DataStep lib}

/-- A handle belongs to one data, a data runs once, and an answer has the handle of a wait only when it answers it.
Every transfer that is waited for is running, or an event that ends the wait is on its way to the engine. -/
structure Tracks (direction : Direction) (running : List (Octets × Nat)) (waiting : List (Nat × Octets))
    (events : List CommEvent) : Prop where
  owned : ∃ owner : UInt32 → Octets, (∀ entry ∈ running, owner (handleOf entry.2) = entry.1) ∧
    ∀ entry ∈ waiting, owner (handleOf entry.1) = entry.2
  distinct : running.Pairwise fun left right => left.1 ≠ right.1
  matched : ∀ call error, .transferred direction call error ∈ events → ∀ entry ∈ waiting,
    handleOf entry.1 = handleOf call → entry.1 = call
  answered : ∀ entry ∈ waiting, (entry.2, entry.1) ∈ running ∨
    (∃ error, .transferred direction entry.1 error ∈ events) ∨ .disconnected ∈ events

def Tracked (sync : DataSync lib) : Prop :=
  ∀ direction, Tracks direction (sync.running direction) (sync.onTheirWay direction) sync.events

/-- The request is made, and fewer than 2 ^ 32 requests up to the limit follow it. -/
def Near (callId limit call : Nat) : Prop :=
  call ≤ callId ∧ limit < call + 2 ^ 32

/-- The transfers are tracked, and their requests are among the last that have different handles. -/
structure Numbers (direction : Direction) (running : List (Octets × Nat)) (waiting : List (Nat × Octets))
    (events : List CommEvent) (callId limit : Nat) : Prop extends Tracks direction running waiting events where
  span : limit ≤ callId + 2 ^ 32
  runs : ∀ entry ∈ running, Near callId limit entry.2
  waits : ∀ entry ∈ waiting, Near callId limit entry.1
  told : ∀ call error, .transferred direction call error ∈ events → Near callId limit call

/-- Two near requests have one handle only when they are one. -/
theorem Near.eq_of_handleOf {other : Nat} (few : callId ≤ limit) (left : Near callId limit other)
    (right : Near callId limit call) (same : handleOf other = handleOf call) : other = call := by
  have rest := congrArg UInt32.toNat same
  simp only [handleOf, UInt32.toNat_ofNat'] at rest
  unfold Near at left right
  omega

section Numbers

variable (numbers : Numbers direction running waiting events callId limit)
include numbers

/-- The connection runs a transfer of the data, and the engine waits for it; nothing that it waits for is overwritten. -/
theorem Numbers.ask (started : startTransfer running callId id = (longer, later, call)) (few : later ≤ limit) :
    Numbers direction longer ((call, id) :: eraseHandle waiting (handleOf call)) events later limit ∧
      waiting ⊆ (call, id) :: eraseHandle waiting (handleOf call) := by
  obtain ⟨⟨⟨owner, owns, owned⟩, distinct, matched, answered⟩, span, runs, waits, told⟩ := numbers
  unfold startTransfer at started
  split at started
  · rename_i found
    cases started
    have inside := Dictionary.mem_of_find found
    have alike : ∀ other, Near callId limit other → handleOf other = handleOf call → other = call :=
      fun _ near => near.eq_of_handleOf few (runs _ inside)
    have kept : waiting ⊆ (call, id) :: eraseHandle waiting (handleOf call) := fun entry among => by grind [eraseHandle]
    exact ⟨⟨⟨⟨owner, owns, by grind [eraseHandle]⟩, distinct, by grind [eraseHandle], by grind [eraseHandle]⟩, span, runs,
      by grind [eraseHandle], told⟩, kept⟩
  · rename_i new
    cases started
    have absent := Dictionary.find_eq_none_iff.mp new
    have grown : ∀ other, Near callId limit other → Near (callId + 1) limit other :=
      fun _ near => ⟨Nat.le_succ_of_le near.1, near.2⟩
    have last : Near (callId + 1) limit (callId + 1) := ⟨Nat.le_refl _, by omega⟩
    have fresh : ∀ other, Near callId limit other → handleOf other ≠ handleOf (callId + 1) := fun other near same => by
      exact absurd near.1 (by rw [(grown other near).eq_of_handleOf few last same]; omega)
    refine ⟨⟨⟨⟨Function.update owner (handleOf (callId + 1)) id, ?_, ?_⟩, ?_, ?_, ?_⟩, by omega, ?_, ?_, ?_⟩, ?_⟩
    · grind [Function.update_apply]
    · grind [Function.update_apply, eraseHandle]
    · grind
    · grind [eraseHandle]
    · grind [eraseHandle]
    · grind
    · grind [eraseHandle]
    · grind
    · intro entry among
      grind [eraseHandle]

/-- A transfer ends, and its answer is sent. -/
theorem Numbers.done (error : Option TransferError) (few : callId ≤ limit)
    (found : Dictionary.find running id = some call) :
    Numbers direction (Dictionary.erase running id) waiting (events ++ [.transferred direction call error]) callId limit := by
  obtain ⟨⟨⟨owner, owns, owned⟩, distinct, matched, answered⟩, span, runs, waits, told⟩ := numbers
  have inside := Dictionary.mem_of_find found
  have alike : ∀ other, Near callId limit other → handleOf other = handleOf call → other = call :=
    fun _ near => near.eq_of_handleOf few (runs _ inside)
  refine ⟨⟨⟨owner, ?_, owned⟩, distinct.sublist List.filter_sublist, by grind, fun entry among => ?_⟩, span, ?_, waits, ?_⟩
  · grind [Dictionary.erase]
  · have same : (entry.2, entry.1) ∈ running → entry.2 = id → (entry.2, entry.1) = (id, call) :=
      fun runs same => Table.eq_of_column distinct runs inside same
    grind [Dictionary.erase]
  · grind [Dictionary.erase]
  · grind

/-- More requests are made, and other events are sent. -/
theorem Numbers.more (kept : events ⊆ extended) (before : callId ≤ later)
    (others : ∀ call error, .transferred direction call error ∈ extended → .transferred direction call error ∈ events) :
    Numbers direction running waiting extended later limit := by
  obtain ⟨⟨owned, distinct, matched, answered⟩, span, runs, waits, told⟩ := numbers
  have grown : ∀ call, Near callId limit call → Near later limit call :=
    fun _ near => ⟨near.1.trans before, near.2⟩
  exact ⟨⟨owned, distinct, by grind, by grind⟩, by omega, by grind, by grind, by grind⟩

/-- The engine handles an event that ends none of the waits that are left. -/
theorem Numbers.handled {event : CommEvent} {place : Nat} {kept : List (Nat × Octets)} (fewer : kept ⊆ waiting)
    (here : events[place]? = some event)
    (ended : ∀ entry ∈ kept, event ≠ .disconnected ∧ ∀ error, event ≠ .transferred direction entry.1 error) :
    Numbers direction running kept (events.eraseIdx place) callId limit := by
  obtain ⟨⟨⟨owner, owns, owned⟩, distinct, matched, answered⟩, span, runs, waits, told⟩ := numbers
  have left : events.eraseIdx place ⊆ events := List.eraseIdx_subset
  refine ⟨⟨⟨owner, owns, by grind⟩, distinct, by grind, fun entry inside => ?_⟩, span, runs, by grind, by grind⟩
  have others : ∀ other ∈ events, other = event ∨ other ∈ events.eraseIdx place := fun other among => by
    obtain ⟨index, found⟩ := List.mem_iff_getElem?.mp among
    by_cases same : index = place
    · grind
    · exact Or.inr (List.mem_eraseIdx_iff_getElem?.mpr ⟨index, same, found⟩)
  grind [answered entry (fewer inside), ended entry inside]

end Numbers

def Numbered (sync : DataSync lib) (limit : Nat) : Prop :=
  ∀ direction, Numbers direction (sync.running direction) (sync.onTheirWay direction) sync.events sync.callId limit

theorem numbered_endTransfer (numbered : sync.Numbered limit) (id : Octets) (direction : Direction)
    (error : Option TransferError) : (sync.endTransfer id direction error).Numbered limit := by
  unfold endTransfer onDataPruned
  split <;> first | exact numbered | split <;> exact numbered

/-- Marking data for a download touches neither the transfers nor their requests. -/
theorem markAutoFetch_form (sync : DataSync lib) : ∃ store notices, sync.markAutoFetch = { sync with store, notices } := by
  unfold markAutoFetch
  split
  · exact ⟨_, _, rfl⟩
  · refine List.foldlRecOn (motive := fun marked : DataSync lib => ∃ store notices, marked = { sync with store, notices })
      _ _ ⟨sync.store, sync.notices, rfl⟩ fun marked form id _ => ?_
    obtain ⟨store, notices, rfl⟩ := form
    split
    · exact ⟨_, _, rfl⟩
    · exact ⟨_, _, rfl⟩

theorem numbered_markAutoFetch (numbered : sync.Numbered limit) : sync.markAutoFetch.Numbered limit := by
  obtain ⟨store, notices, same⟩ := sync.markAutoFetch_form
  rw [same]
  exact numbered

/-- The transfer is on its way or was refused. -/
def Waits (sync : DataSync lib) (direction : Direction) (id : Octets) : Prop :=
  id ∈ (sync.onTheirWay direction).map Prod.snd ∨ id ∈ sync.refused direction

theorem callId_le_requestTransfer (sync : DataSync lib) (direction : Direction) (id : Octets) :
    sync.callId ≤ (requestTransfer direction sync id).callId := by
  unfold requestTransfer startTransfer
  grind

theorem callId_le_foldl (sync : DataSync lib) (direction : Direction) (ids : List Octets) :
    sync.callId ≤ (ids.foldl (requestTransfer direction) sync).callId := by
  induction ids generalizing sync with
  | nil => exact Nat.le_refl _
  | cons id rest ih => exact (callId_le_requestTransfer sync direction id).trans (ih _)

/-- The engine asks for transfers, and waits for those it waited for. -/
structure Asks (sync asked : DataSync lib) (limit : Nat) : Prop where
  form : ∃ onTheirWay running callId, asked = { sync with onTheirWay, running, callId }
  numbered : asked.Numbered limit
  waits (direction : Direction) (id : Octets) : sync.Waits direction id → asked.Waits direction id

theorem asks_requestTransfer (numbered : sync.Numbered limit) (direction : Direction) (id : Octets)
    (few : (requestTransfer direction sync id).callId ≤ limit) :
    Asks sync (requestTransfer direction sync id) limit ∧ (requestTransfer direction sync id).Waits direction id := by
  have least := callId_le_requestTransfer sync direction id
  revert few least
  unfold requestTransfer
  split
  · rename_i waits
    exact fun _ _ => ⟨⟨⟨_, _, _, rfl⟩, numbered, fun _ _ before => before⟩, waits⟩
  rcases started : startTransfer (sync.running direction) sync.callId id with ⟨running, callId, call⟩
  intro few least
  obtain ⟨asked, kept⟩ := (numbered direction).ask started few
  refine ⟨⟨⟨_, _, _, rfl⟩, ?_, fun other id => ?_⟩, by simp [Waits]⟩
  · intro other
    by_cases same : other = direction
    · simpa [same] using asked
    · simpa [same] using (numbered other).more (List.Subset.refl _) least fun _ _ inside => inside
  · by_cases same : other = direction <;> grind [Waits, Function.update_apply]

theorem asks_foldl (numbered : sync.Numbered limit) (direction : Direction) (ids : List Octets)
    (few : (ids.foldl (requestTransfer direction) sync).callId ≤ limit) :
    Asks sync (ids.foldl (requestTransfer direction) sync) limit ∧
      ∀ id ∈ ids, (ids.foldl (requestTransfer direction) sync).Waits direction id := by
  induction ids generalizing sync with
  | nil => exact ⟨⟨⟨_, _, _, rfl⟩, numbered, fun _ _ before => before⟩, fun _ inside => nomatch inside⟩
  | cons id rest ih =>
    have early := (callId_le_foldl _ direction rest).trans few
    obtain ⟨⟨⟨_, _, _, first⟩, numbered, kept⟩, waits⟩ := asks_requestTransfer numbered direction id early
    obtain ⟨⟨⟨_, _, _, others⟩, numberedToo, keptToo⟩, all⟩ := ih numbered few
    refine ⟨⟨⟨_, _, _, by rw [List.foldl_cons, others, first]⟩, numberedToo, fun _ _ before => ?_⟩, ?_⟩
    · exact keptToo _ _ (kept _ _ before)
    · exact List.forall_mem_cons.mpr ⟨keptToo _ _ waits, all⟩

/-- The engine waits for every wanted transfer of the confirmed data. -/
def Settled (sync : DataSync lib) (direction : Direction) : Prop :=
  ∀ id ∈ sync.confirmed, sync.stateOf id = some direction.wanted → sync.Waits direction id

theorem requestTransfersOf_spec (numbered : sync.Numbered limit) (direction : Direction)
    (few : (sync.requestTransfersOf direction).callId ≤ limit) :
    Asks sync (sync.requestTransfersOf direction) limit ∧ (sync.requestTransfersOf direction).Settled direction := by
  obtain ⟨asks, all⟩ := asks_foldl numbered direction (sync.confirmedDataInState direction.wanted) few
  obtain ⟨_, _, _, same⟩ := asks.form
  refine ⟨asks, fun id inside wanted => all id (List.mem_filter.mpr ?_)⟩
  rw [requestTransfersOf, same] at inside wanted
  exact ⟨inside, decide_eq_true wanted⟩

theorem settled_markAutoFetch (settled : sync.Settled .upload) : sync.markAutoFetch.Settled .upload := by
  unfold markAutoFetch
  split
  · exact settled
  refine List.foldlRecOn (motive := fun sync => Settled sync .upload) _ _ settled fun sync settled id _ => ?_
  split
  · refine fun other inside wanted => settled other inside ?_
    revert wanted
    unfold setState RecordDataStore.setState stateOf
    split
    · rename_i found
      dsimp only [tell]
      rw [DataTable.find_setState found]
      grind [Function.update_apply, Direction.wanted]
    · exact fun here => here
  · exact settled

section

variable (numbered : sync.Numbered limit)
include numbered

theorem Numbered.emit {event : CommEvent} (other : ∀ direction call error, event ≠ .transferred direction call error) :
    (sync.emit event).Numbered limit :=
  fun direction => (numbered direction).more (List.subset_append_left _ _) (Nat.le_refl _) (by grind [DataSync.emit])

theorem numbered_handle (place : Nat) (few : (sync.handle place).callId ≤ limit) :
    (sync.handle place).Numbered limit := by
  revert few
  unfold handle
  dsimp only
  split
  · exact fun _ => numbered
  · rename_i here
    exact fun _ direction => (numbered direction).handled (List.nil_subset _) here fun _ inside => nomatch inside
  · rename_i here
    exact fun _ direction => (numbered direction).handled (List.nil_subset _) here fun _ inside => nomatch inside
  · rename_i direction call error here
    unfold onAnswer
    split
    · rename_i unknown
      have absent := List.find?_eq_none.mp unknown
      exact fun _ other => (numbered other).handled (List.Subset.refl _) here (by grind)
    · refine fun _ => numbered_endTransfer (fun other => (numbered other).handled ?_ here ?_) _ _ _
      · grind [Function.update_apply, eraseHandle]
      · grind [Function.update_apply, eraseHandle]
  · rename_i id complete here
    have popped : Numbered { sync with events := sync.events.eraseIdx place } limit := fun direction =>
      (numbered direction).handled (List.Subset.refl _) here (by simp)
    split
    · refine fun few => (requestTransfersOf_spec ?_ .download few).1.numbered
      split <;> exact popped
    · exact fun _ => popped

theorem numbered_wantData (id : Octets) : (sync.wantData id).1.Numbered limit := by
  unfold wantData unrefuse
  dsimp only
  split <;> exact numbered

theorem numbered_requestTransfers (few : sync.requestTransfers.callId ≤ limit) :
    sync.requestTransfers.Numbered limit ∧ ∀ direction, sync.requestTransfers.Settled direction := by
  have second : (sync.requestTransfersOf .upload).markAutoFetch.callId ≤ limit := (callId_le_foldl _ _ _).trans few
  have first : (sync.requestTransfersOf .upload).callId ≤ limit := by
    obtain ⟨store, notices, same⟩ := (sync.requestTransfersOf .upload).markAutoFetch_form
    rwa [same] at second
  obtain ⟨uploads, asked⟩ := requestTransfersOf_spec numbered .upload first
  have marked := numbered_markAutoFetch uploads.numbered
  obtain ⟨downloads, wanted⟩ := requestTransfersOf_spec marked .download few
  refine ⟨downloads.numbered, fun direction => ?_⟩
  cases direction with
  | download => exact wanted
  | upload =>
    obtain ⟨_, _, _, same⟩ := downloads.form
    intro id inside pending
    rw [requestTransfers, same] at inside pending
    exact downloads.waits .upload id (settled_markAutoFetch asked id inside pending)

end

theorem numbered_step (event : DataStep lib) (numbered : sync.Numbered limit) (few : (sync.step event).callId ≤ limit) :
    (sync.step event).Numbered limit := by
  cases event with
  | handle place => exact numbered_handle numbered place few
  | requestTransfers => exact (numbered_requestTransfers numbered few).1
  | called =>
    exact fun direction => (numbered direction).more (List.Subset.refl _) (Nat.le_succ _) fun _ _ inside => inside
  | fetchChangeData id =>
    revert few
    simp only [step, fetchChangeData]
    split
    · exact fun few => (requestTransfersOf_spec (numbered_wantData numbered id) .download few).1.numbered
    · exact fun _ => numbered_wantData numbered id
  | pruneSuperseded superseded =>
    exact List.foldlRecOn (motive := fun sync : DataSync lib => sync.Numbered limit) _ _ numbered
      fun _ numbered _ _ => by split <;> exact numbered
  | sweep unreferenced => exact numbered
  | moved store confirmed => exact numbered
  | transferDone direction id error =>
    revert few
    simp only [step, transferDone]
    split
    · exact fun _ => numbered
    · rename_i call found
      intro few other
      by_cases same : other = direction
      · simpa [same, DataSync.emit] using (numbered direction).done error few found
      · simpa [same, DataSync.emit] using (numbered other).more (List.subset_append_left _ _) (Nat.le_refl _) (by grind)
  | announced id complete | connect => exact numbered.emit (by simp)
  | disconnect =>
    intro direction
    obtain ⟨⟨⟨owner, _, owned⟩, _, matched, _⟩, span, _, waits, told⟩ := numbered direction
    simp only [step, disconnect, DataSync.emit]
    exact ⟨⟨⟨owner, by simp, owned⟩, .nil, by grind, by simp⟩, span, by simp, waits, by grind⟩

def answered (direction : Direction) : CommEvent → Option Nat
  | .transferred side call _ => if side = direction then some call else none
  | _ => none

/-- The requests of the transfers that run, are waited for, or were answered by an event that is not handled yet. -/
def callsInUse (sync : DataSync lib) (direction : Direction) : List Nat :=
  (sync.running direction).map Prod.snd ++ (sync.onTheirWay direction).map Prod.fst ++
    sync.events.filterMap (answered direction)

/-- Fewer than 2 ^ 32 requests are made while a request is in use, and no more than that in the step. -/
def Recent (sync : DataSync lib) (event : DataStep lib) : Prop :=
  (sync.step event).callId ≤ sync.callId + 2 ^ 32 ∧
    ∀ direction, ∀ call ∈ sync.callsInUse direction, (sync.step event).callId < call + 2 ^ 32

def Sound (sync : DataSync lib) : Prop :=
  sync.Numbered sync.callId

theorem Sound.extend (sound : sync.Sound) (recent : sync.Recent event) : sync.Numbered (sync.step event).callId := by
  intro direction
  obtain ⟨tracks, _, runs, waits, told⟩ := sound direction
  have near := recent.2 direction
  simp only [callsInUse, List.mem_append, List.mem_map, List.mem_filterMap] at near
  refine ⟨tracks, recent.1, ?_, ?_, fun call error among => ?_⟩
  · exact fun entry among => ⟨(runs entry among).1, near _ (Or.inl (Or.inl ⟨entry, among, rfl⟩))⟩
  · exact fun entry among => ⟨(waits entry among).1, near _ (Or.inl (Or.inr ⟨entry, among, rfl⟩))⟩
  · exact ⟨(told call error among).1, near _ (Or.inr ⟨_, among, if_pos rfl⟩)⟩

section Run

variable {store : RecordDataStore lib} {autoFetchMaxSize : Nat}
  (run : Runs step Recent { store, autoFetchMaxSize, callId } sync)
include run

theorem sound_of_run : sync.Sound :=
  run.keeps (fun _ => ⟨⟨⟨fun _ => [], by simp, by simp⟩, .nil, by simp, by simp⟩, by simp, by simp, by simp, by simp⟩)
    fun _ event sound recent => numbered_step event (sound.extend recent) (Nat.le_refl _)

/-- In every order of the steps each transfer that the engine waits for runs, or its answer or the end of the connection
is on its way, and no answer is taken for that of another data. -/
theorem tracked_of_run : sync.Tracked :=
  fun direction => (sound_of_run run direction).toTracks

/-- After the engine asked for what it owes and wants, no wanted transfer of a confirmed data is left out. -/
theorem settled_of_run (recent : sync.Recent .requestTransfers) (direction : Direction) :
    sync.requestTransfers.Settled direction :=
  (numbered_requestTransfers ((sound_of_run run).extend recent) (Nat.le_refl _)).2 direction

end Run

/-- A data that waits for its download. -/
def pendingStore : RecordDataStore .sample where
  table :=
    { rows := [{ localId := 1, descriptor := ⟨20, 4, [1]⟩, state := .downloadPending }]
      lastKey := 1
      distinct := List.pairwise_singleton _ _
      ordered := List.pairwise_singleton _ _
      issued := by decide }

/-- The connection has made almost all the requests that have different handles. -/
def spentSync : DataSync .sample :=
  { store := pendingStore, callId := 2 ^ 32 - 2 }

/-- The data is asked for, and the connection ends while the transfer runs and comes up again. -/
def reconnected : DataSync .sample :=
  ((((((spentSync.step (.moved pendingStore [[1]])).step .requestTransfers).step .called).step .disconnect).step
    .connect).step (.handle 0)).step (.handle 0)

theorem recent_of_both
    (both : (sync.step event).callId ≤ sync.callId + 2 ^ 32 ∧
      ∀ call ∈ sync.callsInUse .upload ++ sync.callsInUse .download, (sync.step event).callId < call + 2 ^ 32) :
    sync.Recent event :=
  ⟨both.1, fun direction call inside => both.2 call (List.mem_append.mpr (by cases direction <;> simp [inside]))⟩

theorem runs_reconnected : Runs step Recent spentSync reconnected :=
  (((((((Runs.refl _).tail (recent_of_both (by decide +kernel))).tail (recent_of_both (by decide +kernel))).tail
    (recent_of_both (by decide +kernel))).tail (recent_of_both (by decide +kernel))).tail
    (recent_of_both (by decide +kernel))).tail (recent_of_both (by decide +kernel))).tail (recent_of_both (by decide +kernel))

/-- The transfer is asked for again under a handle that was used before the counter came around. -/
theorem tracked_of_run_reconnected :
    Tracked (reconnected.step .requestTransfers) ∧
      (reconnected.step .requestTransfers).onTheirWay .download = [(2 ^ 32 + 1, [1])] ∧ handleOf (2 ^ 32 + 1) = 1 :=
  ⟨tracked_of_run (runs_reconnected.tail (recent_of_both (by decide +kernel))), by decide +kernel, by decide +kernel⟩

theorem settled_of_run_reconnected :
    Settled reconnected.requestTransfers .download ∧ reconnected.onTheirWay .download = [] ∧
      reconnected.stateOf [1] = some .downloadPending :=
  ⟨settled_of_run runs_reconnected (recent_of_both (by decide +kernel)) .download, by decide +kernel, by decide +kernel⟩

end SpSync.DataSync
