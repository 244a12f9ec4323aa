import SpSync.Foundation.Selection
import SpSync.Proof.Chat.ObjectTables

namespace SpSync

open Foundation

/-- An object of the list without its index. -/
structure ListedObject (Payload : Type) where
  id : ObjectId
  payload : Payload
  senderTime : Int
  pending : Bool
deriving DecidableEq

variable {Payload : Type}

def StoredObject.listed (object : StoredObject Payload) : ListedObject Payload :=
  ⟨object.id, object.payload, object.senderTime, object.pending⟩

def ObjectRow.listed (pending : Bool) (row : ObjectRow Payload) : ListedObject Payload :=
  ⟨row.id, row.data, row.stime, pending⟩

/-- The objects with the indexes from one on. -/
def numbered (objects : List (ListedObject Payload)) : List (StoredObject Payload) :=
  objects.zipIdx.map fun (object, place) => ⟨object.id, object.payload, object.senderTime, place + 1, object.pending⟩

/-- The calls that change a store. -/
inductive StoreCall (Payload : Type)
  | insert (id : ObjectId) (payload : Payload) (senderTime : Int) (seq : SequenceNumber) (iid : Nat) (pending : Bool)
  | removePending (id : ObjectId)

namespace StoreCall

/-- The object that the call confirms. -/
def confirmed : StoreCall Payload → Option (ListedObject Payload)
  | .insert id payload senderTime _ _ false => some ⟨id, payload, ObjectStore.microseconds senderTime, false⟩
  | _ => none

/-- The object that the call adds as pending. -/
def pended : StoreCall Payload → Option (ListedObject Payload)
  | .insert id payload senderTime _ _ true => some ⟨id, payload, ObjectStore.microseconds senderTime, true⟩
  | _ => none

/-- The identifier that the call takes out of the pending objects. -/
def settles : StoreCall Payload → Option ObjectId
  | .insert id _ _ _ _ false => some id
  | .removePending id => some id
  | _ => none

def confirmedIds (calls : List (StoreCall Payload)) : List ObjectId :=
  (calls.filterMap confirmed).map ListedObject.id

def pendedIds (calls : List (StoreCall Payload)) : List ObjectId :=
  (calls.filterMap pended).map ListedObject.id

/-- The objects that were added as pending and not settled afterwards. -/
def waiting : List (StoreCall Payload) → List (ListedObject Payload)
  | [] => []
  | call :: rest =>
      (call.pended.toList.filter fun object => object.id ∉ rest.filterMap settles) ++ waiting rest

end StoreCall

/-- A list elsewhere follows a change: the object leaves its old place and goes to the new one. -/
def applyChange (mirror : List (ListedObject Payload)) (change : ObjectChange) (object : ListedObject Payload) :
    List (ListedObject Payload) :=
  (if change.oldIndex = 0 then mirror else mirror.eraseIdx (change.oldIndex - 1).toNat).insertIdx
    (change.newIndex - 1).toNat object

namespace ObjectStore

/-- A call on the store, and what a list elsewhere makes of its answer. -/
def follow (state : ObjectStore Payload × List (ListedObject Payload)) :
    StoreCall Payload → Except Error (ObjectStore Payload × List (ListedObject Payload))
  | .insert id payload senderTime seq iid pending =>
      (state.1.insert id payload senderTime seq iid pending).map fun (store, change) =>
        (store, applyChange state.2 change ⟨id, payload, microseconds senderTime, pending⟩)
  | .removePending id =>
      .ok ((state.1.removePending id).1,
        if (state.1.removePending id).2 then state.2.filter fun object => object.id ≠ id else state.2)

def followAll (state : ObjectStore Payload × List (ListedObject Payload)) (calls : List (StoreCall Payload)) :
    Except Error (ObjectStore Payload × List (ListedObject Payload)) :=
  calls.foldlM follow state

/-- The store counts its confirmed objects, and no object is in both tables. -/
structure Opened (store : ObjectStore Payload) : Prop where
  counted : store.syncMaxIndex = store.confirmed.length
  apart : ∀ row ∈ store.confirmed, row.id ∉ store.pending.map ObjectRow.id

/-- Each identifier is confirmed at most once, and added as pending at most once and not after it was confirmed; what
the store holds at the start counts as well. -/
structure Lawful (store : ObjectStore Payload) (calls : List (StoreCall Payload)) : Prop where
  confirmedOnce : (store.confirmed.map ObjectRow.id ++ StoreCall.confirmedIds calls).Nodup
  pendedOnce : (store.pending.map ObjectRow.id ++ StoreCall.pendedIds calls).Nodup
  pendedFirst : ∀ before call after, calls = before ++ call :: after → ∀ id ∈ StoreCall.pendedIds [call],
    id ∉ store.confirmed.map ObjectRow.id ++ StoreCall.confirmedIds before

/-- The objects of both tables in the order of the list. -/
def objects (store : ObjectStore Payload) : List (ListedObject Payload) :=
  store.confirmed.map (ObjectRow.listed false) ++ store.pending.map (ObjectRow.listed true)

/-- The confirmed objects in the order of their confirmations. -/
def confirmedAfter (store : ObjectStore Payload) (calls : List (StoreCall Payload)) : List (ListedObject Payload) :=
  store.confirmed.map (ObjectRow.listed false) ++ calls.filterMap StoreCall.confirmed

/-- The objects that are still pending in the order of their inserts. -/
def pendingAfter (store : ObjectStore Payload) (calls : List (StoreCall Payload)) : List (ListedObject Payload) :=
  (store.pending.map (ObjectRow.listed true)).filter (fun object => object.id ∉ calls.filterMap StoreCall.settles) ++
    StoreCall.waiting calls

variable {store next : ObjectStore Payload} {call : StoreCall Payload} {calls : List (StoreCall Payload)}
  {id : ObjectId} {Item : Type} {rows : List (ObjectRow Payload)} {order : MsgOrder}
  {object left right : StoredObject Payload} {ascending : Bool}

/-- Taking out the row with the identifier leaves the rows with other ones. -/
theorem eraseIdx_findIdx (unique : (rows.map ObjectRow.id).Nodup) :
    rows.eraseIdx (rows.findIdx fun row => row.id = id) = rows.filter fun row => row.id ≠ id := by
  induction rows with
  | nil => rfl
  | cons row rest ih =>
    rw [List.map_cons, List.nodup_cons] at unique
    by_cases same : row.id = id
    · have others : (rest.filter fun row => row.id ≠ id) = rest := by
        refine List.filter_eq_self.mpr fun other inside => decide_eq_true fun equal => unique.1 ?_
        rw [same, ← equal]
        exact List.mem_map_of_mem inside
      rw [List.findIdx_cons, List.filter_cons_of_neg (by simp [same]), others]
      simp [same]
    · simp [List.findIdx_cons, same, ih unique.2]

/-- The place that a settled object leaves is its place in the list. -/
theorem take_updatePending (opened : store.Opened) (id : ObjectId) :
    (if (store.updatePending id).2 = 0 then store.objects
      else store.objects.eraseIdx ((store.updatePending id).2 - 1).toNat) = (store.updatePending id).1.objects := by
  have pending := store.pending_updatePending id
  have confirmed := store.confirmed_updatePending id
  unfold objects
  rw [pending, confirmed]
  unfold updatePending
  by_cases absent : store.pendingKey id = 0
  · rw [if_pos absent, if_pos rfl]
    rw [filter_pending_eq_self absent]
  · rw [if_neg absent]
    have key : store.pendingKey id = store.pending.findIdx (fun row => row.id = id) + 1 := by
      unfold pendingKey at absent ⊢
      split at absent
      · rename_i present
        rw [if_pos present]
      · exact absurd rfl absent
    rw [opened.counted, key, if_neg (by omega)]
    have place : ((store.confirmed.length : Int) + (store.pending.findIdx (fun row => row.id = id) + 1) - 1).toNat =
        (store.confirmed.map (ObjectRow.listed false)).length + store.pending.findIdx fun row => row.id = id := by
      rw [List.length_map]
      omega
    rw [place, List.eraseIdx_append_of_length_le (Nat.le_add_right _ _), Nat.add_sub_cancel_left,
      List.eraseIdx_eq_take_drop_succ, ← List.map_take, ← List.map_drop, ← List.map_append,
      ← List.eraseIdx_eq_take_drop_succ, eraseIdx_findIdx store.pendingUnique]

theorem insertIdx_length_append (front back : List Item) (item : Item) :
    (front ++ back).insertIdx front.length item = front ++ item :: back := by
  induction front with
  | nil => rfl
  | cons first rest ih => simp [List.insertIdx_succ_cons, ih]

@[simp]
theorem listed_newRow (id : ObjectId) (payload : Payload) (senderTime : Int) (seq : SequenceNumber) (iid : Nat)
    (pending state : Bool) : (newRow id payload senderTime seq iid pending).listed state =
      ⟨id, payload, microseconds senderTime, state⟩ := by
  cases pending <;> rfl

theorem syncMaxIndex_updatePending (store : ObjectStore Payload) (id : ObjectId) :
    (store.updatePending id).1.syncMaxIndex = store.syncMaxIndex := by
  unfold updatePending
  split <;> rfl

/-- A confirmation is followed. -/
theorem follow_confirm (opened : store.Opened) (payload : Payload) (senderTime : Int) (seq : SequenceNumber) (iid : Nat)
    (new : id ∉ store.confirmed.map ObjectRow.id) :
    ∃ next : ObjectStore Payload,
      follow (store, store.objects) (.insert id payload senderTime seq iid false) = .ok (next, next.objects) ∧
      next.confirmed = store.confirmed ++ [newRow id payload senderTime seq iid false] ∧
      next.pending = store.pending.filter (fun row => row.id ≠ id) ∧
      next.syncMaxIndex = store.syncMaxIndex + 1 := by
  have confirmed := store.confirmed_updatePending id
  have pending := store.pending_updatePending id
  have counted := store.syncMaxIndex_updatePending id
  have free : id ∉ (store.updatePending id).1.confirmed.map ObjectRow.id := by
    rw [confirmed]
    exact new
  unfold follow insert insertConfirmed
  dsimp only
  rw [if_neg Bool.false_ne_true, dif_pos free]
  refine ⟨_, congrArg Except.ok (Prod.ext rfl ?_), congrArg (· ++ [_]) confirmed, pending, congrArg (· + 1) counted⟩
  unfold applyChange
  dsimp only
  rw [take_updatePending opened]
  unfold objects
  have place : (((store.updatePending id).1.confirmed.length : Int) + 1 - 1).toNat =
      ((store.updatePending id).1.confirmed.map (ObjectRow.listed false)).length := by
    rw [List.length_map]
    omega
  rw [place, insertIdx_length_append, List.map_append, List.append_assoc]
  rfl

/-- A pending object is followed. -/
theorem follow_pend (opened : store.Opened) (payload : Payload) (senderTime : Int) (seq : SequenceNumber) (iid : Nat)
    (new : id ∉ store.pending.map ObjectRow.id) :
    ∃ next : ObjectStore Payload,
      follow (store, store.objects) (.insert id payload senderTime seq iid true) = .ok (next, next.objects) ∧
      next.confirmed = store.confirmed ∧
      next.pending = store.pending ++ [newRow id payload senderTime seq iid true] ∧
      next.syncMaxIndex = store.syncMaxIndex := by
  unfold follow insert insertPending
  dsimp only
  rw [if_pos rfl, dif_pos new]
  refine ⟨_, congrArg Except.ok (Prod.ext rfl ?_), rfl, rfl, rfl⟩
  unfold applyChange objects
  dsimp only
  rw [if_pos rfl, opened.counted]
  have place : ((store.confirmed.length : Int) + (store.pending.length + 1) - 1).toNat =
      (store.confirmed.map (ObjectRow.listed false) ++ store.pending.map (ObjectRow.listed true)).length := by
    rw [List.length_append, List.length_map, List.length_map]
    omega
  rw [place, List.insertIdx_length_self, List.map_append, List.append_assoc]
  rfl

/-- A removal is followed. -/
theorem follow_remove (opened : store.Opened) (id : ObjectId) :
    ∃ next : ObjectStore Payload,
      follow (store, store.objects) (.removePending id) = .ok (next, next.objects) ∧
      next.confirmed = store.confirmed ∧ next.pending = store.pending.filter (fun row => row.id ≠ id) ∧
      next.syncMaxIndex = store.syncMaxIndex := by
  have confirmed := store.confirmed_updatePending id
  have pending := store.pending_updatePending id
  have counted := store.syncMaxIndex_updatePending id
  refine ⟨(store.updatePending id).1, congrArg Except.ok (Prod.ext rfl ?_), confirmed, pending, counted⟩
  by_cases absent : store.pendingKey id = 0
  · unfold removePending updatePending
    rw [if_pos absent]
    rfl
  · have present : id ∈ store.pending.map ObjectRow.id := by
      by_contra missing
      exact absent (pendingKey_eq_zero_iff.mpr missing)
    have removed : (store.removePending id).2 = true := by
      unfold removePending updatePending pendingKey
      rw [if_pos present, opened.counted, if_neg (by omega)]
      rw [decide_eq_true_eq]
      omega
    have others : (store.confirmed.filter fun row => row.id ≠ id) = store.confirmed := by
      refine List.filter_eq_self.mpr fun row inside => decide_eq_true fun same => opened.apart row inside ?_
      rw [same]
      exact present
    rw [if_pos removed]
    unfold objects
    rw [confirmed, pending, List.filter_append, List.filter_map, List.filter_map]
    conv_rhs => rw [← others]
    rfl

/-- A call that settles an identifier takes it out of the pending objects. -/
theorem pendingAfter_settle (settles : call.settles = some id) (none : call.pended = none)
    (pending : next.pending = store.pending.filter fun row => row.id ≠ id) :
    next.pendingAfter calls = store.pendingAfter (call :: calls) := by
  unfold pendingAfter
  rw [StoreCall.waiting, none, pending, List.filterMap_cons_some settles, List.filter_map, List.filter_map,
    List.filter_filter]
  congr 2
  refine List.filter_congr fun row _ => ?_
  rw [Bool.eq_iff_iff, Bool.and_eq_true]
  constructor
  · rintro ⟨left, apart⟩
    exact decide_eq_true (List.not_mem_cons_of_ne_of_not_mem (of_decide_eq_true apart) (of_decide_eq_true left))
  · intro holds
    have absent := of_decide_eq_true holds
    exact ⟨decide_eq_true (List.not_mem_of_not_mem_cons absent), decide_eq_true (List.ne_of_not_mem_cons absent)⟩

/-- A call that adds a pending object puts it behind the others. -/
theorem pendingAfter_pend {row : ObjectRow Payload} (keeps : call.settles = none)
    (pends : call.pended = some (row.listed true)) (pending : next.pending = store.pending ++ [row]) :
    next.pendingAfter calls = store.pendingAfter (call :: calls) := by
  unfold pendingAfter
  rw [StoreCall.waiting, pends, pending, List.filterMap_cons_none keeps, List.map_append, List.filter_append,
    List.append_assoc]
  rfl

/-- A lawful call keeps the list followed, and what is left of the calls lawful. -/
theorem follow_step (opened : store.Opened) (lawful : store.Lawful (call :: calls)) :
    ∃ next : ObjectStore Payload, follow (store, store.objects) call = .ok (next, next.objects) ∧ next.Opened ∧
      next.Lawful calls ∧ next.confirmedAfter calls = store.confirmedAfter (call :: calls) ∧
      next.pendingAfter calls = store.pendingAfter (call :: calls) := by
  obtain ⟨confirmedOnce, pendedOnce, pendedFirst⟩ := lawful
  have later (before : List (StoreCall Payload)) (other : StoreCall Payload) (after : List (StoreCall Payload))
      (same : calls = before ++ other :: after) := pendedFirst (call :: before) other after (congrArg _ same)
  have now := pendedFirst [] call calls rfl
  cases call with
  | removePending id =>
    obtain ⟨next, followed, confirmed, pending, counted⟩ := follow_remove opened id
    have fewer : (next.pending.map ObjectRow.id).Sublist (store.pending.map ObjectRow.id) :=
      pending ▸ List.filter_sublist.map _
    refine ⟨next, followed, ⟨?_, ?_⟩, ⟨?_, pendedOnce.sublist (fewer.append_right _), ?_⟩, ?_,
      pendingAfter_settle rfl rfl pending⟩
    · rw [counted, confirmed, opened.counted]
    · rw [confirmed]
      exact fun row inside named => opened.apart row inside (fewer.subset named)
    · rw [confirmed]
      exact confirmedOnce
    · rw [confirmed]
      exact later
    · unfold confirmedAfter
      rw [confirmed]
      rfl
  | insert id payload senderTime seq iid state =>
    cases state with
    | false =>
      have new : id ∉ store.confirmed.map ObjectRow.id := by
        intro named
        exact (List.nodup_append.mp confirmedOnce).2.2 id named id List.mem_cons_self rfl
      obtain ⟨next, followed, confirmed, pending, counted⟩ := follow_confirm opened payload senderTime seq iid new
      have fewer : (next.pending.map ObjectRow.id).Sublist (store.pending.map ObjectRow.id) :=
        pending ▸ List.filter_sublist.map _
      have ids : next.confirmed.map ObjectRow.id = store.confirmed.map ObjectRow.id ++ [id] := by
        rw [confirmed, List.map_append, List.map_singleton, newRow_id]
      refine ⟨next, followed, ⟨?_, ?_⟩, ⟨?_, pendedOnce.sublist (fewer.append_right _), ?_⟩, ?_,
        pendingAfter_settle rfl rfl pending⟩
      · rw [counted, confirmed, opened.counted, List.length_append]
        rfl
      · intro row inside named
        rw [confirmed, List.mem_append, List.mem_singleton] at inside
        obtain old | same := inside
        · exact opened.apart row old (fewer.subset named)
        · rw [same, newRow_id, pending] at named
          obtain ⟨other, kept, equal⟩ := List.mem_map.mp named
          exact of_decide_eq_true (List.mem_filter.mp kept).2 equal
      · rw [ids, List.append_assoc]
        exact confirmedOnce
      · rw [ids]
        intro before other after same id pends
        rw [List.append_assoc]
        exact later before other after same id pends
      · unfold confirmedAfter
        rw [confirmed, List.map_append, List.append_assoc, List.map_singleton, listed_newRow]
        rfl
    | true =>
      have new : id ∉ store.pending.map ObjectRow.id := by
        intro named
        exact (List.nodup_append.mp pendedOnce).2.2 id named id List.mem_cons_self rfl
      obtain ⟨next, followed, confirmed, pending, counted⟩ := follow_pend opened payload senderTime seq iid new
      have ids : next.pending.map ObjectRow.id = store.pending.map ObjectRow.id ++ [id] := by
        rw [pending, List.map_append, List.map_singleton, newRow_id]
      refine ⟨next, followed, ⟨?_, ?_⟩, ⟨?_, ?_, ?_⟩, ?_, pendingAfter_pend rfl ?_ pending⟩
      · rw [counted, confirmed, opened.counted]
      · rw [confirmed, ids]
        intro row inside named
        obtain old | same := List.mem_append.mp named
        · exact opened.apart row inside old
        · refine now id List.mem_cons_self (List.mem_append_left _ ?_)
          rw [← List.mem_singleton.mp same]
          exact List.mem_map_of_mem inside
      · rw [confirmed]
        exact confirmedOnce
      · rw [ids, List.append_assoc]
        exact pendedOnce
      · rw [confirmed]
        exact later
      · unfold confirmedAfter
        rw [confirmed]
        rfl
      · rw [listed_newRow]
        rfl

/-- Along lawful calls the list is followed. -/
theorem followAll_lawful (opened : store.Opened) (lawful : store.Lawful calls) :
    ∃ next : ObjectStore Payload, followAll (store, store.objects) calls = .ok (next, next.objects) ∧ next.Opened ∧
      next.objects = store.confirmedAfter calls ++ store.pendingAfter calls := by
  induction calls generalizing store with
  | nil =>
    refine ⟨store, rfl, opened, ?_⟩
    unfold objects confirmedAfter pendingAfter StoreCall.waiting
    simp
  | cons call rest ih =>
    obtain ⟨middle, followed, stays, lawful, confirmed, pending⟩ := follow_step opened lawful
    obtain ⟨next, rest, opened, objects⟩ := ih stays lawful
    refine ⟨next, ?_, opened, ?_⟩
    · unfold followAll
      rw [List.foldlM_cons, followed]
      exact rest
    · rw [objects, confirmed, pending]

/-- The objects of the list with their indexes, the confirmed ones and the pending ones. -/
def confirmedList (store : ObjectStore Payload) : List (StoredObject Payload) :=
  (keyed store.confirmed).map fun (row, key) => rowOf row key false

def pendingList (store : ObjectStore Payload) : List (StoredObject Payload) :=
  (keyed store.pending).map fun (row, key) => rowOf row (store.syncMaxIndex + key) true

/-- The list has the objects of both tables under the indexes from one on. -/
theorem numbered_objects (opened : store.Opened) :
    numbered store.objects = store.confirmedList ++ store.pendingList := by
  unfold numbered objects confirmedList pendingList keyed
  rw [List.zipIdx_append, List.map_append, List.zipIdx_map, List.map_map, List.map_map, List.map_map]
  congr 1
  rw [List.zipIdx_map, List.length_map, Nat.zero_add, opened.counted, List.map_map, List.zipIdx_eq_map_add,
    List.map_map]
  refine List.map_congr_left fun entry _ => ?_
  refine congrArg (fun index : Int => (⟨_, _, _, index, true⟩ : StoredObject Payload)) ?_
  show ((store.confirmed.length + entry.2 : Nat) : Int) + 1 = store.confirmed.length + (entry.2 + 1)
  omega

theorem limit_append (maxCount : Nat) (front back : List Item) : limit maxCount (front ++ back) =
    if maxCount = 0 ∨ (limit maxCount front).length < maxCount then
      limit maxCount front ++ limit (maxCount - (limit maxCount front).length) back
    else limit maxCount front := by
  unfold limit
  by_cases unlimited : maxCount = 0
  · simp [unlimited]
  rw [if_neg unlimited, if_neg unlimited, List.length_take, List.take_append]
  by_cases short : front.length < maxCount
  · rw [Nat.min_eq_right (Nat.le_of_lt short), if_pos (Or.inr short), if_neg (by omega)]
  · rw [Nat.min_eq_left (by omega), if_neg (by omega), Nat.sub_eq_zero_of_le (by omega), List.take_zero,
      List.append_nil]

/-- The keys of a table count from one to the number of its rows. -/
theorem key_bounds {entry : ObjectRow Payload × Int} (inside : entry ∈ keyed rows) :
    1 ≤ entry.2 ∧ entry.2 ≤ rows.length := by
  obtain ⟨source, found, rfl⟩ := List.mem_map.mp inside
  have bound := List.snd_lt_of_mem_zipIdx found
  constructor
  · dsimp only
    omega
  · dsimp only
    omega

theorem limit_nil (maxCount : Nat) : limit maxCount ([] : List Item) = [] := by
  unfold limit
  split
  · rfl
  · exact List.take_nil

/-- The two tables one after the other, as a search reads them. -/
theorem limit_read (maxCount : Nat) (front back : List Item) :
    (if decide (maxCount = 0) || decide ((limit maxCount front).length < maxCount) then
      limit maxCount front ++ limit (maxCount - (limit maxCount front).length) back
    else limit maxCount front) = limit maxCount (front ++ back) := by
  rw [limit_append]
  simp only [Bool.or_eq_true, decide_eq_true_eq]

theorem map_limit {Value : Type} (maxCount : Nat) (view : Item → Value) (items : List Item) :
    (limit maxCount items).map view = limit maxCount (items.map view) := by
  unfold limit
  split
  · rfl
  · exact List.map_take

theorem getConfirmed_ascending (startIndex : Int) (maxCount : Nat) :
    store.getConfirmed ⟨startIndex, maxCount, .indexAscending⟩ =
      limit maxCount (store.confirmedList.filter fun object => startIndex = 0 || startIndex ≤ object.index) := by
  unfold getConfirmed select confirmedList
  rw [map_limit, List.filter_map]
  rfl

/-- A search by index starts in the pending table where it is behind the confirmed objects. -/
theorem getPending_index (byIndex : order.isTimeOrder = false) (startIndex : Int) (maxCount : Nat) :
    store.getPending ⟨startIndex, maxCount, order⟩ =
      (select ⟨if startIndex = 0 then 0 else startIndex - store.syncMaxIndex, maxCount, order⟩ store.pending).map
        fun (row, key) => rowOf row (store.syncMaxIndex + key) true := by
  unfold getPending
  rw [byIndex]
  by_cases zero : startIndex = 0
  · rw [if_neg (fun both => both.1 zero), if_pos zero, zero]
  · rw [if_pos ⟨zero, rfl⟩, if_neg zero]

theorem getPending_ascending (startIndex : Int) (maxCount : Nat)
    (outside : startIndex = 0 ∨ store.syncMaxIndex < startIndex) :
    store.getPending ⟨startIndex, maxCount, .indexAscending⟩ =
      limit maxCount (store.pendingList.filter fun object => startIndex = 0 || startIndex ≤ object.index) := by
  rw [getPending_index rfl]
  unfold select pendingList
  dsimp only
  rw [map_limit, List.filter_map]
  congr 2
  refine List.filter_congr fun entry _ => ?_
  show (decide _ || decide _) = (decide _ || decide (startIndex ≤ store.syncMaxIndex + entry.2))
  rw [Bool.eq_iff_iff, Bool.or_eq_true, Bool.or_eq_true, decide_eq_true_eq, decide_eq_true_eq, decide_eq_true_eq,
    decide_eq_true_eq]
  split <;> omega

theorem index_confirmedList (opened : store.Opened) (inside : object ∈ store.confirmedList) :
    1 ≤ object.index ∧ object.index ≤ store.syncMaxIndex := by
  obtain ⟨entry, found, rfl⟩ := List.mem_map.mp inside
  rw [opened.counted]
  exact key_bounds found

theorem index_pendingList (inside : object ∈ store.pendingList) : store.syncMaxIndex < object.index := by
  obtain ⟨entry, found, rfl⟩ := List.mem_map.mp inside
  have bounds := key_bounds found
  have place : (rowOf entry.1 (store.syncMaxIndex + entry.2) true).index = store.syncMaxIndex + entry.2 := rfl
  rw [place]
  omega

/-- A search by ascending index is a slice of the list. -/
theorem get_ascending (opened : store.Opened) (startIndex : Int) (maxCount : Nat) :
    store.get ⟨startIndex, maxCount, .indexAscending⟩ =
      limit maxCount ((numbered store.objects).filter fun object => startIndex = 0 || startIndex ≤ object.index) := by
  rw [numbered_objects opened, List.filter_append, ← limit_read]
  unfold get
  rw [if_neg (show ¬ MsgOrder.isTimeOrder .indexAscending = true by decide), if_pos rfl]
  dsimp only
  by_cases inside : startIndex = 0 ∨ startIndex ≤ store.syncMaxIndex
  · have within : (decide (startIndex = 0) || decide (startIndex ≤ store.syncMaxIndex)) = true := by
      simpa using inside
    have all : (store.pendingList.filter fun object => startIndex = 0 || startIndex ≤ object.index) =
        store.pendingList := by
      refine List.filter_eq_self.mpr fun object found => ?_
      have above := index_pendingList found
      simp only [Bool.or_eq_true, decide_eq_true_eq]
      omega
    rw [if_pos within, if_pos within, getConfirmed_ascending, getPending_ascending _ _ (Or.inl rfl), all]
    simp
  · have without : ¬ (decide (startIndex = 0) || decide (startIndex ≤ store.syncMaxIndex)) = true := by
      simpa using inside
    have none : (store.confirmedList.filter fun object => startIndex = 0 || startIndex ≤ object.index) = [] := by
      refine List.filter_eq_nil_iff.mpr fun object found => ?_
      have below := index_confirmedList opened found
      simp only [Bool.or_eq_true, decide_eq_true_eq]
      omega
    have behind : store.syncMaxIndex < startIndex := by omega
    rw [if_neg without, if_neg without, none, limit_nil, getPending_ascending _ _ (Or.inr behind)]

theorem getConfirmed_descending (startIndex : Int) (maxCount : Nat) :
    store.getConfirmed ⟨startIndex, maxCount, .indexDescending⟩ =
      limit maxCount (store.confirmedList.filter fun object => startIndex = 0 || object.index ≤ startIndex).reverse := by
  unfold getConfirmed select confirmedList
  rw [map_limit, List.filter_map, List.map_reverse]
  rfl

theorem getPending_descending (startIndex : Int) (maxCount : Nat)
    (outside : startIndex = 0 ∨ store.syncMaxIndex < startIndex) :
    store.getPending ⟨startIndex, maxCount, .indexDescending⟩ =
      limit maxCount (store.pendingList.filter fun object => startIndex = 0 || object.index ≤ startIndex).reverse := by
  rw [getPending_index rfl]
  unfold select pendingList
  dsimp only
  rw [map_limit, List.filter_map, List.map_reverse]
  congr 3
  refine List.filter_congr fun entry _ => ?_
  show (decide _ || decide _) = (decide _ || decide (store.syncMaxIndex + entry.2 ≤ startIndex))
  rw [Bool.eq_iff_iff, Bool.or_eq_true, Bool.or_eq_true, decide_eq_true_eq, decide_eq_true_eq, decide_eq_true_eq,
    decide_eq_true_eq]
  split <;> omega

/-- A search by descending index is a slice of the list, read from its end. -/
theorem get_descending (opened : store.Opened) (startIndex : Int) (maxCount : Nat) :
    store.get ⟨startIndex, maxCount, .indexDescending⟩ =
      limit maxCount ((numbered store.objects).filter fun object =>
        startIndex = 0 || object.index ≤ startIndex).reverse := by
  rw [numbered_objects opened, List.filter_append, List.reverse_append, ← limit_read]
  unfold get
  rw [if_neg (show ¬ MsgOrder.isTimeOrder .indexDescending = true by decide),
    if_neg (show ¬ MsgOrder.indexDescending = .indexAscending by decide)]
  dsimp only
  by_cases inside : startIndex = 0 ∨ store.syncMaxIndex < startIndex
  · have within : (decide (startIndex = 0) || decide (store.syncMaxIndex < startIndex)) = true := by
      simpa using inside
    have all : (store.confirmedList.filter fun object => startIndex = 0 || object.index ≤ startIndex) =
        store.confirmedList := by
      refine List.filter_eq_self.mpr fun object found => ?_
      have below := index_confirmedList opened found
      simp only [Bool.or_eq_true, decide_eq_true_eq]
      omega
    rw [if_pos within, if_pos within, getPending_descending _ _ inside, getConfirmed_descending, all]
    simp
  · have without : ¬ (decide (startIndex = 0) || decide (store.syncMaxIndex < startIndex)) = true := by
      simpa using inside
    have none : (store.pendingList.filter fun object => startIndex = 0 || object.index ≤ startIndex) = [] := by
      refine List.filter_eq_nil_iff.mpr fun object found => ?_
      have above := index_pendingList found
      simp only [Bool.or_eq_true, decide_eq_true_eq]
      omega
    rw [if_neg without, if_neg without, none, List.reverse_nil, limit_nil, getConfirmed_descending]

/-- The sender times and indexes in either direction. -/
def timely (ascending : Bool) (left right : StoredObject Payload) : Bool :=
  bif ascending then precedes left right else precedes right left

theorem precedes_iff : precedes left right = true ↔
    left.senderTime < right.senderTime ∨ (left.senderTime = right.senderTime ∧ left.index ≤ right.index) := by
  simp [precedes]

theorem timely_ranks (ascending : Bool) :
    Selection.Ranks fun left right : StoredObject Payload => timely ascending left right = true := by
  unfold timely
  cases ascending with
  | false =>
    refine ⟨fun left right => ?_, fun left middle right => ?_⟩ <;> simp only [cond_false, precedes_iff] <;> omega
  | true =>
    refine ⟨fun left right => ?_, fun left middle right => ?_⟩ <;> simp only [cond_true, precedes_iff] <;> omega

theorem index_eq_of_timely (forth : timely ascending left right = true) (back : timely ascending right left = true) :
    left.index = right.index := by
  unfold timely at forth back
  cases ascending <;> simp only [cond_false, cond_true, precedes_iff] at forth back <;> omega

/-- The indexes of the list are the numbers from one on. -/
theorem map_index_numbered (objects : List (ListedObject Payload)) : (numbered objects).map StoredObject.index =
    (List.range objects.length).map fun place : Nat => (place : Int) + 1 := by
  unfold numbered
  rw [List.map_map, List.range_eq_range', ← List.zipIdx_map_snd 0 objects, List.map_map]
  rfl

theorem timely_strict (ascending : Bool) (objects : List (ListedObject Payload)) :
    Selection.Strict (fun left right => timely ascending left right = true) (numbered objects) := by
  have distinct : ((numbered objects).map StoredObject.index).Nodup := by
    rw [map_index_numbered]
    refine List.nodup_range.map fun left right same => ?_
    omega
  intro left leftIn right rightIn forth back
  exact List.inj_on_of_nodup_map distinct leftIn rightIn (index_eq_of_timely forth back)

/-- A query by time gives the rows of its table in the order of their objects. -/
theorem select_time (index : Int → Int) (time : order.isTimeOrder = true) {pending : Bool}
    {objects : List (StoredObject Payload)}
    (same : objects = (keyed rows).map fun (row, key) => rowOf row (index key) pending)
    (grows : ∀ left right, index left ≤ index right ↔ left ≤ right)
    (strict : Selection.Strict (fun left right => timely (order = .timeAscending) left right = true) objects)
    (startIndex : Int) (maxCount : Nat) :
    (select ⟨startIndex, maxCount, order⟩ rows).map (fun (row, key) => rowOf row (index key) pending) =
      limit maxCount (Selection.inOrder (fun left right => timely (order = .timeAscending) left right = true)
        objects) := by
  have sorted : (byTime (keyed rows)).map (fun (row, key) => rowOf row (index key) pending) =
      Selection.inOrder (fun left right => timely true left right = true) objects := by
    rw [same]
    refine List.map_insertionSort _ _ _ _ fun left _ right _ => ?_
    show _ ↔ precedes (rowOf left.1 (index left.2) pending) (rowOf right.1 (index right.2) pending) = true
    rw [precedes_iff]
    have order := grows left.2 right.2
    simp only [rowOf]
    rw [order]
  unfold select
  rw [map_limit]
  cases order with
  | indexAscending => cases time
  | indexDescending => cases time
  | timeAscending => exact congrArg (limit maxCount) sorted
  | timeDescending =>
    rw [List.map_reverse, sorted]
    refine congrArg (limit maxCount) (Selection.eq_inOrder (timely_ranks false) strict ?_ ?_)
    · exact (List.reverse_perm _).trans (Selection.inOrder_perm objects)
    · exact List.pairwise_reverse.mpr (Selection.inOrder_sorted (timely_ranks true) objects)

/-- The limited order of the whole is found from the limited orders of the parts. -/
theorem limit_inOrder_append {front back : List (StoredObject Payload)}
    (strict : Selection.Strict (fun left right => timely ascending left right = true) (front ++ back))
    (maxCount : Nat) :
    limit maxCount (Selection.inOrder (fun left right => timely ascending left right = true)
      (limit maxCount (Selection.inOrder (fun left right => timely ascending left right = true) front) ++
        limit maxCount (Selection.inOrder (fun left right => timely ascending left right = true) back))) =
      limit maxCount (Selection.inOrder (fun left right => timely ascending left right = true) (front ++ back)) := by
  unfold limit
  by_cases unlimited : maxCount = 0
  · rw [if_pos unlimited, if_pos unlimited, if_pos unlimited, if_pos unlimited]
    exact Selection.inOrder_eq_of_perm (timely_ranks ascending) strict
      ((Selection.inOrder_perm front).append (Selection.inOrder_perm back))
  · rw [if_neg unlimited, if_neg unlimited, if_neg unlimited, if_neg unlimited]
    exact (Selection.first_append (timely_ranks ascending) strict maxCount).symm

/-- A search by time lists the first objects of the list in the order of their sender times. -/
theorem get_time (opened : store.Opened) (time : order.isTimeOrder = true) (startIndex : Int) (maxCount : Nat) :
    store.get ⟨startIndex, maxCount, order⟩ =
      limit maxCount (Selection.inOrder (fun left right => timely (order = .timeAscending) left right = true)
        (numbered store.objects)) := by
  have strict := timely_strict (order = .timeAscending) store.objects
  rw [numbered_objects opened] at strict ⊢
  have confirmed : store.getConfirmed ⟨0, maxCount, order⟩ = _ :=
    select_time id time rfl (fun _ _ => Iff.rfl)
      (fun left leftIn right rightIn => strict left (List.mem_append_left _ leftIn) right (List.mem_append_left _ rightIn))
      0 maxCount
  have pending : store.getPending ⟨0, maxCount, order⟩ = _ :=
    select_time (fun key => store.syncMaxIndex + key) time rfl (fun _ _ => by omega)
      (fun left leftIn right rightIn => strict left (List.mem_append_right _ leftIn) right
        (List.mem_append_right _ rightIn)) 0 maxCount
  unfold get
  rw [if_pos time]
  unfold getByTime mergeByTime
  dsimp only
  rw [confirmed, pending]
  refine Eq.trans ?_ (limit_inOrder_append strict maxCount)
  refine congrArg (limit maxCount) ?_
  cases order with
  | indexAscending => cases time
  | indexDescending => cases time
  | timeAscending => rfl
  | timeDescending => rfl

/-- Along lawful calls the ascending list has the confirmed objects in the order of their confirmations and then the
pending ones in the order of their inserts, under the indexes from one on. A list elsewhere that follows the reported
changes equals it, a search by index is a slice of it, and a search by time its first objects in that order. -/
theorem changes_describe_list (start : ObjectStore Payload) (opened : start.Opened) (calls : List (StoreCall Payload))
    (lawful : start.Lawful calls) : ∃ (store : ObjectStore Payload) (mirror : List (ListedObject Payload)),
      followAll (start, (start.get { order := .indexAscending }).map StoredObject.listed) calls = .ok (store, mirror) ∧
      store.get { order := .indexAscending } = numbered (start.confirmedAfter calls ++ start.pendingAfter calls) ∧
      mirror = (store.get { order := .indexAscending }).map StoredObject.listed ∧
      ∀ (startIndex : Int) (maxCount : Nat),
        store.get ⟨startIndex, maxCount, .indexAscending⟩ = limit maxCount
          ((store.get { order := .indexAscending }).filter fun object =>
            startIndex = 0 || startIndex ≤ object.index) ∧
        store.get ⟨startIndex, maxCount, .indexDescending⟩ = limit maxCount
          ((store.get { order := .indexAscending }).filter fun object =>
            startIndex = 0 || object.index ≤ startIndex).reverse ∧
        store.get ⟨startIndex, maxCount, .timeAscending⟩ = limit maxCount
          ((store.get { order := .indexAscending }).insertionSort fun left right => precedes left right) ∧
        store.get ⟨startIndex, maxCount, .timeDescending⟩ = limit maxCount
          ((store.get { order := .indexAscending }).insertionSort fun left right => precedes right left) := by
  have whole {store : ObjectStore Payload} (opened : store.Opened) :
      store.get { order := .indexAscending } = numbered store.objects := by
    rw [get_ascending opened]
    simp [limit_zero]
  have unnumbered (objects : List (ListedObject Payload)) : (numbered objects).map StoredObject.listed = objects := by
    unfold numbered
    rw [List.map_map]
    exact List.zipIdx_map_fst 0 objects
  obtain ⟨store, followed, stays, objects⟩ := followAll_lawful opened lawful
  refine ⟨store, store.objects, ?_, ?_, ?_, fun startIndex maxCount => ?_⟩
  · rw [whole opened, unnumbered, followed]
  · rw [whole stays, objects]
  · rw [whole stays, unnumbered]
  · rw [whole stays]
    exact ⟨get_ascending stays startIndex maxCount, get_descending stays startIndex maxCount,
      get_time stays rfl startIndex maxCount, get_time stays rfl startIndex maxCount⟩

/-- Two pending objects, of which one is refused and one confirmed behind another object. -/
def sampleCalls : List (StoreCall Nat) :=
  [.insert (sampleId 9) 0 5000 0 1 true, .insert (sampleId 7) 0 6000 0 2 true, .insert (sampleId 8) 0 4000 1 3 false,
    .removePending (sampleId 7), .insert (sampleId 9) 0 5000 2 1 false]

theorem sampleCalls_lawful : (empty : ObjectStore Nat).Lawful sampleCalls := by
  have each : ∀ place : Fin 5, ∀ id ∈ StoreCall.pendedIds [sampleCalls.get place],
      id ∉ StoreCall.confirmedIds (sampleCalls.take place) := by decide
  refine ⟨by decide, by decide, fun before call after same id pends => ?_⟩
  have place : before.length < 5 := by
    have length := congrArg List.length same
    simp [sampleCalls] at length
    omega
  have found : call = sampleCalls.get ⟨before.length, place⟩ := by
    simp [same]
  have front : before = sampleCalls.take before.length := by
    rw [same, List.take_left]
  rw [front]
  exact each ⟨before.length, place⟩ id (found ▸ pends)

theorem changes_describe_list_confirmed : ∃ (store : ObjectStore Nat) (mirror : List (ListedObject Nat)),
    followAll (empty, []) sampleCalls = .ok (store, mirror) ∧
      mirror = [⟨sampleId 8, 0, 4, false⟩, ⟨sampleId 9, 0, 5, false⟩] := by
  obtain ⟨store, mirror, followed, listed, same, _⟩ := changes_describe_list (empty : ObjectStore Nat)
    ⟨rfl, fun _ inside => absurd inside List.not_mem_nil⟩ sampleCalls sampleCalls_lawful
  refine ⟨store, mirror, followed, ?_⟩
  rw [same, listed]
  decide

end ObjectStore

end SpSync
