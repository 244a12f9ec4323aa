import Mathlib.Data.List.Sort
import SpSync.Construction.Chat.ObjectStore
import SpSync.Construction.Core.SyncMode
import SpSync.Foundation.Ranking
import SpSync.Foundation.Shelves

namespace SpSync

open Foundation

/-- What a row of a search says about its object. -/
def StoredObject.content {Payload : Type} (object : StoredObject Payload) : ObjectId × Payload :=
  (object.id, object.payload)

def ObjectRow.content {Payload : Type} (row : ObjectRow Payload) : ObjectId × Payload :=
  (row.id, row.data)

namespace ObjectStore

variable {Payload : Type} {store next : ObjectStore Payload} {id : ObjectId} {payload : Payload} {senderTime : Int}
  {seq : SequenceNumber} {iid : Nat}

def shelves (store : ObjectStore Payload) : Shelves (ObjectRow Payload) :=
  ⟨store.confirmed, store.pending⟩

theorem shelves_proper (store : ObjectStore Payload) : store.shelves.Proper ObjectRow.id :=
  ⟨store.confirmedUnique, store.pendingUnique⟩

/-- The row that an insert writes. -/
def newRow (id : ObjectId) (payload : Payload) (senderTime : Int) (seq : SequenceNumber) (iid : Nat) (pending : Bool) :
    ObjectRow Payload :=
  if pending then { id, data := payload, stime := microseconds senderTime, iid := some iid }
  else { id, data := payload, stime := microseconds senderTime, seq := some seq }

theorem pendingKey_eq_zero_iff : store.pendingKey id = 0 ↔ id ∉ store.pending.map ObjectRow.id := by
  unfold pendingKey
  split
  · rename_i present
    exact iff_of_false (by omega) fun absent => absent present
  · rename_i absent
    exact iff_of_true rfl absent

theorem filter_pending_eq_self (absent : store.pendingKey id = 0) :
    (store.pending.filter fun row => row.id ≠ id) = store.pending := by
  refine List.filter_eq_self.mpr fun row inside => decide_eq_true fun same => ?_
  exact pendingKey_eq_zero_iff.mp absent (same ▸ List.mem_map_of_mem inside)

variable (store id)

/-- Taking an object out of the pending table leaves the other rows. -/
theorem shelves_updatePending :
    (store.updatePending id).1.shelves = ⟨store.confirmed, store.pending.filter fun row => row.id ≠ id⟩ := by
  unfold updatePending
  split
  · rename_i absent
    rw [filter_pending_eq_self absent]
    rfl
  · rfl

theorem confirmed_updatePending : (store.updatePending id).1.confirmed = store.confirmed :=
  congrArg Shelves.confirmed (store.shelves_updatePending id)

theorem pending_updatePending : (store.updatePending id).1.pending = store.pending.filter fun row => row.id ≠ id :=
  congrArg Shelves.pending (store.shelves_updatePending id)

variable {store id}

variable (id payload senderTime seq iid)

@[simp]
theorem newRow_id (pending : Bool) : (newRow id payload senderTime seq iid pending).id = id := by
  cases pending <;> rfl

@[simp]
theorem newRow_data (pending : Bool) : (newRow id payload senderTime seq iid pending).data = payload := by
  cases pending <;> rfl

variable {id payload senderTime seq iid}

variable (store id payload senderTime seq iid)

theorem insertConfirmed_shelves :
    (store.insertConfirmed id payload senderTime seq).toOption.map (fun result => result.1.shelves) =
      Shelves.confirm ObjectRow.id store.shelves (newRow id payload senderTime seq iid false) := by
  unfold insertConfirmed Shelves.confirm
  dsimp only
  rw [newRow_id]
  split
  · rename_i new
    rw [confirmed_updatePending] at new
    rw [if_neg (show id ∉ store.shelves.confirmed.map ObjectRow.id from new)]
    simp only [Except.toOption, Option.map_some, shelves, confirmed_updatePending, pending_updatePending]
    rfl
  · rename_i present
    rw [confirmed_updatePending, not_not] at present
    rw [if_pos (show id ∈ store.shelves.confirmed.map ObjectRow.id from present)]
    rfl

theorem insertPending_shelves : (store.insertPending id payload senderTime iid).1.shelves =
      Shelves.hold ObjectRow.id store.shelves (newRow id payload senderTime seq iid true) := by
  unfold insertPending Shelves.hold
  rw [newRow_id]
  split
  · rename_i new
    rw [if_neg (show id ∉ store.shelves.pending.map ObjectRow.id from new)]
    rfl
  · rename_i present
    rw [if_pos (show id ∈ store.shelves.pending.map ObjectRow.id from not_not.mp present)]

/-- An insert places its row on the shelf of its table. -/
theorem insert_shelves (pending : Bool) :
    (store.insert id payload senderTime seq iid pending).toOption.map (fun result => result.1.shelves) =
      Shelves.place ObjectRow.id pending store.shelves (newRow id payload senderTime seq iid pending) := by
  cases pending with
  | false => exact store.insertConfirmed_shelves id payload senderTime seq iid
  | true => exact congrArg some (store.insertPending_shelves id payload senderTime seq iid)

variable {store id payload senderTime seq iid} {bound : SequenceNumber}

/-- The sequence column, where no sequence counts as zero. -/
def rowSequence (row : ObjectRow Payload) : SequenceNumber := row.seq.getD 0

/-- The sequence of a confirmed row is at most the newest one. -/
theorem seq_le_latestSequence {row : ObjectRow Payload} (inside : row ∈ store.confirmed) :
    rowSequence row ≤ store.latestSequence :=
  Ranking.le_highest inside

theorem latestSequence_le (below : ∀ row ∈ store.confirmed, rowSequence row ≤ bound) : store.latestSequence ≤ bound :=
  Ranking.highest_le below

theorem latestSequence_lt (positive : 0 < bound) (below : ∀ row ∈ store.confirmed, rowSequence row < bound) :
    store.latestSequence < bound :=
  Nat.lt_of_le_pred positive (latestSequence_le fun row inside => Nat.le_pred_of_lt (below row inside))

theorem limit_zero {Item : Type} (items : List Item) : limit 0 items = items := rfl

theorem map_fst_keyed (rows : List (ObjectRow Payload)) : (keyed rows).map Prod.fst = rows := by
  unfold keyed
  rw [List.map_map]
  exact List.zipIdx_map_fst 0 rows

/-- A query without limits gives every row of its table. -/
theorem select_perm (order : MsgOrder) (rows : List (ObjectRow Payload)) :
    (select { order } rows).Perm (keyed rows) := by
  have sorted := List.perm_insertionSort (fun left right : ObjectRow Payload × Int =>
    left.1.stime < right.1.stime ∨ (left.1.stime = right.1.stime ∧ left.2 ≤ right.2)) (keyed rows)
  unfold select
  cases order with
  | timeAscending => exact sorted
  | timeDescending => exact (List.reverse_perm _).trans sorted
  | indexAscending => simp [limit_zero]
  | indexDescending => simp [limit_zero]

theorem selected_perm (order : MsgOrder) (rows : List (ObjectRow Payload)) (index : Int → Int) (pending : Bool) :
    (((select { order } rows).map fun (row, key) => rowOf row (index key) pending).map StoredObject.content).Perm
      (rows.map ObjectRow.content) := by
  have same : ((keyed rows).map fun (row, key) => rowOf row (index key) pending).map StoredObject.content =
      rows.map ObjectRow.content := by
    nth_rewrite 2 [← map_fst_keyed rows]
    rw [List.map_map, List.map_map]
    rfl
  exact same ▸ ((select_perm order rows).map _).map _

section

variable (store : ObjectStore Payload) (order : MsgOrder)

theorem getConfirmed_perm :
    ((store.getConfirmed { order }).map StoredObject.content).Perm (store.confirmed.map ObjectRow.content) :=
  selected_perm order store.confirmed id false

theorem getPending_perm :
    ((store.getPending { order }).map StoredObject.content).Perm (store.pending.map ObjectRow.content) :=
  selected_perm order store.pending (fun key => store.syncMaxIndex + key) true

theorem getByTime_perm :
    (store.getByTime { order }).Perm (store.getConfirmed { order } ++ store.getPending { order }) := by
  unfold getByTime mergeByTime
  rw [limit_zero]
  split
  · exact List.perm_insertionSort _ _
  · exact List.perm_insertionSort _ _

/-- A search without limits lists the objects of both tables, each once for each row. -/
theorem get_perm :
    ((store.get { order }).map StoredObject.content).Perm
      ((store.shelves.confirmed ++ store.shelves.pending).map ObjectRow.content) := by
  have both : ((store.getConfirmed { order } ++ store.getPending { order }).map StoredObject.content).Perm
      ((store.confirmed ++ store.pending).map ObjectRow.content) := by
    rw [List.map_append, List.map_append]
    exact (store.getConfirmed_perm order).append (store.getPending_perm order)
  have listed : (store.get { order }).Perm (store.getConfirmed { order } ++ store.getPending { order }) := by
    cases order with
    | timeAscending => exact store.getByTime_perm .timeAscending
    | timeDescending => exact store.getByTime_perm .timeDescending
    | indexAscending => simp [get, MsgOrder.isTimeOrder]
    | indexDescending =>
      have reversed : store.get {} = store.getPending {} ++ store.getConfirmed {} := by
        simp [get, MsgOrder.isTimeOrder]
      rw [reversed]
      exact List.perm_append_comm
  exact (listed.map _).trans both

end

end ObjectStore

/-- An object identifier of the size that the code uses. -/
def sampleId (octet : Octet) : ObjectId :=
  List.replicate objectIdSize octet

end SpSync
