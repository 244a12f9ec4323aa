import SpSync.Construction.Server.DataPlacement
import SpSync.Foundation.Selection

namespace SpSync

open Foundation

variable {hash : Octets → Octets} {endpoints others : List DataEndpoint} {id : Octets} {holdings : List DataHolding}
  {copies : Nat} {view : ReplicationView} {data : Octets × Octets} {left right : ReplicationPlan}

/-- The placement puts one server before another. -/
def PlacedBefore (hash : Octets → Octets) (id : Octets) (left right : DataEndpoint) : Prop :=
  ¬ placementWeight hash right id < placementWeight hash left id

instance (hash : Octets → Octets) (id : Octets) : DecidableRel (PlacedBefore hash id) :=
  fun left right => inferInstanceAs (Decidable (¬ placementWeight hash right id < placementWeight hash left id))

theorem ranks_placedBefore (hash : Octets → Octets) (id : Octets) : Selection.Ranks (PlacedBefore hash id) where
  total left right := by
    unfold PlacedBefore
    rw [not_lt, not_lt]
    exact le_total _ _
  trans left middle right := by
    unfold PlacedBefore
    rw [not_lt, not_lt, not_lt]
    exact le_trans

/-- Different weights decide between any two servers. -/
theorem strict_placedBefore (distinct : (endpoints.map fun endpoint => placementWeight hash endpoint id).Nodup) :
    Selection.Strict (PlacedBefore hash id) endpoints := by
  intro left leftIn right rightIn before after
  apply List.inj_on_of_nodup_map distinct leftIn rightIn
  exact le_antisymm (not_lt.mp before) (not_lt.mp after)

section Perm

variable (distinct : (endpoints.map fun endpoint => placementWeight hash endpoint id).Nodup)
  (same : others.Perm endpoints)
include distinct same

theorem uploadOrder_perm : uploadOrder hash others id = uploadOrder hash endpoints id :=
  Selection.inOrder_eq_of_perm (ranks_placedBefore hash id) (strict_placedBefore distinct) same

theorem downloadOrder_perm (holdings : List DataHolding) (loads : DataAvailability) :
    downloadOrder hash others id holdings loads = downloadOrder hash endpoints id holdings loads := by
  unfold downloadOrder
  rw [uploadOrder_perm distinct same]

theorem missingCopies_perm (holdings : List DataHolding) (copies : Nat) :
    missingCopies hash others id holdings copies = missingCopies hash endpoints id holdings copies := by
  unfold missingCopies
  rw [uploadOrder_perm distinct same, same.any_eq]

end Perm

theorem mem_missingCopies_iff {endpoint : DataEndpoint} :
    endpoint ∈ missingCopies hash endpoints id holdings copies ↔
      (endpoints.any fun other => holdsCompletely holdings other.key) = true ∧
        endpoint ∈ (uploadOrder hash endpoints id).take copies ∧ holdsCompletely holdings endpoint.key = false := by
  unfold missingCopies
  split
  · rename_i held
    simp [held]
  · rename_i unheld
    simp [unheld]

section Announcements

/-- The latest announcement of a holder counts. -/
theorem findHolder_putHolding (holding : DataHolding) (holdings : List DataHolding) (holder : PublicKeyId) :
    findHolder (putHolding holding holdings) holder =
      if holding.holder = holder then some holding else findHolder holdings holder := by
  unfold findHolder
  induction holdings with
  | nil =>
    unfold putHolding
    by_cases same : holding.holder = holder <;> simp [same]
  | cons first rest ih =>
    unfold putHolding
    by_cases known : first.holder = holding.holder
    · rw [if_pos known, List.find?_cons, List.find?_cons, known]
      by_cases same : holding.holder = holder <;> simp [same]
    rw [if_neg known, List.find?_cons, List.find?_cons, ih]
    by_cases found : first.holder = holder
    · have other : holding.holder ≠ holder := fun same => known (found.trans same.symm)
      simp [found, other]
    · simp [found]

theorem holdings_announce (availability : DataAvailability) (sid id : Octets) (holding : DataHolding) :
    (availability.announce sid id holding).1.holdings sid id = putHolding holding (availability.holdings sid id) := by
  unfold DataAvailability.announce DataAvailability.holdings
  rw [Dictionary.find_change]
  rfl

/-- The announcements of one data, one after the other. -/
def DataAvailability.announceAll (availability : DataAvailability) (sid id : Octets) (added : List DataHolding) :
    DataAvailability :=
  added.foldl (fun availability holding => (availability.announce sid id holding).1) availability

/-- After announcements of complete copies, their holders hold the data, and the others as before. -/
theorem holdsCompletely_announceAll {added : List DataHolding} (complete : ∀ holding ∈ added, holding.complete = true)
    (availability : DataAvailability) (sid id : Octets) (holder : PublicKeyId) :
    holdsCompletely ((availability.announceAll sid id added).holdings sid id) holder =
      (decide (holder ∈ added.map DataHolding.holder) ||
        holdsCompletely (availability.holdings sid id) holder) := by
  induction added generalizing availability with
  | nil => simp [DataAvailability.announceAll]
  | cons holding rest ih =>
    obtain ⟨whole, others⟩ := List.forall_mem_cons.mp complete
    unfold DataAvailability.announceAll
    rw [List.foldl_cons, ← DataAvailability.announceAll, ih others]
    unfold holdsCompletely
    rw [holdings_announce, findHolder_putHolding]
    by_cases same : holding.holder = holder
    · simp [same, whole]
    · have other : ¬ holder = holding.holder := fun equal => same equal.symm
      simp [same, other]

end Announcements

/-- Complete copies on servers that were to get one take exactly these servers off the list. -/
theorem missingCopies_announceAll {availability : DataAvailability} {sid : Octets} {added : List DataHolding}
    (named : ∀ holding ∈ added, holding.complete = true ∧
      ∃ endpoint ∈ missingCopies hash endpoints id (availability.holdings sid id) copies,
        endpoint.key = holding.holder) :
    missingCopies hash endpoints id ((availability.announceAll sid id added).holdings sid id) copies =
      (missingCopies hash endpoints id (availability.holdings sid id) copies).filter fun endpoint =>
        endpoint.key ∉ added.map DataHolding.holder := by
  have holds := holdsCompletely_announceAll (fun holding inside => (named holding inside).1) availability sid id
  have stillHeld : (endpoints.any fun endpoint =>
      holdsCompletely ((availability.announceAll sid id added).holdings sid id) endpoint.key) =
        endpoints.any fun endpoint => holdsCompletely (availability.holdings sid id) endpoint.key := by
    cases added with
    | nil => rfl
    | cons holding rest =>
      -- A server was named, so some server held the data before.
      obtain ⟨-, endpoint, missing, -⟩ := named holding List.mem_cons_self
      have held := (mem_missingCopies_iff.mp missing).1
      obtain ⟨source, inside, complete⟩ := List.any_eq_true.mp held
      rw [held]
      refine List.any_eq_true.mpr ⟨source, inside, ?_⟩
      rw [holds, complete, Bool.or_true]
  unfold missingCopies
  rw [stillHeld]
  split
  · rw [List.filter_filter]
    refine List.filter_congr fun endpoint _ => ?_
    rw [holds, Bool.not_or, ← decide_not]
  · rfl

/-- A data without missing copies adds no copy to a plan. -/
theorem copies_planOne (plan : ReplicationPlan)
    (full : missingCopies hash view.dataServers data.2 (view.availability.holdings data.1 data.2) view.copies = []) :
    (planOne hash view plan data).copies = plan.copies := by
  unfold planOne
  dsimp only
  split
  · split
    · rfl
    split
    · rfl
    · rw [full]
      rfl
  · rfl

/-- The copies of a plan come from the copies of the plan before. -/
theorem copies_planOne_congr (same : left.copies = right.copies) :
    (planOne hash view left data).copies = (planOne hash view right data).copies := by
  unfold planOne
  dsimp only
  split
  · split
    · exact same
    split
    · exact same
    rename_i descriptor _
    generalize (missingCopies hash view.dataServers data.2 (view.availability.holdings data.1 data.2)
      view.copies).filter (fun target => view.reachable target.key) = targets
    induction targets generalizing left right with
    | nil => exact same
    | cons target rest ih =>
      apply ih
      simp only [ReplicationPlan.addCopy, same]
  · exact same

theorem copies_foldl_planOne
    (full : missingCopies hash view.dataServers data.2 (view.availability.holdings data.1 data.2) view.copies = [])
    (datas : List (Octets × Octets)) (same : left.copies = right.copies) :
    (datas.foldl (planOne hash view) left).copies =
      ((datas.filter fun other => other ≠ data).foldl (planOne hash view) right).copies := by
  induction datas generalizing left right with
  | nil => exact same
  | cons first rest ih =>
    by_cases here : first = data
    · subst here
      rw [List.foldl_cons, List.filter_cons_of_neg (by simp)]
      exact ih ((copies_planOne left full).trans same)
    · rw [List.foldl_cons, List.filter_cons_of_pos (by simpa using here), List.foldl_cons]
      exact ih (copies_planOne_congr same)

/-- What the placement of a data over the servers keeps when the list, the set or the holdings change. -/
structure StablePlacement (hash : Octets → Octets) (id : Octets) (copies : Nat) (endpoints : List DataEndpoint) :
    Prop where
  /-- Every sort by the weights gives the one order. -/
  sorted : ∀ arranged : List DataEndpoint, arranged.Perm endpoints →
    arranged.Pairwise (PlacedBefore hash id) → arranged = uploadOrder hash endpoints id
  upload : ∀ others : List DataEndpoint, others.Perm endpoints →
    uploadOrder hash others id = uploadOrder hash endpoints id
  download : ∀ others : List DataEndpoint, others.Perm endpoints → ∀ holdings loads,
    downloadOrder hash others id holdings loads = downloadOrder hash endpoints id holdings loads
  missing : ∀ others : List DataEndpoint, others.Perm endpoints → ∀ holdings,
    missingCopies hash others id holdings copies = missingCopies hash endpoints id holdings copies
  leaves : ∀ gone, ∀ endpoint ∈ (uploadOrder hash endpoints id).take copies, endpoint ≠ gone →
    endpoint ∈ (uploadOrder hash (endpoints.erase gone) id).take copies
  joins : ∀ gone, ∀ one ∈ (uploadOrder hash (endpoints.erase gone) id).take copies,
    ∀ two ∈ (uploadOrder hash (endpoints.erase gone) id).take copies,
      one ∉ (uploadOrder hash endpoints id).take copies → two ∉ (uploadOrder hash endpoints id).take copies → one = two
  lacking : ∀ holdings, ∀ endpoint ∈ missingCopies hash endpoints id holdings copies,
    holdsCompletely holdings endpoint.key = false
  /-- Complete copies on named servers take exactly these off the list. -/
  supplied : ∀ (availability : DataAvailability) (sid : Octets) (added : List DataHolding),
    (∀ holding ∈ added, holding.complete = true ∧
      ∃ endpoint ∈ missingCopies hash endpoints id (availability.holdings sid id) copies,
        endpoint.key = holding.holder) →
    missingCopies hash endpoints id ((availability.announceAll sid id added).holdings sid id) copies =
      (missingCopies hash endpoints id (availability.holdings sid id) copies).filter fun endpoint =>
        endpoint.key ∉ added.map DataHolding.holder
  /-- With complete copies on all of them, the data adds no copy to any plan. -/
  planned : ∀ (availability : DataAvailability) (sid : Octets) (added : List DataHolding),
    (∀ holding ∈ added, holding.complete = true ∧
      ∃ endpoint ∈ missingCopies hash endpoints id (availability.holdings sid id) copies,
        endpoint.key = holding.holder) →
    (∀ endpoint ∈ missingCopies hash endpoints id (availability.holdings sid id) copies,
      endpoint.key ∈ added.map DataHolding.holder) →
    ∀ (reachable : PublicKeyId → Bool) (standing : Octets → Octets → DataStanding) (datas : List (Octets × Octets)),
      let view : ReplicationView := ⟨endpoints, availability.announceAll sid id added, copies, reachable, standing⟩
      (planReplication hash view datas).copies =
        (planReplication hash view (datas.filter fun data => data ≠ (sid, id))).copies

/-- Distinct weights make the placement stable. -/
theorem stablePlacement (hash : Octets → Octets) (id : Octets) (copies : Nat) (endpoints : List DataEndpoint)
    (distinct : (endpoints.map fun endpoint => placementWeight hash endpoint id).Nodup) :
    StablePlacement hash id copies endpoints where
  sorted arranged same ordered :=
    Selection.eq_inOrder (ranks_placedBefore hash id) (strict_placedBefore distinct) same ordered
  upload others same := uploadOrder_perm distinct same
  download others same := downloadOrder_perm distinct same
  missing others same holdings := missingCopies_perm distinct same holdings copies
  leaves gone endpoint inside other :=
    Selection.mem_first_erase (ranks_placedBefore hash id) (strict_placedBefore distinct) inside other
  joins gone one oneIn two twoIn oneNew twoNew :=
    Selection.joins_first_erase (ranks_placedBefore hash id) (strict_placedBefore distinct) oneIn oneNew twoIn twoNew
  lacking holdings endpoint inside := (mem_missingCopies_iff.mp inside).2.2
  supplied availability sid added named := missingCopies_announceAll named
  planned availability sid added named all reachable standing datas := by
    apply copies_foldl_planOne _ datas rfl
    rw [missingCopies_announceAll named]
    refine List.filter_eq_nil_iff.mpr fun endpoint inside => ?_
    simpa using all endpoint inside

/-- Three servers whose weights are their keys; the first holds the data. -/
def threeServers : List DataEndpoint :=
  [{ key := [3] }, { key := [1] }, { key := [2] }]

theorem stablePlacement_three :
    StablePlacement (fun octets => octets) [7] 2 threeServers ∧
      (uploadOrder (fun octets => octets) threeServers [7]).map DataEndpoint.key = [[1], [2], [3]] ∧
      (missingCopies (fun octets => octets) threeServers [7] [⟨[3], 4, 4, true⟩] 2).map DataEndpoint.key = [[1], [2]] :=
  ⟨stablePlacement (fun octets => octets) [7] 2 threeServers (by decide), by decide, by decide⟩

end SpSync
