import SpSync.Foundation.ContestOrder
import SpSync.Proof.Membership.UserView

namespace SpSync.UserMerge

open Foundation

variable {map : ParentMap} {entries order : List UserChangeEntry} {kid : PublicKeyId} {entry : UserChangeEntry}
  {view : View}

/-- The entry removes the user. -/
def Removes (kid : PublicKeyId) (entry : UserChangeEntry) : Prop :=
  ∃ access ∈ entry.change.access, access.user = kid ∧ access.access = AccessType.noAccess

/-- The entry gives the user an access right. -/
def Updates (kid : PublicKeyId) (entry : UserChangeEntry) : Prop :=
  ∃ access ∈ entry.change.access, access.user = kid ∧ access.access ≠ AccessType.noAccess

instance (kid : PublicKeyId) : DecidablePred (Removes kid) :=
  fun entry => inferInstanceAs (Decidable (∃ access ∈ entry.change.access, _))

instance (kid : PublicKeyId) : DecidablePred (Updates kid) :=
  fun entry => inferInstanceAs (Decidable (∃ access ∈ entry.change.access, _))

/-- The entry updates the user and has every removal of the user in its causal past. -/
def Effective (map : ParentMap) (kid : PublicKeyId) (entries : List UserChangeEntry)
    (entry : UserChangeEntry) : Prop :=
  Updates kid entry ∧ ∀ removal ∈ entries, Removes kid removal → Before map removal entry

instance (map : ParentMap) (kid : PublicKeyId) (entries : List UserChangeEntry) :
    DecidablePred (Effective map kid entries) :=
  fun _ => inferInstanceAs (Decidable (_ ∧ _))

/-- The access right that the entry gives the user. -/
def accessOf (kid : PublicKeyId) (entry : UserChangeEntry) : UserAccess :=
  ((entry.change.access.filter fun access => access.user = kid).head?).getD ⟨kid, AccessType.noAccess⟩

/-- The member state of a user that the entry decides. -/
def memberOf (kid : PublicKeyId) (entry : UserChangeEntry) : MemberState :=
  ⟨accessOf kid entry, entry.tag, entry.parentSpecial⟩

/-- The effective update that decides the user after the entries are folded in this order. -/
def decidingEntry (map : ParentMap) (kid : PublicKeyId) (entries : List UserChangeEntry) :
    Option UserChangeEntry :=
  Contest.champion (Before map) UserChangeEntry.tag (Effective map kid entries) entries

theorem wins_iff {member : MemberState} :
    wins map member entry = true ↔ saw member.tag entry.parentSpecial map = true ∨
      (¬ saw entry.tag member.parentSpecial map = true ∧ entry.tag < member.tag) := by
  unfold wins
  split
  · rename_i newer
    simp [newer]
  rename_i newer
  split
  · rename_i older
    simp [newer, show ¬ saw entry.tag member.parentSpecial map = true by simpa using older]
  · rename_i older
    simp [newer, show saw entry.tag member.parentSpecial map = true by simpa using older]

theorem wins_memberOf_iff {current : UserChangeEntry} :
    wins map (memberOf kid current) entry = true ↔
      Contest.Beats (Before map) UserChangeEntry.tag entry current :=
  wins_iff

/-- The view records the removals of the user that the entries make. -/
def Recorded (kid : PublicKeyId) (entries : List UserChangeEntry) (view : View) : Prop :=
  ∀ tag, (∃ removal ∈ view.removals, removal.tag = tag) ↔ ∃ entry ∈ entries, Removes kid entry ∧ entry.tag = tag

/-- The view of a user agrees with the contest between the effective updates. -/
structure Follows (map : ParentMap) (kid : PublicKeyId) (entries : List UserChangeEntry) (view : View) : Prop where
  member : view.member = (decidingEntry map kid entries).map (memberOf kid)
  removals : Recorded kid entries view

section Step

variable {map : ParentMap} {kid : PublicKeyId} {entries : List UserChangeEntry} {entry : UserChangeEntry}
  {view : View}

/-- An entry that does not remove the user leaves the effective updates as they are. -/
theorem effective_append_iff (keeps : ¬ Removes kid entry) (other : UserChangeEntry) :
    Effective map kid (entries ++ [entry]) other ↔ Effective map kid entries other := by
  constructor
  · rintro ⟨updates, past⟩
    exact ⟨updates, fun removal inside => past removal (by simp [inside])⟩
  rintro ⟨updates, past⟩
  exact ⟨updates, List.forall_mem_append.mpr ⟨past, List.forall_mem_singleton.mpr fun removes => absurd removes keeps⟩⟩

theorem decidingEntry_append (keeps : ¬ Removes kid entry) :
    decidingEntry map kid (entries ++ [entry]) =
      Contest.challenge (Before map) UserChangeEntry.tag (Effective map kid entries)
        (decidingEntry map kid entries) entry := by
  unfold decidingEntry
  rw [Contest.champion_congr fun other _ => effective_append_iff keeps other,
    Contest.champion_append_singleton]

/-- No update of an ordered list has a removal at its end in the causal past. -/
theorem decidingEntry_append_of_removes (removes : Removes kid entry)
    (ordered : Contest.InOrder (Before map) (entries ++ [entry])) (notSelf : ¬ Before map entry entry) :
    decidingEntry map kid (entries ++ [entry]) = none := by
  apply (Contest.champion_eq_none_iff _).mpr
  rintro other inside ⟨-, past⟩
  have seen := past entry (by simp) removes
  rcases List.mem_append.mp inside with old | new
  · exact (List.pairwise_append.mp ordered).2.2 other old entry (by simp) seen
  · obtain rfl : other = entry := by simpa using new
    exact notSelf seen

/-- A recorded removal defeats the entry exactly when the entry is not effective. -/
theorem defeated_iff (follows : Follows map kid entries view) (updates : Updates kid entry) :
    defeated map view.removals entry = true ↔ ¬ Effective map kid entries entry := by
  simp only [defeated, List.any_eq_true, Effective, not_and, not_forall, Before]
  constructor
  · rintro ⟨removal, inside, unseen⟩ -
    obtain ⟨other, otherIn, removes, same⟩ := (follows.removals removal.tag).mp ⟨removal, inside, rfl⟩
    exact ⟨other, otherIn, removes, by simpa [same] using unseen⟩
  · intro past
    obtain ⟨other, otherIn, removes, unseen⟩ := past updates
    obtain ⟨removal, inside, same⟩ := (follows.removals other.tag).mpr ⟨other, otherIn, removes, rfl⟩
    exact ⟨removal, inside, by simpa [same] using unseen⟩

/-- One update of the view is one challenge of the contest. -/
theorem update_member (follows : Follows map kid entries view) (updates : Updates kid entry) :
    (view.update map entry (accessOf kid entry)).member =
      (Contest.challenge (Before map) UserChangeEntry.tag (Effective map kid entries)
        (decidingEntry map kid entries) entry).map (memberOf kid) := by
  by_cases effective : Effective map kid entries entry
  · have standing : defeated map view.removals entry = false := by
      rw [Bool.eq_false_iff, Ne, defeated_iff follows updates, not_not]
      exact effective
    rw [View.update, standing, follows.member]
    cases current : decidingEntry map kid entries with
    | none => simp [Contest.challenge, effective, memberOf]
    | some champion =>
      by_cases beats : Contest.Beats (Before map) UserChangeEntry.tag entry champion
      · have winner : wins map (memberOf kid champion) entry = true := wins_memberOf_iff.mpr beats
        rw [Contest.challenge_of_beats effective beats]
        simp only [Option.map_some, Option.all_some, winner]
        rfl
      · have loser : wins map (memberOf kid champion) entry = false := by
          rw [Bool.eq_false_iff, Ne, wins_memberOf_iff]
          exact beats
        rw [Contest.challenge_of_not_beats beats]
        simp [loser, follows.member, current]
  · have beaten := (defeated_iff follows updates).mpr effective
    rw [Contest.challenge_of_not_contends effective, ← follows.member]
    simp [View.update, beaten]

end Step

theorem removes_iff_filter :
    Removes kid entry ↔ ∃ access ∈ entry.change.access.filter fun access => access.user = kid,
      access.access = AccessType.noAccess := by
  simp [Removes, and_assoc]

/-- The access rights of one entry record its removal of the user, whatever the order of the entries. -/
theorem recorded_change (recorded : Recorded kid entries view) :
    Recorded kid (entries ++ [entry]) (view.change map kid entry) := by
  intro tag
  rw [View.change, View.foldl_apply_removals, recorded, ← removes_iff_filter]
  constructor
  · rintro (⟨other, inside, removes, same⟩ | ⟨same, removes⟩)
    · exact ⟨other, by simp [inside], removes, same⟩
    · exact ⟨entry, by simp, removes, same⟩
  · rintro ⟨other, inside, removes, same⟩
    rcases List.mem_append.mp inside with old | new
    · exact Or.inl ⟨other, old, removes, same⟩
    · obtain rfl : other = entry := by simpa using new
      exact Or.inr ⟨same, removes⟩

/-- The access rights of one entry keep the view in step with the contest. -/
theorem follows_change (irreflexive : ∀ other ∈ entries ++ [entry], ¬ Before map other other)
    (ordered : Contest.InOrder (Before map) (entries ++ [entry])) (follows : Follows map kid entries view) :
    Follows map kid (entries ++ [entry]) (view.change map kid entry) := by
  have notSelf := irreflexive entry (by simp)
  refine ⟨?_, recorded_change follows.removals⟩
  rw [View.change]
  by_cases removes : Removes kid entry
  · rw [decidingEntry_append_of_removes removes ordered notSelf, Option.map_none]
    apply View.foldl_apply_of_removal _ notSelf (Or.inl (removes_iff_filter.mp removes))
    intro member found
    rw [follows.member] at found
    obtain ⟨champion, deciding, rfl⟩ := Option.map_eq_some_iff.mp found
    have inside := (Contest.champion_spec (fun other otherIn => irreflexive other (by simp [otherIn]))
      (List.pairwise_append.mp ordered).1 deciding).1
    have unseen := (List.pairwise_append.mp ordered).2.2 champion inside entry (by simp)
    simpa [Before, memberOf] using unseen
  · rw [decidingEntry_append removes]
    cases own : entry.change.access.filter fun access => access.user = kid with
    | nil =>
      have idle : ¬ Effective map kid entries entry := by
        rintro ⟨⟨access, inside, same, -⟩, -⟩
        have listed : access ∈ entry.change.access.filter fun access => access.user = kid := by
          simp [inside, same]
        simp [own] at listed
      rw [Contest.challenge_of_not_contends idle, List.foldl_nil, follows.member]
    | cons access rest =>
      have updatesOnly : ∀ other ∈ access :: rest, other.access ≠ AccessType.noAccess := by
        intro other inside none
        exact removes (removes_iff_filter.mpr ⟨other, own ▸ inside, none⟩)
      have updates : Updates kid entry := by
        have listed : access ∈ entry.change.access.filter fun access => access.user = kid := by simp [own]
        simp only [List.mem_filter, decide_eq_true_eq] at listed
        exact ⟨access, listed.1, listed.2, updatesOnly access (by simp)⟩
      have first : accessOf kid entry = access := by simp [accessOf, own]
      rw [View.foldl_apply_of_updates notSelf updatesOnly, ← first]
      exact update_member follows updates

/-- The entries from the last full change on. -/
def current (entries : List UserChangeEntry) : List UserChangeEntry :=
  entries.foldl (fun kept entry => if entry.change.mode = .full then [entry] else kept ++ [entry]) []

theorem current_append_singleton (entries : List UserChangeEntry) (entry : UserChangeEntry) :
    current (entries ++ [entry]) = if entry.change.mode = .full then [entry] else current entries ++ [entry] := by
  simp [current]

theorem current_suffix (entries : List UserChangeEntry) : current entries <:+ entries := by
  induction entries using List.reverseRecOn with
  | nil => exact List.suffix_rfl
  | append_singleton entries entry ih =>
    rw [current_append_singleton]
    split
    · exact List.suffix_append entries [entry]
    · obtain ⟨front, split⟩ := ih
      exact ⟨front, by rw [← List.append_assoc, split]⟩

theorem current_of_delta (deltaMode : ∀ entry ∈ entries, entry.change.mode = .delta) : current entries = entries := by
  induction entries using List.reverseRecOn with
  | nil => rfl
  | append_singleton entries entry ih =>
    rw [current_append_singleton, ih fun other inside => deltaMode other (by simp [inside]),
      deltaMode entry (by simp)]
    rfl

/-- The fold shows each user the changes from the last full one on. -/
theorem view_foldEntries (map : ParentMap) (entries : List UserChangeEntry) (kid : PublicKeyId) :
    (foldEntries map entries).view kid = View.run map kid (current entries) := by
  induction entries using List.reverseRecOn with
  | nil => rfl
  | append_singleton entries entry ih =>
    have fold : foldEntries map (entries ++ [entry]) = applyEntry map (foldEntries map entries) entry := by
      simp [foldEntries]
    rw [fold, current_append_singleton, applyEntry, view_foldl_applyAccess]
    split
    · rfl
    · rw [View.run_append_singleton, ← ih, View.change]

/-- Changes in order leave the view that follows the contest of the user. -/
theorem follows_run (irreflexive : ∀ entry ∈ entries, ¬ Before map entry entry)
    (ordered : Contest.InOrder (Before map) entries) (kid : PublicKeyId) :
    Follows map kid entries (View.run map kid entries) := by
  induction entries using List.reverseRecOn with
  | nil => exact ⟨rfl, by simp [Recorded, View.run]⟩
  | append_singleton entries entry ih =>
    have earlier := ih (fun other inside => irreflexive other (by simp [inside])) (List.pairwise_append.mp ordered).1
    rw [View.run_append_singleton]
    exact follows_change irreflexive ordered earlier

/-- The merge returns the access rights of the deciding entries. -/
theorem mem_mergeUserChanges_iff (wellFormed : WellFormed map entries)
    (ordered : Contest.InOrder (Before map) entries) (access : UserAccess) :
    access ∈ mergeUserChanges entries map ↔
      ∃ kid entry, decidingEntry map kid entries = some entry ∧ accessOf kid entry = access := by
  have follows (kid : PublicKeyId) : Follows map kid entries ((foldEntries map entries).view kid) := by
    rw [view_foldEntries, current_of_delta wellFormed.deltaMode]
    exact follows_run (fun entry inside => wellFormed.not_before_self inside) ordered kid
  simp only [mergeUserChanges, List.mem_map, List.mem_insertionSort]
  constructor
  · rintro ⟨⟨kid, member⟩, inside, rfl⟩
    have found : (foldEntries map entries).members.lookup kid = some member := AList.mem_lookup_iff.mpr inside
    have member_eq := (follows kid).member
    simp only [FoldState.view, found] at member_eq
    obtain ⟨entry, deciding, rfl⟩ := Option.map_eq_some_iff.mp member_eq.symm
    exact ⟨kid, entry, deciding, rfl⟩
  · rintro ⟨kid, entry, deciding, rfl⟩
    have found := (follows kid).member
    rw [deciding] at found
    exact ⟨⟨kid, memberOf kid entry⟩, AList.mem_lookup_iff.mp found, rfl⟩

/-- Every two causal orders of the entries give the same members. -/
def OrderIndependent (map : ParentMap) (entries : List UserChangeEntry) : Prop :=
  ∀ first second : List UserChangeEntry, first.Perm entries → second.Perm entries →
    Contest.InOrder (Before map) first → Contest.InOrder (Before map) second →
      ∀ access, access ∈ mergeUserChanges first map ↔ access ∈ mergeUserChanges second map

/-- The entry is an unsuperseded effective update of the user that the contest can reach. -/
def CanDecide (map : ParentMap) (kid : PublicKeyId) (entries : List UserChangeEntry)
    (entry : UserChangeEntry) : Prop :=
  Contest.CanWin (Before map) UserChangeEntry.tag (Effective map kid entries) entries entry ∧
    Contest.Unsuperseded (Before map) (Effective map kid entries) entries entry

theorem effective_of_perm (same : order.Perm entries) (entry : UserChangeEntry) :
    Effective map kid order entry ↔ Effective map kid entries entry := by
  simp [Effective, same.mem_iff]

theorem decidingEntry_of_perm (same : order.Perm entries) : decidingEntry map kid order =
      Contest.champion (Before map) UserChangeEntry.tag (Effective map kid entries) order :=
  Contest.champion_congr fun entry _ => effective_of_perm same entry

/-- The entries that can decide a user are those that some causal order makes decide. -/
theorem canDecide_iff (wellFormed : WellFormed map entries) :
    CanDecide map kid entries entry ↔ ∃ order, order.Perm entries ∧ Contest.InOrder (Before map) order ∧
      decidingEntry map kid order = some entry := by
  constructor
  · rintro ⟨reached, unsuperseded⟩
    obtain ⟨start, startSame, startOrdered⟩ := wellFormed.causalForest.exists_inOrder
    have startForm := wellFormed.of_perm startSame
    obtain ⟨order, same, ordered, found⟩ := Contest.exists_order_of_canWin startForm.causalForest
      startForm.contestTags startOrdered
      (reached.of_same (fun other => startSame.mem_iff.symm) fun _ => Iff.rfl)
      (fun later laterIn => unsuperseded later (startSame.mem_iff.mp laterIn))
    exact ⟨order, same.trans startSame, ordered, (decidingEntry_of_perm (same.trans startSame)).trans found⟩
  · rintro ⟨order, same, ordered, found⟩
    have orderForm := wellFormed.of_perm same
    obtain ⟨reached, unsuperseded⟩ := Contest.champion_canWin orderForm.causalForest.irreflexive
      orderForm.contestTags ordered ((decidingEntry_of_perm same).symm.trans found)
    exact ⟨reached.of_same (fun other => same.mem_iff) fun _ => Iff.rfl,
      fun later laterIn => unsuperseded later (same.mem_iff.mpr laterIn)⟩

theorem accessOf_user (effective : Effective map kid entries entry) : (accessOf kid entry).user = kid := by
  obtain ⟨⟨access, inside, same, -⟩, -⟩ := effective
  unfold accessOf
  cases own : entry.change.access.filter fun access => access.user = kid with
  | nil => simp
  | cons first rest =>
    have listed : first ∈ entry.change.access.filter fun access => access.user = kid := by simp [own]
    simpa using (List.mem_filter.mp listed).2

/-- Some effective update decides the user in every order, when there is one. -/
theorem exists_decidingEntry (same : order.Perm entries) (inside : entry ∈ entries)
    (effective : Effective map kid entries entry) : ∃ other, decidingEntry map kid order = some other := by
  rw [decidingEntry_of_perm same]
  cases found : Contest.champion (Before map) UserChangeEntry.tag (Effective map kid entries) order with
  | none => exact absurd effective ((Contest.champion_eq_none_iff order).mp found entry (same.mem_iff.mpr inside))
  | some other => exact ⟨other, rfl⟩

/-- The merge is independent of the causal order exactly when all entries that can decide one user
give that user the same access right. -/
theorem orderIndependent_iff (wellFormed : WellFormed map entries) :
    OrderIndependent map entries ↔ ∀ kid first second, CanDecide map kid entries first →
      CanDecide map kid entries second → accessOf kid first = accessOf kid second := by
  constructor
  · intro independent kid first second firstDecides secondDecides
    obtain ⟨firstOrder, firstSame, firstOrdered, firstFound⟩ := (canDecide_iff wellFormed).mp firstDecides
    obtain ⟨secondOrder, secondSame, secondOrdered, secondFound⟩ := (canDecide_iff wellFormed).mp secondDecides
    have inFirst := (mem_mergeUserChanges_iff (wellFormed.of_perm firstSame) firstOrdered _).mpr
      ⟨kid, first, firstFound, rfl⟩
    obtain ⟨other, entry, found, same⟩ := (mem_mergeUserChanges_iff (wellFormed.of_perm secondSame) secondOrdered _).mp
      ((independent firstOrder secondOrder firstSame secondSame firstOrdered secondOrdered _).mp inFirst)
    have entryDecides := (canDecide_iff wellFormed).mpr ⟨secondOrder, secondSame, secondOrdered, found⟩
    obtain rfl : other = kid := by
      rw [← accessOf_user entryDecides.1.mem.2, same, accessOf_user firstDecides.1.mem.2]
    obtain rfl : entry = second := by simpa [found] using secondFound
    exact same.symm
  · intro agree first second firstSame secondSame firstOrdered secondOrdered
    have transfer : ∀ left right : List UserChangeEntry, left.Perm entries → right.Perm entries →
        Contest.InOrder (Before map) left → Contest.InOrder (Before map) right →
          ∀ access, access ∈ mergeUserChanges left map → access ∈ mergeUserChanges right map := by
      intro left right leftSame rightSame leftOrdered rightOrdered access inside
      obtain ⟨kid, entry, found, rfl⟩ :=
        (mem_mergeUserChanges_iff (wellFormed.of_perm leftSame) leftOrdered access).mp inside
      have decides := (canDecide_iff wellFormed).mpr ⟨left, leftSame, leftOrdered, found⟩
      obtain ⟨other, otherFound⟩ := exists_decidingEntry rightSame decides.1.mem.1 decides.1.mem.2
      have otherDecides := (canDecide_iff wellFormed).mpr ⟨right, rightSame, rightOrdered, otherFound⟩
      exact (mem_mergeUserChanges_iff (wellFormed.of_perm rightSame) rightOrdered _).mpr
        ⟨kid, other, otherFound, (agree kid entry other decides otherDecides).symm⟩
    intro access
    exact ⟨transfer first second firstSame secondSame firstOrdered secondOrdered access,
      transfer second first secondSame firstSame secondOrdered firstOrdered access⟩

/-- One change per tag gives the user with key identifier 9 an access right. -/
def grant (tag parentSpecial : RecordTag) (access : AccessType) : UserChangeEntry :=
  ⟨⟨.delta, [⟨[9], access⟩]⟩, tag, parentSpecial⟩

/-- A change with tag 3 saw the change with tag 1, and a change with tag 2 is concurrent with both. -/
def forkedChanges : List UserChangeEntry :=
  [grant [1] [] AccessType.dataReadAccess, grant [3] [1] AccessType.allAccess,
    grant [2] [] AccessType.dataWriteAccess]

def forkedMap : ParentMap where
  entries := [([1], []), ([3], [1]), ([2], [])]
  distinctKeys := by decide

theorem orderIndependent_iff_forked : WellFormed forkedMap forkedChanges ∧
    (OrderIndependent forkedMap forkedChanges ↔ ∀ kid first second, CanDecide forkedMap kid forkedChanges first →
      CanDecide forkedMap kid forkedChanges second → accessOf kid first = accessOf kid second) :=
  ⟨by decide, orderIndependent_iff (by decide)⟩

/-- Folded last, the change with tag 2 beats the change with tag 3; folded second, it loses to the
change with tag 1, which the change with tag 3 then replaces. -/
theorem mergeUserChanges_forked_differs :
    WellFormed forkedMap forkedChanges ∧ Contest.InOrder (Before forkedMap) forkedChanges ∧
    Contest.InOrder (Before forkedMap) [grant [1] [] AccessType.dataReadAccess,
      grant [2] [] AccessType.dataWriteAccess, grant [3] [1] AccessType.allAccess] ∧
    [grant [1] [] AccessType.dataReadAccess, grant [2] [] AccessType.dataWriteAccess,
      grant [3] [1] AccessType.allAccess].Perm forkedChanges ∧
    mergeUserChanges forkedChanges forkedMap = [⟨[9], AccessType.dataWriteAccess⟩] ∧
    mergeUserChanges [grant [1] [] AccessType.dataReadAccess, grant [2] [] AccessType.dataWriteAccess,
      grant [3] [1] AccessType.allAccess] forkedMap = [⟨[9], AccessType.allAccess⟩] := by
  decide

end SpSync.UserMerge
