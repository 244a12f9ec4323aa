import SpSync.Proof.Membership.Merge

namespace SpSync.UserMerge

open Foundation

/-- The member of the view is an update of one of the entries, and saw every removal that the view records. -/
structure Guarded (map : ParentMap) (kid : PublicKeyId) (entries : List UserChangeEntry) (view : View) : Prop where
  given : ∀ member, view.member = some member → ∃ entry ∈ entries, member.access ∈ entry.change.access ∧
    member.access.user = kid ∧ member.access.access ≠ AccessType.noAccess ∧ member.tag = entry.tag ∧
    member.parentSpecial = entry.parentSpecial
  seen : ∀ member, view.member = some member → ∀ removal ∈ view.removals,
    saw removal.tag member.parentSpecial map = true

section Step

variable {map : ParentMap} {kid : PublicKeyId} {entries : List UserChangeEntry} {entry : UserChangeEntry} {view : View}

section

variable (guarded : Guarded map kid entries view) {access : UserAccess}

include guarded

/-- A removal keeps only a member whose update saw it. -/
theorem Guarded.remove : Guarded map kid entries (view.remove map entry) := by
  constructor
  · intro member found
    exact guarded.given member (Option.filter_eq_some_iff.mp found).1
  intro member found
  obtain ⟨current, sawEntry⟩ := Option.filter_eq_some_iff.mp found
  exact List.forall_mem_append.mpr ⟨guarded.seen member current, List.forall_mem_singleton.mpr sawEntry⟩

/-- An update becomes the member only when it saw every recorded removal. -/
theorem Guarded.update (entryIn : entry ∈ entries) (inside : access ∈ entry.change.access) (same : access.user = kid)
    (some : access.access ≠ AccessType.noAccess) : Guarded map kid entries (view.update map entry access) := by
  unfold View.update
  split
  · exact guarded
  rename_i standing
  split
  · constructor
    · rintro member ⟨rfl⟩
      exact ⟨entry, entryIn, inside, same, some, rfl, rfl⟩
    · rintro member ⟨rfl⟩ removal recorded
      simp only [defeated, List.any_eq_true, not_exists, not_and, Bool.not_eq_true, Bool.not_eq_false'] at standing
      exact standing removal recorded
  · exact guarded

theorem Guarded.apply (entryIn : entry ∈ entries) (inside : access ∈ entry.change.access) (same : access.user = kid) :
    Guarded map kid entries (view.apply map entry access) := by
  unfold View.apply
  split
  · exact guarded.remove
  · exact guarded.update entryIn inside same ‹_›

/-- The access rights of an entry keep the view guarded. -/
theorem Guarded.foldl_apply {accesses : List UserAccess} (entryIn : entry ∈ entries)
    (own : ∀ access ∈ accesses, access ∈ entry.change.access ∧ access.user = kid) :
    Guarded map kid entries (accesses.foldl (View.apply map entry) view) := by
  induction accesses generalizing view with
  | nil => exact guarded
  | cons access rest ih =>
    obtain ⟨inside, same⟩ := own access (by simp)
    rw [List.foldl_cons]
    exact ih (guarded.apply entryIn inside same) fun other otherIn => own other (by simp [otherIn])

theorem Guarded.more : Guarded map kid (entries ++ [entry]) view := by
  constructor
  · intro member found
    obtain ⟨given, inside, rest⟩ := guarded.given member found
    exact ⟨given, by simp [inside], rest⟩
  · exact guarded.seen

end

end Step

section Changes

variable {map : ParentMap} {kid : PublicKeyId} {entries : List UserChangeEntry} {entry : UserChangeEntry}

variable (map kid entries)

/-- Changes in any order guard each user. -/
theorem guarded_run : Guarded map kid entries (View.run map kid entries) := by
  induction entries using List.reverseRecOn with
  | nil => exact ⟨by simp [View.run], by simp [View.run]⟩
  | append_singleton entries entry ih =>
    rw [View.run_append_singleton]
    exact ih.more.foldl_apply (by simp) fun access listed => by simpa using listed

theorem recorded_run : Recorded kid entries (View.run map kid entries) := by
  induction entries using List.reverseRecOn with
  | nil => simp [Recorded, View.run]
  | append_singleton entries entry ih =>
    rw [View.run_append_singleton]
    exact recorded_change ih

variable {map kid entries} {kept : ParentMap} {accesses : List UserAccess} {view : View}

/-- The change that made the member saw every removal of the user. -/
theorem effective_of_member {member : MemberState} (found : (View.run map kid entries).member = some member) :
    ∃ entry ∈ entries, member.access ∈ entry.change.access ∧ member.access.user = kid ∧
      member.access.access ≠ AccessType.noAccess ∧ Effective map kid entries entry := by
  have guarded := guarded_run map kid entries
  obtain ⟨entry, inside, given, same, some, _, parent⟩ := guarded.given member found
  refine ⟨entry, inside, given, same, some, ⟨_, given, same, some⟩, fun removal removalIn removes => ?_⟩
  obtain ⟨kept, keptIn, sameTag⟩ := (recorded_run map kid entries removal.tag).mpr ⟨removal, removalIn, removes, rfl⟩
  have seen := guarded.seen member found kept keptIn
  rwa [sameTag, parent] at seen

/-- No update of the user saw a removal of the user at its own place or behind it. -/
def InTurn (map : ParentMap) (kid : PublicKeyId) (entries : List UserChangeEntry) : Prop :=
  entries.Pairwise (fun earlier later => Updates kid earlier → Removes kid later → ¬ Before map later earlier) ∧
    ∀ entry ∈ entries, Updates kid entry → Removes kid entry → ¬ Before map entry entry

theorem InTurn.sublist {part : List UserChangeEntry} (inTurn : InTurn map kid entries) (sub : part.Sublist entries) :
    InTurn map kid part :=
  ⟨inTurn.1.sublist sub, fun entry inside => inTurn.2 entry (sub.subset inside)⟩

/-- Changes in causal order are in turn for every user. -/
theorem inTurn_of_inOrder (irreflexive : ∀ entry ∈ entries, ¬ Before map entry entry)
    (ordered : Contest.InOrder (Before map) entries) (kid : PublicKeyId) : InTurn map kid entries :=
  ⟨ordered.imp fun unseen _ _ => unseen, fun entry inside _ _ => irreflexive entry inside⟩

/-- Updates leave a member, or make one when no removal defeats them. -/
theorem View.isSome_foldl_apply (updates : ∀ access ∈ accesses, access.access ≠ AccessType.noAccess) (view : View) :
    (accesses.foldl (View.apply map entry) view).member.isSome = true ↔
      view.member.isSome = true ∨ accesses ≠ [] ∧ defeated map view.removals entry = false := by
  induction accesses generalizing view with
  | nil => simp
  | cons access rest ih =>
    have first := updates access (by simp)
    rw [List.foldl_cons, ih fun other inside => updates other (by simp [inside])]
    simp only [View.apply, if_neg first, View.update]
    cases beaten : defeated map view.removals entry with
    | true => simp [beaten]
    | false =>
      cases held : view.member with
      | none => simp
      | some member => by_cases wins : wins map member entry = true <;> simp [wins, held]

/-- In turn a user is left as a member exactly when an update is effective. -/
theorem isSome_run_iff (inTurn : InTurn map kid entries) : (View.run map kid entries).member.isSome = true ↔
    ∃ entry ∈ entries, Effective map kid entries entry := by
  constructor
  · intro found
    obtain ⟨member, found⟩ := Option.isSome_iff_exists.mp found
    obtain ⟨entry, inside, _, _, _, effective⟩ := effective_of_member found
    exact ⟨entry, inside, effective⟩
  induction entries using List.reverseRecOn with
  | nil => simp
  | append_singleton entries entry ih =>
    intro effective
    obtain ⟨other, inside, updates, past⟩ := effective
    -- An update that saw every removal leaves none for the last change to make.
    have keeps : ¬ Removes kid entry := by
      intro removes
      have seen := past entry (by simp) removes
      obtain old | rfl := List.mem_append.mp inside |>.imp_right List.mem_singleton.mp
      · exact (List.pairwise_append.mp inTurn.1).2.2 other old entry (by simp) updates removes seen
      · exact inTurn.2 _ (by simp) updates removes seen
    have earlier := (effective_append_iff keeps other).mp ⟨updates, past⟩
    rw [View.run_append_singleton, View.change, View.isSome_foldl_apply]
    · obtain old | rfl := List.mem_append.mp inside |>.imp_right List.mem_singleton.mp
      · exact Or.inl (ih (inTurn.sublist (List.sublist_append_left _ _)) ⟨other, old, earlier⟩)
      · refine Or.inr ⟨?_, ?_⟩
        · obtain ⟨access, listed, same, _⟩ := updates
          exact List.ne_nil_of_mem (List.mem_filter.mpr ⟨listed, decide_eq_true same⟩)
        · rw [defeated, List.any_eq_false]
          intro removal removalIn
          obtain ⟨source, sourceIn, removes, same⟩ := (recorded_run map kid entries _).mp ⟨removal, removalIn, rfl⟩
          have seen := earlier.2 source sourceIn removes
          rw [Before, same] at seen
          simp [seen]
    · intro access listed none
      exact keeps (removes_iff_filter.mpr ⟨access, listed, none⟩)

/-- The change states something about the user. -/
def Names (kid : PublicKeyId) (entry : UserChangeEntry) : Prop :=
  ∃ access ∈ entry.change.access, access.user = kid

theorem Updates.names (updates : Updates kid entry) : Names kid entry := by
  obtain ⟨access, inside, same, _⟩ := updates
  exact ⟨access, inside, same⟩

theorem Removes.names (removes : Removes kid entry) : Names kid entry := by
  obtain ⟨access, inside, same, _⟩ := removes
  exact ⟨access, inside, same⟩

theorem View.change_of_not_names (unnamed : ¬ Names kid entry) (view : View) : view.change map kid entry = view := by
  have none : (entry.change.access.filter fun access => access.user = kid) = [] := by
    refine List.filter_eq_nil_iff.mpr fun access inside same => unnamed ⟨access, inside, ?_⟩
    simpa using same
  rw [View.change, none, List.foldl_nil]

/-- Changes that do not name the user may be left out. -/
theorem View.run_append_of_unnamed {earlier : List UserChangeEntry} (unnamed : ∀ entry ∈ earlier, ¬ Names kid entry) :
    View.run map kid (earlier ++ entries) = View.run map kid entries := by
  have nothing : View.run map kid earlier = ⟨none, []⟩ := by
    induction earlier using List.reverseRecOn with
    | nil => rfl
    | append_singleton earlier entry ih =>
      rw [View.run_append_singleton, View.change_of_not_names (unnamed entry (by simp)),
        ih fun other inside => unnamed other (by simp [inside])]
  simp only [View.run] at nothing
  simp [View.run, nothing]

/-- Changes that name the user are in the past of each other in one map when they are in the other. -/
def SameLinks (map kept : ParentMap) (kid : PublicKeyId) (entries : List UserChangeEntry) : Prop :=
  ∀ first ∈ entries, Names kid first → ∀ second ∈ entries, Names kid second →
    saw first.tag second.parentSpecial kept = saw first.tag second.parentSpecial map

/-- An access right does the same to a view whose member and removals have the same links to the change. -/
theorem View.apply_congr {access : UserAccess}
    (member : ∀ member, view.member = some member →
      saw entry.tag member.parentSpecial kept = saw entry.tag member.parentSpecial map ∧
      saw member.tag entry.parentSpecial kept = saw member.tag entry.parentSpecial map)
    (removals : ∀ removal ∈ view.removals,
      saw removal.tag entry.parentSpecial kept = saw removal.tag entry.parentSpecial map) :
    view.apply kept entry access = view.apply map entry access := by
  have beaten : defeated kept view.removals entry = defeated map view.removals entry := by
    unfold defeated
    rw [Bool.eq_iff_iff, List.any_eq_true, List.any_eq_true]
    grind
  unfold View.apply View.remove View.update
  rw [beaten]
  cases held : view.member with
  | none => simp
  | some current =>
    obtain ⟨left, right⟩ := member current held
    simp [Option.filter, wins, left, right]

theorem SameLinks.foldl_apply (links : SameLinks map kept kid entries) (inside : entry ∈ entries)
    (listed : ∀ access ∈ accesses, access ∈ entry.change.access ∧ access.user = kid)
    (guarded : Guarded map kid entries view)
    (known : ∀ removal ∈ view.removals, ∃ source ∈ entries, Names kid source ∧ source.tag = removal.tag) :
    accesses.foldl (View.apply kept entry) view = accesses.foldl (View.apply map entry) view := by
  induction accesses generalizing view with
  | nil => rfl
  | cons access rest ih =>
    obtain ⟨given, same⟩ := listed access (by simp)
    have named : Names kid entry := ⟨access, given, same⟩
    have equal : view.apply kept entry access = view.apply map entry access := by
      refine View.apply_congr ?_ ?_
      · intro member found
        obtain ⟨source, sourceIn, update, user, _, tag, parent⟩ := guarded.given member found
        rw [tag, parent]
        exact ⟨links entry inside named source sourceIn ⟨_, update, user⟩,
          links source sourceIn ⟨_, update, user⟩ entry inside named⟩
      · intro removal removalIn
        obtain ⟨source, sourceIn, sourceNamed, tag⟩ := known removal removalIn
        rw [← tag]
        exact links source sourceIn sourceNamed entry inside named
    rw [List.foldl_cons, List.foldl_cons, equal]
    refine ih (fun other otherIn => listed other (by simp [otherIn])) (guarded.apply inside given same) ?_
    intro removal removalIn
    rw [View.apply_removals] at removalIn
    split at removalIn
    · obtain old | rfl := List.mem_append.mp removalIn |>.imp_right List.mem_singleton.mp
      · exact known removal old
      · exact ⟨entry, inside, named, rfl⟩
    · exact known removal (by simpa using removalIn)

/-- The same links between the changes of the user give the same view. -/
theorem SameLinks.run_eq (links : SameLinks map kept kid entries) :
    View.run kept kid entries = View.run map kid entries := by
  induction entries using List.reverseRecOn with
  | nil => rfl
  | append_singleton entries entry ih =>
    have earlier := ih fun first firstIn named second secondIn =>
      links first (by simp [firstIn]) named second (by simp [secondIn])
    rw [View.run_append_singleton, View.run_append_singleton, earlier]
    refine links.foldl_apply (by simp) (fun access listed => by simpa using listed) (guarded_run map kid entries).more ?_
    intro removal removalIn
    obtain ⟨source, sourceIn, removes, tag⟩ := (recorded_run map kid entries _).mp ⟨removal, removalIn, rfl⟩
    exact ⟨source, by simp [sourceIn], removes.names, tag⟩

end Changes

section Merge

variable {map : ParentMap} {entries : List UserChangeEntry}

theorem user_of_member {kid : PublicKeyId} {member : MemberState}
    (found : ((foldEntries map entries).view kid).member = some member) : member.access.user = kid := by
  rw [view_foldEntries] at found
  obtain ⟨_, _, _, same, _⟩ := effective_of_member found
  exact same

/-- The users of the merge are those that the changes from the last full one on leave as members. -/
theorem mem_users_iff (user : UserId) : user ∈ (mergeUserChanges entries map).map UserAccess.user ↔
    (View.run map user (current entries)).member.isSome = true := by
  rw [← view_foldEntries]
  simp only [mergeUserChanges, List.mem_map, List.mem_insertionSort]
  constructor
  · intro inside
    obtain ⟨_, ⟨⟨kid, member⟩, listed, rfl⟩, rfl⟩ := inside
    have found : ((foldEntries map entries).view kid).member = some member := AList.mem_lookup_iff.mpr listed
    rw [user_of_member found, found]
    rfl
  · intro found
    obtain ⟨member, found⟩ := Option.isSome_iff_exists.mp found
    exact ⟨_, ⟨⟨user, member⟩, AList.mem_lookup_iff.mp found, rfl⟩, user_of_member found⟩

/-- The users of the merge come in the order of their identifiers, each once. -/
theorem users_strict : ((mergeUserChanges entries map).map UserAccess.user).Pairwise (· < ·) := by
  have named : ∀ member ∈ (foldEntries map entries).members.entries, member.2.access.user = member.1 :=
    fun _ inside => user_of_member (AList.mem_lookup_iff.mpr inside)
  unfold mergeUserChanges
  rw [List.map_map, List.pairwise_map]
  have sorted := List.pairwise_insertionSort
    (fun left right : Sigma fun _ : PublicKeyId => MemberState => left.1 ≤ right.1) (foldEntries map entries).members.entries
  have distinct : (((foldEntries map entries).members.entries.insertionSort
      fun left right => left.1 ≤ right.1).map Sigma.fst).Nodup :=
    ((List.perm_insertionSort _ _).map Sigma.fst).nodup_iff.mpr (foldEntries map entries).members.nodupKeys
  refine (sorted.and (List.pairwise_map.mp distinct)).imp_of_mem fun {left right} leftIn rightIn both => ?_
  rw [Function.comp_apply, Function.comp_apply, named left ((List.mem_insertionSort _).mp leftIn),
    named right ((List.mem_insertionSort _).mp rightIn)]
  exact lt_of_le_of_ne both.1 both.2

end Merge

/-- A full change at the end hides what comes before. -/
theorem current_append (below above : List UserChangeEntry) : current (below ++ above) =
    if ∃ entry ∈ above, entry.change.mode = .full then current above else current below ++ above := by
  induction above using List.reverseRecOn with
  | nil => simp
  | append_singleton above entry ih =>
    rw [← List.append_assoc, current_append_singleton, current_append_singleton, ih]
    by_cases full : entry.change.mode = .full
    · have some : ∃ other ∈ above ++ [entry], other.change.mode = .full := ⟨entry, by simp, full⟩
      rw [if_pos full, if_pos some, if_pos full]
    by_cases earlier : ∃ other ∈ above, other.change.mode = .full
    · have some : ∃ other ∈ above ++ [entry], other.change.mode = .full := by
        obtain ⟨other, inside, mode⟩ := earlier
        exact ⟨other, by simp [inside], mode⟩
      rw [if_neg full, if_pos earlier, if_pos some, if_neg full]
    · have none : ¬ ∃ other ∈ above ++ [entry], other.change.mode = .full := by
        intro found
        obtain ⟨other, inside, mode⟩ := found
        obtain old | rfl := List.mem_append.mp inside |>.imp_right List.mem_singleton.mp
        · exact earlier ⟨other, old, mode⟩
        · exact full mode
      rw [if_neg full, if_neg earlier, if_neg none, List.append_assoc]

/-- A user change below gives the user access with every removal there in its past, and none above removes
the user. -/
def StandsBelow (map : ParentMap) (kid : PublicKeyId) (below above : List UserChangeEntry) : Prop :=
  (∃ entry ∈ current below, Effective map kid (current below) entry) ∧ ∀ entry ∈ above, ¬ Removes kid entry

/-- What makes the changes above the cut keep the members: a full change, or for each user that stands below
an update above, and for each user with an effective update above one that also saw the removals below. -/
def KeepsMembers (map : ParentMap) (below above : List UserChangeEntry) : Prop :=
  (∃ entry ∈ above, entry.change.mode = .full) ∨ ∀ kid,
    (StandsBelow map kid below above → ∃ entry ∈ above, Updates kid entry) ∧
    ((∃ entry ∈ above, Effective map kid above entry) → StandsBelow map kid below above ∨
      ∃ entry ∈ above, Effective map kid (current below ++ above) entry)

/-- The changes above tell about the user what they tell in the whole history: their links are left, and a full
change stands above, no change below names the user, or the changes of the user are in turn. -/
structure Comparable (map kept : ParentMap) (below above : List UserChangeEntry) (kid : PublicKeyId) : Prop where
  links : SameLinks map kept kid (current above)
  inTurn : (∃ entry ∈ above, entry.change.mode = .full) ∨ (∀ entry ∈ current below, ¬ Names kid entry) ∨
    InTurn map kid (current below ++ above)

section Cut

variable {map kept : ParentMap} {below above : List UserChangeEntry} {kid : PublicKeyId}

/-- Changes in causal order whose links above are left are comparable. -/
theorem comparable_of_inOrder (links : ∀ first ∈ above, ∀ second ∈ above,
      saw first.tag second.parentSpecial kept = saw first.tag second.parentSpecial map)
    (irreflexive : ∀ entry ∈ below ++ above, ¬ Before map entry entry)
    (ordered : Contest.InOrder (Before map) (below ++ above)) (kid : PublicKeyId) :
    Comparable map kept below above kid := by
  have high := (current_suffix above).subset
  have low := List.Sublist.append (current_suffix below).sublist (List.Sublist.refl above)
  exact ⟨fun first firstIn _ second secondIn _ => links first (high firstIn) second (high secondIn),
    Or.inr (Or.inr ((inTurn_of_inOrder irreflexive ordered kid).sublist low))⟩

/-- Without a full change above, a user stands below or has an update above that saw every removal. -/
theorem InTurn.exists_effective_iff (inTurn : InTurn map kid (current below ++ above)) :
    (∃ entry ∈ current below ++ above, Effective map kid (current below ++ above) entry) ↔
      StandsBelow map kid below above ∨ ∃ entry ∈ above, Effective map kid (current below ++ above) entry := by
  constructor
  · intro found
    obtain ⟨entry, inside, updates, past⟩ := found
    obtain low | high := List.mem_append.mp inside
    · refine Or.inl ⟨⟨entry, low, updates, fun removal removalIn => past removal (by simp [removalIn])⟩, ?_⟩
      intro removal removalIn removes
      have before := past removal (by simp [removalIn]) removes
      exact (List.pairwise_append.mp inTurn.1).2.2 entry low removal removalIn updates removes before
    · exact Or.inr ⟨entry, high, updates, past⟩
  · intro found
    obtain ⟨⟨entry, low, updates, past⟩, unremoved⟩ | ⟨entry, high, effective⟩ := found
    · refine ⟨entry, by simp [low], updates, fun removal removalIn removes => ?_⟩
      obtain old | new := List.mem_append.mp removalIn
      · exact past removal old removes
      · exact absurd removes (unremoved removal new)
    · exact ⟨entry, by simp [high], effective⟩

/-- What keeps one user when no full change stands above. -/
def KeepsMember (map : ParentMap) (below above : List UserChangeEntry) (kid : PublicKeyId) : Prop :=
  (StandsBelow map kid below above → ∃ entry ∈ above, Updates kid entry) ∧
    ((∃ entry ∈ above, Effective map kid above entry) → StandsBelow map kid below above ∨
      ∃ entry ∈ above, Effective map kid (current below ++ above) entry)

/-- A user whom no change below names is kept. -/
theorem keepsMember_of_unnamed (unnamed : ∀ entry ∈ current below, ¬ Names kid entry) :
    KeepsMember map below above kid := by
  constructor
  · intro stands
    obtain ⟨⟨entry, inside, updates, _⟩, _⟩ := stands
    exact absurd updates.names (unnamed entry inside)
  · intro found
    obtain ⟨entry, inside, updates, past⟩ := found
    refine Or.inr ⟨entry, inside, updates, fun removal removalIn removes => ?_⟩
    obtain low | high := List.mem_append.mp removalIn
    · exact absurd removes.names (unnamed removal low)
    · exact past removal high removes

/-- In turn a user is a member of the changes above as of all changes exactly when the user is kept. -/
theorem InTurn.same_iff (inTurn : InTurn map kid (current below ++ above)) :
    ((∃ entry ∈ above, Effective map kid above entry) ↔
      ∃ entry ∈ current below ++ above, Effective map kid (current below ++ above) entry) ↔
    KeepsMember map below above kid := by
  rw [inTurn.exists_effective_iff]
  have fewer : (∃ entry ∈ above, Effective map kid (current below ++ above) entry) →
      ∃ entry ∈ above, Effective map kid above entry := by
    intro found
    obtain ⟨entry, inside, updates, past⟩ := found
    exact ⟨entry, inside, updates, fun removal removalIn => past removal (by simp [removalIn])⟩
  have updated (stands : StandsBelow map kid below above) :
      (∃ entry ∈ above, Effective map kid above entry) ↔ ∃ entry ∈ above, Updates kid entry := by
    constructor
    · intro found
      obtain ⟨entry, inside, updates, _⟩ := found
      exact ⟨entry, inside, updates⟩
    · intro found
      obtain ⟨entry, inside, updates⟩ := found
      exact ⟨entry, inside, updates, fun removal removalIn removes => absurd removes (stands.2 removal removalIn)⟩
  constructor
  · intro same
    exact ⟨fun stands => (updated stands).mp (same.mpr (Or.inl stands)), same.mp⟩
  intro keeps
  refine ⟨keeps.2, fun found => ?_⟩
  obtain stands | effective := found
  · exact (updated stands).mpr (keeps.1 stands)
  · exact fewer effective

/-- The changes above give the same users as all changes exactly when they keep the members. -/
theorem mem_users_same_iff (comparable : ∀ kid, Comparable map kept below above kid) :
    (∀ user, user ∈ (mergeUserChanges above kept).map UserAccess.user ↔
      user ∈ (mergeUserChanges (below ++ above) map).map UserAccess.user) ↔ KeepsMembers map below above := by
  have left (user : UserId) := (comparable user).links.run_eq
  have joined := current_append below above
  simp only [mem_users_iff, left]
  by_cases full : ∃ entry ∈ above, entry.change.mode = .full
  · rw [if_pos full] at joined
    have keeps : KeepsMembers map below above := Or.inl full
    simp only [joined, keeps, implies_true]
  · have all : current above = above := by
      have same := current_append [] above
      rwa [if_neg full] at same
    rw [if_neg full] at joined
    have keeps : KeepsMembers map below above ↔ ∀ kid, KeepsMember map below above kid := or_iff_right full
    rw [keeps, joined, all]
    refine forall_congr' fun kid => ?_
    obtain unnamed | inTurn := (comparable kid).inTurn.resolve_left full
    · rw [View.run_append_of_unnamed unnamed]
      exact iff_of_true Iff.rfl (keepsMember_of_unnamed unnamed)
    · rw [isSome_run_iff inTurn, isSome_run_iff (inTurn.sublist (List.sublist_append_right _ _))]
      exact inTurn.same_iff

theorem users_eq_iff (comparable : ∀ kid, Comparable map kept below above kid) :
    (mergeUserChanges above kept).map UserAccess.user = (mergeUserChanges (below ++ above) map).map UserAccess.user ↔
      KeepsMembers map below above := by
  rw [← mem_users_same_iff comparable]
  constructor
  · intro same user
    rw [same]
  · intro same
    exact List.Pairwise.eq_of_mem_iff users_strict users_strict same

end Cut

end SpSync.UserMerge
