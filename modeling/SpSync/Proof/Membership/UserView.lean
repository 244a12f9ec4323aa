import SpSync.Proof.Membership.CausalPast

namespace SpSync.UserMerge

/-- What the fold state records about one user. -/
structure View where
  member : Option MemberState
  removals : List Removal

def FoldState.view (state : FoldState) (kid : PublicKeyId) : View :=
  ⟨state.members.lookup kid, (state.removals.lookup kid).getD []⟩

def View.remove (map : ParentMap) (entry : UserChangeEntry) (view : View) : View :=
  { member := view.member.filter fun member => saw entry.tag member.parentSpecial map
    removals := view.removals ++ [⟨entry.tag, entry.parentSpecial⟩] }

def View.update (map : ParentMap) (entry : UserChangeEntry) (view : View) (access : UserAccess) : View :=
  if defeated map view.removals entry then view
  else if view.member.all fun member => wins map member entry then
    { view with member := some ⟨access, entry.tag, entry.parentSpecial⟩ }
  else view

def View.apply (map : ParentMap) (entry : UserChangeEntry) (view : View) (access : UserAccess) : View :=
  if access.access = AccessType.noAccess then view.remove map entry else view.update map entry access

@[simp]
theorem view_empty (kid : PublicKeyId) : ({} : FoldState).view kid = ⟨none, []⟩ := rfl

theorem view_applyRemoval (map : ParentMap) (user kid : PublicKeyId) (entry : UserChangeEntry)
    (state : FoldState) :
    (applyRemoval map user entry state).view kid =
      if user = kid then (state.view kid).remove map entry else state.view kid := by
  by_cases same : user = kid
  · subst same
    cases found : state.members.lookup user with
    | none => simp [applyRemoval, FoldState.view, View.remove, found]
    | some member =>
      by_cases seen : saw entry.tag member.parentSpecial map = true <;>
        simp [applyRemoval, FoldState.view, View.remove, found, seen, Option.filter]
  · have other : kid ≠ user := fun equal => same equal.symm
    cases found : state.members.lookup user with
    | none => simp [applyRemoval, FoldState.view, found, same, AList.lookup_insert_ne other]
    | some member =>
      by_cases seen : saw entry.tag member.parentSpecial map = true <;>
        simp [applyRemoval, FoldState.view, found, seen, same, AList.lookup_insert_ne other,
          AList.lookup_erase_ne other]

theorem view_applyUpdate (map : ParentMap) (user kid : PublicKeyId) (access : UserAccess)
    (entry : UserChangeEntry) (state : FoldState) :
    (applyUpdate map user access entry state).view kid =
      if user = kid then (state.view kid).update map entry access else state.view kid := by
  by_cases same : user = kid
  · subst same
    by_cases beaten : defeated map ((state.removals.lookup user).getD []) entry = true
    · simp [applyUpdate, FoldState.view, View.update, beaten]
    cases found : state.members.lookup user with
    | none => simp [applyUpdate, FoldState.view, View.update, beaten, found]
    | some member =>
      by_cases winner : wins map member entry = true <;>
        simp [applyUpdate, FoldState.view, View.update, beaten, found, winner]
  · have other : kid ≠ user := fun equal => same equal.symm
    by_cases beaten : defeated map ((state.removals.lookup user).getD []) entry = true
    · simp [applyUpdate, beaten, same]
    cases found : state.members.lookup user with
    | none =>
      simp [applyUpdate, FoldState.view, beaten, found, same, AList.lookup_insert_ne other]
    | some member =>
      by_cases winner : wins map member entry = true <;>
        simp [applyUpdate, FoldState.view, beaten, found, winner, same, AList.lookup_insert_ne other]

/-- The access rights of other users do not touch the view. -/
theorem view_foldl_applyAccess (map : ParentMap) (kid : PublicKeyId) (entry : UserChangeEntry)
    (accesses : List UserAccess) (state : FoldState) :
    (accesses.foldl (applyAccess map entry) state).view kid =
      (accesses.filter fun access => access.user = kid).foldl (View.apply map entry) (state.view kid) := by
  induction accesses generalizing state with
  | nil => rfl
  | cons access rest ih =>
    rw [List.foldl_cons, ih]
    by_cases same : access.user = kid <;> by_cases removal : access.access = AccessType.noAccess <;>
      simp [applyAccess, View.apply, view_applyRemoval, view_applyUpdate, same, removal]

/-- The view after the access rights that one change states about the user. -/
def View.change (map : ParentMap) (kid : PublicKeyId) (view : View) (entry : UserChangeEntry) : View :=
  (entry.change.access.filter fun access => access.user = kid).foldl (View.apply map entry) view

/-- The view after changes none of which subsumes the earlier ones. -/
def View.run (map : ParentMap) (kid : PublicKeyId) (entries : List UserChangeEntry) : View :=
  entries.foldl (View.change map kid) ⟨none, []⟩

theorem View.run_append_singleton (map : ParentMap) (kid : PublicKeyId) (entries : List UserChangeEntry)
    (entry : UserChangeEntry) :
    View.run map kid (entries ++ [entry]) = (View.run map kid entries).change map kid entry := by
  simp [View.run]

section Entry

variable {map : ParentMap} {entry : UserChangeEntry} {access : UserAccess}

/-- The member of the view has not seen the entry. -/
def View.Unseen (map : ParentMap) (entry : UserChangeEntry) (view : View) : Prop :=
  ∀ member, view.member = some member → saw entry.tag member.parentSpecial map = false

theorem View.remove_of_unseen {view : View} (unseen : view.Unseen map entry) :
    view.remove map entry = ⟨none, view.removals ++ [⟨entry.tag, entry.parentSpecial⟩]⟩ := by
  unfold View.remove
  cases found : view.member with
  | none => rfl
  | some member => simp [Option.filter, unseen member found]

theorem View.update_unseen {view : View} (unseen : view.Unseen map entry) (notSelf : ¬ Before map entry entry) :
    (view.update map entry access).Unseen map entry := by
  unfold View.update
  split
  · exact unseen
  split
  · rintro member ⟨rfl⟩
    simpa [Before] using notSelf
  · exact unseen

theorem View.apply_unseen {view : View} (unseen : view.Unseen map entry) (notSelf : ¬ Before map entry entry) :
    (view.apply map entry access).Unseen map entry := by
  unfold View.apply
  split
  · rw [View.remove_of_unseen unseen]
    rintro member ⟨⟩
  · exact View.update_unseen unseen notSelf

/-- An access right only adds removals that carry the tag of its entry. -/
theorem View.apply_removals (view : View) (access : UserAccess) :
    (view.apply map entry access).removals = view.removals ++
      if access.access = AccessType.noAccess then [⟨entry.tag, entry.parentSpecial⟩] else [] := by
  unfold View.apply View.remove View.update
  split
  · rfl
  · split
    · simp
    · split <;> simp

theorem View.foldl_apply_removals (accesses : List UserAccess) (view : View) (tag : RecordTag) :
    (∃ removal ∈ (accesses.foldl (View.apply map entry) view).removals, removal.tag = tag) ↔
      (∃ removal ∈ view.removals, removal.tag = tag) ∨
        (entry.tag = tag ∧ ∃ access ∈ accesses, access.access = AccessType.noAccess) := by
  induction accesses generalizing view with
  | nil => simp
  | cons access rest ih =>
    rw [List.foldl_cons, ih, View.apply_removals]
    by_cases removal : access.access = AccessType.noAccess
    · simp only [removal, if_true, List.mem_append, List.mem_cons]
      grind
    · simp only [removal, if_false, List.append_nil, List.mem_cons]
      grind

/-- A removal recorded by the entry itself defeats its further updates. -/
theorem View.update_of_own_removal {view : View} (notSelf : ¬ Before map entry entry)
    (recorded : ∃ removal ∈ view.removals, removal.tag = entry.tag) : view.update map entry access = view := by
  obtain ⟨removal, inside, same⟩ := recorded
  have beaten : defeated map view.removals entry = true := by
    refine List.any_eq_true.mpr ⟨removal, inside, ?_⟩
    simpa [Before, same] using notSelf
  simp [View.update, beaten]

/-- After an entry that removes the user, no member is left. -/
theorem View.foldl_apply_of_removal {accesses : List UserAccess} {view : View}
    (unseen : view.Unseen map entry) (notSelf : ¬ Before map entry entry)
    (removes : (∃ access ∈ accesses, access.access = AccessType.noAccess) ∨
      (view.member = none ∧ ∃ removal ∈ view.removals, removal.tag = entry.tag)) :
    (accesses.foldl (View.apply map entry) view).member = none := by
  induction accesses generalizing view with
  | nil => simpa using removes.resolve_left (by simp) |>.1
  | cons access rest ih =>
    rw [List.foldl_cons]
    apply ih (View.apply_unseen unseen notSelf)
    by_cases removal : access.access = AccessType.noAccess
    · right
      simp [View.apply, removal, View.remove_of_unseen unseen]
    rcases removes with ⟨other, inside, gone⟩ | ⟨none, recorded⟩
    · left
      rcases List.mem_cons.mp inside with rfl | later
      · exact absurd gone removal
      · exact ⟨other, later, gone⟩
    · right
      simp only [View.apply, removal, if_false]
      rw [View.update_of_own_removal notSelf recorded]
      exact ⟨none, recorded⟩

/-- A second update of the same entry changes nothing. -/
theorem View.update_update (notSelf : ¬ Before map entry entry) (view : View) (first second : UserAccess) :
    (view.update map entry first).update map entry second = view.update map entry first := by
  by_cases beaten : defeated map view.removals entry = true
  · simp [View.update, beaten]
  by_cases winner : (view.member.all fun member => wins map member entry) = true
  · have loses : wins map ⟨first, entry.tag, entry.parentSpecial⟩ entry = false := by
      have unseen : saw entry.tag entry.parentSpecial map = false := by simpa [Before] using notSelf
      simp [wins, unseen]
    simp [View.update, beaten, winner, loses]
  · simp [View.update, beaten, winner]

/-- An entry that only updates the user acts as its first update. -/
theorem View.foldl_apply_of_updates {rest : List UserAccess} {view : View} (notSelf : ¬ Before map entry entry)
    (updates : ∀ other ∈ access :: rest, other.access ≠ AccessType.noAccess) :
    (access :: rest).foldl (View.apply map entry) view = view.update map entry access := by
  have first : access.access ≠ AccessType.noAccess := updates access (by simp)
  have later : ∀ other ∈ rest, other.access ≠ AccessType.noAccess := fun other inside =>
    updates other (by simp [inside])
  clear updates
  rw [List.foldl_cons, View.apply, if_neg first]
  induction rest with
  | nil => rfl
  | cons other rest ih =>
    rw [List.foldl_cons, View.apply, if_neg (later other (by simp)), View.update_update notSelf]
    exact ih fun another inside => later another (by simp [inside])

end Entry

end SpSync.UserMerge
