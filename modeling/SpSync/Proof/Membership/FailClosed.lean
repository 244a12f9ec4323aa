import SpSync.Proof.Membership.CutMerge

namespace SpSync.UserMerge

open Foundation

/-- Whatever the order of the changes, every access right of the merge is one that some change gives, and that
change has every removal of its user in its causal past; in a causal order the members are exactly the users with
such a change. -/
theorem mergeUserChanges_failClosed (map : ParentMap) {entries : List UserChangeEntry}
    (deltaMode : ∀ entry ∈ entries, entry.change.mode = .delta) :
    (∀ access ∈ mergeUserChanges entries map, access.access ≠ AccessType.noAccess ∧
      ∃ entry ∈ entries, access ∈ entry.change.access ∧
        ∀ removal ∈ entries, Removes access.user removal → Before map removal entry) ∧
    ((∀ entry ∈ entries, ¬ Before map entry entry) → Contest.InOrder (Before map) entries →
      ∀ user, user ∈ (mergeUserChanges entries map).map UserAccess.user ↔
        ∃ entry ∈ entries, Updates user entry ∧
          ∀ removal ∈ entries, Removes user removal → Before map removal entry) := by
  constructor
  · intro access listed
    simp only [mergeUserChanges, List.mem_map, List.mem_insertionSort] at listed
    obtain ⟨⟨kid, member⟩, inside, rfl⟩ := listed
    have found : ((foldEntries map entries).view kid).member = some member := AList.mem_lookup_iff.mpr inside
    rw [view_foldEntries, current_of_delta deltaMode] at found
    obtain ⟨entry, entryIn, given, rfl, some, effective⟩ := effective_of_member found
    exact ⟨some, entry, entryIn, given, effective.2⟩
  · intro irreflexive ordered user
    rw [mem_users_iff, current_of_delta deltaMode, isSome_run_iff (inTurn_of_inOrder irreflexive ordered user)]
    rfl

/-- A user is added, removed and invited again by a change that saw the removal. -/
def reinvited : List UserChangeEntry :=
  [grant [1] [] AccessType.dataReadAccess, grant [2] [1] AccessType.noAccess, grant [3] [2] AccessType.allAccess]

def reinvitedMap : ParentMap where
  entries := [([1], []), ([2], [1]), ([3], [2])]
  distinctKeys := by decide

theorem mergeUserChanges_failClosed_reinvited :
    (∀ access ∈ mergeUserChanges reinvited reinvitedMap, access.access ≠ AccessType.noAccess) ∧
    (∃ entry ∈ reinvited, Updates [9] entry ∧
      ∀ removal ∈ reinvited, Removes [9] removal → Before reinvitedMap removal entry) := by
  obtain ⟨given, members⟩ := mergeUserChanges_failClosed reinvitedMap (show ∀ entry ∈ reinvited, _ by decide)
  exact ⟨fun access listed => (given access listed).1, (members (by decide) (by decide) [9]).mp (by decide)⟩

end SpSync.UserMerge
