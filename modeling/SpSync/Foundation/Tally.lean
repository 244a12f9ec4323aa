import Mathlib.Data.List.AList
import Mathlib.Data.List.Induction
import Mathlib.Data.List.Perm.Subperm

namespace SpSync.Foundation

/-- The numbers that are counted for some keys. -/
abbrev Tally (Key : Type) := AList fun _ : Key => Nat

namespace Tally

variable {Key Item : Type} [DecidableEq Key] {count : Nat}

/-- One more for the key, which starts from zero. -/
def increment (tally : Tally Key) (key : Key) : Tally Key :=
  tally.insert key ((tally.lookup key).getD 0 + 1)

/-- Every key of the list is counted as often as it is in the list, and no other key is. -/
theorem lookup_foldl_increment (keys : List Key) {key : Key} :
    (keys.foldl increment ∅).lookup key = some count ↔ 0 < count ∧ keys.count key = count := by
  have counted : ((keys.foldl increment ∅).lookup key).getD 0 = keys.count key ∧
      (keys.foldl increment ∅).lookup key ≠ some 0 := by
    induction keys using List.reverseRecOn with
    | nil => simp
    | append_singleton keys last ih =>
      rw [List.foldl_append, List.foldl_cons, List.foldl_nil, increment]
      by_cases same : key = last
      · subst same
        simp [ih.1]
      · rw [AList.lookup_insert_ne same]
        simpa [Ne.symm same] using ih
  cases found : (keys.foldl increment ∅).lookup key with
  | none =>
    rw [found, Option.getD_none] at counted
    rw [← counted.1]
    simp only [reduceCtorEq, false_iff, not_and]
    omega
  | some number =>
    rw [found, Option.getD_some] at counted
    have positive : number ≠ 0 := fun zero => counted.2 (congrArg some zero)
    rw [← counted.1, Option.some.injEq]
    omega

theorem nodup_eraseDups [BEq Item] [LawfulBEq Item] (items : List Item) : items.eraseDups.Nodup := by
  induction length : items.length using Nat.strong_induction_on generalizing items with
  | _ length ih =>
    cases items with
    | nil => simp
    | cons first rest =>
      rw [List.eraseDups_cons, List.nodup_cons, List.mem_eraseDups]
      refine ⟨by simp, ih _ ?_ _ rfl⟩
      have bounded := List.length_filter_le (fun other => !other == first) rest
      rw [List.length_cons] at length
      omega

/-- A list without repetitions reaches the length of a list that includes it when it has all its items. -/
theorem length_eq_iff {part whole : List Item} (partNodup : part.Nodup) (wholeNodup : whole.Nodup)
    (sub : part ⊆ whole) : part.length = whole.length ↔ whole ⊆ part := by
  constructor
  · intro same
    exact ((partNodup.subperm sub).perm_of_length_le (Nat.le_of_eq same.symm)).symm.subset
  · intro all
    exact Nat.le_antisymm (partNodup.subperm sub).length_le (wholeNodup.subperm all).length_le

/-- The items that are left after the first ones that meet a condition have at least as many such items before
them. -/
theorem mem_drop_filter_iff {items : List Item} {condition : Item → Bool} {item : Item} :
    item ∈ (items.filter condition).drop count ↔ condition item = true ∧
      ∃ before after, items = before ++ item :: after ∧ count ≤ before.countP condition := by
  constructor
  · intro inside
    have long := List.length_pos_of_mem inside
    obtain ⟨earlier, later, split⟩ := List.append_of_mem inside
    have whole : items.filter condition = ((items.filter condition).take count ++ earlier) ++ item :: later := by
      rw [List.append_assoc, ← split, List.take_append_drop]
    obtain ⟨front, back, rfl, frontMeets, backMeets⟩ := List.filter_eq_append_iff.mp whole
    obtain ⟨skipped, after, rfl, -, holds, -⟩ := List.filter_eq_cons_iff.mp backMeets
    refine ⟨holds, front ++ skipped, after, (List.append_assoc ..).symm, ?_⟩
    rw [List.length_drop] at long
    rw [List.countP_append, List.countP_eq_length_filter, frontMeets, List.length_append, List.length_take]
    omega
  · rintro ⟨holds, before, after, rfl, enough⟩
    rw [List.countP_eq_length_filter] at enough
    rw [List.filter_append, List.filter_cons_of_pos holds, List.drop_append_of_le_length enough]
    exact List.mem_append_right _ List.mem_cons_self

end Tally

end SpSync.Foundation
