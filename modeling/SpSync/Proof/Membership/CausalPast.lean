import SpSync.Construction.Core.UserMerge
import SpSync.Foundation.Contest
import SpSync.Foundation.Walk

namespace SpSync.UserMerge

open Foundation

variable {map : ParentMap}

/-- The walk up the special tree meets the ancestor. -/
def Reaches (map : ParentMap) (start ancestor : RecordTag) : Prop :=
  Walk.Reaches map.parent [] start ancestor

/-- No special record is in its own causal past. -/
def Acyclic (map : ParentMap) : Prop :=
  ∀ tag, ¬ Reaches map (map.parent tag) tag

/-- The first entry is in the causal past of the second. -/
def Before (map : ParentMap) (first second : UserChangeEntry) : Prop :=
  saw first.tag second.parentSpecial map = true

instance (map : ParentMap) : DecidableRel (Before map) :=
  fun _ _ => inferInstanceAs (Decidable (_ = true))

/-- The entries are delta changes with distinct tags, and the acyclic map holds their parents. -/
@[mk_iff]
structure WellFormed (map : ParentMap) (entries : List UserChangeEntry) : Prop where
  distinctTags : (entries.map UserChangeEntry.tag).Nodup
  nonemptyTags : ∀ entry ∈ entries, entry.tag ≠ []
  deltaMode : ∀ entry ∈ entries, entry.change.mode = .delta
  agrees : ∀ entry ∈ entries, map.parent entry.tag = entry.parentSpecial
  acyclic : Acyclic map

theorem ParentMap.mem_keys_of_parent {tag : RecordTag} (present : map.parent tag ≠ []) :
    tag ∈ map.entries.map Prod.fst := by
  cases found : map.find tag with
  | none => simp [ParentMap.parent, found] at present
  | some parent =>
    obtain ⟨left, right, split⟩ := List.lookup_eq_some_iff.mp found
    simp [split.1]

/-- The guarded walk finds exactly the nodes within the guard. -/
theorem sawFrom_iff (map : ParentMap) (ancestor : RecordTag) (guard : Nat) (step : RecordTag) :
    sawFrom map ancestor guard step = true ↔
      ∃ steps < guard, Walk.ReachesIn map.parent [] steps step ancestor := by
  induction guard generalizing step with
  | zero => simp [sawFrom]
  | succ guard ih =>
    simp only [sawFrom]
    split
    · rename_i stopped
      simp only [Bool.false_eq_true, false_iff, not_exists, not_and]
      intro steps _ reached
      exact reached.1 0 (Nat.zero_le _) stopped
    · rename_i continues
      split
      · rename_i found
        simp only [true_iff]
        exact ⟨0, by omega, Walk.reachesIn_zero.mpr ⟨continues, found⟩⟩
      · rename_i other
        rw [ih]
        constructor
        · rintro ⟨steps, below, reached⟩
          exact ⟨steps + 1, by omega, Walk.reachesIn_succ.mpr ⟨continues, reached⟩⟩
        rintro ⟨steps, below, reached⟩
        cases steps with
        | zero => exact absurd (Walk.reachesIn_zero.mp reached).2 other
        | succ steps => exact ⟨steps, by omega, (Walk.reachesIn_succ.mp reached).2⟩

/-- The guard of the walk never cuts off an ancestor. -/
theorem saw_iff (ancestor fromParent : RecordTag) (map : ParentMap) :
    saw ancestor fromParent map = true ↔ Reaches map fromParent ancestor := by
  rw [saw, sawFrom_iff]
  constructor
  · rintro ⟨steps, -, reached⟩
    exact ⟨steps, reached⟩
  intro reached
  have continuing : ∀ tag, map.parent tag ≠ [] → tag ∈ map.entries.map Prod.fst :=
    fun tag => ParentMap.mem_keys_of_parent
  obtain ⟨steps, bounded, found⟩ := Walk.exists_reachesIn_le continuing reached
  exact ⟨steps, by simpa [ParentMap.size, Nat.lt_succ_iff] using bounded, found⟩

/-- The map has a parent for the tag, and neither of the two is empty. -/
def HasParent (map : ParentMap) (tag parent : RecordTag) : Prop :=
  tag ≠ [] ∧ map.find tag = some parent ∧ parent ≠ []

theorem leads_iff_hasParent (map : ParentMap) (tag parent : RecordTag) :
    Walk.Leads map.parent [] tag parent ↔ HasParent map tag parent := by
  refine and_congr_right fun _ => ?_
  unfold ParentMap.parent
  cases map.find tag with
  | none =>
    constructor
    · rintro ⟨empty, nonempty⟩
      exact absurd empty.symm nonempty
    · rintro ⟨absent, -⟩
      cases absent
  | some found => rw [Option.getD_some, Option.some.injEq]

/-- The walk meets an ancestor exactly when it starts there or comes there by the parents of the map. -/
theorem saw_iff_parents (ancestor start : RecordTag) (map : ParentMap) (nonempty : ancestor ≠ []) :
    saw ancestor start map = true ↔ ancestor = start ∨ Relation.TransGen (HasParent map) start ancestor := by
  have steps : Walk.Leads map.parent [] = HasParent map := by
    funext tag parent
    exact propext (leads_iff_hasParent map tag parent)
  rw [saw_iff, Reaches, Walk.reaches_iff_leads nonempty, steps, Relation.reflTransGen_iff_eq_or_transGen]

/-- Two tags that are each other's parents, and a third with a parent that the map does not have. -/
def cyclicMap : ParentMap :=
  ⟨[([1], [2]), ([2], [1]), ([3], [4])], by decide⟩

theorem saw_iff_parents_cyclic :
    (saw [1] [2] cyclicMap = true ↔ ([1] : RecordTag) = [2] ∨ Relation.TransGen (HasParent cyclicMap) [2] [1]) ∧
      saw [1] [2] cyclicMap = true ∧ saw [3] [2] cyclicMap = false ∧ saw [4] [3] cyclicMap = true :=
  ⟨saw_iff_parents [1] [2] cyclicMap (List.cons_ne_nil _ _), by decide, by decide, by decide⟩

/-- Only the tags of the map can be in their own causal past. -/
theorem acyclic_iff (map : ParentMap) :
    Acyclic map ↔ ∀ tag ∈ map.entries.map Prod.fst, saw tag (map.parent tag) map = false := by
  constructor
  · intro acyclic tag _
    rw [Bool.eq_false_iff, Ne, saw_iff]
    exact acyclic tag
  · intro unseen tag reached
    have continues : map.parent tag ≠ [] := by
      obtain ⟨steps, continues, -⟩ := reached
      exact continues 0 (Nat.zero_le _)
    have seen := (saw_iff tag (map.parent tag) map).mpr reached
    rw [unseen tag (ParentMap.mem_keys_of_parent continues)] at seen
    cases seen

instance (map : ParentMap) : Decidable (Acyclic map) :=
  decidable_of_iff _ (acyclic_iff map).symm

theorem before_iff {first second : UserChangeEntry} :
    Before map first second ↔ Reaches map second.parentSpecial first.tag :=
  saw_iff first.tag second.parentSpecial map

instance (map : ParentMap) (entries : List UserChangeEntry) : Decidable (WellFormed map entries) :=
  decidable_of_iff _ (wellFormed_iff map entries).symm

namespace WellFormed

variable {map : ParentMap} {entries : List UserChangeEntry}

section

variable (wellFormed : WellFormed map entries)
include wellFormed

theorem entry_eq_of_tag {first second : UserChangeEntry} (firstIn : first ∈ entries) (secondIn : second ∈ entries)
    (same : first.tag = second.tag) : first = second :=
  List.inj_on_of_nodup_map wellFormed.distinctTags firstIn secondIn same

theorem of_perm {others : List UserChangeEntry} (same : others.Perm entries) : WellFormed map others where
  distinctTags := (same.map UserChangeEntry.tag).nodup_iff.mpr wellFormed.distinctTags
  nonemptyTags entry inside := wellFormed.nonemptyTags entry (same.subset inside)
  deltaMode entry inside := wellFormed.deltaMode entry (same.subset inside)
  agrees entry inside := wellFormed.agrees entry (same.subset inside)
  acyclic := wellFormed.acyclic

/-- An entry never sees itself, whatever parent the map gives it. -/
theorem not_before_self {entry : UserChangeEntry} (inside : entry ∈ entries) : ¬ Before map entry entry := by
  rw [before_iff, ← wellFormed.agrees entry inside]
  exact wellFormed.acyclic entry.tag

/-- The causal past is a forest on the entries. -/
theorem causalForest : Contest.CausalForest (Before map) entries where
  irreflexive _ inside := wellFormed.not_before_self inside
  transitive first _ second secondIn third _ firstSecond secondThird := by
    rw [before_iff] at *
    rw [← wellFormed.agrees second secondIn] at firstSecond
    exact secondThird.trans (Walk.Reaches.step secondThird.target_ne firstSecond)
  linear first firstIn second secondIn third _ firstThird secondThird := by
    simp only [before_iff] at *
    rcases firstThird.linear secondThird with same | right | left
    · exact Or.inl (wellFormed.entry_eq_of_tag firstIn secondIn same)
    · right; right
      rwa [wellFormed.agrees first firstIn] at right
    · right; left
      rwa [wellFormed.agrees second secondIn] at left

theorem contestTags : Contest.DistinctTags UserChangeEntry.tag entries :=
  fun _ firstIn _ secondIn same => wellFormed.entry_eq_of_tag firstIn secondIn same

end

end WellFormed

end SpSync.UserMerge
