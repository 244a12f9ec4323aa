import Mathlib.Data.List.Basic

namespace SpSync.Foundation.Dictionary

variable {Key Value : Type} [DecidableEq Key] {entries : List (Key × Value)} {key : Key}

def find (entries : List (Key × Value)) (key : Key) : Option Value :=
  (entries.find? fun entry => entry.1 = key).map Prod.snd

/-- The value under the key changes; a key without a value gets the start value first. -/
def change (before : Key → Key → Bool) (start : Value) (key : Key) (update : Value → Value)
    (entries : List (Key × Value)) : List (Key × Value) :=
  if entries.any fun entry => entry.1 = key then
    entries.map fun entry => if entry.1 = key then (key, update entry.2) else entry
  else
    entries.takeWhile (fun entry => before entry.1 key) ++
      (key, update start) :: entries.dropWhile fun entry => before entry.1 key

def erase (entries : List (Key × Value)) (key : Key) : List (Key × Value) :=
  entries.filter fun entry => entry.1 ≠ key

theorem mem_of_find {value : Value} (found : find entries key = some value) : (key, value) ∈ entries := by
  obtain ⟨entry, first, rfl⟩ := Option.map_eq_some_iff.mp found
  have same : entry.1 = key := by simpa using List.find?_some first
  subst same
  exact List.mem_of_find?_eq_some first

theorem find_eq_none_iff : find entries key = none ↔ key ∉ entries.map Prod.fst := by
  simp only [find, Option.map_eq_none_iff, List.find?_eq_none, List.mem_map, decide_eq_true_iff]
  grind

/-- The changed value stands under its key. -/
theorem find_change (before : Key → Key → Bool) (start : Value) (key : Key) (update : Value → Value)
    (entries : List (Key × Value)) :
    find (change before start key update entries) key = some (update ((find entries key).getD start)) := by
  unfold find change
  split
  · rename_i known
    obtain ⟨entry, inside, same⟩ := List.any_eq_true.mp known
    cases found : entries.find? fun entry => entry.1 = key with
    | none => exact absurd same (List.find?_eq_none.mp found entry inside)
    | some first =>
      have named : first.1 = key := by simpa using List.find?_some found
      rw [List.find?_map]
      have same : ((fun entry : Key × Value => decide (entry.1 = key)) ∘
          fun entry => if entry.1 = key then (key, update entry.2) else entry) =
            fun entry => decide (entry.1 = key) := by
        funext entry
        by_cases here : entry.1 = key <;> simp [here]
      rw [same, found]
      simp [named]
  · rename_i unknown
    have absent : ∀ entry ∈ entries, entry.1 ≠ key := fun entry inside same =>
      unknown (List.any_eq_true.mpr ⟨entry, inside, decide_eq_true same⟩)
    have behind : (entries.takeWhile fun entry => before entry.1 key).find? (fun entry => entry.1 = key) = none := by
      refine List.find?_eq_none.mpr fun entry inside => ?_
      simpa using absent entry ((List.takeWhile_sublist _).subset inside)
    have missing : (entries.find? fun entry => entry.1 = key) = none :=
      List.find?_eq_none.mpr fun entry inside => by simpa using absent entry inside
    rw [List.find?_append, behind, missing]
    simp

end SpSync.Foundation.Dictionary
