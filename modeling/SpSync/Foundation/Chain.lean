import Mathlib.Data.List.Nodup
import Mathlib.Data.List.Range

namespace SpSync.Foundation

variable {Item Link : Type}

/-- How the items of a chain are numbered, named and linked. -/
structure Linking (Item Link : Type) where
  rank : Item → Nat
  name : Item → Link
  parent : Item → Link
  root : Link

/-- The link that the next item has to carry. -/
def Linking.tip (linking : Linking Item Link) (items : List Item) : Link :=
  items.getLast?.elim linking.root linking.name

/-- Every item has the next number and is linked to the item before it. -/
inductive Chain (linking : Linking Item Link) : List Item → Prop
  | nil : Chain linking []
  | snoc {items : List Item} {item : Item} (before : Chain linking items)
      (next : linking.rank item = items.length + 1) (link : linking.parent item = linking.tip items) :
      Chain linking (items ++ [item])

namespace Chain

variable {linking : Linking Item Link} {items : List Item} {item : Item}

theorem tip_append (linking : Linking Item Link) (items : List Item) (item : Item) :
    linking.tip (items ++ [item]) = linking.name item := by
  simp [Linking.tip]

section

variable (chain : Chain linking items)
include chain

theorem ranks : items.map linking.rank = List.range' 1 items.length := by
  induction chain with
  | nil => rfl
  | snoc before next link ih =>
    rw [List.map_append, ih, List.length_append, List.length_singleton, List.range'_concat]
    simp [next, Nat.add_comm]

theorem mem_ranks_iff {rank : Nat} : (∃ item ∈ items, linking.rank item = rank) ↔ 1 ≤ rank ∧ rank ≤ items.length := by
  rw [← List.mem_map, chain.ranks, List.mem_range']
  constructor
  · intro found
    obtain ⟨index, inside, rfl⟩ := found
    omega
  · intro bounds
    exact ⟨rank - 1, by omega, by omega⟩

theorem rank_bounds (inside : item ∈ items) : 1 ≤ linking.rank item ∧ linking.rank item ≤ items.length :=
  chain.mem_ranks_iff.mp ⟨item, inside, rfl⟩

theorem ranks_nodup : (items.map linking.rank).Nodup := by
  rw [chain.ranks]
  exact List.nodup_range'

theorem item_eq_of_rank {left right : Item} (leftIn : left ∈ items) (rightIn : right ∈ items)
    (same : linking.rank left = linking.rank right) : left = right :=
  List.inj_on_of_nodup_map chain.ranks_nodup leftIn rightIn same

/-- The item of the highest number names the tip. -/
theorem name_of_last (inside : item ∈ items) (last : linking.rank item = items.length) :
    linking.name item = linking.tip items := by
  cases chain with
  | nil => cases inside
  | snoc before next link =>
    rename_i rest newest
    have whole : Chain linking (rest ++ [newest]) := .snoc before next link
    have same : linking.rank item = linking.rank newest := by
      rw [last, next]
      simp
    rw [whole.item_eq_of_rank inside (by simp) same, tip_append]

/-- The first item is linked to the root. -/
theorem parent_of_first (inside : item ∈ items) (first : linking.rank item = 1) :
    linking.parent item = linking.root := by
  induction chain with
  | nil => cases inside
  | snoc before newestRank link ih =>
    rename_i rest newest
    rw [List.mem_append, List.mem_singleton] at inside
    obtain old | rfl := inside
    · exact ih old
    · have empty : rest = [] := List.length_eq_zero_iff.mp (by omega)
      rw [link, empty]
      rfl

end

end Chain

end SpSync.Foundation
