import Mathlib.Data.List.Sort
import Mathlib.Order.MinMax

namespace SpSync.Foundation.Ranking

variable {Item Value : Type} (rank : Item → Nat)

def inOrder (items : List Item) : List Item :=
  items.insertionSort fun left right => rank left ≤ rank right

/-- The item of the highest rank. -/
def newest (items : List Item) : Option Item :=
  (inOrder rank items).getLast?

/-- The highest rank, or zero. -/
def highest (items : List Item) : Nat :=
  items.foldl (fun top item => max top (rank item)) 0

variable {rank} {items left right : List Item} {top item : Item} {bound : Nat} {order : Value → Nat} {view : Item → Value}

theorem mem_inOrder : item ∈ inOrder rank items ↔ item ∈ items :=
  List.mem_insertionSort _

theorem sorted_inOrder (items : List Item) :
    (inOrder rank items).Pairwise fun left right => rank left ≤ rank right :=
  have : Std.Total fun left right : Item => rank left ≤ rank right := ⟨fun _ _ => Nat.le_total _ _⟩
  have : IsTrans Item fun left right => rank left ≤ rank right := ⟨fun _ _ _ => Nat.le_trans⟩
  List.pairwise_insertionSort _ items

theorem mem_of_newest (found : newest rank items = some top) : top ∈ items :=
  mem_inOrder.mp (List.mem_of_getLast? found)

theorem le_of_newest (found : newest rank items = some top) (inside : item ∈ items) : rank item ≤ rank top := by
  obtain ⟨before, order⟩ := List.getLast?_eq_some_iff.mp found
  have sorted : (inOrder rank items).Pairwise fun left right => rank left ≤ rank right := sorted_inOrder items
  have place : item ∈ inOrder rank items := mem_inOrder.mpr inside
  rw [order] at sorted place
  obtain early | last := List.mem_append.mp place
  · exact (List.pairwise_append.mp sorted).2.2 item early top List.mem_cons_self
  · rw [List.mem_singleton.mp last]

theorem newest_eq_none_iff : newest rank items = none ↔ items = [] := by
  rw [newest, List.getLast?_eq_none_iff]
  constructor
  · intro empty
    have perm := List.perm_insertionSort (fun left right : Item => rank left ≤ rank right) items
    rw [← inOrder, empty] at perm
    exact List.nil_perm.mp perm
  · intro empty
    rw [empty]
    rfl

/-- The first item in order has the lowest rank. -/
theorem lowest_of_head {first : Item} (found : (inOrder rank items).head? = some first) :
    first ∈ items ∧ ∀ item ∈ items, rank first ≤ rank item := by
  obtain ⟨others, order⟩ := List.head?_eq_some_iff.mp found
  have sorted : (inOrder rank items).Pairwise fun left right => rank left ≤ rank right := sorted_inOrder items
  refine ⟨mem_inOrder.mp (List.mem_of_head? found), fun item inside => ?_⟩
  have place : item ∈ inOrder rank items := mem_inOrder.mpr inside
  rw [order] at sorted place
  obtain rfl | later := List.mem_cons.mp place
  · exact Nat.le_refl _
  · exact (List.pairwise_cons.mp sorted).1 item later

/-- Distinct ranks leave one newest item. -/
theorem newest_eq_some_iff (distinct : (items.map rank).Nodup) :
    newest rank items = some top ↔ top ∈ items ∧ ∀ item ∈ items, rank item ≤ rank top := by
  constructor
  · intro found
    exact ⟨mem_of_newest found, fun item => le_of_newest found⟩
  intro highest
  obtain ⟨inside, above⟩ := highest
  cases found : newest rank items with
  | none => simp [newest_eq_none_iff.mp found] at inside
  | some other =>
    have same : rank other = rank top :=
      Nat.le_antisymm (above other (mem_of_newest found)) (le_of_newest found inside)
    rw [List.inj_on_of_nodup_map distinct (mem_of_newest found) inside same]

theorem foldl_max_le_iff (start : Nat) (items : List Item) :
    items.foldl (fun top item => max top (rank item)) start ≤ bound ↔
      start ≤ bound ∧ ∀ item ∈ items, rank item ≤ bound := by
  induction items generalizing start with
  | nil => simp
  | cons first rest ih => rw [List.foldl_cons, ih, List.forall_mem_cons, Nat.max_le, and_assoc]

theorem highest_le (each : ∀ item ∈ items, rank item ≤ bound) : highest rank items ≤ bound :=
  (foldl_max_le_iff 0 items).mpr ⟨Nat.zero_le _, each⟩

theorem le_highest (inside : item ∈ items) : rank item ≤ highest rank items :=
  ((foldl_max_le_iff 0 items).mp (Nat.le_refl _)).2 item inside

/-- The highest rank is the one of the newest item. -/
theorem highest_eq (items : List Item) : highest rank items = (newest rank items).elim 0 rank := by
  cases found : newest rank items with
  | none =>
    rw [newest_eq_none_iff.mp found]
    rfl
  | some top =>
    exact Nat.le_antisymm (highest_le fun item => le_of_newest found) (le_highest (mem_of_newest found))

/-- Views that tell the items apart by their ranks come in a strict order. -/
theorem strict_inOrder (ranks : ∀ item, rank item = order (view item)) (distinct : (items.map rank).Nodup) :
    ((inOrder rank items).map view).Pairwise fun first second => order first < order second := by
  have apart : (inOrder rank items).Pairwise fun first second => rank first ≠ rank second := by
    have sortedDistinct : ((inOrder rank items).map rank).Nodup :=
      ((List.perm_insertionSort _ items).map rank).nodup_iff.mpr distinct
    exact List.pairwise_map.mp sortedDistinct
  refine List.pairwise_map.mpr (((sorted_inOrder items).and apart).imp ?_)
  intro first second both
  rw [← ranks, ← ranks]
  exact Nat.lt_of_le_of_ne both.1 both.2

/-- In a strict order an item stands behind those of a lower rank. -/
theorem getElem?_of_strict {sorted : List Item}
    (strict : sorted.Pairwise fun first second => rank first < rank second) (inside : item ∈ sorted) :
    sorted[sorted.countP fun other => rank other < rank item]? = some item := by
  induction sorted with
  | nil => cases inside
  | cons first rest ih =>
    obtain ⟨above, later⟩ := List.pairwise_cons.mp strict
    obtain rfl | behind := List.mem_cons.mp inside
    · have none : (item :: rest).countP (fun other => rank other < rank item) = 0 := by
        refine List.countP_eq_zero.mpr (List.forall_mem_cons.mpr ⟨by simp, fun other found => ?_⟩)
        simpa using Nat.le_of_lt (above other found)
      rw [none]
      rfl
    · rw [List.countP_cons, if_pos (by simpa using above item behind), List.getElem?_cons_succ]
      exact ih later behind

/-- An item stands behind those of a lower rank. -/
theorem getElem?_inOrder (distinct : (items.map rank).Nodup) (inside : item ∈ items) :
    (inOrder rank items)[items.countP fun other => rank other < rank item]? = some item := by
  have strict : (inOrder rank items).Pairwise fun first second => rank first < rank second := by
    rw [← List.map_id (inOrder rank items)]
    exact strict_inOrder (fun _ => rfl) distinct
  rw [← (List.perm_insertionSort (fun left right : Item => rank left ≤ rank right) items).countP_eq]
  exact getElem?_of_strict strict (mem_inOrder.mpr inside)

/-- Lists in a strict order are given by their members. -/
theorem eq_of_strict {left right : List Value}
    (leftStrict : left.Pairwise fun first second => order first < order second)
    (rightStrict : right.Pairwise fun first second => order first < order second)
    (same : ∀ value, value ∈ left ↔ value ∈ right) : left = right := by
  have : Std.Antisymm fun first second : Value => order first < order second :=
    ⟨fun _ _ less greater => absurd less (Nat.lt_asymm greater)⟩
  have : Std.Irrefl fun first second : Value => order first < order second := ⟨fun _ => Nat.lt_irrefl _⟩
  exact List.Pairwise.eq_of_mem_iff leftStrict rightStrict same

section

variable (ranks : ∀ item, rank item = order (view item)) (leftDistinct : (left.map rank).Nodup)
  (rightDistinct : (right.map rank).Nodup) (same : ∀ value, value ∈ left.map view ↔ value ∈ right.map view)
include ranks leftDistinct rightDistinct same

/-- Lists with the same views, told apart by their ranks, are the same in order. -/
theorem inOrder_view_eq : (inOrder rank left).map view = (inOrder rank right).map view := by
  refine eq_of_strict (strict_inOrder ranks leftDistinct) (strict_inOrder ranks rightDistinct) ?_
  intro value
  simp only [List.mem_map, mem_inOrder] at same ⊢
  exact same value

theorem newest_view_eq : (newest rank left).map view = (newest rank right).map view := by
  have orders := congrArg List.getLast? (inOrder_view_eq ranks leftDistinct rightDistinct same)
  simpa only [newest, List.getLast?_map] using orders

end

/-- Items whose ranks climb from above one number up to another are no more than their distance. -/
theorem length_le_of_climbing {rank : Item → Nat} {low high : Nat}
    (climbing : items.Pairwise fun earlier later => rank earlier < rank later)
    (above : ∀ item ∈ items, low < rank item) (within : ∀ item ∈ items, rank item ≤ high) :
    items.length ≤ high - low := by
  induction items generalizing low with
  | nil => exact Nat.zero_le _
  | cons item rest ih =>
    obtain ⟨first, climbs⟩ := List.pairwise_cons.mp climbing
    have shorter := ih climbs first fun later inside => within later (List.mem_cons_of_mem _ inside)
    have higher := above item List.mem_cons_self
    have lower := within item List.mem_cons_self
    rw [List.length_cons]
    omega

end SpSync.Foundation.Ranking
