import Mathlib.Data.List.Basic

namespace SpSync.Foundation.Intervals

/-- The numbers from the first to the last. -/
theorem mem_range'_iff {first last value : Nat} :
    value ∈ List.range' first (last + 1 - first) ↔ first ≤ value ∧ value ≤ last := by
  rw [List.mem_range'_1]
  omega

/-- A number is below, at or above another one. -/
theorem countP_around {pivot last value : Nat} (pivotPositive : 0 < pivot) (positive : 0 < value)
    (bound : value ≤ last) : [(1, pivot - 1), (pivot, pivot), (pivot + 1, last)].countP
      (fun span => span.1 ≤ value && value ≤ span.2) = 1 := by
  simp only [List.countP_cons, List.countP_nil, Bool.and_eq_true, decide_eq_true_eq]
  obtain less | equal | more := Nat.lt_trichotomy value pivot
  · rw [if_neg, if_neg, if_pos] <;> omega
  · rw [if_neg, if_pos, if_neg] <;> omega
  · rw [if_pos, if_neg, if_neg] <;> omega

variable {Item : Type} (first last : Item → Nat)

/-- Every range begins where the one before ends. -/
def Consecutive : Nat → List Item → Prop
  | _, [] => True
  | start, item :: rest => first item = start ∧ Consecutive (last item) rest

/-- The end of the last range. -/
def finish : Nat → List Item → Nat
  | start, [] => start
  | _, item :: rest => finish (last item) rest

variable {first last} {items : List Item} {start : Nat}

theorem finish_append (items : List Item) (start : Nat) (item : Item) :
    finish last start (items ++ [item]) = last item := by
  induction items generalizing start with
  | nil => rfl
  | cons head rest ih => exact ih _

section

variable (consecutive : Consecutive first last start items)
include consecutive

/-- A range that begins at the end continues the ranges. -/
theorem Consecutive.append {item : Item} (next : first item = finish last start items) :
    Consecutive first last start (items ++ [item]) := by
  induction items generalizing start with
  | nil => exact ⟨next, trivial⟩
  | cons head rest ih => exact ⟨consecutive.1, ih consecutive.2 next⟩

section

variable (proper : ∀ item ∈ items, first item < last item)
include proper

/-- The ranges are between the start and the end. -/
theorem Consecutive.bounds :
    start ≤ finish last start items ∧ ∀ item ∈ items, start ≤ first item ∧ last item ≤ finish last start items := by
  induction items generalizing start with
  | nil => exact ⟨Nat.le_refl _, List.forall_mem_nil _⟩
  | cons head rest ih =>
    obtain ⟨rfl, chain⟩ := consecutive
    obtain ⟨headProper, later⟩ := List.forall_mem_cons.mp proper
    obtain ⟨above, each⟩ := ih chain later
    rw [finish]
    refine ⟨by omega, List.forall_mem_cons.mpr ⟨⟨Nat.le_refl _, above⟩, fun item inside => ?_⟩⟩
    have between := each item inside
    omega

/-- A number from the start to the end is in exactly one range, and any other one is in none. -/
theorem Consecutive.countP_eq (value : Nat) : items.countP (fun item => first item ≤ value && value < last item) =
    if start ≤ value ∧ value < finish last start items then 1 else 0 := by
  induction items generalizing start with
  | nil =>
    rw [finish, if_neg (by omega)]
    rfl
  | cons head rest ih =>
    obtain ⟨rfl, chain⟩ := consecutive
    obtain ⟨headProper, later⟩ := List.forall_mem_cons.mp proper
    have above := (chain.bounds later).1
    rw [List.countP_cons, ih chain later, finish]
    simp only [Bool.and_eq_true, decide_eq_true_eq]
    split <;> split <;> split <;> omega

end

end

/-- Every range ends where the one before begins, unless that one begins at zero. -/
def Descends (first last : Item → Nat) : Nat → List Item → Prop
  | _, [] => True
  | stop, item :: rest => (stop = 0 ∨ last item = stop) ∧ first item < last item ∧ Descends first last (first item) rest

theorem Descends.proper {stop : Nat} (descends : Descends first last stop items) :
    ∀ item ∈ items, first item < last item := by
  induction items generalizing stop with
  | nil => simp
  | cons head rest ih => exact List.forall_mem_cons.mpr ⟨descends.2.1, ih descends.2.2⟩

/-- Down to the first range that begins at zero, or down to the last one, the ranges are consecutive. -/
theorem Descends.consecutive {stop : Nat} {head : Item} {rest : List Item}
    (descends : Descends first last stop (head :: rest)) :
    ∃ front back lowest, head :: rest = front ++ back ∧ Consecutive first last lowest front.reverse ∧
      finish last lowest front.reverse = last head ∧
      (lowest = 0 ∨ (back = [] ∧ ∃ item ∈ (head :: rest).getLast?, lowest = first item)) := by
  induction rest generalizing head stop with
  | nil => exact ⟨[head], [], first head, rfl, ⟨rfl, trivial⟩, rfl, Or.inr ⟨rfl, head, rfl, rfl⟩⟩
  | cons next rest ih =>
    by_cases zero : first head = 0
    · exact ⟨[head], next :: rest, 0, rfl, ⟨zero, trivial⟩, rfl, Or.inl rfl⟩
    obtain ⟨front, back, lowest, split, chain, finished, ends⟩ := ih descends.2.2
    have joined : last next = first head := descends.2.2.1.resolve_left zero
    refine ⟨head :: front, back, lowest, by rw [split, List.cons_append], ?_, ?_, ?_⟩
    · rw [List.reverse_cons]
      exact chain.append (finished.trans joined).symm
    · rw [List.reverse_cons, finish_append]
    · rwa [List.getLast?_cons_cons]

/-- How often a number is met: below the pivot, from the top on, and in the ranges. -/
def meets (first last : Item → Nat) (pivot : Option Nat) (top : Nat) (items : List Item) (value : Nat) : Nat :=
  (pivot.elim 0 fun limit => if 1 ≤ value ∧ value ≤ limit - 1 then 1 else 0) + (if top ≤ value then 1 else 0) +
    items.countP fun item => first item ≤ value && value < last item

/-- Ranges that descend from the top to one, or to anywhere with a pivot, miss no number or meet none twice. -/
theorem Descends.sided {stop : Nat} {head : Item} {rest : List Item} {pivot : Option Nat}
    (descends : Descends first last stop (head :: rest))
    (ends : (∃ item ∈ (head :: rest).getLast?, first item = 1) ∨ pivot.isSome = true) :
    (∀ value, 0 < value → 1 ≤ meets first last pivot (last head) (head :: rest) value) ∨
      ∀ value, 0 < value → meets first last pivot (last head) (head :: rest) value ≤ 1 := by
  obtain ⟨front, back, lowest, split, chain, finished, reaches⟩ := descends.consecutive
  have proper : ∀ item ∈ front.reverse, first item < last item := by
    intro item inside
    apply descends.proper
    rw [split]
    exact List.mem_append_left _ (List.mem_reverse.mp inside)
  have count (value : Nat) := chain.countP_eq proper value
  simp only [List.countP_reverse, finished] at count
  -- From the lowest start on, a number is in a range or above all of them.
  have covered : ∀ value, lowest ≤ value → 1 ≤ meets first last pivot (last head) (head :: rest) value := by
    intro value low
    rw [meets, split, List.countP_append, count]
    split <;> split <;> omega
  obtain rfl | ⟨rfl, item, isLast, rfl⟩ := reaches
  · exact Or.inl fun value _ => covered value (Nat.zero_le _)
  obtain ⟨other, alsoLast, one⟩ | anchored := ends
  · obtain rfl : item = other := Option.mem_unique isLast alsoLast
    exact Or.inl fun value positive => covered value (by omega)
  obtain ⟨limit, rfl⟩ := Option.isSome_iff_exists.mp anchored
  by_cases joined : first item ≤ limit
  · refine Or.inl fun value positive => ?_
    by_cases low : first item ≤ value
    · exact covered value low
    · have below : 1 ≤ value ∧ value ≤ limit - 1 := by omega
      simp only [meets, Option.elim_some, if_pos below]
      omega
  · refine Or.inr fun value positive => ?_
    rw [List.append_nil] at split
    have bound := finished ▸ (chain.bounds proper).1
    rw [meets, split, count, Option.elim_some]
    split <;> split <;> split <;> omega

/-- Consecutive ranges from the pivot, or from one, to the top meet every number once. -/
theorem Consecutive.meets_eq_one {items : List Item} {pivot : Option Nat}
    (consecutive : Consecutive first last (pivot.getD 1) items.reverse)
    (proper : ∀ item ∈ items, first item < last item) {value : Nat} (positive : 0 < value) :
    meets first last pivot (finish last (pivot.getD 1) items.reverse) items value = 1 := by
  have each : ∀ item ∈ items.reverse, first item < last item :=
    fun item inside => proper item (List.mem_reverse.mp inside)
  have bound := (consecutive.bounds each).1
  rw [meets, ← List.countP_reverse, consecutive.countP_eq each]
  cases pivot with
  | none =>
    simp only [Option.elim_none, Option.getD_none] at bound ⊢
    split <;> split <;> omega
  | some limit =>
    simp only [Option.elim_some, Option.getD_some] at bound ⊢
    split <;> split <;> split <;> omega

end SpSync.Foundation.Intervals
