import Mathlib.Algebra.BigOperators.Group.List.Basic
import Mathlib.Algebra.GroupWithZero.Nat
import Mathlib.Data.List.Infix
import Mathlib.Data.List.TakeDrop

namespace SpSync.Foundation.Budget

variable {Item : Type} (cost : Item → Nat) (budget : Nat)

def total (items : List Item) : Nat :=
  (items.map cost).sum

/-- The item joins the batch while the batch is short or the budget allows it. -/
def append (least : Nat) (batch : List Item × Nat) (item : Item) : List Item × Nat :=
  if batch.1.length < least ∨ batch.2 + cost item ≤ budget then (batch.1 ++ [item], batch.2 + cost item)
  else batch

/-- The batch of all items that join in turn. -/
def batch (least : Nat) (items : List Item) : List Item :=
  (items.foldl (append cost budget least) ([], 0)).1

/-- The items that still fit, each after those taken before it. -/
def fill : Nat → List Item → List Item
  | _, [] => []
  | used, item :: rest =>
      if used + cost item ≤ budget then item :: fill (used + cost item) rest else fill used rest

/-- Where one item does not fit, no later item fits either. -/
def Tapered (used : Nat) (items : List Item) : Prop :=
  ∀ (first : Nat) (second : Fin items.length), first < second →
    budget < used + total cost (items.take (first + 1)) →
      budget < used + total cost (items.take first) + cost (items.get second)

/-- Where an item after the least number does not fit, no later item fits either. -/
def TaperedFrom (least : Nat) (items : List Item) : Prop :=
  ∀ (first : Nat) (second : Fin items.length), least ≤ first → first < second →
    budget < total cost (items.take (first + 1)) →
      budget < total cost (items.take first) + cost (items.get second)

variable {cost budget} {items : List Item} {used least : Nat}

@[simp]
theorem total_nil : total cost [] = 0 := rfl

@[simp]
theorem total_cons (item : Item) (items : List Item) : total cost (item :: items) = cost item + total cost items := by
  simp [total]

@[simp]
theorem total_append (items others : List Item) :
    total cost (items ++ others) = total cost items + total cost others := by
  simp [total]

theorem foldl_append_of_full {taken : List Item} (full : least ≤ taken.length) :
    (items.foldl (append cost budget least) (taken, used)).1 = taken ++ fill cost budget used items := by
  induction items generalizing taken used with
  | nil => simp [fill]
  | cons item rest ih =>
    have notShort : ¬ taken.length < least := by omega
    by_cases fits : used + cost item ≤ budget
    · rw [List.foldl_cons, append, if_pos (Or.inr fits), ih (by simp; omega)]
      simp [fill, fits]
    · rw [List.foldl_cons, append, if_neg (by simp [notShort, fits]), ih full]
      simp [fill, fits]

/-- A batch takes the least number of items and then fills what the budget leaves. -/
theorem batch_eq (least : Nat) (items : List Item) :
    batch cost budget least items =
      items.take least ++ fill cost budget (total cost (items.take least)) (items.drop least) := by
  have general : ∀ (missing : Nat) (taken rest : List Item), taken.length + missing = least →
      (rest.foldl (append cost budget least) (taken, total cost taken)).1 =
        taken ++ rest.take missing ++
          fill cost budget (total cost (taken ++ rest.take missing)) (rest.drop missing) := by
    intro missing
    induction missing with
    | zero =>
      intro taken rest whole
      simpa using foldl_append_of_full (by omega)
    | succ missing ih =>
      intro taken rest whole
      cases rest with
      | nil => simp [fill]
      | cons item rest =>
        have next := ih (taken ++ [item]) rest (by simp; omega)
        rw [List.foldl_cons, append, if_pos (Or.inl (by simp; omega))]
        simpa [add_assoc] using next
  simpa [batch] using general least [] items (by simp)

theorem fill_sublist (used : Nat) (items : List Item) : (fill cost budget used items).Sublist items := by
  induction items generalizing used with
  | nil => exact List.Sublist.slnil
  | cons item rest ih =>
    simp only [fill]
    split
    · exact (ih _).cons_cons item
    · exact (ih used).cons item

/-- Every taken item stays within the budget with all items taken before it. -/
theorem fill_within (used : Nat) (items : List Item) (count : Nat) (positive : 0 < count)
    (inside : count ≤ (fill cost budget used items).length) :
    used + total cost ((fill cost budget used items).take count) ≤ budget := by
  induction items generalizing used count with
  | nil => simp [fill] at inside; omega
  | cons item rest ih =>
    simp only [fill] at inside ⊢
    split at inside
    · rename_i fits
      rw [if_pos fits]
      cases count with
      | zero => omega
      | succ count =>
        rw [List.take_succ_cons, total_cons]
        cases count with
        | zero => simpa using fits
        | succ count =>
          have later := ih (used + cost item) (count + 1) (by omega) (by simpa using inside)
          omega
    · rename_i exceeds
      rw [if_neg exceeds]
      exact ih used count positive inside

/-- Every item of the filling fits on its own. -/
theorem fits_of_mem_fill {item : Item} (inside : item ∈ fill cost budget used items) : used + cost item ≤ budget := by
  induction items generalizing used with
  | nil => simp [fill] at inside
  | cons head rest ih =>
    simp only [fill] at inside
    split at inside
    · rename_i fits
      rcases List.mem_cons.mp inside with rfl | later
      · exact fits
      · have := ih later
        omega
    · exact ih inside

theorem fill_eq_nil_iff : fill cost budget used items = [] ↔ ∀ item ∈ items, budget < used + cost item := by
  induction items with
  | nil => simp [fill]
  | cons item rest ih =>
    by_cases fits : used + cost item ≤ budget
    · simp only [fill, fits, if_true, reduceCtorEq, false_iff]
      exact fun exceeds => absurd (exceeds item (by simp)) (not_lt.mpr fits)
    · simp [fill, fits, ih, Nat.lt_of_not_ge fits]

/-- The filling has no holes exactly when nothing fits after the first item that does not. -/
theorem fill_prefix_iff : fill cost budget used items <+: items ↔ Tapered cost budget used items := by
  induction items generalizing used with
  | nil => simp [fill, Tapered]
  | cons item rest ih =>
    by_cases fits : used + cost item ≤ budget
    · rw [fill, if_pos fits, List.prefix_cons_inj, ih]
      constructor
      · rintro tapered first ⟨second, inside⟩ less exceeds
        cases first with
        | zero => simp at exceeds; omega
        | succ first =>
          cases second with
          | zero => simp at less
          | succ second =>
            have later := tapered first ⟨second, by simpa using inside⟩ (by simpa using less)
              (by simpa [add_assoc] using exceeds)
            simpa [add_assoc] using later
      · rintro tapered first ⟨second, inside⟩ less exceeds
        have later := tapered (first + 1) ⟨second + 1, by simpa using inside⟩ (by simpa using less)
          (by simpa [add_assoc] using exceeds)
        simpa [add_assoc] using later
    · have exceeds : budget < used + cost item := Nat.lt_of_not_ge fits
      have empty : fill cost budget used (item :: rest) <+: item :: rest ↔ fill cost budget used rest = [] := by
        rw [fill, if_neg fits]
        constructor
        · intro isPrefix
          by_contra filled
          obtain ⟨head, tail, shape⟩ := List.exists_cons_of_ne_nil filled
          rw [shape] at isPrefix
          have same := (List.cons_prefix_cons.mp isPrefix).1
          have filledIn : head ∈ fill cost budget used rest := by simp [shape]
          have headFits := fits_of_mem_fill filledIn
          rw [same] at headFits
          omega
        · intro nothing
          simp [nothing]
      rw [empty, fill_eq_nil_iff]
      constructor
      · rintro none first ⟨second, inside⟩ less -
        cases first with
        | zero =>
          cases second with
          | zero => simp at less
          | succ second => simpa using none _ (List.get_mem rest ⟨second, by simpa using inside⟩)
        | succ first =>
          simp only [List.take_succ_cons, total_cons]
          omega
      · intro tapered other inside
        obtain ⟨index, rfl⟩ := List.mem_iff_get.mp inside
        simpa using tapered 0 index.succ (by simp) (by simpa using exceeds)

theorem tapered_drop_iff :
    Tapered cost budget (total cost (items.take least)) (items.drop least) ↔
      TaperedFrom cost budget least items := by
  have split : ∀ count, total cost (items.take least) + total cost ((items.drop least).take count) =
      total cost (items.take (least + count)) := by
    intro count
    rw [List.take_add, total_append]
  constructor
  · rintro tapered first ⟨second, inside⟩ low less exceeds
    obtain ⟨first, rfl⟩ := Nat.exists_eq_add_of_le low
    obtain ⟨second, rfl⟩ := Nat.exists_eq_add_of_le (low.trans (Nat.le_of_lt less))
    have later := tapered first ⟨second, by simp; omega⟩ (by simpa using less) (by rw [split]; exact exceeds)
    rw [split] at later
    simpa using later
  · rintro tapered first ⟨second, inside⟩ less exceeds
    simp only [List.length_drop] at inside
    rw [split] at exceeds ⊢
    have later := tapered (least + first) ⟨least + second, by omega⟩ (by omega)
      (by simpa using less) exceeds
    simpa using later

/-- A batch has no holes exactly when the items taper off where the budget ends. -/
theorem batch_prefix_iff : batch cost budget least items <+: items ↔ TaperedFrom cost budget least items := by
  have shape : ∀ tail, items.take least ++ tail <+: items ↔ tail <+: items.drop least := by
    intro tail
    have whole : items.take least ++ tail <+: items.take least ++ items.drop least ↔ tail <+: items.drop least :=
      List.prefix_append_right_inj (items.take least)
    rwa [List.take_append_drop] at whole
  rw [batch_eq, shape, fill_prefix_iff, tapered_drop_iff]

theorem batch_sublist (least : Nat) (items : List Item) : (batch cost budget least items).Sublist items := by
  rw [batch_eq]
  conv_rhs => rw [← List.take_append_drop least items]
  exact (fill_sublist _ _).append_left _

variable (cost budget) in
theorem length_batch_le (least : Nat) (items : List Item) :
    (batch cost budget least items).length ≤ items.length :=
  (batch_sublist least items).length_le

variable (cost budget) in
theorem length_batch (least : Nat) (items : List Item) :
    min least items.length ≤ (batch cost budget least items).length := by
  rw [batch_eq]
  simp

/-- Every entry after the least number keeps the batch within the budget. -/
theorem batch_within (least : Nat) (items : List Item) (count : Nat) (after : least < count)
    (inside : count ≤ (batch cost budget least items).length) :
    total cost ((batch cost budget least items).take count) ≤ budget := by
  rw [batch_eq] at inside ⊢
  by_cases short : items.length ≤ least
  · rw [List.drop_eq_nil_of_le short, List.take_of_length_le short] at inside
    simp [fill] at inside
    omega
  · have size : (items.take least).length = least := by simp; omega
    rw [List.take_append, size, List.take_of_length_le (by omega), total_append]
    apply fill_within _ _ _ (by omega)
    simp only [List.length_append, size] at inside
    omega

end SpSync.Foundation.Budget
