import Mathlib.Data.List.Basic
import Mathlib.Data.List.Nodup
import Mathlib.Data.List.Pairwise
import Mathlib.Data.List.Perm.Basic

namespace SpSync.Foundation.Table

variable {Row Value Entry : Type} {rows : List Row} {column : Row → Value} {row : Row} {left right : Row}
  {value : Value}

/-- A column without repetitions identifies its row. -/
theorem eq_of_column (distinct : rows.Pairwise fun first second => column first ≠ column second)
    (leftIn : left ∈ rows) (rightIn : right ∈ rows) (same : column left = column right) : left = right := by
  have nodup : (rows.map column).Nodup := List.pairwise_map.mpr distinct
  exact List.inj_on_of_nodup_map nodup leftIn rightIn same

/-- A column that repeats only its null value identifies the rows with other values. -/
theorem eq_of_nullable {null : Value}
    (distinct : rows.Pairwise fun first second => column first = null ∨ column first ≠ column second)
    (leftIn : left ∈ rows) (rightIn : right ∈ rows) (value : column left ≠ null) (same : column left = column right) :
    left = right := by
  have repeats : rows.Pairwise fun first second => column first = column second → column first = null :=
    distinct.imp fun either equal => either.resolve_right (not_not.mpr equal)
  have : Std.Symm fun first second => column first = column second → column first = null :=
    ⟨fun first second repeated equal => equal.trans (repeated equal.symm)⟩
  by_contra different
  exact value (repeats.forall leftIn rightIn different same)

/-- A search for what only one row passes finds that row. -/
theorem find?_eq_some_iff_of_unique {test : Row → Bool}
    (unique : ∀ left ∈ rows, ∀ right ∈ rows, test left = true → test right = true → left = right) :
    rows.find? test = some row ↔ row ∈ rows ∧ test row = true := by
  constructor
  · intro found
    exact ⟨List.mem_of_find?_eq_some found, List.find?_some found⟩
  rintro ⟨inside, passes⟩
  cases found : rows.find? test with
  | none => exact absurd passes (List.find?_eq_none.mp found row inside)
  | some other => rw [unique other (List.mem_of_find?_eq_some found) row inside (List.find?_some found) passes]

/-- A search by an identifying column finds the row. -/
theorem find?_eq_some_iff [DecidableEq Value]
    (distinct : rows.Pairwise fun first second => column first ≠ column second) :
    (rows.find? fun other => column other = value) = some row ↔ row ∈ rows ∧ column row = value := by
  rw [find?_eq_some_iff_of_unique, decide_eq_true_eq]
  intro left leftIn right rightIn leftSame rightSame
  exact eq_of_column distinct leftIn rightIn ((of_decide_eq_true leftSame).trans (of_decide_eq_true rightSame).symm)

theorem find?_eq_none_iff [DecidableEq Value] :
    (rows.find? fun other => column other = value) = none ↔ ∀ row ∈ rows, column row ≠ value := by
  simp

/-- One place of a list and what stands before and after it. -/
theorem split_at {place : Nat} (found : rows[place]? = some row) :
    ∃ front back, rows = front ++ row :: back ∧ ∀ next, rows.set place next = front ++ next :: back := by
  obtain ⟨inside, rfl⟩ := List.getElem?_eq_some_iff.mp found
  refine ⟨rows.take place, rows.drop (place + 1), ?_, fun next => ?_⟩
  · rw [← List.drop_eq_getElem_cons inside, List.take_append_drop]
  · rw [List.set_eq_take_append_cons_drop, if_pos inside]

/-- The row of a value in an identifying column stands between rows with other values. -/
theorem split_column [DecidableEq Value] (distinct : rows.Pairwise fun first second => column first ≠ column second)
    (inside : row ∈ rows) : ∃ front back, rows = front ++ row :: back ∧
      ∀ other ∈ front ++ back, column other ≠ column row := by
  obtain ⟨front, back, rfl⟩ := List.append_of_mem inside
  obtain ⟨-, behind, before⟩ := List.pairwise_append.mp distinct
  refine ⟨front, back, rfl, List.forall_mem_append.mpr ⟨fun other there => ?_, fun other there => ?_⟩⟩
  · exact before other there row List.mem_cons_self
  · exact ((List.pairwise_cons.mp behind).1 other there).symm

/-- Without the row of a value in an identifying column there are the rows before and after it. -/
theorem split_filter [DecidableEq Value] (distinct : rows.Pairwise fun first second => column first ≠ column second)
    (inside : row ∈ rows) :
    ∃ front back, rows = front ++ row :: back ∧ rows.filter (fun other => column other ≠ column row) = front ++ back := by
  obtain ⟨front, back, rfl, others⟩ := split_column distinct inside
  refine ⟨front, back, rfl, ?_⟩
  rw [List.filter_append, List.filter_cons_of_neg (by simp), ← List.filter_append]
  exact List.filter_eq_self.mpr fun other there => decide_eq_true (others other there)

/-- What the rows give to an index, without what some rows gave, is what the other rows give. -/
theorem filter_flatMap {entries : Row → List Entry} {owner : Entry → Value}
    (owned : ∀ row ∈ rows, ∀ entry ∈ entries row, owner entry = column row) (keep : Value → Bool) :
    ((rows.flatMap entries).filter fun entry => keep (owner entry)) =
      (rows.filter fun row => keep (column row)).flatMap entries := by
  induction rows with
  | nil => rfl
  | cons row rest ih =>
    have first := owned row List.mem_cons_self
    rw [List.flatMap_cons, List.filter_append, ih fun other inside => owned other (List.mem_cons_of_mem _ inside)]
    cases kept : keep (column row) with
    | true =>
      rw [List.filter_cons, if_pos kept, List.flatMap_cons, List.filter_eq_self.mpr]
      intro entry inside
      rw [first entry inside]
      exact kept
    | false =>
      rw [List.filter_cons, if_neg (Bool.eq_false_iff.mp kept), List.filter_eq_nil_iff.mpr, List.nil_append]
      intro entry inside
      rw [first entry inside, kept]
      exact Bool.false_ne_true

/-- A table in which one row is replaced has the other rows and the new one. -/
theorem map_replace_perm [DecidableEq Value]
    (distinct : rows.Pairwise fun first second => column first ≠ column second) (inside : row ∈ rows)
    (change : Row → Row) :
    (rows.map fun other => if column other = column row then change other else other).Perm
      ((rows.filter fun other => column other ≠ column row) ++ [change row]) := by
  obtain ⟨front, back, rfl, others⟩ := split_column distinct inside
  have kept (other : Row) (there : other ∈ front ++ back) :
      (if column other = column row then change other else other) = other := if_neg (others other there)
  rw [List.filter_append, List.filter_cons_of_neg (by simp), ← List.filter_append,
    List.filter_eq_self.mpr fun other there => decide_eq_true (others other there), List.map_append, List.map_cons,
    if_pos rfl]
  refine List.perm_middle.trans ((List.perm_append_singleton _ _).symm.trans ?_)
  rw [← List.map_append, List.map_congr_left kept, List.map_id']

/-- Rows that are settled one after the other are settled in one pass. -/
theorem foldl_filterMap [DecidableEq Value] {outcome : Row → Option Row}
    (same : ∀ row next, outcome row = some next → column next = column row) (settled : List Value)
    (distinct : settled.Nodup) (rows : List Row) :
    settled.foldl (fun rows value => rows.filterMap fun row => if column row = value then outcome row else some row)
      rows = rows.filterMap fun row => if column row ∈ settled then outcome row else some row := by
  induction settled generalizing rows with
  | nil => simp
  | cons value rest ih =>
    obtain ⟨fresh, distinct⟩ := List.nodup_cons.mp distinct
    rw [List.foldl_cons, ih distinct, List.filterMap_filterMap]
    refine List.filterMap_congr fun row _ => ?_
    by_cases here : column row = value
    · rw [if_pos here, if_pos (by rw [here]; exact List.mem_cons_self)]
      cases found : outcome row with
      | none => rfl
      | some next =>
        rw [Option.bind_some, if_neg]
        rw [same row next found, here]
        exact fresh
    · rw [if_neg here, Option.bind_some]
      simp [here]

end SpSync.Foundation.Table
