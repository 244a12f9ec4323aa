import Mathlib.Data.List.Basic
import Mathlib.Data.List.Flatten
import Mathlib.Data.List.Induction

namespace SpSync.Foundation.Blocks

variable {Item : Type} {size : Nat} {items : List Item}

/-- The items are full blocks and a rest that is shorter than a block. -/
structure Cut (size : Nat) (items : List Item) (blocks : List (List Item)) (rest : List Item) : Prop where
  joined : items = blocks.flatten ++ rest
  full : ∀ block ∈ blocks, block.length = size
  short : rest.length < size

/-- All blocks of the items; the last one may be shorter. -/
def pieces (size : Nat) (items : List Item) : List (List Item) :=
  (List.range ((items.length + (size - 1)) / size)).map fun place => (items.drop (place * size)).take size

theorem getElem?_pieces {place : Nat} {piece : List Item} (there : (pieces size items)[place]? = some piece) :
    piece = (items.drop (place * size)).take size := by
  obtain ⟨inside, same⟩ := List.getElem?_eq_some_iff.mp there
  rw [← same]
  simp only [pieces, List.getElem_map, List.getElem_range]

/-- The block of every item is one of the blocks. -/
theorem div_lt_length_pieces {position : Nat} (positive : 0 < size) (inside : position < items.length) :
    position / size < (pieces size items).length := by
  have below := Nat.div_mul_le_self position size
  rw [pieces, List.length_map, List.length_range, Nat.lt_iff_add_one_le, Nat.le_div_iff_mul_le positive,
    Nat.succ_mul]
  omega

namespace Cut

variable {size : Nat} {items more rest : List Item} {blocks : List (List Item)}

theorem nil (positive : 0 < size) : Cut size ([] : List Item) [] [] :=
  ⟨rfl, List.forall_mem_nil _, positive⟩

/-- More items that do not fill a block join the rest. -/
theorem fill (cut : Cut size items blocks rest) (short : (rest ++ more).length < size) :
    Cut size (items ++ more) blocks (rest ++ more) := by
  refine ⟨?_, cut.full, short⟩
  rw [cut.joined, List.append_assoc]

/-- Items that fill a block close it. -/
theorem close (cut : Cut size items blocks rest) (full : (rest ++ more).length = size) :
    Cut size (items ++ more) (blocks ++ [rest ++ more]) [] := by
  refine ⟨?_, List.forall_mem_append.mpr ⟨cut.full, List.forall_mem_singleton.mpr full⟩,
    Nat.lt_of_le_of_lt (Nat.zero_le _) cut.short⟩
  rw [cut.joined, List.flatten_append, List.flatten_singleton, List.append_nil, List.append_assoc]

/-- Every list can be cut. -/
theorem exists_of_pos (positive : 0 < size) (items : List Item) : ∃ blocks rest, Cut size items blocks rest := by
  induction items using List.reverseRecOn with
  | nil => exact ⟨[], [], nil positive⟩
  | append_singleton items item ih =>
    obtain ⟨blocks, rest, cut⟩ := ih
    have short := cut.short
    have longer : (rest ++ [item]).length = rest.length + 1 := List.length_append
    by_cases full : rest.length + 1 = size
    · exact ⟨_, _, cut.close (longer.trans full)⟩
    · exact ⟨_, _, cut.fill (show (rest ++ [item]).length < size by omega)⟩

theorem length_flatten (full : ∀ block ∈ blocks, block.length = size) :
    blocks.flatten.length = blocks.length * size := by
  induction blocks with
  | nil => simp
  | cons block others ih =>
    obtain ⟨here, there⟩ := List.forall_mem_cons.mp full
    rw [List.flatten_cons, List.length_append, ih there, here, List.length_cons, Nat.succ_mul, Nat.add_comm]

theorem length_eq (cut : Cut size items blocks rest) : items.length = blocks.length * size + rest.length := by
  rw [cut.joined, List.length_append, length_flatten cut.full]

/-- A full block stands at its place in the items. -/
theorem getElem?_blocks {place : Nat} (full : ∀ block ∈ blocks, block.length = size) (rest : List Item)
    (inside : place < blocks.length) :
    blocks[place]? = some (((blocks.flatten ++ rest).drop (place * size)).take size) := by
  induction blocks generalizing place with
  | nil => exact absurd inside (Nat.not_lt_zero place)
  | cons block others ih =>
    obtain ⟨here, there⟩ := List.forall_mem_cons.mp full
    rw [List.flatten_cons, List.append_assoc]
    cases place with
    | zero =>
      rw [Nat.zero_mul, List.drop_zero, List.take_left' here]
      rfl
    | succ place =>
      have behind : (place + 1) * size = block.length + place * size := by
        rw [here, Nat.succ_mul, Nat.add_comm]
      rw [List.getElem?_cons_succ, ih there (Nat.lt_of_succ_lt_succ inside), behind, ← List.drop_drop,
        List.drop_left]

section

variable (cut : Cut size items blocks rest)
include cut

theorem map_range_blocks :
    ((List.range blocks.length).map fun place => (items.drop (place * size)).take size) = blocks := by
  apply List.ext_getElem?
  intro place
  by_cases inside : place < blocks.length
  · rw [getElem?_blocks cut.full rest inside, List.getElem?_map, List.getElem?_range inside, cut.joined]
    rfl
  · rw [List.getElem?_eq_none (Nat.le_of_not_lt inside),
      List.getElem?_eq_none (by rw [List.length_map, List.length_range]; exact Nat.le_of_not_lt inside)]

/-- The number of blocks, rounded up. -/
theorem count_eq : (items.length + (size - 1)) / size = blocks.length + if rest = [] then 0 else 1 := by
  have positive : 0 < size := Nat.lt_of_le_of_lt (Nat.zero_le _) cut.short
  rw [cut.length_eq, Nat.add_assoc, Nat.mul_comm, Nat.mul_add_div positive]
  congr 1
  have short := cut.short
  split
  · rename_i empty
    rw [empty, List.length_nil]
    exact Nat.div_eq_of_lt (by omega)
  · rename_i filled
    have filledLength := List.length_pos_iff.mpr filled
    rw [show rest.length + (size - 1) = rest.length - 1 + size by omega, Nat.add_div_right _ positive,
      Nat.div_eq_of_lt (by omega)]

/-- The blocks, with the rest as the last one, are all blocks of the items. -/
theorem pieces_eq : pieces size items = blocks ++ if rest = [] then [] else [rest] := by
  unfold pieces
  rw [cut.count_eq]
  split
  · rw [Nat.add_zero, cut.map_range_blocks, List.append_nil]
  · have last : (items.drop (blocks.length * size)).take size = rest := by
      rw [cut.joined, List.drop_left' (length_flatten cut.full), List.take_of_length_le (Nat.le_of_lt cut.short)]
    rw [List.range_succ, List.map_append, cut.map_range_blocks, List.map_singleton, last]

/-- The blocks joined again are the items. -/
theorem flatten_pieces : (pieces size items).flatten = items := by
  rw [cut.pieces_eq, cut.joined, List.flatten_append]
  split
  · rename_i empty
    rw [empty, List.flatten_nil]
  · rw [List.flatten_singleton]

/-- Every block of the items, the last one included, has items, and no more than the size. -/
theorem length_pieces {piece : List Item} (inside : piece ∈ pieces size items) :
    0 < piece.length ∧ piece.length ≤ size := by
  have short := cut.short
  rw [cut.pieces_eq] at inside
  obtain full | last := List.mem_append.mp inside
  · rw [cut.full piece full]
    omega
  split at last
  · exact absurd last List.not_mem_nil
  · rename_i filled
    rw [List.mem_singleton.mp last]
    exact ⟨List.length_pos_iff.mpr filled, by omega⟩

end

end Cut

/-- Blocks that each grow by the same number of items. -/
theorem length_flatten_mapIdx {grow : Nat → List Item → List Item} {more : Nat}
    (grown : ∀ place block, (grow place block).length = block.length + more) (blocks : List (List Item)) :
    (blocks.mapIdx grow).flatten.length = blocks.flatten.length + blocks.length * more := by
  induction blocks generalizing grow with
  | nil => simp
  | cons block others ih =>
    rw [List.mapIdx_cons, List.flatten_cons, List.length_append, grown, ih fun place => grown (place + 1),
      List.flatten_cons, List.length_append, List.length_cons, Nat.succ_mul]
    omega

end SpSync.Foundation.Blocks
