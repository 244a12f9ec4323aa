import Mathlib.Data.List.Sort

namespace SpSync.Foundation.Selection

variable {Item : Type} (before : Item → Item → Prop) [DecidableRel before]

def inOrder (items : List Item) : List Item :=
  items.insertionSort before

/-- The first entries in the order. -/
def first (count : Nat) (items : List Item) : List Item :=
  (inOrder before items).take count

/-- Any two items compare, and the order is transitive. -/
structure Ranks : Prop where
  total : ∀ left right, before left right ∨ before right left
  trans : ∀ left middle right, before left middle → before middle right → before left right

/-- No two different items of the list come before each other. -/
def Strict (items : List Item) : Prop :=
  ∀ left ∈ items, ∀ right ∈ items, before left right → before right left → left = right

variable {before} {items others left right : List Item} {item : Item} {count : Nat} {part : List Item}

theorem inOrder_perm (items : List Item) : (inOrder before items).Perm items :=
  List.perm_insertionSort before items

theorem inOrder_sorted (ranks : Ranks before) (items : List Item) : (inOrder before items).Pairwise before :=
  have : Std.Total before := ⟨ranks.total⟩
  have : IsTrans Item before := ⟨ranks.trans⟩
  List.pairwise_insertionSort before items

/-- A sorted arrangement of the items is the order. -/
theorem eq_inOrder (ranks : Ranks before) (strict : Strict before items) (same : others.Perm items)
    (sorted : others.Pairwise before) : others = inOrder before items := by
  refine List.Perm.eq_of_pairwise ?_ sorted (inOrder_sorted ranks items) (same.trans (inOrder_perm items).symm)
  intro one two oneIn twoIn
  exact strict one (same.mem_iff.mp oneIn) two ((inOrder_perm items).mem_iff.mp twoIn)

/-- The arrangement of the items does not matter. -/
theorem inOrder_eq_of_perm (ranks : Ranks before) (strict : Strict before items) (same : others.Perm items) :
    inOrder before others = inOrder before items :=
  eq_inOrder ranks strict ((inOrder_perm others).trans same) (inOrder_sorted ranks others)

/-- Fewer items than an entry's place come strictly before it. -/
theorem countP_lt_of_mem_take (sorted : items.Pairwise before) (reflexive : ∀ item, before item item)
    (inside : item ∈ items.take count) : items.countP (fun other => ¬ before item other) < count := by
  obtain ⟨place, bound, rfl⟩ := List.mem_iff_getElem.mp inside
  rw [List.length_take] at bound
  rw [List.getElem_take]
  have behind : (items.drop place).countP (fun other => ¬ before (items[place]) other) = 0 := by
    refine List.countP_eq_zero.mpr fun other found strictly => of_decide_eq_true strictly ?_
    rw [List.drop_eq_getElem_cons (by omega)] at found
    obtain same | later := List.mem_cons.mp found
    · rw [same]
      exact reflexive _
    have parts : (items.take place ++ items.drop place).Pairwise before := by
      rw [List.take_append_drop]
      exact sorted
    have rest := (List.pairwise_append.mp parts).2.1
    rw [List.drop_eq_getElem_cons (by omega)] at rest
    exact (List.pairwise_cons.mp rest).1 other later
  calc items.countP (fun other => ¬ before (items[place]) other)
      = (items.take place ++ items.drop place).countP (fun other => ¬ before (items[place]) other) := by
        rw [List.take_append_drop]
    _ ≤ (items.take place).length := by
        rw [List.countP_append, behind]
        exact List.countP_le_length
    _ ≤ place := List.length_take_le _ _
    _ < count := by omega

omit [DecidableRel before] in
theorem Ranks.reflexive (ranks : Ranks before) (item : Item) : before item item :=
  (ranks.total item item).elim id id

/-- Where the first entries of a part are among the items, the first items come before the rest of the part. -/
theorem before_of_mem_first (ranks : Ranks before) (within : (first before count part).Subperm items)
    {chosen late : Item} (inside : chosen ∈ first before count items) (rest : late ∈ (inOrder before part).drop count) :
    before chosen late := by
  by_contra behind
  have full : (first before count part).length = count := by
    have present := List.length_pos_of_mem rest
    rw [List.length_drop] at present
    rw [first, List.length_take]
    omega
  have parts : (first before count part ++ (inOrder before part).drop count).Pairwise before := by
    rw [first, List.take_append_drop]
    exact inOrder_sorted ranks part
  have ahead : ∀ other ∈ first before count part, decide (¬ before chosen other) = true := by
    intro other found
    refine decide_eq_true fun follows => behind ?_
    exact ranks.trans _ _ _ follows ((List.pairwise_append.mp parts).2.2 other found late rest)
  have many : count ≤ items.countP fun other => ¬ before chosen other := by
    rw [← full, ← List.countP_eq_length.mpr ahead]
    exact within.countP_le _
  have few := countP_lt_of_mem_take (inOrder_sorted ranks items) ranks.reflexive inside
  rw [(inOrder_perm items).countP_eq] at few
  omega

theorem first_split (count : Nat) (part : List Item) :
    first before count part ++ (inOrder before part).drop count = inOrder before part :=
  List.take_append_drop count _

/-- A part whose first entries are fewer than asked for has no other ones. -/
theorem drop_eq_nil_of_short (short : (first before count part).length < count) :
    (inOrder before part).drop count = [] := by
  rw [first, List.length_take] at short
  exact List.drop_eq_nil_of_le (by omega)

/-- The first entries of the parts, then everything else: together the whole in order. -/
theorem candidates_append (ranks : Ranks before) (strict : Strict before (left ++ right)) {candidates : List Item}
    (chosen : candidates = first before count left ++ first before count right) :
    first before count candidates ++ inOrder before ((inOrder before candidates).drop count ++
        ((inOrder before left).drop count ++ (inOrder before right).drop count)) =
      inOrder before (left ++ right) := by
  refine eq_inOrder ranks strict ?_ (List.pairwise_append.mpr ⟨?_, inOrder_sorted ranks _, ?_⟩)
  · have leftSplit : (first before count left ++ (inOrder before left).drop count).Perm left :=
      (List.Perm.of_eq (first_split count left)).trans (inOrder_perm left)
    have rightSplit : (first before count right ++ (inOrder before right).drop count).Perm right :=
      (List.Perm.of_eq (first_split count right)).trans (inOrder_perm right)
    refine ((inOrder_perm _).append_left _).trans ?_
    rw [← List.append_assoc, first_split]
    refine ((inOrder_perm candidates).append_right _).trans ?_
    rw [chosen, List.append_assoc]
    refine (List.perm_append_comm_assoc ..).symm.append_left _ |>.trans ?_
    rw [← List.append_assoc]
    exact leftSplit.append rightSplit
  · exact (inOrder_sorted ranks candidates).sublist (List.take_sublist _ _)
  · intro early earlyIn late lateIn
    rw [(inOrder_perm _).mem_iff, List.mem_append, List.mem_append] at lateIn
    obtain same | leftRest | rightRest := lateIn
    · have parts := inOrder_sorted ranks candidates
      rw [← first_split count] at parts
      exact (List.pairwise_append.mp parts).2.2 early earlyIn late same
    · refine before_of_mem_first ranks ?_ earlyIn leftRest
      rw [chosen]
      exact (List.sublist_append_left _ _).subperm
    · refine before_of_mem_first ranks ?_ earlyIn rightRest
      rw [chosen]
      exact (List.sublist_append_right _ _).subperm

/-- The first entries of the whole are found among the first entries of its parts. -/
theorem first_append (ranks : Ranks before) (strict : Strict before (left ++ right)) (count : Nat) :
    first before count (left ++ right) =
      first before count (first before count left ++ first before count right) := by
  obtain ⟨candidates, chosen⟩ : ∃ candidates, candidates = first before count left ++ first before count right :=
    ⟨_, rfl⟩
  rw [← chosen]
  by_cases short : candidates.length < count
  · have lengths := congrArg List.length chosen
    rw [List.length_append] at lengths
    have whole := candidates_append ranks strict chosen
    have candidatesShort : (first before count candidates).length < count :=
      Nat.lt_of_le_of_lt ((List.length_take_le' _ _).trans_eq (inOrder_perm candidates).length_eq) short
    have leftRest : (inOrder before left).drop count = [] := drop_eq_nil_of_short (by omega)
    have rightRest : (inOrder before right).drop count = [] := drop_eq_nil_of_short (by omega)
    rw [drop_eq_nil_of_short candidatesShort, leftRest, rightRest] at whole
    have all : inOrder before (left ++ right) = first before count candidates :=
      whole.symm.trans (List.append_nil _)
    rw [first, all]
    exact List.take_of_length_le (Nat.le_of_lt candidatesShort)
  · have full : (first before count candidates).length = count := by
      rw [first, List.length_take, (inOrder_perm candidates).length_eq]
      omega
    rw [first, ← candidates_append ranks strict chosen]
    exact List.take_left' full

section Removal

variable [DecidableEq Item] {chosen : Item}

theorem inOrder_erase (ranks : Ranks before) (strict : Strict before items) (item : Item) :
    inOrder before (items.erase item) = (inOrder before items).erase item := by
  symm
  apply eq_inOrder ranks
  · intro one oneIn two twoIn
    exact strict one (List.mem_of_mem_erase oneIn) two (List.mem_of_mem_erase twoIn)
  · exact (inOrder_perm items).erase item
  · exact (inOrder_sorted ranks items).sublist List.erase_sublist

omit [DecidableRel before] in
/-- The others among the first entries stay there without the item. -/
theorem mem_take_erase (inside : chosen ∈ items.take count) (other : chosen ≠ item) :
    chosen ∈ (items.erase item).take count := by
  have stays : chosen ∈ (items.take count).erase item := (List.mem_erase_of_ne other).mpr inside
  have short : ((items.take count).erase item).length ≤ count :=
    List.length_erase_le.trans (List.length_take_le count items)
  rw [List.prefix_iff_eq_take.mp ((List.take_prefix count items).erase item)] at stays
  exact List.take_subset_take_left _ short stays

omit [DecidableRel before] in
/-- Without the item, the first entries come from one more of the entries. -/
theorem mem_take_of_mem_take_erase (inside : chosen ∈ (items.erase item).take count) :
    chosen ∈ items.take (count + 1) := by
  by_cases long : count < items.length
  · have enough : ((items.erase item).take count).length ≤ ((items.take (count + 1)).erase item).length := by
      have lost := List.le_length_erase (a := item) (l := items.take (count + 1))
      rw [List.length_take] at lost ⊢
      omega
    refine List.mem_of_mem_erase ((List.prefix_of_prefix_length_le (List.take_prefix _ _) ?_ enough).subset inside)
    exact (List.take_prefix _ _).erase item
  · rw [List.take_of_length_le (by omega)]
    exact List.mem_of_mem_erase (List.mem_of_mem_take inside)

/-- Without the item, only the item leaves the first entries. -/
theorem mem_first_erase (ranks : Ranks before) (strict : Strict before items)
    (inside : chosen ∈ first before count items) (other : chosen ≠ item) :
    chosen ∈ first before count (items.erase item) := by
  unfold first
  rw [inOrder_erase ranks strict]
  exact mem_take_erase inside other

/-- Without the item, at most one item joins the first entries. -/
theorem joins_first_erase (ranks : Ranks before) (strict : Strict before items) {one two : Item}
    (oneIn : one ∈ first before count (items.erase item)) (oneNew : one ∉ first before count items)
    (twoIn : two ∈ first before count (items.erase item)) (twoNew : two ∉ first before count items) : one = two := by
  have joined {new : Item} (newIn : new ∈ first before count (items.erase item))
      (absent : new ∉ first before count items) : (inOrder before items)[count]? = some new := by
    unfold first at newIn
    rw [inOrder_erase ranks strict] at newIn
    have among := mem_take_of_mem_take_erase newIn
    rw [List.take_add_one, List.mem_append] at among
    exact Option.mem_toList.mp (among.resolve_left absent)
  exact Option.some.inj ((joined oneIn oneNew).symm.trans (joined twoIn twoNew))

end Removal

end SpSync.Foundation.Selection
