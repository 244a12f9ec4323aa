import SpSync.Foundation.Contest

namespace SpSync.Foundation.Contest

variable {Item Tag : Type} [DecidableEq Item] {before : Item → Item → Prop} [DecidableRel before]
  {winner previous item : Item} {items : List Item}

/-- The winner and every item that has it in the causal past are placed last. -/
def Final (before : Item → Item → Prop) (winner item : Item) : Prop :=
  item = winner ∨ before winner item

instance (winner item : Item) : Decidable (Final before winner item) :=
  inferInstanceAs (Decidable (_ ∨ _))

/-- The items that neither supersede the previous champion nor belong to the final stage. -/
def opening (before : Item → Item → Prop) [DecidableRel before] (previous winner : Item)
    (items : List Item) : List Item :=
  items.filter fun item => ¬ (before previous item ∨ Final before winner item)

/-- The items that supersede the previous champion and do not belong to the final stage. -/
def middle (before : Item → Item → Prop) [DecidableRel before] (previous winner : Item)
    (items : List Item) : List Item :=
  items.filter fun item => before previous item ∧ ¬ Final before winner item

/-- The final stage. -/
def closing (before : Item → Item → Prop) [DecidableRel before] (winner : Item)
    (items : List Item) : List Item :=
  items.filter fun item => Final before winner item

@[simp]
theorem mem_opening :
    item ∈ opening before previous winner items ↔
      item ∈ items ∧ ¬ before previous item ∧ ¬ Final before winner item := by
  simp [opening]

@[simp]
theorem mem_middle :
    item ∈ middle before previous winner items ↔
      item ∈ items ∧ before previous item ∧ ¬ Final before winner item := by
  simp [middle]

@[simp]
theorem mem_closing : item ∈ closing before winner items ↔ item ∈ items ∧ Final before winner item := by
  simp [closing]

theorem opening_subset (previous winner : Item) (items : List Item) :
    opening before previous winner items ⊆ items :=
  fun _ inside => (mem_opening.mp inside).1

/-- The three stages hold the items of the list. -/
theorem stages_perm (previous winner : Item) (items : List Item) :
    (opening before previous winner items ++ (middle before previous winner items ++
      closing before winner items)).Perm items := by
  unfold opening middle closing
  induction items with
  | nil => exact .nil
  | cons item rest ih =>
    by_cases final : Final before winner item
    · simp only [final, or_true, not_true, and_false, decide_false, decide_true, List.filter_cons_of_pos,
        List.filter_cons_of_neg, Bool.false_eq_true, not_false_eq_true]
      rw [← List.append_assoc] at ih ⊢
      exact List.perm_middle.trans (ih.cons item)
    · by_cases after : before previous item
      · simp only [final, after, or_false, not_true, not_false_eq_true, and_self, decide_false, decide_true,
          List.filter_cons_of_pos, List.filter_cons_of_neg, Bool.false_eq_true]
        exact List.perm_middle.trans (ih.cons item)
      · simp only [final, after, or_self, not_false_eq_true, false_and, decide_false, decide_true,
          List.filter_cons_of_pos, List.filter_cons_of_neg, Bool.false_eq_true]
        exact ih.cons item

/-- The stages respect the causal order when the opening is rearranged in causal order. -/
theorem stages_inOrder {start : List Item} (forest : CausalForest before items) (previousIn : previous ∈ items)
    (winnerIn : winner ∈ items) (ordered : InOrder before items) (startOrdered : InOrder before start)
    (same : start ⊆ opening before previous winner items) :
    InOrder before (start ++ (middle before previous winner items ++ closing before winner items)) := by
  have finalBlocks : ∀ item ∈ items, ∀ later ∈ items, ¬ Final before winner item →
      Final before winner later → ¬ before later item := by
    rintro item itemIn later laterIn notFinal (rfl | after) seen
    · exact notFinal (Or.inr seen)
    · exact notFinal (Or.inr (forest.transitive winner winnerIn later laterIn item itemIn after seen))
  refine List.pairwise_append.mpr ⟨startOrdered, List.pairwise_append.mpr ⟨ordered.filter _, ordered.filter _, ?_⟩, ?_⟩
  · intro item itemIn later laterIn
    obtain ⟨itemIn, -, notFinal⟩ := mem_middle.mp itemIn
    obtain ⟨laterIn, final⟩ := mem_closing.mp laterIn
    exact finalBlocks item itemIn later laterIn notFinal final
  · intro item itemIn later laterIn
    obtain ⟨itemIn, notAfter, notFinal⟩ := mem_opening.mp (same itemIn)
    rcases List.mem_append.mp laterIn with inMiddle | inClosing
    · obtain ⟨laterIn, after, -⟩ := mem_middle.mp inMiddle
      exact fun seen => notAfter (forest.transitive previous previousIn later laterIn item itemIn after seen)
    · obtain ⟨laterIn, final⟩ := mem_closing.mp inClosing
      exact finalBlocks item itemIn later laterIn notFinal final

section Champion

variable [LinearOrder Tag] {tag : Item → Tag} {contends : Item → Prop} [DecidablePred contends] {stage : List Item}
  {current : Option Item}

variable (tag contends) in
omit [DecidableEq Item] in
/-- A stage of contenders that all supersede the champion ends with one of them, when there is one. -/
theorem foldl_challenge_superseding {current : Item} (superseding : ∀ item ∈ stage, before current item) :
    ∃ result, stage.foldl (challenge before tag contends) (some current) = some result ∧
      ((result = current ∧ ∀ item ∈ stage, ¬ contends item) ∨ (result ∈ stage ∧ contends result)) := by
  induction stage using List.reverseRecOn with
  | nil => exact ⟨current, rfl, Or.inl ⟨rfl, by simp⟩⟩
  | append_singleton stage item ih =>
    obtain ⟨result, folded, kind⟩ := ih fun other otherIn => superseding other (by simp [otherIn])
    rw [List.foldl_append, folded]
    simp only [List.foldl_cons, List.foldl_nil]
    rcases challenge_cases before tag contends (some result) item with
      ⟨kept, loses⟩ | ⟨contender, won, -⟩
    · refine ⟨result, kept, ?_⟩
      rcases kind with ⟨rfl, none⟩ | ⟨inside, contender⟩
      · refine Or.inl ⟨rfl, ?_⟩
        intro other otherIn contender
        rcases List.mem_append.mp otherIn with old | new
        · exact none other old contender
        obtain rfl : other = item := by simpa using new
        obtain ⟨champion, eq, notBeats⟩ := loses contender
        obtain rfl : result = champion := by simpa using eq
        exact notBeats (Or.inl (superseding other (by simp)))
      · exact Or.inr ⟨by simp [inside], contender⟩
    · exact ⟨item, won, Or.inr ⟨by simp, contender⟩⟩

omit [DecidableEq Item] in
/-- A stage without contenders keeps the champion. -/
theorem foldl_challenge_spectators (spectators : ∀ item ∈ stage, ¬ contends item) :
    stage.foldl (challenge before tag contends) current = current := by
  induction stage with
  | nil => rfl
  | cons item rest ih =>
    rw [List.foldl_cons, challenge_of_not_contends (spectators item (by simp))]
    exact ih fun other otherIn => spectators other (by simp [otherIn])

omit [DecidableEq Item] in
/-- A final stage in which only the winner contends makes the winner the champion. -/
theorem foldl_challenge_closing (irreflexive : ¬ before winner winner) (inside : winner ∈ stage)
    (contender : contends winner) (only : ∀ item ∈ stage, contends item → item = winner)
    (beats : ∀ champion, current = some champion → champion = winner ∨ Beats before tag winner champion) :
    stage.foldl (challenge before tag contends) current = some winner := by
  have self : ¬ Beats before tag winner winner := by
    rintro (seen | ⟨-, less⟩)
    · exact irreflexive seen
    · exact lt_irrefl _ less
  have meets : ∀ state : Option Item,
      (∀ champion, state = some champion → champion = winner ∨ Beats before tag winner champion) →
        challenge before tag contends state winner = some winner := by
    intro state ready
    cases state with
    | none => simp [challenge, contender]
    | some champion =>
      rcases ready champion rfl with rfl | beats
      · exact challenge_of_not_beats self
      · exact challenge_of_beats contender beats
  induction stage generalizing current with
  | nil => simp at inside
  | cons item rest ih =>
    rw [List.foldl_cons]
    by_cases contending : contends item
    · obtain rfl := only item (by simp) contending
      rw [meets current beats]
      by_cases again : item ∈ rest
      · exact ih again (fun other otherIn => only other (by simp [otherIn]))
          (by rintro _ ⟨rfl⟩; exact Or.inl rfl)
      apply foldl_challenge_spectators
      intro other otherIn contends
      obtain rfl := only other (by simp [otherIn]) contends
      exact again otherIn
    · rw [challenge_of_not_contends contending]
      refine ih ?_ (fun other otherIn => only other (by simp [otherIn])) beats
      rcases List.mem_cons.mp inside with rfl | old
      · exact absurd contender contending
      · exact old

section

variable (forest : CausalForest before items) (distinct : DistinctTags tag items) (ordered : InOrder before items)
include forest distinct ordered

/-- A previous champion that only larger tags supersede gives way to the winner in three stages. -/
theorem exists_order_of_opening {start : List Item} {previous : Item} (winnerIn : winner ∈ items)
    (contender : contends winner) (unsuperseded : Unsuperseded before contends items winner)
    (previousIn : previous ∈ items) (superseded : ¬ Unsuperseded before contends items previous)
    (above : ∀ later ∈ items, contends later → before previous later → tag winner ≤ tag later)
    (rearranged : start.Perm (opening before previous winner items)) (startOrdered : InOrder before start)
    (found : champion before tag contends start = some previous) :
    ∃ order, order.Perm items ∧ InOrder before order ∧
      champion before tag contends order = some winner := by
  have onlyWinner : ∀ item ∈ items, contends item → Final before winner item → item = winner := by
    rintro item itemIn itemContends (same | after)
    · exact same
    · exact absurd after (unsuperseded item itemIn itemContends)
  refine ⟨start ++ (middle before previous winner items ++ closing before winner items),
    (rearranged.append_right _).trans (stages_perm previous winner items),
    stages_inOrder forest previousIn winnerIn ordered startOrdered rearranged.subset, ?_⟩
  rw [champion_append, found, List.foldl_append]
  have superseding : ∀ item ∈ middle before previous winner items, before previous item :=
    fun item inside => (mem_middle.mp inside).2.1
  obtain ⟨result, folded, kind⟩ := foldl_challenge_superseding tag contends superseding
  rw [folded]
  apply foldl_challenge_closing (forest.irreflexive winner winnerIn)
    (mem_closing.mpr ⟨winnerIn, Or.inl rfl⟩) contender
  · intro item inside itemContends
    obtain ⟨itemIn, final⟩ := mem_closing.mp inside
    exact onlyWinner item itemIn itemContends final
  · rintro champion ⟨rfl⟩
    right
    rcases kind with ⟨rfl, spectators⟩ | ⟨inside, resultContends⟩
    · left
      by_contra unseen
      apply superseded
      intro later laterIn laterContends seen
      by_cases final : Final before winner later
      · obtain rfl := onlyWinner later laterIn laterContends final
        exact unseen seen
      · exact spectators later (mem_middle.mpr ⟨laterIn, seen, final⟩) laterContends
    · obtain ⟨resultIn, seen, notFinal⟩ := mem_middle.mp inside
      right
      refine ⟨fun after => notFinal (Or.inr after), ?_⟩
      refine lt_of_le_of_ne (above result resultIn resultContends seen) fun same => notFinal (Or.inl ?_)
      exact distinct result resultIn winner winnerIn same.symm

/-- The smallest tag wins when it is placed after the items that do not follow it. -/
theorem exists_order_of_least (winnerIn : winner ∈ items) (contender : contends winner)
    (smallest : ∀ other ∈ items, contends other → tag winner ≤ tag other)
    (unsuperseded : Unsuperseded before contends items winner) :
    ∃ order, order.Perm items ∧ InOrder before order ∧
      champion before tag contends order = some winner := by
  have irreflexive := forest.irreflexive winner winnerIn
  -- No item follows the winner without being final, so the middle stage is empty.
  have emptyMiddle : middle before winner winner items = [] := by
    apply List.filter_eq_nil_iff.mpr
    intro item _
    simp only [decide_eq_true_eq]
    exact fun ⟨after, notFinal⟩ => notFinal (Or.inr after)
  refine ⟨opening before winner winner items ++ (middle before winner winner items ++ closing before winner items),
    stages_perm winner winner items,
    stages_inOrder forest winnerIn winnerIn ordered (ordered.filter _) (List.Subset.refl _), ?_⟩
  rw [emptyMiddle, List.nil_append, champion_append]
  apply foldl_challenge_closing irreflexive (mem_closing.mpr ⟨winnerIn, Or.inl rfl⟩) contender
  · intro item inside itemContends
    obtain ⟨itemIn, same | after⟩ := mem_closing.mp inside
    · exact same
    · exact absurd after (unsuperseded item itemIn itemContends)
  · intro champion found
    have openingOrdered : InOrder before (opening before winner winner items) := ordered.filter _
    obtain ⟨inside, championContends, -⟩ := champion_spec
      (fun item itemIn => forest.irreflexive item (mem_opening.mp itemIn).1) openingOrdered found
    obtain ⟨championIn, notAfter, notFinal⟩ := mem_opening.mp inside
    right; right
    refine ⟨notAfter, lt_of_le_of_ne (smallest champion championIn championContends) fun same => ?_⟩
    exact notFinal (Or.inl (distinct champion championIn winner winnerIn same.symm))

/-- Every unsuperseded item that can win is the champion of some causal order. -/
theorem exists_order_of_canWin (reached : CanWin before tag contends items winner)
    (unsuperseded : Unsuperseded before contends items winner) :
    ∃ order, order.Perm items ∧ InOrder before order ∧
      champion before tag contends order = some winner := by
  induction length : items.length using Nat.strongRecOn generalizing items winner with
  | _ size ih =>
  subst length
  cases reached with
  | least inside contender smallest =>
    exact exists_order_of_least forest distinct ordered inside contender smallest unsuperseded
  | @hop item _ itemReached inside contender larger superseded above _ =>
    have winnerFinal : Final before winner winner := Or.inl rfl
    -- The opening of every previous champion is shorter, so the induction reaches it.
    have fromOpening : ∀ previous ∈ items, ¬ Unsuperseded before contends items previous →
        (∀ later ∈ items, contends later → before previous later → tag winner ≤ tag later) →
        CanWin before tag contends (opening before previous winner items) previous →
        ∃ order, order.Perm items ∧ InOrder before order ∧
          champion before tag contends order = some winner := by
      intro previous previousIn free above reachedThere
      have shorter : (opening before previous winner items).length < items.length :=
        List.length_filter_lt_length_iff_exists.mpr ⟨winner, inside, by simp [winnerFinal]⟩
      have subset : opening before previous winner items ⊆ items := opening_subset previous winner items
      obtain ⟨start, rearranged, startOrdered, found⟩ := ih _ shorter (forest.of_subset subset)
        (distinct.of_subset subset) (ordered.filter _) reachedThere
        (fun later laterIn _ => (mem_opening.mp laterIn).2.1) rfl
      exact exists_order_of_opening forest distinct ordered inside contender unsuperseded previousIn
        free above rearranged startOrdered found
    have removedLarge : ∀ previous, (∀ later ∈ items, contends later → before previous later →
        tag winner ≤ tag later) → ∀ other ∈ items, contends other →
          other ∉ opening before previous winner items → tag winner ≤ tag other := by
      intro previous above other otherIn otherContends removed
      by_contra small
      refine removed (mem_opening.mpr ⟨otherIn, fun seen => small (above other otherIn otherContends seen), ?_⟩)
      rintro (rfl | after)
      · exact small le_rfl
      · exact unsuperseded other otherIn otherContends after
    have itemIn := itemReached.mem.1
    have itemContends := itemReached.mem.2
    rcases itemReached.narrow (opening_subset item winner items)
      (removedLarge item above) larger with there | ⟨last, lastReached, below, outside, inner⟩
    · exact fromOpening item itemIn superseded above there
    -- Only the winner supersedes the last item, so the contest can pass from it to the winner.
    have lastIn : last ∈ items := (mem_opening.mp lastReached.mem.1).1
    have onlyWinner : ∀ later ∈ items, contends later → before last later → later = winner := by
      intro later laterIn laterContends seen
      by_contra other
      have itemThere : item ∈ opening before item winner items := by
        refine mem_opening.mpr ⟨itemIn, forest.irreflexive item itemIn, ?_⟩
        rintro (rfl | after)
        · exact lt_irrefl _ larger
        · exact unsuperseded item itemIn itemContends after
      have removed : later ∉ opening before item winner items :=
        fun there => inner later there laterContends seen
      have afterItem : before item later := by
        by_contra unseen
        refine removed (mem_opening.mpr ⟨laterIn, unseen, ?_⟩)
        rintro (same | after)
        · exact other same
        · exact unsuperseded later laterIn laterContends after
      rcases forest.linear last lastIn item itemIn later laterIn seen afterItem with rfl | first | second
      · exact lt_irrefl _ below
      · exact inner item itemThere itemContends first
      · have larger := itemReached.stays forest.irreflexive distinct last lastIn lastReached.mem.2 second
        exact lt_asymm below larger
    have lastAbove : ∀ later ∈ items, contends later → before last later → tag winner ≤ tag later :=
      fun later laterIn laterContends seen => (onlyWinner later laterIn laterContends seen) ▸ le_rfl
    refine fromOpening last lastIn outside lastAbove ?_
    refine lastReached.widen ?_ ?_ (below.trans larger)
    · intro other otherIn otherContends
      obtain ⟨otherIn, -, notFinal⟩ := mem_opening.mp otherIn
      refine mem_opening.mpr ⟨otherIn, fun seen => notFinal (Or.inl ?_), notFinal⟩
      exact onlyWinner other otherIn otherContends seen
    · intro other otherIn otherContends removed
      exact removedLarge item above other (mem_opening.mp otherIn).1 otherContends removed

end

end Champion

end SpSync.Foundation.Contest
