import Mathlib.Data.List.Basic
import Mathlib.Data.List.Perm.Basic
import Mathlib.Data.List.Count
import Mathlib.Data.List.Induction
import Mathlib.Data.List.Sort
import Mathlib.Order.Basic

namespace SpSync.Foundation.Contest

variable {Item Tag : Type} {items : List Item} {before : Item → Item → Prop} {others : List Item}

/-- The causal past of an item is a chain, and no item is in its own past. -/
structure CausalForest (before : Item → Item → Prop) (items : List Item) : Prop where
  irreflexive : ∀ item ∈ items, ¬ before item item
  transitive : ∀ first ∈ items, ∀ second ∈ items, ∀ third ∈ items,
    before first second → before second third → before first third
  linear : ∀ first ∈ items, ∀ second ∈ items, ∀ third ∈ items,
    before first third → before second third → first = second ∨ before first second ∨ before second first

/-- Every item comes after the items in its causal past. -/
def InOrder (before : Item → Item → Prop) (items : List Item) : Prop :=
  items.Pairwise fun earlier later => ¬ before later earlier

instance (before : Item → Item → Prop) [DecidableRel before] (items : List Item) :
    Decidable (InOrder before items) :=
  inferInstanceAs (Decidable (List.Pairwise _ items))

/-- No two different items of the list have the same tag. -/
def DistinctTags (tag : Item → Tag) (items : List Item) : Prop :=
  ∀ first ∈ items, ∀ second ∈ items, tag first = tag second → first = second

theorem CausalForest.of_subset (forest : CausalForest before items) (subset : others ⊆ items) :
    CausalForest before others where
  irreflexive item inside := forest.irreflexive item (subset inside)
  transitive first firstIn second secondIn third thirdIn :=
    forest.transitive first (subset firstIn) second (subset secondIn) third (subset thirdIn)
  linear first firstIn second secondIn third thirdIn :=
    forest.linear first (subset firstIn) second (subset secondIn) third (subset thirdIn)

theorem DistinctTags.of_subset {tag : Item → Tag} (distinct : DistinctTags tag items) (subset : others ⊆ items) :
    DistinctTags tag others :=
  fun first firstIn second secondIn => distinct first (subset firstIn) second (subset secondIn)

/-- A list without causal cycles has a causal order: sort it by the size of the causal past. -/
theorem CausalForest.exists_inOrder [DecidableRel before] (forest : CausalForest before items) :
    ∃ order, order.Perm items ∧ InOrder before order := by
  let depth := fun item => items.countP fun earlier => before earlier item
  have grows : ∀ earlier ∈ items, ∀ later ∈ items, before earlier later → depth earlier < depth later := by
    intro earlier earlierIn later laterIn seen
    have within : depth earlier = (items.filter fun other => before other later).countP
        fun other => before other earlier := by
      rw [List.countP_filter]
      apply List.countP_congr
      intro other otherIn
      simp only [decide_eq_true_eq, Bool.and_eq_true]
      exact ⟨fun otherSeen => ⟨otherSeen,
        forest.transitive other otherIn earlier earlierIn later laterIn otherSeen seen⟩, And.left⟩
    have whole : depth later = (items.filter fun other => before other later).length :=
      List.countP_eq_length_filter
    rw [within, whole]
    refine List.countP_lt_length_iff.mpr ⟨earlier, by simp [earlierIn, seen], ?_⟩
    simpa using forest.irreflexive earlier earlierIn
  refine ⟨items.insertionSort fun first second => depth first ≤ depth second, List.perm_insertionSort _ _, ?_⟩
  have sorted := List.pairwise_insertionSort (fun first second => depth first ≤ depth second) items
  refine sorted.imp_of_mem ?_
  intro earlier later earlierIn laterIn low seen
  rw [List.mem_insertionSort] at earlierIn laterIn
  exact absurd (grows later laterIn earlier earlierIn seen) (not_lt.mpr low)

section Champion

variable [LinearOrder Tag] (before : Item → Item → Prop) (tag : Item → Tag) (contends : Item → Prop)

/-- A challenger wins when it saw the champion, or when both are concurrent and its tag is smaller. -/
def Beats (challenger champion : Item) : Prop :=
  before champion challenger ∨ (¬ before challenger champion ∧ tag challenger < tag champion)

/-- No contender of the list has the item in its causal past. -/
def Unsuperseded (items : List Item) (item : Item) : Prop :=
  ∀ later ∈ items, contends later → ¬ before item later

/-- The items that some causal order makes champion while every smaller tag is already placed.
The smallest tag starts; from a champion the contest reaches an item whose tag is at most that of
every item that supersedes the champion. -/
inductive CanWin (items : List Item) : Item → Prop
  | least {item : Item} (inside : item ∈ items) (contender : contends item)
      (smallest : ∀ other ∈ items, contends other → tag item ≤ tag other) : CanWin items item
  | hop {item next : Item} (reached : CanWin items item) (inside : next ∈ items)
      (contender : contends next) (larger : tag item < tag next)
      (superseded : ¬ Unsuperseded before contends items item)
      (above : ∀ later ∈ items, contends later → before item later → tag next ≤ tag later)
      (stays : ∀ later ∈ items, contends later → before next later → tag next < tag later) :
      CanWin items next

variable {before tag contends} {item current : Item} {items all : List Item} {bound : Tag} {others : Item → Prop}
  {few many : List Item}

/-- Every contender with a tag below the bound is among the placed items. -/
def PlacedBelow (tag : Item → Tag) (contends : Item → Prop) (all placed : List Item) (bound : Tag) : Prop :=
  ∀ item ∈ all, contends item → tag item < bound → item ∈ placed

/-- An item that is not below the bound need not be placed. -/
theorem PlacedBelow.of_append (placed : PlacedBelow tag contends all (items ++ [item]) bound)
    (large : contends item → bound ≤ tag item) : PlacedBelow tag contends all items bound := by
  intro other inside contender small
  rcases List.mem_append.mp (placed other inside contender small) with old | new
  · exact old
  · obtain rfl := List.mem_singleton.mp new
    exact absurd small (not_lt.mpr (large contender))

/-- An item that can win is left for an item at or above the bound. -/
def LeavesBelow (before : Item → Item → Prop) (tag : Item → Tag) (contends : Item → Prop)
    (all : List Item) (bound : Tag) : Prop :=
  ∃ item, CanWin before tag contends all item ∧ tag item < bound ∧
    ¬ Unsuperseded before contends all item ∧
    ∀ later ∈ all, contends later → before item later → bound ≤ tag later

/-- A champion with a smaller tag that loses to a placed item is left below the bound. -/
theorem leavesBelow_of_champion (unsuperseded : Unsuperseded before contends items current)
    (reached : CanWin before tag contends all current) (below : tag current < bound)
    (placed : PlacedBelow tag contends all items bound) (inside : item ∈ all) (contender : contends item)
    (seen : before current item) : LeavesBelow before tag contends all bound := by
  refine ⟨current, reached, below, fun none => none item inside contender seen, ?_⟩
  intro later laterIn laterContends laterSaw
  by_contra small
  exact unsuperseded later (placed later laterIn laterContends (lt_of_not_ge small)) laterContends laterSaw

/-- The bound a contest leaves below can itself win once nothing smaller supersedes it. -/
theorem LeavesBelow.canWin (leaves : LeavesBelow before tag contends all (tag item)) (inside : item ∈ all)
    (contender : contends item) (stays : ∀ later ∈ all, contends later → before item later → tag item < tag later) :
    CanWin before tag contends all item := by
  obtain ⟨previous, reached, below, superseded, above⟩ := leaves
  exact .hop reached inside contender below superseded above stays

/-- An item placed after every smaller tag is superseded by larger tags only. -/
theorem stays_of_placedBelow (irreflexive : ∀ item ∈ all, ¬ before item item) (distinct : DistinctTags tag all)
    (inside : item ∈ all) (notBefore : ∀ other ∈ items, ¬ before item other)
    (placed : PlacedBelow tag contends all items (tag item)) :
    ∀ later ∈ all, contends later → before item later → tag item < tag later := by
  intro later laterIn laterContends seen
  by_contra small
  rcases lt_or_eq_of_le (not_lt.mp small) with less | same
  · exact notBefore later (placed later laterIn laterContends less) seen
  · obtain rfl := distinct later laterIn item inside same
    exact irreflexive later inside seen

theorem CanWin.mem (reached : CanWin before tag contends items item) : item ∈ items ∧ contends item := by
  cases reached with
  | least inside contender _ | hop _ inside contender _ _ _ _ => exact ⟨inside, contender⟩

/-- Which items can win depends on the members and the contenders of the list only. -/
theorem CanWin.of_same {rearranged : List Item} (members : ∀ item, item ∈ items ↔ item ∈ rearranged)
    (same : ∀ item, contends item ↔ others item) (reached : CanWin before tag contends items item) :
    CanWin before tag others rearranged item := by
  obtain rfl : contends = others := funext fun item => propext (same item)
  induction reached with
  | least inside contender smallest =>
    exact .least ((members _).mp inside) contender fun other otherIn => smallest other ((members other).mpr otherIn)
  | hop _ inside contender larger superseded above stays ih =>
    exact .hop ih ((members _).mp inside) contender larger
      (fun none => superseded fun later laterIn => none later ((members later).mp laterIn))
      (fun later laterIn => above later ((members later).mpr laterIn))
      (fun later laterIn => stays later ((members later).mpr laterIn))

/-- An item that can win is superseded by larger tags only. -/
theorem CanWin.stays (irreflexive : ∀ item ∈ items, ¬ before item item) (distinct : DistinctTags tag items)
    (reached : CanWin before tag contends items item) :
    ∀ later ∈ items, contends later → before item later → tag item < tag later := by
  cases reached with
  | least inside contender smallest =>
    intro later laterIn laterContends seen
    rcases lt_or_eq_of_le (smallest later laterIn laterContends) with less | same
    · exact less
    · obtain rfl := distinct item inside later laterIn same
      exact absurd seen (irreflexive item inside)
  | hop _ _ _ _ _ _ stays => exact stays

/-- Contenders with tags above the item's tag do not take away that it can win. -/
theorem CanWin.widen (subset : ∀ other ∈ few, contends other → other ∈ many)
    (extra : ∀ other ∈ many, contends other → other ∉ few → bound ≤ tag other)
    (reached : CanWin before tag contends few item) (small : tag item < bound) :
    CanWin before tag contends many item := by
  induction reached with
  | @least item inside contender smallest =>
    refine .least (subset item inside contender) contender ?_
    intro other otherIn otherContends
    by_cases old : other ∈ few
    · exact smallest other old otherContends
    · exact (small.trans_le (extra other otherIn otherContends old)).le
  | @hop item next _ inside contender larger superseded above stays ih =>
    refine .hop (ih (larger.trans small)) (subset next inside contender) contender larger ?_ ?_ ?_
    · exact fun none => superseded fun later laterIn laterContends =>
        none later (subset later laterIn laterContends) laterContends
    · intro later laterIn laterContends seen
      by_cases old : later ∈ few
      · exact above later old laterContends seen
      · exact (small.trans_le (extra later laterIn laterContends old)).le
    · intro later laterIn laterContends seen
      by_cases old : later ∈ few
      · exact stays later old laterContends seen
      · exact small.trans_le (extra later laterIn laterContends old)

/-- Without contenders of larger tags an item still can win, or the way to it passes an item that
only the removed contenders supersede. -/
theorem CanWin.narrow (subset : few ⊆ many) (extra : ∀ other ∈ many, contends other → other ∉ few → bound ≤ tag other)
    (reached : CanWin before tag contends many item) (small : tag item < bound) :
    CanWin before tag contends few item ∨
    ∃ last, CanWin before tag contends few last ∧ tag last < tag item ∧
      ¬ Unsuperseded before contends many last ∧ Unsuperseded before contends few last := by
  have kept : ∀ other ∈ many, contends other → tag other < bound → other ∈ few := by
    intro other otherIn otherContends below
    by_contra removed
    exact absurd below (not_lt.mpr (extra other otherIn otherContends removed))
  induction reached with
  | @least item inside contender smallest =>
    left
    exact .least (kept item inside contender small) contender
      fun other otherIn => smallest other (subset otherIn)
  | @hop item next _ inside contender larger superseded above stays ih =>
    rcases ih (larger.trans small) with still | ⟨last, lastReached, below, outside, inner⟩
    · by_cases free : Unsuperseded before contends few item
      · right
        exact ⟨item, still, larger, superseded, free⟩
      left
      exact .hop still (kept next inside contender small) contender larger free
        (fun later laterIn => above later (subset laterIn))
        (fun later laterIn => stays later (subset laterIn))
    · right
      exact ⟨last, lastReached, below.trans larger, outside, inner⟩

variable (before tag contends) [DecidableRel before] [DecidablePred contends]

instance (challenger champion : Item) : Decidable (Beats before tag challenger champion) :=
  inferInstanceAs (Decidable (_ ∨ _))

/-- One item meets the current champion; an item that does not contend changes nothing. -/
def challenge (champion : Option Item) (challenger : Item) : Option Item :=
  if contends challenger then
    match champion with
    | none => some challenger
    | some current => if Beats before tag challenger current then some challenger else some current
  else champion

/-- The champion after every item of the list challenged in turn. -/
def champion (items : List Item) : Option Item :=
  items.foldl (challenge before tag contends) none

variable {before tag contends}

@[simp]
theorem champion_nil : champion before tag contends [] = none := rfl

@[simp]
theorem champion_append_singleton (items : List Item) (item : Item) :
    champion before tag contends (items ++ [item]) =
      challenge before tag contends (champion before tag contends items) item := by
  simp [champion]

theorem champion_append (items others : List Item) :
    champion before tag contends (items ++ others) =
      others.foldl (challenge before tag contends) (champion before tag contends items) := by
  simp [champion]

/-- The champion depends on the contenders of the list only. -/
theorem champion_congr [DecidablePred others] (same : ∀ item ∈ items, contends item ↔ others item) :
    champion before tag contends items = champion before tag others items := by
  induction items using List.reverseRecOn with
  | nil => rfl
  | append_singleton items item ih =>
    rw [champion_append_singleton, champion_append_singleton,
      ih fun other inside => same other (by simp [inside])]
    simp [challenge, same item (by simp)]

theorem challenge_of_not_contends {current : Option Item} (spectator : ¬ contends item) :
    challenge before tag contends current item = current := by
  simp [challenge, spectator]

theorem challenge_of_beats (contender : contends item) (beats : Beats before tag item current) :
    challenge before tag contends (some current) item = some item := by
  simp [challenge, contender, beats]

theorem challenge_of_not_beats (loses : ¬ Beats before tag item current) :
    challenge before tag contends (some current) item = some current := by
  unfold challenge
  split <;> simp [loses]

variable (before tag contends) in
/-- A challenge leaves the champion in place, or makes the contending challenger the champion. -/
theorem challenge_cases (current : Option Item) (item : Item) :
    (challenge before tag contends current item = current ∧
      (contends item → ∃ champion, current = some champion ∧ ¬ Beats before tag item champion)) ∨
    (contends item ∧ challenge before tag contends current item = some item ∧
      ∀ champion, current = some champion → Beats before tag item champion) := by
  by_cases contender : contends item
  · cases current with
    | none => right; simp [challenge, contender]
    | some champion =>
      by_cases beats : Beats before tag item champion
      · right
        exact ⟨contender, challenge_of_beats contender beats, by rintro _ ⟨rfl⟩; exact beats⟩
      · left
        exact ⟨challenge_of_not_beats beats, fun _ => ⟨champion, rfl, beats⟩⟩
  · left
    exact ⟨challenge_of_not_contends contender, fun present => absurd present contender⟩

/-- The champion is a contender of the list that no contender of the list supersedes. -/
theorem champion_spec (irreflexive : ∀ item ∈ items, ¬ before item item) (ordered : InOrder before items)
    (found : champion before tag contends items = some current) :
    current ∈ items ∧ contends current ∧ Unsuperseded before contends items current := by
  induction items using List.reverseRecOn generalizing current with
  | nil => simp at found
  | append_singleton items item ih =>
    rw [champion_append_singleton] at found
    have itemIn : item ∈ items ++ [item] := by simp
    have notBefore : ∀ other ∈ items, ¬ before item other := by
      intro other otherIn
      exact (List.pairwise_append.mp ordered).2.2 other otherIn item (by simp)
    rcases challenge_cases before tag contends
      (champion before tag contends items) item with ⟨kept, loses⟩ | ⟨contender, won, -⟩
    · rw [kept] at found
      obtain ⟨currentIn, contender, unsuperseded⟩ :=
        ih (fun other otherIn => irreflexive other (by simp [otherIn]))
          (List.pairwise_append.mp ordered).1 found
      refine ⟨by simp [currentIn], contender, List.forall_mem_append.mpr ⟨unsuperseded, ?_⟩⟩
      refine List.forall_mem_singleton.mpr fun contending seen => ?_
      obtain ⟨champion, same, notBeats⟩ := loses contending
      rw [found] at same
      cases same
      exact notBeats (Or.inl seen)
    · rw [won] at found
      cases found
      exact ⟨itemIn, contender, List.forall_mem_append.mpr ⟨fun other otherIn _ => notBefore other otherIn,
        List.forall_mem_singleton.mpr fun _ => irreflexive item itemIn⟩⟩

/-- A list has a champion exactly when one of its items contends. -/
theorem champion_eq_none_iff (items : List Item) :
    champion before tag contends items = none ↔ ∀ item ∈ items, ¬ contends item := by
  induction items using List.reverseRecOn with
  | nil => simp
  | append_singleton items item ih =>
    rw [champion_append_singleton, List.forall_mem_append, List.forall_mem_singleton, ← ih]
    rcases challenge_cases before tag contends (champion before tag contends items) item with
      ⟨kept, loses⟩ | ⟨contender, won, -⟩
    · rw [kept]
      refine ⟨fun none => ⟨none, fun contender => ?_⟩, And.left⟩
      obtain ⟨champion, same, -⟩ := loses contender
      simp [none] at same
    · simp [won, contender]

/-- A prefix that holds every tag below its champion's tag has a champion that can win, and a prefix
whose champion is above a bound has left the items below it. -/
theorem champion_progress (irreflexive : ∀ item ∈ all, ¬ before item item) (distinct : DistinctTags tag all)
    (subset : items ⊆ all) (ordered : InOrder before items)
    (found : champion before tag contends items = some current) :
    (PlacedBelow tag contends all items (tag current) → CanWin before tag contends all current) ∧
    ∀ bound, bound ≤ tag current → PlacedBelow tag contends all items bound →
      (∃ item ∈ all, contends item ∧ tag item < bound) → LeavesBelow before tag contends all bound := by
  induction items using List.reverseRecOn generalizing current with
  | nil => simp at found
  | append_singleton items item ih =>
    rw [champion_append_singleton] at found
    have itemIn : item ∈ all := subset (by simp)
    have oldSubset : items ⊆ all := fun other otherIn => subset (by simp [otherIn])
    have oldOrdered : InOrder before items := (List.pairwise_append.mp ordered).1
    have notBefore : ∀ other ∈ items, ¬ before item other := fun other otherIn =>
      (List.pairwise_append.mp ordered).2.2 other otherIn item (by simp)
    rcases challenge_cases before tag contends
      (champion before tag contends items) item with ⟨kept, loses⟩ | ⟨contender, won, beaten⟩
    · rw [kept] at found
      obtain ⟨settled, leaves⟩ := ih oldSubset oldOrdered found
      have large : contends item → tag current ≤ tag item := by
        intro contender
        obtain ⟨champion, same, notBeats⟩ := loses contender
        obtain rfl : current = champion := by simpa [found] using same
        have currentIn := (champion_spec (fun x xIn => irreflexive x (oldSubset xIn)) oldOrdered found).1
        exact not_lt.mp fun small => notBeats (Or.inr ⟨notBefore current currentIn, small⟩)
      exact ⟨fun placed => settled (placed.of_append large),
        fun bound low placed => leaves bound low (placed.of_append fun contender => low.trans (large contender))⟩
    · obtain rfl : item = current := by simpa [won] using found
      have leaves : ∀ bound, bound ≤ tag item → PlacedBelow tag contends all items bound →
          (∃ other ∈ all, contends other ∧ tag other < bound) → LeavesBelow before tag contends all bound := by
        intro bound low placed present
        obtain ⟨other, otherIn, otherContends, small⟩ := present
        cases previous : champion before tag contends items with
        | none =>
          have none := (champion_eq_none_iff items).mp previous
          exact absurd otherContends (none other (placed other otherIn otherContends small))
        | some champion =>
          obtain ⟨settled, old⟩ := ih oldSubset oldOrdered previous
          obtain ⟨-, -, unsuperseded⟩ :=
            champion_spec (fun x xIn => irreflexive x (oldSubset xIn)) oldOrdered previous
          rcases le_or_gt bound (tag champion) with high | below
          · exact old bound high placed ⟨other, otherIn, otherContends, small⟩
          have seen : before champion item := by
            rcases beaten champion previous with saw | ⟨-, smaller⟩
            · exact saw
            · exact absurd (below.trans_le low) (not_lt_of_gt smaller)
          have reached := settled fun x xIn xContends xSmall =>
            placed x xIn xContends (xSmall.trans below)
          exact leavesBelow_of_champion unsuperseded reached below placed itemIn contender seen
      refine ⟨?_, fun bound low placed => leaves bound low (placed.of_append fun _ => low)⟩
      intro placed
      have oldPlaced := placed.of_append fun _ => le_rfl
      by_cases present : ∃ other ∈ all, contends other ∧ tag other < tag item
      · exact (leaves _ le_rfl oldPlaced present).canWin itemIn contender
          (stays_of_placedBelow irreflexive distinct itemIn notBefore oldPlaced)
      · push Not at present
        exact .least itemIn contender present

/-- The final champion of an ordered list can win and is not superseded. -/
theorem champion_canWin (irreflexive : ∀ item ∈ items, ¬ before item item) (distinct : DistinctTags tag items)
    (ordered : InOrder before items) (found : champion before tag contends items = some current) :
    CanWin before tag contends items current ∧ Unsuperseded before contends items current :=
  ⟨(champion_progress irreflexive distinct (List.Subset.refl items) ordered found).1
      fun _ inside _ _ => inside,
    (champion_spec irreflexive ordered found).2.2⟩

end Champion

end SpSync.Foundation.Contest
