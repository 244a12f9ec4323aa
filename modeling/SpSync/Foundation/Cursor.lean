
namespace SpSync.Foundation.Cursor

variable {Item : Type} {assigned : Item → Prop} {below : Item → Item → Prop} {settled : Item → Prop}
  {items : List Item}

/-- Whatever lies below an item of the list is settled, or an earlier item of the list. -/
def Ready (assigned : Item → Prop) (below : Item → Item → Prop) : (Item → Prop) → List Item → Prop
  | _, [] => True
  | settled, item :: rest => (∀ other, assigned other → below other item → settled other) ∧
      Ready assigned below (fun other => settled other ∨ other = item) rest

theorem Ready.mono {wider : Item → Prop} (ready : Ready assigned below settled items)
    (more : ∀ other, settled other → wider other) : Ready assigned below wider items := by
  induction items generalizing settled wider with
  | nil => trivial
  | cons item rest ih =>
    refine ⟨fun other known lower => more other (ready.1 other known lower), ih ready.2 ?_⟩
    intro other either
    exact either.imp (more other) id

/-- Items whose lower items are all settled are ready in any order. -/
theorem ready_of_each (each : ∀ item ∈ items, ∀ other, assigned other → below other item → settled other) :
    Ready assigned below settled items := by
  induction items with
  | nil => trivial
  | cons item rest ih =>
    refine ⟨each item (by simp), Ready.mono (ih ?_) fun _ => Or.inl⟩
    intro later inside
    exact each later (by simp [inside])

/-- An ascending list that leaves out only settled items is ready. -/
theorem ready_of_sorted (irreflexive : ∀ item, ¬ below item item)
    (sorted : items.Pairwise fun left right => ¬ below right left)
    (filled : ∀ item ∈ items, ∀ other, assigned other → below other item → other ∈ items ∨ settled other) :
    Ready assigned below settled items := by
  induction items generalizing settled with
  | nil => trivial
  | cons item rest ih =>
    obtain ⟨first, later⟩ := List.pairwise_cons.mp sorted
    refine ⟨?_, ih later ?_⟩
    · intro other known lower
      rcases filled item (by simp) other known lower with inside | done
      · rcases List.mem_cons.mp inside with rfl | after
        · exact absurd lower (irreflexive other)
        · exact absurd lower (first other after)
      · exact done
    · intro next inside other known lower
      rcases filled next (by simp [inside]) other known lower with listed | done
      · rcases List.mem_cons.mp listed with same | after
        · exact Or.inr (Or.inr same)
        · exact Or.inl after
      · exact Or.inr (Or.inl done)

end SpSync.Foundation.Cursor
