import Mathlib.Data.List.Basic
import Mathlib.Data.List.Nodup

namespace SpSync.Foundation

variable {Node Key : Type}

/-- The nodes along the links, up to the end or to a key that was visited before. -/
inductive Trail (key : Node → Key) (next : Node → Option Node) : List Key → Option Node → List Node → Prop
  | ended (visited : List Key) : Trail key next visited none []
  | again {visited : List Key} {node : Node} (seen : key node ∈ visited) : Trail key next visited (some node) []
  | step {visited : List Key} {node : Node} {path : List Node} (fresh : key node ∉ visited)
      (rest : Trail key next (key node :: visited) (next node) path) :
      Trail key next visited (some node) (node :: path)

namespace Trail

variable {key : Node → Key} {next : Node → Option Node} {visited : List Key} {start : Option Node} {path : List Node}

/-- The links determine the list. -/
theorem unique {other : List Node} (first : Trail key next visited start path)
    (second : Trail key next visited start other) : path = other := by
  induction first generalizing other with
  | ended visited =>
    cases second
    rfl
  | again seen =>
    cases second with
    | again _ => rfl
    | step fresh _ => exact absurd seen fresh
  | step fresh _ ih =>
    cases second with
    | again seen => exact absurd seen fresh
    | step _ rest => rw [ih rest]

section

variable (trail : Trail key next visited start path)
include trail

/-- What holds at the start and along the links holds on the whole list. -/
theorem all {holds : Node → Prop} (first : ∀ node ∈ start, holds node)
    (along : ∀ node found, holds node → next node = some found → holds found) : ∀ node ∈ path, holds node := by
  induction trail with
  | ended visited => simp
  | again seen => simp
  | @step visited node path fresh _ ih =>
    have here := first node rfl
    intro other inside
    obtain rfl | later := List.mem_cons.mp inside
    · exact here
    · exact ih (fun found linked => along node found here linked) other later

/-- No key is listed twice, and none that was visited. -/
theorem keys_nodup : (path.map key).Nodup ∧ ∀ node ∈ path, key node ∉ visited := by
  induction trail with
  | ended visited => simp
  | again seen => simp
  | @step visited node path fresh _ ih =>
    obtain ⟨nodup, apart⟩ := ih
    refine ⟨List.nodup_cons.mpr ⟨?_, nodup⟩, ?_⟩
    · intro repeated
      obtain ⟨other, inside, same⟩ := List.mem_map.mp repeated
      exact apart other inside (same ▸ List.mem_cons_self)
    · intro other inside
      obtain rfl | later := List.mem_cons.mp inside
      · exact fresh
      · exact fun seen => apart other later (List.mem_cons_of_mem _ seen)

/-- The start has a visited or a listed key, and so has every node that follows a listed one. -/
theorem closed :
    (∀ node ∈ start, key node ∈ visited ∨ node ∈ path) ∧
      ∀ node ∈ path, ∀ found, next node = some found → key found ∈ visited ∨ key found ∈ path.map key := by
  induction trail with
  | ended visited => simp
  | again seen =>
    refine ⟨fun node same => ?_, by simp⟩
    obtain rfl := Option.mem_some_iff.mp same
    exact Or.inl seen
  | @step visited node path fresh _ ih =>
    obtain ⟨first, along⟩ := ih
    refine ⟨fun other same => ?_, fun other inside found linked => ?_⟩
    · obtain rfl := Option.mem_some_iff.mp same
      exact Or.inr List.mem_cons_self
    have spread : key found ∈ key node :: visited ∨ key found ∈ path.map key →
        key found ∈ visited ∨ key found ∈ (node :: path).map key := by
      rw [List.map_cons, List.mem_cons, List.mem_cons]
      tauto
    obtain rfl | later := List.mem_cons.mp inside
    · exact spread ((first found linked).imp_right (List.mem_map_of_mem))
    · exact spread (along other later found linked)

/-- Links that agree on the listed nodes give the same list. -/
theorem congr {links : Node → Option Node} (same : ∀ node ∈ path, links node = next node) :
    Trail key links visited start path := by
  induction trail with
  | ended visited => exact .ended visited
  | again seen => exact .again seen
  | step fresh _ ih =>
    apply Trail.step fresh
    rw [same _ List.mem_cons_self]
    exact ih fun other inside => same other (List.mem_cons_of_mem _ inside)

end

end Trail

end SpSync.Foundation
