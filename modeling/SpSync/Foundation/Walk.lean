import Mathlib.Data.List.Basic
import Mathlib.Data.Nat.Find
import Mathlib.Order.Nat
import Mathlib.Data.List.Nodup
import Mathlib.Data.List.Perm.Subperm
import Mathlib.Logic.Function.Iterate
import Mathlib.Logic.Relation

namespace SpSync.Foundation.Walk

variable {Node : Type} (next : Node → Node) (stop : Node)

/-- The walk reaches the target after this many steps and does not stop before it. -/
def ReachesIn (steps : Nat) (start target : Node) : Prop :=
  (∀ index ≤ steps, next^[index] start ≠ stop) ∧ next^[steps] start = target

/-- The walk reaches the target. -/
def Reaches (start target : Node) : Prop :=
  ∃ steps, ReachesIn next stop steps start target

variable {next stop} {start target : Node}

theorem reachesIn_zero : ReachesIn next stop 0 start target ↔ start ≠ stop ∧ start = target := by
  simp [ReachesIn]

theorem reachesIn_succ {steps : Nat} :
    ReachesIn next stop (steps + 1) start target ↔
      start ≠ stop ∧ ReachesIn next stop steps (next start) target := by
  constructor
  · rintro ⟨continues, found⟩
    refine ⟨by simpa using continues 0 (Nat.zero_le _), fun index inside => ?_, found⟩
    exact continues (index + 1) (by omega)
  · rintro ⟨first, continues, found⟩
    refine ⟨fun index inside => ?_, found⟩
    cases index with
    | zero => exact first
    | succ index => exact continues index (by omega)

/-- A walk continues past the start of a later walk. -/
theorem Reaches.step (continues : start ≠ stop) (reached : Reaches next stop (next start) target) :
    Reaches next stop start target := by
  obtain ⟨steps, found⟩ := reached
  exact ⟨steps + 1, reachesIn_succ.mpr ⟨continues, found⟩⟩

theorem Reaches.target_ne (reached : Reaches next stop start target) : target ≠ stop := by
  obtain ⟨steps, continues, rfl⟩ := reached
  exact continues steps le_rfl

variable (next stop) in
/-- One step of a walk that does not stop on either side. -/
def Leads (node following : Node) : Prop :=
  node ≠ stop ∧ next node = following ∧ following ≠ stop

/-- A walk is a sequence of steps that do not stop. -/
theorem reaches_iff_leads (goes : target ≠ stop) :
    Reaches next stop start target ↔ Relation.ReflTransGen (Leads next stop) start target := by
  constructor
  · rintro ⟨steps, reached⟩
    induction steps generalizing start with
    | zero =>
      obtain ⟨-, rfl⟩ := reachesIn_zero.mp reached
      exact .refl
    | succ steps ih =>
      obtain ⟨continues, rest⟩ := reachesIn_succ.mp reached
      exact .head ⟨continues, rfl, rest.1 0 (Nat.zero_le _)⟩ (ih rest)
  · intro path
    induction path using Relation.ReflTransGen.head_induction_on with
    | refl => exact ⟨0, reachesIn_zero.mpr ⟨goes, rfl⟩⟩
    | head first _ ih =>
      obtain ⟨continues, rfl, -⟩ := first
      exact ih.step continues

theorem Reaches.trans {between : Node} (first : Reaches next stop start between)
    (second : Reaches next stop between target) : Reaches next stop start target := by
  have path := (reaches_iff_leads first.target_ne).mp first
  exact (reaches_iff_leads second.target_ne).mpr (path.trans ((reaches_iff_leads second.target_ne).mp second))

/-- Two nodes of one walk are equal, or one is reached after the other. -/
theorem Reaches.linear {first second : Node} (left : Reaches next stop start first)
    (right : Reaches next stop start second) :
    first = second ∨ Reaches next stop (next first) second ∨ Reaches next stop (next second) first := by
  have unique : Relator.RightUnique (Leads next stop) := by
    rintro _ _ _ ⟨-, rfl, -⟩ ⟨-, rfl, -⟩
    rfl
  have later {early late : Node} (goes : late ≠ stop) (path : Relation.ReflTransGen (Leads next stop) early late) :
      early = late ∨ Reaches next stop (next early) late := by
    obtain rfl | ⟨_, ⟨-, rfl, -⟩, rest⟩ := path.cases_head
    · exact Or.inl rfl
    · exact Or.inr ((reaches_iff_leads goes).mpr rest)
  obtain path | path := ((reaches_iff_leads left.target_ne).mp left).total_of_right_unique unique
    ((reaches_iff_leads right.target_ne).mp right)
  · exact (later right.target_ne path).imp_right Or.inl
  · exact (later left.target_ne path).imp Eq.symm Or.inr

/-- A shortest walk meets no node twice. -/
theorem exists_reachesIn_injective (reached : Reaches next stop start target) :
    ∃ steps, ReachesIn next stop steps start target ∧
      ∀ first second, first < second → second ≤ steps → next^[first] start ≠ next^[second] start := by
  classical
  obtain ⟨continues, found⟩ := Nat.find_spec reached
  refine ⟨Nat.find reached, ⟨continues, found⟩, fun first second less inside same => ?_⟩
  have shorter : Nat.find reached - (second - first) < Nat.find reached := by omega
  refine Nat.find_min reached shorter ⟨fun index low => continues index (by omega), ?_⟩
  rw [show Nat.find reached - (second - first) = (Nat.find reached - second) + first by omega,
    Function.iterate_add_apply, same, ← Function.iterate_add_apply,
    show Nat.find reached - second + second = Nat.find reached by omega]
  exact found

/-- A reachable node is reached in at most as many steps as there are nodes that do not stop. -/
theorem exists_reachesIn_le {nodes : List Node} (continuing : ∀ node, next node ≠ stop → node ∈ nodes)
    (reached : Reaches next stop start target) : ∃ steps ≤ nodes.length, ReachesIn next stop steps start target := by
  obtain ⟨steps, found, injective⟩ := exists_reachesIn_injective reached
  refine ⟨steps, ?_, found⟩
  have nodup : ((List.range steps).map fun index => next^[index] start).Nodup := by
    apply List.Nodup.map_on _ List.nodup_range
    intro first firstIn second secondIn same
    simp only [List.mem_range] at firstIn secondIn
    rcases Nat.lt_trichotomy first second with less | equal | more
    · exact absurd same (injective first second less (Nat.le_of_lt secondIn))
    · exact equal
    · exact absurd same.symm (injective second first more (Nat.le_of_lt firstIn))
  have subset : ((List.range steps).map fun index => next^[index] start) ⊆ nodes := by
    intro node inside
    obtain ⟨index, below, rfl⟩ := List.mem_map.mp inside
    apply continuing
    rw [← Function.iterate_succ_apply' next index start]
    exact found.1 (index + 1) (List.mem_range.mp below)
  simpa using (nodup.subperm subset).length_le

end SpSync.Foundation.Walk
