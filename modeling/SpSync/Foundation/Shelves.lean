import Mathlib.Data.List.Nodup
import Mathlib.Logic.Basic

namespace SpSync.Foundation

/-- The confirmed entries and the pending ones. -/
structure Shelves (Entry : Type) where
  confirmed : List Entry
  pending : List Entry

namespace Shelves

variable {Entry Name : Type} [DecidableEq Name] (name : Entry → Name)

/-- A confirmed entry replaces the pending one of its name; no name is confirmed twice. -/
def confirm (shelves : Shelves Entry) (entry : Entry) : Option (Shelves Entry) :=
  if name entry ∈ shelves.confirmed.map name then none
  else some ⟨shelves.confirmed ++ [entry], shelves.pending.filter fun other => name other ≠ name entry⟩

/-- The pending entry of a name stays. -/
def hold (shelves : Shelves Entry) (entry : Entry) : Shelves Entry :=
  if name entry ∈ shelves.pending.map name then shelves
  else { shelves with pending := shelves.pending ++ [entry] }

/-- The entry is held or confirmed. -/
def place (held : Bool) (shelves : Shelves Entry) (entry : Entry) : Option (Shelves Entry) :=
  if held then some (hold name shelves entry) else confirm name shelves entry

def placeAll (held : Bool) : List Entry → Shelves Entry → Option (Shelves Entry)
  | [], shelves => some shelves
  | entry :: rest, shelves => (place name held shelves entry).bind (placeAll held rest)

def confirmAll (entries : List Entry) (shelves : Shelves Entry) : Option (Shelves Entry) :=
  placeAll name false entries shelves

def holdAll (entries : List Entry) (shelves : Shelves Entry) : Shelves Entry :=
  entries.foldl (hold name) shelves

/-- No shelf has a name twice. -/
structure Proper (shelves : Shelves Entry) : Prop where
  confirmed : (shelves.confirmed.map name).Nodup
  pending : (shelves.pending.map name).Nodup

/-- The name is on exactly one shelf. -/
def Once (shelves : Shelves Entry) (wanted : Name) : Prop :=
  Xor (wanted ∈ shelves.confirmed.map name) (wanted ∈ shelves.pending.map name)

variable {name} {shelves next : Shelves Entry} {entries : List Entry} {entry : Entry} {wanted : Name}
  {others : List Name} {new held : List Entry}

/-- A name that is on one shelf has one entry. -/
theorem length_filter_eq_one_iff (proper : shelves.Proper name) :
    ((shelves.confirmed ++ shelves.pending).filter fun entry => name entry = wanted).length = 1 ↔
      shelves.Once name wanted := by
  have counted (entries : List Entry) :
      (entries.filter fun entry => name entry = wanted).length = (entries.map name).count wanted := by
    rw [List.count, List.countP_map, List.countP_eq_length_filter]
    rfl
  rw [counted, List.map_append, List.count_append, List.Nodup.count proper.confirmed,
    List.Nodup.count proper.pending]
  unfold Once Xor
  by_cases first : wanted ∈ shelves.confirmed.map name <;> by_cases second : wanted ∈ shelves.pending.map name <;>
    simp [first, second]

theorem placeAll_append (held : Bool) (entries later : List Entry) (shelves : Shelves Entry) :
    placeAll name held (entries ++ later) shelves =
      (placeAll name held entries shelves).bind (placeAll name held later) := by
  induction entries generalizing shelves with
  | nil => rfl
  | cons entry rest ih =>
    rw [List.cons_append, placeAll, placeAll, Option.bind_assoc]
    congr 1
    funext next
    exact ih next

theorem placeAll_held (entries : List Entry) (shelves : Shelves Entry) :
    placeAll name true entries shelves = some (holdAll name entries shelves) := by
  induction entries generalizing shelves with
  | nil => rfl
  | cons entry rest ih => exact ih (hold name shelves entry)

theorem confirmAll_cons (entry : Entry) (rest : List Entry) (shelves : Shelves Entry) :
    confirmAll name (entry :: rest) shelves = (confirm name shelves entry).bind (confirmAll name rest) := rfl

/-- A list of confirmations succeeds when the names are new and differ. -/
theorem confirmAll_eq_some_iff : confirmAll name entries shelves = some next ↔
    (∀ entry ∈ entries, name entry ∉ shelves.confirmed.map name) ∧ (entries.map name).Nodup ∧
      next = ⟨shelves.confirmed ++ entries, shelves.pending.filter fun other => name other ∉ entries.map name⟩ := by
  induction entries generalizing shelves with
  | nil => simp [confirmAll, placeAll, eq_comm]
  | cons entry rest ih =>
    rw [confirmAll_cons, confirm]
    split
    · rename_i present
      constructor
      · intro failed
        cases failed
      · intro both
        exact absurd present (both.1 entry List.mem_cons_self)
    · rename_i new
      rw [Option.bind_some, ih, List.map_cons, List.nodup_cons, List.forall_mem_cons]
      have confirmed : shelves.confirmed ++ [entry] ++ rest = shelves.confirmed ++ entry :: rest := by simp
      have pending : (shelves.pending.filter fun other => name other ≠ name entry).filter
          (fun other => name other ∉ rest.map name) =
          shelves.pending.filter fun other => name other ∉ name entry :: rest.map name := by
        rw [List.filter_filter]
        refine List.filter_congr fun other _ => ?_
        by_cases same : name other = name entry <;> simp [same]
      simp only [confirmed, pending]
      constructor
      · rintro ⟨fresh, nodup, rfl⟩
        refine ⟨⟨new, fun other inside old => ?_⟩, ⟨fun again => ?_, nodup⟩, rfl⟩
        · exact fresh other inside (List.map_append ▸ List.mem_append_left _ old)
        · obtain ⟨other, inside, same⟩ := List.mem_map.mp again
          exact fresh other inside (by simp [same])
      · rintro ⟨⟨_, fresh⟩, ⟨apart, nodup⟩, rfl⟩
        refine ⟨fun other inside stored => ?_, nodup, rfl⟩
        rw [List.map_append, List.mem_append, List.map_singleton, List.mem_singleton] at stored
        obtain old | same := stored
        · exact fresh other inside old
        · exact apart (same ▸ List.mem_map_of_mem inside)

theorem confirmed_confirmAll (settled : confirmAll name entries shelves = some next) :
    next.confirmed = shelves.confirmed ++ entries := by
  obtain ⟨_, _, rfl⟩ := confirmAll_eq_some_iff.mp settled
  rfl

theorem mem_pending_confirmAll (settled : confirmAll name entries shelves = some next) :
    entry ∈ next.pending ↔ entry ∈ shelves.pending ∧ name entry ∉ entries.map name := by
  obtain ⟨_, _, rfl⟩ := confirmAll_eq_some_iff.mp settled
  rw [List.mem_filter, decide_eq_true_eq]

theorem confirmed_holdAll (entries : List Entry) (shelves : Shelves Entry) :
    (holdAll name entries shelves).confirmed = shelves.confirmed := by
  induction entries generalizing shelves with
  | nil => rfl
  | cons entry rest ih =>
    rw [holdAll, List.foldl_cons]
    refine (ih _).trans ?_
    unfold hold
    split <;> rfl

theorem mem_names_holdAll : wanted ∈ (holdAll name entries shelves).pending.map name ↔
    wanted ∈ shelves.pending.map name ∨ wanted ∈ entries.map name := by
  induction entries generalizing shelves with
  | nil => simp [holdAll]
  | cons first rest ih =>
    have held : wanted ∈ (hold name shelves first).pending.map name ↔
        wanted ∈ shelves.pending.map name ∨ wanted = name first := by
      unfold hold
      split
      · rename_i present
        exact ⟨Or.inl, fun either => either.elim id fun same => same ▸ present⟩
      · rw [List.map_append, List.mem_append, List.map_singleton, List.mem_singleton]
    rw [holdAll, List.foldl_cons, ← holdAll, ih, held, List.map_cons, List.mem_cons, or_assoc]

/-- An entry that was pending stays pending. -/
theorem mem_holdAll_of_mem (inside : entry ∈ shelves.pending) :
    entry ∈ (holdAll name entries shelves).pending := by
  induction entries generalizing shelves with
  | nil => exact inside
  | cons first rest ih =>
    refine ih ?_
    unfold hold
    split
    · exact inside
    · exact List.mem_append_left _ inside

theorem mem_holdAll (inside : entry ∈ (holdAll name entries shelves).pending) :
    entry ∈ shelves.pending ∨ entry ∈ entries := by
  induction entries generalizing shelves with
  | nil => exact Or.inl inside
  | cons first rest ih =>
    obtain old | later := ih inside
    · unfold hold at old
      split at old
      · exact Or.inl old
      · obtain stored | single := List.mem_append.mp old
        · exact Or.inl stored
        · exact Or.inr (List.mem_cons.mpr (Or.inl (List.mem_singleton.mp single)))
    · exact Or.inr (List.mem_cons_of_mem _ later)

/-- The new names differ and are not confirmed, no held name is confirmed or new, and the other names are on one
shelf. -/
structure Ready (name : Entry → Name) (shelves : Shelves Entry) (new held others : List Name) : Prop where
  distinct : new.Nodup
  fresh : ∀ wanted ∈ new, wanted ∉ shelves.confirmed.map name ∧ wanted ∉ held
  unconfirmed : ∀ wanted ∈ held, wanted ∉ shelves.confirmed.map name
  placed : ∀ wanted ∈ others, wanted ∉ new → wanted ∉ held → shelves.Once name wanted

omit [DecidableEq Name] in
/-- The order of the new names does not matter. -/
theorem Ready.perm {new other held : List Name} (ready : Ready name shelves new held others) (same : new.Perm other) :
    Ready name shelves other held others where
  distinct := same.nodup_iff.mp ready.distinct
  fresh wanted inside := ready.fresh wanted (same.mem_iff.mpr inside)
  unconfirmed := ready.unconfirmed
  placed wanted inside apart := ready.placed wanted inside fun new => apart (same.mem_iff.mp new)

/-- What is on the shelves after the new entries were confirmed and the held ones kept. -/
theorem once_settled_iff (settled : confirmAll name new shelves = some next) :
    (holdAll name held next).Once name wanted ↔ Xor (wanted ∈ shelves.confirmed.map name ∨ wanted ∈ new.map name)
      ((wanted ∈ shelves.pending.map name ∧ wanted ∉ new.map name) ∨ wanted ∈ held.map name) := by
  have left : wanted ∈ next.pending.map name ↔ wanted ∈ shelves.pending.map name ∧ wanted ∉ new.map name := by
    constructor
    · intro inside
      obtain ⟨entry, kept, rfl⟩ := List.mem_map.mp inside
      obtain ⟨stored, apart⟩ := (mem_pending_confirmAll settled).mp kept
      exact ⟨List.mem_map_of_mem stored, apart⟩
    · rintro ⟨inside, apart⟩
      obtain ⟨entry, stored, rfl⟩ := List.mem_map.mp inside
      exact List.mem_map_of_mem ((mem_pending_confirmAll settled).mpr ⟨stored, apart⟩)
  unfold Once
  rw [confirmed_holdAll, mem_names_holdAll, confirmed_confirmAll settled, List.map_append, List.mem_append, left]

/-- The round succeeds and leaves each of the names on one shelf exactly when the shelves are ready for it. -/
theorem settles_iff_ready :
    (∃ next, confirmAll name new shelves = some next ∧
      ∀ wanted ∈ new.map name ++ held.map name ++ others, (holdAll name held next).Once name wanted) ↔
      Ready name shelves (new.map name) (held.map name) others := by
  constructor
  · rintro ⟨next, settled, once⟩
    obtain ⟨fresh, distinct, _⟩ := confirmAll_eq_some_iff.mp settled
    simp only [once_settled_iff settled, List.mem_append] at once
    have new (wanted : Name) (inside : wanted ∈ new.map name) : wanted ∉ shelves.confirmed.map name := by
      obtain ⟨entry, stored, rfl⟩ := List.mem_map.mp inside
      exact fresh entry stored
    refine ⟨distinct, fun wanted inside => ⟨new wanted inside, fun also => ?_⟩, fun wanted inside stored => ?_, ?_⟩
    · have both := once wanted (Or.inl (Or.inl inside))
      exact both.elim (fun left => left.2 (Or.inr also)) fun right => right.2 (Or.inr inside)
    · have both := once wanted (Or.inl (Or.inr inside))
      exact both.elim (fun left => left.2 (Or.inr inside)) fun right => right.2 (Or.inl stored)
    · intro wanted inside notNew notHeld
      have both := once wanted (Or.inr inside)
      unfold Once
      simpa only [notNew, notHeld, or_false, not_false_eq_true, and_true] using both
  · intro ready
    have settled := confirmAll_eq_some_iff.mpr
      ⟨fun entry inside => (ready.fresh (name entry) (List.mem_map_of_mem inside)).1, ready.distinct, rfl⟩
    refine ⟨_, settled, fun wanted inside => ?_⟩
    rw [once_settled_iff settled]
    by_cases isNew : wanted ∈ new.map name
    · exact Or.inl ⟨Or.inr isNew, fun either => either.elim (fun old => old.2 isNew) (ready.fresh wanted isNew).2⟩
    by_cases isHeld : wanted ∈ held.map name
    · exact Or.inr ⟨Or.inr isHeld, fun either => either.elim (ready.unconfirmed wanted isHeld) isNew⟩
    have other : wanted ∈ others := by
      simpa only [List.mem_append, isNew, isHeld, false_or] using inside
    have once : Xor _ _ := ready.placed wanted other isNew isHeld
    simpa only [isNew, isHeld, or_false, not_false_eq_true, and_true] using once

end Shelves

end SpSync.Foundation
