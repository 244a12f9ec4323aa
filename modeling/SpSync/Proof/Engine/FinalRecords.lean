import SpSync.Proof.Engine.StrictChain

namespace SpSync.Engine

open Foundation RecordStorage

variable {lib : Securepath} {engine reached : Engine lib} {row : Row lib}

/-- A record in sync keeps its row through every move but a switch of the replica; only its envelope may change. -/
theorem guarded_inSync (inSync : row.state = .inSync) : Guarded (fun _ entry => entry ≠ .switch) (fun _ => True)
    fun engine => ∃ assignment, { row with assignment } ∈ engine.records.rows := by
  rintro start before after _ move ⟨assignment, inside⟩
  cases move with
  | quiet quiet => exact ⟨assignment, quiet.records ▸ inside⟩
  | send sends => exact ⟨assignment, sends.records ▸ inside⟩
  | @change changed next records change replaces =>
    by_cases same : { row with assignment } = changed
    · subst same
      obtain ⟨later, rfl⟩ | ⟨_, switched⟩ := change.of_inSync inSync
      · exact ⟨later, replaces.mem_iff.mpr (Or.inr rfl)⟩
      · exact absurd rfl switched
    · exact ⟨assignment, replaces.mem_iff.mpr (Or.inl ⟨inside, same⟩)⟩
  | arrive _ done =>
    exact ⟨assignment, mem_created done inside⟩
  | truncate _ permitted => exact absurd rfl permitted

/-- Without a switch of the replica or a pruned history a record in sync stays in sync with its block and its place,
whatever servers send and whatever the client changes. -/
theorem inSync_of_run (run : Runs step (AdmitsEvent fun _ entry => entry ≠ .switch) engine reached)
    (inside : row ∈ engine.records.rows) (inSync : row.state = .inSync) :
    ∃ assignment, { row with assignment } ∈ reached.records.rows :=
  (guarded_inSync inSync).run run ⟨row.assignment, inside⟩

/-- The client receives a record, commits its own next change, and has another one refused. -/
def busyClient : Engine .sample :=
  let own : EngineEvent .sample := .syncUserChange ⟨⟨.delta, []⟩, []⟩ []
  let made := pushedClient.step own
  let answer : EngineEvent .sample := .commitResponse 2
    { data := .ok ((made.created.getLastD firstChange).setSequenceAndParentHash 3 (Securepath.sample.hash secondChange)) }
  ((made.step answer).step own).step (.commitResponse 3 { data := .error ⟨.invalidRecord, ""⟩ })

theorem inSync_of_run_busy :
    (∃ assignment, { (answeredAt 1 []).records.rows.head (by decide +kernel) with assignment } ∈ busyClient.records.rows) ∧
      busyClient.records.rows.map (fun row => (row.sequence, row.state)) =
        [(1, .inSync), (2, .inSync), (3, .inSync), (4, .invalid)] := by
  refine ⟨inSync_of_run ?_ (List.head_mem _) (by decide +kernel), by decide +kernel⟩
  have admitted (engine : Engine .sample) (handle : Nat) (response : CommitResponse .sample) :
      AdmitsEvent (fun _ entry => entry ≠ .switch) engine (.commitResponse handle response) :=
    fun _ _ _ _ _ _ _ => nofun
  exact .tail (.tail (.tail (.tail (.tail (.refl _) (admits_of_all _ fun _ other => other)) trivial) (admitted _ _ _)) trivial)
    (admitted _ _ _)

end SpSync.Engine
