import SpSync.Foundation.Run
import SpSync.Proof.Core.BackedChunks

namespace SpSync

open Foundation

variable {lib : Securepath} {crypto : DataCrypto} {manifests : Octets → Prop}

/-- A store of record data with the chunks that are on their way in. -/
structure ChunkStreams (lib : Securepath) where
  store : RecordDataStore lib
  incoming : List IncomingChunk := []

/-- The calls on a store of record data; a data is written, or adopted, in one call. -/
inductive ChunkCall
  | registerData (stated : StatedDescriptor) (manifest : DataManifest)
  | registerDescriptor (stated : StatedDescriptor)
  | setManifest (id : Octets) (manifest : DataManifest)
  | openData (groupKeys : List EncryptionKey) (stated : StatedDescriptor) (header : DataHeader)
  | beginChunk (id : Octets) (chunkNo : Nat)
  | appendPiece (place offset : Nat) (piece : Octets)
  | finishChunk (place : Nat)
  | dropIncoming (place : Nat)
  | copyRecordData (groupKey : EncryptionKey) (chunkSize : Nat) (nonce : Octets) (pieces : List Octets)
  | adoptContent (source : ContentSource) (groupKey : EncryptionKey) (wanted : StatedDescriptor) (header : DataHeader)
  | evict (id : Octets)
  | prune (id : Octets)
  | remove (ids : List Octets)
deriving DecidableEq, Repr

namespace ChunkStreams

/-- A chunk on its way in changes, and the store with it. -/
def withIncoming (streams : ChunkStreams lib) (place : Nat)
    (use : IncomingChunk → RecordDataStore lib × IncomingChunk × Bool) : ChunkStreams lib :=
  match streams.incoming[place]? with
  | some chunk => ⟨(use chunk).1, streams.incoming.set place (use chunk).2.1⟩
  | none => streams

def step (crypto : DataCrypto) (streams : ChunkStreams lib) : ChunkCall → ChunkStreams lib
  | .registerData stated manifest =>
      { streams with store := (streams.store.registerData crypto stated manifest).1 }
  | .registerDescriptor stated => { streams with store := (streams.store.registerDescriptor stated).1 }
  | .setManifest id manifest => { streams with store := (streams.store.setManifest crypto id manifest).1 }
  | .openData groupKeys stated header =>
      match streams.store.openData crypto groupKeys stated header with
      | .ok (store, _) => { streams with store }
      | .error _ => streams
  | .beginChunk id chunkNo =>
      match streams.store.beginChunk id chunkNo with
      | (store, some chunk) => ⟨store, streams.incoming ++ [chunk]⟩
      | (store, none) => { streams with store }
  | .appendPiece place offset piece =>
      streams.withIncoming place fun chunk => chunk.append streams.store offset piece
  | .finishChunk place => streams.withIncoming place fun chunk => chunk.finish crypto streams.store
  | .dropIncoming place =>
      streams.withIncoming place fun chunk =>
        let (store, chunk) := chunk.discard streams.store
        (store, chunk, false)
  | .copyRecordData groupKey chunkSize nonce pieces =>
      { streams with store := (DataWriter.copyRecordData crypto streams.store groupKey chunkSize nonce pieces).1 }
  | .adoptContent source groupKey wanted header =>
      { streams with store := (streams.store.adoptContent crypto source groupKey wanted header).1 }
  | .evict id => { streams with store := (streams.store.evict id).1 }
  | .prune id => { streams with store := (streams.store.prune id).1 }
  | .remove ids => { streams with store := (streams.store.remove ids).1 }

/-- The condition on a call. The manifests that are taken are among those without collisions. When a chunk that came in
whole is finished, the data, if it is known, has its manifest and gives the chunk the size it was begun with. A data
that is written is not known under another descriptor and not held in part, and one that is adopted is not known under
another descriptor. -/
def Meets (crypto : DataCrypto) (manifests : Octets → Prop) (streams : ChunkStreams lib) : ChunkCall → Prop
  | .registerData stated manifest =>
      manifest.matchesDescriptor lib crypto stated.toDataDescriptor = true → manifests manifest.octets
  | .setManifest id manifest => ∀ row, streams.store.table.find id = some row →
      manifest.matchesDescriptor lib crypto row.descriptor = true → manifests manifest.octets
  | .finishChunk place => ∀ chunk row, streams.incoming[place]? = some chunk → chunk.isOpen = true →
      chunk.hashed.length = chunk.expectedSize → crypto.hash chunk.hashed = chunk.expectedDigest →
      streams.store.table.find chunk.id = some row → chunk.chunkNo < row.descriptor.chunkCount lib →
        row.digests.isSome = true ∧ row.descriptor.chunkEncSize lib chunk.chunkNo = chunk.expectedSize
  | .copyRecordData groupKey chunkSize nonce pieces =>
      let result := dataResult crypto groupKey chunkSize nonce pieces.flatten
      chunkSize ≠ 0 → result.descriptor.usable lib = true → manifests result.manifest.octets ∧
        ∀ row, streams.store.table.find result.descriptor.manifestDigest = some row →
          row.descriptor = result.descriptor ∧
            (streams.store.files.dirs result.descriptor.manifestDigest = none ∨ row.haveBits.complete = true)
  | .adoptContent source groupKey wanted header =>
      let result := dataResult crypto groupKey wanted.chunkSize header.nonce source.pieces.flatten
      wanted.chunkSize ≠ 0 → wanted.toDataDescriptor = result.descriptor → manifests result.manifest.octets ∧
        ∀ row, streams.store.table.find wanted.manifestDigest = some row → row.descriptor = wanted.toDataDescriptor
  | _ => True

/-- What came in of a chunk is staged, and its digest is that of a manifest of its data. -/
structure Expects (lib : Securepath) (crypto : DataCrypto) (manifests : Octets → Prop) (files : ChunkFiles)
    (chunk : IncomingChunk) : Prop where
  drawn : chunk.stage ≤ files.lastStage
  staged : files.staged chunk.stage chunk.chunkNo = if chunk.hashed = [] then none else some chunk.hashed
  digest : ∃ digests, manifests digests ∧ crypto.hash digests = chunk.id ∧
    digestAt lib digests chunk.chunkNo = some chunk.expectedDigest

/-- The store is sound, and each chunk on its way in has a staging area of its own. -/
structure Consistent (crypto : DataCrypto) (manifests : Octets → Prop) (streams : ChunkStreams lib) : Prop where
  sound : Sound crypto manifests streams.store
  expects : ∀ (place : Nat) (chunk : IncomingChunk), streams.incoming[place]? = some chunk → chunk.isOpen = true →
    Expects lib crypto manifests streams.store.files chunk
  apart : ∀ (place other : Nat) (chunk second : IncomingChunk), streams.incoming[place]? = some chunk →
    streams.incoming[other]? = some second → chunk.isOpen = true → second.isOpen = true →
      chunk.stage = second.stage → place = other

variable {streams : ChunkStreams lib} {store : RecordDataStore lib} {later : RecordDataStore lib}

/-- A call that leaves the staging areas of others alone keeps what is expected of the chunks on their way in. -/
theorem Consistent.aside (consistent : Consistent crypto manifests streams) (sound : Sound crypto manifests store)
    (last : streams.store.files.lastStage ≤ store.files.lastStage)
    (stages : ∀ stage ≤ streams.store.files.lastStage, store.files.stages stage = streams.store.files.stages stage) :
    Consistent crypto manifests { streams with store } := by
  refine ⟨sound, fun place chunk there opened => ?_, consistent.apart⟩
  have expects := consistent.expects place chunk there opened
  refine ⟨Nat.le_trans expects.drawn last, ?_, expects.digest⟩
  rw [ChunkFiles.staged, stages chunk.stage expects.drawn]
  exact expects.staged

/-- A store whose staging areas are those of another. -/
structure SameStages (store later : RecordDataStore lib) : Prop where
  last : later.files.lastStage = store.files.lastStage
  stages : later.files.stages = store.files.stages

theorem SameStages.ofFiles (same : later.files = store.files) : SameStages store later :=
  ⟨congrArg ChunkFiles.lastStage same, congrArg ChunkFiles.stages same⟩

section

variable (consistent : Consistent crypto manifests streams)
include consistent

theorem Consistent.sameStages (sound : Sound crypto manifests store) (same : SameStages streams.store store) :
    Consistent crypto manifests { streams with store } :=
  consistent.aside sound (Nat.le_of_eq same.last.symm) fun stage _ => congrFun same.stages stage

theorem Consistent.withoutStage (sound : Sound crypto manifests store)
    (last : store.files.lastStage = streams.store.files.lastStage + 1)
    (stages : store.files.stages =
      Function.update streams.store.files.stages (streams.store.files.lastStage + 1) none) :
    Consistent crypto manifests { streams with store } := by
  refine consistent.aside sound (by omega) fun stage drawn => ?_
  rw [stages, Function.update_of_ne (by omega)]

/-- A chunk on its way in goes on in its own staging area. -/
theorem Consistent.withIncoming {place : Nat} {use : IncomingChunk → RecordDataStore lib × IncomingChunk × Bool}
    (goes : ∀ chunk, streams.incoming[place]? = some chunk →
      Sound crypto manifests (use chunk).1 ∧ (use chunk).1.files.lastStage = streams.store.files.lastStage ∧
      (∀ stage, (chunk.isOpen = true → stage ≠ chunk.stage) →
        (use chunk).1.files.stages stage = streams.store.files.stages stage) ∧
      ((use chunk).2.1.isOpen = true → chunk.isOpen = true ∧ (use chunk).2.1.stage = chunk.stage ∧
        Expects lib crypto manifests (use chunk).1.files (use chunk).2.1)) :
    Consistent crypto manifests (streams.withIncoming place use) := by
  unfold ChunkStreams.withIncoming
  split
  · rename_i chunk there
    obtain ⟨sound, last, stages, opened⟩ := goes chunk there
    obtain ⟨inside, -⟩ := List.getElem?_eq_some_iff.mp there
    have here : (streams.incoming.set place (use chunk).2.1)[place]? = some (use chunk).2.1 :=
      List.getElem?_set_self inside
    have other {second : Nat} (differs : second ≠ place) :
        (streams.incoming.set place (use chunk).2.1)[second]? = streams.incoming[second]? :=
      List.getElem?_set_ne differs.symm
    refine ⟨sound, fun second item found isOpen => ?_, fun first second left right leftThere rightThere => ?_⟩
    · by_cases same : second = place
      · rw [same, here] at found
        rw [← Option.some.inj found] at isOpen ⊢
        exact (opened isOpen).2.2
      · rw [other same] at found
        have expects := consistent.expects second item found isOpen
        refine ⟨Nat.le_trans expects.drawn (Nat.le_of_eq last.symm), ?_, expects.digest⟩
        rw [ChunkFiles.staged, stages item.stage fun chunkOpen sameStage =>
          same (consistent.apart second place item chunk found there isOpen chunkOpen sameStage)]
        exact expects.staged
    · by_cases atFirst : first = place
      · by_cases atSecond : second = place
        · exact fun _ _ _ => atFirst.trans atSecond.symm
        rw [atFirst, here] at leftThere
        rw [other atSecond] at rightThere
        intro leftOpen rightOpen sameStage
        rw [← Option.some.inj leftThere] at leftOpen sameStage
        obtain ⟨chunkOpen, kept, -⟩ := opened leftOpen
        exact atFirst.trans
          (consistent.apart place second chunk right there rightThere chunkOpen rightOpen (kept.symm.trans sameStage))
      · rw [other atFirst] at leftThere
        by_cases atSecond : second = place
        · rw [atSecond, here] at rightThere
          intro leftOpen rightOpen sameStage
          rw [← Option.some.inj rightThere] at rightOpen sameStage
          obtain ⟨chunkOpen, kept, -⟩ := opened rightOpen
          exact (consistent.apart first place left chunk leftThere there leftOpen chunkOpen
            (sameStage.trans kept)).trans atSecond.symm
        · rw [other atSecond] at rightThere
          exact consistent.apart first second left right leftThere rightThere
  · exact consistent

end

/-- A dropped chunk takes its staging area with it. -/
theorem discard_goes (sound : Sound crypto manifests store) (chunk : IncomingChunk) :
    Sound crypto manifests (chunk.discard store).1 ∧
      (chunk.discard store).1.files.lastStage = store.files.lastStage ∧
      (∀ stage, (chunk.isOpen = true → stage ≠ chunk.stage) →
        (chunk.discard store).1.files.stages stage = store.files.stages stage) ∧
      (chunk.discard store).2.isOpen ≠ true := by
  unfold IncomingChunk.discard
  split
  · rename_i opened
    refine ⟨sound.same rfl rfl, rfl, fun stage differs => ?_, Bool.false_ne_true⟩
    exact Function.update_of_ne (differs opened) _ _
  · rename_i closed
    exact ⟨sound, rfl, fun _ _ => rfl, closed⟩

theorem staged_writeStaged (files : ChunkFiles) (stage chunkNo : Nat) (octets : Octets) :
    (files.writeStaged stage chunkNo octets).staged stage chunkNo = some octets := by
  unfold ChunkFiles.writeStaged ChunkFiles.staged
  dsimp only
  rw [Function.update_self, Option.bind_some, Function.update_self]

theorem Consistent.appendPiece (consistent : Consistent crypto manifests streams) (place offset : Nat) (piece : Octets) :
    Consistent crypto manifests (streams.step crypto (.appendPiece place offset piece)) := by
  refine consistent.withIncoming fun chunk there => ?_
  unfold IncomingChunk.append
  split
  · rename_i accepted
    obtain ⟨⟨⟨opened, -⟩, filled⟩, -⟩ := by simpa only [Bool.and_eq_true] using accepted
    have expects := consistent.expects place chunk there opened
    refine ⟨consistent.sound.same rfl rfl, rfl, fun stage differs => Function.update_of_ne (differs opened) _ _,
      fun _ => ⟨opened, rfl, expects.drawn, ?_, expects.digest⟩⟩
    have content : (streams.store.files.staged chunk.stage chunk.chunkNo).getD [] = chunk.hashed := by
      rw [expects.staged]
      split
      · rename_i empty
        exact empty.symm
      · rfl
    have longer : chunk.hashed ++ piece ≠ [] := List.append_ne_nil_of_right_ne_nil _ (of_decide_eq_true filled)
    rw [if_neg longer, ChunkFiles.appendStaged, content]
    exact staged_writeStaged _ _ _ _
  · obtain ⟨sound, last, stages, closed⟩ := discard_goes consistent.sound chunk
    exact ⟨sound, last, stages, fun opened => absurd opened closed⟩

theorem files_adoptChunk (store : RecordDataStore lib) (id : Octets) (chunkNo stage : Nat) :
    (store.adoptChunk id chunkNo stage).1.files.lastStage = store.files.lastStage ∧
      (store.adoptChunk id chunkNo stage).1.files.stages = Function.update store.files.stages stage none := by
  unfold RecordDataStore.adoptChunk
  split
  · split
    · exact ⟨rfl, rfl⟩
    · rw [Sound.files_markHeld]
      exact ⟨rfl, rfl⟩
  · exact ⟨rfl, rfl⟩

section

variable (consistent : Consistent crypto manifests streams) {groupKey : EncryptionKey}

include consistent

/-- A chunk that is finished is the one that the manifest of its known data names, or it is dropped. -/
theorem Consistent.finishChunk (free : CollisionFree crypto manifests) {place : Nat}
    (meets : streams.Meets crypto manifests (.finishChunk place)) :
    Consistent crypto manifests (streams.step crypto (.finishChunk place)) := by
  refine consistent.withIncoming fun chunk there => ?_
  unfold IncomingChunk.finish
  split
  · rename_i accepted
    obtain ⟨⟨⟨opened, complete⟩, hashed⟩, sized⟩ := by simpa only [Bool.and_eq_true] using accepted
    have expects := consistent.expects place chunk there opened
    have whole : chunk.hashed.length = chunk.expectedSize := of_decide_eq_true complete
    have staged : streams.store.files.staged chunk.stage chunk.chunkNo = some chunk.hashed := by
      have size := of_decide_eq_true sized
      rw [ChunkFiles.stagedSize, expects.staged] at size
      rw [expects.staged]
      split
      · rename_i empty
        rw [if_pos empty] at size
        exact absurd size.symm (Option.some_ne_none _)
      · rfl
    obtain ⟨last, stages⟩ := files_adoptChunk streams.store chunk.id chunk.chunkNo chunk.stage
    refine ⟨consistent.sound.adoptChunk staged fun row found inside => ?_, last, fun stage differs => ?_,
      fun opened => absurd opened Bool.false_ne_true⟩
    · obtain ⟨hasManifest, size⟩ := meets chunk row there opened whole (of_decide_eq_true hashed) found inside
      obtain ⟨digests, kept⟩ := Option.isSome_iff_exists.mp hasManifest
      obtain ⟨named, among⟩ := (consistent.sound.rows _ row found).named digests kept
      obtain ⟨begun, begunAmong, begunNamed, digest⟩ := expects.digest
      rw [free begun digests begunAmong among (begunNamed.trans named.symm)] at digest
      refine ⟨whole.trans size.symm, chunkDigest_eq_some_iff.mpr ⟨digests, kept, ?_⟩⟩
      rw [digest, ← of_decide_eq_true hashed]
    · rw [stages]
      exact Function.update_of_ne (differs opened) _ _
  · obtain ⟨sound, last, stages, closed⟩ := discard_goes consistent.sound chunk
    exact ⟨sound, last, stages, fun opened => absurd opened closed⟩

theorem Consistent.dropIncoming (place : Nat) :
    Consistent crypto manifests (streams.step crypto (.dropIncoming place)) := by
  refine consistent.withIncoming fun chunk _ => ?_
  obtain ⟨sound, last, stages, closed⟩ := discard_goes consistent.sound chunk
  exact ⟨sound, last, stages, fun opened => absurd opened closed⟩

/-- A chunk begins in a new staging area. -/
theorem Consistent.begun {chunk : IncomingChunk} (fresh : chunk.stage = streams.store.files.lastStage + 1)
    (nothing : chunk.hashed = [])
    (digest : ∃ digests, manifests digests ∧ crypto.hash digests = chunk.id ∧
      digestAt lib digests chunk.chunkNo = some chunk.expectedDigest) :
    Consistent crypto manifests
      ⟨{ streams.store with files := streams.store.files.beginStaging.1 }, streams.incoming ++ [chunk]⟩ := by
  let store := { streams.store with files := streams.store.files.beginStaging.1 }
  have sound : Sound crypto manifests store := consistent.sound.same rfl rfl
  have before := consistent.aside sound (Nat.le_succ _) fun stage drawn => Function.update_of_ne (by omega) _ _
  have older {place : Nat} {other : IncomingChunk} (there : streams.incoming[place]? = some other)
      (opened : other.isOpen = true) : other.stage ≠ chunk.stage := by
    have drawn := (consistent.expects place other there opened).drawn
    omega
  have inside {place : Nat} {other : IncomingChunk} (there : (streams.incoming ++ [chunk])[place]? = some other) :
      streams.incoming[place]? = some other ∨ place = streams.incoming.length ∧ other = chunk := by
    by_cases old : place < streams.incoming.length
    · rw [List.getElem?_append_left old] at there
      exact .inl there
    rw [List.getElem?_append_right (Nat.le_of_not_lt old), List.getElem?_singleton] at there
    split at there
    · exact .inr ⟨by omega, (Option.some.inj there).symm⟩
    · exact absurd there.symm (Option.some_ne_none _)
  refine ⟨before.sound, fun place other there opened => ?_, fun first second left right leftThere rightThere => ?_⟩
  · obtain old | ⟨-, rfl⟩ := inside there
    · exact before.expects place other old opened
    refine ⟨Nat.le_of_eq fresh, ?_, digest⟩
    rw [if_pos nothing, fresh]
    show (Function.update streams.store.files.stages _ _ _).bind _ = none
    rw [Function.update_self]
    rfl
  · intro leftOpen rightOpen sameStage
    obtain leftOld | ⟨leftPlace, leftNew⟩ := inside leftThere
    · obtain rightOld | ⟨-, rightNew⟩ := inside rightThere
      · exact consistent.apart first second left right leftOld rightOld leftOpen rightOpen sameStage
      · rw [rightNew] at sameStage
        exact absurd sameStage (older leftOld leftOpen)
    · obtain rightOld | ⟨rightPlace, -⟩ := inside rightThere
      · rw [leftNew] at sameStage
        exact absurd sameStage.symm (older rightOld rightOpen)
      · exact leftPlace.trans rightPlace.symm

/-- A chunk begins with the digest of the manifest that its data has. -/
theorem Consistent.beginChunk (id : Octets) (chunkNo : Nat) :
    Consistent crypto manifests (streams.step crypto (.beginChunk id chunkNo)) := by
  dsimp only [step]
  unfold RecordDataStore.beginChunk
  cases known : streams.store.table.find id with
  | none => exact consistent
  | some row =>
    by_cases inside : chunkNo < row.descriptor.chunkCount lib
    · cases named : row.chunkDigest chunkNo with
      | none =>
        dsimp only
        rw [if_pos inside, named]
        exact consistent
      | some digest =>
        obtain ⟨digests, kept, found⟩ := chunkDigest_eq_some_iff.mp named
        obtain ⟨hash, among⟩ := (consistent.sound.rows id row known).named digests kept
        dsimp only
        rw [if_pos inside, named]
        exact consistent.begun rfl rfl ⟨digests, among, hash, found⟩
    · dsimp only
      rw [if_neg inside]
      exact consistent

theorem Consistent.copyRecordData (free : CollisionFree crypto manifests) (lawful : crypto.Lawful lib)
    {chunkSize : Nat} {nonce : Octets} {pieces : List Octets}
    (meets : streams.Meets crypto manifests (.copyRecordData groupKey chunkSize nonce pieces)) :
    Consistent crypto manifests (streams.step crypto (.copyRecordData groupKey chunkSize nonce pieces)) := by
  by_cases works : chunkSize = 0 ∨
      (dataResult crypto groupKey chunkSize nonce pieces.flatten).descriptor.usable lib ≠ true
  · obtain ⟨error, failed⟩ := DataWriter.copyRecordData_error crypto groupKey nonce pieces streams.store works
    dsimp only [step]
    rw [failed]
    exact consistent.withoutStage (consistent.sound.same rfl rfl) rfl rfl
  · obtain ⟨positive, usable⟩ := not_or.mp works
    obtain ⟨later, copied, registered⟩ := DataWriter.copyRecordData_ok crypto groupKey positive nonce pieces
      streams.store (not_not.mp usable)
    obtain ⟨among, other⟩ := meets positive (not_not.mp usable)
    dsimp only [step]
    rw [copied]
    refine consistent.withoutStage ?_ (congrArg ChunkFiles.lastStage registered.files)
      (congrArg ChunkFiles.stages registered.files)
    refine consistent.sound.registered free lawful (described_dataResult lawful groupKey positive nonce _) among
      (fun row found => ?_) registered
    obtain ⟨descriptor, held⟩ := other row found
    exact ⟨descriptor, .inr held⟩

theorem Consistent.adoptContent (free : CollisionFree crypto manifests) (lawful : crypto.Lawful lib)
    {source : ContentSource} {wanted : StatedDescriptor} {header : DataHeader}
    (meets : streams.Meets crypto manifests (.adoptContent source groupKey wanted header)) :
    Consistent crypto manifests (streams.step crypto (.adoptContent source groupKey wanted header)) := by
  dsimp only [step]
  obtain ⟨later, adopted, positive, same, registered⟩ | unchanged | discarded :=
    streams.store.adoptContent_cases crypto source groupKey wanted header
  · obtain ⟨among, other⟩ := meets positive same
    rw [adopted]
    refine consistent.withoutStage ?_ (congrArg ChunkFiles.lastStage registered.files)
      (congrArg ChunkFiles.stages registered.files)
    refine consistent.sound.registered free lawful (described_dataResult lawful groupKey positive _ _) among
      (fun row found => ?_) registered
    rw [← same] at found ⊢
    exact ⟨other row found, .inl rfl⟩
  · rw [unchanged]
    exact consistent
  · rw [discarded]
    exact consistent.withoutStage (consistent.sound.same rfl rfl) rfl rfl

end

variable (store)

theorem files_registerDescriptor (stated : StatedDescriptor) :
    (store.registerDescriptor stated).1.files = store.files := by
  unfold RecordDataStore.registerDescriptor
  split <;> rfl

theorem files_registerData (stated : StatedDescriptor) (manifest : DataManifest) :
    (store.registerData crypto stated manifest).1.files = store.files := by
  have registered := files_registerDescriptor store stated
  unfold RecordDataStore.registerData
  split
  · cases returned : store.registerDescriptor stated with
    | mk middle row =>
      rw [returned] at registered
      cases row with
      | none => exact registered
      | some row => exact registered
  · rfl

theorem files_setManifest (id : Octets) (manifest : DataManifest) :
    (store.setManifest crypto id manifest).1.files = store.files := by
  unfold RecordDataStore.setManifest
  split
  · split <;> rfl
  · rfl

variable {store}

theorem files_openData {groupKeys : List EncryptionKey} {stated : StatedDescriptor} {header : DataHeader}
    {handle : Option StoredRecordData} (opened : store.openData crypto groupKeys stated header = .ok (later, handle)) :
    later.files = store.files := by
  have registered := files_registerDescriptor store stated
  unfold RecordDataStore.openData at opened
  split at opened
  · cases opened
  cases returned : store.registerDescriptor stated with
  | mk middle row =>
    rw [returned] at registered opened
    cases row with
    | none | some row =>
      rw [← (Prod.mk.inj (Except.ok.inj opened)).1]
      exact registered

variable (store)

theorem sameStages_evict (id : Octets) : SameStages store (store.evict id).1 := by
  unfold RecordDataStore.evict
  split
  · split <;> exact ⟨rfl, rfl⟩
  · exact ⟨rfl, rfl⟩

theorem sameStages_prune (id : Octets) : SameStages store (store.prune id).1 := by
  unfold RecordDataStore.prune
  split <;> exact ⟨rfl, rfl⟩

theorem sameStages_removeOne (id : Octets) : SameStages store (store.removeOne id).1 := by
  unfold RecordDataStore.removeOne
  split <;> exact ⟨rfl, rfl⟩

theorem sameStages_remove (ids : List Octets) : SameStages store (store.remove ids).1 := by
  induction ids generalizing store with
  | nil => exact ⟨rfl, rfl⟩
  | cons id others ih =>
    have first := sameStages_removeOne store id
    have later := ih (store.removeOne id).1
    exact ⟨later.last.trans first.last, later.stages.trans first.stages⟩

variable {store}

/-- Each call keeps a store consistent. -/
theorem Consistent.step (consistent : Consistent crypto manifests streams) (lawful : crypto.Lawful lib)
    (free : CollisionFree crypto manifests) {call : ChunkCall} (meets : streams.Meets crypto manifests call) :
    Consistent crypto manifests (streams.step crypto call) := by
  have sound := consistent.sound
  cases call with
  | registerData stated manifest =>
    exact consistent.sameStages (sound.registerData free stated meets) (.ofFiles (files_registerData _ _ _))
  | registerDescriptor stated =>
    exact consistent.sameStages (sound.registerDescriptor stated) (.ofFiles (files_registerDescriptor _ _))
  | setManifest id manifest =>
    exact consistent.sameStages (sound.setManifest free meets) (.ofFiles (files_setManifest _ _ _))
  | openData groupKeys stated header =>
    dsimp only [ChunkStreams.step]
    split
    · rename_i opened
      exact consistent.sameStages (sound.openData opened) (.ofFiles (files_openData opened))
    · exact consistent
  | beginChunk id chunkNo => exact consistent.beginChunk id chunkNo
  | appendPiece place offset piece => exact consistent.appendPiece place offset piece
  | finishChunk place => exact consistent.finishChunk free meets
  | dropIncoming place => exact consistent.dropIncoming place
  | copyRecordData groupKey chunkSize nonce pieces => exact consistent.copyRecordData free lawful meets
  | adoptContent source groupKey wanted header => exact consistent.adoptContent free lawful meets
  | evict id => exact consistent.sameStages (sound.evict id) (sameStages_evict _ id)
  | prune id => exact consistent.sameStages (sound.prune id) (sameStages_prune _ id)
  | remove ids => exact consistent.sameStages (sound.remove ids) (sameStages_remove _ ids)

theorem consistent_new : Consistent crypto manifests ⟨.new lib, []⟩ where
  sound := ⟨fun _ _ unknown => absurd unknown.symm (Option.some_ne_none _), fun _ _ => rfl⟩
  expects _ _ nothing := absurd nothing.symm (Option.some_ne_none _)
  apart _ _ _ _ nothing := absurd nothing.symm (Option.some_ne_none _)

/-- In every run whose calls meet the condition, the chunks that a known data has are those of its manifest, and a data
in sync has them all. -/
theorem held_of_run (lawful : crypto.Lawful lib) (free : CollisionFree crypto manifests)
    (run : Runs (step crypto) (Meets crypto manifests) ⟨.new lib, []⟩ streams) {id : Octets} {row : DataRow lib}
    (known : streams.store.table.find id = some row) :
    (∀ chunkNo, row.haveBits.test chunkNo = true → ∃ chunk, streams.store.files.read id chunkNo = some chunk ∧
      chunk.length = row.descriptor.chunkEncSize lib chunkNo ∧ row.chunkDigest chunkNo = some (crypto.hash chunk)) ∧
    (row.state = .inSync → ∀ chunkNo < row.descriptor.chunkCount lib, row.haveBits.test chunkNo = true) := by
  have consistent : Consistent crypto manifests streams :=
    run.keeps consistent_new fun _ _ consistent meets => consistent.step lawful free meets
  have backed := consistent.sound.rows id row known
  refine ⟨backed.held, fun inSync chunkNo inside => ?_⟩
  rw [← row.sized] at inside
  exact HaveBitmap.test_of_complete (backed.complete inSync) inside

end ChunkStreams

section Samples

open Encoding

/-- A hash that counts its octets, so that the chunk and the manifest of the sample have different ones. -/
def DataCrypto.counting : DataCrypto :=
  { DataCrypto.sample with hash := fun octets => (octet octets.length :: octets ++ List.replicate 64 (octet 0)).take 64 }

theorem lawful_counting : DataCrypto.counting.Lawful .sample where
  hashLength octets := by
    show ((octet octets.length :: octets ++ List.replicate 64 (octet 0)).take 64).length = 64
    rw [List.length_take, List.length_append, List.length_replicate]
    omega
  digestPositive := lawful_sample.digestPositive
  cipherLength := lawful_sample.cipherLength
  tagLength := lawful_sample.tagLength
  inverse := lawful_sample.inverse

namespace ChunkStreams

/-- An encrypted chunk and its digest, which is the manifest of a data of one chunk. -/
def sampleChunk : Octets := List.replicate 32 (octet 5)

def sampleDigest : Octets := DataCrypto.counting.hash sampleChunk

def sampleStated (encSize : Nat) : StatedDescriptor where
  encSize := encSize
  chunkSize := 16
  manifestDigest := DataCrypto.counting.hash sampleDigest

def sampleManifests : Octets → Prop := fun digests => digests = sampleDigest

/-- The data is registered. -/
def registeredData : ChunkStreams .sample :=
  step .counting ⟨.new .sample, []⟩ (.registerData (sampleStated 32) ⟨[sampleDigest]⟩)

/-- Its chunk is begun. -/
def begunChunk : ChunkStreams .sample :=
  registeredData.step .counting (.beginChunk (sampleStated 32).manifestDigest 0)

/-- All octets of the chunk came in one piece. -/
def filledChunk : ChunkStreams .sample :=
  begunChunk.step .counting (.appendPiece 0 0 sampleChunk)

def finishedChunk : ChunkStreams .sample :=
  filledChunk.step .counting (.finishChunk 0)

theorem meets_filledChunk : filledChunk.Meets .counting sampleManifests (.finishChunk 0) := by
  intro chunk row there _ _ _ known _
  have begun : filledChunk.incoming[0]?.map (fun chunk => (chunk.id, chunk.chunkNo, chunk.expectedSize)) =
      some ((sampleStated 32).manifestDigest, 0, 32) := by decide +kernel
  have registered : (filledChunk.store.table.find (sampleStated 32).manifestDigest).map
      (fun row => (row.digests.isSome, row.descriptor.chunkEncSize .sample 0)) = some (true, 32) := by decide +kernel
  rw [there, Option.map_some] at begun
  obtain ⟨sameId, same⟩ := Prod.mk.inj (Option.some.inj begun)
  obtain ⟨sameNo, sameSize⟩ := Prod.mk.inj same
  rw [sameId] at known
  rw [known, Option.map_some] at registered
  obtain ⟨hasManifest, size⟩ := Prod.mk.inj (Option.some.inj registered)
  rw [sameNo, sameSize]
  exact ⟨hasManifest, size⟩

theorem held_of_run_one :
    ∃ row chunk, finishedChunk.store.table.find (sampleStated 32).manifestDigest = some row ∧ row.state = .inSync ∧
      finishedChunk.store.files.read (sampleStated 32).manifestDigest 0 = some chunk ∧
      chunk.length = row.descriptor.chunkEncSize .sample 0 ∧
      row.chunkDigest 0 = some (DataCrypto.counting.hash chunk) := by
  have free : CollisionFree .counting sampleManifests := fun left right first second _ => first.trans second.symm
  have first : Runs (step .counting) (Meets .counting sampleManifests) ⟨.new .sample, []⟩ registeredData :=
    (Runs.refl _).tail fun _ => List.append_nil _
  have second : Runs (step .counting) (Meets .counting sampleManifests) ⟨.new .sample, []⟩ begunChunk :=
    first.tail trivial
  have third : Runs (step .counting) (Meets .counting sampleManifests) ⟨.new .sample, []⟩ filledChunk :=
    second.tail trivial
  have fourth : Runs (step .counting) (Meets .counting sampleManifests) ⟨.new .sample, []⟩ finishedChunk :=
    third.tail meets_filledChunk
  have bit : (finishedChunk.store.table.find (sampleStated 32).manifestDigest).map
      (fun row => (row.state, row.haveBits.test 0)) = some (.inSync, true) := by decide +kernel
  obtain ⟨row, known, same⟩ := Option.map_eq_some_iff.mp bit
  obtain ⟨inSync, held⟩ := Prod.mk.inj same
  obtain ⟨backed, -⟩ := held_of_run lawful_counting free fourth known
  obtain ⟨chunk, filed, size, digest⟩ := backed 0 held
  exact ⟨row, chunk, known, inSync, filed, size, digest⟩

/-- The data is removed while its chunk is on its way in, and registered again as a shorter one. -/
def shortened : ChunkStreams .sample :=
  ((begunChunk.step .counting (.remove [(sampleStated 32).manifestDigest])).step .counting
    (.registerData (sampleStated 17) ⟨[sampleDigest]⟩)).step .counting (.appendPiece 0 0 sampleChunk)

/-- The chunk is kept with a length that the descriptor does not give it. -/
theorem held_not_of_shortened :
    DataCrypto.counting.hash sampleChunk ≠ DataCrypto.counting.hash sampleDigest ∧
      ∃ row, (shortened.step .counting (.finishChunk 0)).store.table.find (sampleStated 17).manifestDigest = some row ∧
      row.haveBits.test 0 = true ∧ row.descriptor.chunkEncSize .sample 0 = 17 ∧
      (shortened.step .counting (.finishChunk 0)).store.files.size (sampleStated 17).manifestDigest 0 = some 32 := by
  refine ⟨by decide +kernel, _, rfl, ?_, ?_, ?_⟩
  · decide +kernel
  · decide +kernel
  · decide +kernel

end ChunkStreams

end Samples

end SpSync
